import Signet.Certificate.Trust
import Signet.Command.Basic
import Signet.Command.Error
import Signet.Command.Host
import Signet.Identity

/-!
# Running commands

What each command does on a host. A command stops at its first error; what it has written and printed until then
stays.
-/

namespace Signet

/-- Steps on a host, up to the first error. -/
abbrev Script (m : Type → Type) := ExceptT CommandError m

namespace Script

variable {m : Type → Type} [Monad m] [Host m]

def attempt {ε α : Type} (wrap : ε → CommandError) (x : Except ε α) : Script m α :=
  ExceptT.mk (pure (x.mapError wrap))

def tryRead (path : String) : Script m (Except FileError Bytes) := ExceptT.lift (Host.read path)

def read (path : String) : Script m Bytes := do attempt (.unreadable path) (← tryRead path)

def write (path : String) (b : Bytes) : Script m Unit := do attempt .file (← ExceptT.lift (Host.write path b))

def now : Script m Nat := ExceptT.lift Host.now

/-- Draws what `f` makes of random bytes, of which it is expected to take `size`. -/
def draw {ε α : Type} (wrap : ε → CommandError) (size : Nat) (f : Entropy → Except ε (α × Entropy)) :
    Script m α := do
  attempt wrap (← ExceptT.lift (Host.draw size f))

def say (text : String) : Script m Unit := ExceptT.lift (Host.print (.result text))

def log (level : Level) (text : String) : Script m Unit := ExceptT.lift (Host.print (.ofLog level text))

def saved (what path : String) : Script m Unit := log .info (what ++ " saved to " ++ Text.quotePath path)

end Script

namespace Command

open Script

variable {m : Type → Type} [Monad m] [Host m]

def suite (algorithm : String) : Script m Suite := attempt .crypto (Suite.parse algorithm)

def readKey (s : Suite) (path : String) : Script m Key := do attempt .crypto (Key.ofPem s (← read path))

def readBundle (s : Suite) (path : String) : Script m Bundle := do attempt .certificate (s.readBundle (← read path))

def showBundle (b : Bundle) : Script m Unit := do
  say "Certificate:"
  say ("  Subject:     " ++ b.commonName?.getD "")
  say ("  Issuer:      " ++ b.issuerCommonName?.getD "")
  say ("  Serial:      " ++ b.serialText)
  say ("  CA:          " ++ if b.certificate.isCa then "true" else "false")
  say ("  Expires:     " ++ b.notAfter.toString)
  say ("  Fingerprint: " ++ b.fingerprint)

def runInit (output dataDirectory algorithm : String) : Script m Unit := do
  let s ← suite algorithm
  log .info ("Generating sample configuration for " ++ s.name)
  let config := NodeConfig.sample dataDirectory s
  write output config.toBytes
  saved "Configuration" output
  say ""
  say ("Configuration file created: " ++ output)
  say "Create the identity it points to with:"
  say ("  chainseal keygen -a " ++ s.name ++ " -o " ++ config.identity.keyPath)
  say ("  chainseal issue -a " ++ s.name ++ " --ca-cert <ca.crt> --ca-key <ca.key> --subject-key "
    ++ config.identity.keyPath ++ " --cn <name> -o " ++ config.identity.certificatePath)

def showKey (s : Suite) (key : Key) : Script m Unit := do
  say ("Generated " ++ s.name ++ " key")
  say ("  Public point: " ++ Hex.encode key.publicKey.pointBytes)
  say ""
  say "WARNING: Keep your private key safe! Do not share it with anyone."

def runKeygen (algorithm output : String) (publicOutput : Option String) : Script m Unit := do
  let s ← suite algorithm
  let key ← draw .crypto 32 (Key.generate s)
  write output key.pem
  saved "Private key" output
  match publicOutput with
  | some path =>
    write path key.publicKey.pem
    saved "Public key" path
  | none => pure ()
  showKey s key

def runCa (algorithm key : String) (subject : SubjectInfo) (output : String) : Script m Unit := do
  let s ← suite algorithm
  let key ← readKey s key
  let now ← now
  let bundle ← draw .certificate 16 (s.issueRoot subject key now)
  write output bundle.certificate.toPem
  saved "Root certificate" output
  showBundle bundle

def runIssue (algorithm caCertificate caKey subjectKey : String) (subject : SubjectInfo) (intermediate : Bool)
    (output : String) : Script m Unit := do
  let s ← suite algorithm
  let ca ← readBundle s caCertificate
  let signer ← readKey s caKey
  let key ← readKey s subjectKey
  let now ← now
  let make := if intermediate then s.issueIntermediate else s.issueLeaf
  let bundle ← draw .certificate 16 (make subject key.publicKey signer ca now)
  write output bundle.toPem
  saved "Certificate" output
  showBundle bundle

def runCheck (algorithm certificate : String) (roots : List String) : Script m Unit := do
  let s ← suite algorithm
  let bundle ← readBundle s certificate
  let roots ← roots.mapM (readBundle s)
  let now ← now
  match bundle.check roots [] now with
  | .ok organization =>
    say ("Certificate " ++ bundle.commonName?.getD "" ++ " is trusted (root organization: "
      ++ (if organization = "" then "<none>" else organization) ++ ")")
  | .error e =>
    log .error ("Chain validation failed: " ++ e.message)
    throw (.certificate e)

/-- Whether there is nothing at a path that cannot be read for this reason. -/
def isMissing : Except FileError Bytes → Bool
  | .error .notFound | .error .notDirectory | .error .nameTooLong | .error .nulInName => true
  | _ => false

def readIdentity (config : IdentityConfig) : Script m Identity := do
  let certificate ← tryRead config.certificatePath
  let key ← tryRead config.keyPath
  let identity ← attempt .certificate (Identity.ofFiles config.algorithm.name certificate key)
  log .info ("Loaded identity " ++ identity.commonName ++ " from " ++ config.certificatePath)
  return identity

def runSign (config input : String) (batch : Bool) : Script m Unit := do
  let content ← tryRead config
  if isMissing content then
    log .error ("Configuration file not found: " ++ Text.quotePath config
      ++ ". Run 'chainseal init' to create one.")
    throw .noConfiguration
  let config ← attempt .config (NodeConfig.load content)
  let identity ← readIdentity config.identity
  let message ← read input
  let signature ←
    if batch then draw .certificate 32 (identity.signForBatch message)
    else attempt .certificate (identity.sign message)
  say (Base64.encodeText signature)

/-- The bytes of a text in base64; white space around it is ignored. -/
def unbase64 (text : String) : Script m Bytes :=
  match Base64.decodeText? (Text.trim text) with
  | some b => pure b
  | none => throw .base64

def runVerify (algorithm certificate input signature : String) : Script m Unit := do
  let s ← suite algorithm
  let bundle ← readBundle s certificate
  let signature ← unbase64 signature
  let message ← read input
  attempt .certificate (bundle.verify message signature)
  say ("Signature by " ++ bundle.commonName?.getD "" ++ " is valid")

def cipherKey (a : CipherAlgorithm) : Option String → Script m CipherKey
  | some text => attempt .crypto (CipherKey.ofBase64 a text)
  | none => do
    let key ← draw .crypto 16 (CipherKey.generate a)
    say ("Generated " ++ a.name ++ " key: " ++ key.base64)
    return key

def runEncrypt (algorithm : String) (key : Option String) (input output : String) : Script m Unit := do
  let a ← attempt .crypto (CipherAlgorithm.parse algorithm)
  let key ← cipherKey a key
  let message ← read input
  let encrypted ← draw .crypto 16 (key.encrypt message)
  write output (Base64.encode encrypted)
  saved "Ciphertext" output

def runDecrypt (algorithm key input output : String) : Script m Unit := do
  let a ← attempt .crypto (CipherAlgorithm.parse algorithm)
  let key ← attempt .crypto (CipherKey.ofBase64 a key)
  match Bytes.toString? (← read input) with
  | none => throw (.unreadable input .notText)
  | some text =>
    let message ← attempt .crypto (key.decrypt (← unbase64 text))
    write output message
    saved "Plaintext" output

def runHash (algorithm input : String) : Script m Unit := do
  let h ← attempt .crypto (HashAlgorithm.parse algorithm)
  let content ← attempt (fun e => .crypto (.file e)) (← tryRead input)
  say ((h.digest content).hex ++ "  " ++ input)

def batchConfig : Option String → Script m BatchConfig
  | some path => do return (← attempt .config (NodeConfig.load (← tryRead path))).batch
  | none => pure NodeConfig.standard.batch

def prepare (config : BatchConfig) : Script m Engine := do
  let engine := Engine.empty.withChunkSize config.chunkSize.toNat
  let sizes := (config.ranges.map fun r => r.2 + 1 - r.1).foldr (· + ·) 0
  let (engine, growth) ← draw id (32 * sizes) fun e =>
    let (engine, growth) := engine.populate config.ranges e
    .ok ((engine, growth), growth.entropy)
  growth.failures.forM fun f =>
    log .warning ("Failed to generate random arrays for batch size " ++ f.1.repr ++ ": " ++ f.2.message)
  log .info ("Precomputed random arrays for " ++ growth.added.repr ++ " batch sizes ("
    ++ engine.cache.sizes.length.repr ++ " cached)")
  log .info ("Precomputed " ++ growth.added.repr ++ " batch sizes")
  return engine

def drawMessage (e : Entropy) : Except CryptoError (Bytes × Entropy) :=
  match e.draw? 64 with
  | some r => .ok r
  | none => .error .rng

def showOutcome (o : Engine.Outcome) : Script m Unit := do
  say ("Signatures:   " ++ o.total.repr)
  say "Individual:"
  say ("Batch: (" ++ o.chunks.repr ++ " chunks)")
  if o.allValid then say "Result:       all valid"
  else
    o.failed.forM fun f =>
      say ("Chunk " ++ f.1.1.repr ++ ".." ++ f.1.2.repr ++ " failed: " ++ f.2.message)

def runBenchBatch (count : Nat) (config : Option String) : Script m Unit := do
  if count = 0 then throw .noSignatures
  let config ← batchConfig config
  let engine ← prepare config
  let key ← draw .crypto 32 (Key.generate .ecdsaP256)
  let messages ← (List.replicate count ()).mapM fun _ => draw .crypto 64 drawMessage
  let signatures ← messages.mapM fun message => draw .crypto 32 (key.signForBatch message)
  (messages.zip signatures).forM fun p => attempt .crypto (key.verify p.1 p.2)
  let outcome ← attempt .batch (engine.multiVerify key messages signatures)
  showOutcome outcome

def run : Command → Script m Unit
  | init output dataDirectory algorithm => runInit output dataDirectory algorithm
  | keygen algorithm output publicOutput => runKeygen algorithm output publicOutput
  | ca algorithm key subject output => runCa algorithm key subject output
  | issue algorithm caCertificate caKey subjectKey subject intermediate output =>
    runIssue algorithm caCertificate caKey subjectKey subject intermediate output
  | check algorithm certificate roots => runCheck algorithm certificate roots
  | sign config input batch => runSign config input batch
  | verify algorithm certificate input signature => runVerify algorithm certificate input signature
  | encrypt algorithm key input output => runEncrypt algorithm key input output
  | decrypt algorithm key input output => runDecrypt algorithm key input output
  | hash algorithm input => runHash algorithm input
  | benchBatch count config => runBenchBatch count config

end Command

end Signet
