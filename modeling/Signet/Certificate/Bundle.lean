import Signet.Batch.Engine
import Signet.Certificate.Basic
import Signet.Certificate.Error
import Signet.Key.Encoding
import Signet.Pem

/-!
# Bundles

A bundle is a certificate whose key is usable, with the intermediate certificates that it was issued under. Its
written form is a PEM block for each of them, the certificate itself first.
-/

namespace Signet

namespace Certificate

def label : Bytes := [67, 69, 82, 84, 73, 70, 73, 67, 65, 84, 69]

def endLine : Bytes := Pem.endMark ++ label ++ Pem.dashes

def toPem (c : Certificate) : Bytes := (Pem.Block.mk label c.encode).encode

/-- Reads a PEM block whose content is not too long. Bytes behind the certificate are ignored. -/
def ofPem? (b : Bytes) : Option Certificate := do
  let block ← Pem.decode? b
  if block.label = label ∧ block.content.length ≤ Der.maxLength then
    let (e, _) ← Der.element? block.content
    ofElement? false e
  else none

/-- A text up to the end of the first END line in it, and the rest. -/
def cutEndLine? : Bytes → Option (Bytes × Bytes)
  | [] => none
  | x :: b =>
    if endLine.isPrefixOf (x :: b) then some (endLine, (x :: b).drop endLine.length)
    else (cutEndLine? b).map fun (block, rest) => (x :: block, rest)

theorem length_lt_of_cutEndLine? {b block rest : Bytes} (h : cutEndLine? b = some (block, rest)) :
    rest.length < b.length := by
  induction b generalizing block with
  | nil => simp [cutEndLine?] at h
  | cons x b ih =>
    unfold cutEndLine? at h
    split at h
    · simp only [Option.some.injEq, Prod.mk.injEq] at h
      rw [← h.2]
      simp only [List.length_drop, List.length_cons, endLine, Pem.endMark, Pem.dashes, label]
      simp only [List.length_append, List.length_replicate, List.length_cons, List.length_nil]
      omega
    · simp only [Option.map_eq_some_iff, Prod.mk.injEq] at h
      obtain ⟨⟨block', rest'⟩, hb, -, rfl⟩ := h
      exact Nat.lt_succ_of_lt (ih hb)

/-- The certificates of the blocks in a text. A single byte behind the last block is ignored. -/
def ofBlocks? (b : Bytes) : Option (List Certificate) :=
  match _h : cutEndLine? b with
  | none => none
  | some (block, rest) => do
    let c ← ofPem? block
    if rest.length ≤ 1 then return [c] else return c :: (← ofBlocks? rest)
termination_by b.length
decreasing_by exact length_lt_of_cutEndLine? ‹cutEndLine? b = some (block, rest)›

def trimLineEnds (b : Bytes) : Bytes := (b.reverse.dropWhile fun x => x == 10 || x == 13).reverse

end Certificate

/-- A certificate that can be written, with its key and the intermediate certificates above it. -/
structure Bundle where
  certificate : Certificate
  key : Key
  chain : List Certificate
  certified : Key.ofPublicInfo certificate.body.publicKey = .ok key
  short : certificate.encode.length ≤ Der.maxLength

namespace Bundle

def ofCertificate (c : Certificate) (chain : List Certificate) : Except CertificateError Bundle :=
  if hshort : c.encode.length ≤ Der.maxLength then
    match hkey : Key.ofPublicInfo c.body.publicKey with
    | .ok k => .ok ⟨c, k, chain, hkey, hshort⟩
    | .error e => .error (.crypto e)
  else .error .der

def ofDer (b : Bytes) : Except CertificateError Bundle :=
  match Certificate.decode? b with
  | some c => ofCertificate c []
  | none => .error .der

/-- Reads one or more PEM blocks, the first of which is the certificate itself. -/
def ofPem (b : Bytes) : Except CertificateError Bundle :=
  let text := Certificate.trimLineEnds b
  if text.length = 1 then .error .noBlock
  else
    match Certificate.ofBlocks? text with
    | some (c :: chain) => ofCertificate c chain
    | _ => .error .der

variable (b : Bundle)

def toPem : Bytes := b.certificate.toPem ++ b.chain.flatMap Certificate.toPem

def suite : Suite := b.key.suite

def subject : Name := b.certificate.body.subject

def issuer : Name := b.certificate.body.issuer

def commonName? : Option String := b.subject.text? .commonName

def organization? : Option String := b.subject.text? .organization

def issuerCommonName? : Option String := b.issuer.text? .commonName

def serialText : String := b.certificate.body.serial.text

def notBefore : DateTime := b.certificate.body.validity.notBefore.dateTime

def notAfter : DateTime := b.certificate.body.validity.notAfter.dateTime

def fingerprint : String := (b.suite.hash b.certificate.encode).hex

def describeName : Option String → String
  | none => "None"
  | some s => "Some(" ++ Text.quote s ++ ")"

def describe : String :=
  "Cert \x7b subject: " ++ describeName b.commonName? ++ ", issuer: " ++ describeName b.issuerCommonName?
    ++ ", suite: " ++ b.suite.title ++ ", ca: " ++ (if b.certificate.isCa then "true" else "false")
    ++ ", chain: " ++ b.chain.length.repr ++ " \x7d"

def verify (message signature : Bytes) : Except CertificateError Unit :=
  CertificateError.ofCrypto (b.key.verify message signature)

def verifyBatch (engine : Engine) (messages signatures : List Bytes) : Except CertificateError Unit :=
  if b.suite.supportsBatch then (engine.verify b.key messages signatures).mapError .batch
  else .error (.batchUnsupported b.suite)

end Bundle

end Signet
