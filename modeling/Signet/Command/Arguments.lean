import Signet.Command.Basic

/-!
# Arguments of the command line

A command line is the name of a command and settings in any order. A setting is given by its long name, as
`--name value` or `--name=value`, or by its letter, as `-x value`, `-xvalue` or `-x=value`. The first fault or call
for help on the line decides.
-/

namespace Signet

inductive ValueKind where
  /-- No value: being there is what it says. -/
  | flag
  | text
  /-- The path of a file, which is not empty. -/
  | path
  | count (limit : Nat)
  /-- A natural number below the limit, where zero may have a minus sign. -/
  | amount (limit : Nat)
deriving DecidableEq, Repr

namespace ValueKind

def digits? (cs : List Char) : Option Nat :=
  if cs.isEmpty || cs.any (fun c => !c.isDigit) then none
  else some (cs.foldl (fun n c => 10 * n + (c.toNat - 48)) 0)

def unsigned? : List Char → Option Nat
  | '+' :: cs => digits? cs
  | cs => digits? cs

def signed? : List Char → Option Nat
  | '-' :: cs => (digits? cs).filter (· == 0)
  | cs => unsigned? cs

def number? (k : ValueKind) (value : String) : Option Nat :=
  match k with
  | .count limit => (unsigned? value.toList).filter (· < limit)
  | .amount limit => (signed? value.toList).filter (· < limit)
  | .flag | .text | .path => none

def accepts (k : ValueKind) (value : String) : Bool :=
  match k with
  | .flag | .text => true
  | .path => value != ""
  | .count _ | .amount _ => (k.number? value).isSome

end ValueKind

/-- A setting of a command. One that does not repeat is given at most once. -/
structure Setting where
  name : String
  letter : Option Char
  kind : ValueKind
  repeats : Bool := false
deriving DecidableEq, Repr

/-- The values that were given, with the names of their settings. -/
abbrev Values := List (String × String)

namespace Values

variable (v : Values)

def has (name : String) : Bool := (v.lookup name).isSome

def all (name : String) : List String := (v.filter (·.1 == name)).map Prod.snd

def getD (name default : String) : String := (v.lookup name).getD default

def numberD (name : String) (k : ValueKind) (default : Nat) : Option Nat :=
  match v.lookup name with
  | none => some default
  | some value => k.number? value

end Values

namespace Setting

inductive Reading where
  | values (v : Values)
  | help
  | misuse
deriving DecidableEq, Repr

def give? (s : Setting) (value : String) (v : Values) : Option Values :=
  if s.kind.accepts value && (s.repeats || !v.has s.name) then some (v ++ [(s.name, value)]) else none

def isValue (argument : String) : Bool := argument == "-" || argument.toList.head? != some '-'

/-- How an argument names a setting: by its long name or by its letter. The value in it is none where the argument
ends with the name. -/
inductive Use where
  | long (name : String) (value : Option String)
  | short (letter : Char) (value : Option String)
  | separator
  | other
deriving DecidableEq, Repr

/-- The parts of a text before and after the first equals sign. -/
def cutEquals : List Char → List Char × Option String
  | [] => ([], none)
  | c :: cs =>
    if c = '=' then ([], some (String.ofList cs))
    else ((c :: (cutEquals cs).1), (cutEquals cs).2)

def use (argument : String) : Use :=
  match argument.toList with
  | ['-', '-'] => .separator
  | '-' :: '-' :: cs => .long (String.ofList (cutEquals cs).1) (cutEquals cs).2
  | ['-', c] => .short c none
  | '-' :: c :: '=' :: cs => .short c (some (String.ofList cs))
  | '-' :: c :: cs => .short c (some (String.ofList cs))
  | _ => .other

variable (settings : List Setting)

def find? : Use → Option (Setting × Option String)
  | .long name value => (settings.find? (·.name == name)).map fun s => (s, value)
  | .short letter value => (settings.find? (·.letter == some letter)).map fun s => (s, value)
  | .separator | .other => none

def isHelp : Use → Bool
  | .long "help" none => true
  | .short 'h' _ => true
  | _ => false

/-- Reads the arguments of a command after the given values. A separator may only stand at the end. -/
def readAll (v : Values) : List String → Reading
  | [] => .values v
  | argument :: rest =>
    if isHelp (use argument) then .help
    else if use argument = .separator then (if rest.isEmpty then .values v else .misuse)
    else
      match find? settings (use argument) with
      | none => .misuse
      | some (s, none) =>
        if s.kind = .flag then
          match s.give? "" v with
          | some v => readAll v rest
          | none => .misuse
        else
          match rest with
          | [] => .misuse
          | value :: rest =>
            if isValue value then
              match s.give? value v with
              | some v => readAll v rest
              | none => .misuse
            else .misuse
      | some (s, some value) =>
        if s.kind = .flag then .misuse
        else
          match s.give? value v with
          | some v => readAll v rest
          | none => .misuse

end Setting

/-- The settings of a command, and the command that their values make. -/
structure CommandForm where
  name : String
  summary : String
  settings : List Setting
  command? : Values → Option Command

namespace CommandForm

def algorithm : Setting := ⟨"algorithm", some 'a', .text, false⟩

def input : Setting := ⟨"input", some 'i', .path, false⟩

def output : Setting := ⟨"output", some 'o', .path, false⟩

def certificate : Setting := ⟨"cert", some 'c', .path, false⟩

def years : ValueKind := .amount UInt32.size

def pathLength : ValueKind := .amount 256

def subjectSettings : List Setting :=
  ["cn", "org", "ou", "country", "province", "locality"].map (fun name => ⟨name, none, .text, false⟩)
    ++ [⟨"years", none, years, false⟩, ⟨"path-len", none, pathLength, false⟩]

def defaultSuite : String := "ecdsa_with_sha256"

def subject? (v : Values) : Option SubjectInfo := do
  return {
    organization := v.getD "org" ""
    organizationalUnit := v.getD "ou" ""
    country := v.getD "country" ""
    province := v.getD "province" ""
    locality := v.getD "locality" ""
    commonName := ← v.lookup "cn"
    years := UInt32.ofNat (← v.numberD "years" years 10)
    maxPathLength := (v.lookup "path-len").bind fun value => (pathLength.number? value).map UInt8.ofNat }

def init : CommandForm where
  name := "init"
  summary := "Write a sample node configuration"
  settings := [output, ⟨"data-dir", none, .path, false⟩, algorithm]
  command? v :=
    some (.init (v.getD "output" "config.json") (v.getD "data-dir" "./chainseal-data")
      (v.getD "algorithm" defaultSuite))

def keygen : CommandForm where
  name := "keygen"
  summary := "Generate a private key"
  settings := [algorithm, output, ⟨"public-output", none, .path, false⟩]
  command? v := do return .keygen (v.getD "algorithm" defaultSuite) (← v.lookup "output") (v.lookup "public-output")

def ca : CommandForm where
  name := "ca"
  summary := "Create a self-signed root CA certificate"
  settings := [algorithm, ⟨"key", some 'k', .path, false⟩] ++ subjectSettings ++ [output]
  command? v := do
    return .ca (v.getD "algorithm" defaultSuite) (← v.lookup "key") (← subject? v) (← v.lookup "output")

def issue : CommandForm where
  name := "issue"
  summary := "Issue an intermediate CA or leaf certificate"
  settings :=
    [algorithm] ++ ["ca-cert", "ca-key", "subject-key"].map (fun name => ⟨name, none, .path, false⟩)
      ++ subjectSettings ++ [⟨"intermediate", none, .flag, false⟩, output]
  command? v := do
    return .issue (v.getD "algorithm" defaultSuite) (← v.lookup "ca-cert") (← v.lookup "ca-key")
      (← v.lookup "subject-key") (← subject? v) (v.has "intermediate") (← v.lookup "output")

def check : CommandForm where
  name := "check"
  summary := "Validate a certificate chain against trusted roots"
  settings := [algorithm, certificate, ⟨"roots", some 'r', .path, true⟩]
  command? v := do
    if v.has "roots" then
      return .check (v.getD "algorithm" defaultSuite) (← v.lookup "cert") (v.all "roots")
    else none

def sign : CommandForm where
  name := "sign"
  summary := "Sign a file with the configured identity"
  settings := [⟨"config", some 'c', .path, false⟩, input, ⟨"batch", none, .flag, false⟩]
  command? v := do return .sign (v.getD "config" "config.json") (← v.lookup "input") (v.has "batch")

def verify : CommandForm where
  name := "verify"
  summary := "Verify a base64 signature against a certificate"
  settings := [algorithm, certificate, input, ⟨"signature", some 's', .text, false⟩]
  command? v := do
    return .verify (v.getD "algorithm" defaultSuite) (← v.lookup "cert") (← v.lookup "input")
      (← v.lookup "signature")

def encrypt : CommandForm where
  name := "encrypt"
  summary := "Encrypt a file with AES-128 or SM4 in CBC mode"
  settings := [algorithm, ⟨"key", some 'k', .text, false⟩, input, output]
  command? v := do
    return .encrypt (v.getD "algorithm" "aes128") (v.lookup "key") (← v.lookup "input") (← v.lookup "output")

def decrypt : CommandForm where
  name := "decrypt"
  summary := "Decrypt a base64 ciphertext file"
  settings := [algorithm, ⟨"key", some 'k', .text, false⟩, input, output]
  command? v := do
    return .decrypt (v.getD "algorithm" "aes128") (← v.lookup "key") (← v.lookup "input") (← v.lookup "output")

def hash : CommandForm where
  name := "hash"
  summary := "Hash a file"
  settings := [algorithm, input]
  command? v := do return .hash (v.getD "algorithm" "sha256") (← v.lookup "input")

def signatures : ValueKind := .count UInt64.size

def benchBatch : CommandForm where
  name := "bench-batch"
  summary := "Compare per-signature and batch verification timing"
  settings := [⟨"count", some 'c', signatures, false⟩, ⟨"config", none, .path, false⟩]
  command? v := do return .benchBatch (← v.numberD "count" signatures 100) (v.lookup "config")

def all : List CommandForm :=
  [init, keygen, ca, issue, check, sign, verify, encrypt, decrypt, hash, benchBatch]

def ofName? (name : String) : Option CommandForm := all.find? (·.name == name)

end CommandForm

inductive Request where
  | run (command : Command)
  | version
  | help
  | misuse
deriving DecidableEq, Repr

namespace Request

def ofForm (form : CommandForm) (arguments : List String) : Request :=
  match Setting.readAll form.settings [] arguments with
  | .help => .help
  | .misuse => .misuse
  | .values v =>
    match form.command? v with
    | some c => .run c
    | none => .misuse

/-- The request for help on what is named, which is a command or nothing in particular. -/
def ofTopics : List String → Request
  | [] | ["help"] => .help
  | [name] => if (CommandForm.ofName? name).isSome then .help else .misuse
  | _ => .misuse

def ofArguments : List String → Request
  | [] => .misuse
  | first :: rest =>
    match Setting.use first with
    | .long "version" none => .version
    | .short 'V' _ => .version
    | .other =>
      if first = "help" then ofTopics rest
      else
        match CommandForm.ofName? first with
        | some form => ofForm form rest
        | none => .misuse
    | u => if Setting.isHelp u then .help else .misuse

end Request

end Signet
