import Signet.Files
import Signet.Random.Entropy
import Signet.Text.Quoted

/-!
# Hosts

What a command needs from where it runs: files, random bytes, the time, and a place for its output. A workspace is
a host whose files and output are values.
-/

namespace Signet

inductive Level where
  | info
  | warning
  | error
deriving DecidableEq, Repr

def Level.name : Level → String
  | info => "INFO"
  | warning => "WARN"
  | error => "ERROR"

/-- What a command prints: a line of its result or one of its log. -/
inductive Line where
  | result (text : String)
  | log (level : Level) (text : String)
deriving DecidableEq, Repr

namespace Line

/-- Whether a terminal may take `c` as the start of a control sequence. -/
def isControl (c : Char) : Bool :=
  c == '\x07' || c == '\x08' || c == '\x0c' || c == '\x1b' || (0x7f ≤ c.toNat && c.toNat ≤ 0x9f)

/-- A character of a log line, where control characters are written as escapes. -/
def escape (c : Char) : List Char :=
  if !isControl c then [c]
  else if c.toNat < 0x80 then
    ['\\', 'x', Nat.digitChar (c.toNat / 16), Nat.digitChar (c.toNat % 16)]
  else ['\\', 'u', '\x7b'] ++ Nat.toDigits 16 c.toNat ++ ['\x7d']

def ofLog (level : Level) (text : String) : Line := .log level (String.ofList (text.toList.flatMap escape))

def toString : Line → String
  | result text => text
  | log level text => level.name ++ " " ++ text

end Line

/-- Where a command runs. Reading, writing and drawing can fail. Printing cannot, so that a standard output that is
closed, by which a program would end at once, is not a case here. -/
class Host (m : Type → Type) where
  read : String → m (Except FileError Bytes)
  write : String → Bytes → m (Except FileError Unit)
  /-- The seconds since the start of 1970, without the fraction of the current one. -/
  now : m Nat
  /-- Draws what a function makes of random bytes, of which it is expected to take the given number. -/
  draw {ε α : Type} : Nat → (Entropy → Except ε (α × Entropy)) → m (Except ε α)
  print : Line → m Unit

/-- Files, the random bytes that are left, the time in seconds, and what was printed so far. -/
structure Workspace where
  files : Files
  entropy : Entropy
  now : Nat
  printed : List Line := []

namespace Workspace

def write (path : String) (b : Bytes) (w : Workspace) : Except FileError Unit × Workspace :=
  match w.files.write path b with
  | .ok files => (.ok (), { w with files })
  | .error e => (.error e, w)

def draw {ε α : Type} (f : Entropy → Except ε (α × Entropy)) (w : Workspace) : Except ε α × Workspace :=
  match f w.entropy with
  | .ok (a, entropy) => (.ok a, { w with entropy })
  | .error e => (.error e, w)

instance : Host (StateM Workspace) where
  read path := fun w => (w.files.read path, w)
  write path b := write path b
  now := fun w => (w.now, w)
  draw _ f := draw f
  print line := fun w => ((), { w with printed := w.printed ++ [line] })

end Workspace

end Signet
