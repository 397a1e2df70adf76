import Signet.Command.Arguments
import Signet.Command.Run

/-!
# Command lines

A whole command line: its arguments are read, the command runs, and its outcome becomes an exit status and a report.
-/

namespace Signet

/-- How a command line ends: the exit status, and what goes to standard error. -/
structure Ending where
  status : Nat
  report : String
deriving DecidableEq, Repr

namespace Ending

def success : Ending := ⟨0, ""⟩

def ofOutcome : Except CommandError Unit → Ending
  | .ok _ => success
  | .error e => ⟨1, e.report⟩

end Ending

namespace CommandForm

def describe (s : Setting) : String :=
  let letter := match s.letter with
    | some c => "-" ++ String.singleton c ++ ", "
    | none => ""
  letter ++ "--" ++ s.name ++ if s.kind = .flag then "" else " <" ++ s.name ++ ">"

def usage : List String :=
  "Usage: chainseal <command> [settings]" :: all.flatMap fun form =>
    ["", "chainseal " ++ form.name ++ ": " ++ form.summary] ++ form.settings.map fun s => "  " ++ describe s

end CommandForm

namespace Request

def versionText : String := "chainseal 0.1.0"

variable {m : Type → Type} [Monad m] [Host m]

def perform : Request → m Ending
  | .run c => do return .ofOutcome (← c.run.run)
  | .version => do
    Host.print (.result versionText)
    return .success
  | .help => do
    CommandForm.usage.forM fun line => Host.print (.result line)
    return .success
  | .misuse => return ⟨2, "\n".intercalate CommandForm.usage ++ "\n"⟩

def performIn (r : Request) (w : Workspace) : Ending × Workspace := (perform (m := StateM Workspace) r).run w

end Request

end Signet
