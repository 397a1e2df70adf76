import Signet.Command.Line
import Std.Time.DateTime.Timestamp

/-!
# The program

The command line on the files, the clock and the random bytes of the machine.
-/

namespace Signet.Main

/-- The number of a system error, which some operations report with a minus sign. -/
def errorNumber (code : UInt32) : UInt32 := if code < 0x80000000 then code else 0 - code

def fileError : IO.Error → FileError
  | .noFileOrDirectory _ _ _ | .noSuchThing _ _ _ => .notFound
  | .inappropriateType _ code _ => if errorNumber code = 21 then .isDirectory else .notDirectory
  | .invalidArgument file code details =>
    if errorNumber code = 36 then .nameTooLong else .other (toString (IO.Error.invalidArgument file code details))
  | e => .other (toString e)

def attempt {α : Type} (x : IO α) : IO (Except FileError α) := do
  try return .ok (← x)
  catch e => return .error (fileError e)

/-- The time by the clock of the machine. The fraction of the current second is dropped. -/
def seconds : IO Nat := do return (← Std.Time.Timestamp.now).toSecondsSinceUnixEpoch.val.toNat

instance : Host IO where
  read path := attempt do return (← IO.FS.readBinFile path).data.toList
  write path b := attempt (IO.FS.writeBinFile path ⟨b.toArray⟩)
  now := seconds
  draw size f := do
    let b ← IO.getRandomBytes (USize.ofNat (size + 1024))
    match f b.data.toList with
    | .ok (a, _) => return .ok a
    | .error e => return .error e
  print line := IO.println line.toString

end Signet.Main

def main (arguments : List String) : IO UInt32 := do
  let ending ← (Signet.Request.ofArguments arguments).perform (m := IO)
  IO.eprint ending.report
  return UInt32.ofNat ending.status
