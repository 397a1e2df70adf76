import Signet.DateTime
import Signet.Der.Element

/-!
# Times in DER

A UTCTime has two digits for the year, which stand for 1950 to 2049, and a GeneralizedTime has four. Both go
down to the second and end in Z. Only dates from 1970 on are read.
-/

namespace Signet.Der

inductive Time where
  | utc (t : DateTime)
  | general (t : DateTime)
deriving DecidableEq, Repr

def Time.dateTime : Time → DateTime
  | .utc t => t
  | .general t => t

def decimal : (width n : Nat) → Bytes
  | 0, _ => []
  | width + 1, n => decimal width (n / 10) ++ [UInt8.ofNat (48 + n % 10)]

def ofDecimal? (b : Bytes) : Option Nat :=
  b.foldlM (fun n x => if 48 ≤ x ∧ x ≤ 57 then some (n * 10 + (x.toNat - 48)) else none) 0

/-- The digits of a date and time below the year, and a final Z. -/
def laterDigits (t : DateTime) : Bytes :=
  decimal 2 t.month ++ decimal 2 t.day ++ decimal 2 t.hour ++ decimal 2 t.minute ++ decimal 2 t.second ++ [90]

/-- The date and time of the year `y` with the given later digits. -/
def ofLaterDigits? (y : Nat) (b : Bytes) : Option DateTime := do
  let month ← ofDecimal? (b.take 2)
  let day ← ofDecimal? ((b.drop 2).take 2)
  let hour ← ofDecimal? ((b.drop 4).take 2)
  let minute ← ofDecimal? ((b.drop 6).take 2)
  let second ← ofDecimal? ((b.drop 8).take 2)
  let t : DateTime := ⟨y, month, day, hour, minute, second⟩
  if b.length = 11 ∧ b.drop 10 = [90] ∧ t.IsValid then some t else none

namespace Element

def ofTime : Time → Element
  | .utc t => ⟨utcTimeTag, decimal 2 (t.year % 100) ++ laterDigits t⟩
  | .general t => ⟨generalizedTimeTag, decimal 4 t.year ++ laterDigits t⟩

def time? (e : Element) : Option Time :=
  if e.tag = utcTimeTag then do
    let y ← ofDecimal? (e.content.take 2)
    let t ← ofLaterDigits? (if y < 50 then 2000 + y else 1900 + y) (e.content.drop 2)
    return .utc t
  else if e.tag = generalizedTimeTag then do
    let y ← ofDecimal? (e.content.take 4)
    let t ← ofLaterDigits? y (e.content.drop 4)
    return .general t
  else none

end Element

end Signet.Der
