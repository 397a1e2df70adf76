import Signet.Certificate.Error
import Signet.Certificate.Name
import Signet.Json.Fields
import Signet.Text.Blank

/-!
# Subject data

The fields of the subject of a new certificate and its lifetime, with their JSON form.
-/

namespace Signet

/-- What a certificate says about its subject, how many years it is valid, and how many authorities may follow. -/
structure SubjectInfo where
  organization : String := ""
  organizationalUnit : String := ""
  country : String := ""
  province : String := ""
  locality : String := ""
  commonName : String
  years : UInt32
  maxPathLength : Option UInt8 := none
deriving DecidableEq, Repr

namespace SubjectInfo

def fieldNames : List String :=
  ["organization", "organizational_unit", "country", "province", "locality", "common_name", "validation_years",
    "max_path_len"]

def pathLength? (j : Json) : Option (Option UInt8) :=
  (j.optional? (·.natBelow? 256)).map (·.map UInt8.ofNat)

/-- The subject data of a JSON value. Only the common name and the years have to be there. -/
def ofJson? (j : Json) : Option SubjectInfo := do
  match ← j.parts? fieldNames with
  | [organization, unit, country, province, locality, commonName, years, length] =>
    return {
      organization := ← Json.withDefault "" Json.text? organization
      organizationalUnit := ← Json.withDefault "" Json.text? unit
      country := ← Json.withDefault "" Json.text? country
      province := ← Json.withDefault "" Json.text? province
      locality := ← Json.withDefault "" Json.text? locality
      commonName := ← (← commonName).text?
      years := UInt32.ofNat (← (← years).natBelow? UInt32.size)
      maxPathLength := ← Json.withDefault none pathLength? length }
  | _ => none

def toJson (i : SubjectInfo) : Json :=
  let text (s : String) : Json := .string (some s)
  .record ((fieldNames.map some).zip
    [text i.organization, text i.organizationalUnit, text i.country, text i.province, text i.locality,
      text i.commonName, .nat i.years.toNat,
      match i.maxPathLength with
      | none => .null
      | some n => .nat n.toNat])

/-- Refuses a common name without visible characters, and no years. -/
def validate (i : SubjectInfo) : Except CertificateError Unit :=
  if Text.trim i.commonName = "" then .error (.invalidInfo .emptyCommonName)
  else if i.years = 0 then .error (.invalidInfo .noYears)
  else .ok ()

/-- The texts of the name of the subject in their order, with the type of each. -/
def fields (i : SubjectInfo) : List (Der.Oid × String) :=
  [(.country, i.country), (.organization, i.organization), (.organizationalUnit, i.organizationalUnit),
    (.locality, i.locality), (.province, i.province), (.commonName, i.commonName)]

def name (i : SubjectInfo) : Name := .ofTexts i.fields

end SubjectInfo

end Signet
