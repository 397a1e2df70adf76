import Signet.Cipher.Key
import Signet.Json.Fields

/-!
# JSON forms of names and digests

Suites, hash functions and ciphers are written by name and read by exactly that name; a digest is written as the
list of its bytes.
-/

namespace Signet

def Suite.toJson (s : Suite) : Json := .string (some s.name)

def Suite.ofJson? (j : Json) : Option Suite := j.choice?.bind ofName?

def HashAlgorithm.toJson (h : HashAlgorithm) : Json := .string (some h.name)

def HashAlgorithm.ofJson? (j : Json) : Option HashAlgorithm := j.choice?.bind ofName?

def CipherAlgorithm.toJson (a : CipherAlgorithm) : Json := .string (some a.name)

def CipherAlgorithm.ofJson? (j : Json) : Option CipherAlgorithm := j.choice?.bind ofName?

def Digest.toJson (d : Digest) : Json := .list (d.bytes.map fun x => .nat x.toNat)

end Signet
