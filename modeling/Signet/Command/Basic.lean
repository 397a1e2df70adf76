import Signet.Certificate.Info

/-!
# Commands
-/

namespace Signet

/-- A command, with the paths of the files that it reads and writes and the names of algorithms as they were given. -/
inductive Command where
  | init (output dataDirectory algorithm : String)
  /-- Makes a key, and writes its public half too where that is asked for. -/
  | keygen (algorithm output : String) (publicOutput : Option String)
  | ca (algorithm key : String) (subject : SubjectInfo) (output : String)
  /-- Issues a certificate under an authority. -/
  | issue (algorithm caCertificate caKey subjectKey : String) (subject : SubjectInfo) (intermediate : Bool)
    (output : String)
  | check (algorithm certificate : String) (roots : List String)
  | sign (config input : String) (batch : Bool)
  | verify (algorithm certificate input signature : String)
  | encrypt (algorithm : String) (key : Option String) (input output : String)
  | decrypt (algorithm key input output : String)
  | hash (algorithm input : String)
  /-- Signs random messages and checks the signatures one by one and in batches. -/
  | benchBatch (count : Nat) (config : Option String)
deriving DecidableEq, Repr

end Signet
