import Signet.Error

/-!
# Files

The files below a working directory, with the outcome of reading and writing them by path. A path leads through
directories to a place; a file is found again at every path that leads to its place. Writing never makes a
directory: the directories are those that hold a file, and the working directory itself.

Nothing lies outside the working directory, so that an absolute path leads nowhere. There are no links, by which two
places would hold one file, and no permissions, by which a file could be refused.
-/

namespace Signet

/-- The names that lead from the working directory to a file or a directory. -/
abbrev Place := List String

structure Files where
  entries : List (Place × Bytes)
deriving DecidableEq, Repr

namespace Files

def split : List Char → List String
  | [] => [""]
  | '/' :: cs => "" :: split cs
  | c :: cs =>
    match split cs with
    | [] => [String.singleton c]
    | part :: parts => String.ofList (c :: part.toList) :: parts

def maxName : Nat := 255

def maxPath : Nat := 4095

variable (files : Files)

def contentAt? (p : Place) : Option Bytes := files.entries.lookup p

def isDirectory (p : Place) : Bool := p.isEmpty || files.entries.any fun e => p.isPrefixOf e.1 && p != e.1

/-- One step of a path from the directory `p` into a further directory. Outside the working directory there is
nothing. -/
def enter (p : Place) (part : String) : Except FileError Place :=
  if part = "" ∨ part = "." then .ok p
  else if part = ".." then (if p = [] then .error .notFound else .ok p.dropLast)
  else if maxName < part.utf8ByteSize then .error .nameTooLong
  else if files.isDirectory (p ++ [part]) then .ok (p ++ [part])
  else if (files.contentAt? (p ++ [part])).isSome then .error .notDirectory
  else .error .notFound

/-- Where the last name of a path leads: to a directory that the path steps into, or to a name in a directory, which
may have to be a directory too. -/
inductive Target where
  | directory
  | named (place : Place) (mustBeDirectory : Bool)
deriving DecidableEq, Repr

def follow : Place → List String → Except FileError Target
  | _, [] => .ok .directory
  | p, part :: parts =>
    if parts.all (· == "") then
      if part = "" ∨ part = "." ∨ part = ".." then .ok .directory
      else if maxName < part.utf8ByteSize then .error .nameTooLong
      else .ok (.named (p ++ [part]) !parts.isEmpty)
    else do
      let p ← files.enter p part
      follow p parts

/-- Where a path leads from the working directory. An absolute path and one that climbs above the working directory
are not found. -/
def target (path : String) : Except FileError Target :=
  if '\x00' ∈ path.toList then .error .nulInName
  else if maxPath < path.utf8ByteSize then .error .nameTooLong
  else if path = "" ∨ path.toList.head? = some '/' then .error .notFound
  else files.follow [] (split path.toList)

def read (path : String) : Except FileError Bytes := do
  match ← files.target path with
  | .directory => throw .isDirectory
  | .named p mustBeDirectory =>
    if files.isDirectory p then throw .isDirectory
    match files.contentAt? p with
    | none => throw .notFound
    | some b => if mustBeDirectory then throw .notDirectory else return b

/-- The entries with the content `b` at the place `p`. -/
def put (p : Place) (b : Bytes) : List (Place × Bytes) → List (Place × Bytes)
  | [] => [(p, b)]
  | e :: es => if e.1 = p then (p, b) :: es else e :: put p b es

def write (path : String) (b : Bytes) : Except FileError Files := do
  match ← files.target path with
  | .directory => throw .isDirectory
  | .named p mustBeDirectory =>
    if mustBeDirectory ∨ files.isDirectory p then throw .isDirectory
    else return ⟨put p b files.entries⟩

/-- The files with the given paths and contents; every path is that of a file, and makes its directories. -/
def ofList (l : List (String × Bytes)) : Files :=
  ⟨l.foldl (fun es e => put ((split e.1.toList).filter fun part => part ≠ "" ∧ part ≠ ".") e.2 es) []⟩

end Files

end Signet
