import MinedChain.Bytes

/-!
# Files by name

A directory as the names of its files with their contents, and what reading a path in it gives. A
path is walked name by name, and the first name that leads nowhere decides.
-/

namespace MinedChain.Command

/-- Why a file cannot be read as text. -/
inductive ReadFailure where
  | missing
  /-- A name follows on one that leads to a file. -/
  | notDirectory
  | directory
  | nameTooLong
  | notUtf8
  | other (cause : String)
deriving DecidableEq, Repr

namespace ReadFailure

def message : ReadFailure → String
  | missing => "No such file or directory (os error 2)"
  | notDirectory => "Not a directory (os error 20)"
  | directory => "Is a directory (os error 21)"
  | nameTooLong => "File name too long (os error 36)"
  | notUtf8 => "stream did not contain valid UTF-8"
  | other cause => cause

end ReadFailure

/-- A directory: names of files and their contents. -/
abbrev Directory := List (String × Bytes)

/-- What a path from inside a directory leads to. -/
inductive Target where
  | file (contents : Bytes)
  /-- The directory itself. -/
  | here
  /-- A directory around it, in which nothing else is known. -/
  | around
deriving DecidableEq, Repr

namespace Directory

/-- The octets of the longest name. -/
def maxName : Nat := 255

/-- The octets of the longest path. -/
def maxPath : Nat := 4095

/-- One name further. An empty name, as two slashes in a row and a slash at the end make it, stays in
place like a dot, and neither can follow on a file. -/
def step (d : Directory) (target : Target) (name : String) : Except ReadFailure Target :=
  match target with
  | .file _ => .error .notDirectory
  | .here | .around =>
    if name = "" ∨ name = "." then .ok target
    else if name = ".." then .ok .around
    else if name.utf8ByteSize > maxName then .error .nameTooLong
    else if target = .around then .error .missing
    else
      match d.lookup name with
      | some contents => .ok (.file contents)
      | none => .error .missing

/-- What a path leads to. -/
def walk (d : Directory) (path : String) : Except ReadFailure Target :=
  if path = "" then .error .missing
  else if path.utf8ByteSize > maxPath then .error .nameTooLong
  else
    (path.splitOn "/").foldlM d.step (if path.toList.head? = some '/' then .around else .here)

/-- The contents of a file, by a path from inside the directory. -/
def read (d : Directory) (path : String) : Except ReadFailure Bytes := do
  match ← d.walk path with
  | .file contents => return contents
  | _ => .error .directory

end Directory

end MinedChain.Command
