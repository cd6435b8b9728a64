import ExprFront.Input

/-!
Folders held in memory, in which commands can be run without a file system. A path is walked one
name at a time: a file can only be the last of them, and above the folder nothing has a name.
-/

namespace ExprFront

/-- The bytes of a folder's files, by the names that lead to them. -/
structure Folder where
  files : List (List String × ByteArray)

namespace Folder

def ofList (files : List (String × ByteArray)) : Folder :=
  ⟨files.map fun (path, content) => (path.splitOn "/", content)⟩

/-- Where a walk has come to. -/
inductive Place where
  | file (content : ByteArray)
  | inside (path : List String)
  | outside

/-- What the names lead to from the folder. -/
def find? (f : Folder) (path : List String) : Option Place :=
  match f.files.lookup path with
  | some content => some (.file content)
  | none => if f.files.any (path.isPrefixOf ·.1) then some (.inside path) else none

/-- The longest name in bytes. -/
def maxName : Nat := 255

/-- The bytes from which on a path is too long as a whole. -/
def maxPath : Nat := 4096

def step (f : Folder) (place : Place) (name : String) : Except ReadError Place :=
  match place with
  | .file _ => .error .notDirectory
  | .inside path =>
      if name = "" ∨ name = "." then .ok place
      else if name = ".." then .ok (if path = [] then .outside else .inside path.dropLast)
      else if maxName < name.utf8ByteSize then .error .nameTooLong
      else (f.find? (path ++ [name])).elim (.error .notFound) .ok
  | .outside =>
      if name = "" ∨ name = "." ∨ name = ".." then .ok place
      else if maxName < name.utf8ByteSize then .error .nameTooLong
      else .error .notFound

/-- The bytes of the file at a path. The empty path leads nowhere, and one that begins with a slash
does not begin in the folder. -/
def read (f : Folder) (path : String) : Except ReadError ByteArray := do
  if path = "" then throw .notFound
  if maxPath ≤ path.utf8ByteSize then throw .nameTooLong
  let start := if path.toList.head? = some '/' then .outside else .inside []
  match ← (path.splitOn "/").foldlM f.step start with
  | .file content => return content
  | _ => throw .isDirectory

/-- What a command run in the folder reads. -/
def provide (f : Folder) (stdin : ByteArray) : Input → Except ReadError ByteArray
  | .standardInput => .ok stdin
  | .file path => f.read path

end Folder

end ExprFront
