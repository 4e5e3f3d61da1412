set_option autoImplicit false

/-!
# Directories of files

A directory is the list of the files below it with the names that lead there. A path is walked name by
name; what lies outside the directory holds nothing that can be read.
-/
namespace Offside

/-- Why no text could be read. -/
inductive Unreadable
  | missing
  | directory
  | notDirectory
  | notText
  | other (reason : String)
  deriving DecidableEq

namespace Unreadable

def message : Unreadable → String
  | .missing => "No such file or directory (os error 2)"
  | .directory => "Is a directory (os error 21)"
  | .notDirectory => "Not a directory (os error 20)"
  | .notText => "stream did not contain valid UTF-8"
  | .other reason => reason

end Unreadable

structure Directory where
  files : List (List String × ByteArray)

namespace Directory

/-- The names of a path. -/
def names (path : String) : List String :=
  go [] path.toList
where
  go (name : List Char) : List Char → List String
    | [] => [String.ofList name.reverse]
    | c :: cs => if c = '/' then String.ofList name.reverse :: go [] cs else go (c :: name) cs

def file? (d : Directory) (path : List String) : Option ByteArray := d.files.lookup path

def hasDirectory (d : Directory) (path : List String) : Bool :=
  d.files.any fun f => path.isPrefixOf f.1 && path ≠ f.1

/-- Walks down the names from a directory, given by the names that lead to it with the last one first.
Nothing stands for a place outside. -/
def walk (d : Directory) : Option (List String) → List String → Except Unreadable ByteArray
  | _, [] => .error .directory
  | place, name :: rest =>
    if name = "" ∨ name = "." then walk d place rest
    else if name = ".." then
      walk d (place.bind fun p => if p.isEmpty then none else some p.tail) rest
    else
      match place with
      | none => .error .missing
      | some outer =>
        let path := (name :: outer).reverse
        match d.file? path with
        | some bytes => if rest.isEmpty then .ok bytes else .error .notDirectory
        | none => if d.hasDirectory path then walk d (some (name :: outer)) rest else .error .missing

def read (d : Directory) (path : String) : Except Unreadable String :=
  if path = "" then .error .missing
  else do
    let bytes ← d.walk (if path.toList.head? = some '/' then none else some []) (names path)
    match String.fromUTF8? bytes with
    | some text => .ok text
    | none => .error .notText

end Directory

end Offside
