import CustomIsa.Text.Line
/-! # Files in a directory

A directory is held as a list of files, each with the names that lead to it. A path is walked name
by name: `.` and an empty name stay where they are, `..` goes up, and nothing but the directory
itself is found above it. `Directory.read` gives the contents of the file at the end of the walk, or
why there is none. -/
namespace CustomIsa

/-- Why a file cannot be read. -/
inductive FileFault where
  | missing
  | denied
  | notDirectory
  | isDirectory
  | nameTooLong
  | other (text : String)
  deriving Repr, DecidableEq

namespace FileFault

/-- The fault of an error number of the operating system. -/
def ofNumber? : Nat → Option FileFault
  | 2 => some .missing
  | 13 => some .denied
  | 20 => some .notDirectory
  | 21 => some .isDirectory
  | 36 => some .nameTooLong
  | _ => none

/-- The wording of a fault. -/
def message : FileFault → String
  | .missing => "No such file or directory (os error 2)"
  | .denied => "Permission denied (os error 13)"
  | .notDirectory => "Not a directory (os error 20)"
  | .isDirectory => "Is a directory (os error 21)"
  | .nameTooLong => "File name too long (os error 36)"
  | .other text => text

end FileFault

/-- A directory: the contents of its files, each under the names that lead to it. -/
structure Directory where
  files : List (List String × String)

namespace Directory

/-- The names between the slashes of a path, some of them empty. -/
def names (path : String) : List String :=
  (Text.splitAll (· = '/') path.toList).map String.ofList

/-- Whether a name leads from a directory to that directory. -/
def stays (name : String) : Bool := name = "" || name = "."

/-- The directory with files at the given paths. -/
def ofFiles (files : List (String × String)) : Directory :=
  ⟨files.map fun (path, text) => ((names path).filter (!stays ·), text)⟩

/-- Whether some file lies below the place. -/
def hasBelow (d : Directory) (place : List String) : Bool :=
  d.files.any fun (full, _) => place.isPrefixOf full && place ≠ full

/-- The place one level up, if that is not above the directory. -/
def up? : List String → Option (List String)
  | [] => none
  | place => some place.dropLast

/-- The longest name of a file, in bytes. -/
def nameLimit : Nat := 255

/-- The length in bytes from which on a path is refused. -/
def pathLimit : Nat := 4096

/-- Walks on by the given names; there is no place above the directory. -/
def walk (d : Directory) : Option (List String) → List String → Except FileFault String
  | _, [] => .error .isDirectory
  | place, name :: rest =>
    if stays name then d.walk place rest
    else if name = ".." then d.walk (place.bind up?) rest
    else if nameLimit < name.utf8ByteSize then .error .nameTooLong
    else
      match place with
      | none => .error .missing
      | some place =>
        match d.files.lookup (place ++ [name]) with
        | some text => if rest = [] then .ok text else .error .notDirectory
        | none =>
          if d.hasBelow (place ++ [name]) then d.walk (some (place ++ [name])) rest
          else .error .missing

/-- The contents of the file at a path, which is relative unless it starts with a slash. -/
def read (d : Directory) (path : String) : Except FileFault String :=
  if path = "" then .error .missing
  else if pathLimit ≤ path.utf8ByteSize then .error .nameTooLong
  else d.walk (if path.toList.head? = some '/' then none else some []) (names path)

end Directory
end CustomIsa
