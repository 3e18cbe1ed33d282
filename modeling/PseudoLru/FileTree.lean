/-!
# Files

Reading a file gives its bytes or says why it could not be read.  The programs
of this library take a function from paths to such answers; a file tree is
one, given by the files in and below the working directory.

A path is a sequence of names between slashes.  An empty name and a dot stay
where they are and two dots go to the directory above, but each of them, like
every name, can only follow a directory.  Above the working directory, where a
path also starts that begins with a slash, a tree has directories only and no
names in them, so nothing is found there and no path leads back.
-/

namespace PseudoLru

/-- Why a file cannot be read. -/
inductive FileFault where
  | notFound
  | notADirectory
  | isADirectory
  | invalidUtf8
  | other (description : String)
  deriving DecidableEq, Repr

def FileFault.message : FileFault → String
  | .notFound => "No such file or directory (os error 2)"
  | .notADirectory => "Not a directory (os error 20)"
  | .isADirectory => "Is a directory (os error 21)"
  | .invalidUtf8 => "stream did not contain valid UTF-8"
  | .other description => description

abbrev Bytes := List UInt8

abbrev FileReader := String → Except FileFault Bytes

def decodeUtf8 (bytes : Bytes) : Except FileFault String :=
  match String.fromUTF8? ⟨bytes.toArray⟩ with
  | some text => .ok text
  | none => .error .invalidUtf8

/-- The files of a directory and of those below it, by their path from it. -/
structure FileTree where
  files : List (List String × Bytes)

namespace FileTree

/-- What a path can lead to: a directory or a file of the tree, or a directory
above it. -/
inductive Place where
  | above
  | directory (path : List String)
  | file (content : Bytes)

def ofFiles (files : List (String × Bytes)) : FileTree :=
  ⟨files.map fun (path, content) => (path.splitOn "/", content)⟩

/-- What stands at a list of names from the working directory. -/
def find? (tree : FileTree) (path : List String) : Option Place :=
  match tree.files.lookup path with
  | some content => some (.file content)
  | none =>
      if tree.files.any fun (name, _) => path.isPrefixOf name then
        some (.directory path)
      else
        none

def enter (tree : FileTree) : Place → String → Except FileFault Place
  | .file _, _ => .error .notADirectory
  | .above, name =>
      if name = "" ∨ name = "." ∨ name = ".." then .ok .above else .error .notFound
  | .directory path, name =>
      if name = "" ∨ name = "." then .ok (.directory path)
      else if name = ".." then .ok (if path.isEmpty then .above else .directory path.dropLast)
      else
        match tree.find? (path ++ [name]) with
        | some place => .ok place
        | none => .error .notFound

/-- Where a path starts: at the root of all files, which is above the tree, or
in the working directory. -/
def start (path : String) : Place :=
  match path.toList with
  | '/' :: _ => .above
  | _ => .directory []

def read (tree : FileTree) : FileReader := fun path =>
  if path = "" then
    .error .notFound
  else do
    match ← (path.splitOn "/").foldlM tree.enter (start path) with
    | .file content => return content
    | .above | .directory _ => throw .isADirectory

end FileTree

end PseudoLru
