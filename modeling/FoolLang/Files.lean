/-!
# Files — what paths lead to

A path starts in the working directory or, after a slash, at the root.  A dot alone and an empty part do not count,
two dots go one directory up, and any other part is the name of a file: the only directories are the working
directory, those it lies in, and the root.  A path that ends in a slash names no file.  What was written is read back
(`read_write`).
-/
namespace FoolLang

/-- What a file holds: text, or bytes that are no text. -/
inductive Content
  | text (cs : List Char)
  | undecodable
  deriving DecidableEq

/-- Why a file cannot be read or written. -/
inductive FileError
  | notFound
  | isDirectory
  | notDirectory
  | notText
  | other (cause : String)
  deriving DecidableEq

def FileError.message : FileError → String
  | notFound => "No such file or directory (os error 2)"
  | isDirectory => "Is a directory (os error 21)"
  | notDirectory => "Not a directory (os error 20)"
  | notText => "stream did not contain valid UTF-8"
  | other cause => cause

/-- The working directory, the one `n + 1` levels above it, or the root. -/
inductive Directory
  | working
  | above (n : Nat)
  | root
  deriving DecidableEq

def Directory.parent : Directory → Directory
  | working => above 0
  | above n => above (n + 1)
  | root => root

/-- The name of a file and the directory it lies in. -/
structure FileName where
  directory : Directory
  name : List Char
  deriving DecidableEq

/-- The files there are. -/
abbrev Files := List (FileName × Content)

/-- What a path leads to. -/
inductive Place
  | directory
  | file (f : FileName)
  /-- Something inside a file, which is no directory. -/
  | inside (f : FileName)
  deriving DecidableEq

/-- The parts of a path between slashes. -/
def pathParts : List Char → List (List Char)
  | [] => [[]]
  | c :: cs =>
    if c = '/' then [] :: pathParts cs
    else
      match pathParts cs with
      | [] => [[c]]
      | p :: ps => (c :: p) :: ps

namespace Place

/-- Where parts lead, none of them empty. -/
def ofParts (d : Directory) : List (List Char) → Place
  | [] => .directory
  | p :: ps =>
    if p = ['.'] then ofParts d ps
    else if p = ['.', '.'] then ofParts d.parent ps
    else if ps = [] then .file ⟨d, p⟩
    else .inside ⟨d, p⟩

/-- Where a path leads. -/
def ofPath (path : List Char) : Place :=
  ofParts (if path.head? = some '/' then .root else .working) ((pathParts path).filter fun p => decide (p ≠ []))

end Place

/-- Whether a path asks for a directory. -/
def endsInSlash (path : List Char) : Bool := decide (path.getLast? = some '/')

namespace Files

/-- What is wrong with a path through or to a file that is taken for a directory. -/
def misuse (files : Files) (f : FileName) : FileError :=
  if (files.lookup f).isSome then .notDirectory else .notFound

def read (files : Files) (path : List Char) : Except FileError (List Char) :=
  match Place.ofPath path with
  | .directory => .error .isDirectory
  | .inside f => .error (files.misuse f)
  | .file f =>
    if endsInSlash path then .error (files.misuse f)
    else
      match files.lookup f with
      | none => .error .notFound
      | some .undecodable => .error .notText
      | some (.text cs) => .ok cs

def write (files : Files) (path text : List Char) : Except FileError Files :=
  match Place.ofPath path with
  | .directory => .error .isDirectory
  | .inside f => .error (files.misuse f)
  | .file f =>
    if endsInSlash path then .error .isDirectory
    else .ok ((f, .text text) :: files.filter (fun g => g.1 ≠ f))

/-- **What was written is read back.** -/
theorem read_write {files after : Files} {path text : List Char} (h : files.write path text = .ok after) :
    after.read path = .ok text := by
  unfold write at h
  unfold read
  split at h
  · cases h
  · cases h
  · split at h
    · cases h
    · rename_i hs
      cases h
      simp [hs]

end Files
end FoolLang
