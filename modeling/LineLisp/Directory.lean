import LineLisp.Stream

/-!
# Directories

A working directory that holds plain files only. A path is walked step by step, from the working
directory or, if it begins with a slash, from outside of it, and leads to a file, to a directory, or
nowhere. Of what lies outside, only the directories above are known. A directory can be opened like
a file, but reading it fails.
-/

namespace LineLisp

/-- The files of a directory, by name. -/
structure Directory where
  files : List (String × ByteArray)

/-- Where a path may lead. -/
inductive Place where
  | working
  /-- A directory above the working directory. -/
  | outside
  | file (bytes : ByteArray)

namespace Directory

/-- A path of this many bytes or more leads nowhere: one byte of the limit is for the end mark. -/
def pathLimit : Nat := 4096

/-- How reading a directory fails. -/
def fault : Fault := ⟨"Is a directory (os error 21)"⟩

/-- Where a step leads. From a file no step leads anywhere, not even an empty one. -/
def step (dir : Directory) : Place → String → Option Place
  | .file _, _ => none
  | place, "" => some place
  | place, "." => some place
  | _, ".." => some .outside
  | .working, name => (dir.files.lookup name).map .file
  | .outside, _ => none

/-- Where a path leads. -/
def follow? (dir : Directory) (path : String) : Option Place :=
  if path = "" ∨ pathLimit ≤ path.utf8ByteSize then none
  else
    (path.splitOn "/").foldlM dir.step (if path.startsWith "/" then .outside else .working)

/-- What reading a place gives. -/
def read : Place → Input
  | .file bytes => { bytes }
  | .working | .outside => { bytes := .empty, fault := some fault }

/-- Opens what a path leads to. -/
def openPath? (dir : Directory) (path : String) : Option Input :=
  (dir.follow? path).map read

end Directory

end LineLisp
