/-!
# Files

What a run can meet when it asks for a file, and how a path is followed in a tree of directories.

A path is names with slashes between them. An absolute path, which starts with a slash, is followed
from the top of the tree, every other one from the directory a run works in. An empty name and `.`
stay where they are, and `..` goes to the directory above, or stays at the top.

## Main definitions

* `ReadError`, `ReadError.message` — why a file cannot be read
* `Entry` — a file or a directory
* `Entry.follow` — the entry that the names of a path lead to
* `FileTree`, `FileTree.read` — a tree with a working directory, and the text of one of its files
-/

namespace Formulary

namespace CommandLine

/-- Why a file cannot be read. -/
inductive ReadError where
  /-- There is no such file. -/
  | missing
  /-- The file is not meant for everyone. -/
  | denied
  /-- A name on the way to the file is not the name of a directory. -/
  | notDirectory
  /-- The path leads to a directory. -/
  | directory
  /-- A name in the path, or the path itself, is longer than the system allows. -/
  | nameTooLong
  /-- The file is not text in UTF-8. -/
  | notText
  /-- The system gives another cause. -/
  | other (cause : String)
deriving DecidableEq, Repr

namespace ReadError

/-- The number that the system gives a cause. -/
def code? : ReadError → Option Nat
  | missing => some 2
  | denied => some 13
  | notDirectory => some 20
  | directory => some 21
  | nameTooLong => some 36
  | notText | other _ => none

/-- The causes that have a number. -/
def numbered : List ReadError := [missing, denied, notDirectory, directory, nameTooLong]

/-- The cause with a number. -/
def ofCode? (code : Nat) : Option ReadError := numbered.find? fun e => e.code? == some code

/-- What a cause is. -/
def description : ReadError → String
  | missing => "No such file or directory"
  | denied => "Permission denied"
  | notDirectory => "Not a directory"
  | directory => "Is a directory"
  | nameTooLong => "File name too long"
  | notText => "stream did not contain valid UTF-8"
  | other cause => cause

/-- The wording of a cause. -/
def message (e : ReadError) : String :=
  match e.code? with
  | some code => s!"{e.description} (os error {code})"
  | none => e.description

/-- A number stands for the cause that has it. -/
theorem ofCode?_of_code? {e : ReadError} {code : Nat} (h : e.code? = some code) :
    ofCode? code = some e := by
  cases e <;> simp only [code?, Option.some.injEq, reduceCtorEq] at h <;> subst h <;> rfl

end ReadError

/-! ### Following a path -/

/-- What a name in a directory stands for. -/
inductive Entry where
  | file (contents : ByteArray)
  | directory (entries : List (String × Entry))

namespace Entry

/-- The longest name that a directory can hold, in bytes. -/
def longestName : Nat := 255

/-- The entry that names lead to, from an entry on; `above` are the directories above it, the
nearest first. -/
def follow : (above : List Entry) → Entry → List String → Except ReadError Entry
  | _, here, [] => .ok here
  | _, file _, _ :: _ => .error .notDirectory
  | above, directory entries, name :: rest =>
    if name.isEmpty || name == "." then follow above (directory entries) rest
    else if name == ".." then
      match above with
      | [] => follow [] (directory entries) rest
      | up :: above => follow above up rest
    else if longestName < name.utf8ByteSize then .error .nameTooLong
    else
      match entries.lookup name with
      | none => .error .missing
      | some e => follow (directory entries :: above) e rest

end Entry

/-- A tree of directories, and the names that lead to the directory a run works in. -/
structure FileTree where
  top : Entry
  working : List String

namespace FileTree

/-- Every path is shorter than this, in bytes. -/
def longestPath : Nat := 4096

/-- The entry that a path leads to. -/
def entry (t : FileTree) (path : String) : Except ReadError Entry :=
  if longestPath ≤ path.utf8ByteSize then .error .nameTooLong
  else if path.isEmpty then .error .missing
  else
    let names := path.splitOn "/"
    t.top.follow [] (if path.toList.head? = some '/' then names else t.working ++ names)

/-- The text of the file that a path leads to. -/
def read (t : FileTree) (path : String) : Except ReadError String :=
  match t.entry path with
  | .error e => .error e
  | .ok (.directory _) => .error .directory
  | .ok (.file contents) =>
    match String.fromUTF8? contents with
    | some text => .ok text
    | none => .error .notText

end FileTree

end CommandLine

end Formulary
