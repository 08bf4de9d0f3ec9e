namespace Adequacy

/-- What keeps a file from being used. -/
inductive FileFault where
  | notFound
  | alreadyExists
  | notDirectory
  | isDirectory
  | permissionDenied
  | nameTooLong
  | notText
  | nulByte
  deriving DecidableEq, Repr

def FileFault.message : FileFault → String
  | notFound => "No such file or directory (os error 2)"
  | alreadyExists => "File exists (os error 17)"
  | notDirectory => "Not a directory (os error 20)"
  | isDirectory => "Is a directory (os error 21)"
  | permissionDenied => "Permission denied (os error 13)"
  | nameTooLong => "File name too long (os error 36)"
  | notText => "stream did not contain valid UTF-8"
  | nulByte => "file name contained an unexpected NUL byte"

inductive FileEntry where
  | file (bytes : ByteArray) (mode : Nat)
  | directory

/-- Files and directories by the names that lead to them from the root. The directories on the way
to an entry are there without being listed. -/
structure FileTree where
  entries : List (List String × FileEntry)

namespace Path

def isAbsolute (path : String) : Bool := path.startsWith "/"

/-- A path that is meant to start at a directory. An absolute one stays as it is. -/
def join (base path : String) : String :=
  if isAbsolute path then path
  else if base.isEmpty || base.endsWith "/" then base ++ path
  else base ++ "/" ++ path

/-- The names that a path leads along as far as they can be told without looking. -/
def names (path : String) : List String :=
  (path.splitOn "/").foldl
    (fun here part =>
      if part = "" ∨ part = "." then here
      else if part = ".." then here.dropLast
      else here ++ [part])
    []

/-- Replaces a tilde at the front by the home directory. -/
def expandHome (home path : String) : String :=
  match path.toList with
  | ['~'] => home
  | '~' :: '/' :: rest => home ++ String.ofList ('/' :: rest)
  | _ => path

end Path

namespace FileTree

def entry? (t : FileTree) (names : List String) : Option FileEntry :=
  match t.entries.find? (·.1 = names) with
  | some (_, e) => some e
  | none =>
    if names.isEmpty || t.entries.any (names.isPrefixOf ·.1) then some .directory else none

/-- Adds an entry, or replaces it. -/
def put (t : FileTree) (names : List String) (e : FileEntry) : FileTree :=
  ⟨t.entries.filter (·.1 ≠ names) ++ [(names, e)]⟩

/-- Follows the parts of a path from a place that has been reached. Whatever is not last has to be a
directory. -/
def follow (t : FileTree) (here : List String) : List String → Except FileFault (List String)
  | [] => .ok here
  | part :: rest =>
    match t.entry? here with
    | none => .error .notFound
    | some (.file ..) => .error .notDirectory
    | some .directory =>
      if part = "" ∨ part = "." then t.follow here rest
      else if part = ".." then t.follow here.dropLast rest
      else if 255 < part.utf8ByteSize then .error .nameTooLong
      else t.follow (here ++ [part]) rest

/-- The names that an absolute path leads along. -/
def resolve (t : FileTree) (path : String) : Except FileFault (List String) :=
  if path.toList.contains '\x00' then .error .nulByte
  else if path.isEmpty then .error .notFound
  else if 4096 ≤ path.utf8ByteSize then .error .nameTooLong
  else t.follow [] (path.splitOn "/")

def find (t : FileTree) (path : String) : Except FileFault FileEntry := do
  match t.entry? (← t.resolve path) with
  | some e => return e
  | none => throw .notFound

/-- Whether there is anything at a path. -/
def isPresent (t : FileTree) (path : String) : Bool := (t.find path).toOption.isSome

def isExecutable (t : FileTree) (path : String) : Bool :=
  match t.find path with
  | .ok (.file _ mode) => mode &&& 0o111 != 0
  | _ => false

def readText (t : FileTree) (path : String) : Except FileFault String := do
  match ← t.find path with
  | .directory => throw .isDirectory
  | .file bytes _ =>
    match String.fromUTF8? bytes with
    | some text => return text
    | none => throw .notText

/-- Writes a file. Its directory has to be there; what it held before is lost. -/
def writeText (t : FileTree) (path text : String) : Except FileFault FileTree := do
  let names ← t.resolve path
  match t.entry? names with
  | some .directory => throw .isDirectory
  | some (.file _ mode) => return t.put names (.file text.toUTF8 mode)
  | none => return t.put names (.file text.toUTF8 0o644)

/-- Makes an empty file unless there is one. -/
def touch (t : FileTree) (path : String) : Except FileFault FileTree := do
  let names ← t.resolve path
  match t.entry? names with
  | some .directory => throw .isDirectory
  | some (.file ..) => return t
  | none => return t.put names (.file .empty 0o644)

/-- Makes a directory and those on the way to it. -/
def createDirectories (t : FileTree) (here : List String) : List String → Except FileFault FileTree
  | [] =>
    match t.entry? here with
    | none => .ok (t.put here .directory)
    | some .directory => .ok t
    | some (.file ..) => .error .alreadyExists
  | part :: rest =>
    match t.entry? here with
    | some (.file ..) => .error .notDirectory
    | _ =>
      if part = "" ∨ part = "." then t.createDirectories here rest
      else if part = ".." then t.createDirectories here.dropLast rest
      else t.createDirectories (here ++ [part]) rest

/-- The names in a directory, in order. -/
def listing (t : FileTree) (directory : List String) : List String :=
  let below := t.entries.filterMap fun (path, _) =>
    if directory.isPrefixOf path then path[directory.length]? else none
  below.eraseDups.mergeSort (fun a b => decide (a ≤ b))

end FileTree

end Adequacy
