import Winnow.Graph.Specifier

/-!
# Files and directories

A tree of files as a value. A path is followed one name at a time from a directory, so a path
through something that is no directory leads nowhere.
-/

namespace Winnow

structure Disk where
  files : List (Bytes × Bytes) := []
  directories : List Bytes := []

inductive DiskFault where
  | missing
  | notDirectory
  | isDirectory
  deriving DecidableEq, Repr

def DiskFault.message : DiskFault → Bytes
  | missing => utf8 "no such file or directory"
  | notDirectory => utf8 "not a directory"
  | isDirectory => utf8 "is a directory"

structure DiskError where
  operation : String
  path : Bytes
  fault : DiskFault
  deriving DecidableEq, Repr

def DiskError.message (e : DiskError) : Bytes :=
  utf8 e.operation ++ utf8 " " ++ e.path ++ utf8 ": " ++ e.fault.message

namespace Disk

def child (directory name : Bytes) : Bytes :=
  if directory = utf8 "/" then 47 :: name else directory ++ 47 :: name

def isDirectory (disk : Disk) (path : Bytes) : Bool :=
  let below (p : Bytes) : Bool := Bytes.startsWith p (child path [])
  path = utf8 "/" || disk.directories.contains path || disk.directories.any below ||
    disk.files.any fun f => below f.1

def walk (disk : Disk) : (directory : Bytes) → (names : List Bytes) → Except DiskFault Bytes
  | directory, [] => .ok directory
  | directory, name :: names =>
    let path :=
      if name.isEmpty || name = utf8 "." then directory
      else if name = utf8 ".." then Specifier.directory directory
      else child directory name
    if names.isEmpty then .ok path
    else if disk.isDirectory path then walk disk path names
    else if (disk.files.lookup path).isSome then .error .notDirectory
    else .error .missing

def locate (disk : Disk) (from_ path : Bytes) : Except DiskFault Bytes :=
  match path with
  | [] => .error .missing
  | 47 :: rest => disk.walk (utf8 "/") (Bytes.splitOn 47 rest)
  | path => disk.walk from_ (Bytes.splitOn 47 path)

def contains (disk : Disk) (from_ path : Bytes) : Bool :=
  match disk.locate from_ path with
  | .ok p => disk.isDirectory p || (disk.files.lookup p).isSome
  | .error _ => false

def read (disk : Disk) (from_ path : Bytes) : Except DiskError Bytes :=
  match disk.locate from_ path with
  | .error fault => .error ⟨"open", path, fault⟩
  | .ok p =>
    if disk.isDirectory p then .error ⟨"read", path, .isDirectory⟩
    else match disk.files.lookup p with
      | some s => .ok s
      | none => .error ⟨"open", path, .missing⟩

def writable (disk : Disk) (from_ path : Bytes) : Except DiskError Bytes :=
  match disk.locate from_ path with
  | .error fault => .error ⟨"open", path, fault⟩
  | .ok p =>
    if path.getLast? = some 47 || disk.isDirectory p then .error ⟨"open", path, .isDirectory⟩
    else .ok p

def addDirectory (disk : Disk) (path : Bytes) : Disk :=
  { disk with directories := path :: disk.directories }

def makeDirectories (disk : Disk) (from_ : Bytes) : (done names : List Bytes) →
    Except DiskError Disk
  | _, [] => .ok disk
  | done, name :: names =>
    let given := Bytes.join [47] (done ++ [name])
    match disk.locate from_ given with
    | .error fault =>
      if given.isEmpty then makeDirectories disk from_ (done ++ [name]) names
      else .error ⟨"mkdir", given, fault⟩
    | .ok p =>
      if (disk.files.lookup p).isSome then .error ⟨"mkdir", given, .notDirectory⟩
      else makeDirectories (disk.addDirectory p) from_ (done ++ [name]) names

/-- The files below a directory, by their paths from there. A slash in front changes nothing: such a
path starts at the directory as well. -/
def below (disk : Disk) (directory : Bytes) : List (Bytes × Bytes) :=
  let files := disk.files.filterMap fun (path, s) =>
    (Bytes.stripPrefix? (child directory []) path).map fun p => (p, s)
  files ++ files.map fun (p, s) => (47 :: p, s)

end Disk

end Winnow
