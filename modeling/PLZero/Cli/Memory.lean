import PLZero.Cli.Session

/-!
# Sessions in memory

A directory held in memory serves as a shell for sessions: files are found by walking along paths
name by name, what is printed is collected, and nothing is measured.
-/

namespace PLZero.Cli

/-- The files of a directory by name.  A name with slashes stands for a file in a directory below. -/
abbrev Directory := List (String × List UInt8)

/-- Where a walk along a path has come to. -/
inductive Node where
  /-- The directory itself, or the one below it that these names lead to. -/
  | below (names : List String)
  /-- A directory around it, in which nothing else is known to be. -/
  | around
  | file (name : String) (contents : List UInt8)
  deriving DecidableEq, Repr

namespace Directory

/-- Bytes in a name at most. -/
def maxName : Nat := 255

/-- Bytes in a path at most. -/
def maxPath : Nat := 4095

/-- Whether some file lies below the directory that these names lead to. -/
def hasDirectory (d : Directory) (names : List String) : Bool :=
  d.any fun f => names.isPrefixOf (Path.names f.1) && names ≠ Path.names f.1

def find? (d : Directory) (names : List String) : Option (String × List UInt8) :=
  List.find? (fun f => Path.names f.1 = names) d

/-- What the name of an entry stands for below the directory that `names` lead to. -/
def entry (d : Directory) (names : List String) (name : String) : Except FileFault Node :=
  let inner := names ++ [name]
  if d.hasDirectory inner then .ok (.below inner)
  else match d.find? inner with
    | some (name, contents) => .ok (.file name contents)
    | none => .error .notFound

/-- One step of a walk.  Only from a directory does any name lead on, `.` and `..` included. -/
def step (d : Directory) (node : Node) (name : String) : Except FileFault Node :=
  match node with
  | .file .. => .error .notDirectory
  | .around =>
    if Path.isDots name then .ok .around
    else if maxName < name.utf8ByteSize then .error .nameTooLong
    else .error .notFound
  | .below names =>
    if name = "." then .ok (.below names)
    else if name = ".." then .ok (if names = [] then .around else .below names.dropLast)
    else if maxName < name.utf8ByteSize then .error .nameTooLong
    else d.entry names name

/-- Where a walk along the path begins. -/
def origin (path : String) : Node := if Path.isAbsolute path then .around else .below []

def walk (d : Directory) (path : String) (names : List String) : Except FileFault Node :=
  if maxPath < path.utf8ByteSize then .error .nameTooLong else names.foldlM d.step (origin path)

/-- The contents of the file at the path.  A slash at the end asks for a directory. -/
def read (d : Directory) (path : String) : Except FileFault (List UInt8) := do
  match ← d.walk path (Path.names path) with
  | .file _ contents => if Path.endsInSlash path then throw .notDirectory else return contents
  | _ => throw .isDirectory

/-- Replaces or adds a file. -/
def put (d : Directory) (name : String) (contents : List UInt8) : Directory :=
  (name, contents) :: d.filter fun f => f.1 ≠ name

/-- Adds a file under a name that is free.  A file put around the directory is not part of it. -/
def create (d : Directory) (parent : Node) (name : String) (contents : List UInt8) : Directory :=
  match parent with
  | .below names => d.put ("/".intercalate (names ++ [name])) contents
  | _ => d

/-- Writes a file.  The walk leads to the directory that is to hold it, which must be there; what
comes last must then be the name of a file or a free name. -/
def write (d : Directory) (path : String) (contents : List UInt8) : Except FileFault Directory := do
  let names := Path.names path
  match ← d.walk path names.dropLast, names.getLast? with
  | .file .., _ => throw .notDirectory
  | _, none => throw .isDirectory
  | parent, some name =>
    if Path.isDots name || Path.endsInSlash path then throw .isDirectory
    match d.step parent name with
    | .ok (.file name _) => return d.put name contents
    | .ok _ => throw .isDirectory
    | .error .notFound => return d.create parent name contents
    | .error fault => throw fault

end Directory

/-- What a session in memory has printed, and the files as they are now. -/
structure Transcript where
  files : Directory
  stdout : String
  stderr : String
  deriving DecidableEq, Repr

/-- The shell of a directory in memory. -/
def memoryShell (input : List UInt8) : Shell (StateM Transcript) where
  readFile path := return (← get).files.read path
  writeFile path contents := do
    match (← get).files.write path contents with
    | .ok files => modify fun t => { t with files := files }; return .ok ()
    | .error fault => return .error fault
  print text := modify fun t => { t with stdout := t.stdout ++ text }
  printError text := modify fun t => { t with stderr := t.stderr ++ text }
  input := return input
  mark _ := return ()
  elapsed _ := return none

/-- Carries out a command line on a directory in memory. -/
def runInMemory (steps : Nat) (args : List String) (files : Directory) (input : List UInt8) :
    UInt32 × Transcript :=
  (run (memoryShell input) steps args).run ⟨files, "", ""⟩

end PLZero.Cli
