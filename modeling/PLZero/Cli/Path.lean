/-!
# File paths

Paths are texts with `/` between their names.  A name is not empty, so slashes in a row count as
one and a path may have slashes at its end.  To find the file name, names that are `.` do not count.

* `names` — the names, in order.
* `fileName?` — the last name, unless it is `..` or there is none.
* `stem?`, `extension?` — the file name before and after its last dot.  A dot at the start of a
  file name does not divide it.
* `withExtension` — the path with another extension.
-/

namespace PLZero.Path

def names (path : String) : List String := (path.splitOn "/").filter (· ≠ "")

def isAbsolute (path : String) : Bool := path.startsWith "/"

def endsInSlash (path : String) : Bool := path.endsWith "/"

/-- The names of a directory itself and of the one around it. -/
def isDots (name : String) : Bool := name = "." || name = ".."

def fileName? (path : String) : Option String :=
  ((names path).filter (· ≠ ".")).getLast?.filter (· ≠ "..")

/-- A file name divided at its last dot. -/
def divide (name : List Char) : List Char × Option (List Char) :=
  let after := name.reverse.takeWhile (· ≠ '.')
  match name.reverse.drop after.length with
  | _ :: b :: before => ((b :: before).reverse, some after.reverse)
  | _ => (name, none)

def stem? (path : String) : Option String :=
  (fileName? path).map fun name => String.ofList (divide name.toList).1

def extension? (path : String) : Option String := do
  let name ← fileName? path
  String.ofList <$> (divide name.toList).2

/-- A reversed path without the slashes and dots behind its file name. -/
def dropTail : List Char → List Char
  | '/' :: cs => dropTail cs
  | '.' :: '/' :: cs => dropTail cs
  | cs => cs

/-- The path with an extension right after its stem.  A path without a file name stays as it is. -/
def setExtension (path ext : String) : String :=
  match fileName? path with
  | none => path
  | some name =>
    let keep := (divide name.toList).1.length
    let reversed := (dropTail path.toList.reverse).drop (name.length - keep)
    String.ofList reversed.reverse ++ "." ++ ext

/-- The path without its extension, but with the dot before it. -/
def cutExtension (path : String) : String :=
  match extension? path with
  | none => path
  | some ext => String.ofList (path.toList.take (path.length - ext.length))

/-- The path with another extension.  The old one is cut off first, so a file name that is one dot
before its extension turns into `..`, which has no stem to put an extension after. -/
def withExtension (path ext : String) : String := setExtension (cutExtension path) ext

end PLZero.Path
