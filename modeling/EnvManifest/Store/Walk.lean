import EnvManifest.Store.Basic
import EnvManifest.Error

/-!
# Walking a store

A path is written as names with slashes between them. Such a text is walked name by
name from the top directory, and each step has to start in a directory: an empty name
and `.` stay there, `..` goes to the directory that holds it, and any other name goes
down, whether there is anything at it or not.

A file is read at the path where the walk ends. It is written by moving a new file to
a target, so what has to be there is the directory of the target, and the target is a
name in it: a target that goes on behind that name is refused.
-/

namespace EnvManifest

/-- The names in a written path, with those that do not lead anywhere. -/
def Text.names (path : Text) : List Text :=
  path.splitOn '/'

/-- Whether a name in a written path stays in the directory. -/
def Text.stays (name : Text) : Bool :=
  name == [] || name == ['.']

/-- Whether a name in a written path leads to the directory above. -/
def Text.leadsUp (name : Text) : Bool :=
  name == ['.', '.']

/-- A written path cut behind its last name that does not stay: the directory, that
name unless it leads up, and what follows it. -/
def Text.cutAtName? (path : Text) : Option (List Text × Text × List Text) :=
  let reversed := path.names.reverse
  match reversed.dropWhile stays with
  | [] => none
  | name :: above =>
    if name.leadsUp then none
    else some (above.reverse, name, (reversed.takeWhile stays).reverse)

/-- The path of a name in a directory. -/
def Text.inDirectory (directory name : Text) : Text :=
  if directory.getLast? = some '/' then directory ++ name else directory ++ '/' :: name

namespace Store

/-! ### Walking -/

/-- Checks that there is a directory at a path. -/
def checkDirectory (s : Store) (p : FilePath) : Except FileError Unit :=
  match s.find? p with
  | some .directory => .ok ()
  | some (.file _) => .error .notADirectory
  | none => .error .notFound

/-- The path that a name leads to from a directory. -/
def step (here : FilePath) (name : Text) : FilePath :=
  if name.stays then here else if name.leadsUp then here.dropLast else here ++ [name]

/-- **The path that names lead to**, each from a directory. -/
def walk (s : Store) : FilePath → List Text → Except FileError FilePath
  | here, [] => .ok here
  | here, name :: rest => do
    s.checkDirectory here
    s.walk (step here name) rest

/-! ### Reading -/

/-- **The path of a file and its content.** -/
def read (s : Store) (path : Text) : Except FileError (FilePath × Octets) := do
  let p ← s.walk [] path.names
  match s.find? p with
  | some (.file content) => .ok (p, content)
  | some .directory => .error .isADirectory
  | none => .error .notFound

/-! ### Writing -/

/-- Checks that a file can be moved to a path, with the names that the target has
behind it: there may be none, and no directory at the path. -/
def checkTarget (s : Store) (p : FilePath) (behind : List Text) : Except FileError Unit :=
  if behind.isEmpty then
    if s.find? p = some .directory then .error .isADirectory else .ok ()
  else if behind.all List.isEmpty then .error .notADirectory
  else
    match s.find? p with
    | some .directory => .error .isADirectory
    | some (.file _) => .error .notADirectory
    | none => .error .notFound

/-- **The store with a file moved to a target**, in place of the file there. -/
def replace (s : Store) (target : Text) (content : Octets) : Except FileError Store :=
  match target.cutAtName? with
  | none => .error .isADirectory
  | some (above, name, behind) => do
    let directory ← s.walk [] above
    s.checkDirectory directory
    s.checkTarget (directory ++ [name]) behind
    .ok (s.put (directory ++ [name]) (.file content))

/-- The directories that names lead to, made where there is nothing yet. -/
def makeDirectories (s : Store) : FilePath → List Text → Except FileError Store
  | here, [] => do
    s.checkDirectory here
    .ok s
  | here, name :: rest => do
    s.checkDirectory here
    let next := step here name
    if (s.find? next).isNone then (s.put next .directory).makeDirectories next rest
    else s.makeDirectories next rest

end Store

end EnvManifest
