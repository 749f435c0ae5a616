import EnvManifest.Manifest.Basic
import EnvManifest.Store.Walk

/-!
# Manifests in a store

A manifest is loaded from a file of a store and remembers where it was found. It is
saved to a directory, as the file that manifests are kept in there, or to a path that
has the name of such a file already. The same rule holds for the path it remembers.
-/

namespace EnvManifest

/-- An absolute path as it is written. -/
def FilePath.written (p : FilePath) : Text :=
  p.flatMap fun name => '/' :: name

/-- The file that a manifest saved to a path goes to: the path if it has the name of a
manifest, and otherwise the file of that name in the directory at the path. -/
def savedAt (path : Text) : Text :=
  match path.cutAtName? with
  | some (_, name, _) => if isManifestName name then path else path.inDirectory Manifest.fileName
  | none => path.inDirectory Manifest.fileName

namespace Manifest

/-- **The manifest in a file of a store.** -/
def loadFrom (s : Store) (path : Text) : Except Error Manifest :=
  match s.read path with
  | .error e => .error (.file e)
  | .ok (p, content) => do
    let m ← loadOctets content
    pure { m with file := some p }

/-- **The store after saving a manifest to a path.** -/
def saveTo (m : Manifest) (s : Store) (path : Text) : Except FileError Store :=
  s.replace (savedAt path) m.octets

/-- **The store after saving a manifest to where it was loaded from.** -/
def save (m : Manifest) (s : Store) : Except Error Store :=
  match m.file with
  | none => .error (.internal .noFile)
  | some p =>
    match m.saveTo s p.written with
    | .ok s => .ok s
    | .error e => .error (.file e)

end Manifest

end EnvManifest
