import EnvManifest.Decode
import EnvManifest.Package.Basic

/-!
# Package entries

In a document a package is an entry: null or a version, or an object with its
settings. `Package.decode` reads an entry, filling in what it leaves out; a missing
or empty patch mode is `always` if the older field `patch_glibc` is set and `auto`
otherwise. `Package.toNode` writes the settings of a package as an object, leaving
out what is as if it were missing, except for the patch mode, which is always
written so that the older field need not be consulted.

The list of packages is an array of versioned names or an object of entries by name.
Either way its order is kept, and a name may occur more than once.
-/

namespace EnvManifest

/-! ### Reading an entry -/

/-- The fields of an entry as they are written. -/
structure EntryFields where
  version : Text
  disablePlugin : Bool
  platforms : List Text
  excludedPlatforms : List Text
  patchGlibc : Bool
  patch : Option Text
  outputs : List Text
  allowInsecure : List Text

namespace EntryFields

/-- An entry with nothing but a version. -/
def ofVersion (version : Text) : EntryFields :=
  ⟨version, false, [], [], false, none, [], []⟩

/-- The fields and how they are read. -/
def fields : List (Datum.Field EntryFields) :=
  [.of "version" Datum.decodeText fun a s => { s with version := a },
    .of "disable_plugin" Datum.decodeBool fun a s => { s with disablePlugin := a },
    .of "platforms" Datum.decodeTexts fun a s => { s with platforms := a },
    .of "excluded_platforms" Datum.decodeTexts fun a s => { s with excludedPlatforms := a },
    .of "patch_glibc" Datum.decodeBool fun a s => { s with patchGlibc := a },
    .of "patch" (Datum.decodeOption Datum.decodeText) fun a s => { s with patch := a },
    .of "outputs" Datum.decodeTexts fun a s => { s with outputs := a },
    .of "allow_insecure" Datum.decodeTexts fun a s => { s with allowInsecure := a }]

/-- The patch mode that the fields ask for. -/
def patchMode (f : EntryFields) : Decoded PatchMode :=
  match f.patch.getD [] with
  | [] => .ok (if f.patchGlibc then .always else .auto)
  | word =>
    match PatchMode.ofText? word with
    | some m => .ok m
    | none => .error (.badPatchMode word)

/-- The package of the fields, under a name. -/
def toPackage (name : Text) (f : EntryFields) : Decoded Package := do
  let patch ← f.patchMode
  pure ⟨name, f.version, f.disablePlugin, f.platforms, f.excludedPlatforms, f.patchGlibc, patch,
    f.outputs, f.allowInsecure⟩

end EntryFields

namespace Package

/-- The package of an entry, under a name. -/
def decode (name : Text) : Datum → Decoded Package
  | .string version => (EntryFields.ofVersion version).toPackage name
  | .null => (EntryFields.ofVersion []).toPackage name
  | .object members => do
    let f ← Datum.decodeMembers EntryFields.fields [] members (EntryFields.ofVersion [])
    f.toPackage name
  | d => .error (d.unexpected "a version string or a package object".toList)

/-- The packages of a list. -/
def decodeList : Datum → Decoded (List Package)
  | .array elements =>
    elements.mapM fun d => do
      let s ← d.decodeText
      pure (Package.ofVersion (VersionedName.ofText s))
  | .object members => members.mapM fun m => decode m.1 m.2
  | .null => .ok []
  | d => .error (d.unexpected "a list of package names or an object of packages".toList)

/-! ### Writing an entry -/

/-- A field that is left out unless `present`. -/
def optionalField (present : Bool) (name : String) (n : Node) : List (Text × Node) :=
  if present then [(name.toList, n)] else []

/-- The fields of a package that are written, in order. -/
def writtenFields (p : Package) : List (Text × Node) :=
  optionalField (!p.version.isEmpty) "version" (Node.ofText p.version) ++
  optionalField p.disablePlugin "disable_plugin" (.bool true) ++
  optionalField (!p.platforms.isEmpty) "platforms" (Node.ofTexts p.platforms) ++
  optionalField (!p.excludedPlatforms.isEmpty) "excluded_platforms"
    (Node.ofTexts p.excludedPlatforms) ++
  optionalField p.patchGlibc "patch_glibc" (.bool true) ++
  [("patch".toList, Node.ofText p.patch.toText)] ++
  optionalField (!p.outputs.isEmpty) "outputs" (Node.ofTexts p.outputs) ++
  optionalField (!p.allowInsecure.isEmpty) "allow_insecure" (Node.ofTexts p.allowInsecure)

/-- The settings of a package as an object, without its name. -/
def toNode (p : Package) : Node :=
  Node.strictObject p.writtenFields

end Package

/-- The patch mode that a word in a document stands for. -/
def PatchMode.decode (d : Datum) : Decoded PatchMode := do
  let word ← d.decodeText
  match PatchMode.ofText? word with
  | some m => pure m
  | none => .error (.badPatchMode word)

end EnvManifest
