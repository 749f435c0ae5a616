import EnvManifest.Manifest.Basic
import EnvManifest.Manifest.PackageEdit
import EnvManifest.Manifest.FieldEdit
import EnvManifest.Notice

/-!
# Operations on a manifest

An operation changes what a manifest says and the document that says it, both in step:
the settings are never decoded again. Each operation either succeeds, and may then have
something to tell the user, or fails with an error; `Outcome` has all of that with the
manifest it leaves.

A package is addressed by its versioned name, and the first one listed under it is
meant. The lists of a package only grow, by what is asked for and missing. The two
lists of platforms exclude each other: neither is given a member while the other has
one.
-/

namespace EnvManifest

/-! ### Operations -/

/-- The fields of a manifest that are set to a string. -/
inductive StringField where
  | name
  | description
  | envFrom
  | requirement
deriving DecidableEq

/-- The name of a field in the document. -/
def StringField.key : StringField → Text
  | name => "name".toList
  | description => "description".toList
  | envFrom => "env_from".toList
  | requirement => "devbox_version".toList

/-- The lists of a package that grow. -/
inductive ListField where
  | platforms
  | excludedPlatforms
  | outputs
  | allowInsecure
deriving DecidableEq

namespace ListField

/-- The name of a list in the document. -/
def key : ListField → Text
  | platforms => "platforms".toList
  | excludedPlatforms => "excluded_platforms".toList
  | outputs => "outputs".toList
  | allowInsecure => "allow_insecure".toList

/-- The list of a package. -/
def get : ListField → Package → List Text
  | platforms, p => p.platforms
  | excludedPlatforms, p => p.excludedPlatforms
  | outputs, p => p.outputs
  | allowInsecure, p => p.allowInsecure

/-- The package with values put at the end of the list. -/
def append (values : List Text) : ListField → Package → Package
  | platforms, p => { p with platforms := p.platforms ++ values }
  | excludedPlatforms, p => { p with excludedPlatforms := p.excludedPlatforms ++ values }
  | outputs, p => { p with outputs := p.outputs ++ values }
  | allowInsecure, p => { p with allowInsecure := p.allowInsecure ++ values }

end ListField

/-- What can be done to a manifest. -/
inductive Operation where
  | add (package : Text)
  | remove (package : Text)
  | addPlatforms (package : Text) (values : List Text)
  | excludePlatforms (package : Text) (values : List Text)
  | setOutputs (package : Text) (values : List Text)
  | setAllowInsecure (package : Text) (values : List Text)
  | setPatch (package : Text) (mode : PatchMode)
  | setPatchGlibc (package : Text) (on : Bool)
  | setDisablePlugin (package : Text) (on : Bool)
  | setEnv (env : Table Text)
  | setString (field : StringField) (value : Text)

/-- What an operation leaves: how it ended, what it tells the user, and the
manifest. -/
structure Outcome where
  result : Except Error Unit
  notice : Option Notice
  manifest : Manifest

namespace Manifest

/-! ### Changing packages -/

/-- Whether a package is the one that a versioned name refers to. -/
def isNamed (v : VersionedName) (p : Package) : Bool :=
  p.name == v.name && p.version == v.version

/-- The packages with the first one that `p` picks changed. -/
def changeFirst (p : Package → Bool) (f : Package → Package) : List Package → List Package
  | [] => []
  | x :: xs => if p x then f x :: xs else x :: changeFirst p f xs

/-- The manifest with the first package of a versioned name changed. -/
def changePackage (m : Manifest) (v : VersionedName) (f : Package → Package) : Manifest :=
  { m with packages := changeFirst (isNamed v) f m.packages }

/-- The manifest as it is, the operation having ended without an error. -/
def unchanged (m : Manifest) : Outcome :=
  ⟨.ok (), none, m⟩

/-- The manifest as it is, the operation having failed. -/
def failed (m : Manifest) (e : Error) : Outcome :=
  ⟨.error e, none, m⟩

/-- An edit of the document and, if it succeeds, the outcome that `next` makes of its
answer. -/
def edited {α : Type} (m : Manifest) (e : Edit α) (next : α → Manifest → Outcome) : Outcome :=
  let (answer, d) := m.document.edit e
  let m := { m with document := d }
  match answer with
  | .ok a => next a m
  | .error i => m.failed (.internal i)

/-! ### Adding and removing -/

/-- The packages with a version more, or with another version in place of the one
listed under that name. -/
def addedTo (v : VersionedName) (isNew : Bool) (ps : List Package) : List Package :=
  if isNew || !ps.any (fun p => p.name == v.name) then ps ++ [Package.ofVersion v]
  else changeFirst (fun p => p.name == v.name) (fun p => { p with version := v.version }) ps

/-- **Adding a package**, unless it is listed with that version. -/
def add (m : Manifest) (package : Text) : Outcome :=
  let v := VersionedName.ofText package
  if (m.find? v).isSome then m.unchanged
  else m.edited (addPackage v) fun isNew m =>
    ⟨.ok (), none, { m with packages := addedTo v isNew m.packages }⟩

/-- **Removing a package**, if it is listed with that version. -/
def remove (m : Manifest) (package : Text) : Outcome :=
  let v := VersionedName.ofText package
  if (m.find? v).isNone then m.unchanged
  else m.edited (removePackage v) fun _ m =>
    ⟨.ok (), none, { m with packages := m.packages.eraseP (isNamed v) }⟩

/-! ### Lists of a package -/

/-- Appending what is missing to a list of a package; `notice` makes of the package and
the values added what the user is told. -/
def appendMissing (m : Manifest) (package : Text) (field : ListField) (values : List Text)
    (refuse : Package → Option Error) (notice : Package → List Text → Notice) : Outcome :=
  let v := VersionedName.ofText package
  match m.find? v with
  | none => m.failed (.packageNotFound package)
  | some p =>
    match refuse p with
    | some e => m.failed e
    | none =>
      match missingFrom (field.get p) values with
      | [] => m.unchanged
      | added =>
        m.edited (appendToList p.name field.key added) fun _ m =>
          ⟨.ok (), some (notice p added), m.changePackage v (field.append added)⟩

/-- Appending platforms, which have to be supported; without any nothing happens. -/
def appendPlatforms (m : Manifest) (package : Text) (field : ListField) (values : List Text)
    (refuse : Package → Option Error) (notice : Package → List Text → Notice) : Outcome :=
  if values.isEmpty then m.unchanged
  else match checkPlatforms values with
    | .error e => m.failed e
    | .ok () => m.appendMissing package field values refuse notice

/-- **Limiting a package to more platforms.** -/
def addPlatforms (m : Manifest) (package : Text) (values : List Text) : Outcome :=
  m.appendPlatforms package .platforms values
    (fun p => if p.excludedPlatforms.isEmpty then none
      else some (.user (.alreadyExcluding p.versionedName)))
    fun p _ => .addedPlatforms values p.versionedName

/-- **Keeping a package off more platforms.** -/
def excludePlatforms (m : Manifest) (package : Text) (values : List Text) : Outcome :=
  m.appendPlatforms package .excludedPlatforms values
    (fun p => if p.platforms.isEmpty then none
      else some (.user (.alreadyLimited p.versionedName)))
    fun p _ => .excludedPlatforms values p.versionedName

/-- **Asking for more outputs of a package.** -/
def setOutputs (m : Manifest) (package : Text) (values : List Text) : Outcome :=
  m.appendMissing package .outputs values (fun _ => none) fun _ added => .addedOutputs added package

/-- **Allowing more of a package although it is insecure.** -/
def setAllowInsecure (m : Manifest) (package : Text) (values : List Text) : Outcome :=
  m.appendMissing package .allowInsecure values (fun _ => none)
    fun _ added => .allowedInsecure added package

/-! ### Other settings of a package -/

/-- The edit that sets a patch mode; `auto` is written as no mode at all. -/
def patchEdit (name : Text) : PatchMode → Edit Unit
  | .auto => removePatchMode name
  | mode => setPatchMode name mode

/-- **Setting the patch mode of a package.** -/
def setPatch (m : Manifest) (package : Text) (mode : PatchMode) : Outcome :=
  let v := VersionedName.ofText package
  match m.find? v with
  | none => m.failed (.packageNotFound package)
  | some p =>
    m.edited (patchEdit p.name mode) fun _ m =>
      ⟨.ok (), none, m.changePackage v fun p => { p with patchGlibc := false, patch := mode }⟩

/-- **The older way to set the patch mode**: always, or not specially. -/
def setPatchGlibc (m : Manifest) (package : Text) (on : Bool) : Outcome :=
  let mode : PatchMode := if on then .always else .auto
  match m.find? (VersionedName.ofText package) with
  | none => m.failed (.packageNotFound package)
  | some p => if p.patch = mode ∧ !p.patchGlibc then m.unchanged else m.setPatch package mode

/-- **Turning the plugin of a package off or on.** -/
def setDisablePlugin (m : Manifest) (package : Text) (on : Bool) : Outcome :=
  let v := VersionedName.ofText package
  match m.find? v with
  | none => m.failed (.packageNotFound package)
  | some p =>
    if p.disablePlugin = on then m.unchanged
    else m.edited (setBool p.name "disable_plugin".toList on) fun _ m =>
      ⟨.ok (), none, m.changePackage v fun p => { p with disablePlugin := on }⟩

/-! ### Fields of the manifest -/

/-- **Replacing the environment.** -/
def setEnv (m : Manifest) (env : Table Text) : Outcome :=
  m.edited (EnvManifest.setEnv env) fun _ m => ⟨.ok (), none, { m with env := env }⟩

/-- The manifest with a field set. -/
def putString (m : Manifest) (value : Text) : StringField → Manifest
  | .name => { m with name := value }
  | .description => { m with description := value }
  | .envFrom => { m with envFrom := value }
  | .requirement => { m with requirement := value }

/-- The error of a value that a field may not be set to. -/
def stringError? (value : Text) : StringField → Option Error
  | .requirement =>
    match parseRequirement value with
    | .ok _ => none
    | .error e => some e
  | _ => none

/-- **Setting a field to a string.** A version requirement has to be one. -/
def setString (m : Manifest) (field : StringField) (value : Text) : Outcome :=
  match stringError? value field with
  | some e => m.failed e
  | none =>
    m.edited (EnvManifest.setString field.key value) fun _ m =>
      ⟨.ok (), none, m.putString value field⟩

/-! ### Running -/

/-- **What an operation leaves.** -/
def run (m : Manifest) : Operation → Outcome
  | .add package => m.add package
  | .remove package => m.remove package
  | .addPlatforms package values => m.addPlatforms package values
  | .excludePlatforms package values => m.excludePlatforms package values
  | .setOutputs package values => m.setOutputs package values
  | .setAllowInsecure package values => m.setAllowInsecure package values
  | .setPatch package mode => m.setPatch package mode
  | .setPatchGlibc package on => m.setPatchGlibc package on
  | .setDisablePlugin package on => m.setDisablePlugin package on
  | .setEnv env => m.setEnv env
  | .setString field value => m.setString field value

/-- The manifest after operations in a row, whether they succeed or fail. -/
def runAll (m : Manifest) (ops : List Operation) : Manifest :=
  ops.foldl (fun m op => (m.run op).manifest) m

end Manifest

end EnvManifest
