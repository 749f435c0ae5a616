import EnvManifest.Manifest.Operation

/-!
# What operations ask of a document

An operation edits the document of a manifest once or not at all. Which edit that is
depends on the settings: a package has to be listed, or not to be; a list has to lack
something that it is given. `Manifest.request?` is the edit that an operation asks for, as a
`Request`, and `Manifest.document_run` says that the document after the operation is what
the request leaves, laid out.
-/

namespace EnvManifest

/-! ### Requests -/

/-- What an operation asks of the document. -/
inductive Request where
  | addPackage (v : VersionedName)
  | removePackage (v : VersionedName)
  | appendToList (name : Text) (field : ListField) (values : List Text)
  | setBool (name field : Text) (on : Bool)
  | setPatchMode (name : Text) (mode : PatchMode)
  | removePatchMode (name : Text)
  | setEnv (env : Table Text)
  | setString (key value : Text)

namespace Request

/-- The root that a request leaves, not yet laid out. -/
def leave : Request → Object → Object
  | addPackage v, root => (EnvManifest.addPackage v root).2
  | removePackage v, root => (EnvManifest.removePackage v root).2
  | appendToList name field values, root => (EnvManifest.appendToList name field.key values root).2
  | setBool name field on, root => (EnvManifest.setBool name field on root).2
  | setPatchMode name mode, root => (EnvManifest.setPatchMode name mode root).2
  | removePatchMode name, root => (EnvManifest.removePatchMode name root).2
  | setEnv env, root => (EnvManifest.setEnv env root).2
  | setString key value, root => (EnvManifest.setString key value root).2

end Request

/-- The document that a request leaves, if there is one. -/
def Document.after (d : Document) : Option Request → Document
  | none => d
  | some r => format { d with root := r.leave d.root }

namespace Manifest

/-! ### What operations ask for -/

section Requests

variable (m : Manifest)

/-- What appending to a list of a package asks for. -/
def appendRequest? (package : Text) (field : ListField) (values : List Text)
    (refused : Package → Bool) : Option Request :=
  match m.find? (VersionedName.ofText package) with
  | none => none
  | some p =>
    if refused p then none
    else match missingFrom (field.get p) values with
      | [] => none
      | added => some (.appendToList p.name field added)

/-- What appending platforms asks for. -/
def platformsRequest? (package : Text) (field : ListField) (values : List Text)
    (refused : Package → Bool) : Option Request :=
  if values.isEmpty then none
  else match checkPlatforms values with
    | .error _ => none
    | .ok () => m.appendRequest? package field values refused

/-- What setting a patch mode asks for. -/
def patchRequest (name : Text) : PatchMode → Request
  | .auto => .removePatchMode name
  | mode => .setPatchMode name mode

/-- What setting the patch mode of a package asks for. -/
def setPatchRequest? (package : Text) (mode : PatchMode) : Option Request :=
  (m.find? (VersionedName.ofText package)).map fun p => patchRequest p.name mode

/-- **What an operation asks of the document**, if it asks for anything. -/
def request? : Operation → Option Request
  | .add package =>
    let v := VersionedName.ofText package
    if (m.find? v).isSome then none else some (.addPackage v)
  | .remove package =>
    let v := VersionedName.ofText package
    if (m.find? v).isNone then none else some (.removePackage v)
  | .addPlatforms package values =>
    m.platformsRequest? package .platforms values fun p => !p.excludedPlatforms.isEmpty
  | .excludePlatforms package values =>
    m.platformsRequest? package .excludedPlatforms values fun p => !p.platforms.isEmpty
  | .setOutputs package values => m.appendRequest? package .outputs values fun _ => false
  | .setAllowInsecure package values =>
    m.appendRequest? package .allowInsecure values fun _ => false
  | .setPatch package mode => m.setPatchRequest? package mode
  | .setPatchGlibc package on =>
    let mode : PatchMode := if on then .always else .auto
    match m.find? (VersionedName.ofText package) with
    | none => none
    | some p => if p.patch = mode ∧ !p.patchGlibc then none else m.setPatchRequest? package mode
  | .setDisablePlugin package on =>
    match m.find? (VersionedName.ofText package) with
    | none => none
    | some p =>
      if p.disablePlugin = on then none else some (.setBool p.name "disable_plugin".toList on)
  | .setEnv env => some (.setEnv env)
  | .setString field value =>
    match stringError? value field with
    | some _ => none
    | none => some (.setString field.key value)

end Requests

section Step

variable {m : Manifest}

/-- An edit that a request stands for. -/
theorem document_edited {α : Type} {e : Edit α} {next : α → Manifest → Outcome} {r : Request}
    (he : ∀ root, (e root).2 = r.leave root)
    (hnext : ∀ a m', (next a m').manifest.document = m'.document) :
    (m.edited e next).manifest.document = m.document.after (some r) := by
  rw [edited, Document.edit, Document.after, ← he]
  dsimp only
  split
  · exact hnext _ _
  · rfl

theorem document_appendMissing (package : Text) (field : ListField) (values : List Text)
    {refuse : Package → Option Error} {refused : Package → Bool}
    (hrefuse : ∀ p, (refuse p).isSome = refused p) (notice : Package → List Text → Notice) :
    (m.appendMissing package field values refuse notice).manifest.document =
      m.document.after (m.appendRequest? package field values refused) := by
  rw [appendMissing, appendRequest?]
  cases m.find? (VersionedName.ofText package) with
  | none => rfl
  | some p =>
    dsimp only
    rw [← hrefuse p]
    cases refuse p with
    | some e => rfl
    | none =>
      cases missingFrom (field.get p) values with
      | nil => rfl
      | cons v vs => exact document_edited (fun _ => rfl) fun _ _ => rfl

theorem document_appendPlatforms (package : Text) (field : ListField) (values : List Text)
    {refuse : Package → Option Error} {refused : Package → Bool}
    (hrefuse : ∀ p, (refuse p).isSome = refused p) (notice : Package → List Text → Notice) :
    (m.appendPlatforms package field values refuse notice).manifest.document =
      m.document.after (m.platformsRequest? package field values refused) := by
  rw [appendPlatforms, platformsRequest?]
  split
  · rfl
  · cases checkPlatforms values with
    | error e => rfl
    | ok u => exact document_appendMissing package field values hrefuse notice

theorem document_setPatch (package : Text) (mode : PatchMode) :
    (m.setPatch package mode).manifest.document =
      m.document.after (m.setPatchRequest? package mode) := by
  rw [setPatch, setPatchRequest?]
  cases m.find? (VersionedName.ofText package) with
  | none => rfl
  | some p =>
    refine document_edited (fun root => ?_) fun _ _ => rfl
    cases mode <;> rfl

/-- **An operation leaves the document that its request does**, laid out. -/
theorem document_run (m : Manifest) (op : Operation) :
    (m.run op).manifest.document = m.document.after (m.request? op) := by
  have hnone : ∀ p : Package, (none : Option Error).isSome = false := fun _ => rfl
  cases op with
  | add package =>
    rw [run, add, request?]
    split
    · rfl
    · exact document_edited (fun _ => rfl) fun _ _ => rfl
  | remove package =>
    rw [run, remove, request?]
    split
    · rfl
    · exact document_edited (fun _ => rfl) fun _ _ => rfl
  | addPlatforms package values =>
    refine document_appendPlatforms package _ values (fun p => ?_) _
    cases p.excludedPlatforms <;> rfl
  | excludePlatforms package values =>
    refine document_appendPlatforms package _ values (fun p => ?_) _
    cases p.platforms <;> rfl
  | setOutputs package values => exact document_appendMissing package _ values hnone _
  | setAllowInsecure package values => exact document_appendMissing package _ values hnone _
  | setPatch package mode => exact document_setPatch package mode
  | setPatchGlibc package on =>
    rw [run, setPatchGlibc, request?]
    generalize (if on = true then PatchMode.always else PatchMode.auto) = mode
    cases m.find? (VersionedName.ofText package) with
    | none => rfl
    | some p =>
      dsimp only
      split
      · rfl
      · exact document_setPatch package _
  | setDisablePlugin package on =>
    rw [run, setDisablePlugin, request?]
    cases m.find? (VersionedName.ofText package) with
    | none => rfl
    | some p =>
      dsimp only
      split
      · rfl
      · exact document_edited (fun _ => rfl) fun _ _ => rfl
  | setEnv env => exact document_edited (fun _ => rfl) fun _ _ => rfl
  | setString field value =>
    rw [run, setString, request?]
    cases stringError? value field with
    | some e => rfl
    | none => exact document_edited (fun _ => rfl) fun _ _ => by cases field <;> rfl

end Step

end Manifest

end EnvManifest
