import EnvManifest.Proofs.Edit.Request
import EnvManifest.Proofs.Edit.Slots

/-!
# Requests that are clear of comments

An edit glues slots without looking at what is in them, and this file says of each `Request`
when that is right: when it is `Clear`, the tree that it leaves of one that is laid out is
pliant (`Request.pliant_leave`), so that layout makes it legible again.

What is asked is that

* an object or array that a child is put at the end of is `Open`: no block comment goes on
  behind its last child. The values of a list of settings are put on the line of the last
  one, so that there a line comment is in the way as well (`OpenOnLine`);
* an object or array that a child is taken out of is `Sealed` afterwards: the comment that
  stood on the line of the child in front and is kept does not swallow what is behind it.

Each condition is about the composites that the edit changes and can be decided.
-/

namespace EnvManifest

open Composite

/-! ### Deciding about slots -/

instance (s : Text) : Decidable (Gap s) :=
  decidable_of_iff _ (gap_iff_scan s).symm

instance (s : Text) : Decidable (Whole s) :=
  inferInstanceAs (Decidable (Gap (s ++ ['\n'])))

instance (several : Bool) (trail closing : Text) : Decidable (Closes several trail closing) :=
  inferInstanceAs (Decidable (_ ∧ _ ∨ _))

instance (trail closing : Text) : Decidable (Swallows trail closing) :=
  inferInstanceAs (Decidable (¬_ ∧ _ ∧ _))

instance decidableTrailsLegible (several comma : Bool) (closing : Text) :
    (ts : List Text) → Decidable (trailsLegible several comma closing ts)
  | [] => inferInstanceAs (Decidable (Closes several [] closing))
  | [t] => inferInstanceAs
    (Decidable (if comma then Gap t ∧ Closes several [] closing ∨ Swallows t closing
      else Closes several t closing))
  | t :: u :: us =>
    have := decidableTrailsLegible several comma closing (u :: us)
    inferInstanceAs (Decidable (Gap t ∧ trailsLegible several comma closing (u :: us)))

section Composites

variable {κ : Type} [Label κ]

instance {ν : Type} (c : Child κ ν) : Decidable c.FrontLegible :=
  inferInstanceAs (Decidable (_ ∧ ∀ t ∈ Label.slots c.label, Gap t))

instance (c : Composite κ Node) : Decidable c.Open :=
  inferInstanceAs (Decidable (∀ last ∈ c.children.getLast?,
    Whole last.trail ∧ (c.trailingComma = false → Gap c.closing)))

instance (c : Composite κ Node) : Decidable c.OpenOnLine :=
  inferInstanceAs (Decidable (∀ last ∈ c.children.getLast?, Gap last.trail))

instance (c : Composite κ Node) : Decidable c.Emptied :=
  decidable_of_iff (c.children.isEmpty = true ∧ c.closing.breaksLine = true ∧
    hasComment c.closing = false) (and_congr_left' List.isEmpty_iff)

instance (c : Composite κ Node) : Decidable c.Sealed :=
  inferInstanceAs (Decidable (((∀ m ∈ c.children, m.FrontLegible) ∧ _) ∨ c.Emptied))

end Composites

namespace Request

/-! ### Clear requests -/

/-- Giving an entry another version is clear. -/
def VersionClear (version : Text) : Node → Prop
  | .object o =>
    match Object.spot? o "version".toList with
    | some _ => version.isEmpty = true → (Object.removeFirst o "version".toList).Sealed
    | none => version.isEmpty = false → o.Open
  | _ => True

/-- Adding a package is clear. -/
def AddClear (v : VersionedName) (root : Object) : Prop :=
  match Object.spot? root packagesKey with
  | none => root.Open
  | some s =>
    match s.here.node with
    | .object pkgs =>
      match Object.spot? pkgs v.name with
      | some entry => VersionClear v.version entry.here.node
      | none => pkgs.Open
    | .array es => es.Open
    | _ => True

/-- Removing a package is clear. -/
def RemoveClear (v : VersionedName) (root : Object) : Prop :=
  ∀ s ∈ Object.spot? root packagesKey,
    match s.here.node with
    | .object pkgs => (Object.removeFirst pkgs v.name).Sealed
    | .array es => ∀ i ∈ elementIndex? v es, (es.remove i).Sealed
    | _ => True

/-- Editing the settings of a package is clear, `clear` being about the settings that are in
the document. -/
def SettingsClear (name : Text) (clear : Object → Prop) (root : Object) : Prop :=
  match Object.spot? root packagesKey with
  | none => root.Open
  | some s => ∀ pkgs ∈ s.here.node.object?, ∀ entry ∈ Object.spot? pkgs name,
    ∀ settings ∈ entry.here.node.object?, clear settings

/-- Putting values at the end of a list of settings is clear. -/
def AppendClear (field : Text) (settings : Object) : Prop :=
  match Object.spot? settings field with
  | none => settings.Open
  | some s => ∀ es ∈ s.here.node.array?, es.OpenOnLine

/-- Setting the patch mode is clear. -/
def PatchClear (mode : PatchMode) (settings : Object) : Prop :=
  match Object.spot? settings patchKey, Object.spot? settings patchGlibcKey with
  | some s, _ =>
    (Object.removeFirst (Object.withSpot settings (s.setNode (Node.ofText mode.toText)))
      patchGlibcKey).Sealed
  | none, some _ => True
  | none, none => settings.Open

/-- Removing the patch mode is clear. -/
def UnpatchClear (name : Text) (root : Object) : Prop :=
  ∀ s ∈ Object.spot? root packagesKey, ∀ pkgs ∈ s.here.node.object?,
    ∀ entry ∈ Object.spot? pkgs name, ∀ settings ∈ entry.here.node.object?,
      (Object.removeFirst (Object.removeFirst settings patchKey) patchGlibcKey).Sealed

/-- Setting a member of an object is clear. -/
def PutClear (name : Text) (o : Object) : Prop :=
  Object.spot? o name = none → o.Open

/-- **A request is clear of comments**: nothing that it puts in or leaves standing ends up
in a comment. -/
def Clear : Request → Object → Prop
  | addPackage v, root => AddClear v root
  | removePackage v, root => RemoveClear v root
  | appendToList name field _, root => SettingsClear name (AppendClear field.key) root
  | setBool name field _, root => SettingsClear name (PutClear field) root
  | setPatchMode name mode, root => SettingsClear name (PatchClear mode) root
  | removePatchMode name, root => UnpatchClear name root
  | setEnv _, root => PutClear "env".toList root
  | setString key value, root =>
    if value.isEmpty then (Object.removeFirst root key).Sealed else PutClear key root

/-! ### Deciding whether a request is clear -/

instance (version : Text) (n : Node) : Decidable (VersionClear version n) := by
  unfold VersionClear
  split
  · split <;> infer_instance
  · infer_instance

instance (v : VersionedName) (root : Object) : Decidable (AddClear v root) := by
  unfold AddClear
  split
  · infer_instance
  · split
    · split <;> infer_instance
    · infer_instance
    · infer_instance

instance (v : VersionedName) (root : Object) : Decidable (RemoveClear v root) := by
  have (s : Spot) : Decidable (match s.here.node with
      | .object pkgs => (Object.removeFirst pkgs v.name).Sealed
      | .array es => ∀ i ∈ elementIndex? v es, (es.remove i).Sealed
      | _ => True) := by
    split <;> infer_instance
  unfold RemoveClear
  infer_instance

instance (name : Text) (clear : Object → Prop) [DecidablePred clear] (root : Object) :
    Decidable (SettingsClear name clear root) := by
  unfold SettingsClear
  split <;> infer_instance

instance (field : Text) : DecidablePred (AppendClear field) := by
  intro settings
  unfold AppendClear
  split <;> infer_instance

instance (mode : PatchMode) : DecidablePred (PatchClear mode) := by
  intro settings
  unfold PatchClear
  split <;> infer_instance

instance (name : Text) (root : Object) : Decidable (UnpatchClear name root) := by
  unfold UnpatchClear
  infer_instance

instance (name : Text) : DecidablePred (PutClear name) := by
  intro o
  unfold PutClear
  infer_instance

instance (r : Request) (root : Object) : Decidable (r.Clear root) := by
  cases r <;> simp only [Clear] <;> infer_instance

end Request

end EnvManifest
