import EnvManifest.Proofs.Edit.Leave

/-!
# Edits that fail

An edit works on the tree in place: it makes the member of the packages if it is missing,
turns an array into an object, and finds out only then that it cannot go on. What it leaves
of the root when it fails is the root all the same (`Edit.Atomic`), because nothing has been
changed on a branch that ends in an error. There are two such branches. Packages that are of
no shape an edit knows stay what they are (`withSpot_packagesSpot`). And an edit of the
settings of a package can fail only on settings that it found in the document, since those
that it makes itself have a version at most (`FailsOnOldOnly`).
-/

namespace EnvManifest

open Object

/-! ### Packages that cannot be edited -/

/-- An edit that fails leaves the object that it was given. -/
def Edit.Atomic {α : Type} (e : Edit α) : Prop :=
  ∀ (o : Object) (i : InternalError), (e o).1 = .error i → (e o).2 = o

/-- A member that keeps its node leaves the object as it was. -/
theorem Object.withSpot_setNode_self {o : Object} {name : Text} {s : Spot}
    (h : spot? o name = some s) : withSpot o (s.setNode s.here.node) = o := by
  have hmembers := members_of_spot? h
  cases o
  exact congrArg (Composite.mk · _ _ _) hmembers

/-- Packages that cannot be edited are the packages that were there. -/
theorem withSpot_packagesSpot {migrate : Bool} {root : Object} {n : Node}
    (hnode : (packagesSpot migrate root).2.here.node = n) (hobject : n.object? = none)
    (harray : n.array? = none) :
    withSpot (packagesSpot migrate root).1 (packagesSpot migrate root).2 = root := by
  -- packages that were missing have been made an object, which can be edited
  cases hs : spot? root packagesKey with
  | none =>
    simp only [packagesSpot, hs, Member.onOwnLine] at hnode
    rw [← hnode] at hobject
    simp [Node.object?] at hobject
  | some s =>
    have hkept : editablePackages migrate s.here.node = s.here.node := by
      simp only [packagesSpot, hs, Spot.setNode] at hnode
      rw [hnode]
      subst hnode
      revert hobject harray
      cases s.here.node with
      | null => simp [editablePackages, Node.object?]
      | object ms => simp [editablePackages]
      | array es => cases migrate <;> simp [editablePackages, Node.object?, Node.array?]
      | bool b | number t | string l => simp [editablePackages]
    simp only [packagesSpot, hs, hkept]
    exact withSpot_setNode_self hs

/-! ### Adding and removing -/

theorem atomic_addPackage (v : VersionedName) : (addPackage v).Atomic := by
  intro root i h
  rw [addPackage] at h ⊢
  dsimp only at h ⊢
  cases hn : (packagesSpot false root).2.here.node with
  | object pkgs =>
    rw [hn] at h
    dsimp only at h
    split at h
    · split at h <;> simp at h
    · simp at h
  | array es =>
    rw [hn] at h
    simp at h
  | null | bool b | number t | string l => exact withSpot_packagesSpot hn rfl rfl

theorem atomic_removePackage (v : VersionedName) : (removePackage v).Atomic := by
  intro root i h
  rw [removePackage] at h ⊢
  split
  · rfl
  · rename_i s hs
    rw [hs] at h
    dsimp only at h
    cases hn : s.here.node with
    | object pkgs =>
      rw [hn] at h
      simp at h
    | array es =>
      rw [hn] at h
      dsimp only at h
      split at h <;> simp at h
    | null => rfl
    | bool b | number t | string l => rfl

/-! ### Settings of a package -/

/-- Packages that are turned into an object have no settings but their versions. -/
theorem packagesSpot_cases {root : Object} {pkgs : Object}
    (hn : (packagesSpot true root).2.here.node = .object pkgs) :
    (∃ s, spot? root packagesKey = some s ∧ s.here.node = .object pkgs ∧
      packagesSpot true root = (root, s)) ∨ ∀ m ∈ pkgs.children, m.node.object? = none := by
  cases hs : spot? root packagesKey with
  | none =>
    simp only [packagesSpot, hs, Member.onOwnLine] at hn
    obtain rfl := Node.object.inj hn
    exact Or.inr (by simp [Composite.new])
  | some s =>
    simp only [packagesSpot, hs, Spot.setNode] at hn
    cases hhere : s.here.node with
    | object o =>
      rw [hhere] at hn
      obtain rfl : o = pkgs := Node.object.inj hn
      refine Or.inl ⟨s, rfl, hhere, ?_⟩
      simp only [packagesSpot, hs, hhere, editablePackages]
      rw [← hhere]
      rfl
    | array es =>
      rw [hhere] at hn
      obtain rfl : migrated es = pkgs := Node.object.inj hn
      refine Or.inr fun m hm => ?_
      obtain ⟨e, -, he⟩ := List.mem_filterMap.1 hm
      rw [migratedElement] at he
      split at he
      · simp at he
      · obtain rfl := Option.some.inj he
        rfl
    | null =>
      rw [hhere] at hn
      obtain rfl : Composite.new = pkgs := Node.object.inj hn
      exact Or.inr (by simp [Composite.new])
    | bool b | number t | string l => simp [hhere, editablePackages] at hn

/-- An edit of settings that can fail on settings of the document only: those that an edit
makes itself have a version at most. -/
structure FailsOnOldOnly (e : Edit Unit) : Prop where
  atomic : e.Atomic
  new : ∀ {o : Object}, (∀ name, name ≠ "version".toList → spot? o name = none) → (e o).1 = .ok ()

/-- A failing edit of settings found them in the document, and puts back what it found. -/
theorem atomic_editSettings (name : Text) {e : Edit Unit} (he : FailsOnOldOnly e) :
    (editSettings name e).Atomic := by
  intro root i h
  rw [editSettings] at h ⊢
  dsimp only at h ⊢
  cases hn : (packagesSpot true root).2.here.node with
  | object pkgs =>
    rw [hn] at h
    dsimp only at h ⊢
    cases hentry : spot? pkgs name with
    | none => simp [hentry] at h
    | some entry =>
      rw [hentry] at h
      dsimp only at h ⊢
      -- settings that the edit made itself are not what it fails on
      rcases settingsOf_cases entry.here.node with ⟨o, ho, hsettings⟩ | ⟨-, hnew⟩
      · rw [hsettings] at h ⊢
        rcases packagesSpot_cases hn with ⟨s, hs, hhere, hspot⟩ | hversions
        · rw [hspot, he.atomic o i h, ← ho, withSpot_setNode_self hentry, ← hhere]
          exact withSpot_setNode_self hs
        -- an array that has been turned into an object has no settings in it
        · have hversion := hversions _ (mem_of_spot? hentry)
          simp [ho, Node.object?] at hversion
      · rw [he.new hnew] at h
        simp at h
  | array es =>
    exfalso
    simp only [packagesSpot] at hn
    split at hn
    · simp only [Spot.setNode] at hn
      revert hn
      rename_i s hs
      cases s.here.node <;> simp [editablePackages]
    · simp [Member.onOwnLine] at hn
  | null | bool b | number t | string l => exact withSpot_packagesSpot hn rfl rfl

theorem failsOnOldOnly_appendToSettings (name : Text) (field : ListField) (values : List Text) :
    FailsOnOldOnly (appendToSettings name field.key values) := by
  refine ⟨fun o i h => ?_, fun {o} hnew => ?_⟩
  · rw [appendToSettings] at h ⊢
    split at h
    · simp at h
    · split at h
      · simp at h
      · rfl
  · rw [appendToSettings, hnew _ (by cases field <;> decide)]

theorem failsOnOldOnly_of_ok {e : Edit Unit} (h : ∀ o, (e o).1 = .ok ()) : FailsOnOldOnly e :=
  ⟨fun o i hfail => by simp [h o] at hfail, fun {o} _ => h o⟩

theorem answer_patchSettings (mode : PatchMode) (settings : Object) :
    (patchSettings mode settings).1 = .ok () := by
  rw [patchSettings]
  dsimp only
  split <;> rfl

theorem answer_removePatchMode (name : Text) (root : Object) :
    (removePatchMode name root).1 = .ok () := by
  rw [removePatchMode]
  split
  · rfl
  · split
    · split
      · rfl
      · split <;> rfl
    · rfl

theorem answer_setEnv (env : Table Text) (root : Object) : (setEnv env root).1 = .ok () := by
  rw [setEnv]
  split <;> rfl

theorem answer_setString (key value : Text) (root : Object) :
    (setString key value root).1 = .ok () := by
  rw [setString]
  split <;> rfl

theorem atomic_of_ok {e : Edit Unit} (h : ∀ o, (e o).1 = .ok ()) : e.Atomic := by
  intro o i hfail
  simp [h o] at hfail

theorem atomic_appendToList (name : Text) (field : ListField) (values : List Text) :
    (appendToList name field.key values).Atomic := by
  rw [appendToList]
  split
  · exact atomic_of_ok fun _ => rfl
  · exact atomic_editSettings name (failsOnOldOnly_appendToSettings name field values)

theorem atomic_setBool (name field : Text) (on : Bool) : (setBool name field on).Atomic :=
  atomic_editSettings name (failsOnOldOnly_of_ok fun _ => rfl)

theorem atomic_setPatchMode (name : Text) (mode : PatchMode) : (setPatchMode name mode).Atomic :=
  atomic_editSettings name (failsOnOldOnly_of_ok (answer_patchSettings mode))


/-! ### Requests -/

namespace Request

/-- A request as an edit; what it answers beside its success is left out. -/
def toEdit : Request → Edit Unit
  | addPackage v => fun root =>
    let r := EnvManifest.addPackage v root
    (r.1.map fun _ => (), r.2)
  | removePackage v => EnvManifest.removePackage v
  | appendToList name field values => EnvManifest.appendToList name field.key values
  | setBool name field on => EnvManifest.setBool name field on
  | setPatchMode name mode => EnvManifest.setPatchMode name mode
  | removePatchMode name => EnvManifest.removePatchMode name
  | setEnv env => EnvManifest.setEnv env
  | setString key value => EnvManifest.setString key value

/-- **A request that fails leaves the root that it was given.** -/
theorem atomic_toEdit (r : Request) : r.toEdit.Atomic := by
  cases r with
  | addPackage v =>
    intro root i h
    refine atomic_addPackage v root i ?_
    simp only [toEdit] at h
    cases hanswer : (EnvManifest.addPackage v root).1 with
    | ok added => simp [hanswer, Except.map] at h
    | error e => simpa [hanswer, Except.map] using h
  | removePackage v => exact atomic_removePackage v
  | appendToList name field values => exact atomic_appendToList name field values
  | setBool name field on => exact atomic_setBool name field on
  | setPatchMode name mode => exact atomic_setPatchMode name mode
  | removePatchMode name => exact atomic_of_ok (answer_removePatchMode name)
  | setEnv env => exact atomic_of_ok (answer_setEnv env)
  | setString key value => exact atomic_of_ok (answer_setString key value)

end Request

end EnvManifest
