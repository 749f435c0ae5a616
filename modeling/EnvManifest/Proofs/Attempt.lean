import EnvManifest.Manifest.Operation

/-!
# What can come of an operation

An operation fails before it has done anything, or finds that there is nothing to do, or edits
the document once and, if the edit succeeds, the settings. `Manifest.Attempt` lists these
outcomes with what is known when each of them comes about, and `Manifest.attempt_run` says that
there are no others. What holds of every operation is proved of these outcomes.
-/

namespace EnvManifest

/-- Whether a package may be given members of a list, with those that it has in the others: the
two lists of platforms exclude each other. -/
def ListField.Admitted (p : Package) : ListField → Prop
  | platforms => p.excludedPlatforms = []
  | excludedPlatforms => p.platforms = []
  | outputs | allowInsecure => True

namespace Manifest

/-! ### Errors that are not internal -/

theorem parseRequirement_ne_internal (s : Text) (i : InternalError) :
    parseRequirement s ≠ .error (.internal i) := by
  rw [parseRequirement]
  split
  · simp
  · split <;> simp

theorem stringError?_ne_internal (value : Text) (field : StringField) (i : InternalError) :
    stringError? value field ≠ some (.internal i) := by
  cases field with
  | requirement =>
    rw [stringError?]
    split
    · simp
    · rename_i e he
      exact fun hi => parseRequirement_ne_internal value i (Option.some.inj hi ▸ he)
  | name | description | envFrom => simp [stringError?]

theorem checkPlatforms_ne_internal (values : List Text) (i : InternalError) :
    checkPlatforms values ≠ .error (.internal i) := by
  rw [checkPlatforms]
  split <;> simp

/-! ### Outcomes -/

variable {m : Manifest}

/-- What can come of an operation. -/
inductive Attempt (m : Manifest) : Outcome → Prop
  | failed {e : Error} : (∀ i, e ≠ .internal i) → Attempt m (m.failed e)
  | unchanged : Attempt m m.unchanged
  | add (package : Text) : Attempt m
    (m.edited (addPackage (.ofText package)) fun isNew m =>
      ⟨.ok (), none, { m with packages := addedTo (.ofText package) isNew m.packages }⟩)
  | remove (package : Text) : Attempt m
    (m.edited (removePackage (.ofText package)) fun _ m =>
      ⟨.ok (), none, { m with packages := m.packages.eraseP (isNamed (.ofText package)) }⟩)
  | append {v : VersionedName} {p : Package} {field : ListField} {added : List Text}
    (n : Notice) : m.find? v = some p → added ≠ [] → field.Admitted p → Attempt m
    (m.edited (appendToList p.name field.key added) fun _ m =>
      ⟨.ok (), some n, m.changePackage v (field.append added)⟩)
  | setPatch {v : VersionedName} {p : Package} (mode : PatchMode) : m.find? v = some p → Attempt m
    (m.edited (patchEdit p.name mode) fun _ m =>
      ⟨.ok (), none, m.changePackage v fun p => { p with patchGlibc := false, patch := mode }⟩)
  | setDisablePlugin {v : VersionedName} {p : Package} (on : Bool) : m.find? v = some p → Attempt m
    (m.edited (setBool p.name "disable_plugin".toList on) fun _ m =>
      ⟨.ok (), none, m.changePackage v fun p => { p with disablePlugin := on }⟩)
  | setEnv (env : Table Text) : Attempt m
    (m.edited (EnvManifest.setEnv env) fun _ m => ⟨.ok (), none, { m with env := env }⟩)
  | setString (field : StringField) (value : Text) : Attempt m
    (m.edited (EnvManifest.setString field.key value) fun _ m =>
      ⟨.ok (), none, m.putString value field⟩)

theorem attempt_appendMissing (package : Text) (field : ListField) (values : List Text)
    {refuse : Package → Option Error} (herror : ∀ p i, refuse p ≠ some (.internal i))
    (hadmitted : ∀ p, refuse p = none → field.Admitted p) (notice : Package → List Text → Notice) :
    Attempt m (m.appendMissing package field values refuse notice) := by
  rw [appendMissing]
  split
  · exact .failed (by simp)
  · rename_i p hp
    split
    · rename_i e he
      exact .failed fun i hi => herror p i (hi ▸ he)
    · rename_i hnone
      split
      · exact .unchanged
      · rename_i added hadded
        exact .append _ hp hadded (hadmitted p hnone)

theorem attempt_appendPlatforms (package : Text) (field : ListField) (values : List Text)
    {refuse : Package → Option Error} (herror : ∀ p i, refuse p ≠ some (.internal i))
    (hadmitted : ∀ p, refuse p = none → field.Admitted p) (notice : Package → List Text → Notice) :
    Attempt m (m.appendPlatforms package field values refuse notice) := by
  rw [appendPlatforms]
  split
  · exact .unchanged
  · split
    · rename_i e he
      exact .failed fun i hi => checkPlatforms_ne_internal values i (hi ▸ he)
    · exact attempt_appendMissing package field values herror hadmitted notice

theorem attempt_setPatch (package : Text) (mode : PatchMode) :
    Attempt m (m.setPatch package mode) := by
  rw [Manifest.setPatch]
  split
  · exact .failed (by simp)
  · rename_i p hp
    exact .setPatch mode hp

/-- **An operation has one of these outcomes.** -/
theorem attempt_run (m : Manifest) (op : Operation) : Attempt m (m.run op) := by
  cases op with
  | add package =>
    rw [run, Manifest.add]
    split
    · exact .unchanged
    · exact .add package
  | remove package =>
    rw [run, Manifest.remove]
    split
    · exact .unchanged
    · exact .remove package
  | addPlatforms package values =>
    refine attempt_appendPlatforms package _ values (fun p i => by split <;> simp) ?_ _
    intro p hnone
    simpa [ListField.Admitted] using hnone
  | excludePlatforms package values =>
    refine attempt_appendPlatforms package _ values (fun p i => by split <;> simp) ?_ _
    intro p hnone
    simpa [ListField.Admitted] using hnone
  | setOutputs package values =>
    rw [run, setOutputs]
    exact attempt_appendMissing package .outputs values (by simp) (fun p _ => trivial) _
  | setAllowInsecure package values =>
    rw [run, setAllowInsecure]
    exact attempt_appendMissing package .allowInsecure values (by simp) (fun p _ => trivial) _
  | setPatch package mode => exact attempt_setPatch package mode
  | setPatchGlibc package on =>
    simp only [run, setPatchGlibc]
    generalize (if on = true then PatchMode.always else PatchMode.auto) = mode
    split
    · exact .failed (by simp)
    · split
      · exact .unchanged
      · exact attempt_setPatch package mode
  | setDisablePlugin package on =>
    rw [run, Manifest.setDisablePlugin]
    split
    · exact .failed (by simp)
    · rename_i p hp
      split
      · exact .unchanged
      · exact .setDisablePlugin on hp
  | setEnv env => exact .setEnv env
  | setString field value =>
    rw [run, Manifest.setString]
    split
    · rename_i e he
      exact .failed fun i hi => stringError?_ne_internal value field i (hi ▸ he)
    · exact .setString field value

end Manifest

end EnvManifest
