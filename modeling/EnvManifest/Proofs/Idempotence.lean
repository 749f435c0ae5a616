import EnvManifest.Proofs.Commuting
import EnvManifest.Proofs.Edit.Again

/-!
# Doing the same again changes nothing

Every operation but the removal of a package is idempotent (`Manifest.repeats_runAll`): if it is
done once more right away, it ends as it did the first time and leaves the manifest that is there,
with its document down to the last slot. There are three reasons for that.

* An operation that fails, or finds nothing to do, has not changed anything, so it ends like
  that again.
* A package that was added is listed, a list that was given members lacks none of them, a plugin
  that was turned off is off: the second operation finds nothing to do.
* A patch mode, the environment and the fields of the manifest are written again, and are written
  as they are (`Document.after_setPatchMode_setPatchMode`, `Document.after_setEnv_setEnv`,
  `Document.after_setString_setString`).

Removing a package is not among them, since the array may list a package more than once.
-/

namespace EnvManifest

open Manifest Object

/-! ### What is missing from a list -/

theorem mem_or_mem_missingFrom {present wanted : List Text} {w : Text} (h : w ∈ wanted) :
    w ∈ present ∨ w ∈ missingFrom present wanted := by
  induction wanted generalizing present with
  | nil => simp at h
  | cons x rest ih =>
    rw [missingFrom]
    split
    · rename_i hx
      rcases List.mem_cons.1 h with rfl | h
      · exact Or.inl hx
      · exact ih h
    · rcases List.mem_cons.1 h with rfl | h
      · exact Or.inr List.mem_cons_self
      · have hmem : w ∈ x :: present ∨ w ∈ missingFrom (x :: present) rest := ih h
        rcases hmem with hmem | hmem
        · rcases List.mem_cons.1 hmem with rfl | hmem
          · exact Or.inr List.mem_cons_self
          · exact Or.inl hmem
        · exact Or.inr (List.mem_cons_of_mem x hmem)

theorem missingFrom_eq_nil {present wanted : List Text} (h : ∀ w ∈ wanted, w ∈ present) :
    missingFrom present wanted = [] := by
  induction wanted with
  | nil => rfl
  | cons w rest ih =>
    obtain ⟨hw, hrest⟩ := List.forall_mem_cons.1 h
    rw [missingFrom, if_pos hw, ih hrest]

/-- What was missing from a list is not when it has been put at its end. -/
theorem missingFrom_append_missingFrom (present wanted : List Text) :
    missingFrom (present ++ missingFrom present wanted) wanted = [] :=
  missingFrom_eq_nil fun _ hw => List.mem_append.2 (mem_or_mem_missingFrom hw)

theorem ListField.get_append (field : ListField) (values : List Text) (p : Package) :
    field.get (field.append values p) = field.get p ++ values := by
  cases field <;> rfl

namespace Manifest

variable {m : Manifest} {v : VersionedName} {p : Package} {f : Package → Package}

/-! ### Packages that were changed -/

theorem find?_changeFirst {q : Package → Bool} {ps : List Package} (hp : ps.find? q = some p)
    (hf : q (f p) = true) : (changeFirst q f ps).find? q = some (f p) := by
  induction ps with
  | nil => simp at hp
  | cons x xs ih =>
    rw [changeFirst]
    by_cases hx : q x = true
    · rw [List.find?_cons_of_pos hx] at hp
      obtain rfl := Option.some.inj hp
      rw [if_pos hx, List.find?_cons_of_pos hf]
    · rw [List.find?_cons_of_neg hx] at hp
      rw [if_neg hx, List.find?_cons_of_neg hx, ih hp]

theorem find?_changePackage (hp : m.find? v = some p) (hf : isNamed v (f p) = true) :
    (m.changePackage v f).find? v = some (f p) :=
  find?_changeFirst hp hf

/-- A change that is made already is not made again. -/
theorem changePackage_changePackage (hp : m.find? v = some p) (hf : isNamed v (f p) = true)
    (hagain : f (f p) = f p) : (m.changePackage v f).changePackage v f = m.changePackage v f := by
  have hpackages : changeFirst (isNamed v) f (changeFirst (isNamed v) f m.packages) =
      changeFirst (isNamed v) f m.packages := by
    rw [← alterFirst_eq_changeFirst]
    refine alterFirst_eq_self_iff.2 fun q hq => ?_
    have hq' : some (f p) = some q := (find?_changePackage hp hf).symm.trans hq
    obtain rfl := Option.some.inj hq'
    rw [hagain]
  exact congrArg (fun ps => { m with packages := ps }) hpackages

theorem isNamed_append (field : ListField) (values : List Text) :
    isNamed v (field.append values p) = isNamed v p := by
  cases field <;> rfl

/-- A package that was added is listed. -/
theorem isSome_find?_addedTo (v : VersionedName) (isNew : Bool) (ps : List Package) :
    ((addedTo v isNew ps).find? (isNamed v)).isSome = true := by
  have hnamed : isNamed v (Package.ofVersion v) = true := by simp [isNamed, Package.ofVersion]
  rw [List.find?_isSome, addedTo]
  split
  · exact ⟨Package.ofVersion v, by simp, hnamed⟩
  · rename_i hlisted
    -- the first package of the name has been given the version
    obtain ⟨p, hp, hname⟩ : ∃ p ∈ ps, (p.name == v.name) = true := by
      rw [Bool.not_eq_true, Bool.or_eq_false_iff, Bool.not_eq_false'] at hlisted
      exact List.any_eq_true.1 hlisted.2
    clear hlisted hnamed
    induction ps with
    | nil => simp at hp
    | cons x xs ih =>
      rw [changeFirst]
      split
      · rename_i hx
        exact ⟨_, List.mem_cons_self, by simpa [isNamed] using hx⟩
      · rename_i hx
        rcases List.mem_cons.1 hp with rfl | hp
        · exact absurd hname hx
        · obtain ⟨q, hq, hqnamed⟩ := ih hp
          exact ⟨q, List.mem_cons_of_mem x hq, hqnamed⟩

/-! ### Operations -/

/-- What is done to a manifest ends as it did and leaves the manifest that is there if it is done
again. -/
structure Repeats (f : Manifest → Outcome) (m : Manifest) : Prop where
  result : (f (f m).manifest).result = (f m).result
  manifest : (f (f m).manifest).manifest = (f m).manifest

section Repeats

variable {S : Settings} {f : Manifest → Outcome}

/-- What leaves the manifest as it was ends in the same way again. -/
theorem repeats_of_eq (h : (f m).manifest = m) : Repeats f m :=
  ⟨by rw [h], by rw [h, h]⟩

/-- What finds nothing to do any more repeats if it has succeeded. -/
theorem repeats_of_unchanged (hresult : (f m).result = .ok ())
    (h : f (f m).manifest = (f m).manifest.unchanged) : Repeats f m :=
  ⟨by rw [h, hresult]; rfl, by rw [h]; rfl⟩

/-- An edit of the document that does not fail, as a request. -/
theorem exists_edited_eq {α : Type} {e : Edit α} {next : α → Manifest → Outcome} {r : Request}
    (he : ∀ root, (e root).2 = r.leave root) (h : ¬(m.edited e next).FailsInternally) :
    ∃ a, m.edited e next = next a { m with document := m.document.after (some r) } := by
  obtain ⟨a, ha⟩ := exists_answer_of_edited h
  refine ⟨a, ?_⟩
  rw [edited_eq ha, Document.after, he]

/-- The second edit of a document that is left as it was by the request. -/
theorem exists_edited_eq_self {α : Type} {e : Edit α} {next : α → Manifest → Outcome} {r : Request}
    (he : ∀ root, (e root).2 = r.leave root) (h : ¬(m.edited e next).FailsInternally)
    (hafter : m.document.after (some r) = m.document) : ∃ a, m.edited e next = next a m := by
  obtain ⟨a, ha⟩ := exists_edited_eq he h
  rw [hafter] at ha
  exact ⟨a, ha⟩

end Repeats

section Operations

variable {S : Settings}

theorem not_failsInternally_run (h : m.document.Says S) (op : Operation) :
    ¬(m.run op).FailsInternally :=
  (attempt_run m op).not_failsInternally h

theorem repeats_add (h : m.document.Says S) (package : Text) : Repeats (·.add package) m := by
  by_cases hp : (m.find? (.ofText package)).isSome = true
  · refine repeats_of_eq ?_
    rw [add, if_pos hp]
    rfl
  · have hnot := not_failsInternally_run h (.add package)
    rw [run, add, if_neg hp] at hnot
    obtain ⟨isNew, hedited⟩ :=
      exists_edited_eq (r := .addPackage (.ofText package)) (fun _ => rfl) hnot
    have hadd : m.add package = _ := (if_neg hp).trans hedited
    refine repeats_of_unchanged (by rw [hadd]) ?_
    rw [hadd, add]
    exact if_pos (isSome_find?_addedTo (.ofText package) isNew m.packages)

theorem repeats_appendMissing (package : Text) (field : ListField) (values : List Text)
    {refuse : Package → Option Error}
    (hrefuse : ∀ values p, refuse (field.append values p) = refuse p)
    (notice : Package → List Text → Notice)
    (hnot : ¬(m.appendMissing package field values refuse notice).FailsInternally) :
    Repeats (·.appendMissing package field values refuse notice) m := by
  cases hp : m.find? (.ofText package) with
  | none => exact repeats_of_eq (by simp only [appendMissing, hp]; rfl)
  | some p =>
    cases hrefused : refuse p with
    | some e => exact repeats_of_eq (by simp only [appendMissing, hp, hrefused]; rfl)
    | none =>
      cases hmissing : missingFrom (field.get p) values with
      | nil => exact repeats_of_eq (by simp only [appendMissing, hp, hrefused, hmissing]; rfl)
      | cons w ws =>
        simp only [appendMissing, hp, hrefused, hmissing] at hnot
        obtain ⟨a, hedited⟩ :=
          exists_edited_eq (r := .appendToList p.name field (w :: ws)) (fun _ => rfl) hnot
        -- the package that is found afterwards has all that was asked for
        have hnamed : isNamed (.ofText package) p = true := List.find?_some hp
        have hfind := find?_changePackage (f := field.append (w :: ws))
          (m := { m with document := m.document.after (some (.appendToList p.name field (w :: ws))) })
          hp (by rw [isNamed_append, hnamed])
        have hnone : missingFrom (field.get (field.append (w :: ws) p)) values = [] := by
          rw [ListField.get_append, ← hmissing, missingFrom_append_missingFrom]
        refine repeats_of_unchanged ?_ ?_
        · simp only [appendMissing, hp, hrefused, hmissing, hedited]
        · simp only [appendMissing, hp, hrefused, hmissing, hedited, hfind, hrefuse, hnone]

theorem repeats_appendPlatforms (package : Text) (field : ListField) (values : List Text)
    {refuse : Package → Option Error}
    (hrefuse : ∀ values p, refuse (field.append values p) = refuse p)
    (notice : Package → List Text → Notice)
    (hnot : ¬(m.appendPlatforms package field values refuse notice).FailsInternally) :
    Repeats (·.appendPlatforms package field values refuse notice) m := by
  by_cases hvalues : values.isEmpty = true
  · refine repeats_of_eq ?_
    rw [appendPlatforms, if_pos hvalues]
    rfl
  · cases hcheck : checkPlatforms values with
    | error e =>
      refine repeats_of_eq ?_
      rw [appendPlatforms, if_neg hvalues, hcheck]
      rfl
    | ok u =>
      have heq : ∀ m : Manifest, m.appendPlatforms package field values refuse notice =
          m.appendMissing package field values refuse notice := by
        intro m
        rw [appendPlatforms, if_neg hvalues, hcheck]
      rw [heq] at hnot
      have hrepeats := repeats_appendMissing package field values hrefuse notice hnot
      exact ⟨by simpa only [heq] using hrepeats.result, by simpa only [heq] using hrepeats.manifest⟩

/-- A package with a patch mode. -/
def patched (mode : PatchMode) (p : Package) : Package :=
  { p with patchGlibc := false, patch := mode }

theorem setPatch_of_find? {package : Text} (hp : m.find? (.ofText package) = some p)
    (mode : PatchMode) : m.setPatch package mode = m.edited (patchEdit p.name mode) fun _ m =>
      ⟨.ok (), none, m.changePackage (.ofText package) (patched mode)⟩ := by
  rw [setPatch, hp]
  rfl

/-- A patch mode that is written again is written as it is. -/
theorem after_patchRequest_patchRequest {d : Document} (hrest : d.AtRest) (h : d.Says S)
    (name : Text) (mode : PatchMode) :
    (d.after (some (patchRequest name mode))).after (some (patchRequest name mode)) =
      d.after (some (patchRequest name mode)) := by
  cases mode with
  | auto => exact Document.after_removePatchMode_removePatchMode hrest.clean h name
  | always => exact Document.after_setPatchMode_setPatchMode h name .always
  | never => exact Document.after_setPatchMode_setPatchMode h name .never

theorem repeats_setPatch (h : m.document.Says S) (hrest : m.document.AtRest) (package : Text)
    (mode : PatchMode) : Repeats (·.setPatch package mode) m := by
  cases hp : m.find? (.ofText package) with
  | none => exact repeats_of_eq (by simp only [setPatch, hp]; rfl)
  | some p =>
    have hrequest : ∀ root,
        (patchEdit p.name mode root).2 = (patchRequest p.name mode).leave root := by
      intro root
      cases mode <;> rfl
    have hnot := not_failsInternally_run h (.setPatch package mode)
    rw [run, setPatch_of_find? hp] at hnot
    obtain ⟨a, hedited⟩ := exists_edited_eq hrequest hnot
    have hfirst := (setPatch_of_find? hp mode).trans hedited
    -- the second run finds the package patched and asks for the same again
    obtain ⟨S₁, hsays₁⟩ := exists_says_run h (.setPatch package mode)
    have hnot₁ := not_failsInternally_run hsays₁ (.setPatch package mode)
    have hnamed : isNamed (.ofText package) p = true := List.find?_some hp
    have hfind := find?_changePackage (f := patched mode)
      (m := { m with document := m.document.after (some (patchRequest p.name mode)) }) hp hnamed
    rw [run, run, hfirst, setPatch_of_find? hfind] at hnot₁
    obtain ⟨a₁, hedited₁⟩ := exists_edited_eq_self hrequest hnot₁
      (after_patchRequest_patchRequest hrest h p.name mode)
    have hsecond := (setPatch_of_find? hfind mode).trans hedited₁
    refine ⟨?_, ?_⟩
    · rw [hfirst, hsecond]
    · rw [hfirst, hsecond]
      exact changePackage_changePackage
        (m := { m with document := m.document.after (some (patchRequest p.name mode)) })
        hp hnamed rfl

/-- The older way to set a patch mode finds the mode that it has set. -/
theorem repeats_setPatchGlibc (h : m.document.Says S) (package : Text) (on : Bool) :
    Repeats (·.setPatchGlibc package on) m := by
  obtain ⟨mode, hmode⟩ : ∃ mode : PatchMode, mode = if on = true then .always else .auto := ⟨_, rfl⟩
  cases hp : m.find? (.ofText package) with
  | none => exact repeats_of_eq (by simp only [setPatchGlibc, hp]; rfl)
  | some p =>
    by_cases hset : p.patch = mode ∧ (!p.patchGlibc) = true
    · refine repeats_of_eq ?_
      simp only [setPatchGlibc, hp, ← hmode, if_pos hset]
      rfl
    · have hfirst : m.setPatchGlibc package on = m.setPatch package mode := by
        simp only [setPatchGlibc, hp, ← hmode, if_neg hset]
      have hnot := not_failsInternally_run h (.setPatch package mode)
      rw [run, setPatch_of_find? hp] at hnot
      obtain ⟨a, hedited⟩ := exists_edited_eq (r := patchRequest p.name mode)
        (fun root => by cases mode <;> rfl) hnot
      have hnamed : isNamed (.ofText package) p = true := List.find?_some hp
      have hfind := find?_changePackage (f := patched mode)
        (m := { m with document := m.document.after (some (patchRequest p.name mode)) }) hp hnamed
      have hleft := hfirst.trans ((setPatch_of_find? hp mode).trans hedited)
      refine repeats_of_unchanged (by rw [hleft]) ?_
      rw [hleft]
      simp only [setPatchGlibc, hfind, ← hmode]
      exact if_pos ⟨rfl, rfl⟩

theorem repeats_setDisablePlugin (h : m.document.Says S) (package : Text) (on : Bool) :
    Repeats (·.setDisablePlugin package on) m := by
  cases hp : m.find? (.ofText package) with
  | none => exact repeats_of_eq (by simp only [setDisablePlugin, hp]; rfl)
  | some p =>
    by_cases hset : p.disablePlugin = on
    · refine repeats_of_eq ?_
      simp only [setDisablePlugin, hp, if_pos hset]
      rfl
    · have hnot := not_failsInternally_run h (.setDisablePlugin package on)
      simp only [run, setDisablePlugin, hp, if_neg hset] at hnot
      obtain ⟨a, hedited⟩ :=
        exists_edited_eq (r := .setBool p.name "disable_plugin".toList on) (fun _ => rfl) hnot
      have hnamed : isNamed (.ofText package) p = true := List.find?_some hp
      have hfind := find?_changePackage (f := fun p => { p with disablePlugin := on })
        (m := { m with
          document := m.document.after (some (.setBool p.name "disable_plugin".toList on)) })
        hp hnamed
      refine repeats_of_unchanged ?_ ?_
      · simp only [setDisablePlugin, hp, if_neg hset, hedited]
      · simp only [setDisablePlugin, hp, if_neg hset, hedited, hfind, if_true]

theorem repeats_setEnv (hrest : m.document.AtRest) (env : Table Text) :
    Repeats (·.setEnv env) m := by
  have hanswer : ∀ root, (EnvManifest.setEnv env root).1 = .ok () := by
    intro root
    rw [EnvManifest.setEnv]
    split <;> rfl
  have heq : ∀ m : Manifest, m.setEnv env =
      ⟨.ok (), none, { m with env := env, document := m.document.after (some (.setEnv env)) }⟩ :=
    fun m => edited_eq (hanswer m.document.root) _
  refine ⟨by simp only [heq], ?_⟩
  simp only [heq, Document.after_setEnv_setEnv hrest]

theorem repeats_setString (h : m.document.Says S) (field : StringField) (value : Text) :
    Repeats (·.setString field value) m := by
  cases herror : stringError? value field with
  | some e => exact repeats_of_eq (by simp only [setString, herror]; rfl)
  | none =>
    have hanswer : ∀ root, (EnvManifest.setString field.key value root).1 = .ok () := by
      intro root
      rw [EnvManifest.setString]
      split <;> rfl
    have heq : ∀ m : Manifest, m.setString field value = ⟨.ok (), none,
        { m with document := m.document.after (some (.setString field.key value)) }.putString
          value field⟩ := by
      intro m
      rw [setString, herror]
      exact edited_eq (hanswer m.document.root) _
    have hagain := Document.after_setString_setString value
      ((Settings.hasField_string field).count_le h.namesOnce.top)
    refine ⟨by simp only [heq], ?_⟩
    simp only [heq]
    cases field <;> simp only [putString] <;> rw [hagain]

/-- **Every operation but a removal repeats** on a manifest whose document is read as settings and
has no mark. -/
theorem repeats_run (h : m.document.Says S) (hrest : m.document.AtRest) {op : Operation}
    (hop : ∀ package, op ≠ .remove package) : Repeats (·.run op) m := by
  have hnot := not_failsInternally_run h op
  cases op with
  | add package => exact repeats_add h package
  | remove package => exact absurd rfl (hop package)
  | addPlatforms package values =>
    exact repeats_appendPlatforms package _ values (fun _ _ => rfl) _ hnot
  | excludePlatforms package values =>
    exact repeats_appendPlatforms package _ values (fun _ _ => rfl) _ hnot
  | setOutputs package values =>
    exact repeats_appendMissing package _ values (fun _ _ => rfl) _ hnot
  | setAllowInsecure package values =>
    exact repeats_appendMissing package _ values (fun _ _ => rfl) _ hnot
  | setPatch package mode => exact repeats_setPatch h hrest package mode
  | setPatchGlibc package on => exact repeats_setPatchGlibc h package on
  | setDisablePlugin package on => exact repeats_setDisablePlugin h package on
  | setEnv env => exact repeats_setEnv hrest env
  | setString field value => exact repeats_setString h field value

end Operations

/-- **Operations repeat**, unless they remove a package, after any operations on what was
loaded. -/
theorem repeats_runAll {b : Octets} (h : loadOctets b = .ok m) (ops : List Operation)
    {op : Operation} (hop : ∀ package, op ≠ .remove package) :
    Repeats (·.run op) (m.runAll ops) := by
  obtain ⟨s, -, hload⟩ := loadOctets_eq_ok.1 h
  obtain ⟨S, hsaid⟩ := exists_says_runAll (load_eq_ok.1 hload).2.1 ops
  exact repeats_run hsaid (atRest_runAll (atRest_of_loadOctets h) ops) hop

/-- The environment is replaced in a document that has it on several lines, after a package has
been given a patch mode. -/
theorem repeats_runAll_setEnv :
    ∃ m, loadOctets (Text.utf8
        "\x7b\"packages\": [\"go@1\"], \"env\": \x7b\n\"A\": \"1\" // x\n\x7d\x7d".toList) = .ok m ∧
      ∃ ops op, ops = [Operation.setPatch "go@1".toList .always] ∧
        op = Operation.setEnv (.ofList [("B".toList, "2".toList)]) ∧
        Repeats (·.run op) (m.runAll ops) := by
  obtain ⟨m, hm⟩ : ∃ m, loadOctets (Text.utf8
      "\x7b\"packages\": [\"go@1\"], \"env\": \x7b\n\"A\": \"1\" // x\n\x7d\x7d".toList) = .ok m := by
    decide +kernel
  exact ⟨m, hm, _, _, rfl, rfl, repeats_runAll hm _ fun _ hop => Operation.noConfusion hop⟩

end Manifest

end EnvManifest
