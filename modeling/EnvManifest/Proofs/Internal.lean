import EnvManifest.Proofs.Attempt
import EnvManifest.Proofs.Edit.Atomic
import EnvManifest.Proofs.Lockstep

/-!
# Internal errors do not occur

An edit of a document fails on packages of no known shape and on a list that is none, and
such a failure is an internal error: something that no document which was loaded can lead
to. That it cannot is said here for all operations, on whatever manifest others have left
(`Manifest.Attempt.not_failsInternally`).

The reason is what a document says. As long as settings are decoded from it, its packages are
an object or an array and the lists of a package are lists, so that no edit gets stuck; and
after the edit settings are decoded from it again. A document from which settings are decoded
is free of repeated names too, at the top and in the settings of a package
(`Document.Says.namesOnce`).
-/

namespace EnvManifest

open Manifest Object

/-! ### Names come once -/

namespace Datum

variable {σ : Type} {fields : List (Field σ)} {ms : List (Text × Datum)} {s t : σ}

/-- No field of a record is named more than once. -/
def NamesOnce (fields : List (Field σ)) (ms : List (Text × Datum)) : Prop :=
  ∀ f ∈ fields, (ms.map Prod.fst).count f.name ≤ 1

/-- A name that was met before does not come again, and any other one comes once at most. -/
theorem count_name_le {seen : List Text} {f : Field σ} (hf : f ∈ fields)
    (h : decodeMembers fields seen ms s = .ok t) :
    (ms.map Prod.fst).count f.name ≤ if f.name ∈ seen then 0 else 1 := by
  induction ms generalizing seen s with
  | nil => simp
  | cons m ms ih =>
    obtain ⟨k, d⟩ := m
    rw [decodeMembers_cons] at h
    rw [List.map_cons]
    by_cases hk : k = f.name
    · -- the name is known, so it is among the names seen by the rest
      subst hk
      obtain ⟨g, hg⟩ : ∃ g, fields.find? (fun g => g.name == f.name) = some g :=
        Option.isSome_iff_exists.1 (List.find?_isSome.2 ⟨f, hf, beq_self_eq_true _⟩)
      rw [hg] at h
      dsimp only at h
      split at h
      · simp at h
      · rename_i hseen
        obtain ⟨s', -, hrest⟩ := bind_eq_ok.1 h
        have hcount := ih hrest
        rw [if_pos List.mem_cons_self] at hcount
        rw [List.count_cons_self, if_neg hseen]
        omega
    · rw [List.count_cons_of_ne hk]
      split at h
      · exact ih h
      · split at h
        · simp at h
        · obtain ⟨s', -, hrest⟩ := bind_eq_ok.1 h
          have hcount := ih hrest
          simpa only [List.mem_cons, Ne.symm hk, false_or] using hcount

/-- **Members that are decoded name a field once.** -/
theorem namesOnce_of_decodeMembers (h : decodeMembers fields [] ms s = .ok t) :
    NamesOnce fields ms :=
  fun f hf => by simpa using count_name_le hf h

end Datum

namespace Document

/-- No known name is repeated in a document, neither at the top nor in the settings of a
package. -/
structure NamesOnce (d : Document) : Prop where
  top : Datum.NamesOnce Settings.fields d.members
  settings : ∀ pkgs, (packagesKey, .object pkgs) ∈ d.members →
    ∀ name settings, (name, .object settings) ∈ pkgs →
      Datum.NamesOnce EntryFields.fields settings

/-- **A document that is read as settings has no known name twice.** -/
theorem Says.namesOnce {d : Document} {S : Settings} (h : d.Says S) : d.NamesOnce where
  top := Datum.namesOnce_of_decodeMembers (says_iff.1 h).1
  settings pkgs hpkgs name settings hentry := by
    obtain ⟨p, -, hp⟩ := h.decode_of_mem hpkgs hentry
    obtain ⟨t, ht, -⟩ := bind_eq_ok.1 hp
    exact Datum.namesOnce_of_decodeMembers ht

end Document

/-! ### Operations -/

/-- An operation has failed in a way that nobody but its author can mend. -/
def Outcome.FailsInternally (o : Outcome) : Prop :=
  ∃ i : InternalError, o.result = .error (.internal i)

namespace Manifest

variable {m : Manifest} {S : Settings}

theorem not_failsInternally_of_ok {o : Outcome} (h : o.result = .ok ()) : ¬o.FailsInternally := by
  rintro ⟨i, hi⟩
  simp [h] at hi

theorem not_failsInternally_unchanged (m : Manifest) : ¬m.unchanged.FailsInternally :=
  not_failsInternally_of_ok rfl

theorem not_failsInternally_failed {e : Error} (he : ∀ i, e ≠ .internal i) :
    ¬(m.failed e).FailsInternally := by
  rintro ⟨i, h⟩
  exact he i (Except.error.inj h)

/-- An edit that answers does not fail. -/
theorem not_failsInternally_edited {α : Type} {e : Edit α} {a : α}
    (hanswer : (e m.document.root).1 = .ok a) {next : α → Manifest → Outcome}
    (hnext : ∀ a m, (next a m).result = .ok ()) : ¬(m.edited e next).FailsInternally := by
  rintro ⟨i, h⟩
  rw [edited_eq hanswer, hnext] at h
  simp at h

/-- An edit that does not fail answers. -/
theorem exists_answer_of_edited {α : Type} {e : Edit α} {next : α → Manifest → Outcome}
    (h : ¬(m.edited e next).FailsInternally) : ∃ a, (e m.document.root).1 = .ok a := by
  cases hanswer : (e m.document.root).1 with
  | ok a => exact ⟨a, rfl⟩
  | error i =>
    refine absurd ⟨i, ?_⟩ h
    rw [edited, Document.edit]
    dsimp only
    rw [hanswer]
    rfl

/-- **No operation fails internally** on a document that says something. -/
theorem Attempt.not_failsInternally {o : Outcome} (ho : m.Attempt o) (h : m.document.Says S) :
    ¬o.FailsInternally := by
  cases ho with
  | failed he => exact not_failsInternally_failed he
  | unchanged => exact not_failsInternally_unchanged m
  | add package =>
    obtain ⟨isNew, hanswer, -⟩ := gives_addPackage h.gives
      (congrArg VersionedName.ofText (VersionedName.toText_ofText package))
    exact not_failsInternally_edited hanswer fun _ _ => rfl
  | remove package =>
    exact not_failsInternally_edited (gives_removePackage h.gives _).1 fun _ _ => rfl
  | @append v p field added n hp hadded hadmitted =>
    refine not_failsInternally_edited (a := ()) ?_ fun _ _ => rfl
    -- there is something to append, so the settings of the package are edited
    rw [appendToList, if_neg (by simpa using hadded)]
    exact (gives_editSettings h.gives p.name (changes_appendToSettings p.name field added)).1
  | @setPatch v p mode hp =>
    refine not_failsInternally_edited (a := ()) ?_ fun _ _ => rfl
    cases mode with
    | auto => exact answer_removePatchMode p.name m.document.root
    | always => exact (gives_editSettings h.gives p.name (changes_patchSettings .always)).1
    | never => exact (gives_editSettings h.gives p.name (changes_patchSettings .never)).1
  | @setDisablePlugin v p on hp =>
    exact not_failsInternally_edited
      (gives_editSettings h.gives p.name (changes_setBool on)).1 fun _ _ => rfl
  | setEnv env => exact not_failsInternally_edited (answer_setEnv env _) fun _ _ => rfl
  | setString field value =>
    exact not_failsInternally_edited (answer_setString field.key value _) fun _ _ => rfl

/-- Checking a running version fails for the requirement, for the version, or because they do not
go together. -/
theorem checkVersion_eq_error {S : Settings} {running : Text} {e : Error}
    (h : S.checkVersion running = .error e) : parseRequirement S.requirement = .error e ∨
      e = .user (.badRunningVersion running) ∨
      e = .user (.versionMismatch S.requirement running) := by
  rw [Settings.checkVersion] at h
  cases hr : parseRequirement S.requirement with
  | error e' =>
    rw [hr] at h
    exact Or.inl (congrArg Except.error (Except.error.inj h))
  | ok r =>
    rw [hr] at h
    cases r with
    | none => simp [bind, Except.bind, pure, Except.pure] at h
    | some r =>
      simp only [bind, Except.bind] at h
      split at h
      · exact Or.inr (Or.inl (Except.error.inj h).symm)
      · split at h
        · simp [pure, Except.pure] at h
        · exact Or.inr (Or.inr (Except.error.inj h).symm)

/-- It does not fail internally. -/
theorem checkVersion_ne_internal (S : Settings) (running : Text) (i : InternalError) :
    S.checkVersion running ≠ .error (.internal i) := by
  intro h
  rcases checkVersion_eq_error h with hr | he | he
  · exact parseRequirement_ne_internal S.requirement i hr
  · simp at he
  · simp at he

/-- **A manifest never gets stuck**: after any operations on what was loaded no operation
fails internally, and the document is still read as settings, with no known name twice. -/
theorem never_internal {b : Octets} (h : loadOctets b = .ok m) (ops : List Operation) :
    (∀ op, ¬((m.runAll ops).run op).FailsInternally) ∧
    (∀ running i, (m.runAll ops).checkVersion running ≠ .error (.internal i)) ∧
    (∃ r, load (m.runAll ops).document.toValue.minimalText = .ok r ∧
      Settings.decode (m.runAll ops).document.members = .ok r.toSettings) ∧
    (m.runAll ops).document.NamesOnce := by
  obtain ⟨s, -, hload⟩ := loadOctets_eq_ok.1 h
  obtain ⟨S, hsaid⟩ := exists_says_runAll (load_eq_ok.1 hload).2.1 ops
  obtain ⟨r, hr, hS⟩ := exists_load_minimalText hsaid
  refine ⟨fun op => (attempt_run _ op).not_failsInternally hsaid, checkVersion_ne_internal _,
    ⟨r, hr, ?_⟩, hsaid.namesOnce⟩
  rw [hS]
  exact (Document.says_iff.1 hsaid).1

/-- Two versions in an array, which turns into an object with a name twice, on which patching
is set in the old way before one of them goes. -/
theorem never_internal_versions :
    ∃ m, loadOctets (Text.utf8 "\x7b\"packages\": [\"go@1.20\", \"go@1.21\"]\x7d".toList) = .ok m ∧
      ∃ ops : List Operation, ops = [.addPlatforms "go@1.21".toList ["x86_64-linux".toList],
        .setPatchGlibc "go@1.20".toList true, .remove "go@1.20".toList] ∧
      (∀ op, ¬((m.runAll ops).run op).FailsInternally) ∧
      (∀ running i, (m.runAll ops).checkVersion running ≠ .error (.internal i)) ∧
      (∃ r, load (m.runAll ops).document.toValue.minimalText = .ok r ∧
        Settings.decode (m.runAll ops).document.members = .ok r.toSettings) ∧
      (m.runAll ops).document.NamesOnce := by
  obtain ⟨m, hm⟩ : ∃ m, loadOctets
      (Text.utf8 "\x7b\"packages\": [\"go@1.20\", \"go@1.21\"]\x7d".toList) = .ok m := by
    decide +kernel
  exact ⟨m, hm, _, rfl, never_internal hm _⟩

end Manifest

end EnvManifest
