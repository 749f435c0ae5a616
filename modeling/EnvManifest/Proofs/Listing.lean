import EnvManifest.Proofs.Attempt
import EnvManifest.Proofs.Lockstep

/-!
# The names that packages are listed under

A package is listed under its name with the version behind an `@`, and it is looked up by what
stands in front of the last `@` and behind it. The two undo each other in one direction only: a
text is put together again from what it was split into (`VersionedName.toText_ofText`), but a
name and version come back from their text just if the text is split where it was put together
(`VersionedName.ofText_toText_iff`). It is not if the version has an `@`, nor if there is no
version and the name has an `@` that is not its last character.

Hence `Manifest.addresses_runAll_iff`: under the name that it is listed under a package is found,
and removed, exactly if its name and version can be told apart, and an operation brings in no
package of which they cannot. Such a package comes from an object that was loaded, never from
an array.
-/

namespace EnvManifest

open Manifest Object

/-! ### Names and versions that can be told apart -/

namespace VersionedName

/-- The text of a name and version does not hide where one ends and the other begins. -/
def Distinct (v : VersionedName) : Prop :=
  if v.version = [] then '@' ∈ v.name → v.name.getLast? = some '@' else '@' ∉ v.version
deriving Decidable

theorem not_mem_afterLastAt (s : Text) : '@' ∉ afterLastAt s := by
  intro h
  rw [afterLastAt, List.mem_reverse] at h
  simpa using List.mem_takeWhile_imp h

theorem afterLastAt_append {version : Text} (h : '@' ∉ version) (name : Text) :
    afterLastAt (name ++ '@' :: version) = version := by
  have hall : ∀ c ∈ version.reverse, (c != '@') = true := by
    intro c hc
    rw [bne_iff_ne]
    rintro rfl
    exact h (List.mem_reverse.1 hc)
  rw [afterLastAt, List.reverse_append, List.reverse_cons, List.append_assoc,
    List.takeWhile_append_of_pos hall]
  simp

theorem ofText_append {version : Text} (h : '@' ∉ version) (hne : version ≠ []) (name : Text) :
    ofText (name ++ '@' :: version) = ⟨name, version⟩ := by
  have htake : (name ++ '@' :: version).take
      ((name ++ '@' :: version).length - version.length - 1) = name := by
    rw [List.length_append, List.length_cons,
      show name.length + (version.length + 1) - version.length - 1 = name.length by omega]
    exact List.take_left
  rw [ofText, afterLastAt_append h, if_pos (by simp [hne]), htake]

/-- A text that is one name has no `@`, or ends in its last one. -/
theorem version_ofText_eq_nil_iff {s : Text} :
    (ofText s).version = [] ↔ ('@' ∈ s → s.getLast? = some '@') := by
  rw [ofText]
  split
  · rename_i hs
    obtain ⟨hmem, hne⟩ := Bool.and_eq_true_iff.1 hs
    have hmem' : '@' ∈ s := by simpa using hmem
    have hne' : afterLastAt s ≠ [] := by simpa using hne
    refine iff_of_false hne' fun hlast => not_mem_afterLastAt s ?_
    -- the last character is the last one of what is behind the last `@`
    have hlast' := hlast hmem'
    rw [← append_afterLastAt hmem', List.getLast?_append, List.getLast?_cons,
      List.getLast?_eq_some_getLast hne'] at hlast'
    have heq : (afterLastAt s).getLast hne' = '@' := by simpa using hlast'
    exact heq ▸ List.getLast_mem hne'
  · rename_i hs
    refine iff_of_true rfl fun hmem => ?_
    have hnil : afterLastAt s = [] := by simpa [hmem] using hs
    have hglue := append_afterLastAt hmem
    rw [hnil] at hglue
    rw [← hglue, List.getLast?_append]
    rfl

/-- What a text refers to can be told apart. -/
theorem distinct_ofText (s : Text) : (ofText s).Distinct := by
  rw [Distinct]
  split
  · rename_i hnil
    have hname : (ofText s).name = s := by
      have hglue := toText_ofText s
      rwa [toText, if_pos (by simp [hnil])] at hglue
    rw [hname]
    exact version_ofText_eq_nil_iff.1 hnil
  · rename_i hne
    rw [ofText] at hne ⊢
    split at hne
    · rename_i hs
      rw [if_pos hs]
      exact not_mem_afterLastAt s
    · exact absurd rfl hne

/-- **A name and version are what their text refers to** exactly if they can be told apart. -/
theorem ofText_toText_iff {v : VersionedName} : ofText v.toText = v ↔ v.Distinct := by
  constructor
  · intro h
    rw [← h]
    exact distinct_ofText _
  · intro h
    obtain ⟨name, version⟩ := v
    rw [Distinct] at h
    split at h
    · rename_i hnil
      obtain rfl : version = [] := hnil
      have hversion : (ofText name).version = [] := version_ofText_eq_nil_iff.2 h
      have hname := toText_ofText name
      rw [toText, if_pos (by simp [hversion])] at hname
      exact eq_mk_iff.2 ⟨hname, hversion⟩
    · rename_i hne
      rw [toText, if_neg (by simpa using hne)]
      exact ofText_append h hne name

/-- **Splitting and joining undo each other where they can.** A text is put together again from
what it is split into, wherever its `@` signs stand. A name and version come back from their text
exactly if the version is not empty and has no `@`, or there is none and the name has no `@` or
ends in one. -/
theorem toText_ofText_inverse :
    (∀ s, (ofText s).toText = s) ∧
    ∀ name version, ofText (toText ⟨name, version⟩) = ⟨name, version⟩ ↔
      version ≠ [] ∧ '@' ∉ version ∨
        version = [] ∧ ('@' ∉ name ∨ name.getLast? = some '@') := by
  refine ⟨toText_ofText, fun name version => ofText_toText_iff.trans ?_⟩
  rw [Distinct]
  split
  · rename_i hnil
    obtain rfl : version = [] := hnil
    simp [imp_iff_not_or]
  · rename_i hne
    have hversion : version ≠ [] := hne
    simp [hversion]

end VersionedName

/-! ### Packages that are found under the name they are listed under -/

/-- The name and version of a package. -/
def Package.reference (p : Package) : VersionedName :=
  ⟨p.name, p.version⟩

namespace Manifest

variable {m : Manifest}

/-- A package can be addressed by the name that it is listed under: a package of its name and
version is looked up by it, and taken off the packages. -/
structure Addresses (m : Manifest) (p : Package) : Prop where
  found : ∃ q, m.find? (.ofText p.versionedName) = some q ∧ q.reference = p.reference
  removes : (m.run (.remove p.versionedName)).result = .ok ()
  removed : (m.run (.remove p.versionedName)).manifest.packages =
    m.packages.eraseP fun q => q.reference = p.reference

theorem reference_of_find? {v : VersionedName} {q : Package} (h : m.find? v = some q) :
    q.reference = v := by
  have hnamed := List.find?_some h
  rw [Bool.and_eq_true, beq_iff_eq, beq_iff_eq] at hnamed
  exact (VersionedName.eq_mk_iff.2 ⟨hnamed.1.symm, hnamed.2.symm⟩).symm

theorem isNamed_reference (p q : Package) :
    isNamed p.reference q = decide (q.reference = p.reference) := by
  rw [Bool.eq_iff_iff, isNamed, Package.reference, Package.reference]
  simp

/-- A listed package is found by its name and version. -/
theorem exists_find?_reference {p : Package} (hp : p ∈ m.packages) :
    ∃ q, m.find? p.reference = some q := by
  refine Option.isSome_iff_exists.1 (List.find?_isSome.2 ⟨p, hp, ?_⟩)
  simp [Package.reference]

/-- **A listed package can be addressed** exactly if its name and version can be told apart. -/
theorem addresses_iff {S : Settings} (h : m.document.Says S) {p : Package} (hp : p ∈ m.packages) :
    m.Addresses p ↔ p.reference.Distinct := by
  rw [← VersionedName.ofText_toText_iff]
  constructor
  · rintro ⟨⟨q, hq, hsame⟩, -, -⟩
    exact (reference_of_find? hq).symm.trans hsame
  · intro htext
    have hof : VersionedName.ofText p.versionedName = p.reference := htext
    obtain ⟨q, hq⟩ := exists_find?_reference hp
    obtain ⟨hanswer, -⟩ := gives_removePackage h.gives p.reference
    have hrun : m.run (.remove p.versionedName) = m.edited (removePackage p.reference) fun _ m =>
        ⟨.ok (), none, { m with packages := m.packages.eraseP (isNamed p.reference) }⟩ := by
      rw [run, remove, hof, if_neg (by simp [hq])]
    rw [edited_eq hanswer] at hrun
    refine ⟨⟨q, by rw [hof, hq], reference_of_find? hq⟩, by rw [hrun], ?_⟩
    rw [hrun]
    exact congrArg (m.packages.eraseP ·) (funext (isNamed_reference p))

/-! ### Operations -/

/-- Every package of an outcome has a name and version that were listed before, or that can be
told apart. -/
def KeepsDistinct (m : Manifest) (o : Outcome) : Prop :=
  ∀ p ∈ o.manifest.packages, ¬p.reference.Distinct → ∃ q ∈ m.packages, q.reference = p.reference

theorem keepsDistinct_of_subset {o : Outcome} (h : o.manifest.packages ⊆ m.packages) :
    m.KeepsDistinct o :=
  fun p hp _ => ⟨p, h hp, rfl⟩

theorem keepsDistinct_edited {α : Type} {e : Edit α} {next : α → Manifest → Outcome}
    (hnext : ∀ a d, m.KeepsDistinct (next a { m with document := d })) :
    m.KeepsDistinct (m.edited e next) := by
  rw [edited]
  dsimp only
  split
  · exact hnext _ _
  · exact keepsDistinct_of_subset (List.Subset.refl _)

/-- A change of the first package picked that gives it a name and version that can be told apart
or keeps the ones it has. -/
theorem keepsDistinct_changeFirst {o : Outcome} {q : Package → Bool} {f : Package → Package}
    (ho : o.manifest.packages = changeFirst q f m.packages)
    (hf : ∀ p, m.packages.find? q = some p →
      (f p).reference.Distinct ∨ (f p).reference = p.reference) : m.KeepsDistinct o := by
  intro p hp hdistinct
  rw [ho] at hp
  rcases mem_changeFirst hp with hp | ⟨x, hx, rfl⟩
  · exact ⟨p, hp, rfl⟩
  · rcases hf x hx with hnew | hsame
    · exact absurd hnew hdistinct
    · exact ⟨x, List.mem_of_find?_eq_some hx, hsame.symm⟩

/-- What is added has the name and version that a text refers to. -/
theorem keepsDistinct_addedTo {o : Outcome} {s : Text} {isNew : Bool}
    (ho : o.manifest.packages = addedTo (.ofText s) isNew m.packages) : m.KeepsDistinct o := by
  rw [addedTo] at ho
  split at ho
  · intro p hp hdistinct
    rw [ho] at hp
    rcases List.mem_append.1 hp with hp | hp
    · exact ⟨p, hp, rfl⟩
    · obtain rfl := List.mem_singleton.1 hp
      exact absurd (VersionedName.distinct_ofText s) hdistinct
  · refine keepsDistinct_changeFirst ho fun p hp => Or.inl ?_
    have hname : p.name = (VersionedName.ofText s).name := by simpa using List.find?_some hp
    have hreference : (⟨p.name, (VersionedName.ofText s).version⟩ : VersionedName) = .ofText s :=
      (VersionedName.eq_mk_iff.2 ⟨hname.symm, rfl⟩).symm
    exact hreference ▸ VersionedName.distinct_ofText s

/-- **An operation brings in no package that cannot be addressed.** -/
theorem Attempt.keepsDistinct {o : Outcome} (ho : m.Attempt o) : m.KeepsDistinct o := by
  cases ho with
  | failed _ => exact keepsDistinct_of_subset (List.Subset.refl _)
  | unchanged => exact keepsDistinct_of_subset (List.Subset.refl _)
  | add package => exact keepsDistinct_edited fun isNew d => keepsDistinct_addedTo rfl
  | remove package =>
    exact keepsDistinct_edited fun _ d => keepsDistinct_of_subset List.eraseP_subset
  | @append v p field added n _ _ _ =>
    refine keepsDistinct_edited fun _ d => keepsDistinct_changeFirst rfl fun x _ => Or.inr ?_
    cases field <;> rfl
  | setPatch mode _ =>
    exact keepsDistinct_edited fun _ d => keepsDistinct_changeFirst rfl fun p _ => Or.inr rfl
  | setDisablePlugin on _ =>
    exact keepsDistinct_edited fun _ d => keepsDistinct_changeFirst rfl fun p _ => Or.inr rfl
  | setEnv env =>
    exact keepsDistinct_edited fun _ d => keepsDistinct_of_subset (List.Subset.refl _)
  | setString field value =>
    refine keepsDistinct_edited fun _ d => keepsDistinct_of_subset ?_
    cases field <;> exact List.Subset.refl _

/-- A package that cannot be addressed after operations was listed before them. -/
theorem exists_reference_of_runAll {ops : List Operation} {p : Package}
    (hp : p ∈ (m.runAll ops).packages) (hdistinct : ¬p.reference.Distinct) :
    ∃ q ∈ m.packages, q.reference = p.reference := by
  induction ops generalizing m with
  | nil => exact ⟨p, hp, rfl⟩
  | cons op ops ih =>
    obtain ⟨q, hq, hsame⟩ := ih hp
    obtain ⟨r, hr, hsame'⟩ := (attempt_run m op).keepsDistinct q hq (hsame ▸ hdistinct)
    exact ⟨r, hr, hsame'.trans hsame⟩

/-- Packages that are read from an array can be addressed. -/
theorem distinct_of_array {d : Document} {S : Settings} (h : d.Says S) {ds : List Datum}
    (hds : (packagesKey, .array ds) ∈ d.members) {p : Package} (hp : p ∈ S.packages) :
    p.reference.Distinct := by
  obtain ⟨hdecode, -, -⟩ := Document.says_iff.1 h
  obtain ⟨ps, hps, hset⟩ := Datum.decodeMembers_of_mem Settings.hasField_packages hdecode hds
  rw [hset] at hp
  obtain ⟨e, -, he⟩ := exists_of_mem_mapM hps hp
  obtain ⟨s, -, rfl⟩ := map_eq_ok.1 he
  exact VersionedName.distinct_ofText s

/-- **Under the name that it is listed under** a package can be addressed after any operations
exactly if its name and version can be told apart. Every package of which they cannot was loaded
with this name and version, from an object; so all packages can be addressed throughout if
those that were loaded can. -/
theorem addresses_runAll_iff {b : Octets} (h : loadOctets b = .ok m) :
    (∀ ops, ∀ p ∈ (m.runAll ops).packages,
      ((m.runAll ops).Addresses p ↔ p.reference.Distinct) ∧
      (¬p.reference.Distinct → ∃ q ∈ m.packages, q.reference = p.reference)) ∧
    ((∀ ops, ∀ p ∈ (m.runAll ops).packages, (m.runAll ops).Addresses p) ↔
      ∀ p ∈ m.packages, p.reference.Distinct) ∧
    ((∃ p ∈ m.packages, ¬p.reference.Distinct) →
      ∀ ds, (packagesKey, .array ds) ∉ m.document.members) := by
  obtain ⟨s, -, hload⟩ := loadOctets_eq_ok.1 h
  have hsaid := (load_eq_ok.1 hload).2.1
  have haddresses : ∀ ops, ∀ p ∈ (m.runAll ops).packages,
      ((m.runAll ops).Addresses p ↔ p.reference.Distinct) := by
    intro ops p hp
    obtain ⟨S, hS⟩ := exists_says_runAll hsaid ops
    exact addresses_iff hS hp
  refine ⟨fun ops p hp => ⟨haddresses ops p hp, exists_reference_of_runAll hp⟩, ⟨?_, ?_⟩, ?_⟩
  · intro hall p hp
    exact (haddresses [] p hp).1 (hall [] p hp)
  · intro hloaded ops p hp
    rw [haddresses ops p hp]
    by_contra hdistinct
    obtain ⟨q, hq, hsame⟩ := exists_reference_of_runAll hp hdistinct
    exact hdistinct (hsame ▸ hloaded q hq)
  · rintro ⟨p, hp, hdistinct⟩ ds hds
    exact hdistinct (distinct_of_array hsaid hds hp)

/-- Two versions of a package whose name has an `@` in it. -/
theorem addresses_runAll_iff_array :
    ∃ m, loadOctets (Text.utf8 "\x7b\"packages\": [\"a@b@1\", \"a@b@2\"]\x7d".toList) = .ok m ∧
      (∀ ops, ∀ p ∈ (m.runAll ops).packages,
        ((m.runAll ops).Addresses p ↔ p.reference.Distinct) ∧
        (¬p.reference.Distinct → ∃ q ∈ m.packages, q.reference = p.reference)) ∧
      ((∀ ops, ∀ p ∈ (m.runAll ops).packages, (m.runAll ops).Addresses p) ↔
        ∀ p ∈ m.packages, p.reference.Distinct) ∧
      ((∃ p ∈ m.packages, ¬p.reference.Distinct) →
        ∀ ds, (packagesKey, .array ds) ∉ m.document.members) := by
  obtain ⟨m, hm⟩ : ∃ m,
      loadOctets (Text.utf8 "\x7b\"packages\": [\"a@b@1\", \"a@b@2\"]\x7d".toList) = .ok m := by
    decide +kernel
  exact ⟨m, hm, addresses_runAll_iff hm⟩

/-- A package whose name has an `@` in it is listed without a version, and not found. -/
theorem not_addresses_loaded :
    ∃ m, loadOctets (Text.utf8 "\x7b\"packages\": \x7b\"a@b\": \"\"\x7d\x7d".toList) = .ok m ∧
      ∃ p ∈ m.packages, m.find? (.ofText p.versionedName) = none ∧
        (m.run (.remove p.versionedName)).manifest.packages = m.packages ∧ ¬m.Addresses p := by
  obtain ⟨m, hm, p, hp, hnone⟩ : ∃ m,
      loadOctets (Text.utf8 "\x7b\"packages\": \x7b\"a@b\": \"\"\x7d\x7d".toList) = .ok m ∧
      ∃ p ∈ m.packages, m.find? (.ofText p.versionedName) = none := by
    decide +kernel
  refine ⟨m, hm, p, hp, hnone, ?_, ?_⟩
  · rw [run, remove, if_pos (by simp [hnone])]
    rfl
  · rintro ⟨⟨q, hq, -⟩, -, -⟩
    simp [hnone] at hq

end Manifest

end EnvManifest
