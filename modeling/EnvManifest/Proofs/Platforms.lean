import EnvManifest.Proofs.Attempt
import EnvManifest.Proofs.Says

/-!
# The two lists of platforms

A package is to be limited to some platforms or kept off some, and not both
(`Package.Exclusive`): an operation gives neither list a member while the other one has one.
So no operation brings about a package with both (`Manifest.Attempt.keepsLimits`).

Loading does not look. An entry of the document that has members in both lists
(`Document.LimitsBothWays`) is taken as it is, and stays what it is until it is removed. Hence
`Manifest.exclusive_runAll_iff`: packages are limited one way throughout all operations exactly
if the document that was loaded limits none of them both ways.
-/

namespace EnvManifest

open Manifest Object

/-! ### Packages and entries -/

namespace Package

/-- Not both lists of platforms have members. -/
def Exclusive (p : Package) : Prop :=
  p.platforms = [] ∨ p.excludedPlatforms = []
deriving Decidable

/-- Two packages have the same name and the same lists of platforms. -/
structure SameLimits (p q : Package) : Prop where
  name : p.name = q.name
  platforms : p.platforms = q.platforms
  excludedPlatforms : p.excludedPlatforms = q.excludedPlatforms

theorem SameLimits.refl (p : Package) : SameLimits p p :=
  ⟨rfl, rfl, rfl⟩

theorem SameLimits.trans {p q r : Package} (h : SameLimits p q) (h' : SameLimits q r) :
    SameLimits p r :=
  ⟨h.name.trans h'.name, h.platforms.trans h'.platforms,
    h.excludedPlatforms.trans h'.excludedPlatforms⟩

theorem SameLimits.exclusive_iff {p q : Package} (h : SameLimits p q) :
    p.Exclusive ↔ q.Exclusive := by
  rw [Exclusive, Exclusive, h.platforms, h.excludedPlatforms]

end Package

/-- The settings of an entry have members in both lists of platforms. -/
def LimitsBothWays (settings : List (Text × Datum)) : Prop :=
  ∀ field ∈ [ListField.platforms, .excludedPlatforms],
    ∃ d ds, (field.key, Datum.array (d :: ds)) ∈ settings

/-- A document has an entry with members in both lists of platforms. -/
def Document.LimitsBothWays (d : Document) : Prop :=
  ∃ pkgs, (packagesKey, .object pkgs) ∈ d.members ∧
    ∃ name settings, (name, .object settings) ∈ pkgs ∧ EnvManifest.LimitsBothWays settings

/-! ### What is loaded -/

theorem exists_cons_of_decodeTexts {d : Datum} {texts : List Text}
    (h : d.decodeTexts = .ok texts) (hne : texts ≠ []) : ∃ e es, d = .array (e :: es) := by
  cases d with
  | array es =>
    cases es with
    | nil =>
      obtain rfl := Except.ok.inj h
      exact absurd rfl hne
    | cons e es => exact ⟨e, es, rfl⟩
  | null | bool b | number t | string s | object ms => simp [Datum.decodeTexts] at h

theorem ne_nil_of_decodeTexts {d : Datum} {ds : List Datum} {texts : List Text}
    (h : (Datum.array (d :: ds)).decodeTexts = .ok texts) : texts ≠ [] := by
  obtain ⟨t, ts, -, -, rfl⟩ := mapM_cons_eq_ok.1 h
  exact List.cons_ne_nil t ts

namespace EntryFields

variable {settings : List (Text × Datum)} {t : EntryFields}

/-- A list of an entry has members exactly if it is written with members. -/
theorem read_ne_nil_iff (field : ListField)
    (h : Datum.decodeMembers fields [] settings (ofVersion []) = .ok t) :
    field.read t ≠ [] ↔ ∃ d ds, (field.key, Datum.array (d :: ds)) ∈ settings := by
  have hf := hasField_list field
  constructor
  · intro hne
    have hset : t ≠ field.write [] t := by
      intro heq
      rw [heq, ListField.read_write] at hne
      exact hne rfl
    obtain ⟨d, texts, hmem, htexts, ht⟩ :=
      Datum.exists_mem_of_decodeMembers hf h (b := []) (by cases field <;> rfl) hset
    rw [ht, ListField.read_write] at hne
    obtain ⟨e, es, rfl⟩ := exists_cons_of_decodeTexts htexts hne
    exact ⟨e, es, hmem⟩
  · rintro ⟨d, ds, hmem⟩
    obtain ⟨texts, htexts, ht⟩ := Datum.decodeMembers_of_mem hf h hmem
    rw [ht, ListField.read_write]
    exact ne_nil_of_decodeTexts htexts

end EntryFields

/-- The package of an entry is limited both ways exactly if its settings are. -/
theorem Package.not_exclusive_iff {name : Text} {settings : List (Text × Datum)} {p : Package}
    (h : Package.decode name (.object settings) = .ok p) :
    ¬p.Exclusive ↔ LimitsBothWays settings := by
  obtain ⟨t, ht, hp⟩ := bind_eq_ok.1 h
  obtain ⟨mode, -, rfl⟩ := EntryFields.toPackage_eq_ok.1 hp
  have hlists : LimitsBothWays settings ↔
      ListField.platforms.read t ≠ [] ∧ ListField.excludedPlatforms.read t ≠ [] := by
    rw [EntryFields.read_ne_nil_iff _ ht, EntryFields.read_ne_nil_iff _ ht]
    simp [LimitsBothWays]
  rw [hlists]
  exact not_or

/-- A package without settings is limited in no way. -/
theorem Package.exclusive_of_toPackage {name version : Text} {p : Package}
    (h : (EntryFields.ofVersion version).toPackage name = .ok p) : p.Exclusive := by
  obtain ⟨mode, -, rfl⟩ := EntryFields.toPackage_eq_ok.1 h
  exact Or.inl rfl

/-- **What is loaded has a package that is limited both ways** exactly if the document has an
entry that is. -/
theorem Document.Says.exclusive_iff {d : Document} {S : Settings} (h : d.Says S) :
    (∀ p ∈ S.packages, p.Exclusive) ↔ ¬d.LimitsBothWays := by
  constructor
  · rintro hexclusive ⟨pkgs, hpkgs, name, settings, hentry, hboth⟩
    obtain ⟨p, hp, hdecode⟩ := h.decode_of_mem hpkgs hentry
    exact (Package.not_exclusive_iff hdecode).2 hboth (hexclusive p hp)
  · intro hnone p hp
    by_contra hboth
    obtain ⟨hdecode, -, -⟩ := says_iff.1 h
    have hset : S ≠ { S with packages := [] } := by
      intro heq
      rw [heq] at hp
      simp at hp
    obtain ⟨e, ps, hmem, hps, hS⟩ := Datum.exists_mem_of_decodeMembers
      Settings.hasField_packages hdecode (b := []) rfl hset
    rw [hS] at hp
    -- only an entry with settings can limit a package
    cases e with
    | array elements =>
      obtain ⟨e, -, he⟩ := exists_of_mem_mapM hps hp
      obtain ⟨s, -, rfl⟩ := map_eq_ok.1 he
      exact hboth (Or.inl rfl)
    | object pkgs =>
      obtain ⟨⟨name, entry⟩, hentry, hp⟩ := exists_of_mem_mapM hps hp
      cases entry with
      | string version => exact hboth (Package.exclusive_of_toPackage hp)
      | null => exact hboth (Package.exclusive_of_toPackage hp)
      | object settings =>
        exact hnone ⟨pkgs, hmem, name, settings, hentry, (Package.not_exclusive_iff hp).1 hboth⟩
      | bool b | number t | array ds => simp [Package.decode] at hp
    | null =>
      obtain rfl := Except.ok.inj hps
      simp at hp
    | bool b | number t | string s => simp [Package.decodeList] at hps

/-! ### Operations -/

namespace Manifest

variable {m : Manifest}

/-- Every package that an outcome leaves limited both ways was there before, and was. -/
def KeepsLimits (m : Manifest) (o : Outcome) : Prop :=
  ∀ p ∈ o.manifest.packages, ¬p.Exclusive → ∃ q ∈ m.packages, q.SameLimits p

theorem keepsLimits_of_subset {o : Outcome} (h : o.manifest.packages ⊆ m.packages) :
    m.KeepsLimits o :=
  fun p hp _ => ⟨p, h hp, .refl p⟩

/-- The document has no part in it. -/
theorem keepsLimits_edited {α : Type} {e : Edit α} {next : α → Manifest → Outcome}
    (hnext : ∀ a d, m.KeepsLimits (next a { m with document := d })) :
    m.KeepsLimits (m.edited e next) := by
  rw [edited]
  dsimp only
  split
  · exact hnext _ _
  · exact keepsLimits_of_subset (List.Subset.refl _)

/-- A change of the first package picked that limits it in one way or keeps its limits. -/
theorem keepsLimits_changeFirst {o : Outcome} {q : Package → Bool} {f : Package → Package}
    (ho : o.manifest.packages = changeFirst q f m.packages)
    (hf : ∀ p, m.packages.find? q = some p → (f p).Exclusive ∨ p.SameLimits (f p)) :
    m.KeepsLimits o := by
  intro p hp hboth
  rw [ho] at hp
  rcases mem_changeFirst hp with hp | ⟨x, hx, rfl⟩
  · exact ⟨p, hp, .refl p⟩
  · rcases hf x hx with hone | hsame
    · exact absurd hone hboth
    · exact ⟨x, List.mem_of_find?_eq_some hx, hsame⟩

/-- Appending to a list that a package may have members in limits it in one way or keeps its
limits. -/
theorem limits_append {field : ListField} {p : Package} (h : field.Admitted p) (added : List Text) :
    (field.append added p).Exclusive ∨ p.SameLimits (field.append added p) := by
  cases field with
  | platforms => exact Or.inl (Or.inr h)
  | excludedPlatforms => exact Or.inl (Or.inl h)
  | outputs | allowInsecure => exact Or.inr ⟨rfl, rfl, rfl⟩

/-- Adding a package gives it no lists, or gives a listed one another version. -/
theorem keepsLimits_addedTo {o : Outcome} {v : VersionedName} {isNew : Bool}
    (ho : o.manifest.packages = addedTo v isNew m.packages) : m.KeepsLimits o := by
  rw [addedTo] at ho
  split at ho
  · intro p hp hboth
    rw [ho] at hp
    rcases List.mem_append.1 hp with hp | hp
    · exact ⟨p, hp, .refl p⟩
    · obtain rfl := List.mem_singleton.1 hp
      exact absurd (Or.inl rfl) hboth
  · exact keepsLimits_changeFirst ho fun p _ => Or.inr ⟨rfl, rfl, rfl⟩

/-- **An operation limits no package both ways.** -/
theorem Attempt.keepsLimits {o : Outcome} (ho : m.Attempt o) : m.KeepsLimits o := by
  cases ho with
  | failed _ => exact keepsLimits_of_subset (List.Subset.refl _)
  | unchanged => exact keepsLimits_of_subset (List.Subset.refl _)
  | add package => exact keepsLimits_edited fun isNew d => keepsLimits_addedTo rfl
  | remove package =>
    exact keepsLimits_edited fun _ d => keepsLimits_of_subset List.eraseP_subset
  | @append v p field added n hp _ hadmitted =>
    refine keepsLimits_edited fun _ d => keepsLimits_changeFirst rfl fun x hx => ?_
    obtain rfl : p = x := Option.some.inj (hp.symm.trans hx)
    exact limits_append hadmitted added
  | setPatch mode _ =>
    exact keepsLimits_edited fun _ d =>
      keepsLimits_changeFirst rfl fun p _ => Or.inr ⟨rfl, rfl, rfl⟩
  | setDisablePlugin on _ =>
    exact keepsLimits_edited fun _ d =>
      keepsLimits_changeFirst rfl fun p _ => Or.inr ⟨rfl, rfl, rfl⟩
  | setEnv env =>
    exact keepsLimits_edited fun _ d => keepsLimits_of_subset (List.Subset.refl _)
  | setString field value =>
    refine keepsLimits_edited fun _ d => keepsLimits_of_subset ?_
    cases field <;> exact List.Subset.refl _

/-- A package that is limited both ways after operations was so before them. -/
theorem exists_sameLimits_of_runAll {ops : List Operation} {p : Package}
    (hp : p ∈ (m.runAll ops).packages) (hboth : ¬p.Exclusive) :
    ∃ q ∈ m.packages, q.SameLimits p := by
  induction ops generalizing m with
  | nil => exact ⟨p, hp, .refl p⟩
  | cons op ops ih =>
    obtain ⟨q, hq, hsame⟩ := ih hp
    obtain ⟨r, hr, hsame'⟩ := (attempt_run m op).keepsLimits q hq (mt hsame.exclusive_iff.1 hboth)
    exact ⟨r, hr, hsame'.trans hsame⟩

/-- **The lists of platforms exclude each other** after all operations exactly if the document
that was loaded has no entry with members in both; whatever is limited both ways at any time
was loaded so. -/
theorem exclusive_runAll_iff {b : Octets} (h : loadOctets b = .ok m) :
    ((∀ ops, ∀ p ∈ (m.runAll ops).packages, p.Exclusive) ↔ ¬m.document.LimitsBothWays) ∧
    ∀ ops, ∀ p ∈ (m.runAll ops).packages, ¬p.Exclusive → ∃ q ∈ m.packages, q.SameLimits p := by
  obtain ⟨s, -, hload⟩ := loadOctets_eq_ok.1 h
  have hloaded := (load_eq_ok.1 hload).2.1.exclusive_iff
  refine ⟨⟨fun hall => hloaded.1 (hall []), fun hnone ops p hp => ?_⟩,
    fun ops p hp hboth => exists_sameLimits_of_runAll hp hboth⟩
  by_contra hboth
  obtain ⟨q, hq, hsame⟩ := exists_sameLimits_of_runAll hp hboth
  exact hboth (hsame.exclusive_iff.1 (hloaded.2 hnone q hq))

/-- A package that is limited to one platform. -/
theorem exclusive_runAll_iff_limited :
    ∃ m, loadOctets (Text.utf8
        "\x7b\"packages\": \x7b\"go\": \x7b\"platforms\": [\"i686-linux\"]\x7d\x7d\x7d".toList) = .ok m ∧
      ((∀ ops, ∀ p ∈ (m.runAll ops).packages, p.Exclusive) ↔ ¬m.document.LimitsBothWays) ∧
      ∀ ops, ∀ p ∈ (m.runAll ops).packages, ¬p.Exclusive → ∃ q ∈ m.packages, q.SameLimits p := by
  obtain ⟨m, hm⟩ : ∃ m, loadOctets (Text.utf8
      "\x7b\"packages\": \x7b\"go\": \x7b\"platforms\": [\"i686-linux\"]\x7d\x7d\x7d".toList) =
        .ok m := by
    decide +kernel
  exact ⟨m, hm, exclusive_runAll_iff hm⟩

/-- An entry with members in both lists is loaded. -/
theorem not_exclusive_loaded :
    ∃ m, loadOctets (Text.utf8 ("\x7b\"packages\": \x7b\"go\": \x7b\"platforms\": ".toList ++
        "[\"x86_64-linux\"], \"excluded_platforms\": [\"aarch64-darwin\"]\x7d\x7d\x7d".toList)) = .ok m ∧
      ∃ p ∈ m.packages, ¬p.Exclusive := by
  decide +kernel

end Manifest

end EnvManifest
