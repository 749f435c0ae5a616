import EnvManifest.Proofs.Addressing
import Mathlib.Data.List.Find
import Mathlib.Data.List.Infix
import Mathlib.Data.List.Nodup

/-!
# A manifest says what its document says

An operation changes the settings of a manifest and its document by different code, and
the settings are never decoded again. All the same they stay in step: a document
`Says` settings if they are decoded from it and valid, and after every operation it says
the settings that the manifest has (`Manifest.follows_run`), so that the strict JSON text of
a document reloads as the manifest (`Manifest.load_minimalText_of_runAll`).

An operation on a package picks it by name and version in the settings, but by name alone
in an object of the document. So this asks that no two packages share a name. Whatever
the names, the document can still be loaded after every operation, only not as the
manifest that is there.
-/

namespace EnvManifest

open Manifest Object

namespace Manifest

/-! ### Names -/

/-- Among packages of different names, the one of a name and version is the one of the
name. -/
theorem hasName_eq_isNamed {m : Manifest} {v : VersionedName} {p : Package}
    (hnames : (m.packages.map Package.name).Nodup) (hp : m.find? v = some p) :
    ∀ x ∈ m.packages, x.hasName v.name = isNamed v x := by
  have hmem : p ∈ m.packages := List.mem_of_find?_eq_some hp
  have hnamed : isNamed v p = true := List.find?_some hp
  obtain ⟨hname, hversion⟩ := Bool.and_eq_true_iff.1 hnamed
  intro x hx
  rw [Bool.eq_iff_iff]
  constructor
  · intro hxname
    have heq : x = p := List.inj_on_of_nodup_map hnames hx hmem
      ((beq_iff_eq.1 hxname).trans (beq_iff_eq.1 hname).symm)
    rw [heq]
    exact hnamed
  · exact hasName_of_isNamed

/-! ### One operation -/

/-- Settings agree in what no operation is about. -/
structure AgreeAround (S S' : Settings) : Prop where
  shell : S'.shell = S.shell
  commit : S'.commit = S.commit
  includes : S'.includes = S.includes

/-- What is asked of an operation that leaves `m'` of `m`, whose document says `S`: the
document says something afterwards, and what the manifest does if it did before and no two
packages share a name. -/
def Follows (S : Settings) (m m' : Manifest) : Prop :=
  ∃ S', m'.document.Says S' ∧ AgreeAround S S' ∧
    (S = m.toSettings → (m.packages.map Package.name).Nodup → S' = m'.toSettings)

section Step

variable {S : Settings} {m : Manifest}

theorem follows_self (h : m.document.Says S) : Follows S m m :=
  ⟨S, h, ⟨rfl, rfl, rfl⟩, fun hS _ => hS⟩

/-- **An edit of the document with a change of the settings.** -/
theorem follows_edited {α : Type} {e : Edit α} {a : α}
    {next : α → Manifest → Outcome} {S' : Settings} (hanswer : (e m.document.root).1 = .ok a)
    (hgives : (e m.document.root).2.Gives 124 S') (hcheck : S'.check = .ok ())
    (haround : AgreeAround S S')
    (hnext : ∀ d, (next a { m with document := d }).manifest.document = d)
    (hS' : S = m.toSettings → ∀ d, S' = (next a { m with document := d }).manifest.toSettings) :
    Follows S m (m.edited e next).manifest := by
  rw [edited_eq hanswer]
  refine ⟨S', ?_, haround, fun hS _ => hS' hS _⟩
  rw [hnext]
  exact Document.Says.format ⟨hgives, hcheck⟩

theorem follows_add (h : m.document.Says S) (package : Text) :
    Follows S m (m.add package).manifest := by
  have hv : VersionedName.ofText (VersionedName.ofText package).toText =
      VersionedName.ofText package := by rw [VersionedName.toText_ofText]
  rw [add]
  split
  · exact follows_self h
  · obtain ⟨isNew, hanswer, hgives⟩ := gives_addPackage h.gives hv
    exact follows_edited hanswer hgives h.check ⟨rfl, rfl, rfl⟩ (fun _ => rfl) fun hS _ => by rw [hS]

/-- An operation on a package is about the same one in the document and in the settings. -/
theorem follows_of_package? (h : m.document.Says S) {op : Operation} {package : Text}
    (hop : op.package? = some package) : Follows S m (m.run op).manifest := by
  rcases alters_run h hop with ⟨e, he⟩ | ⟨-, hsaid, hsettings⟩
  · rw [he]
    exact follows_self h
  · refine ⟨_, hsaid, ⟨rfl, rfl, rfl⟩, fun hS hnames => ?_⟩
    have hsame : alterFirst (m.document.finds (.ofText package) op)
        (m.alteration (.ofText package) op.alter) m.packages =
          alterFirst (isNamed (.ofText package))
            (m.alteration (.ofText package) op.alter) m.packages := by
      cases hp : m.find? (.ofText package) with
      | none => rw [alteration_of_find?_eq_none hp, alterFirst_some, alterFirst_some]
      | some p =>
        -- what is found has the name, and with the name it has the version
        have hfinds : ∀ x ∈ m.packages,
            m.document.finds (.ofText package) op x = isNamed (.ofText package) x := by
          intro x hx
          rw [Bool.eq_iff_iff]
          refine ⟨fun h => ?_, finds_of_isNamed m.document op⟩
          rw [← hasName_eq_isNamed hnames hp x hx]
          exact hasName_of_finds m.document op h
        exact (alterFirst_eq_iff fun _ => finds_of_isNamed m.document op).2
          (Or.inl (List.find?_congr hfinds))
    rw [hsettings, hS, hsame]

theorem check_eq_ok {S : Settings} : S.check = .ok () ↔ checkCommit S.commit = .ok () ∧
    checkScripts S.shell.scripts.entries = .ok () ∧ ∃ r, parseRequirement S.requirement = .ok r := by
  rw [Settings.check, bind_eq_ok]
  constructor
  · rintro ⟨⟨⟩, hcommit, h⟩
    obtain ⟨⟨⟩, hscripts, h⟩ := bind_eq_ok.1 h
    obtain ⟨r, hr, -⟩ := bind_eq_ok.1 h
    exact ⟨hcommit, hscripts, r, hr⟩
  · rintro ⟨hcommit, hscripts, r, hr⟩
    exact ⟨(), hcommit, bind_eq_ok.2 ⟨(), hscripts, bind_eq_ok.2 ⟨r, hr, rfl⟩⟩⟩

/-- A field that may be set to a string leaves settings valid. -/
theorem check_write {field : StringField} {value : Text} (h : S.check = .ok ())
    (hvalue : stringError? value field = none) : (field.write value S).check = .ok () := by
  obtain ⟨hcommit, hscripts, hrequirement⟩ := check_eq_ok.1 h
  cases field with
  | requirement =>
    refine check_eq_ok.2 ⟨hcommit, hscripts, ?_⟩
    rw [stringError?] at hvalue
    split at hvalue
    · rename_i r hr
      exact ⟨r, hr⟩
    · simp at hvalue
  | name | description | envFrom => exact h

theorem follows_setString (h : m.document.Says S) (field : StringField) (value : Text) :
    Follows S m (m.setString field value).manifest := by
  rw [setString]
  split
  · exact follows_self h
  · rename_i herror
    obtain ⟨hanswer, hgives⟩ := gives_setString h.gives field value
    refine follows_edited hanswer hgives (check_write h.check herror)
      (by cases field <;> exact ⟨rfl, rfl, rfl⟩) (fun _ => by cases field <;> rfl) fun hS _ => ?_
    rw [hS]
    cases field <;> rfl

/-- **One operation keeps the document in step.** -/
theorem follows_run (h : m.document.Says S) (op : Operation) :
    Follows S m (m.run op).manifest := by
  cases op with
  | add package => exact follows_add h package
  | setEnv env =>
    obtain ⟨hanswer, hgives⟩ := gives_setEnv h.gives env
    exact follows_edited hanswer hgives h.check ⟨rfl, rfl, rfl⟩ (fun _ => rfl) fun hS _ => by rw [hS]
  | setString field value => exact follows_setString h field value
  | _ => exact follows_of_package? h rfl

end Step

/-! ### Operations in a row -/

/-- **Whatever is done to a manifest, its document can be loaded.** -/
theorem exists_says_runAll {m : Manifest} {S : Settings} (h : m.document.Says S)
    (ops : List Operation) : ∃ S', (m.runAll ops).document.Says S' := by
  induction ops generalizing m S with
  | nil => exact ⟨S, h⟩
  | cons op ops ih =>
    obtain ⟨S', hsaid, -⟩ := follows_run h op
    exact ih hsaid

/-- As long as no two packages share a name, the document says what the manifest does, and
nothing else changes. -/
theorem says_runAll {m : Manifest} (h : m.document.Says m.toSettings) {ops : List Operation}
    (hnames : ∀ pre, pre <+: ops → ((m.runAll pre).packages.map Package.name).Nodup) :
    (m.runAll ops).document.Says (m.runAll ops).toSettings ∧
      AgreeAround m.toSettings (m.runAll ops).toSettings := by
  induction ops generalizing m with
  | nil => exact ⟨h, rfl, rfl, rfl⟩
  | cons op ops ih =>
    obtain ⟨S', hsaid, haround, hS'⟩ := follows_run h op
    obtain rfl := hS' rfl (hnames [] List.nil_prefix)
    obtain ⟨hrun, haround'⟩ := ih hsaid fun pre hpre =>
      hnames (op :: pre) (List.cons_prefix_cons.2 ⟨rfl, hpre⟩)
    exact ⟨hrun, haround'.shell.trans haround.shell, haround'.commit.trans haround.commit,
      haround'.includes.trans haround.includes⟩

/-- **A manifest stays in step with its document**: the strict JSON text of the document
is loaded with the settings of the manifest, after any operations, if no two packages
share a name on the way. -/
theorem load_minimalText_of_runAll {b : Octets} {m : Manifest} {ops : List Operation}
    (h : loadOctets b = .ok m)
    (hnames : ∀ pre, pre <+: ops → ((m.runAll pre).packages.map Package.name).Nodup) :
    (∃ r, load (m.runAll ops).document.toValue.minimalText = .ok r ∧
      r.toSettings = (m.runAll ops).toSettings) ∧
    (m.runAll ops).shell = m.shell ∧ (m.runAll ops).commit = m.commit ∧
      (m.runAll ops).includes = m.includes := by
  obtain ⟨s, -, hload⟩ := loadOctets_eq_ok.1 h
  obtain ⟨hsaid, haround⟩ := says_runAll (load_eq_ok.1 hload).2.1 hnames
  exact ⟨exists_load_minimalText hsaid, haround.shell, haround.commit, haround.includes⟩

/-- An array of packages with a comment, which a platform turns into an object; then one
package gets another version and the other one goes. -/
theorem load_minimalText_of_runAll_array :
    ∃ m, loadOctets (Text.utf8 "\x7b\"packages\": [\"go@1.20\", // old\n\"jq\"]\x7d".toList) = .ok m ∧
      ∃ ops : List Operation, ops = [.addPlatforms "go@1.20".toList ["x86_64-linux".toList],
        .add "jq@1.7".toList, .remove "go@1.20".toList] ∧
      (∃ r, load (m.runAll ops).document.toValue.minimalText = .ok r ∧
        r.toSettings = (m.runAll ops).toSettings) ∧
      (m.runAll ops).shell = m.shell ∧ (m.runAll ops).commit = m.commit ∧
        (m.runAll ops).includes = m.includes := by
  obtain ⟨m, hm, hnames⟩ : ∃ m, loadOctets (Text.utf8
      "\x7b\"packages\": [\"go@1.20\", // old\n\"jq\"]\x7d".toList) = .ok m ∧
      ∀ pre ∈ List.inits [.addPlatforms "go@1.20".toList ["x86_64-linux".toList],
        .add "jq@1.7".toList, .remove "go@1.20".toList],
        ((m.runAll pre).packages.map Package.name).Nodup := by
    decide +kernel
  exact ⟨m, hm, _, rfl,
    load_minimalText_of_runAll hm fun pre hpre => hnames pre ((List.mem_inits _ _).2 hpre)⟩

end Manifest

end EnvManifest
