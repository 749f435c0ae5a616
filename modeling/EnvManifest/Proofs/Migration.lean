import EnvManifest.Proofs.Appending
import EnvManifest.Proofs.Edit.Apart
import EnvManifest.Proofs.Layout.Untouched

/-!
# Turning the array of packages into an object

An edit of the settings of a package turns packages that are listed in an array into an object
first, and if no package of that name is listed it does nothing else (`editSettings_of_unlisted`).
The elements become members in their order, and a name may occur more than once. Their comments
are put in front of the names and behind the versions, so that nothing that is read is lost in
one: the document is read again, and its packages are those of the array
(`Document.exists_parse_migration`).
-/

namespace EnvManifest

open Manifest Object

/-! ### The packages of an object -/

namespace Object

/-- The value of the packages. -/
def packages? (root : Object) : Option Node :=
  (spot? root packagesKey).map fun s => s.here.node

theorem packages?_eq_some {root : Object} {n : Node} :
    packages? root = some n ↔ ∃ s, spot? root packagesKey = some s ∧ s.here.node = n :=
  Option.map_eq_some_iff

/-- A name that no member has. -/
theorem spot?_eq_none {o : Object} {name : Text} (h : ∀ m ∈ o.children, Member.name m ≠ name) :
    spot? o name = none := by
  cases hs : spot? o name with
  | none => rfl
  | some s =>
    refine absurd (name_of_spot? hs) (h s.here ?_)
    rw [← members_of_spot? hs]
    simp [Spot.members]

/-- **The outline of an object decides what the first member of a name is.** -/
theorem spot?_of_outline {o o' : Object} (h : (Node.object o').outline = (Node.object o).outline)
    {name : Text} {s : Spot} (hs : spot? o name = some s) :
    ∃ s', spot? o' name = some s' ∧ s'.here.node.outline = s.here.node.outline := by
  have hmembers : List.Forall₂ (fun m m' : Member =>
      (m'.label.name, m'.node.outline) = (m.label.name, m.node.outline))
      o.children o'.children := by
    rw [Node.outline_object, Node.outline_object, Outline.object.injEq, ← List.forall₂_eq_eq_eq,
      List.forall₂_map_left_iff, List.forall₂_map_right_iff] at h
    exact h.flip
  obtain ⟨s', hs', -, hhere, -⟩ := spotIn?_of_forall₂ (fun m m' hm =>
    congrArg (fun p : Literal × Outline => p.1.value) hm) hmembers hs
  exact ⟨s', hs', congrArg Prod.snd hhere⟩

end Object

/-! ### The array that becomes an object -/

namespace Package

/-- An array of strings is decoded. -/
theorem exists_decodeElements {es : List Value} (h : ∀ e ∈ es, e.node.text?.isSome = true) :
    ∃ ps, decodeElements es = .ok ps := by
  induction es with
  | nil => exact ⟨[], rfl⟩
  | cons e es ih =>
    obtain ⟨he, hes⟩ := List.forall_mem_cons.1 h
    obtain ⟨ps, hps⟩ := ih hes
    obtain ⟨t, ht⟩ := Option.isSome_iff_exists.1 he
    refine ⟨ofVersion (VersionedName.ofText t) :: ps, decodeElements_cons.2 ⟨_, ps, ?_, hps, rfl⟩⟩
    cases hn : e.node with
    | string l =>
      obtain rfl : l.value = t := by simpa [hn, Node.text?] using ht
      rfl
    | null | bool b | number t | object ms | array es => simp [hn, Node.text?] at ht

end Package

/-- No element of an array refers to a package of a name. -/
def Elements.Unlisted (name : Text) (es : Elements) : Prop :=
  ∀ e ∈ es.children, ∀ t ∈ e.node.text?, (VersionedName.ofText t).name ≠ name

instance (name : Text) (es : Elements) : Decidable (es.Unlisted name) :=
  inferInstanceAs (Decidable (∀ e ∈ _, ∀ t ∈ _, _))

/-- The members that elements become have the names that these refer to. -/
theorem spot?_migrated {name : Text} {es : Elements} (h : es.Unlisted name) :
    spot? (migrated es) name = none := by
  refine spot?_eq_none fun m hm => ?_
  obtain ⟨e, he, hmigrated⟩ := List.mem_filterMap.1 hm
  rw [migratedElement] at hmigrated
  split at hmigrated
  · simp at hmigrated
  · rename_i t ht
    obtain rfl := Option.some.inj hmigrated
    exact h e he t ht

theorem isSome_migratedElement {e : Value} (h : e.node.text?.isSome = true) :
    (migratedElement e).isSome = true := by
  obtain ⟨t, ht⟩ := Option.isSome_iff_exists.1 h
  rw [migratedElement, ht]
  rfl

/-! ### Edits of settings -/

/-- An edit of the settings of a package, whatever it does to them. -/
def EditsSettings (name : Text) (edit : Edit Unit) : Prop :=
  ∃ e, edit = editSettings name e

theorem editsSettings_appendToList {name field : Text} {values : List Text} (h : values ≠ []) :
    EditsSettings name (appendToList name field values) :=
  ⟨appendToSettings name field values, if_neg (by simpa using h)⟩

theorem editsSettings_setBool (name field : Text) (value : Bool) :
    EditsSettings name (setBool name field value) :=
  ⟨_, rfl⟩

theorem editsSettings_setPatchMode (name : Text) (mode : PatchMode) :
    EditsSettings name (setPatchMode name mode) :=
  ⟨_, rfl⟩

/-- **For a package that is not listed an edit of settings only migrates.** -/
theorem editSettings_of_unlisted {root : Object} {s : Spot} {es : Elements} {name : Text}
    (hs : spot? root packagesKey = some s) (hes : s.here.node = .array es) (h : es.Unlisted name)
    (e : Edit Unit) :
    editSettings name e root = (.ok (), withSpot root (s.setNode (.object (migrated es)))) := by
  rw [editSettings, packagesSpot, hs]
  dsimp only [Spot.setNode]
  rw [hes, editablePackages, if_pos rfl]
  dsimp only
  rw [spot?_migrated h]

namespace Document

/-- **Migrating keeps the list of packages.** An edit of the settings of a package that is not
listed in the array answers, and the document that it leaves is read as one that has its packages
in an object. They are decoded to the packages of the array, in order and with repetitions,
whatever comments are around the elements. -/
theorem exists_parse_migration {s name : Text} {d : Document} {es : Elements} {edit : Edit Unit}
    (h : parse s = .ok d) (hes : packages? d.root = some (.array es))
    (hstrings : ∀ e ∈ es.children, e.node.text?.isSome = true) (hname : es.Unlisted name)
    (hedit : EditsSettings name edit) :
    ∃ d' w pkgs ps, d.edit edit = (.ok (), d') ∧ parse d'.pack = .ok w ∧
      packages? w.root = some (.object pkgs) ∧
      Package.decodeList (Node.array es).datum = .ok ps ∧
      Package.decodeList (Node.object pkgs).datum = .ok ps := by
  obtain ⟨e, rfl⟩ := hedit
  obtain ⟨spot, hs, hnode⟩ := packages?_eq_some.1 hes
  have hparse := parse_eq_ok.1 h
  have hsound := sound_of_parse hparse
  have hfits : d.toValue.node.Fits maxDepth :=
    (Value.orderly_of_readTo (Value.parse_eq_ok.1 hparse)).2.2.1.fits
  let root' := withSpot d.root (spot.setNode (.object (migrated es)))
  have hroot : d.edit (editSettings name e) = (.ok (), format { d with root := root' }) := by
    rw [Document.edit, editSettings_of_unlisted hs hnode hname e]
  -- every member of the object starts a line, so that nothing ends up in a comment
  have hhere := laidOut_here hsound.root hs
  rw [hnode] at hhere
  obtain ⟨hsupple, hnodes⟩ := supple_migrated (workable_array hhere).legible fun e he =>
    isSome_migratedElement (hstrings e he)
  have hpliant : (Node.object root').Pliant := by
    refine pliant_setNode hsound.root hs (Node.pliant_object hsupple.pliant fun m hm => ?_)
    obtain ⟨t, ht⟩ := hnodes m hm
    rw [ht]
    exact Node.pliant_ofText t
  have hfits' : (Node.object root').Fits maxDepth :=
    Node.fits_object.2 (fits_setNode hs (Node.fits_object.1 hfits)
      (Node.fits_object.2 (fits_migrated es)))
  obtain ⟨v, hv, houtline⟩ := Value.exists_parse_format_of_pliant
    (v := toValue { d with root := root' }) hsound.lead hfits' hpliant hsound.trail
  rw [← toValue_format] at hv
  obtain ⟨w, hw, houtline'⟩ := exists_parse_of_outline hv houtline
  obtain ⟨spot', hspot', hpkgs⟩ := spot?_of_outline houtline'
    (spot?_setNode hs (.object (migrated es)))
  obtain ⟨ps, hps⟩ := Package.exists_decodeElements hstrings
  obtain ⟨pkgs, hobject⟩ := Node.exists_object_of_outline hpkgs
  refine ⟨_, w, pkgs, ps, hroot, hw, packages?_eq_some.2 ⟨spot', hspot', hobject⟩, ?_, ?_⟩
  · rw [Package.decodeList_array, hps]
  · rw [hobject] at hpkgs
    rw [Node.datum_eq, hpkgs, ← Node.datum_eq]
    exact (Package.decodeList_object (migrated es)).trans (Package.decodeEntries_migrated hps)

/-- A name that occurs twice, a name that ends in an `@`, and a block comment behind the last
element that goes on on the next line. -/
theorem exists_parse_migration_repeated :
    ∃ d es,
      parse "\x7b\"packages\": [ /* a */ \"go@1\", // b\n\"go@2\", \"e.@\" /* c\n */]\x7d".toList =
        .ok d ∧
      packages? d.root = some (.array es) ∧ (∀ e ∈ es.children, e.node.text?.isSome = true) ∧
      Elements.Unlisted "jq".toList es ∧
      EditsSettings "jq".toList
        (appendToList "jq".toList "platforms".toList ["x86_64-linux".toList]) ∧
      ∃ d' w pkgs ps,
        d.edit (appendToList "jq".toList "platforms".toList ["x86_64-linux".toList]) = (.ok (), d') ∧
        parse d'.pack = .ok w ∧ packages? w.root = some (.object pkgs) ∧
        Package.decodeList (Node.array es).datum = .ok ps ∧
        Package.decodeList (Node.object pkgs).datum = .ok ps := by
  obtain ⟨d, hd, n, hn, es, harray, hstrings, hname⟩ : ∃ d,
      parse "\x7b\"packages\": [ /* a */ \"go@1\", // b\n\"go@2\", \"e.@\" /* c\n */]\x7d".toList =
        .ok d ∧
      ∃ n, packages? d.root = some n ∧ ∃ es, n.array? = some es ∧
        (∀ e ∈ es.children, e.node.text?.isSome = true) ∧ Elements.Unlisted "jq".toList es := by
    decide +kernel
  have hes : packages? d.root = some (.array es) := by rw [hn, Node.array?_eq_some.1 harray]
  have hedit : EditsSettings "jq".toList
      (appendToList "jq".toList "platforms".toList ["x86_64-linux".toList]) :=
    editsSettings_appendToList (by simp)
  exact ⟨d, es, hd, hes, hstrings, hname, hedit,
    exists_parse_migration hd hes hstrings hname hedit⟩

end Document

end EnvManifest
