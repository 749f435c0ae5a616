import EnvManifest.Proofs.Canonical
import EnvManifest.Proofs.Edit.Packages

/-!
# Entries are read back

The settings of a package are written as an object that leaves out what a missing field stands
for, and read from null, a version or an object. The one is undone by the other
(`Package.reads_json`): what is left out is what the reader fills in, and as the patch mode is
always written, the older field for it is not consulted, though it is written too and comes back.

Two things make this work. Each optional field that is written or left out sets a field of what
is decoded (`EntryFields.Decodes.field`), and a tree that is built with nothing in its slots is
read as what it denotes (`Node.exists_parse_of_minimal`).
-/

namespace EnvManifest

open Datum (HasField)

/-! ### Trees with nothing in their slots -/

namespace Node

variable {d : Nat}

theorem datum_strictObject (members : List (Text × Node)) :
    (strictObject members).datum = .object (members.map fun m => (m.1, m.2.datum)) := by
  simp [strictObject, Member.name, Function.comp_def]

theorem datum_ofTexts (texts : List Text) :
    (ofTexts texts).datum = .array (texts.map Datum.string) := by
  rw [ofTexts, strictArray, datum_array, List.map_map, List.map_map]
  rfl

/-- An array of strings is read as the strings. -/
theorem decodeTexts_ofTexts (texts : List Text) : (ofTexts texts).datum.decodeTexts = .ok texts := by
  rw [datum_ofTexts]
  exact decodeTexts_map_string texts

theorem minimal_ofTexts (texts : List Text) : (ofTexts texts).minimal = ofTexts texts := by
  refine minimal_strictArray fun n hn => ?_
  obtain ⟨s, -, rfl⟩ := List.mem_map.1 hn
  exact minimal_ofText s

theorem fits_strictObject {members : List (Text × Node)} (h : ∀ m ∈ members, m.2.Fits d) :
    (strictObject members).Fits (d + 1) := by
  rw [strictObject, fits_object]
  intro m hm
  obtain ⟨e, he, rfl⟩ := List.mem_map.1 hm
  exact ⟨by simpa [Named.names] using isLiteral_ofText e.1, h e he⟩

theorem fits_ofTexts (texts : List Text) : (ofTexts texts).Fits (d + 1) := by
  rw [ofTexts, strictArray, fits_array]
  intro e he
  obtain ⟨n, hn, rfl⟩ := List.mem_map.1 he
  obtain ⟨s, -, rfl⟩ := List.mem_map.1 hn
  exact ⟨by simp [Named.names], fits_ofText s⟩

/-- **A minimal tree is written as strict JSON and read as what it denotes.** -/
theorem exists_parse_of_minimal {n : Node} (hminimal : n.minimal = n) (hfits : n.Fits maxDepth) :
    ∃ v, Value.parse n.pack = .ok v ∧ IsJson Nothing v.node.outline n.pack ∧
      v.node.datum = n.datum := by
  let bare : Value := ⟨[], (), n, [], false⟩
  have hbare : bare.minimal = bare := congrArg (fun k => (⟨[], (), k, [], false⟩ : Value)) hminimal
  have hpack : bare.pack = n.pack := by simp [bare, Value.pack]
  have hlegible : n.Legible := by
    rw [← hminimal]
    exact n.legible_minimal
  obtain ⟨v, hparse, houtline⟩ := Value.exists_parse_pack (v := bare) .nil hfits hlegible
    Gap.nil.whole
  have hjson : IsJson Nothing bare.minimal.node.outline bare.minimalText :=
    Value.isJson_minimalText (v := bare) hfits
  rw [Value.minimalText, hbare, hpack] at hjson
  exact ⟨v, hpack ▸ hparse, houtline ▸ hjson, by rw [datum_eq, houtline, ← datum_eq]⟩

end Node

/-! ### Fields that are written or left out -/

namespace EntryFields

/-- Members are decoded as the fields of an entry, and have no names but those of a list. -/
structure Decodes (names : List Text) (members : List (Text × Node)) (t : EntryFields) : Prop where
  decodes : Datum.decodeMembers fields [] (members.map fun m => (m.1, m.2.datum)) (ofVersion []) =
    .ok t
  names : members.map Prod.fst ⊆ names

theorem decodes_nil : Decodes [] [] (ofVersion []) :=
  ⟨rfl, List.Subset.refl _⟩

variable {names : List Text} {members : List (Text × Node)} {t : EntryFields} {α : Type}
  {decode : Datum → Decoded α} {set : α → EntryFields → EntryFields}

/-- **A field behind others is set** to what is written for it or, if it is left out, to what a
missing one stands for. -/
theorem Decodes.field (h : Decodes names members t) (name : String) (present : Bool) (n : Node)
    (a : α) (hf : HasField fields name.toList decode set) (hname : name.toList ∉ names)
    (hpresent : present = true → decode n.datum = .ok a)
    (habsent : present = false → set a (ofVersion []) = ofVersion []) :
    Decodes (name.toList :: names) (members ++ Package.optionalField present name n) (set a t) := by
  have hfresh : name.toList ∉ (members.map fun m => (m.1, m.2.datum)).map Prod.fst := by
    rw [List.map_map]
    exact fun hin => hname (h.names hin)
  have hnames : members.map Prod.fst ⊆ name.toList :: names := List.subset_cons_of_subset _ h.names
  cases present with
  | true =>
    constructor
    · rw [List.map_append]
      exact Datum.decodeMembers_append hf h.decodes hfresh (hpresent rfl)
    · rw [List.map_append]
      exact List.append_subset.2 ⟨hnames, List.cons_subset_cons _ (List.nil_subset _)⟩
  | false =>
    have hunset : t = set a t := Datum.decodeMembers_unset hf h.decodes hfresh (habsent rfl)
    rw [← hunset, Package.optionalField, if_neg Bool.false_ne_true, List.append_nil]
    exact ⟨h.decodes, hnames⟩

/-- A list is left out if it is empty. -/
theorem Decodes.list (h : Decodes names members t) (field : ListField) (name : String)
    (texts : List Text) (hkey : field.key = name.toList) (hname : name.toList ∉ names) :
    Decodes (name.toList :: names)
      (members ++ Package.optionalField (!texts.isEmpty) name (Node.ofTexts texts))
      (field.write texts t) := by
  refine h.field name _ _ texts (hkey ▸ hasField_list field) hname
    (fun _ => Node.decodeTexts_ofTexts texts) fun habsent => ?_
  have hnil : texts = [] := by simpa using habsent
  rw [hnil]
  cases field <;> rfl

/-- A switch is left out if it is off. -/
theorem Decodes.switch (h : Decodes names members t) {set : Bool → EntryFields → EntryFields}
    (name : String) (on : Bool) (hf : HasField fields name.toList Datum.decodeBool set)
    (hname : name.toList ∉ names) (hoff : set false (ofVersion []) = ofVersion []) :
    Decodes (name.toList :: names) (members ++ Package.optionalField on name (.bool true))
      (set on t) :=
  h.field name on _ on hf hname (fun hon => by rw [hon]; rfl) fun habsent => by rw [habsent, hoff]

/-- The fields that the settings of a package are written as. -/
def ofPackage (p : Package) : EntryFields :=
  ⟨p.version, p.disablePlugin, p.platforms, p.excludedPlatforms, p.patchGlibc, some p.patch.toText,
    p.outputs, p.allowInsecure⟩

/-- **What is written of a package is decoded as its fields.** -/
theorem decodeMembers_writtenFields (p : Package) :
    Datum.decodeMembers fields [] (p.writtenFields.map fun m => (m.1, m.2.datum)) (ofVersion []) =
      .ok (ofPackage p) := by
  have hversion := decodes_nil.field "version" (!p.version.isEmpty) (Node.ofText p.version) p.version
    hasField_version (by simp) (fun _ => rfl) fun habsent => by
      have hnil : p.version = [] := by simpa using habsent
      rw [hnil]
      rfl
  have hplugin := hversion.switch "disable_plugin" p.disablePlugin hasField_disablePlugin
    (by decide) rfl
  have hplatforms := hplugin.list .platforms "platforms" p.platforms rfl (by decide)
  have hexcluded := hplatforms.list .excludedPlatforms "excluded_platforms" p.excludedPlatforms rfl
    (by decide)
  have hglibc := hexcluded.switch "patch_glibc" p.patchGlibc hasField_patchGlibc (by decide) rfl
  -- the mode is always written
  have hpatch := hglibc.field "patch" true (Node.ofText p.patch.toText) (some p.patch.toText)
    hasField_patch (by decide) (fun _ => rfl) fun habsent => absurd habsent (by decide)
  have houtputs := hpatch.list .outputs "outputs" p.outputs rfl (by decide)
  have hinsecure := houtputs.list .allowInsecure "allow_insecure" p.allowInsecure rfl (by decide)
  exact hinsecure.decodes

theorem patchMode_ofPackage (p : Package) : (ofPackage p).patchMode = .ok p.patch := by
  rw [patchMode, ofPackage]
  cases p.patch <;> rfl

end EntryFields

/-! ### Packages -/

namespace Package

/-- The settings of a package as strict JSON. -/
def json (p : Package) : Text :=
  p.toNode.pack

/-- A text is strict JSON and read as the entry of a package, which it does not name. -/
def Reads (s : Text) (p : Package) : Prop :=
  ∃ v, Value.parse s = .ok v ∧ IsJson Nothing v.node.outline s ∧ decode [] v.node.datum = .ok p

/-- What is written of a package is decoded as the package, under any name. -/
theorem decode_toNode (name : Text) (p : Package) :
    decode name p.toNode.datum = .ok { p with name := name } := by
  rw [toNode, Node.datum_strictObject, decode, EntryFields.decodeMembers_writtenFields]
  exact EntryFields.toPackage_eq_ok.2 ⟨p.patch, EntryFields.patchMode_ofPackage p, rfl⟩

theorem forall_writtenFields {P : Node → Prop} (p : Package) (hbool : P (.bool true))
    (htext : ∀ s, P (Node.ofText s)) (htexts : ∀ texts, P (Node.ofTexts texts)) :
    ∀ m ∈ p.writtenFields, P m.2 := by
  have hfield : ∀ {present : Bool} {name : String} {n : Node}, P n →
      ∀ m ∈ optionalField present name n, P m.2 := by
    intro present name n hn m hm
    rw [optionalField] at hm
    split at hm
    · obtain rfl := List.mem_singleton.1 hm
      exact hn
    · simp at hm
  intro m hm
  simp only [writtenFields, List.mem_append] at hm
  rcases hm with ((((((hm | hm) | hm) | hm) | hm) | hm) | hm) | hm
  · exact hfield (htext _) m hm
  · exact hfield hbool m hm
  · exact hfield (htexts _) m hm
  · exact hfield (htexts _) m hm
  · exact hfield hbool m hm
  · obtain rfl := List.mem_singleton.1 hm
    exact htext _
  · exact hfield (htexts _) m hm
  · exact hfield (htexts _) m hm

theorem minimal_toNode (p : Package) : p.toNode.minimal = p.toNode :=
  Node.minimal_strictObject
    (p.forall_writtenFields (P := fun n => n.minimal = n) rfl Node.minimal_ofText
      Node.minimal_ofTexts)

theorem fits_toNode (p : Package) : p.toNode.Fits maxDepth :=
  Node.fits_strictObject (d := 127)
    (p.forall_writtenFields Node.fits_bool Node.fits_ofText Node.fits_ofTexts)

/-- What is written of a package is read as the package without its name. -/
theorem reads_json_self (p : Package) : Reads p.json { p with name := [] } := by
  obtain ⟨v, hparse, hjson, hdatum⟩ := Node.exists_parse_of_minimal p.minimal_toNode p.fits_toNode
  exact ⟨v, hparse, hjson, by rw [hdatum, decode_toNode]⟩

/-- **Reading an entry undoes writing it.** What is written of a package, whatever its settings,
is read as the package without its name; so an entry that is decoded, from whatever it was
written as, and written again is read as the package that it was decoded as. -/
theorem reads_json :
    (∀ p : Package, Reads p.json { p with name := [] }) ∧
    ∀ d p, decode [] d = .ok p → Reads p.json p := by
  refine ⟨reads_json_self, fun d p h => ?_⟩
  have hname : { p with name := [] } = p := by rw [← name_of_decode h]
  exact hname ▸ reads_json_self p

/-- An entry in the older form, whose empty patch mode stands for `always`. -/
theorem reads_json_glibc :
    ∃ p, decode [] (.object [("patch_glibc".toList, .bool true),
        ("patch".toList, .string [])]) = .ok p ∧
      p.patch = .always ∧ p.patchGlibc = true ∧ Reads p.json p := by
  have hdecode : decode [] (.object [("patch_glibc".toList, .bool true),
      ("patch".toList, .string [])]) = .ok ⟨[], [], false, [], [], true, .always, [], []⟩ := rfl
  exact ⟨_, hdecode, rfl, rfl, reads_json.2 _ _ hdecode⟩

end Package

end EnvManifest
