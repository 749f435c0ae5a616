import EnvManifest.Proofs.Edit.Path
import EnvManifest.Proofs.Reload
import EnvManifest.Proofs.Strict.Ink

/-!
# Appending to a list of a package

Values are appended to a list of a package in a document that was read. What the document says
then is what it said before, with the values at the end of that list and nothing else changed
(`Outline.appendToList?`): the list is made if it is missing, and an entry that is a version
becomes settings with that version. So it is in the tree always, and in the text if the request is
clear of comments (`Document.exists_parse_append`). If it is not, a line comment behind the last
value of the list may take in the first one appended (`Document.not_parse_append`), or a block
comment that goes on behind the last setting may take in the list.
-/

namespace EnvManifest

/-! ### Outlines with values appended -/

namespace Outline

/-- Texts as elements of an array. -/
def ofTexts (values : List Text) : List Outline :=
  values.map fun v => .string (.ofText v)

/-- An array with texts put at its end. -/
def pushTexts? (values : List Text) : Outline → Option Outline
  | .array es => some (.array (es ++ ofTexts values))
  | _ => none

/-- Settings with texts put at the end of the array in the first member of a name, or in a new
member if there is none. -/
def appendToSettings? (field : Text) (values : List Text) : Outline → Option Outline
  | .object ms =>
    if (names (.object ms)).contains field then
      updateAt? (pushTexts? values) [.key field] (.object ms)
    else some (.object (ms ++ [(.ofText field, .array (ofTexts values))]))
  | _ => none

/-- The settings of an entry that is an object or a version. -/
def settings? : Outline → Option Outline
  | .object ms => some (.object ms)
  | .string l =>
    some (.object (if l.value.isEmpty then []
      else [(.ofText "version".toList, .string (.ofText l.value))]))
  | _ => none

/-- The settings of an entry with texts put at the end of an array. -/
def appendToPackage? (field : Text) (values : List Text) (entry : Outline) : Option Outline :=
  entry.settings?.bind (appendToSettings? field values)

/-- **A manifest with values at the end of a list of a package.** Its packages have to be an
object, the package has to be an object or a version, and the list must not be anything but an
array. -/
def appendToList? (name : Text) (field : ListField) (values : List Text) (o : Outline) :
    Option Outline :=
  o.updateAt? (appendToPackage? field.key values) [.key packagesKey, .key name]

end Outline

/-! ### Entries with values appended -/

namespace Node

/-- The settings of an entry that is an object or a version. -/
def settings? : Node → Option Object
  | .object o => some o
  | .string l => some (settingsOf (.string l))
  | _ => none

/-- An array with texts put at its end. -/
def pushTexts? (values : List Text) : Node → Option Node
  | .array es => some (.array (pushTexts es values))
  | _ => none

theorem outline_settings? (n : Node) :
    n.settings?.map (fun o => outline (.object o)) = n.outline.settings? := by
  match n with
  | .object o =>
    rw [settings?, outline_object]
    simp [Outline.settings?]
  | .string ⟨[], raw⟩ => rfl
  | .string ⟨c :: cs, raw⟩ => rfl
  | .null | .bool b | .number t => rfl
  | .array es =>
    rw [outline_array]
    rfl

theorem map_outline_pushTexts (es : Elements) (values : List Text) :
    (pushTexts es values).children.map (fun e => e.node.outline) =
      es.children.map (fun e => e.node.outline) ++ Outline.ofTexts values := by
  rw [children_pushTexts, List.map_append, List.map_map]
  rfl

theorem outline_pushTexts? (values : List Text) (n : Node) :
    (n.pushTexts? values).map outline = n.outline.pushTexts? values := by
  cases n with
  | array es =>
    rw [pushTexts?, Option.map_some, outline_array, map_outline_pushTexts, outline_array]
    rfl
  | object o =>
    rw [outline_object]
    rfl
  | null | bool b | number t | string l => rfl

end Node

namespace Object

theorem names_outline (o : Object) :
    (Node.object o).outline.names = o.children.map Member.name := by
  simp [Outline.names, Member.name, Function.comp_def]

/-- The settings that an appending leaves, if it does not fail. -/
def appendToSettings? (name field : Text) (values : List Text) (o : Object) : Option Object :=
  match appendToSettings name field values o with
  | (.ok (), o') => some o'
  | (.error _, _) => none

theorem outline_appendToSettings? (name field : Text) (values : List Text) (o : Object) :
    (o.appendToSettings? name field values).map (fun o' => (Node.object o').outline) =
      (Node.object o).outline.appendToSettings? field values := by
  cases hs : spot? o field with
  | none =>
    have hname : field ∉ (Node.object o).outline.names := by
      rw [names_outline]
      exact not_mem_of_spotIn?_eq_none hs
    have hnew : (pushTexts Composite.new values).children.map (fun e => e.node.outline) =
        Outline.ofTexts values := Node.map_outline_pushTexts Composite.new values
    rw [Node.outline_object] at hname
    rw [appendToSettings?, appendToSettings, hs, Node.outline_object, Outline.appendToSettings?,
      if_neg (mt List.contains_iff_mem.1 hname)]
    simp [Member.onOwnLine, hnew]
  | some s =>
    have hname : field ∈ (Node.object o).outline.names := by
      rw [names_outline, ← name_of_spot? hs]
      exact List.mem_map_of_mem (mem_of_spot? hs)
    have hupdate := Node.outline_updateAt? (Node.outline_pushTexts? values) [.key field] (.object o)
    rw [Node.updateAt?_key hs, Option.map_map] at hupdate
    rw [Node.outline_object] at hname hupdate ⊢
    rw [appendToSettings?, appendToSettings, hs, Outline.appendToSettings?,
      if_pos (List.contains_iff_mem.2 hname), ← hupdate]
    dsimp only
    cases s.here.node with
    | array es => rfl
    | object ms => rfl
    | null | bool b | number t | string l => rfl

end Object

namespace Node

variable {name field : Text} {values : List Text}

/-- The entry that an appending leaves, if it does not fail. -/
def appendToPackage? (name field : Text) (values : List Text) (entry : Node) : Option Node :=
  entry.settings?.bind fun o => (o.appendToSettings? name field values).map .object

theorem outline_appendToPackage? (name field : Text) (values : List Text) (entry : Node) :
    (entry.appendToPackage? name field values).map outline =
      entry.outline.appendToPackage? field values := by
  rw [appendToPackage?, Outline.appendToPackage?, ← outline_settings?, Option.map_bind,
    Option.bind_map]
  congr 1
  funext o
  refine Eq.trans ?_ (Object.outline_appendToSettings? name field values o)
  exact Option.map_map outline object (o.appendToSettings? name field values)

theorem appendToPackage?_eq_some {entry n : Node}
    (h : entry.appendToPackage? name field values = some n) :
    ∃ o, appendToSettings name field values (settingsOf entry) = (.ok (), o) ∧ n = .object o := by
  obtain ⟨settings, hsettings, h⟩ := Option.bind_eq_some_iff.1 h
  obtain ⟨o, ho, rfl⟩ := Option.map_eq_some_iff.1 h
  have hentry : settingsOf entry = settings := by
    cases entry with
    | object o => exact Option.some.inj hsettings
    | string l => exact Option.some.inj hsettings
    | null | bool b | number t | array es => simp [settings?] at hsettings
  refine ⟨o, ?_, rfl⟩
  rw [hentry]
  rw [Object.appendToSettings?] at ho
  split at ho
  · rename_i o' heq
    rw [heq, Option.some.inj ho]
  · simp at ho

/-- Settings nest two deep. -/
theorem fits_appendToPackage? {d : Nat} {entry n : Node} (h : entry.Fits (d + 2))
    (hn : entry.appendToPackage? name field values = some n) : n.Fits (d + 2) := by
  obtain ⟨o, ho, rfl⟩ := appendToPackage?_eq_some hn
  have hputs := putsIn_appendToSettings name field values _ (fits_settingsOf h)
  rw [ho] at hputs
  exact fits_object.2 hputs

end Node

/-! ### Documents with values appended -/

namespace Document

variable {name : Text} {field : ListField} {values : List Text}

/-- **The edit** puts the new entry where the first one of the name was. -/
theorem appendToList_of_updateAt? {root : Object} {n : Node} (hvalues : values ≠ [])
    (h : (Node.object root).updateAt? (Node.appendToPackage? name field.key values)
      [.key packagesKey, .key name] = some n) :
    ∃ root', appendToList name field.key values root = (.ok (), root') ∧ n = .object root' := by
  obtain ⟨o, s, k, ho, hs, hk, rfl⟩ := Node.updateAt?_key_eq_some.1 h
  obtain rfl := Node.object.inj ho
  obtain ⟨pkgs, entry, m, hpkgs, hentry, hm, rfl⟩ := Node.updateAt?_key_eq_some.1 hk
  obtain ⟨settings, hsettings, rfl⟩ := Node.appendToPackage?_eq_some hm
  refine ⟨_, ?_, rfl⟩
  have hnode : (s.setNode (editablePackages true s.here.node)).here.node = .object pkgs := by
    change editablePackages true s.here.node = _
    rw [hpkgs]
    rfl
  rw [appendToList, if_neg (by simpa using hvalues), editSettings, packagesSpot, hs]
  dsimp only
  rw [hnode]
  dsimp only
  rw [hentry]
  dsimp only
  rw [hsettings]
  rfl

/-- Packages that have an entry by name are no array. -/
theorem listed_of_updateAt? {f : Node → Option Node} {root : Object} {n : Node}
    (h : (Node.object root).updateAt? f [.key packagesKey, .key name] = some n) : root.Listed := by
  obtain ⟨o, s, k, ho, hs, hk, -⟩ := Node.updateAt?_key_eq_some.1 h
  obtain ⟨pkgs, -, -, hpkgs, -⟩ := Node.updateAt?_key_eq_some.1 hk
  obtain rfl := Node.object.inj ho
  intro s' hs' es hes
  obtain rfl := Option.some.inj (hs.symm.trans hs')
  simp [hpkgs, Node.array?] at hes

/-- What a value with the outline of an object is read to has an object as its root. -/
theorem exists_parse_of_outline {s : Text} {v : Value} {root : Object} (hv : Value.parse s = .ok v)
    (houtline : v.node.outline = (Node.object root).outline) :
    ∃ d, parse s = .ok d ∧ d.toValue.node.outline = (Node.object root).outline := by
  obtain ⟨root', hnode⟩ := Node.exists_object_of_outline houtline
  rw [hnode] at houtline
  refine ⟨⟨v.lead, root', v.trail⟩, ?_, houtline⟩
  rw [parse, hv]
  simp only [ofValue?, hnode]

/-- **Appending to a list of a package loses nothing.** The edit does not fail, and the document
that it leaves is the one that was read with the values at the end of the list, whatever is in
its slots; and so is the document that is read of it, if the request is clear of comments. -/
theorem exists_parse_append {s : Text} {d : Document} {o : Outline} (h : parse s = .ok d)
    (hvalues : values ≠ [])
    (ho : d.toValue.node.outline.appendToList? name field values = some o) :
    ∃ d', d.edit (appendToList name field.key values) = (.ok (), d') ∧ d'.toValue.node.outline = o ∧
      ((Request.appendToList name field values).Clear d.root →
        ∃ w, parse d'.pack = .ok w ∧ w.toValue.node.outline = o) := by
  have hparse := parse_eq_ok.1 h
  have hsound := sound_of_parse hparse
  have hfits : d.toValue.node.Fits maxDepth :=
    (Value.orderly_of_readTo (Value.parse_eq_ok.1 hparse)).2.2.1.fits
  have houtline := Node.outline_updateAt? (Node.outline_appendToPackage? name field.key values)
    [.key packagesKey, .key name] d.toValue.node
  obtain ⟨n, hn, rfl⟩ := Option.map_eq_some_iff.1 (houtline.trans ho)
  obtain ⟨root', hroot, rfl⟩ := appendToList_of_updateAt? hvalues hn
  have hedit : d.edit (appendToList name field.key values) =
      (.ok (), format { d with root := root' }) := by
    rw [edit, hroot]
  have hformat := Value.outline_format (toValue { d with root := root' })
  rw [← toValue_format] at hformat
  refine ⟨_, hedit, hformat, fun hclear => ?_⟩
  have hpliant := (Request.appendToList name field values).pliant_leave hsound.root
    (listed_of_updateAt? hn) hclear
  rw [Request.leave, hroot] at hpliant
  have hfits' : (Node.object root').Fits maxDepth := by
    refine Node.fits_updateAt? (fun e k k' he hk hk' => ?_) hfits hn
    -- an entry stands two deep, which leaves room for its settings and their lists
    obtain rfl : e = 124 + 2 := Nat.add_right_cancel he.symm
    exact Node.fits_appendToPackage? hk hk'
  obtain ⟨w, hw, hread⟩ := Value.exists_parse_format_of_pliant
    (v := toValue { d with root := root' }) hsound.lead hfits' hpliant hsound.trail
  rw [← toValue_format] at hw
  exact exists_parse_of_outline hw hread

/-- The last output has a comma behind it, and its comment behind that comma. -/
theorem exists_parse_append_afterComma :
    ∃ d o,
      parse "\x7b\"packages\": \x7b\"go\": \x7b\"outputs\":[\"bin\", // main\n]\x7d\x7d\x7d".toList =
        .ok d ∧
      ["man".toList] ≠ [] ∧
      d.toValue.node.outline.appendToList? "go".toList .outputs ["man".toList] = some o ∧
      ∃ d',
        d.edit (appendToList "go".toList ListField.outputs.key ["man".toList]) = (.ok (), d') ∧
        d'.toValue.node.outline = o ∧ ∃ w, parse d'.pack = .ok w ∧ w.toValue.node.outline = o := by
  obtain ⟨d, hd, o, ho, hclear⟩ : ∃ d,
      parse
        "\x7b\"packages\": \x7b\"go\": \x7b\"outputs\":[\"bin\", // main\n]\x7d\x7d\x7d".toList =
          .ok d ∧
      ∃ o, d.toValue.node.outline.appendToList? "go".toList .outputs ["man".toList] = some o ∧
        (Request.appendToList "go".toList .outputs ["man".toList]).Clear d.root := by
    decide +kernel
  obtain ⟨d', hd', houtline, hread⟩ := exists_parse_append hd (by simp) ho
  exact ⟨d, o, hd, by simp, ho, d', hd', houtline, hread hclear⟩

/-- **The comment behind the last value may take in the one appended**: the text is read without
it. -/
theorem not_parse_append :
    ∃ d o d' w,
      parse "\x7b\"packages\": \x7b\"go\": \x7b\"outputs\":[\"bin\" // main\n]\x7d\x7d\x7d".toList =
        .ok d ∧
      d.toValue.node.outline.appendToList? "go".toList .outputs ["man".toList] = some o ∧
      d.edit (appendToList "go".toList ListField.outputs.key ["man".toList]) = (.ok (), d') ∧
        parse d'.pack = .ok w ∧ w.toValue.node.outline ≠ o := by
  obtain ⟨d, hd, o, ho, hok, w, hw, htext⟩ : ∃ d,
      parse "\x7b\"packages\": \x7b\"go\": \x7b\"outputs\":[\"bin\" // main\n]\x7d\x7d\x7d".toList =
        .ok d ∧
      ∃ o, d.toValue.node.outline.appendToList? "go".toList .outputs ["man".toList] = some o ∧
        (d.edit (appendToList "go".toList ListField.outputs.key ["man".toList])).1 = .ok () ∧
        ∃ w, parse (d.edit (appendToList "go".toList ListField.outputs.key
            ["man".toList])).2.pack = .ok w ∧
          w.toValue.node.outline.text ≠ o.text := by
    decide +kernel
  exact ⟨d, o, _, w, hd, ho, Prod.ext hok rfl, hw, mt (congrArg Outline.text) htext⟩

end Document

end EnvManifest
