import EnvManifest.Proofs.Standard
import EnvManifest.Proofs.Strict.Plain

/-!
# The minimal text is canonical

A datum has one spelling by default, `Datum.spelled`, and with nothing between its tokens that
is one text. The minimal text of a document is the one of its datum
(`Value.minimalText_eq_text`): nothing else of the document shows in it. It shows all of the
datum too, because it can be read again. So documents have the same minimal text, and with it
the same hash, exactly if they say the same (`Value.minimalText_canonical`).
-/

namespace EnvManifest

/-! ### The default spelling -/

mutual

/-- The outline of a datum, every string in its default spelling. -/
def Datum.spelled : Datum → Outline
  | .null => .null
  | .bool b => .bool b
  | .number t => .number t
  | .string s => .string (Literal.ofText s)
  | .object ms => .object (spelledMembers ms)
  | .array es => .array (spelledElements es)

/-- The outlines of members, every name in its default spelling. -/
def Datum.spelledMembers : List (Text × Datum) → List (Literal × Outline)
  | [] => []
  | (name, d) :: ms => (Literal.ofText name, Datum.spelled d) :: Datum.spelledMembers ms

/-- The outlines of elements. -/
def Datum.spelledElements : List Datum → List Outline
  | [] => []
  | d :: es => Datum.spelled d :: Datum.spelledElements es

end

namespace Datum

theorem spelledMembers_eq_map (ms : List (Text × Datum)) :
    spelledMembers ms = ms.map fun m => (Literal.ofText m.1, m.2.spelled) := by
  induction ms with
  | nil => rfl
  | cons m ms ih => simp [spelledMembers, ih]

theorem spelledElements_eq_map (es : List Datum) : spelledElements es = es.map spelled := by
  induction es with
  | nil => rfl
  | cons e es ih => simp [spelledElements, ih]

end Datum

/-! ### Minimal forms -/

namespace Node

/-- **The minimal form spells the datum of a tree**, whatever the spelling of the tree. -/
theorem outline_minimal : ∀ n : Node, n.minimal.outline = n.datum.spelled := by
  refine induction {
    null := rfl
    bool := fun _ => rfl
    number := fun _ => rfl
    string := fun _ => rfl
    object := fun ms ih => ?_
    array := fun es ih => ?_ }
  · rw [minimal_object, outline_object, datum_object, Datum.spelled, Datum.spelledMembers_eq_map,
      Composite.minimal, Composite.children_map, List.map_map, List.map_map, List.map_map]
    congr 1
    refine List.map_congr_left fun m hm => ?_
    simp [Child.minimal, Label.minimal, Literal.respell, Member.name, ih m hm]
  · rw [minimal_array, outline_array, datum_array, Datum.spelled, Datum.spelledElements_eq_map,
      Composite.minimal, Composite.children_map, List.map_map, List.map_map, List.map_map]
    congr 1
    refine List.map_congr_left fun e he => ?_
    simp [Child.minimal, ih e he]

/-- There is nothing in the slots of a minimal form. -/
theorem plain_minimal : ∀ n : Node, n.minimal.Plain Nothing := by
  refine everywhere_minimal fun n => ?_
  cases n with
  | object ms =>
    rw [minimal_object]
    refine ⟨fun m hm => ?_, rfl, rfl⟩
    obtain ⟨k, -, rfl⟩ := Composite.exists_of_mem_minimal hm
    refine ⟨rfl, fun t ht => ?_, rfl⟩
    rcases List.mem_pair.1 ht with rfl | rfl <;> rfl
  | array es =>
    rw [minimal_array]
    refine ⟨fun e he => ?_, rfl, rfl⟩
    obtain ⟨k, -, rfl⟩ := Composite.exists_of_mem_minimal he
    exact ⟨rfl, fun t ht => absurd ht List.not_mem_nil, rfl⟩
  | null | bool b | number t | string l => exact trivial

/-- A minimal form is minimal already. -/
theorem minimal_minimal : ∀ n : Node, n.minimal.minimal = n.minimal := by
  refine induction {
    null := rfl
    bool := fun _ => rfl
    number := fun _ => rfl
    string := fun _ => rfl
    object := fun ms ih => ?_
    array := fun es ih => ?_ }
  · rw [minimal_object, minimal_object]
    simp only [Composite.minimal, Composite.map, List.map_map]
    congr 2
    refine List.map_congr_left fun m hm => ?_
    simp [Child.minimal, Child.map, Label.minimal, Literal.respell, ih m hm]
  · rw [minimal_array, minimal_array]
    simp only [Composite.minimal, Composite.map, List.map_map]
    congr 2
    refine List.map_congr_left fun e he => ?_
    simp [Child.minimal, Child.map, Label.minimal, ih e he]

end Node

namespace Value

/-- **The minimal text of a document is that of its datum.** -/
theorem minimalText_eq_text (v : Value) : v.minimalText = v.node.datum.spelled.text := by
  rw [minimalText_eq, Node.pack_of_plain _ (Node.plain_minimal v.node), Node.outline_minimal]

/-- The minimal text is strict JSON with nothing between its tokens. -/
theorem isJson_minimalText {v : Value} {d : Nat} (hfits : v.node.Fits d) :
    IsJson Nothing v.minimal.node.outline v.minimalText :=
  isJson_pack blanks_nothing rfl (Node.fits_minimal v.node d hfits) (Node.plain_minimal v.node) rfl

end Value

/-! ### Documents as octets -/

namespace Value

theorem parseOctets_eq_ok {b : Octets} {v : Value} :
    parseOctets b = .ok v ↔ ∃ s, Text.ofUtf8 b = .ok s ∧ parse s = .ok v := by
  rw [parseOctets]
  cases Text.ofUtf8 b <;> simp

/-- What can be read fits the depth that is read to. -/
theorem fits_of_parseOctets {b : Octets} {v : Value} (h : parseOctets b = .ok v) :
    v.node.Fits maxDepth := by
  obtain ⟨s, -, hparse⟩ := parseOctets_eq_ok.1 h
  exact (orderly_of_readTo (parse_eq_ok.1 hparse)).2.2.1.fits

/-- The minimal text of what was read is read again. -/
theorem exists_parseOctets_minimalText {b : Octets} {v : Value} (h : parseOctets b = .ok v) :
    ∃ v', parseOctets (Text.utf8 v.minimalText) = .ok v' ∧ v'.node.datum = v.node.datum := by
  obtain ⟨v', hparse, hdatum⟩ := exists_parse_minimalText (fits_of_parseOctets h)
  exact ⟨v', parseOctets_eq_ok.2 ⟨_, Text.ofUtf8_utf8 _, hparse⟩, hdatum⟩

/-- **The minimal text is a canonical form.** Two documents have the same one exactly if they
say the same. It is strict JSON with nothing between its tokens, it is read again as what the
document says, and making it minimal once more changes nothing. -/
theorem minimalText_canonical {a b : Octets} {v w : Value} (ha : parseOctets a = .ok v)
    (hb : parseOctets b = .ok w) :
    (Text.utf8 v.minimalText = Text.utf8 w.minimalText ↔ v.node.datum = w.node.datum) ∧
    (∃ v', parseOctets (Text.utf8 v.minimalText) = .ok v' ∧ v'.node.datum = v.node.datum ∧
      v'.minimalText = v.minimalText) ∧
    IsJson Nothing v.minimal.node.outline v.minimalText ∧
    v.minimal.minimal = v.minimal := by
  have htext : ∀ {x y : Value}, x.node.datum = y.node.datum → x.minimalText = y.minimalText := by
    intro x y h
    rw [minimalText_eq_text, minimalText_eq_text, h]
  obtain ⟨v', hv', hdatum⟩ := exists_parseOctets_minimalText ha
  refine ⟨⟨fun h => ?_, fun h => congrArg Text.utf8 (htext h)⟩,
    ⟨v', hv', hdatum, htext hdatum⟩, isJson_minimalText (fits_of_parseOctets ha), ?_⟩
  -- both minimal texts are read again, and being one text they are read as one value
  · obtain ⟨w', hw', hdatum'⟩ := exists_parseOctets_minimalText hb
    rw [← h, hv'] at hw'
    obtain rfl : v' = w' := Except.ok.inj hw'
    rw [← hdatum, hdatum']
  · simp only [minimal, Node.minimal_minimal]

/-- A document with comments, an escape in a name and a trailing comma, and one without. -/
theorem minimalText_canonical_commented :
    ∃ v w, parseOctets (Text.utf8 "\x7b // go\n \"\\u0061\": [1.0, \"/*\",], \x7d".toList) = .ok v ∧
      parseOctets (Text.utf8 "\x7b\"a\":[1.0,\"/*\"]\x7d".toList) = .ok w ∧
      v.node.datum = w.node.datum ∧ IsJson Nothing v.minimal.node.outline v.minimalText := by
  obtain ⟨v, hv, w, hw, htext⟩ : ∃ v,
      parseOctets (Text.utf8 "\x7b // go\n \"\\u0061\": [1.0, \"/*\",], \x7d".toList) = .ok v ∧
      ∃ w, parseOctets (Text.utf8 "\x7b\"a\":[1.0,\"/*\"]\x7d".toList) = .ok w ∧
        v.minimalText = w.minimalText := by
    decide +kernel
  have hcanonical := minimalText_canonical hv hw
  exact ⟨v, w, hv, hw, hcanonical.1.1 (congrArg Text.utf8 htext), hcanonical.2.2.1⟩

end Value

end EnvManifest
