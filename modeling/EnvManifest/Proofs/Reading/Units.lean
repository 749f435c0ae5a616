import EnvManifest.Proofs.Canonical
import EnvManifest.Proofs.Reading.Exact

/-!
# String literals as UTF-16 units

What a string literal stands for, said without a reader that looks ahead: its characters and
escapes denote UTF-16 units, one after the other (`Utf16.denoted`), and units stand for a text, in
which two surrogates that belong together are one character and any other surrogate is U+FFFD
(`Utf16.decode`). Nothing is lost on the way from a text to its units and back
(`Utf16.decode_units_append`).

A reader decides at each escape whether it is the first half of a pair. That this is what the units
say rests on one observation: only the escape of a low surrogate denotes units that begin with one
(`Utf16.lowSurrogateFirst_of_denoted`). So every literal of a document stands for its units, and a
text in its canonical spelling is read as the literal that stands for it
(`Value.decode_literals`).
-/

namespace EnvManifest

namespace Utf16

/-! ### Units -/

/-- The units of a character. -/
def units (c : Char) : List Nat :=
  if c.toNat < 0x10000 then [c.toNat]
  else [0xD800 + (c.toNat - 0x10000) / 0x400, 0xDC00 + (c.toNat - 0x10000) % 0x400]

/-- The text that units stand for: a high surrogate in front of a low one is one character with
it, and every other surrogate is replaced. -/
def decode : List Nat → Text
  | [] => []
  | [u] => [aloneChar u]
  | u :: v :: us =>
    if IsHigh u ∧ IsLow v then pairedChar u v :: decode us else aloneChar u :: decode (v :: us)

/-- The number that hexadecimal digits stand for. -/
def hexadecimal (digits : Text) : Nat :=
  digits.foldl (fun n c => n * 16 + (hexValue? c).getD 0) 0

/-- The units that the characters and escapes of the body of a literal denote, in order. -/
def denoted : Text → List Nat
  | [] => []
  | '\\' :: 'u' :: a :: b :: c :: d :: rest => hexadecimal [a, b, c, d] :: denoted rest
  | '\\' :: c :: rest => ((escapes.lookup c).map units).getD [] ++ denoted rest
  | c :: rest => units c ++ denoted rest

/-! ### A text and its units -/

theorem decode_cons {u : Nat} {us : List Nat}
    (h : IsHigh u → ∀ v ∈ us.head?, ¬IsLow v) : decode (u :: us) = aloneChar u :: decode us := by
  cases us with
  | nil => rfl
  | cons v us => rw [decode, if_neg fun hpair => h hpair.1 v rfl hpair.2]

theorem decode_pair {u v : Nat} (hu : IsHigh u) (hv : IsLow v) (us : List Nat) :
    decode (u :: v :: us) = pairedChar u v :: decode us := by
  rw [decode, if_pos ⟨hu, hv⟩]

/-- **The units of a character stand for it**, whatever is behind them. -/
theorem decode_units_append (c : Char) (us : List Nat) :
    decode (units c ++ us) = c :: decode us := by
  have hvalid : c.toNat < 0xD800 ∨ 0xDFFF < c.toNat ∧ c.toNat < 0x110000 := c.valid
  rw [units]
  split
  · rw [List.singleton_append, decode_cons fun h => absurd h (not_surrogate c).1, aloneChar_toNat]
  · -- a character of two units is put together from what they leave
    rename_i hwide
    have hpair : pairedChar (0xD800 + (c.toNat - 0x10000) / 0x400)
        (0xDC00 + (c.toNat - 0x10000) % 0x400) = c := by
      have hvalue : 0x10000 + ((0xD800 + (c.toNat - 0x10000) / 0x400) % 0x400 * 0x400 +
          (0xDC00 + (c.toNat - 0x10000) % 0x400) % 0x400) = c.toNat := by
        omega
      rw [pairedChar, hvalue, Char.ofNat_toNat]
    rw [List.cons_append, List.singleton_append, decode_pair, hpair]
    · simp only [IsHigh]
      omega
    · simp only [IsLow]
      omega

/-- The first unit of a character is no low surrogate. -/
theorem not_isLow_units (c : Char) (us : List Nat) : ∀ v ∈ (units c ++ us).head?, ¬IsLow v := by
  have hvalid : c.toNat < 0xD800 ∨ 0xDFFF < c.toNat ∧ c.toNat < 0x110000 := c.valid
  intro v hv
  rw [units] at hv
  split at hv
  · obtain rfl : c.toNat = v := by simpa using hv
    exact (not_surrogate c).2
  · obtain rfl : 0xD800 + (c.toNat - 0x10000) / 0x400 = v := by simpa using hv
    simp only [IsLow]
    omega

/-! ### The units of a body -/

theorem denoted_plain {c : Char} (h : c ≠ '\\') (s : Text) :
    denoted (c :: s) = units c ++ denoted s := by
  rw [denoted] <;> simp [h]

theorem denoted_short {c d : Char} (h : escapes.lookup c = some d) (s : Text) :
    denoted ('\\' :: c :: s) = units d ++ denoted s := by
  have hu : c ≠ 'u' := by
    rintro rfl
    simp at h
  rw [denoted, h]
  · rfl
  · simp [hu]

theorem denoted_unit {t : Text} {u : Nat} (h : IsUnit t u) (s : Text) :
    denoted ('\\' :: 'u' :: (t ++ s)) = u :: denoted s := by
  obtain ⟨ha, hb, hc, hd⟩ := h
  simp [denoted, hexadecimal, ha, hb, hc, hd]

/-- Units that begin with a low surrogate are those of a body that begins with its escape. -/
theorem lowSurrogateFirst_of_denoted {body v : Text} (h : Spells body v) {u : Nat}
    (hu : u ∈ (denoted body).head?) (hlow : IsLow u) : LowSurrogateFirst body := by
  cases h with
  | nil => simp [denoted] at hu
  | @plain c s v _ _ hslash _ =>
    rw [denoted_plain hslash] at hu
    exact absurd hlow (not_isLow_units c _ u hu)
  | @short c d s v hshort _ =>
    rw [denoted_short hshort] at hu
    exact absurd hlow (not_isLow_units d _ u hu)
  | @unit t w s v hunit _ _ =>
    rw [denoted_unit hunit] at hu
    obtain rfl : w = u := by simpa using hu
    exact ⟨t, w, s, rfl, hunit, hlow⟩
  | @pair t₁ t₂ high low s v hhigh hhigh' _ _ _ =>
    rw [denoted_unit hhigh] at hu
    obtain rfl : high = u := by simpa using hu
    exact absurd hhigh' hlow.not_isHigh

/-- **A body stands for its units.** -/
theorem decode_denoted {body v : Text} (h : Spells body v) : decode (denoted body) = v := by
  induction h with
  | nil => rfl
  | plain _ _ hslash _ ih => rw [denoted_plain hslash, decode_units_append, ih]
  | short hshort _ ih => rw [denoted_short hshort, decode_units_append, ih]
  | @unit t u s v hunit hlow hs ih =>
    -- a high surrogate by itself is not followed by the unit of a low one
    rw [denoted_unit hunit, decode_cons, ih]
    intro hhigh w hw hw'
    exact hlow ⟨hhigh, lowSurrogateFirst_of_denoted hs hw hw'⟩
  | @pair t₁ t₂ high low s v hhigh hhigh' hlow hlow' _ ih =>
    rw [denoted_unit hhigh, denoted_unit hlow, decode_pair hhigh' hlow', ih]

end Utf16

/-! ### Literals -/

/-- A literal stands for the units of what is between its quotes. -/
def Literal.StandsForUnits (l : Literal) : Prop :=
  ∃ body, l.raw = '"' :: (body ++ ['"']) ∧ l.value = Utf16.decode (Utf16.denoted body)

theorem IsLiteral.standsForUnits {l : Literal} (h : IsLiteral l) : l.StandsForUnits := by
  obtain ⟨body, hraw, hbody⟩ := h
  exact ⟨body, hraw, (Utf16.decode_denoted hbody).symm⟩

namespace Node

/-- The literals of a node, kind by kind: names and strings. -/
def collecting : Algebra (List Literal) where
  null := []
  bool _ := []
  number _ := []
  string l := [l]
  object ms := ms.children.flatMap fun m => m.label.name :: m.node
  array es := es.children.flatMap fun e => e.node

/-- The literals of a node, in order. -/
def literals (n : Node) : List Literal :=
  fold collecting n

theorem literals_object (ms : Object) :
    literals (.object ms) = ms.children.flatMap fun m => m.label.name :: m.node.literals := by
  rw [literals, fold_object]
  simp [collecting, literals, List.flatMap_map]

theorem literals_array (es : Elements) :
    literals (.array es) = es.children.flatMap fun e => e.node.literals := by
  rw [literals, fold_array]
  simp [collecting, literals, List.flatMap_map]

/-- The literals of a tree that fits are spelled as the grammar wants it. -/
theorem isLiteral_of_mem_literals : ∀ (n : Node) (d : Nat), n.Fits d →
    ∀ l ∈ n.literals, IsLiteral l := by
  refine induction {
    null := fun _ _ _ hl => absurd hl List.not_mem_nil
    bool := fun _ _ _ _ hl => absurd hl List.not_mem_nil
    number := fun _ _ _ _ hl => absurd hl List.not_mem_nil
    string := fun l d hfits k hk => ?_
    object := fun ms ih d hfits l hl => ?_
    array := fun es ih d hfits l hl => ?_ }
  · obtain rfl := List.mem_singleton.1 hk
    exact fits_string.1 hfits
  · obtain ⟨d, rfl, hms⟩ := fits_object_iff.1 hfits
    rw [literals_object] at hl
    obtain ⟨m, hm, hl⟩ := List.mem_flatMap.1 hl
    rcases List.mem_cons.1 hl with rfl | hl
    · exact (hms m hm).1 _ (by simp [Named.names])
    · exact ih m hm d (hms m hm).2 l hl
  · obtain ⟨d, rfl, hes⟩ := fits_array_iff.1 hfits
    rw [literals_array] at hl
    obtain ⟨e, he, hl⟩ := List.mem_flatMap.1 hl
    exact ih e he d (hes e he).2 l hl

end Node

namespace Value

/-- A literal by itself is a document. -/
theorem parse_raw {l : Literal} (h : IsLiteral l) :
    parse l.raw = .ok ⟨[], (), .string l, [], false⟩ := by
  have hread : (Node.string l).AsRead := Node.everywhere_string.2 trivial
  have hparse := parse_pack (v := ⟨[], (), .string l, [], false⟩) .nil (Node.fits_string.2 h) hread
    Gap.nil.whole rfl
  have hpack : pack ⟨[], (), .string l, [], false⟩ = l.raw := by
    change [] ++ l.raw ++ [] = l.raw
    rw [List.nil_append, List.append_nil]
  rwa [hpack] at hparse

/-- **Literals are decoded and spelled by their units.** Every literal of a document that is
accepted, name or string, stands for the UTF-16 units that its characters and escapes denote, with
U+FFFD for every surrogate that is not in a pair. And the canonical spelling of any text is accepted
as the literal that stands for the text. -/
theorem decode_literals :
    (∀ {s : Text} {v : Value}, parse s = .ok v → ∀ l ∈ v.node.literals, l.StandsForUnits) ∧
      ∀ x : Text,
        parse (Literal.spell x) = .ok ⟨[], (), .string ⟨x, Literal.spell x⟩, [], false⟩ := by
  constructor
  · intro s v h l hl
    obtain ⟨-, -, hnode, -⟩ := orderly_of_readTo (parse_eq_ok.1 h)
    exact (Node.isLiteral_of_mem_literals v.node maxDepth hnode.fits l hl).standsForUnits
  · intro x
    exact parse_raw (isLiteral_ofText x)

/-- Two halves of a pair in the wrong order, then a pair, behind a name with an escape; and a text
with a quote, a control character and a character of two units. -/
theorem decode_literals_surrogates :
    (∃ v, parse "\x7b\"a\\n\": \"\\udc00\\ud83d\\ud83d\\ude00\"\x7d".toList = .ok v ∧
      ∀ l ∈ v.node.literals, l.StandsForUnits) ∧
      ∃ v, parse (Literal.spell "\"\t😀".toList) = .ok v ∧
        v.node = .string (Literal.ofText "\"\t😀".toList) := by
  obtain ⟨v, hv⟩ : ∃ v,
      parse "\x7b\"a\\n\": \"\\udc00\\ud83d\\ud83d\\ude00\"\x7d".toList = .ok v := by
    decide +kernel
  exact ⟨⟨v, hv, decode_literals.1 hv⟩, _, decode_literals.2 _, rfl⟩

end Value

end EnvManifest
