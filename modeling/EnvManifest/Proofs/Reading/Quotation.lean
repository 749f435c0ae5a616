import EnvManifest.Proofs.Reading.Fault
import EnvManifest.Proofs.Reading.Pointed

/-!
# What a syntax error quotes

The offset of a syntax error and the character in its message are both taken from what was left of
the input where the parser stopped, so a message quotes the character at the offset. The one
exception is the character behind a backslash. There the message has the first octet of the
character in its place, as if that were a character by itself: right for the characters of ASCII,
and wrong for all others but `Ã`, which its own first octet happens to stand for
(`Value.quotesPlace_of_error`).
-/

namespace EnvManifest

/-! ### Characters at an offset -/

/-- The character that begins behind the first `n` octets of a text. -/
def Text.charAt? : Text → Nat → Option Char
  | [], _ => none
  | c :: s, n =>
    if n = 0 then some c else if n < c.utf8Size then none else Text.charAt? s (n - c.utf8Size)

theorem Text.charAt?_append (front : Text) (c : Char) (rest : Text) :
    Text.charAt? (front ++ c :: rest) (Text.utf8Length front) = some c := by
  induction front with
  | nil => rfl
  | cons d front ih =>
    have hpos := d.utf8Size_pos
    change Text.charAt? (d :: (front ++ c :: rest)) (d.utf8Size + Text.utf8Length front) = some c
    rw [Text.charAt?, if_neg (by omega), if_neg (by omega), Nat.add_sub_cancel_left, ih]

/-! ### Quoted characters -/

/-- What the message for a bad escape begins with. -/
def escapeLead : Text :=
  "invalid escape character ".toList

/-- What the messages that quote a character begin with. -/
def quoteLeads : List Text :=
  ["invalid character ".toList, "invalid control character ".toList, escapeLead]

/-- The character that a message quotes for `c`: behind a backslash it is what the first octet of
`c` stands for. -/
def quotedFor (lead : Text) (c : Char) : Char :=
  if lead = escapeLead then firstOctetChar c else c

namespace SyntaxError

/-- Behind `lead`, the message quotes `c`. -/
def Quotes (e : SyntaxError) (lead : Text) (c : Char) : Prop :=
  lead ++ quoteChar c ++ [' '] <+: e.text
deriving Decidable

/-- An error in a document quotes the character that begins at its offset, if it quotes one. -/
def QuotesPlace (e : SyntaxError) (document : Text) : Prop :=
  ∀ lead ∈ quoteLeads, lead <+: e.text →
    ∃ c ∈ document.charAt? e.position.offset, e.Quotes lead c

/-- The character at the offset is looked at; it is not searched for among all characters. -/
instance (e : SyntaxError) (document : Text) : Decidable (e.QuotesPlace document) :=
  haveI (lead : Text) : Decidable (∃ c ∈ document.charAt? e.position.offset, e.Quotes lead c) :=
    Option.decidableExistsMem _
  inferInstanceAs (Decidable (∀ lead ∈ quoteLeads, lead <+: e.text →
    ∃ c ∈ document.charAt? e.position.offset, e.Quotes lead c))

end SyntaxError

/-- A character stands for itself in a quotation, or begins with a backslash there. -/
theorem quotedChar_cases (quote c : Char) :
    quotedChar quote c = [c] ∨ (quotedChar quote c).head? = some '\\' := by
  rw [quotedChar]
  split_ifs <;> simp

/-- **A quotation tells the character**, if that one stands for itself in it. -/
theorem eq_of_quoteChar_isPrefix {c d : Char} {s : Text} (hd : quotedChar '\'' d = [d])
    (hslash : d ≠ '\\') (h : quoteChar c ++ [' '] <+: quoteChar d ++ s) : c = d := by
  have hinner : quotedChar '\'' c ++ ['\'', ' '] <+: d :: '\'' :: s := by
    rw [quoteChar, quoteChar, hd] at h
    simpa using h
  rcases quotedChar_cases '\'' c with hc | hc
  · rw [hc] at hinner
    obtain ⟨k, hk⟩ := hinner
    exact (List.cons.inj hk).1
  · obtain ⟨r, hr⟩ := List.head?_eq_some_iff.1 hc
    rw [hr] at hinner
    obtain ⟨k, hk⟩ := hinner
    exact absurd (List.cons.inj hk).1.symm hslash

/-! ### The first octet of a character -/

theorem firstOctetChar_of_lt {c : Char} (h : c.toNat < 0x80) : firstOctetChar c = c := by
  have hle : c.val.toNat ≤ 127 := Nat.le_of_lt_succ h
  have hmod : c.toNat % 256 = c.toNat := Nat.mod_eq_of_lt (by omega)
  rw [firstOctetChar, String.utf8EncodeChar, if_pos hle]
  simp [hmod]

/-- The first octet of a character beyond ASCII stands for a character from `À` to `ÿ`, and not for
the character itself, unless that is `Ã`. -/
theorem toNat_firstOctetChar {c : Char} (h : 0x80 ≤ c.toNat) :
    0xC0 ≤ (firstOctetChar c).toNat ∧ (firstOctetChar c).toNat < 0x100 ∧
      ((firstOctetChar c).toNat = c.toNat → c.toNat = 0xC3) := by
  have hchar : c.val.toNat = c.toNat := rfl
  have hoctet : ∀ n < 0x100, (Char.ofNat (UInt8.ofNat n).toNat).toNat = n := by decide +kernel
  rw [firstOctetChar, String.utf8EncodeChar]
  simp only [hchar]
  -- one case for each number of octets
  split_ifs
  · omega
  · have hfirst := hoctet (c.toNat / 64 % 32 + 192) (by omega)
    dsimp only
    omega
  · have hfirst := hoctet (c.toNat / 4096 % 16 + 224) (by omega)
    dsimp only
    omega
  · have hfirst := hoctet (c.toNat / 262144 % 8 + 240) (by omega)
    dsimp only
    omega

/-- **The first octet of a character stands for the character** in ASCII, and by chance for `Ã`. -/
theorem firstOctetChar_eq_iff {c : Char} :
    firstOctetChar c = c ↔ c.toNat < 0x80 ∨ c = 'Ã' := by
  constructor
  · intro h
    by_cases hc : c.toNat < 0x80
    · exact Or.inl hc
    · obtain ⟨-, -, hsame⟩ := toNat_firstOctetChar (Nat.le_of_not_lt hc)
      have hnat : c.toNat = 'Ã'.toNat := hsame (congrArg Char.toNat h)
      exact Or.inr (Char.toNat_inj.1 hnat)
  · rintro (hc | rfl)
    · exact firstOctetChar_of_lt hc
    · decide +kernel

/-- The characters from `À` to `ÿ` have shapes. -/
theorem isShapeless_eq_false {c : Char} (h : 0xC0 ≤ c.toNat) (h' : c.toNat < 0x100) :
    isShapeless c = false := by
  have hranges : ∀ r ∈ shapelessRanges, r.2 < 0xC0 ∨ 0x100 ≤ r.1 := by decide +kernel
  rw [isShapeless, List.any_eq_false]
  intro r hr
  simp only [Bool.and_eq_true, decide_eq_true_eq]
  have hrange := hranges r hr
  omega

/-- They stand for themselves in a quotation. -/
theorem quotedChar_of_lt {c : Char} (h : 0xC0 ≤ c.toNat) (h' : c.toNat < 0x100) :
    quotedChar '\'' c = [c] := by
  have hne : ∀ d : Char, d.toNat < 0xC0 → c ≠ d := by
    rintro d hd rfl
    omega
  have hshape : ¬isShapeless c = true := by simp [isShapeless_eq_false h h']
  have hquote : ¬(c = '\\' ∨ c = '\'') := not_or.2 ⟨hne _ (by decide), hne _ (by decide)⟩
  rw [quotedChar, if_neg (hne _ (by decide)), if_neg (hne _ (by decide)),
    if_neg (hne _ (by decide)), if_neg (hne _ (by decide)), if_neg hquote, if_neg hshape]

namespace SyntaxError

/-- A message that quotes what the first octet of a character stands for quotes the character
only if the two are the same. -/
theorem quotes_iff {e : SyntaxError} {lead : Text} {c : Char}
    (h : e.Quotes lead (firstOctetChar c)) : e.Quotes lead c ↔ firstOctetChar c = c := by
  constructor
  · intro hc
    by_cases hascii : c.toNat < 0x80
    · exact firstOctetChar_of_lt hascii
    · obtain ⟨hle, hlt, -⟩ := toNat_firstOctetChar (Nat.le_of_not_lt hascii)
      obtain ⟨words, hwords⟩ := h
      rw [Quotes, ← hwords, List.append_assoc, List.append_assoc, List.append_assoc,
        List.prefix_append_right_inj] at hc
      have hslash : firstOctetChar c ≠ '\\' := by
        intro heq
        rw [heq] at hle
        exact absurd hle (by decide)
      exact (eq_of_quoteChar_isPrefix (quotedChar_of_lt hle hlt) hslash hc).symm
  · intro heq
    rwa [heq] at h

end SyntaxError

/-! ### Messages -/

namespace Fault

/-- What the message of a fault begins with, if it quotes a character. -/
def lead? (f : Fault) : Option Text :=
  match f.cause, f.rest with
  | .unexpected _, _ :: _ => some "invalid character ".toList
  | .trailing, _ => some "invalid character ".toList
  | .slash, _ => some "invalid character ".toList
  | .controlInString, _ => some "invalid control character ".toList
  | .badEscape, _ => some escapeLead
  | _, _ => none

theorem quotedFor_of_ne {lead : Text} (h : lead ≠ escapeLead) (c : Char) : quotedFor lead c = c :=
  if_neg h

theorem quotedFor_escapeLead (c : Char) : quotedFor escapeLead c = firstOctetChar c :=
  if_pos rfl

/-- The text about a slash quotes a slash. -/
theorem slash_message : "invalid character '/' in whitespace".toList =
    "invalid character ".toList ++ quoteChar '/' ++ ([' '] ++ "in whitespace".toList) := by
  decide +kernel

/-- The message of a fault that speaks of a character quotes the first one that is left. -/
theorem exists_message_eq {f : Fault} {lead : Text} (hf : f.Pointed) (h : f.lead? = some lead) :
    ∃ c rest words, f.rest = c :: rest ∧
      f.message = lead ++ quoteChar (quotedFor lead c) ++ ([' '] ++ words) := by
  have hplain : ∀ c, quotedFor "invalid character ".toList c = c :=
    quotedFor_of_ne (by decide +kernel)
  have hcontrol : ∀ c, quotedFor "invalid control character ".toList c = c :=
    quotedFor_of_ne (by decide +kernel)
  obtain ⟨cause, rest⟩ := f
  cases cause with
  | unexpected e =>
    cases rest with
    | nil => simp [lead?] at h
    | cons c rest =>
      obtain rfl := Option.some.inj h
      refine ⟨c, rest, e.words, rfl, ?_⟩
      rw [hplain]
      rfl
  | trailing =>
    obtain rfl := Option.some.inj h
    obtain ⟨c, rest, rfl⟩ := List.exists_cons_of_ne_nil hf
    refine ⟨c, rest, "after top-level value".toList, rfl, ?_⟩
    rw [hplain]
    rfl
  | slash =>
    obtain rfl := Option.some.inj h
    obtain ⟨rest, rfl⟩ := List.head?_eq_some_iff.1 hf
    refine ⟨'/', rest, "in whitespace".toList, rfl, ?_⟩
    rw [hplain]
    exact slash_message
  | controlInString =>
    obtain rfl := Option.some.inj h
    obtain ⟨c, rest, rfl⟩ := List.exists_cons_of_ne_nil hf
    refine ⟨c, rest, "in string literal".toList, rfl, ?_⟩
    rw [hcontrol]
    rfl
  | badEscape =>
    obtain rfl := Option.some.inj h
    obtain ⟨c, rest, rfl⟩ := List.exists_cons_of_ne_nil hf
    refine ⟨c, rest, "in string literal".toList, rfl, ?_⟩
    rw [quotedFor_escapeLead]
    rfl
  | openComment => simp [lead?] at h
  | tooDeep => simp [lead?] at h
  | openString => simp [lead?] at h
  | badUnicodeEscape => simp [lead?] at h

/-- Of two fronts of one text, one is a front of the other: so a front `a` tells which of the leads
the text may begin with. -/
theorem eq_of_isPrefix {a s lead : Text} {o : Option Text}
    (ha : ∀ l ∈ quoteLeads, l <+: a ∨ a <+: l → o = some l) (hs : a <+: s)
    (hlead : lead ∈ quoteLeads) (h : lead <+: s) : o = some lead :=
  ha lead hlead (List.prefix_or_prefix_of_prefix h hs)

/-- The lead of a message is that of its fault. -/
theorem lead?_of_isPrefix {f : Fault} {lead : Text} (hlead : lead ∈ quoteLeads)
    (h : lead <+: f.message) : f.lead? = some lead := by
  have hfront (a middle words : Text) : a <+: a ++ middle ++ words :=
    (List.prefix_append a middle).trans (List.prefix_append _ words)
  obtain ⟨cause, rest⟩ := f
  cases cause with
  | unexpected e =>
    cases rest with
    | nil =>
      exact eq_of_isPrefix (a := "unexpected end of input ".toList) (o := none) (by decide)
        (List.prefix_append _ _) hlead h
    | cons c rest =>
      exact eq_of_isPrefix (o := some "invalid character ".toList) (by decide) (hfront _ _ _) hlead h
  | trailing =>
    exact eq_of_isPrefix (o := some "invalid character ".toList) (by decide) (hfront _ _ _) hlead h
  | slash =>
    exact eq_of_isPrefix (a := "invalid character '/' in whitespace".toList)
      (o := some "invalid character ".toList) (by decide) (List.prefix_refl _) hlead h
  | controlInString =>
    exact eq_of_isPrefix (o := some "invalid control character ".toList) (by decide) (hfront _ _ _)
      hlead h
  | badEscape =>
    exact eq_of_isPrefix (o := some escapeLead) (by decide) (hfront _ _ _) hlead h
  | openComment =>
    exact eq_of_isPrefix (a := "unterminated block comment".toList) (o := none) (by decide)
      (List.prefix_refl _) hlead h
  | tooDeep =>
    exact eq_of_isPrefix (o := none) (by decide) (List.prefix_append _ _) hlead h
  | openString =>
    exact eq_of_isPrefix (a := "unterminated string literal".toList) (o := none) (by decide)
      (List.prefix_refl _) hlead h
  | badUnicodeEscape =>
    exact eq_of_isPrefix (a := "invalid \\u escape in string literal".toList) (o := none) (by decide)
      (List.prefix_refl _) hlead h

end Fault

/-! ### Errors -/

namespace Value

/-- A fault in a document is reported at the character that is left first. -/
theorem charAt?_report {front rest : Text} {c : Char} {f : Fault} (h : f.rest = c :: rest) :
    (front ++ f.rest).charAt? (f.report (front ++ f.rest)).position.offset = some c := by
  rw [Fault.report, Position.of, Parser.consumed_append_self, h]
  exact Text.charAt?_append front c rest

/-- **A syntax error quotes the character that it points at**, unless that is an escaped one beyond
ASCII: what stands for a character behind a backslash in the message is its first octet. So what is
quoted is the character at the offset exactly if the error is about something else than an escape,
or about the escape of a character of ASCII, or of `Ã`. -/
theorem quotesPlace_of_error {s : Text} {e : SyntaxError} (h : parse s = .error e) :
    (∀ lead ∈ quoteLeads, lead <+: e.text →
      ∃ c ∈ s.charAt? e.position.offset, e.Quotes lead (quotedFor lead c)) ∧
    (e.QuotesPlace s ↔ (escapeLead <+: e.text →
      ∃ c ∈ s.charAt? e.position.offset, c.toNat < 0x80 ∨ c = 'Ã')) := by
  simp only [parse, read] at h
  split at h
  · simp at h
  · rename_i f hread
    obtain rfl := Except.error.inj h
    obtain ⟨front, -, -, rfl, -⟩ := exists_isDocument_of_readTo hread
    have hpointed := pointed_readTo maxDepth (front ++ f.rest) f hread
    -- what is quoted behind a lead that the message has
    have hquotes : ∀ lead ∈ quoteLeads, lead <+: f.message →
        ∃ c ∈ (front ++ f.rest).charAt? (f.report (front ++ f.rest)).position.offset,
          (f.report (front ++ f.rest)).Quotes lead (quotedFor lead c) := by
      intro lead hlead hmessage
      obtain ⟨c, rest, words, hrest, heq⟩ :=
        Fault.exists_message_eq hpointed (Fault.lead?_of_isPrefix hlead hmessage)
      refine ⟨c, charAt?_report hrest, words, ?_⟩
      rw [Fault.report, heq, List.append_assoc]
    refine ⟨hquotes, ?_⟩
    have hescape : escapeLead ∈ quoteLeads := by decide
    constructor
    · intro hplace hmessage
      obtain ⟨c, hc, hfirst⟩ := hquotes escapeLead hescape hmessage
      obtain ⟨d, hd, hquoted⟩ := hplace escapeLead hescape hmessage
      obtain rfl : c = d := Option.some.inj (hc.symm.trans hd)
      rw [Fault.quotedFor_escapeLead] at hfirst
      exact ⟨c, hc, firstOctetChar_eq_iff.1 ((SyntaxError.quotes_iff hfirst).1 hquoted)⟩
    · intro hplace lead hlead hmessage
      obtain ⟨c, hc, hquoted⟩ := hquotes lead hlead hmessage
      refine ⟨c, hc, ?_⟩
      by_cases hlead' : lead = escapeLead
      · subst hlead'
        obtain ⟨d, hd, hsame⟩ := hplace hmessage
        obtain rfl : c = d := Option.some.inj (hc.symm.trans hd)
        rw [Fault.quotedFor_escapeLead] at hquoted
        exact (SyntaxError.quotes_iff hquoted).2 (firstOctetChar_eq_iff.2 hsame)
      · rwa [Fault.quotedFor_of_ne hlead'] at hquoted

/-- A character of three octets behind one of two. -/
theorem quotesPlace_of_error_euro :
    ∃ e, parse "[\"é\", €]".toList = .error e ∧ "invalid character ".toList <+: e.text ∧
      (∃ c ∈ Text.charAt? "[\"é\", €]".toList e.position.offset,
        e.Quotes "invalid character ".toList (quotedFor "invalid character ".toList c)) ∧
      e.QuotesPlace "[\"é\", €]".toList := by
  obtain ⟨e, he, hlead, hescape⟩ : ∃ e, parse "[\"é\", €]".toList = .error e ∧
      "invalid character ".toList <+: e.text ∧ ¬escapeLead <+: e.text := by
    decide +kernel
  obtain ⟨hquotes, hplace⟩ := quotesPlace_of_error he
  exact ⟨e, he, hlead, hquotes _ (by decide) hlead, hplace.2 fun h => absurd h hescape⟩

/-- **What is quoted behind a backslash is another character**: the message for an escaped `é`
quotes `Ã`. -/
theorem not_quotesPlace_escape : ¬∀ s e, parse s = .error e → e.QuotesPlace s := by
  intro h
  obtain ⟨e, he, hplace⟩ : ∃ e, parse "\"\\é\"".toList = .error e ∧
      ¬e.QuotesPlace "\"\\é\"".toList := by
    decide +kernel
  exact hplace (h _ e he)

end Value

end EnvManifest
