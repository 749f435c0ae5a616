import EnvManifest.Document.Parser.Basic
import EnvManifest.Document.Literal

/-!
# Reading a string literal

A string literal is read to the text it stands for. An escape of the form `\uXXXX`
denotes a UTF-16 unit: a high surrogate followed by the escape of a low one denotes
one character, and a surrogate that is not part of such a pair is replaced by
U+FFFD. When the escape behind a high surrogate turns out to be something else, it
is left unread and denotes a character of its own.
-/

namespace EnvManifest

/-! ### Units -/

/-- Whether a unit is the first of a surrogate pair. -/
def isHighSurrogate (u : Nat) : Bool :=
  0xD800 ≤ u && u < 0xDC00

/-- Whether a unit is the second of a surrogate pair. -/
def isLowSurrogate (u : Nat) : Bool :=
  0xDC00 ≤ u && u < 0xE000

/-- The character that stands for a unit which denotes none. -/
def replacement : Char := '\ufffd'

/-- The character of a unit by itself. -/
def unitChar (u : Nat) : Char :=
  if isHighSurrogate u || isLowSurrogate u then replacement else Char.ofNat u

/-- The character of a surrogate pair. -/
def pairChar (high low : Nat) : Char :=
  Char.ofNat (0x10000 + (high - 0xD800) * 0x400 + (low - 0xDC00))

/-- The character of a one-letter escape. -/
def shortEscape? : Char → Option Char
  | '"' => some '"'
  | '\\' => some '\\'
  | '/' => some '/'
  | 'b' => some '\x08'
  | 'f' => some '\x0c'
  | 'n' => some '\n'
  | 'r' => some '\r'
  | 't' => some '\t'
  | _ => none

/-- The unit of the four hexadecimal digits at the front of a text. -/
def readUnit : Text → Except Fault (Nat × Text)
  | a :: b :: c :: d :: rest =>
    match Text.hexDigit? a, Text.hexDigit? b, Text.hexDigit? c, Text.hexDigit? d with
    | some x, some y, some z, some w => .ok (((x * 16 + y) * 16 + z) * 16 + w, rest)
    | _, _, _, _ => .error ⟨.badUnicodeEscape, a :: b :: c :: d :: rest⟩
  | s => .error ⟨.badUnicodeEscape, s⟩

theorem readUnit_within (s : Text) : Within s (readUnit s) := by
  fun_cases readUnit s with
  | case1 a b c d rest => exact ⟨[a, b, c, d], rfl⟩
  | case2 => exact List.suffix_refl _
  | case3 => exact List.suffix_refl _

/-- The low surrogate whose escape stands at the front of a text; anything else is
left unread. -/
def readLowSurrogate : Text → Except Fault (Option Nat × Text)
  | '\\' :: 'u' :: rest =>
    match readUnit rest with
    | .ok (low, after) =>
      if isLowSurrogate low then .ok (some low, after) else .ok (none, '\\' :: 'u' :: rest)
    | .error e => .error e
  | s => .ok (none, s)

theorem readLowSurrogate_within (s : Text) : Within s (readLowSurrogate s) := by
  fun_cases readLowSurrogate s with
  | case1 rest low after h _ =>
    have hw := readUnit_within rest
    rw [h] at hw
    exact hw.trans ⟨['\\', 'u'], rfl⟩
  | case2 => exact List.suffix_refl _
  | case3 rest e h =>
    have hw := readUnit_within rest
    rw [h] at hw
    exact hw.trans ⟨['\\', 'u'], rfl⟩
  | case4 => exact List.suffix_refl _

namespace Parser

/-- The unit of four hexadecimal digits. -/
def unit : Parser Nat :=
  ⟨readUnit, readUnit_within⟩

/-- The escape of a low surrogate, if there is one. -/
def lowSurrogate? : Parser (Option Nat) :=
  ⟨readLowSurrogate, readLowSurrogate_within⟩

/-- What `\u` introduces. -/
def unicodeEscape : Parser Char := do
  let high ← unit
  if isHighSurrogate high then
    match ← lowSurrogate? with
    | some low => pure (pairChar high low)
    | none => pure replacement
  else pure (unitChar high)

/-- What a backslash introduces. -/
def escape : Parser Char := do
  match ← peek with
  | none => stop .openString
  | some c =>
    match shortEscape? c with
    | some d => do
      skip
      pure d
    | none =>
      if c = 'u' then do
        skip
        unicodeEscape
      else stop .badEscape

end Parser

/-! ### The body of a literal -/

/-- The text of a literal from behind its opening quote. -/
def readBody (s : Text) : Except Fault (Text × Text) :=
  match s with
  | [] => .error ⟨.openString, []⟩
  | '"' :: rest => .ok ([], rest)
  | '\\' :: rest =>
    match _h : Parser.escape.run rest with
    | .ok (c, after) =>
      match readBody after with
      | .ok (cs, left) => .ok (c :: cs, left)
      | .error e => .error e
    | .error e => .error e
  | c :: rest =>
    if c.toNat < 0x20 then .error ⟨.controlInString, c :: rest⟩
    else match readBody rest with
      | .ok (cs, left) => .ok (c :: cs, left)
      | .error e => .error e
termination_by s.length
decreasing_by
  · have h := Parser.escape.length_le _h
    simp only [List.length_cons]
    omega
  · simp

theorem readBody_within (s : Text) : Within s (readBody s) := by
  fun_induction readBody s with
  | case1 => exact List.suffix_refl _
  | case2 rest => exact List.suffix_cons _ _
  | case3 rest c after h cs left heq ih =>
    rw [heq] at ih
    exact (ih.mono (Parser.escape.suffix_of_run h)).mono (List.suffix_cons _ _)
  | case4 rest c after h e heq ih =>
    rw [heq] at ih
    exact (ih.mono (Parser.escape.suffix_of_run h)).mono (List.suffix_cons _ _)
  | case5 rest e h => exact (Parser.escape.rest_suffix_of_run h).trans (List.suffix_cons _ _)
  | case6 c rest => exact List.suffix_refl _
  | case7 c rest _ _ _ cs left heq ih =>
    rw [heq] at ih
    exact ih.trans (List.suffix_cons _ _)
  | case8 c rest _ _ _ e heq ih =>
    rw [heq] at ih
    exact ih.trans (List.suffix_cons _ _)

namespace Parser

/-- A string literal, from its opening quote on. -/
def literal : Parser Literal := do
  let (value, raw) ← spelled do
    skip
    ⟨readBody, readBody_within⟩
  pure ⟨value, raw⟩

end Parser

end EnvManifest
