/-!
# Texts

A document is read, cut and put together character by character, so a text is
the list of its characters and every cut is a function on lists. This file has
the cuts that more than one part of the library makes: what follows the last
newline, two characters side by side, a run taken off the end, decimal and
hexadecimal digits.
-/

namespace EnvManifest

/-- A text is the list of its characters. -/
abbrev Text := List Char

namespace Text

/-! ### Lines -/

/-- Whether the text breaks a line. -/
def breaksLine (s : Text) : Bool :=
  s.contains '\n'

/-- The part after the last newline; a text without a newline has none. -/
def lastLine? (s : Text) : Option Text :=
  if s.breaksLine then some (s.reverse.takeWhile (· != '\n')).reverse else none

/-- A text cut in front of its first newline. -/
def cutAtNewline (s : Text) : Text × Text :=
  (s.takeWhile (· != '\n'), s.dropWhile (· != '\n'))

theorem cutAtNewline_append (s : Text) : (cutAtNewline s).1 ++ (cutAtNewline s).2 = s := by
  simp [cutAtNewline]

theorem cutAtNewline_suffix (s : Text) : (cutAtNewline s).2 <:+ s :=
  List.dropWhile_suffix _

/-- The lines of a text, without the newlines between them; there is always at
least one. -/
def lines (s : Text) : List Text :=
  s.splitOn '\n'

/-- A part of a text that is cut at every `a` has no `a`. -/
theorem not_mem_of_mem_splitOn {s part : Text} {a : Char} (h : part ∈ s.splitOn a) : a ∉ part := by
  induction s generalizing part with
  | nil =>
    obtain rfl : part = [] := by simpa using h
    simp
  | cons c s ih =>
    rw [List.splitOn_cons_eq_if_modifyHead] at h
    split at h
    · rcases List.mem_cons.1 h with rfl | h
      · simp
      · exact ih h
    · rename_i hc
      -- the first part is longer by a character that is not `a`
      cases hs : s.splitOn a with
      | nil => simp [hs] at h
      | cons first rest =>
        rw [hs] at h ih
        rcases List.mem_cons.1 h with rfl | h
        · rw [List.mem_cons, not_or]
          refine ⟨?_, ih List.mem_cons_self⟩
          rintro rfl
          exact hc (beq_self_eq_true _)
        · exact ih (List.mem_cons_of_mem first h)

/-- The first part is what stands in front of the first `a`. -/
theorem head?_splitOn (s : Text) (a : Char) :
    (s.splitOn a).head? = some (s.takeWhile (· != a)) := by
  induction s with
  | nil => rfl
  | cons c s ih =>
    rw [List.splitOn_cons_eq_if_modifyHead, List.takeWhile_cons]
    by_cases hc : c = a
    · simp [hc]
    · simp [hc, List.head?_modifyHead, ih]

/-! ### Pairs and runs of characters -/

/-- Whether `a` and `b` stand side by side somewhere in the text. -/
def hasPair (a b : Char) : Text → Bool
  | c :: d :: r => (c == a && d == b) || hasPair a b (d :: r)
  | _ => false

/-- The text without the longest run of characters in `p` at its end. -/
def dropEndWhile (p : Char → Bool) (s : Text) : Text :=
  (s.reverse.dropWhile p).reverse

theorem mem_of_mem_dropEndWhile {p : Char → Bool} {s : Text} {c : Char}
    (h : c ∈ dropEndWhile p s) : c ∈ s := by
  rw [dropEndWhile, List.mem_reverse] at h
  exact List.mem_reverse.1 ((List.dropWhile_suffix p).subset h)

theorem dropEndWhile_append {p : Char → Bool} {t : Text} (h : ∀ c ∈ t, p c = true) (s : Text) :
    dropEndWhile p (s ++ t) = dropEndWhile p s := by
  rw [dropEndWhile, dropEndWhile, List.reverse_append,
    List.dropWhile_append_of_pos fun c hc => h c (List.mem_reverse.1 hc)]

/-- The text without `start`, where it begins with `start`. -/
def without? : (start s : Text) → Option Text
  | [], s => some s
  | c :: start, d :: s => if c = d then without? start s else none
  | _ :: _, [] => none

/-- What was taken off the front and what is left make up the text. -/
theorem append_of_without? {start s rest : Text} (h : without? start s = some rest) :
    start ++ rest = s := by
  induction start generalizing s with
  | nil => simpa [without?, eq_comm] using h
  | cons c start ih =>
    cases s with
    | nil => simp [without?] at h
    | cons d s =>
      simp only [without?] at h
      split at h
      · rename_i hcd
        simp [ih h, hcd]
      · simp at h

/-- What `start` was put in front of is left when it is taken off. -/
theorem without?_append (start rest : Text) : without? start (start ++ rest) = some rest := by
  induction start with
  | nil => rfl
  | cons c start ih => rw [List.cons_append, without?, if_pos rfl, ih]

/-- Nothing can be taken off exactly where the text does not begin with it. -/
theorem without?_eq_none_iff {start s : Text} : without? start s = none ↔ ¬start <+: s := by
  constructor
  · rintro h ⟨rest, rfl⟩
    rw [without?_append] at h
    cases h
  · intro h
    cases hrest : without? start s with
    | none => rfl
    | some rest => exact absurd ⟨rest, append_of_without? hrest⟩ h

/-- The text without every copy of the pair `a b` that it begins with. -/
def dropPairs (a b : Char) : Text → Text
  | c :: d :: r => if c == a && d == b then dropPairs a b r else c :: d :: r
  | s => s

/-- The text without `stop`, where it ends with `stop`; otherwise the whole
text. -/
def dropEnd (stop s : Text) : Text :=
  match without? stop.reverse s.reverse with
  | some r => r.reverse
  | none => s

/-- The texts of a list with `between` between neighbours. -/
def join (between : Text) (parts : List Text) : Text :=
  between.intercalate parts

/-- `n` copies of a character. -/
def repeated (n : Nat) (c : Char) : Text :=
  List.replicate n c

/-! ### Numbers in texts -/

/-- A number in decimal digits. -/
def ofNat (n : Nat) : Text :=
  Nat.toDigits 10 n

/-- A number in lowercase hexadecimal digits, without leading zeros. -/
def hexOfNat (n : Nat) : Text :=
  Nat.toDigits 16 n

/-- Whether a character is one of the ten decimal digits of ASCII. -/
def isDigit (c : Char) : Bool :=
  '0' ≤ c && c ≤ '9'

/-- The value of a hexadecimal digit of either case. -/
def hexDigit? (c : Char) : Option Nat :=
  if '0' ≤ c ∧ c ≤ '9' then some (c.toNat - '0'.toNat)
  else if 'a' ≤ c ∧ c ≤ 'f' then some (c.toNat - 'a'.toNat + 10)
  else if 'A' ≤ c ∧ c ≤ 'F' then some (c.toNat - 'A'.toNat + 10)
  else none

/-- The number that a run of decimal digits stands for. -/
def toNat (digits : Text) : Nat :=
  digits.foldl (fun n c => n * 10 + (c.toNat - '0'.toNat)) 0

end Text

end EnvManifest
