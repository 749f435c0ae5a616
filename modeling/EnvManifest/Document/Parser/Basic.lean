import EnvManifest.Document.Fault

/-!
# Parsers

A parser reads a value off the front of a text and answers it with the rest, or
stops with a fault. Its type promises that it never leaves the input: the rest, and
the rest at which it stops, are ends of the text it was given (`Within`). Sequences
of parsers keep the promise, so that whatever is put together from parsers can be
repeated on the rest of the input without a bound of its own, and every fault has a
place in the document.
-/

namespace EnvManifest

/-- The rest of an answer is an end of the text. -/
def Within {α : Type} (s : Text) : Except Fault (α × Text) → Prop
  | .ok (_, rest) => rest <:+ s
  | .error f => f.rest <:+ s

theorem Within.mono {α : Type} {s t : Text} {x : Except Fault (α × Text)} (h : s <:+ t)
    (hx : Within s x) : Within t x := by
  match x, hx with
  | .ok (_, _), hx => exact hx.trans h
  | .error _, hx => exact hx.trans h

/-- A reader of values of type `α` that stays within its input. -/
structure Parser (α : Type) where
  /-- Reads the front of a text. -/
  run : Text → Except Fault (α × Text)
  /-- The rest is an end of the text. -/
  within : ∀ s, Within s (run s)

namespace Parser

variable {α β : Type}

/-- What is left is an end of the text. -/
theorem suffix_of_run (p : Parser α) {s rest : Text} {a : α} (h : p.run s = .ok (a, rest)) :
    rest <:+ s := by
  have hw := p.within s
  rw [h] at hw
  exact hw

/-- A fault stands in the text. -/
theorem rest_suffix_of_run (p : Parser α) {s : Text} {e : Fault} (h : p.run s = .error e) :
    e.rest <:+ s := by
  have hw := p.within s
  rw [h] at hw
  exact hw

theorem length_le (p : Parser α) {s rest : Text} {a : α} (h : p.run s = .ok (a, rest)) :
    rest.length ≤ s.length :=
  (p.suffix_of_run h).length_le

/-- Reading nothing. -/
protected def pure (a : α) : Parser α :=
  ⟨fun s => .ok (a, s), fun _ => List.suffix_refl _⟩

/-- Reading with `p` and going on as `f` says. -/
protected def bind (p : Parser α) (f : α → Parser β) : Parser β where
  run s := match p.run s with
    | .ok (a, rest) => (f a).run rest
    | .error e => .error e
  within s := by
    have hp := p.within s
    match h : p.run s with
    | .ok (a, rest) =>
      rw [h] at hp
      exact ((f a).within rest).mono hp
    | .error e =>
      rw [h] at hp
      exact hp

instance : Monad Parser where
  pure := Parser.pure
  bind := Parser.bind

@[simp]
theorem run_pure (a : α) (s : Text) : (pure a : Parser α).run s = .ok (a, s) := rfl

@[simp]
theorem run_bind (p : Parser α) (f : α → Parser β) (s : Text) :
    (p >>= f).run s = match p.run s with
      | .ok (a, rest) => (f a).run rest
      | .error e => .error e := rfl

/-- Stopping where the input stands. -/
def stop (c : Cause) : Parser α :=
  ⟨fun s => .error ⟨c, s⟩, fun s => List.suffix_refl s⟩

@[simp]
theorem run_stop (c : Cause) (s : Text) : (stop c : Parser α).run s = .error ⟨c, s⟩ := rfl

/-- The next character, which stays unread. -/
def peek : Parser (Option Char) :=
  ⟨fun s => .ok (s.head?, s), fun s => List.suffix_refl s⟩

@[simp]
theorem run_peek (s : Text) : peek.run s = .ok (s.head?, s) := rfl

/-- Passing over one character. -/
def skip : Parser Unit :=
  ⟨fun s => .ok ((), s.tail), fun s => s.tail_suffix⟩

@[simp]
theorem run_skip (s : Text) : skip.run s = .ok ((), s.tail) := rfl

/-- Passing over the longest run of characters in a class. -/
def skipWhile (p : Char → Bool) : Parser Unit :=
  ⟨fun s => .ok ((), s.dropWhile p), fun _ => List.dropWhile_suffix p⟩

@[simp]
theorem run_skipWhile (p : Char → Bool) (s : Text) :
    (skipWhile p).run s = .ok ((), s.dropWhile p) := rfl

/-- What `p` reads, together with its spelling. -/
def spelled (p : Parser α) : Parser (α × Text) where
  run s := match p.run s with
    | .ok (a, rest) => .ok ((a, consumed s rest), rest)
    | .error e => .error e
  within s := by
    have hp := p.within s
    match h : p.run s with
    | .ok (a, rest) =>
      rw [h] at hp
      exact hp
    | .error e =>
      rw [h] at hp
      exact hp

/-- The spelling of what `p` passes over. -/
def lexeme (p : Parser Unit) : Parser Text := do
  let (_, spelling) ← p.spelled
  pure spelling

/-- A word, from its first character on. A fault points at its beginning. -/
def word (w : Text) : Parser Unit where
  run s := match Text.without? w s with
    | some rest => .ok ((), rest)
    | none => .error ⟨.unexpected (.word w), s⟩
  within s := by
    match h : Text.without? w s with
    | some rest =>
      exact ⟨w, Text.append_of_without? h⟩
    | none => exact List.suffix_refl s

end Parser

end EnvManifest
