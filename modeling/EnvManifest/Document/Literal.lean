import EnvManifest.Text.Basic

/-!
# String literals

A string literal is a text together with the way it is spelled in the document.
The spelling is kept, so that a literal nobody touched is written back as it was;
a text that an edit puts into the document gets the spelling of
`Literal.spell`: the quote, the backslash and the controls below U+0020 are
escaped, with a short escape where there is one, and everything else is written
raw.
-/

namespace EnvManifest

/-- A string literal: the text it stands for and its spelling, quotes included. -/
structure Literal where
  value : Text
  raw : Text
deriving DecidableEq

namespace Literal

/-- The spelling of one character inside a literal. -/
def spellChar (c : Char) : Text :=
  if c = '"' then ['\\', '"']
  else if c = '\\' then ['\\', '\\']
  else if c = '\x08' then ['\\', 'b']
  else if c = '\x0c' then ['\\', 'f']
  else if c = '\n' then ['\\', 'n']
  else if c = '\r' then ['\\', 'r']
  else if c = '\t' then ['\\', 't']
  else if c.toNat < 0x20 then
    ['\\', 'u', '0', '0', Nat.digitChar (c.toNat / 16), Nat.digitChar (c.toNat % 16)]
  else [c]

/-- The canonical spelling of a text as a literal. -/
def spell (s : Text) : Text :=
  '"' :: s.flatMap spellChar ++ ['"']

/-- The literal of a text, in its canonical spelling. -/
def ofText (s : Text) : Literal :=
  ⟨s, spell s⟩

/-- The same text in its canonical spelling. -/
def respell (l : Literal) : Literal :=
  ofText l.value

@[simp]
theorem value_ofText (s : Text) : (ofText s).value = s := rfl

@[simp]
theorem value_respell (l : Literal) : l.respell.value = l.value := rfl

@[simp]
theorem respell_respell (l : Literal) : l.respell.respell = l.respell := rfl

end Literal

end EnvManifest
