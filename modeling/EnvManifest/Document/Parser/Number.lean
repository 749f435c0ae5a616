import EnvManifest.Document.Parser.Basic

/-!
# Reading a number

A number is passed over and kept as it is spelled: an optional minus sign, an
integer part without leading zeros, an optional fraction and an optional exponent.
A zero ends the integer part, so that a digit behind it is left for whoever reads on
to complain about.
-/

namespace EnvManifest

namespace Parser

/-- At least one digit. -/
def digits (e : Expectation) : Parser Unit := do
  match ← peek with
  | some c => if Text.isDigit c then skipWhile Text.isDigit else stop (.unexpected e)
  | none => stop (.unexpected e)

/-- The minus sign, if there is one. -/
def minus : Parser Unit := do
  if (← peek) = some '-' then skip else pure ()

/-- The integer part. -/
def integer : Parser Unit := do
  if (← peek) = some '0' then skip else digits .integer

/-- The fraction, if there is one. -/
def fraction : Parser Unit := do
  if (← peek) = some '.' then do
    skip
    digits .fraction
  else pure ()

/-- The sign of an exponent, if there is one. -/
def sign : Parser Unit := do
  let c ← peek
  if c = some '+' ∨ c = some '-' then skip else pure ()

/-- The exponent, if there is one. -/
def exponent : Parser Unit := do
  let c ← peek
  if c = some 'e' ∨ c = some 'E' then do
    skip
    sign
    digits .exponent
  else pure ()

/-- A number, as it is spelled. -/
def number : Parser Text :=
  lexeme do
    minus
    integer
    fraction
    exponent

end Parser

end EnvManifest
