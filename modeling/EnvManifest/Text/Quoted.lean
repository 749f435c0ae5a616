import EnvManifest.Text.Shapeless
import EnvManifest.Text.Basic

/-!
# Quoting in messages

A message quotes the text or the character it complains about so that the reader
sees where it begins and ends and what is in it. The quotation stands between
quotes of its kind, `"` for a text and `'` for a character; the quote itself, the
backslash, tab, line feed, carriage return and NUL are written with a backslash;
a character without a shape of its own is written as `\u{..}` with its code point
in lowercase hexadecimal; all else stands for itself. The other kind of quote is
not escaped.
-/

namespace EnvManifest

/-- A character inside a quotation whose quote is `quote`. -/
def quotedChar (quote c : Char) : Text :=
  if c = '\x00' then ['\\', '0']
  else if c = '\t' then ['\\', 't']
  else if c = '\n' then ['\\', 'n']
  else if c = '\r' then ['\\', 'r']
  else if c = '\\' ∨ c = quote then ['\\', c]
  else if isShapeless c then ['\\', 'u', '\x7b'] ++ Text.hexOfNat c.toNat ++ ['\x7d']
  else [c]

/-- A text in double quotes. -/
def quoteText (s : Text) : Text :=
  '"' :: s.flatMap (quotedChar '"') ++ ['"']

/-- A character in single quotes. -/
def quoteChar (c : Char) : Text :=
  '\'' :: quotedChar '\'' c ++ ['\'']

example : quoteText "a\"b'\u200b\n".toList = "\"a\\\"b'\\u\x7b200b\x7d\\n\"".toList := by
  decide +kernel

end EnvManifest
