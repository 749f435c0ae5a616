import EnvManifest.Text.Quoted
import EnvManifest.Text.Utf8

/-!
# Malformed documents

A `Fault` says why reading a document stopped and what was left of it there. The
rest of the input is all that is needed to point at the place: offset, line and
column are counted on the part in front of it (`Position.of`), and the character
that a message quotes is the first of the rest. A `SyntaxError` is a fault as it is
reported, with its message and its position.
-/

namespace EnvManifest

/-- How deep objects and arrays may nest. -/
def maxDepth : Nat := 128

/-! ### Causes -/

/-- What was being read when a character did not fit. -/
inductive Expectation where
  | value
  | word (w : Text)
  | key
  | colon
  | memberEnd
  | elementEnd
  | integer
  | fraction
  | exponent
deriving DecidableEq

/-- The words of a message for what was being read. -/
def Expectation.words : Expectation → Text
  | value => "looking for beginning of value".toList
  | word w => "in literal ".toList ++ w
  | key => "looking for beginning of object key string".toList
  | colon => "after object key".toList
  | memberEnd => "after object key:value pair".toList
  | elementEnd => "after array element".toList
  | integer => "in numeric literal".toList
  | fraction => "after decimal point in numeric literal".toList
  | exponent => "in exponent of numeric literal".toList

/-- Why a document is malformed. -/
inductive Cause where
  /-- A character, or the end of the input, that does not fit there. -/
  | unexpected (e : Expectation)
  /-- Something behind the value of the document. -/
  | trailing
  | openComment
  | slash
  | tooDeep
  | openString
  | controlInString
  | badEscape
  | badUnicodeEscape
deriving DecidableEq

/-- A cause and what is left of the input where it arose. -/
structure Fault where
  cause : Cause
  rest : Text
deriving DecidableEq

/-- The character that the first octet of a character denotes by itself. -/
def firstOctetChar (c : Char) : Char :=
  match String.utf8EncodeChar c with
  | b :: _ => Char.ofNat b.toNat
  | [] => c

/-- The message of a fault. -/
def Fault.message (f : Fault) : Text :=
  match f.cause, f.rest with
  | .unexpected e, c :: _ => "invalid character ".toList ++ quoteChar c ++ ' ' :: e.words
  | .unexpected e, [] => "unexpected end of input ".toList ++ e.words
  | .trailing, rest =>
    "invalid character ".toList ++ quoteChar (rest.headD '\x00') ++ " after top-level value".toList
  | .openComment, _ => "unterminated block comment".toList
  | .slash, _ => "invalid character '/' in whitespace".toList
  | .tooDeep, _ => "exceeded max nesting depth of ".toList ++ Text.ofNat maxDepth
  | .openString, _ => "unterminated string literal".toList
  | .controlInString, rest =>
    "invalid control character ".toList ++ quoteChar (rest.headD '\x00') ++
      " in string literal".toList
  | .badEscape, rest =>
    "invalid escape character ".toList ++ quoteChar (firstOctetChar (rest.headD '\x00')) ++
      " in string literal".toList
  | .badUnicodeEscape, _ => "invalid \\u escape in string literal".toList

/-! ### Positions -/

/-- A place in a document: the octets in front of it, and its line and column, both
counted from one. -/
structure Position where
  offset : Nat
  line : Nat
  column : Nat
deriving DecidableEq

/-- The part of `s` in front of its end `rest`. -/
def consumed (s rest : Text) : Text :=
  s.take (s.length - rest.length)

theorem consumed_append {s rest : Text} (h : rest <:+ s) : consumed s rest ++ rest = s := by
  obtain ⟨front, rfl⟩ := h
  simp [consumed]

/-- The number of entries behind the last one that `isEnd` holds of. -/
def countSince {α : Type} (isEnd : α → Bool) (s : List α) : Nat :=
  (s.reverse.takeWhile fun c => !isEnd c).length

/-- The place behind a text. -/
def Position.after (s : Text) : Position where
  offset := Text.utf8Length s
  line := s.count '\n' + 1
  column := countSince (· == '\n') s + 1

/-- The place in a document where `rest` is left. -/
def Position.of (document rest : Text) : Position :=
  Position.after (consumed document rest)

/-- The place behind octets that are no text: columns are counted in octets. -/
def Position.afterOctets (b : Octets) : Position where
  offset := b.length
  line := b.count 10 + 1
  column := countSince (· == 10) b + 1

/-! ### Reports -/

/-- A malformed document as it is reported. -/
structure SyntaxError where
  text : Text
  position : Position
deriving DecidableEq

/-- The report of a fault in a document. -/
def Fault.report (document : Text) (f : Fault) : SyntaxError :=
  ⟨f.message, Position.of document f.rest⟩

/-- The report of octets that stop being a text after the first `n`. -/
def SyntaxError.notUtf8 (b : Octets) (n : Nat) : SyntaxError :=
  ⟨"invalid UTF-8".toList, Position.afterOctets (b.take n)⟩

/-- The report with its place in front. -/
def SyntaxError.message (e : SyntaxError) : Text :=
  "hujson: line ".toList ++ Text.ofNat e.position.line ++ ", column ".toList ++
    Text.ofNat e.position.column ++ ": ".toList ++ e.text

end EnvManifest
