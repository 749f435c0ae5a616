import EnvManifest.Document.Trivia

/-!
# Laying out one slot

What a slot becomes when the token behind it has to stand on the same line as the
token in front of it, or on a line of its own. Comments are never lost: a comment on
the line of the token in front stays there, every other one keeps its order, and at
most one blank line in front of a comment is kept.

| the slot is | written by |
|---|---|
| inside one line | `inline` |
| in front of a child on its own line | `ownLine` |
| in front of a closing bracket on its own line | `closingLine` |

`inline` has no answer if there is a line comment, which has to be followed by a
newline.
-/

namespace EnvManifest

/-- The blanks that the last line of a slot begins with, if the slot breaks the line
at all. -/
def indentOf? (slot : Text) : Option Text :=
  slot.lastLine?.map fun line => line.takeWhile fun c => c == ' ' || c == '\t'

/-! ### On one line -/

/-- A slot without newlines: `empty` if it has no comment, and otherwise its block
comments with spaces between them, between `left` and `right`. -/
def inline (slot empty left right : Text) : Option Text :=
  let ts := trivia slot
  if ts.any Trivia.isLineComment then none
  else
    match ts.filterMap Trivia.comment? with
    | [] => some empty
    | comments => some (left ++ Text.join [' '] comments ++ right)

/-! ### On several lines -/

/-- Some newlines and an indentation: one newline if it must be one, otherwise as many
as were counted, but at least one and at most two. -/
def lineBreak (one : Bool) (newlines : Nat) (indent : Text) : Text :=
  Text.repeated (if one then 1 else max 1 (min newlines 2)) '\n' ++ indent

/-- What has been written of a slot: its text, the newlines counted since the last
comment, and whether a comment has been put anywhere. -/
structure Written where
  out : Text
  newlines : Nat
  placed : Bool

/-- Writing one more newline or comment. A comment right behind another one stays on
its line; any other starts a line. -/
def Written.put (indent : Text) (first : Bool) (w : Written) (t : Trivia) : Written :=
  match t.comment? with
  | none => { w with newlines := w.newlines + 1 }
  | some comment =>
    let separator :=
      if w.newlines == 0 && !w.out.isEmpty then [' ']
      else lineBreak (first && !w.placed) w.newlines indent
    ⟨w.out ++ separator ++ comment, 0, true⟩

/-- The comment on the line of the token in front, set off by a space, and what
follows it. -/
def splitSameLine : List Trivia → Text × List Trivia
  | [] => ([], [])
  | t :: ts =>
    match t.comment? with
    | some comment => (' ' :: comment, ts)
    | none => ([], t :: ts)

/-- The comments of a slot, each but those on the line of a token on a line of its
own. `first` says that the slot is the first one behind an opening bracket, where no
blank line is kept. -/
def writeComments (slot indent : Text) (first : Bool) : Written :=
  let split := splitSameLine (trivia slot)
  split.2.foldl (Written.put indent first) ⟨split.1, 0, false⟩

/-- The slot in front of a child that stands on its own line, or on the line of the
block comment in front of it. -/
def ownLine (slot : Text) (first : Bool) (indent : Text) : Text :=
  let w := writeComments slot indent first
  if w.newlines == 0 && !w.out.isEmpty then w.out ++ [' ']
  else w.out ++ lineBreak (first && !w.placed) w.newlines indent

/-- The slot in front of a closing bracket that stands on its own line; the comments
are indented like children. -/
def closingLine (slot childIndent indent : Text) : Text :=
  (writeComments slot childIndent false).out ++ '\n' :: indent

end EnvManifest
