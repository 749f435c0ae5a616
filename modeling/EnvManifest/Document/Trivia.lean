import EnvManifest.Text.Blank

/-!
# What a slot holds

A slot is the text between two tokens: white space and comments. `trivia` lists
its newlines and comments in order, each with its place; spaces, tabs and carriage
returns mean nothing and are passed over. Layout, removal and the comments shown
with scripts all work on this list.

Slots that were read from a document are complete: a block comment is closed. A
slot set by hand may be anything, so the functions here are defined on every text,
and an open block comment runs to the end.
-/

namespace EnvManifest

/-- A block comment from behind its opening mark: up to and with the first `*/`,
and what follows that mark. -/
def cutAtClose : Text → Option (Text × Text)
  | '*' :: '/' :: rest => some (['*', '/'], rest)
  | c :: rest => (cutAtClose rest).map fun cut => (c :: cut.1, cut.2)
  | [] => none

/-- The two parts put together again are the text that was cut. -/
theorem append_of_cutAtClose {s body rest : Text} (h : cutAtClose s = some (body, rest)) :
    body ++ rest = s := by
  fun_induction cutAtClose s generalizing body rest with
  | case1 r =>
    obtain ⟨rfl, rfl⟩ := by simpa using h
    rfl
  | case2 c r _ ih =>
    obtain ⟨⟨b, t⟩, hcut, heq⟩ := Option.map_eq_some_iff.1 h
    obtain ⟨rfl, rfl⟩ := by simpa using heq
    simp [ih hcut]
  | case3 => simp at h

theorem suffix_of_cutAtClose {s body rest : Text} (h : cutAtClose s = some (body, rest)) :
    rest <:+ s :=
  ⟨body, append_of_cutAtClose h⟩

/-- A newline or a comment, with its marks. -/
inductive Trivia where
  | newline
  | lineComment (text : Text)
  | blockComment (text : Text)
deriving DecidableEq

namespace Trivia

/-- The text of a comment; a newline has none. -/
def comment? : Trivia → Option Text
  | newline => none
  | lineComment text => some text
  | blockComment text => some text

/-- Whether this is a comment. -/
def isComment (t : Trivia) : Bool :=
  t.comment?.isSome

/-- Whether this is a line comment. -/
def isLineComment : Trivia → Bool
  | lineComment _ => true
  | _ => false

end Trivia

/-- The newlines and comments of a text that starts at place `n` of a slot. A line
comment ends in front of the newline and leaves out carriage returns at its end. -/
def triviaFrom (n : Nat) (s : Text) : List (Nat × Trivia) :=
  match s with
  | [] => []
  | '\n' :: rest => (n, .newline) :: triviaFrom (n + 1) rest
  | '/' :: '/' :: rest =>
    let cut := Text.cutAtNewline rest
    (n, .lineComment (Text.dropEndWhile (· == '\r') ('/' :: '/' :: cut.1))) ::
      triviaFrom (n + 2 + cut.1.length) cut.2
  | '/' :: '*' :: rest =>
    match h : cutAtClose rest with
    | some (body, after) =>
      (n, .blockComment ('/' :: '*' :: body)) :: triviaFrom (n + 2 + body.length) after
    | none => [(n, .blockComment ('/' :: '*' :: rest))]
  | _ :: rest => triviaFrom (n + 1) rest
termination_by s.length
decreasing_by
  · simp
  · have h := congrArg List.length (Text.cutAtNewline_append rest)
    simp only [List.length_append] at h
    simp only [List.length_cons]
    omega
  · have h := congrArg List.length (append_of_cutAtClose h)
    simp only [List.length_append] at h
    simp only [List.length_cons]
    omega
  · simp

/-- The newlines and comments of a slot, each with its place. -/
def locatedTrivia (slot : Text) : List (Nat × Trivia) :=
  triviaFrom 0 slot

/-- The newlines and comments of a slot. -/
def trivia (slot : Text) : List Trivia :=
  (locatedTrivia slot).map (·.2)

/-- Whether a slot holds a comment: one of the two marks stands in it. -/
def hasComment (slot : Text) : Bool :=
  Text.hasPair '/' '/' slot || Text.hasPair '/' '*' slot

/-- Whether the last thing in a slot is a line comment. -/
def endsInLineComment (slot : Text) : Bool :=
  match (trivia slot).getLast? with
  | some t => t.isLineComment
  | none => false

/-- The part of a slot on the line of the token in front of it, if that part holds
a comment; otherwise nothing. -/
def sameLine (slot : Text) : Text :=
  match locatedTrivia slot with
  | [] => []
  | (n, t) :: rest =>
    if t.isComment then
      match ((n, t) :: rest).find? (fun p => p.2 == .newline) with
      | some (k, _) => slot.take k
      | none => slot
    else []

/-- A comment without its marks. A line comment loses every slash pair it begins
with, a block comment every opening mark it begins with and the closing one. -/
def Trivia.body? : Trivia → Option Text
  | .newline => none
  | .lineComment text => some (Text.dropPairs '/' '/' text)
  | .blockComment text => some (Text.dropEnd ['*', '/'] (Text.dropPairs '/' '*' text))

/-- **What the comments of a slot say**: their texts without marks, one on a line,
trimmed as a whole. A comment on the line of the token in front of the slot belongs
to that token and is left out. -/
def commentText (slot : Text) : Text :=
  let own := slot.drop (sameLine slot).length
  (Text.join ['\n'] ((trivia own).filterMap Trivia.body?)).trim

end EnvManifest
