import EnvManifest.Document.Parser.Basic
import EnvManifest.Document.Trivia

/-!
# Reading a slot

Between two tokens there may be blanks and comments. Only space, tab, line feed and
carriage return are blank to the grammar. A line comment ends in front of the next
newline or at the end of the input; a block comment ends at the first `*/` behind
its opening mark, so that `/*/` does not close itself, and stops the reading at its
beginning if it is never closed. A slash that opens no comment stops it too.
-/

namespace EnvManifest

/-- Whether a character is blank to the grammar. -/
def isSpacing (c : Char) : Bool :=
  c == ' ' || c == '\t' || c == '\n' || c == '\r'

/-- What is left behind the blanks and comments at the front of a text. -/
def passSlot (s : Text) : Except Fault (Unit × Text) :=
  match s with
  | '/' :: '/' :: rest => passSlot (Text.cutAtNewline rest).2
  | '/' :: '*' :: rest =>
    match _h : cutAtClose rest with
    | some (_, after) => passSlot after
    | none => .error ⟨.openComment, '/' :: '*' :: rest⟩
  | '/' :: rest => .error ⟨.slash, '/' :: rest⟩
  | c :: rest => if isSpacing c then passSlot rest else .ok ((), c :: rest)
  | [] => .ok ((), [])
termination_by s.length
decreasing_by
  · have h := congrArg List.length (Text.cutAtNewline_append rest)
    simp only [List.length_append] at h
    simp only [List.length_cons]
    omega
  · have h := congrArg List.length (append_of_cutAtClose _h)
    simp only [List.length_append] at h
    simp only [List.length_cons]
    omega
  · simp

theorem passSlot_within (s : Text) : Within s (passSlot s) := by
  fun_induction passSlot s with
  | case1 rest ih =>
    exact ih.mono ((Text.cutAtNewline_suffix rest).trans ⟨['/', '/'], rfl⟩)
  | case2 rest body after h ih =>
    exact ih.mono ((suffix_of_cutAtClose h).trans ⟨['/', '*'], rfl⟩)
  | case3 | case4 | case6 | case7 => exact List.suffix_refl _
  | case5 c rest _ _ _ _ ih => exact ih.mono (List.suffix_cons _ _)

namespace Parser

/-- The blanks and comments up to the next token, as they are written. -/
def slot : Parser Text :=
  lexeme ⟨passSlot, passSlot_within⟩

end Parser

end EnvManifest
