import EnvManifest.Proofs.Gap.SameLine
import EnvManifest.Text.Utf8

/-!
# The pieces of a slot

Three functions look for comments, each in its own way: the parser passes over a slot turn by
turn, `locatedTrivia` scans the slot that was cut out once more and from its beginning, and
`hasComment` asks for two characters side by side. Layout and removal take it for granted that
they see the same comments. This file says so (`Parser.octetTrivia_of_run_slot`).

What they are compared with is the list of *pieces* that the parser passes over, one a turn
(`slotPieces`): blanks, line comments and block comments. From a list of pieces alone, if it is one
that a parser can pass over (`Lexed`), it can be told what the other two find in its text. The
places of trivia are compared as octets, since they are places in the text of a document.
-/

namespace EnvManifest

/-! ### Pieces -/

/-- What is passed over at a time: a blank, or a comment as it is written. The newline behind a
line comment is a blank of its own. -/
inductive Piece where
  | blank (c : Char)
  | line (text : Text)
  | block (text : Text)
deriving DecidableEq

namespace Piece

/-- A piece as it is written. -/
def text : Piece → Text
  | blank c => [c]
  | line text => text
  | block text => text

/-- Whether a piece is a comment. -/
def isComment : Piece → Bool
  | blank _ => false
  | line _ => true
  | block _ => true

/-- What there is to list of a piece: a newline, a line comment without the carriage returns at its
end, a block comment as it is. Other blanks are not listed. -/
def trivia? : Piece → Option Trivia
  | blank c => if c = '\n' then some .newline else none
  | line text => some (.lineComment (Text.dropEndWhile (· == '\r') text))
  | block text => some (.blockComment text)

/-- The text of some pieces. -/
def written (ps : List Piece) : Text :=
  ps.flatMap text

@[simp]
theorem written_nil : written [] = [] := rfl

@[simp]
theorem written_cons (p : Piece) (ps : List Piece) : written (p :: ps) = p.text ++ written ps := rfl

/-- The trivia of some pieces, each with the `size` of what is in front of it; `n` is the size of
what is in front of them all. -/
def located (size : Text → Nat) : Nat → List Piece → List (Nat × Trivia)
  | _, [] => []
  | n, p :: ps => (p.trivia?.map fun t => (n, t)).toList ++ located size (n + size p.text) ps

/-- The pieces up to the first newline that is not in a comment. -/
def firstLine (ps : List Piece) : List Piece :=
  ps.takeWhile (· != blank '\n')

end Piece

open Piece

/-! ### What a parser passes over -/

/-- An answer with one more piece in front. -/
def behindPiece (p : Piece) : Except Fault (List Piece × Text) → Except Fault (List Piece × Text)
  | .ok (ps, rest) => .ok (p :: ps, rest)
  | .error f => .error f

/-- The pieces at the front of a text, and what is left behind them. -/
def slotPieces (s : Text) : Except Fault (List Piece × Text) :=
  match s with
  | '/' :: '/' :: rest =>
    behindPiece (.line ('/' :: '/' :: (Text.cutAtNewline rest).1))
      (slotPieces (Text.cutAtNewline rest).2)
  | '/' :: '*' :: rest =>
    match _h : cutAtClose rest with
    | some (body, after) => behindPiece (.block ('/' :: '*' :: body)) (slotPieces after)
    | none => .error ⟨.openComment, '/' :: '*' :: rest⟩
  | '/' :: rest => .error ⟨.slash, '/' :: rest⟩
  | c :: rest => if isSpacing c then behindPiece (.blank c) (slotPieces rest) else .ok ([], c :: rest)
  | [] => .ok ([], [])
termination_by s.length
decreasing_by
  · have h := congrArg List.length (Text.cutAtNewline_append rest)
    simp only [List.length_append] at h
    simp only [List.length_cons]
    omega
  · have h := congrArg List.length (append_of_cutAtClose _h)
    simp only [List.length_append] at h
    simp only [List.length_cons]
    omega
  · simp

theorem behindPiece_eq_ok {p : Piece} {x : Except Fault (List Piece × Text)} {ps : List Piece}
    {rest : Text} :
    behindPiece p x = .ok (ps, rest) ↔ ∃ qs, x = .ok (qs, rest) ∧ ps = p :: qs := by
  cases x with
  | ok a =>
    obtain ⟨qs, r⟩ := a
    simp only [behindPiece, Except.ok.injEq, Prod.mk.injEq]
    constructor
    · rintro ⟨rfl, rfl⟩
      exact ⟨qs, ⟨rfl, rfl⟩, rfl⟩
    · rintro ⟨qs', ⟨rfl, rfl⟩, rfl⟩
      exact ⟨rfl, rfl⟩
  | error f => simp [behindPiece]

theorem map_behindPiece (p : Piece) (x : Except Fault (List Piece × Text)) :
    (behindPiece p x).map (fun a => ((), a.2)) = x.map fun a => ((), a.2) := by
  cases x <;> rfl

/-- **The pieces are those that a slot is read past**: without them, the parser of slots is
what is left. -/
theorem map_slotPieces (s : Text) : (slotPieces s).map (fun a => ((), a.2)) = passSlot s := by
  fun_induction passSlot s with
  | case1 rest ih => rw [slotPieces, map_behindPiece, ih]
  | case2 rest body after h ih =>
    rw [slotPieces]
    split
    · rename_i h'
      obtain ⟨-, rfl⟩ := by simpa using h'.symm.trans h
      rw [map_behindPiece, ih]
    · rename_i h'
      rw [h] at h'
      simp at h'
  | case3 rest h =>
    rw [slotPieces]
    split
    · rename_i h'
      rw [h] at h'
      simp at h'
    · rfl
  | case4 rest hslash hstar =>
    rw [slotPieces]
    · rfl
    · exact hslash
    · exact hstar
  | case5 c rest hslash hstar hne hc ih =>
    rw [slotPieces, if_pos hc, map_behindPiece, ih]
    all_goals assumption
  | case6 c rest hslash hstar hne hc =>
    rw [slotPieces, if_neg hc]
    · rfl
    all_goals assumption
  | case7 =>
    rw [slotPieces]
    rfl

/-! ### Pieces that can be passed over -/

/-- Pieces that a parser can pass over: blanks, line comments that only a newline ends, and block
comments that end in their first closing mark. -/
inductive Lexed : List Piece → Prop
  | nil : Lexed []
  | blank {c : Char} {ps : List Piece} : isWhite c = true → Lexed ps → Lexed (.blank c :: ps)
  | line {body : Text} {ps : List Piece} : '\n' ∉ body → (∀ p ∈ ps.head?, p = .blank '\n') →
      Lexed ps → Lexed (.line ('/' :: '/' :: body) :: ps)
  | block {body : Text} {ps : List Piece} : ¬['*', '/'] <:+: body → Lexed ps →
      Lexed (.block ('/' :: '*' :: (body ++ ['*', '/'])) :: ps)

variable {ps : List Piece} {s rest : Text}

/-- Nothing, or a newline, is behind a line comment. -/
theorem head?_of_slotPieces (h : slotPieces (Text.cutAtNewline s).2 = .ok (ps, rest)) :
    ∀ p ∈ ps.head?, p = .blank '\n' := by
  rcases cutAtNewline_snd s with hnil | ⟨r, hr⟩
  · rw [hnil, slotPieces] at h
    obtain ⟨rfl, -⟩ := by simpa using h
    simp
  · rw [hr, slotPieces, if_pos (by decide), behindPiece_eq_ok] at h
    · obtain ⟨qs, -, rfl⟩ := h
      simp
    all_goals simp

/-- **What a parser passes over** are pieces that it can pass over, and make up the front of its
input. -/
theorem lexed_of_slotPieces (h : slotPieces s = .ok (ps, rest)) :
    Lexed ps ∧ written ps ++ rest = s := by
  fun_induction slotPieces s generalizing ps with
  | case1 s ih =>
    obtain ⟨qs, hqs, rfl⟩ := behindPiece_eq_ok.1 h
    obtain ⟨hlexed, hwritten⟩ := ih hqs
    refine ⟨.line (not_mem_cutAtNewline s) (head?_of_slotPieces hqs) hlexed, ?_⟩
    simp [text, hwritten, Text.cutAtNewline_append]
  | case2 s body after hcut ih =>
    obtain ⟨qs, hqs, rfl⟩ := behindPiece_eq_ok.1 h
    obtain ⟨hlexed, hwritten⟩ := ih hqs
    obtain ⟨inside, rfl, hinside, rfl⟩ := body_of_cutAtClose hcut
    exact ⟨.block hinside hlexed, by simp [text, hwritten]⟩
  | case3 => simp at h
  | case4 => simp at h
  | case5 c s _ _ _ hc ih =>
    rw [isSpacing_eq] at hc
    obtain ⟨qs, hqs, rfl⟩ := behindPiece_eq_ok.1 h
    obtain ⟨hlexed, hwritten⟩ := ih hqs
    exact ⟨.blank hc hlexed, by simp [text, hwritten]⟩
  | case6 =>
    obtain ⟨rfl, rfl⟩ := by simpa using h
    exact ⟨.nil, rfl⟩
  | case7 =>
    obtain ⟨rfl, rfl⟩ := by simpa using h
    exact ⟨.nil, rfl⟩

/-! ### What the trivia are -/

theorem triviaFrom_blank {c : Char} (h : isWhite c = true) (n : Nat) (s : Text) :
    triviaFrom n (c :: s) = located List.length n [.blank c] ++ triviaFrom (n + 1) s := by
  by_cases hc : c = '\n'
  · subst hc
    rw [triviaFrom]
    rfl
  · have hslash := (ne_of_isWhite h).2
    rw [triviaFrom]
    · simp [located, trivia?, hc]
    all_goals simp [hc, hslash]

/-- A line comment is cut where the pieces behind it begin. -/
theorem cutAtNewline_written {body : Text} (hbody : '\n' ∉ body)
    (h : ∀ p ∈ ps.head?, p = .blank '\n') :
    Text.cutAtNewline (body ++ written ps) = (body, written ps) := by
  cases ps with
  | nil =>
    rw [written_nil, List.append_nil]
    exact cutAtNewline_of_not_mem hbody
  | cons p ps =>
    obtain rfl : p = .blank '\n' := by simpa using h
    exact cutAtNewline_append_newline hbody _

/-- **The trivia of a text are those of its pieces**, at their places. -/
theorem triviaFrom_written (h : Lexed ps) (n : Nat) :
    triviaFrom n (written ps) = located List.length n ps := by
  induction h generalizing n with
  | nil => simp [triviaFrom, located]
  | @blank c ps hc _ ih =>
    change triviaFrom n (c :: written ps) = _
    rw [triviaFrom_blank hc, ih]
    simp [located, text]
  | @line body ps hbody hhead _ ih =>
    change triviaFrom n ('/' :: '/' :: (body ++ written ps)) = _
    rw [triviaFrom, cutAtNewline_written hbody hhead, ih]
    simp [located, trivia?, text, Nat.add_comm, Nat.add_left_comm]
  | @block body ps hbody _ ih =>
    have hcut := cutAtClose_append hbody (written ps)
    have hwritten : written (.block ('/' :: '*' :: (body ++ ['*', '/'])) :: ps) =
        '/' :: '*' :: (body ++ '*' :: '/' :: written ps) := by simp [text]
    rw [hwritten, triviaFrom]
    split
    · rename_i h'
      rw [hcut] at h'
      obtain ⟨rfl, rfl⟩ := by simpa using h'
      rw [ih]
      simp [located, trivia?, text, Nat.add_comm, Nat.add_left_comm]
    · rename_i h'
      rw [hcut] at h'
      simp at h'

/-- There is a comment among the trivia exactly if there is one among the pieces. -/
theorem any_located (size : Text → Nat) (n : Nat) (ps : List Piece) :
    (located size n ps).any (·.2.isComment) = ps.any isComment := by
  induction ps generalizing n with
  | nil => rfl
  | cons p ps ih =>
    rw [located, List.any_append, ih, List.any_cons]
    congr 1
    cases p with
    | blank c =>
      by_cases hc : c = '\n' <;> simp [trivia?, hc, isComment, Trivia.isComment, Trivia.comment?]
    | line text => rfl
    | block text => rfl

/-! ### Whether there is a comment -/

theorem hasPair_cons_of_ne {a b c : Char} (h : c ≠ a) (s : Text) :
    Text.hasPair a b (c :: s) = Text.hasPair a b s := by
  cases s with
  | nil => rfl
  | cons d s => simp [Text.hasPair, h]

/-- **A text has the mark of a comment** exactly if one of its pieces is a comment. -/
theorem hasComment_written (h : Lexed ps) : hasComment (written ps) = ps.any isComment := by
  induction h with
  | nil => rfl
  | @blank c ps hc _ ih =>
    have hslash := (ne_of_isWhite hc).2
    have hskip : hasComment (written (.blank c :: ps)) = hasComment (written ps) := by
      change hasComment (c :: written ps) = _
      rw [hasComment, hasComment, hasPair_cons_of_ne hslash, hasPair_cons_of_ne hslash]
    rw [hskip, ih]
    rfl
  | @line body ps _ _ _ _ => simp [hasComment, Text.hasPair, text, isComment]
  | @block body ps _ _ _ => simp [hasComment, Text.hasPair, text, isComment]

/-! ### The first line -/

theorem le_of_mem_located {n : Nat} {q : Nat × Trivia} (h : q ∈ located List.length n ps) :
    n ≤ q.1 := by
  induction ps generalizing n with
  | nil => simp [located] at h
  | cons p ps ih =>
    rcases List.mem_append.1 h with hp | hps
    · obtain ⟨t, -, rfl⟩ : ∃ t, p.trivia? = some t ∧ (n, t) = q := by simpa using hp
      exact le_rfl
    · exact le_trans (Nat.le_add_right n _) (ih hps)

/-- A text is cut in front of its first newline that is not in a comment. -/
theorem cutLine_located (n : Nat) (ps : List Piece) :
    cutLine n (located List.length n ps) (written ps) = written (firstLine ps) := by
  induction ps generalizing n with
  | nil => rfl
  | cons p ps ih =>
    by_cases hp : p = .blank '\n'
    · subst hp
      simp [located, trivia?, cutLine, firstLine]
    · have hline : firstLine (p :: ps) = p :: firstLine ps := by simp [firstLine, hp]
      have hnone : ∀ q ∈ (p.trivia?.map fun t => (n, t)).toList, q.2 ≠ .newline := by
        intro q hq
        obtain ⟨t, ht, rfl⟩ : ∃ t, p.trivia? = some t ∧ (n, t) = q := by simpa using hq
        cases p with
        | blank c =>
          have hc : c ≠ '\n' := fun hc => hp (by rw [hc])
          simp [trivia?, hc] at ht
        | line text =>
          obtain rfl := Option.some.inj ht
          simp
        | block text =>
          obtain rfl := Option.some.inj ht
          simp
      rw [hline, written_cons, written_cons, located,
        cutLine_append rfl hnone fun q hq => le_of_mem_located hq, ih]

/-- The first of the trivia is a comment exactly if there is one on the first line. -/
theorem head?_located (size : Text → Nat) (n : Nat) (ps : List Piece) :
    (located size n ps).head?.any (·.2.isComment) = (firstLine ps).any isComment := by
  induction ps generalizing n with
  | nil => rfl
  | cons p ps ih =>
    cases p with
    | blank c =>
      by_cases hc : c = '\n'
      · subst hc
        simp [located, trivia?, firstLine, Trivia.isComment, Trivia.comment?]
      · have hline : firstLine (.blank c :: ps) = .blank c :: firstLine ps := by
          simp [firstLine, hc]
        rw [hline, List.any_cons, ← ih (n + size (blank c).text)]
        simp [located, trivia?, hc, isComment]
    | line text => simp [located, trivia?, firstLine, isComment, Trivia.isComment, Trivia.comment?]
    | block text => simp [located, trivia?, firstLine, isComment, Trivia.isComment, Trivia.comment?]

theorem sameLine_eq_cutLine (s : Text) :
    sameLine s =
      if (locatedTrivia s).head?.any (·.2.isComment) then cutLine 0 (locatedTrivia s) s else [] := by
  rw [sameLine]
  cases h : locatedTrivia s with
  | nil => rfl
  | cons q rest => rfl

/-- **The part on the line of the token in front** is what is in front of the first newline
outside comments, if there is a comment in it. -/
theorem sameLine_written (h : Lexed ps) :
    sameLine (written ps) =
      if (firstLine ps).any isComment then written (firstLine ps) else [] := by
  rw [sameLine_eq_cutLine, locatedTrivia, triviaFrom_written h, head?_located, cutLine_located]

/-! ### Places in octets -/

/-- The newlines and comments of a slot, each with the number of octets in front of it. -/
def octetTrivia (slot : Text) : List (Nat × Trivia) :=
  (locatedTrivia slot).map fun q => (Text.utf8Length (slot.take q.1), q.2)

/-- Places that are counted in characters, counted in octets. -/
theorem map_located (front : Text) (ps : List Piece) :
    (located List.length front.length ps).map
        (fun q => (Text.utf8Length ((front ++ written ps).take q.1), q.2)) =
      located Text.utf8Length (Text.utf8Length front) ps := by
  induction ps generalizing front with
  | nil => rfl
  | cons p ps ih =>
    have hrest := ih (front ++ p.text)
    rw [List.length_append, List.append_assoc, ← written_cons] at hrest
    have hlength : Text.utf8Length (front ++ p.text) =
        Text.utf8Length front + Text.utf8Length p.text := by
      simp only [← Text.length_utf8, Text.utf8_append, List.length_append]
    rw [located, located, List.map_append, hrest, hlength]
    congr 1
    cases p.trivia? <;> simp

/-! ### Slots -/

namespace Parser

theorem exists_slotPieces {s rest : Text} (h : passSlot s = .ok ((), rest)) :
    ∃ ps, slotPieces s = .ok (ps, rest) := by
  rw [← map_slotPieces] at h
  cases hs : slotPieces s with
  | ok a =>
    obtain ⟨ps, r⟩ := a
    rw [hs] at h
    obtain rfl : r = rest := congrArg Prod.snd (Except.ok.inj h)
    exact ⟨ps, rfl⟩
  | error f =>
    rw [hs] at h
    simp [Except.map] at h

/-- **The comments of a slot are those that the parser passes over.** Of every slot that is read,
from whatever text, the trivia are what there is to list of the pieces that were passed over, in
order and with the octets in front of them: each comment with its text, a line comment without the
carriage returns at its end, and each newline outside comments. There is a comment mark in the slot
exactly if there is a comment among the trivia, and what is on the line of the token in front of
it ends at the first newline outside comments. -/
theorem octetTrivia_of_run_slot {s slot rest : Text} (h : Parser.slot.run s = .ok (slot, rest)) :
    ∃ ps, slotPieces s = .ok (ps, rest) ∧ Lexed ps ∧ written ps = slot ∧
      octetTrivia slot = located Text.utf8Length 0 ps ∧
      hasComment slot = (octetTrivia slot).any (·.2.isComment) ∧
      sameLine slot = if (firstLine ps).any isComment then written (firstLine ps) else [] := by
  obtain ⟨hpass, happ⟩ := run_lexeme_eq_ok.1 h
  obtain ⟨ps, hps⟩ := exists_slotPieces hpass
  obtain ⟨hlexed, hwritten⟩ := lexed_of_slotPieces hps
  obtain rfl : written ps = slot := List.append_cancel_right (hwritten.trans happ.symm)
  have hlist : octetTrivia (written ps) = located Text.utf8Length 0 ps := by
    rw [octetTrivia, locatedTrivia, triviaFrom_written hlexed]
    exact map_located [] ps
  refine ⟨ps, hps, hlexed, rfl, hlist, ?_, sameLine_written hlexed⟩
  rw [hasComment_written hlexed, hlist, any_located]

/-- A comment in a comment, carriage returns, and an opening mark that does not close itself. -/
theorem octetTrivia_of_run_slot_nested :
    Parser.slot.run "/* é // */ // x\r\r\n\t/*/ */\n\"go\"".toList =
        .ok ("/* é // */ // x\r\r\n\t/*/ */\n".toList, "\"go\"".toList) ∧
      ∃ ps, slotPieces "/* é // */ // x\r\r\n\t/*/ */\n\"go\"".toList =
          .ok (ps, "\"go\"".toList) ∧
        Lexed ps ∧ written ps = "/* é // */ // x\r\r\n\t/*/ */\n".toList ∧
        octetTrivia "/* é // */ // x\r\r\n\t/*/ */\n".toList = located Text.utf8Length 0 ps ∧
        hasComment "/* é // */ // x\r\r\n\t/*/ */\n".toList =
          (octetTrivia "/* é // */ // x\r\r\n\t/*/ */\n".toList).any (·.2.isComment) ∧
        sameLine "/* é // */ // x\r\r\n\t/*/ */\n".toList =
          if (firstLine ps).any isComment then written (firstLine ps) else [] := by
  have hgap : Gap "/* é // */ // x\r\r\n\t/*/ */\n".toList :=
    (gap_iff_scan _).2 (by decide +kernel)
  have htoken : TokenStart "\"go\"".toList := tokenStart_cons.2 ⟨by decide, by decide⟩
  have hrun := run_slot_of_gap hgap htoken
  exact ⟨hrun, octetTrivia_of_run_slot hrun⟩

end Parser

end EnvManifest
