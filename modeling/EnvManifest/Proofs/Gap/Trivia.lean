import EnvManifest.Document.Trivia
import EnvManifest.Proofs.Reading.Slot
import Mathlib.Data.List.Chain

/-!
# What a gap holds

Layout does not work on a slot character by character but on its `trivia`, the newlines
and comments in it, and writes them out again with other blanks between them. This file
says what the trivia of a whole text are like, in terms of the automaton that recognizes
gaps: each comment takes a reader from between two tokens to the end of the comment
(`Trivia.Sound`), a line comment is followed by a newline (`LinesEnd`), and the text ends
in a line comment exactly if its last trivia is one (`endsInLineComment_iff_scan`).
-/

namespace EnvManifest

/-! ### Sound trivia -/

/-- A comment is scanned as a whole, up to where it ends. -/
def Trivia.Sound : Trivia → Prop
  | .newline => True
  | .lineComment text => scan .between text = some .line
  | .blockComment text => scan .between text = some .between

/-- Behind a line comment comes a newline, if anything does. -/
def LinesEnd (ts : List Trivia) : Prop :=
  ts.IsChain fun t u => t.isLineComment = true → u = .newline

theorem dropEndWhile_lineComment (body : Text) :
    Text.dropEndWhile (· == '\r') ('/' :: '/' :: body) =
      '/' :: '/' :: Text.dropEndWhile (· == '\r') body := by
  simp only [Text.dropEndWhile, List.reverse_cons, List.append_assoc, List.dropWhile_append]
  split
  · rename_i h
    simp [List.isEmpty_iff.1 h]
  · simp

/-- A line comment without the carriage returns at its end is scanned as one. -/
theorem scan_dropEndWhile_lineComment {body : Text} (h : '\n' ∉ body) :
    scan .between (Text.dropEndWhile (· == '\r') ('/' :: '/' :: body)) = some .line := by
  rw [dropEndWhile_lineComment]
  exact scan_line_of_not_mem fun hmem => h (Text.mem_of_mem_dropEndWhile hmem)

/-- The trivia of a slot, counted from a place. -/
def kinds (n : Nat) (s : Text) : List Trivia :=
  (triviaFrom n s).map (·.2)

theorem kinds_newline (n : Nat) (s : Text) :
    kinds n ('\n' :: s) = .newline :: kinds (n + 1) s := by
  rw [kinds, triviaFrom]
  rfl

theorem not_mem_cutAtNewline (s : Text) : '\n' ∉ (Text.cutAtNewline s).1 := by
  intro h
  simpa using List.mem_takeWhile_imp h

theorem cutAtNewline_snd (s : Text) :
    (Text.cutAtNewline s).2 = [] ∨ ∃ r, (Text.cutAtNewline s).2 = '\n' :: r := by
  cases hcut : (Text.cutAtNewline s).2 with
  | nil => exact Or.inl rfl
  | cons c r =>
    have hhead := List.head?_dropWhile_not (· != '\n') s
    rw [show s.dropWhile (· != '\n') = c :: r from hcut] at hhead
    obtain rfl : c = '\n' := by simpa using hhead
    exact Or.inr ⟨r, rfl⟩

theorem linesEnd_kinds (n : Nat) (s : Text) : LinesEnd (kinds n s) := by
  rw [LinesEnd, kinds]
  fun_induction triviaFrom n s with
  | case1 n => exact List.isChain_nil
  | case2 n rest ih => exact List.isChain_cons.2 ⟨by simp [Trivia.isLineComment], ih⟩
  | case3 n rest cut ih =>
    refine List.isChain_cons.2 ⟨fun t ht _ => ?_, ih⟩
    rcases cutAtNewline_snd rest with hnil | ⟨r, hr⟩
    · simp [cut, hnil, triviaFrom] at ht
    · change t ∈ (kinds _ (Text.cutAtNewline rest).2).head? at ht
      rw [hr, kinds_newline] at ht
      simpa [eq_comm] using ht
  | case4 n rest body after hcut ih =>
    exact List.isChain_cons.2 ⟨by simp [Trivia.isLineComment], ih⟩
  | case5 => exact List.isChain_singleton _
  | case6 n c rest _ _ _ ih => exact ih

/-- The last of some trivia is a line comment. -/
def EndsInLine (ts : List Trivia) : Prop :=
  ∃ t ∈ ts.getLast?, t.isLineComment = true

theorem endsInLine_cons {t : Trivia} {ts : List Trivia} (h : t.isLineComment = false ∨ ts ≠ []) :
    EndsInLine (t :: ts) ↔ EndsInLine ts := by
  cases ts with
  | nil => simpa [EndsInLine] using h
  | cons u us => simp [EndsInLine]

/-- A reader in a line comment goes on behind it, unless the text ends in it. -/
theorem scan_of_cutAtNewline {s : Text} {q : Lexing} (h : scan .line s = some q) :
    (Text.cutAtNewline s).2 = [] ∧ q = .line ∨
      ∃ r, (Text.cutAtNewline s).2 = '\n' :: r ∧ scan .between ('\n' :: r) = some q := by
  have hscan : scan .line (Text.cutAtNewline s).2 = some q := by
    rw [← scan_append_of_eq (scan_line_of_not_mem (not_mem_cutAtNewline s)),
      Text.cutAtNewline_append]
    exact h
  rcases cutAtNewline_snd s with hnil | ⟨r, hr⟩
  · rw [hnil] at hscan
    exact Or.inl ⟨hnil, (Option.some.inj hscan).symm⟩
  · rw [hr] at hscan
    exact Or.inr ⟨r, hr, hscan⟩

/-- **What a reader finds in a text**: sound comments, unless it ends in a block comment; and
it ends in a line comment exactly if that is the last thing that it finds. -/
theorem sound_kinds {n : Nat} {s : Text} {q : Lexing} (h : scan .between s = some q) :
    (q = .between ∨ q = .line → ∀ t ∈ kinds n s, t.Sound) ∧
      (q = .line ↔ EndsInLine (kinds n s)) := by
  rw [kinds]
  fun_induction triviaFrom n s with
  | case1 n =>
    obtain rfl := Option.some.inj h
    simp [EndsInLine]
  | case2 n rest ih =>
    obtain ⟨hsound, hends⟩ := ih h
    exact ⟨fun hq => List.forall_mem_cons.2 ⟨trivial, hsound hq⟩,
      hends.trans (endsInLine_cons (Or.inl rfl)).symm⟩
  | case3 n rest cut ih =>
    have hline := scan_dropEndWhile_lineComment (not_mem_cutAtNewline rest)
    -- the comment runs to the end of the text, or a newline is left behind it
    rcases scan_of_cutAtNewline h with ⟨hnil, rfl⟩ | ⟨r, hr, hbetween⟩
    · rw [show cut.2 = [] from hnil, triviaFrom]
      exact ⟨fun _ => by simpa [Trivia.Sound] using hline, by simp [EndsInLine, Trivia.isLineComment]⟩
    · rw [← hr] at hbetween
      obtain ⟨hsound, hends⟩ := ih hbetween
      refine ⟨fun hq => List.forall_mem_cons.2 ⟨hline, hsound hq⟩, ?_⟩
      have hne : kinds (n + 2 + cut.1.length) cut.2 ≠ [] := by
        rw [show cut.2 = '\n' :: r from hr, kinds_newline]
        simp
      exact hends.trans (endsInLine_cons (Or.inr hne)).symm
  | case4 n rest body after hcut ih =>
    have hafter : scan .between after = some q := by
      rw [← scan_block_of_cutAtClose hcut]
      exact h
    obtain ⟨hsound, hends⟩ := ih hafter
    have hblock : scan .between ('/' :: '*' :: body) = some .between := by
      simpa using scan_blockComment hcut []
    exact ⟨fun hq => List.forall_mem_cons.2 ⟨hblock, hsound hq⟩,
      hends.trans (endsInLine_cons (Or.inl rfl)).symm⟩
  | case5 n rest hcut =>
    have hblock : scan .block rest = some q := h
    -- a block comment that is never closed leaves the reader inside it
    have hnot : ¬(q = .between ∨ q = .line) := by
      rcases scan_block_of_cutAtClose_none hcut with hs | hs <;>
        rw [hs] at hblock <;> obtain rfl := Option.some.inj hblock <;> simp
    refine ⟨fun hq => absurd hq hnot, fun hq => absurd (Or.inr hq) hnot, ?_⟩
    simp [EndsInLine, Trivia.isLineComment]
  | case6 n c rest hnewline hslash hstar ih =>
    by_cases hc : isWhite c = true
    · rw [scan_between_blank hc] at h
      exact ih h
    · -- a slash that begins no comment stops the reader, unless it is the last character
      rw [scan_cons, Lexing.next, if_neg hc] at h
      split at h
      · rename_i hc'
        subst hc'
        cases rest with
        | nil =>
          obtain rfl : Lexing.slash = q := Option.some.inj h
          simp [triviaFrom, EndsInLine]
        | cons d rest =>
          exfalso
          have hd₁ : d ≠ '/' := fun hd => hslash rest rfl (by rw [hd])
          have hd₂ : d ≠ '*' := fun hd => hstar rest rfl (by rw [hd])
          simp [scan_cons, Lexing.next, hd₁, hd₂] at h
      · simp at h

/-! ### Slots -/

variable {s t : Text}

theorem linesEnd_trivia (s : Text) : LinesEnd (trivia s) :=
  linesEnd_kinds 0 s

theorem sound_trivia (h : Whole s) : ∀ t ∈ trivia s, t.Sound := by
  rcases (whole_iff_scan s).1 h with hs | hs
  · exact (sound_kinds (n := 0) hs).1 (Or.inl rfl)
  · exact (sound_kinds (n := 0) hs).1 (Or.inr rfl)

theorem endsInLineComment_iff : endsInLineComment s = true ↔ EndsInLine (trivia s) := by
  rw [endsInLineComment, EndsInLine]
  cases (trivia s).getLast? <;> simp

/-- A text ends in a line comment if that is where a reader is left. -/
theorem endsInLineComment_iff_scan {q : Lexing} (h : scan .between s = some q) :
    endsInLineComment s = true ↔ q = .line := by
  rw [endsInLineComment_iff]
  exact (sound_kinds (n := 0) h).2.symm

theorem Gap.endsInLineComment_eq_false (h : Gap s) : endsInLineComment s = false := by
  rw [← Bool.not_eq_true, endsInLineComment_iff_scan h.scan_eq]
  simp

/-- A whole text is a gap unless it ends in a line comment. -/
theorem Whole.gap (h : Whole s) (hends : endsInLineComment s = false) : Gap s := by
  rcases (whole_iff_scan s).1 h with hs | hs
  · exact (gap_iff_scan s).2 hs
  · rw [(endsInLineComment_iff_scan hs).2 rfl] at hends
    simp at hends

theorem hasPair_of_cons {a b c : Char} (h : Text.hasPair a b (c :: s) = false) :
    Text.hasPair a b s = false := by
  cases s with
  | nil => rfl
  | cons d s =>
    rw [Text.hasPair, Bool.or_eq_false_iff] at h
    exact h.2

/-- Without a comment a reader stays between tokens, or stops behind a slash. -/
theorem scan_of_hasComment_eq_false {q : Lexing} (hs : hasComment s = false)
    (h : scan .between s = some q) : q = .between ∨ q = .slash := by
  induction s with
  | nil => exact Or.inl (Option.some.inj h).symm
  | cons c s ih =>
    obtain ⟨hline, hblock⟩ := Bool.or_eq_false_iff.1 hs
    by_cases hc : isWhite c = true
    · rw [scan_between_blank hc] at h
      exact ih (Bool.or_eq_false_iff.2 ⟨hasPair_of_cons hline, hasPair_of_cons hblock⟩) h
    · rw [scan_cons, Lexing.next, if_neg hc] at h
      split at h
      · rename_i hc'
        subst hc'
        cases s with
        | nil => exact Or.inr (Option.some.inj h).symm
        | cons d s =>
          have hd₁ : d ≠ '/' := by
            rintro rfl
            simp [Text.hasPair] at hline
          have hd₂ : d ≠ '*' := by
            rintro rfl
            simp [Text.hasPair] at hblock
          simp [scan_cons, Lexing.next, hd₁, hd₂] at h
      · simp at h

/-- Without a comment there are only newlines. -/
theorem newline_of_hasComment_eq_false (h : hasComment s = false) :
    ∀ t ∈ trivia s, t = .newline := by
  obtain ⟨hline, hblock⟩ := Bool.or_eq_false_iff.1 h
  suffices hkinds : ∀ n, ∀ t ∈ kinds n s, t = .newline from hkinds 0
  intro n
  clear h
  rw [kinds]
  fun_induction triviaFrom n s with
  | case1 n => simp
  | case2 n rest ih =>
    exact List.forall_mem_cons.2 ⟨rfl, ih (hasPair_of_cons hline) (hasPair_of_cons hblock)⟩
  | case3 n rest cut ih => simp [Text.hasPair] at hline
  | case4 n rest body after hcut ih => simp [Text.hasPair] at hblock
  | case5 n rest hcut => simp [Text.hasPair] at hblock
  | case6 n c rest _ _ _ ih => exact ih (hasPair_of_cons hline) (hasPair_of_cons hblock)

/-! ### Trimming -/

theorem isBlank_of_isWhite {c : Char} (h : isWhite c = true) : isBlank c = true := by
  rcases isWhite_iff.1 h with rfl | rfl | rfl | rfl <;> decide

theorem Gap.dropWhile_isBlank (h : Gap s) : Gap (s.dropWhile isBlank) := by
  induction h with
  | nil => exact .nil
  | blank hc _ ih =>
    rw [List.dropWhile_cons_of_pos (isBlank_of_isWhite hc)]
    exact ih
  | line hbody hs _ =>
    rw [List.dropWhile_cons_of_neg (by decide)]
    exact .line hbody hs
  | block hbody hs _ =>
    rw [List.dropWhile_cons_of_neg (by decide)]
    exact .block hbody hs

/-- A blank is no part of a mark. -/
theorem ne_of_isBlank {c : Char} (h : isBlank c = true) : c ≠ '*' ∧ c ≠ '/' := by
  constructor
  · rintro rfl
    revert h
    decide
  · rintro rfl
    revert h
    decide

/-- Blanks do not close a block comment. -/
theorem scan_blanks_of_block {q : Lexing} (hq : q = .block ∨ q = .star)
    (ht : ∀ c ∈ t, isBlank c = true) : scan q t = some .block ∨ scan q t = some .star := by
  induction t generalizing q with
  | nil => rcases hq with rfl | rfl <;> simp
  | cons c t ih =>
    obtain ⟨hc, ht⟩ := List.forall_mem_cons.1 ht
    obtain ⟨hstar, hslash⟩ := ne_of_isBlank hc
    have hnext : q.next c = some .block := by
      rcases hq with rfl | rfl <;> simp [Lexing.next, hstar, hslash]
    rw [scan_cons, hnext]
    exact ih (Or.inl rfl) ht

/-- A gap without the blanks at its end may only lack the newline of a line comment. -/
theorem whole_of_append_blanks (h : Gap (s ++ t)) (ht : ∀ c ∈ t, isBlank c = true) : Whole s := by
  rw [gap_iff_scan, scan_append] at h
  obtain ⟨q, hq, hrest⟩ := Option.bind_eq_some_iff.1 h
  rw [whole_iff_scan]
  cases q with
  | between => exact Or.inl hq
  | line => exact Or.inr hq
  | slash =>
    exfalso
    cases t with
    | nil => simp at hrest
    | cons c t =>
      obtain ⟨hstar, hslash⟩ := ne_of_isBlank (ht c List.mem_cons_self)
      simp [scan_cons, Lexing.next, hstar, hslash] at hrest
  | block =>
    exfalso
    rcases scan_blanks_of_block (Or.inl rfl) ht with hs | hs <;> rw [hs] at hrest <;>
      simp at hrest
  | star =>
    exfalso
    rcases scan_blanks_of_block (Or.inr rfl) ht with hs | hs <;> rw [hs] at hrest <;>
      simp at hrest

/-- **A trimmed gap is a whole text.** -/
theorem Gap.whole_trim (h : Gap s) : Whole (Text.trim s) := by
  have hgap := h.dropWhile_isBlank
  rw [Text.trim, Text.trimEnd, Text.dropEndWhile]
  generalize s.dropWhile isBlank = t at hgap
  have hsplit : (t.reverse.dropWhile isBlank).reverse ++ (t.reverse.takeWhile isBlank).reverse = t := by
    rw [← List.reverse_append, List.takeWhile_append_dropWhile, List.reverse_reverse]
  rw [← hsplit] at hgap
  exact whole_of_append_blanks hgap fun c hc => List.mem_takeWhile_imp (List.mem_reverse.1 hc)

end EnvManifest
