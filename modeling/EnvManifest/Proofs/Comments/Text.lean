import EnvManifest.Proofs.Gap.Trivia
import EnvManifest.Proofs.Grammar

/-!
# The comments of a text

`Text.comments` lists the comments of a document from its text alone: it knows no tree and no
slots, only that what stands in a string literal is no comment. Tokens have no comments
(`comments_token`, `comments_literal`), and the comments of a gap come in front of those of what
is behind it (`Gap.comments_append`).

A line comment that nothing ends goes on into what is glued to it. If that begins a line, what
the comment takes is blank, and nothing is lost but for blanks at its end. So comments are
compared without these (`Text.bare`), and `Text.remarks` are the comments of a text so trimmed:
with them `remarks_append` holds of all whole texts.
-/

namespace EnvManifest

namespace Text

/-! ### Comments -/

/-- What is behind a string literal, from behind its opening quote. -/
def afterQuote : Text → Text
  | [] => []
  | '"' :: rest => rest
  | '\\' :: _ :: rest => afterQuote rest
  | _ :: rest => afterQuote rest

theorem length_afterQuote_le (s : Text) : (afterQuote s).length ≤ s.length := by
  fun_induction afterQuote s with
  | case1 => exact Nat.le_refl _
  | case2 rest => exact Nat.le_succ _
  | case3 c rest ih => exact Nat.le_trans ih (Nat.le_add_right _ 2)
  | case4 c rest _ _ ih => exact Nat.le_succ_of_le ih

/-- The comments of a text, with their marks, in order. A line comment ends in front of the
newline; a block comment that is not closed runs to the end. -/
def comments (s : Text) : List Text :=
  match s with
  | [] => []
  | '"' :: rest => comments (afterQuote rest)
  | '/' :: '/' :: rest =>
    let cut := cutAtNewline rest
    ('/' :: '/' :: cut.1) :: comments cut.2
  | '/' :: '*' :: rest =>
    match _h : cutAtClose rest with
    | some (body, after) => ('/' :: '*' :: body) :: comments after
    | none => ['/' :: '*' :: rest]
  | _ :: rest => comments rest
termination_by s.length
decreasing_by
  · exact Nat.lt_succ_of_le (length_afterQuote_le rest)
  · have hlength := congrArg List.length (cutAtNewline_append rest)
    simp only [List.length_append] at hlength
    simp only [List.length_cons]
    omega
  · have hlength := congrArg List.length (append_of_cutAtClose _h)
    simp only [List.length_append] at hlength
    simp only [List.length_cons]
    omega
  · simp

variable {s t : Text}

@[simp]
theorem comments_nil : comments [] = [] := by
  rw [comments]

theorem comments_cons {c : Char} (hquote : c ≠ '"') (hslash : c ≠ '/') (s : Text) :
    comments (c :: s) = comments s := by
  rw [comments] <;> simp [hquote, hslash]

/-- A token without quotes has no comments. -/
theorem comments_token (h : ∀ c ∈ s, c ≠ '"' ∧ c ≠ '/') (t : Text) :
    comments (s ++ t) = comments t := by
  induction s with
  | nil => rfl
  | cons c s ih =>
    obtain ⟨⟨hquote, hslash⟩, hs⟩ := List.forall_mem_cons.1 h
    rw [List.cons_append, comments_cons hquote hslash, ih hs]

theorem comments_blanks (h : ∀ c ∈ s, isWhite c = true) (t : Text) :
    comments (s ++ t) = comments t :=
  comments_token (fun c hc => ne_of_isWhite (h c hc)) t

theorem comments_line {body : Text} (h : '\n' ∉ body) (t : Text) :
    comments ('/' :: '/' :: (body ++ '\n' :: t)) = ('/' :: '/' :: body) :: comments t := by
  rw [comments, cutAtNewline_append_newline h, comments_cons (by decide) (by decide)]

/-- A line comment that nothing ends. -/
theorem comments_line_end {body : Text} (h : '\n' ∉ body) :
    comments ('/' :: '/' :: body) = ['/' :: '/' :: body] := by
  rw [comments, cutAtNewline_of_not_mem h, comments_nil]

theorem comments_block {cut rest : Text} (h : cutAtClose s = some (cut, rest)) :
    comments ('/' :: '*' :: s) = ('/' :: '*' :: cut) :: comments rest := by
  rw [comments]
  split
  · rename_i h'
    obtain ⟨rfl, rfl⟩ := Prod.mk.inj (Option.some.inj (h'.symm.trans h))
    rfl
  · rename_i h'
    rw [h] at h'
    simp at h'

/-! ### Literals -/

theorem afterQuote_cons {c : Char} (hquote : c ≠ '"') (hescape : c ≠ '\\') (s : Text) :
    afterQuote (c :: s) = afterQuote s := by
  rw [afterQuote] <;> simp [hquote, hescape]

theorem afterQuote_token (h : ∀ c ∈ s, c ≠ '"' ∧ c ≠ '\\') (t : Text) :
    afterQuote (s ++ t) = afterQuote t := by
  induction s with
  | nil => rfl
  | cons c s ih =>
    obtain ⟨⟨hquote, hescape⟩, hs⟩ := List.forall_mem_cons.1 h
    rw [List.cons_append, afterQuote_cons hquote hescape, ih hs]

theorem afterQuote_unit {u : Nat} (h : IsUnit s u) (t : Text) :
    afterQuote (s ++ t) = afterQuote t := by
  obtain ⟨ha, hb, hc, hd⟩ := h
  have hne {c : Char} {n : Nat} (h : hexValue? c = some n) : c ≠ '"' ∧ c ≠ '\\' :=
    ⟨ne_of_hexValue? h rfl, ne_of_hexValue? h rfl⟩
  refine afterQuote_token ?_ t
  simp [hne ha, hne hb, hne hc, hne hd]

/-- The quote behind the body of a literal is the first one that is not escaped. -/
theorem afterQuote_of_spells {body v : Text} (h : Spells body v) (t : Text) :
    afterQuote (body ++ '"' :: t) = t := by
  induction h with
  | nil => rw [List.nil_append, afterQuote]
  | plain _ hquote hescape _ ih => rw [List.cons_append, afterQuote_cons hquote hescape, ih]
  | short _ _ ih =>
    rw [List.cons_append, List.cons_append, afterQuote]
    exact ih
  | unit hunit _ _ ih =>
    rw [List.cons_append, List.cons_append, List.append_assoc, afterQuote, afterQuote_unit hunit]
    exact ih
  | pair hhigh _ hlow _ _ ih =>
    rw [List.cons_append, List.cons_append, List.append_assoc, afterQuote, afterQuote_unit hhigh,
      List.cons_append, List.cons_append, List.append_assoc, afterQuote, afterQuote_unit hlow]
    exact ih

/-- A literal has no comments. -/
theorem comments_literal {l : Literal} (h : IsLiteral l) (t : Text) :
    comments (l.raw ++ t) = comments t := by
  obtain ⟨body, hraw, hspells⟩ := h
  rw [hraw, List.cons_append, List.append_assoc, List.singleton_append, comments,
    afterQuote_of_spells hspells]

/-! ### Blanks at the end -/

/-- A comment without the blanks at its end. -/
def bare (comment : Text) : Text :=
  dropEndWhile isWhite comment

/-- The comments of a text without the blanks at their ends. -/
def remarks (s : Text) : List Text :=
  (comments s).map bare

@[simp]
theorem remarks_nil : remarks [] = [] := by
  rw [remarks, comments_nil, List.map_nil]

/-- There is nothing but blanks up to the first newline of a text, and there is one. -/
def StartsLine (s : Text) : Prop :=
  ∃ blanks rest, s = blanks ++ '\n' :: rest ∧ ∀ c ∈ blanks, isWhite c = true ∧ c ≠ '\n'

/-- A text without characters of one kind at its end, and then without those of a wider kind. -/
theorem dropEndWhile_dropEndWhile {p q : Char → Bool} (h : ∀ c, p c = true → q c = true)
    (s : Text) :
    dropEndWhile q (dropEndWhile p s) = dropEndWhile q s := by
  have hsplit : dropEndWhile p s ++ (s.reverse.takeWhile p).reverse = s := by
    rw [dropEndWhile, ← List.reverse_append, List.takeWhile_append_dropWhile, List.reverse_reverse]
  conv_rhs => rw [← hsplit]
  have hdropped : ∀ c ∈ (s.reverse.takeWhile p).reverse, q c = true :=
    fun c hc => h c (List.mem_takeWhile_imp (List.mem_reverse.1 hc))
  exact (dropEndWhile_append hdropped _).symm

theorem bare_append (h : ∀ c ∈ t, isWhite c = true) (s : Text) : bare (s ++ t) = bare s :=
  dropEndWhile_append h s

theorem remarks_blanks (h : ∀ c ∈ s, isWhite c = true) (t : Text) :
    remarks (s ++ t) = remarks t := by
  rw [remarks, comments_blanks h, remarks]

end Text

open Text

variable {s t : Text}

/-! ### Slots -/

/-- **The comments of a gap come first.** -/
theorem Gap.comments_append (h : Gap s) (t : Text) :
    comments (s ++ t) = comments s ++ comments t := by
  induction h with
  | nil => rw [comments_nil]; rfl
  | @blank c s hc _ ih =>
    obtain ⟨hquote, hslash⟩ := ne_of_isWhite hc
    rw [List.cons_append, comments_cons hquote hslash, comments_cons hquote hslash, ih]
  | @line body s hbody _ ih =>
    have hsplit : '/' :: '/' :: (body ++ '\n' :: s) ++ t =
        '/' :: '/' :: (body ++ '\n' :: (s ++ t)) := by
      simp
    rw [hsplit, comments_line hbody, comments_line hbody, ih]
    rfl
  | @block body s hbody _ ih =>
    have hsplit : '/' :: '*' :: (body ++ '*' :: '/' :: s) ++ t =
        '/' :: '*' :: (body ++ '*' :: '/' :: (s ++ t)) := by
      simp
    rw [hsplit, comments_block (cutAtClose_append hbody _),
      comments_block (cutAtClose_append hbody _), ih]
    rfl

theorem Gap.remarks_append (h : Gap s) (t : Text) : remarks (s ++ t) = remarks s ++ remarks t := by
  rw [remarks, h.comments_append, List.map_append]
  rfl

/-- **The comments of a whole text come first**, if it is a gap or what is behind it begins a
line. -/
theorem Whole.remarks_append (hs : Whole s) (h : Gap s ∨ StartsLine t) :
    remarks (s ++ t) = remarks s ++ remarks t := by
  rcases hs.cases with hgap | ⟨g, body, rfl, hg, hbody⟩
  · exact hgap.remarks_append t
  · rcases h with hgap | ⟨blanks, rest, rfl, hblanks⟩
    · exact hgap.remarks_append t
    · -- the comment takes the blanks in front of the newline
      have hline : '\n' ∉ body ++ blanks := by
        rw [List.mem_append, not_or]
        exact ⟨hbody, fun hmem => (hblanks _ hmem).2 rfl⟩
      have hbehind : remarks (blanks ++ '\n' :: rest) = remarks rest := by
        rw [remarks_blanks fun c hc => (hblanks c hc).1, remarks,
          comments_cons (by decide) (by decide), remarks]
      have hcomment : remarks ('/' :: '/' :: ((body ++ blanks) ++ '\n' :: rest)) =
          remarks ('/' :: '/' :: body) ++ remarks rest := by
        rw [remarks, comments_line hline, remarks, comments_line_end hbody, List.map_cons,
          List.map_cons,
          show bare ('/' :: '/' :: (body ++ blanks)) = bare ('/' :: '/' :: body) from
            bare_append (fun c hc => (hblanks c hc).1) ('/' :: '/' :: body)]
        rfl
      have hsplit : g ++ '/' :: '/' :: body ++ (blanks ++ '\n' :: rest) =
          g ++ '/' :: '/' :: ((body ++ blanks) ++ '\n' :: rest) := by
        simp
      rw [hsplit, hg.remarks_append, hg.remarks_append, hcomment, hbehind, List.append_assoc]

/-! ### Trivia -/

/-- The texts of the comments among some trivia, without the blanks at their ends. -/
def remarksOf (ts : List Trivia) : List Text :=
  (ts.filterMap Trivia.comment?).map bare

/-- A comment is all that there is in its text. -/
def Trivia.Alone (t : Trivia) : Prop :=
  ∀ text ∈ t.comment?, comments text = [text]

/-- **The comments of a whole text are those among its trivia**, each of which is alone. -/
theorem remarks_kinds {n : Nat} {q : Lexing} (h : scan .between s = some q)
    (hq : q = .between ∨ q = .line) :
    remarks s = remarksOf (kinds n s) ∧ ∀ t ∈ kinds n s, t.Alone := by
  rw [kinds]
  fun_induction triviaFrom n s with
  | case1 n => simp [remarks, remarksOf]
  | case2 n rest ih =>
    obtain ⟨hrest, halone⟩ := ih h
    refine ⟨?_, List.forall_mem_cons.2 ⟨by simp [Trivia.Alone, Trivia.comment?], halone⟩⟩
    rw [remarks, comments_cons (by decide) (by decide)]
    exact hrest
  | case3 n rest cut ih =>
    have hbare : bare (Text.dropEndWhile (· == '\r') ('/' :: '/' :: cut.1)) =
        bare ('/' :: '/' :: cut.1) :=
      dropEndWhile_dropEndWhile (fun c hc => by rw [beq_iff_eq.1 hc]; rfl) _
    have hline : (Trivia.lineComment
        (Text.dropEndWhile (· == '\r') ('/' :: '/' :: cut.1))).Alone := by
      rintro text htext
      obtain rfl := Option.some.inj htext
      rw [dropEndWhile_lineComment]
      exact comments_line_end fun hmem => not_mem_cutAtNewline rest (Text.mem_of_mem_dropEndWhile hmem)
    -- a newline is behind the comment, unless it runs to the end of the text
    have hrest : remarks cut.2 = remarksOf ((triviaFrom (n + 2 + cut.1.length) cut.2).map (·.2)) ∧
        ∀ t ∈ (triviaFrom (n + 2 + cut.1.length) cut.2).map (·.2), t.Alone := by
      rcases scan_of_cutAtNewline h with ⟨hnil, -⟩ | ⟨r, hr, hbetween⟩
      · rw [show cut.2 = [] from hnil, triviaFrom]
        simp [remarks, remarksOf]
      · rw [← hr] at hbetween
        exact ih hbetween
    refine ⟨?_, List.forall_mem_cons.2 ⟨hline, hrest.2⟩⟩
    rw [remarks, comments, List.map_cons]
    exact (congrArg₂ List.cons hbare.symm hrest.1)
  | case4 n rest body after hcut ih =>
    have hafter : scan .between after = some q := by
      rw [← scan_block_of_cutAtClose hcut]
      exact h
    obtain ⟨hrest, halone⟩ := ih hafter
    have hblock : (Trivia.blockComment ('/' :: '*' :: body)).Alone := by
      rintro text htext
      obtain rfl := Option.some.inj htext
      obtain ⟨b, rfl, hb, -⟩ := body_of_cutAtClose hcut
      rw [comments_block (cutAtClose_append hb []), comments_nil]
    refine ⟨?_, List.forall_mem_cons.2 ⟨hblock, halone⟩⟩
    rw [remarks, comments_block hcut, List.map_cons]
    exact congrArg _ hrest
  | case5 n rest hcut =>
    have hblock : scan .block rest = some q := h
    rcases scan_block_of_cutAtClose_none hcut with hs | hs <;>
      rw [hs] at hblock <;> obtain rfl := Option.some.inj hblock <;> simp at hq
  | case6 n c rest hnewline hslash hstar ih =>
    have hc := isWhite_of_scan h hq hslash hstar
    obtain ⟨hquote, hslash'⟩ := ne_of_isWhite hc
    rw [scan_between_blank hc] at h
    rw [remarks, comments_cons hquote hslash']
    exact ih h

theorem Whole.remarks_eq (h : Whole s) : remarks s = remarksOf (trivia s) := by
  rcases (whole_iff_scan s).1 h with hs | hs
  · exact (remarks_kinds hs (Or.inl rfl)).1
  · exact (remarks_kinds hs (Or.inr rfl)).1

theorem Whole.alone (h : Whole s) : ∀ t ∈ trivia s, t.Alone := by
  rcases (whole_iff_scan s).1 h with hs | hs
  · exact (remarks_kinds hs (Or.inl rfl)).2
  · exact (remarks_kinds hs (Or.inr rfl)).2

theorem Trivia.Alone.remarks_eq {text : Text} {t : Trivia} (h : t.Alone)
    (ht : t.comment? = some text) : remarks text = [bare text] := by
  rw [remarks, h text ht]
  rfl

end EnvManifest
