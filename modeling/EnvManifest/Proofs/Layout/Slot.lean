import EnvManifest.Document.Layout.Slot
import EnvManifest.Proofs.Gap.Trivia

/-!
# Slots laid out

The three ways to lay out a slot write gaps: `inline` of a gap (`gap_of_inline`),
`ownLine` of a gap and of no other whole text (`gap_ownLine_iff`), and `closingLine` even of
a text that ends in a line comment (`gap_closingLine`). For the latter two the comments are
written one by one, and what holds along the way is that the text written so far is complete
(`Written.Complete`), or that it ends in a line comment for which no newline has been counted
yet (`Written.Dangling`).
-/

namespace EnvManifest

/-! ### Spaces -/

/-- A text of blanks. -/
def Spaces (s : Text) : Prop :=
  ∀ c ∈ s, isWhite c = true

theorem Spaces.append {s t : Text} (hs : Spaces s) (ht : Spaces t) : Spaces (s ++ t) := by
  intro c hc
  exact (List.mem_append.1 hc).elim (hs c) (ht c)

theorem Spaces.gap {s : Text} (hs : Spaces s) : Gap s :=
  gap_of_all_isWhite hs

theorem spaces_of_blanks {s : Text} (h : ∀ c ∈ s, (c == ' ' || c == '\t') = true) : Spaces s := by
  intro c hc
  have hblank := h c hc
  simp only [Bool.or_eq_true, beq_iff_eq] at hblank
  rcases hblank with rfl | rfl <;> rfl

/-- An indentation is a text of blanks. -/
theorem spaces_of_indentOf? {slot indent : Text} (h : indentOf? slot = some indent) :
    Spaces indent := by
  obtain ⟨line, -, rfl⟩ := Option.map_eq_some_iff.1 h
  refine spaces_of_blanks fun c hc => ?_
  simpa using List.mem_takeWhile_imp hc

/-- A line break begins with a newline. -/
theorem exists_lineBreak (one : Bool) (n : Nat) (indent : Text) :
    ∃ k, lineBreak one n indent = '\n' :: (List.replicate k '\n' ++ indent) := by
  obtain ⟨k, hk⟩ : ∃ k, (if one then 1 else max 1 (min n 2)) = k + 1 :=
    Nat.exists_eq_succ_of_ne_zero (by split <;> omega)
  exact ⟨k, by rw [lineBreak, hk, Text.repeated, List.replicate_succ, List.cons_append]⟩

theorem spaces_lineBreak (one : Bool) (newlines : Nat) {indent : Text} (h : Spaces indent) :
    Spaces (lineBreak one newlines indent) := by
  have hnewlines : ∀ n, Spaces (Text.repeated n '\n') := by
    intro n c hc
    rw [List.eq_of_mem_replicate hc]
    rfl
  exact (hnewlines _).append h

/-- A line break takes a reader out of a line comment. -/
theorem scan_lineBreak {one : Bool} {n : Nat} {indent : Text} (hindent : Spaces indent)
    {q : Lexing} (hq : q = .between ∨ q = .line) :
    scan q (lineBreak one n indent) = some .between := by
  obtain ⟨k, hk⟩ := exists_lineBreak one n indent
  have hnewlines : Spaces (List.replicate k '\n') := by
    intro c hc
    rw [List.eq_of_mem_replicate hc]
    rfl
  have hrest : Gap (List.replicate k '\n' ++ indent) := (hnewlines.append hindent).gap
  rw [hk, scan_cons]
  rcases hq with rfl | rfl <;> exact hrest.scan_eq

/-! ### On one line -/

theorem scan_join {parts : List Text} (h : ∀ t ∈ parts, scan .between t = some .between) :
    Gap (Text.join [' '] parts) := by
  induction parts with
  | nil => exact .nil
  | cons t parts ih =>
    obtain ⟨ht, hparts⟩ := List.forall_mem_cons.1 h
    have hgap : Gap t := (gap_iff_scan t).2 ht
    cases parts with
    | nil => simpa [Text.join] using hgap
    | cons u parts =>
      have hjoin : Text.join [' '] (t :: u :: parts) =
          t ++ ([' '] ++ Text.join [' '] (u :: parts)) := by
        simp [Text.join, List.intercalate_cons_cons]
      rw [hjoin]
      exact hgap.append ((Gap.blank rfl .nil).append (ih hparts))

/-- The comments of a gap without a line comment are gaps. -/
theorem gap_of_mem_comments {slot text : Text} (h : Gap slot)
    (hline : ¬(trivia slot).any Trivia.isLineComment = true)
    (htext : text ∈ (trivia slot).filterMap Trivia.comment?) : Gap text := by
  obtain ⟨t, ht, hcomment⟩ := List.mem_filterMap.1 htext
  have hsound := sound_trivia h.whole t ht
  cases t with
  | newline => simp [Trivia.comment?] at hcomment
  | lineComment => exact absurd (List.any_eq_true.2 ⟨_, ht, rfl⟩) hline
  | blockComment =>
    obtain rfl := Option.some.inj hcomment
    exact (gap_iff_scan _).2 hsound

/-- **A gap laid out on one line is a gap.** -/
theorem gap_of_inline {slot empty left right out : Text} (h : Gap slot) (hempty : Gap empty)
    (hleft : Gap left) (hright : Gap right) (hout : inline slot empty left right = some out) :
    Gap out := by
  rw [inline] at hout
  split at hout
  · simp at hout
  · rename_i hline
    have hblock : ∀ t ∈ (trivia slot).filterMap Trivia.comment?,
        scan .between t = some .between :=
      fun text htext => (gap_iff_scan _).1 (gap_of_mem_comments h hline htext)
    split at hout
    · obtain rfl := Option.some.inj hout
      exact hempty
    · obtain rfl := Option.some.inj hout
      exact (hleft.append (scan_join hblock)).append hright

/-- A slot without a comment is emptied. -/
theorem inline_of_hasComment_eq_false {slot empty left right : Text}
    (h : hasComment slot = false) : inline slot empty left right = some empty := by
  have hnewline := newline_of_hasComment_eq_false h
  have hany : (trivia slot).any Trivia.isLineComment = false := by
    refine List.any_eq_false.2 fun t ht => ?_
    rw [hnewline t ht]
    simp [Trivia.isLineComment]
  have hcomments : (trivia slot).filterMap Trivia.comment? = [] := by
    refine List.filterMap_eq_nil_iff.2 fun t ht => ?_
    rw [hnewline t ht]
    rfl
  rw [inline, hany, hcomments]
  rfl

/-- A slot that is laid out on one line or else left is a gap. -/
theorem gap_getD_inline {slot empty left right : Text} (h : Gap slot) (hempty : Gap empty)
    (hleft : Gap left) (hright : Gap right) :
    Gap ((inline slot empty left right).getD slot) := by
  cases hout : inline slot empty left right with
  | none => exact h
  | some out => exact gap_of_inline h hempty hleft hright hout

/-! ### Writing comments one by one -/

namespace Written

/-- What has been written is complete, or a newline is due behind the line comment that it
ends in. -/
def Complete (w : Written) : Prop :=
  scan .between w.out = some .between ∨ scan .between w.out = some .line ∧ w.newlines ≠ 0

/-- What has been written ends in a line comment, and no newline is due. -/
def Dangling (w : Written) : Prop :=
  scan .between w.out = some .line ∧ w.newlines = 0

variable {indent : Text} {first : Bool} {w : Written}

theorem Complete.inLine_or (h : w.Complete) :
    scan .between w.out = some .between ∨ scan .between w.out = some .line :=
  h.imp_right fun hline => hline.1

theorem Complete.scan_of_sameLine (h : w.Complete)
    (hsame : (w.newlines == 0 && !w.out.isEmpty) = true) : scan .between w.out = some .between := by
  refine h.resolve_right fun hline => hline.2 ?_
  simpa using (Bool.and_eq_true_iff.1 hsame).1

/-- What separates a comment from a complete text leaves a reader between tokens. -/
theorem Complete.scan_separator (hindent : Spaces indent) (h : w.Complete) (first : Bool) :
    scan .between (w.out ++ (if w.newlines == 0 && !w.out.isEmpty then [' ']
      else lineBreak (first && !w.placed) w.newlines indent)) = some .between := by
  split
  · rename_i hsame
    rw [scan_append_of_eq (h.scan_of_sameLine hsame)]
    rfl
  · rcases h with hbetween | ⟨hline, -⟩
    · rw [scan_append_of_eq hbetween]
      exact scan_lineBreak hindent (Or.inl rfl)
    · rw [scan_append_of_eq hline]
      exact scan_lineBreak hindent (Or.inr rfl)

/-- Behind a complete text, or a line comment if a newline comes next, whatever comes next is
written so that the text is complete again, unless it is a line comment. -/
theorem put_cases (first : Bool) (hindent : Spaces indent) {t : Trivia}
    (h : w.Complete ∨ w.Dangling ∧ t = .newline) (ht : t.Sound) :
    (w.put indent first t).Complete ∧ t.isLineComment = false ∨
      (w.put indent first t).Dangling ∧ t.isLineComment = true := by
  rcases h with h | ⟨h, rfl⟩
  · have hseparator := h.scan_separator hindent first
    cases t with
    | newline =>
      refine Or.inl ⟨?_, rfl⟩
      exact h.imp_right fun hline => ⟨hline.1, by simp [Written.put, Trivia.comment?]⟩
    | lineComment text =>
      refine Or.inr ⟨⟨?_, rfl⟩, rfl⟩
      rw [Written.put, Trivia.comment?]
      exact (scan_append_of_eq hseparator text).trans ht
    | blockComment text =>
      refine Or.inl ⟨Or.inl ?_, rfl⟩
      rw [Written.put, Trivia.comment?]
      exact (scan_append_of_eq hseparator text).trans ht
  · exact Or.inl ⟨Or.inr ⟨h.1, by simp [Written.put, Trivia.comment?]⟩, rfl⟩

/-- **Trivia are written completely**, unless the last of them is a line comment. -/
theorem foldl_put_cases (first : Bool) (hindent : Spaces indent) {ts : List Trivia}
    (hts : LinesEnd ts) (hsound : ∀ t ∈ ts, t.Sound)
    (h : w.Complete ∨ w.Dangling ∧ ∀ t ∈ ts.head?, t = .newline) :
    (ts.foldl (Written.put indent first) w).Complete ∧ (ts = [] ∨ ¬EndsInLine ts) ∨
      (ts.foldl (Written.put indent first) w).Dangling ∧ (ts = [] ∨ EndsInLine ts) := by
  induction ts generalizing w with
  | nil => exact h.imp (fun hw => ⟨hw, Or.inl rfl⟩) fun hw => ⟨hw.1, Or.inl rfl⟩
  | cons t ts ih =>
    obtain ⟨ht, hsound⟩ := List.forall_mem_cons.1 hsound
    obtain ⟨hnext, hts⟩ := List.isChain_cons.1 hts
    have hput := put_cases first hindent (h.imp_right fun hw => ⟨hw.1, hw.2 t rfl⟩) ht
    rw [List.foldl_cons]
    by_cases hnil : ts = []
    · subst hnil
      refine hput.imp (fun hw => ⟨hw.1, Or.inr ?_⟩) fun hw => ⟨hw.1, Or.inr ⟨t, rfl, hw.2⟩⟩
      simp [EndsInLine, hw.2]
    · have hrest := ih hts hsound
        (hput.imp And.left fun hw => ⟨hw.1, fun u hu => hnext u hu hw.2⟩)
      rw [endsInLine_cons (Or.inr hnil)]
      exact hrest.imp (fun hw => ⟨hw.1, Or.inr (hw.2.resolve_left hnil)⟩)
        fun hw => ⟨hw.1, Or.inr (hw.2.resolve_left hnil)⟩

end Written

/-! ### On several lines -/

variable {slot indent : Text} {first : Bool}

/-- **The comments of a whole slot are written completely**, unless the slot ends in a line
comment. -/
theorem writeComments_cases (hindent : Spaces indent) (h : Whole slot) (first : Bool) :
    (writeComments slot indent first).Complete ∧ endsInLineComment slot = false ∨
      (writeComments slot indent first).Dangling ∧ endsInLineComment slot = true := by
  have hsound := sound_trivia h
  have hends := linesEnd_trivia slot
  rw [← Bool.not_eq_true, endsInLineComment_iff, writeComments]
  -- the first thing is written without an indentation, the others are folded over
  match hts : trivia slot with
  | [] => exact Or.inl ⟨Or.inl rfl, by simp [EndsInLine]⟩
  | .newline :: ts =>
    rw [hts] at hsound hends
    have hwritten := Written.foldl_put_cases first hindent hends hsound
      (w := ⟨[], 0, false⟩) (Or.inl (Or.inl rfl))
    exact hwritten.imp (fun hw => ⟨hw.1, hw.2.resolve_left (by simp)⟩)
      fun hw => ⟨hw.1, hw.2.resolve_left (by simp)⟩
  | .lineComment text :: ts =>
    rw [hts] at hsound hends
    obtain ⟨ht, hsound⟩ := List.forall_mem_cons.1 hsound
    obtain ⟨hnext, hends⟩ := List.isChain_cons.1 hends
    have hstart : (⟨' ' :: text, 0, false⟩ : Written).Dangling := ⟨ht, rfl⟩
    by_cases hnil : ts = []
    · subst hnil
      exact Or.inr ⟨hstart, .lineComment text, rfl, rfl⟩
    · have hwritten := Written.foldl_put_cases first hindent hends hsound
        (Or.inr ⟨hstart, fun u hu => hnext u hu rfl⟩)
      rw [endsInLine_cons (Or.inr hnil)]
      exact hwritten.imp (fun hw => ⟨hw.1, hw.2.resolve_left hnil⟩)
        fun hw => ⟨hw.1, hw.2.resolve_left hnil⟩
  | .blockComment text :: ts =>
    rw [hts] at hsound hends
    obtain ⟨ht, hsound⟩ := List.forall_mem_cons.1 hsound
    obtain ⟨-, hends⟩ := List.isChain_cons.1 hends
    have hstart : (⟨' ' :: text, 0, false⟩ : Written).Complete := Or.inl ht
    rw [endsInLine_cons (Or.inl rfl)]
    by_cases hnil : ts = []
    · subst hnil
      exact Or.inl ⟨hstart, by simp [EndsInLine]⟩
    · have hwritten := Written.foldl_put_cases first hindent hends hsound (Or.inl hstart)
      exact hwritten.imp (fun hw => ⟨hw.1, hw.2.resolve_left hnil⟩)
        fun hw => ⟨hw.1, hw.2.resolve_left hnil⟩

/-- **In front of a child on its own line, a whole slot is a gap** exactly if it was one:
nothing is put behind a line comment that the slot ends in. -/
theorem gap_ownLine_iff (hindent : Spaces indent) (h : Whole slot) (first : Bool) :
    Gap (ownLine slot first indent) ↔ Gap slot := by
  rcases writeComments_cases hindent h first with ⟨hcomplete, hends⟩ | ⟨⟨hline, hzero⟩, hends⟩
  · refine iff_of_true ?_ (h.gap hends)
    rw [gap_iff_scan, ownLine]
    split
    · rename_i hsame
      have hbetween := hcomplete.resolve_right fun hline => hline.2 <| by
        simpa using (Bool.and_eq_true_iff.1 hsame).1
      rw [scan_append_of_eq hbetween]
      rfl
    · rcases hcomplete.inLine_or with hs | hs
      · rw [scan_append_of_eq hs]
        exact scan_lineBreak hindent (Or.inl rfl)
      · rw [scan_append_of_eq hs]
        exact scan_lineBreak hindent (Or.inr rfl)
  · refine iff_of_false (fun hgap => ?_) fun hgap => ?_
    · have hne : (writeComments slot indent first).out ≠ [] := by
        intro hnil
        simp [hnil] at hline
      rw [gap_iff_scan, ownLine, if_pos (by simp [hzero, hne]), scan_append_of_eq hline] at hgap
      simp [scan_cons, Lexing.next] at hgap
    · rw [hgap.endsInLineComment_eq_false] at hends
      simp at hends

/-- **A whole slot in front of a closing bracket on its own line is a gap**, since a newline
follows its comments. -/
theorem gap_closingLine {line : Text} (hindent : Spaces indent) (hline : Spaces line)
    (h : Whole slot) : Gap (closingLine slot indent line) := by
  have hscan : scan .between (writeComments slot indent false).out = some .between ∨
      scan .between (writeComments slot indent false).out = some .line := by
    rcases writeComments_cases hindent h false with ⟨hw, -⟩ | ⟨hw, -⟩
    · exact hw.inLine_or
    · exact Or.inr hw.1
  rw [gap_iff_scan, closingLine]
  rcases hscan with hs | hs <;> exact (scan_append_of_eq hs _).trans hline.gap.scan_eq

end EnvManifest
