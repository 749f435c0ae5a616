import EnvManifest.Proofs.Comments.Text
import EnvManifest.Proofs.Layout.Slot

/-!
# Comments of slots laid out

The three ways to lay out a slot keep its comments in order, but for blanks at their ends:
`inline` of a gap (`remarks_getD_inline`), `ownLine` of a gap (`remarks_ownLine`) and
`closingLine` of any whole text (`remarks_closingLine`). For the latter two the comments are
written one by one, and each goes behind those that have been written (`Written.remarks_put`).
-/

namespace EnvManifest

open Text

/-! ### Blanks -/

theorem Spaces.remarks_append {s : Text} (h : Spaces s) (t : Text) : remarks (s ++ t) = remarks t :=
  remarks_blanks h t

theorem Spaces.remarks_eq_nil {s : Text} (h : Spaces s) : remarks s = [] := by
  have happend := h.remarks_append []
  rwa [List.append_nil, remarks_nil] at happend

/-- A slot without comments has none. -/
theorem remarks_eq_nil_of_hasComment {s : Text} (h : Whole s) (hs : hasComment s = false) :
    remarks s = [] := by
  have hnewline := newline_of_hasComment_eq_false hs
  have hcomments : (trivia s).filterMap Trivia.comment? = [] := by
    refine List.filterMap_eq_nil_iff.2 fun t ht => ?_
    rw [hnewline t ht]
    rfl
  rw [h.remarks_eq, remarksOf, hcomments]
  rfl

theorem remarksOf_cons (t : Trivia) (ts : List Trivia) :
    remarksOf (t :: ts) = remarksOf [t] ++ remarksOf ts := by
  rw [remarksOf, remarksOf, remarksOf, ← List.map_append, ← List.filterMap_append,
    List.singleton_append]

/-! ### On one line -/

/-- Comments joined by spaces come one after the other. -/
theorem remarks_join {parts : List Text} (hgap : ∀ t ∈ parts, Gap t)
    (halone : ∀ t ∈ parts, comments t = [t]) (rest : Text) :
    remarks (Text.join [' '] parts ++ rest) = parts.map bare ++ remarks rest := by
  induction parts with
  | nil => rfl
  | cons t parts ih =>
    obtain ⟨ht, hparts⟩ := List.forall_mem_cons.1 hgap
    obtain ⟨htext, htexts⟩ := List.forall_mem_cons.1 halone
    have hone : remarks t = [bare t] := by
      rw [remarks, htext]
      rfl
    cases parts with
    | nil =>
      have hjoin : Text.join [' '] [t] = t := by simp [Text.join]
      rw [hjoin, ht.remarks_append, hone]
      rfl
    | cons u parts =>
      have hjoin : Text.join [' '] (t :: u :: parts) ++ rest =
          t ++ ([' '] ++ (Text.join [' '] (u :: parts) ++ rest)) := by
        simp [Text.join, List.intercalate_cons_cons]
      have hspace : Spaces [' '] := spaces_of_blanks (by simp)
      rw [hjoin, ht.remarks_append, hspace.remarks_append, ih hparts htexts, hone]
      rfl

/-- **A gap laid out on one line, or else left, keeps its comments.** -/
theorem remarks_getD_inline {slot empty left right : Text} (h : Gap slot)
    (hempty : remarks empty = [])
    (hleft : Spaces left) (hright : Spaces right) :
    remarks ((inline slot empty left right).getD slot) = remarks slot := by
  rw [h.whole.remarks_eq, inline]
  split
  · rw [Option.getD_none, h.whole.remarks_eq]
  · rename_i hline
    have hblock : ∀ text ∈ (trivia slot).filterMap Trivia.comment?,
        Gap text ∧ comments text = [text] := by
      intro text htext
      obtain ⟨t, ht, hcomment⟩ := List.mem_filterMap.1 htext
      exact ⟨gap_of_mem_comments h hline htext, h.whole.alone t ht text hcomment⟩
    rw [remarksOf]
    split
    · rename_i hnil
      rw [Option.getD_some, hempty, hnil]
      rfl
    · rw [Option.getD_some, List.append_assoc, hleft.remarks_append,
        remarks_join (fun t ht => (hblock t ht).1) (fun t ht => (hblock t ht).2),
        hright.remarks_eq_nil, List.append_nil]

/-! ### Writing comments one by one -/

theorem startsLine_lineBreak (one : Bool) (n : Nat) (indent rest : Text) :
    StartsLine (lineBreak one n indent ++ rest) := by
  obtain ⟨k, hk⟩ := exists_lineBreak one n indent
  rw [hk]
  exact ⟨[], List.replicate k '\n' ++ indent ++ rest, rfl, by simp⟩

namespace Written

variable {indent : Text} {first : Bool} {w : Written}

theorem Complete.whole (h : w.Complete) : Whole w.out :=
  (whole_iff_scan _).2 h.inLine_or

/-- What separates a text from the comments written so far takes none of them. -/
theorem Complete.remarks_separator (hindent : Spaces indent) (h : w.Complete) (first : Bool)
    (rest : Text) :
    remarks (w.out ++ ((if w.newlines == 0 && !w.out.isEmpty then [' ']
      else lineBreak (first && !w.placed) w.newlines indent) ++ rest)) =
      remarks w.out ++ remarks rest := by
  split
  · rename_i hsame
    have hgap : Gap w.out := (gap_iff_scan _).2 (h.scan_of_sameLine hsame)
    have hspace : Spaces [' '] := spaces_of_blanks (by simp)
    rw [hgap.remarks_append, hspace.remarks_append]
  · rw [h.whole.remarks_append (Or.inr (startsLine_lineBreak _ _ _ _)),
      (spaces_lineBreak _ _ hindent).remarks_append]

/-- **What comes next is written behind the comments so far.** -/
theorem remarks_put (first : Bool) (hindent : Spaces indent) {t : Trivia}
    (h : w.Complete ∨ w.Dangling ∧ t = .newline) (ht : t.Alone) :
    remarks (w.put indent first t).out = remarks w.out ++ remarksOf [t] := by
  cases hcomment : t.comment? with
  | none => simp [Written.put, remarksOf, hcomment]
  | some text =>
    have hcomplete : w.Complete := by
      refine h.resolve_right fun hw => ?_
      rw [hw.2] at hcomment
      simp [Trivia.comment?] at hcomment
    rw [Written.put, hcomment]
    dsimp only
    rw [List.append_assoc, hcomplete.remarks_separator hindent, ht.remarks_eq hcomment]
    simp [remarksOf, hcomment]

theorem remarks_foldl_put (first : Bool) (hindent : Spaces indent) {ts : List Trivia}
    (hts : LinesEnd ts) (hsound : ∀ t ∈ ts, t.Sound) (halone : ∀ t ∈ ts, t.Alone)
    (h : w.Complete ∨ w.Dangling ∧ ∀ t ∈ ts.head?, t = .newline) :
    remarks (ts.foldl (Written.put indent first) w).out = remarks w.out ++ remarksOf ts := by
  induction ts generalizing w with
  | nil => simp [remarksOf]
  | cons t ts ih =>
    obtain ⟨ht, hsound⟩ := List.forall_mem_cons.1 hsound
    obtain ⟨ht', halone⟩ := List.forall_mem_cons.1 halone
    obtain ⟨hnext, hts⟩ := List.isChain_cons.1 hts
    have hw : w.Complete ∨ w.Dangling ∧ t = .newline := h.imp_right fun hw => ⟨hw.1, hw.2 t rfl⟩
    have hput := put_cases first hindent hw ht
    rw [List.foldl_cons, ih hts hsound halone
        (hput.imp And.left fun hw => ⟨hw.1, fun u hu => hnext u hu hw.2⟩),
      remarks_put first hindent hw ht', remarksOf_cons t ts, List.append_assoc]

end Written

/-! ### On several lines -/

variable {slot indent : Text} {first : Bool}

/-- The comments of a whole slot are written in order. -/
theorem remarks_writeComments (hindent : Spaces indent) (h : Whole slot) (first : Bool) :
    remarks (writeComments slot indent first).out = remarks slot := by
  have hsound := sound_trivia h
  have halone := h.alone
  have hends := linesEnd_trivia slot
  have hspace : Spaces [' '] := spaces_of_blanks (by simp)
  rw [h.remarks_eq, writeComments]
  -- the first thing is written without an indentation, the others are folded over
  cases hts : trivia slot with
  | nil => exact remarks_nil
  | cons t ts =>
    rw [hts] at hsound halone hends
    cases hcomment : t.comment? with
    | none =>
      rw [splitSameLine, hcomment]
      dsimp only
      rw [Written.remarks_foldl_put first hindent hends hsound halone (Or.inl (Or.inl rfl))]
      simp [remarks]
    | some text =>
      obtain ⟨ht, hsound⟩ := List.forall_mem_cons.1 hsound
      obtain ⟨ht', halone⟩ := List.forall_mem_cons.1 halone
      obtain ⟨hnext, hends⟩ := List.isChain_cons.1 hends
      have hstart : (⟨' ' :: text, 0, false⟩ : Written).Complete ∨
          (⟨' ' :: text, 0, false⟩ : Written).Dangling ∧ ∀ u ∈ ts.head?, u = .newline := by
        cases t with
        | newline => simp [Trivia.comment?] at hcomment
        | lineComment =>
          obtain rfl := Option.some.inj hcomment
          exact Or.inr ⟨⟨ht, rfl⟩, fun u hu => hnext u hu rfl⟩
        | blockComment =>
          obtain rfl := Option.some.inj hcomment
          exact Or.inl (Or.inl ht)
      rw [splitSameLine, hcomment]
      dsimp only
      rw [Written.remarks_foldl_put first hindent hends hsound halone hstart,
        show (' ' :: text) = [' '] ++ text from rfl, hspace.remarks_append, ht'.remarks_eq hcomment,
        remarksOf_cons t ts]
      simp [remarksOf, hcomment]

/-- **A gap in front of a child on its own line keeps its comments.** -/
theorem remarks_ownLine (hindent : Spaces indent) (h : Gap slot) (first : Bool) :
    remarks (ownLine slot first indent) = remarks slot := by
  have hcomplete : (writeComments slot indent first).Complete := by
    rcases writeComments_cases hindent h.whole first with ⟨hw, -⟩ | ⟨-, hends⟩
    · exact hw
    · rw [h.endsInLineComment_eq_false] at hends
      simp at hends
  have hseparator := hcomplete.remarks_separator hindent first []
  rw [List.append_nil, remarks_nil, List.append_nil,
    remarks_writeComments hindent h.whole] at hseparator
  rw [← hseparator, ownLine]
  split <;> rfl

/-- **A whole slot in front of a closing bracket on its own line keeps its comments.** -/
theorem remarks_closingLine {line : Text} (hindent : Spaces indent) (hline : Spaces line)
    (h : Whole slot) : remarks (closingLine slot indent line) = remarks slot := by
  have hwhole : Whole (writeComments slot indent false).out := by
    rcases writeComments_cases hindent h false with ⟨hw, -⟩ | ⟨hw, -⟩
    · exact hw.whole
    · exact (whole_iff_scan _).2 (Or.inr hw.1)
  have hbreak : Spaces ('\n' :: line) := by
    intro c hc
    rcases List.mem_cons.1 hc with rfl | hc
    · rfl
    · exact hline c hc
  have hstarts : StartsLine ('\n' :: line) := ⟨[], line, rfl, by simp⟩
  rw [closingLine, hwhole.remarks_append (Or.inr hstarts), remarks_writeComments hindent h,
    hbreak.remarks_eq_nil, List.append_nil]

end EnvManifest
