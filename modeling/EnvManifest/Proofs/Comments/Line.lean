import EnvManifest.Proofs.Comments.Text
import EnvManifest.Proofs.Layout.Slot

/-!
# Comments on the line of a token

The comments behind a token that begin on its line are those among the trivia behind it up to the
first newline (`Trivia.lineOf`); a block comment that goes on on the next line is the last of
them. They are found in any text (`Text.beside`), and what is not a newline or a comment in it,
such as a comma, is passed over.

A slot that is laid out in front of a child or a closing bracket on its own line keeps these
comments on the line that they were on (`sameLine_ownLine`, `sameLine_closingLine`): they are
written first, one behind the other, and then comes a newline, or nothing but a space if there was
none in the slot (`Written.Closes`).
-/

namespace EnvManifest

/-! ### The first line of some trivia -/

namespace Trivia

/-- The comments in front of the first newline, which may be in the last of them. -/
def lineOf : List Trivia → List Text
  | [] => []
  | t :: ts =>
    match t.comment? with
    | none => []
    | some text => if '\n' ∈ text then [text] else text :: lineOf ts

theorem eq_newline {t : Trivia} (h : t.comment? = none) : t = .newline := by
  cases t with
  | newline => rfl
  | lineComment text | blockComment text => simp [comment?] at h

variable {us us' : List Trivia}

theorem lineOf_append_congr (h : lineOf us = lineOf us') (ts : List Trivia) :
    lineOf (ts ++ us) = lineOf (ts ++ us') := by
  induction ts with
  | nil => exact h
  | cons t ts ih => simp only [List.cons_append, lineOf, ih]

/-- What is behind a newline is on another line. -/
theorem lineOf_append_newline (ts us : List Trivia) :
    lineOf (ts ++ .newline :: us) = lineOf ts := by
  have hnil : lineOf (.newline :: us) = lineOf [] := rfl
  rw [lineOf_append_congr hnil, List.append_nil]

/-- The same trivia up to the first newline, which may be missing in the first list only. -/
inductive SameLine : List Trivia → List Trivia → Prop
  | nil : SameLine [] []
  | ended (us : List Trivia) : SameLine [] (.newline :: us)
  | newline (ts us : List Trivia) : SameLine (.newline :: ts) (.newline :: us)
  | cons (t : Trivia) {ts us : List Trivia} : SameLine ts us → SameLine (t :: ts) (t :: us)

namespace SameLine

variable {ts : List Trivia}

theorem refl : ∀ ts : List Trivia, SameLine ts ts
  | [] => .nil
  | t :: ts => .cons t (refl ts)

theorem lineOf_eq (h : SameLine ts us) : lineOf us = lineOf ts := by
  induction h with
  | nil | ended us | newline ts us => rfl
  | cons t _ ih => simp only [lineOf, ih]

theorem newline_mem (h : SameLine ts us) (hts : .newline ∈ ts) : .newline ∈ us := by
  induction h with
  | nil => exact hts
  | ended us | newline ts us => exact List.mem_cons_self
  | cons t _ ih =>
    rcases List.mem_cons.1 hts with rfl | hts
    · exact List.mem_cons_self
    · exact List.mem_cons_of_mem t (ih hts)

end SameLine

end Trivia

/-! ### The trivia of a text -/

section Trivia

variable {s t : Text}

theorem trivia_nil : trivia [] = [] := by
  rw [trivia, locatedTrivia, triviaFrom]
  rfl

/-- Which trivia there are does not depend on where one begins to count. -/
theorem kinds_eq_trivia (n : Nat) (s : Text) : kinds n s = trivia s := by
  suffices h : ∀ m, kinds n s = kinds m s from h 0
  intro m
  rw [kinds, kinds]
  fun_induction triviaFrom n s generalizing m with
  | case1 n => rw [triviaFrom, List.map_nil]
  | case2 n rest ih => rw [triviaFrom, List.map_cons, List.map_cons, ih]
  | case3 n rest cut ih => rw [triviaFrom, List.map_cons, List.map_cons, ih]
  | case4 n rest body after hcut ih =>
    rw [triviaFrom]
    split
    · rename_i body' after' hcut'
      obtain ⟨rfl, rfl⟩ : body = body' ∧ after = after' := by simpa [hcut] using hcut'
      rw [List.map_cons, List.map_cons, ih]
    · rename_i hnone
      simp [hcut] at hnone
  | case5 n rest hcut =>
    rw [triviaFrom]
    split
    · rename_i hcut'
      simp [hcut] at hcut'
    · rfl
  | case6 n c rest hnewline hslash hstar ih =>
    rw [triviaFrom, ih]
    · exact hnewline
    · exact hslash
    · exact hstar

theorem trivia_newline (s : Text) : trivia ('\n' :: s) = .newline :: trivia s := by
  rw [← kinds_eq_trivia 1 s]
  exact kinds_newline 0 s

theorem trivia_cons {c : Char} (hnewline : c ≠ '\n') (hslash : c ≠ '/') (s : Text) :
    trivia (c :: s) = trivia s := by
  rw [← kinds_eq_trivia 1 s, trivia, locatedTrivia, triviaFrom]
  · rfl
  · exact hnewline
  · exact fun _ hc _ => hslash hc
  · exact fun _ hc _ => hslash hc

theorem trivia_space : trivia [' '] = [] := by
  rw [trivia_cons (by decide) (by decide), trivia_nil]

theorem trivia_line_end {body : Text} (h : '\n' ∉ body) :
    trivia ('/' :: '/' :: body) =
      [.lineComment (Text.dropEndWhile (· == '\r') ('/' :: '/' :: body))] := by
  rw [trivia, locatedTrivia, triviaFrom, cutAtNewline_of_not_mem h, triviaFrom]
  rfl

theorem trivia_line {body : Text} (h : '\n' ∉ body) (s : Text) :
    trivia ('/' :: '/' :: (body ++ '\n' :: s)) =
      .lineComment (Text.dropEndWhile (· == '\r') ('/' :: '/' :: body)) :: .newline ::
        trivia s := by
  rw [trivia, locatedTrivia, triviaFrom, cutAtNewline_append_newline h, List.map_cons,
    ← trivia_newline, ← kinds_eq_trivia (0 + 2 + body.length)]
  rfl

theorem trivia_block {cut rest : Text} (h : cutAtClose s = some (cut, rest)) :
    trivia ('/' :: '*' :: s) = .blockComment ('/' :: '*' :: cut) :: trivia rest := by
  rw [trivia, locatedTrivia, triviaFrom]
  split
  · rename_i cut' rest' hcut
    obtain ⟨rfl, rfl⟩ : cut = cut' ∧ rest = rest' := by simpa [h] using hcut
    rw [List.map_cons, ← kinds_eq_trivia (0 + 2 + cut.length)]
    rfl
  · rename_i hnone
    simp [h] at hnone

theorem trivia_of_cutAtClose_none (h : cutAtClose s = none) :
    trivia ('/' :: '*' :: s) = [.blockComment ('/' :: '*' :: s)] := by
  rw [trivia, locatedTrivia, triviaFrom]
  split
  · rename_i hcut
    simp [h] at hcut
  · rfl

/-- A block comment that begins behind some text has all of it. -/
theorem exists_trivia_block {a : Text} (ha : ¬['*', '/'] <:+: a) {c : Char} (hstar : c ≠ '*')
    (hslash : c ≠ '/') (x : Text) :
    ∃ z ts, trivia ('/' :: '*' :: (a ++ c :: x)) =
      .blockComment ('/' :: '*' :: (a ++ c :: z)) :: ts := by
  cases hcut : cutAtClose (a ++ c :: x) with
  | none => exact ⟨x, [], trivia_of_cutAtClose_none hcut⟩
  | some p =>
    obtain ⟨cut, rest⟩ := p
    obtain ⟨body, rfl, -, hsplit⟩ := body_of_cutAtClose hcut
    -- the closing mark is not in front of the text behind, and does not begin in it
    obtain ⟨z, rfl⟩ : ∃ z, body = a ++ c :: z := by
      rcases List.append_eq_append_iff.1 hsplit with ⟨k, rfl, hk⟩ | ⟨k, rfl, hk⟩
      · cases k with
        | nil => exact absurd (List.cons.inj hk).1 hstar
        | cons d k =>
          obtain ⟨rfl, -⟩ := List.cons.inj hk
          exact ⟨k, rfl⟩
      · rcases k with - | ⟨d, - | ⟨e, k⟩⟩
        · exact absurd (List.cons.inj hk).1.symm hstar
        · exact absurd (List.cons.inj (List.cons.inj hk).2).1.symm hslash
        · have hd : d = '*' := (List.cons.inj hk).1.symm
          have he : e = '/' := (List.cons.inj (List.cons.inj hk).2).1.symm
          exact absurd ⟨body, k, by simp [hd, he]⟩ ha
    refine ⟨z ++ ['*', '/'], trivia rest, (trivia_block hcut).trans ?_⟩
    simp

/-- **The trivia of a gap come first.** -/
theorem Gap.trivia_append {g : Text} (h : Gap g) (t : Text) :
    trivia (g ++ t) = trivia g ++ trivia t := by
  induction h with
  | nil => rw [trivia_nil, List.nil_append, List.nil_append]
  | @blank c s hc _ ih =>
    by_cases hn : c = '\n'
    · subst hn
      rw [List.cons_append, trivia_newline, trivia_newline, ih, List.cons_append]
    · have hslash : c ≠ '/' := (ne_of_isWhite hc).2
      rw [List.cons_append, trivia_cons hn hslash, trivia_cons hn hslash, ih]
  | @line body s hbody _ ih =>
    have hsplit : '/' :: '/' :: (body ++ '\n' :: s) ++ t =
        '/' :: '/' :: (body ++ '\n' :: (s ++ t)) := by
      simp
    rw [hsplit, trivia_line hbody, trivia_line hbody, ih]
    rfl
  | @block body s hbody _ ih =>
    have hsplit : '/' :: '*' :: (body ++ '*' :: '/' :: s) ++ t =
        '/' :: '*' :: (body ++ '*' :: '/' :: (s ++ t)) := by
      simp
    rw [hsplit, trivia_block (cutAtClose_append hbody _), trivia_block (cutAtClose_append hbody _),
      ih]
    rfl

/-- **The trivia of a whole text come first** if a newline is behind it. -/
theorem Whole.trivia_append_newline (h : Whole s) (t : Text) :
    trivia (s ++ '\n' :: t) = trivia s ++ .newline :: trivia t := by
  rcases h.cases with hgap | ⟨g, body, rfl, hg, hbody⟩
  · rw [hgap.trivia_append, trivia_newline]
  · rw [List.append_assoc, hg.trivia_append, hg.trivia_append, List.cons_append, List.cons_append,
      trivia_line hbody, trivia_line_end hbody]
    simp

/-- A comment is found again in its text. -/
theorem Gap.trivia_of_mem {g : Text} (h : Gap g) :
    ∀ t ∈ trivia g, ∀ text ∈ t.comment?, trivia text = [t] := by
  induction h with
  | nil => simp [trivia_nil]
  | @blank c s hc _ ih =>
    by_cases hn : c = '\n'
    · subst hn
      rw [trivia_newline]
      exact List.forall_mem_cons.2 ⟨by simp [Trivia.comment?], ih⟩
    · rwa [trivia_cons hn (ne_of_isWhite hc).2]
  | @line body s hbody _ ih =>
    rw [trivia_line hbody]
    refine List.forall_mem_cons.2 ⟨?_, List.forall_mem_cons.2 ⟨by simp [Trivia.comment?], ih⟩⟩
    rintro text htext
    obtain rfl := Option.some.inj htext
    have hbody' : '\n' ∉ Text.dropEndWhile (· == '\r') body := fun hmem =>
      hbody (Text.mem_of_mem_dropEndWhile hmem)
    rw [dropEndWhile_lineComment, trivia_line_end hbody', ← dropEndWhile_lineComment,
      Text.dropEndWhile_dropEndWhile fun _ hc => hc]
  | @block body s hbody _ ih =>
    rw [trivia_block (cutAtClose_append hbody s)]
    refine List.forall_mem_cons.2 ⟨?_, ih⟩
    rintro text htext
    obtain rfl := Option.some.inj htext
    rw [trivia_block (cutAtClose_append hbody []), trivia_nil]

end Trivia

/-! ### The comments on the line -/

/-- The comments at the beginning of a text that begin on its first line. -/
def Text.beside (s : Text) : List Text :=
  Trivia.lineOf (trivia s)

open Text

section Beside

variable {s t g : Text}

theorem Gap.beside_append_congr {t' : Text} (h : Gap g) (ht : beside t = beside t') :
    beside (g ++ t) = beside (g ++ t') := by
  rw [beside, beside, h.trivia_append, h.trivia_append]
  exact Trivia.lineOf_append_congr ht _

/-- Behind a gap on one line the line goes on. -/
theorem Gap.beside_append {g : Text} (h : Gap g) (hline : '\n' ∉ g) (t : Text) :
    beside (g ++ t) = beside g ++ beside t := by
  induction h with
  | nil =>
    rw [beside.eq_def [], trivia_nil]
    rfl
  | @blank c s hc _ ih =>
    obtain ⟨hn, hline⟩ : '\n' ≠ c ∧ '\n' ∉ s := by simpa using hline
    have hslash : c ≠ '/' := (ne_of_isWhite hc).2
    rw [beside, List.cons_append, trivia_cons hn.symm hslash, beside.eq_def (c :: s),
      trivia_cons hn.symm hslash]
    exact ih hline
  | @line body s _ _ _ => simp at hline
  | @block body s hbody _ ih =>
    obtain ⟨hn, hline⟩ : '\n' ∉ body ∧ '\n' ∉ s := by simpa using hline
    have hsplit : '/' :: '*' :: (body ++ '*' :: '/' :: s) ++ t =
        '/' :: '*' :: (body ++ '*' :: '/' :: (s ++ t)) := by
      simp
    have hcomment : '\n' ∉ '/' :: '*' :: (body ++ ['*', '/']) := by simp [hn]
    rw [hsplit, beside, beside.eq_def ('/' :: _), trivia_block (cutAtClose_append hbody _),
      trivia_block (cutAtClose_append hbody _), Trivia.lineOf, Trivia.lineOf]
    dsimp only [Trivia.comment?]
    rw [if_neg hcomment, if_neg hcomment, List.cons_append]
    exact congrArg _ (ih hline)

/-- What is behind a newline is not on the line. -/
theorem Whole.beside_append_newline (h : Whole s) (t : Text) :
    beside (s ++ '\n' :: t) = beside s := by
  rw [beside, h.trivia_append_newline]
  exact Trivia.lineOf_append_newline _ _

/-- A comma is passed over. -/
theorem beside_comma (s : Text) : beside (',' :: s) = beside s := by
  rw [beside, trivia_cons (by decide) (by decide), beside]

end Beside

/-! ### Slots laid out -/

namespace Written

variable {indent : Text} {first : Bool} {w : Written}

/-- What is put behind the last comment: a space on the line of the comment, or a newline. -/
def Closes (w : Written) (out : Text) : Prop :=
  w.newlines = 0 ∧ out = w.out ++ [' '] ∨ ∃ r, out = w.out ++ '\n' :: r

theorem put_newline (w : Written) :
    w.put indent first .newline = { w with newlines := w.newlines + 1 } := rfl

theorem put_comment {t : Trivia} {text : Text} (h : t.comment? = some text) (w : Written) :
    w.put indent first t = ⟨w.out ++ (if w.newlines == 0 && !w.out.isEmpty then [' ']
      else lineBreak (first && !w.placed) w.newlines indent) ++ text, 0, true⟩ := by
  rw [put, h]

/-- What has been written is not changed any more. -/
theorem exists_out_foldl_put (first : Bool) (indent : Text) (w : Written) (ts : List Trivia) :
    ∃ r, (ts.foldl (Written.put indent first) w).out = w.out ++ r := by
  induction ts generalizing w with
  | nil => exact ⟨[], by simp⟩
  | cons t ts ih =>
    obtain ⟨r, hr⟩ := ih (w.put indent first t)
    rw [List.foldl_cons, hr]
    cases hcomment : t.comment? with
    | none => exact ⟨r, by simp [put, hcomment]⟩
    | some text =>
      rw [put_comment hcomment, List.append_assoc, List.append_assoc]
      exact ⟨_, rfl⟩

/-- **What is written next begins a line** once a newline has been counted. -/
theorem Closes.exists_newline {ts : List Trivia} {out : Text} (hw : w.newlines ≠ 0)
    (h : (ts.foldl (Written.put indent first) w).Closes out) : ∃ r, out = w.out ++ '\n' :: r := by
  induction ts generalizing w with
  | nil => exact h.resolve_left fun hzero => hw hzero.1
  | cons t ts ih =>
    rw [List.foldl_cons] at h
    cases hcomment : t.comment? with
    | none =>
      obtain rfl := Trivia.eq_newline hcomment
      rw [put_newline] at h
      exact ih (w := { w with newlines := w.newlines + 1 }) (Nat.succ_ne_zero _) h
    | some text =>
      obtain ⟨k, hk⟩ := exists_lineBreak (first && !w.placed) w.newlines indent
      obtain ⟨r, hr⟩ := exists_out_foldl_put first indent (w.put indent first t) ts
      obtain ⟨r', rfl⟩ : ∃ r', out = (ts.foldl (Written.put indent first)
          (w.put indent first t)).out ++ r' := h.elim (fun hspace => ⟨_, hspace.2⟩)
        fun hnewline => hnewline.elim fun r' hr' => ⟨_, hr'⟩
      refine ⟨List.replicate k '\n' ++ indent ++ text ++ r ++ r', ?_⟩
      rw [hr, put_comment hcomment, if_neg (by simp [hw]), hk]
      simp

/-- What is written so far ends between the comments of a line, or the line ends next. -/
def OnLine (out : Text) (ts : List Trivia) : Prop :=
  Gap out ∧ ¬EndsInLine ts ∨ Whole out ∧ ts.head? = some .newline

theorem OnLine.whole {out : Text} {ts : List Trivia} (h : OnLine out ts) : Whole out :=
  h.elim (fun hgap => hgap.1.whole) And.left

/-- One more comment on the line. -/
theorem OnLine.comment {g text : Text} {t : Trivia} {ts : List Trivia} (hg : Gap g)
    (ht : t.Sound) (htext : t.comment? = some text) (hends : LinesEnd (t :: ts))
    (hlast : ¬EndsInLine (t :: ts)) : OnLine (g ++ text) ts := by
  obtain ⟨hnext, -⟩ := List.isChain_cons.1 hends
  cases t with
  | newline => simp [Trivia.comment?] at htext
  | lineComment line =>
    obtain rfl := Option.some.inj htext
    refine Or.inr ⟨hg.append_whole ((whole_iff_scan _).2 (Or.inr ht)), ?_⟩
    cases ts with
    | nil => exact absurd ⟨_, rfl, rfl⟩ hlast
    | cons u us => exact congrArg some (hnext u rfl rfl)
  | blockComment block =>
    obtain rfl := Option.some.inj htext
    refine Or.inl ⟨hg.append ((gap_iff_scan _).2 ht), fun h => hlast ?_⟩
    exact (endsInLine_cons (Or.inl rfl)).2 h

/-- **What is on the line is written on the line**, the comments one behind the other, if
something has been written on it. -/
theorem Closes.exists_sameLine {ts : List Trivia} {out : Text} (hends : LinesEnd ts)
    (hsound : ∀ t ∈ ts, t.Sound) (halone : ∀ t ∈ ts, ∀ text ∈ t.comment?, trivia text = [t])
    (hzero : w.newlines = 0) (hne : w.out ≠ []) (hw : OnLine w.out ts)
    (h : (ts.foldl (Written.put indent first) w).Closes out) :
    ∃ us, trivia out = trivia w.out ++ us ∧ Trivia.SameLine ts us := by
  induction ts generalizing w with
  | nil =>
    have hgap : Gap w.out := (hw.resolve_right (by simp)).1
    rcases h with ⟨-, rfl⟩ | ⟨r, rfl⟩
    · exact ⟨[], by rw [List.foldl_nil, hgap.trivia_append, trivia_space], .nil⟩
    · exact ⟨_, hw.whole.trivia_append_newline r, .ended _⟩
  | cons t ts ih =>
    obtain ⟨ht, hsound⟩ := List.forall_mem_cons.1 hsound
    obtain ⟨htext, halone⟩ := List.forall_mem_cons.1 halone
    rw [List.foldl_cons] at h
    cases hcomment : t.comment? with
    | none =>
      obtain rfl := Trivia.eq_newline hcomment
      obtain ⟨r, rfl⟩ := h.exists_newline (Nat.succ_ne_zero _)
      exact ⟨_, hw.whole.trivia_append_newline r, .newline ts _⟩
    | some text =>
      obtain ⟨hgap, hlast⟩ := hw.resolve_right fun hline => by
        obtain rfl := Option.some.inj hline.2
        simp [Trivia.comment?] at hcomment
      have hput : w.put indent first t = ⟨w.out ++ [' '] ++ text, 0, true⟩ := by
        rw [put_comment hcomment, if_pos (by simp [hzero, hne])]
      have hspace : Gap (w.out ++ [' ']) := hgap.append (.blank rfl .nil)
      have htrivia : trivia (w.out ++ [' '] ++ text) = trivia w.out ++ [t] := by
        rw [hspace.trivia_append, hgap.trivia_append, trivia_space, List.append_nil,
          htext text hcomment]
      rw [hput] at h
      obtain ⟨us, hus, hsame⟩ := ih (List.isChain_cons.1 hends).2 hsound halone rfl (by simp)
        (OnLine.comment hspace ht hcomment hends hlast) h
      exact ⟨t :: us, by rw [hus, htrivia, List.append_assoc]; rfl, .cons t hsame⟩

end Written

variable {slot indent : Text} {first : Bool}

/-- **The trivia of a gap are written from its first line on.** -/
theorem sameLine_of_closes {out : Text} (h : Gap slot)
    (hout : (writeComments slot indent first).Closes out) :
    Trivia.SameLine (trivia slot) (trivia out) := by
  have hsound := sound_trivia h.whole
  have halone := h.trivia_of_mem
  have hends := linesEnd_trivia slot
  have hlast : ¬EndsInLine (trivia slot) := by
    rw [← endsInLineComment_iff, h.endsInLineComment_eq_false]
    simp
  rw [writeComments] at hout
  -- the first thing is written without an indentation, the others are folded over
  cases hts : trivia slot with
  | nil =>
    rw [hts] at hout
    rcases hout with ⟨-, rfl⟩ | ⟨r, rfl⟩
    · change Trivia.SameLine [] (trivia [' '])
      rw [trivia_space]
      exact .nil
    · change Trivia.SameLine [] (trivia ('\n' :: r))
      rw [trivia_newline]
      exact .ended _
  | cons t ts =>
    rw [hts] at hout hsound halone hends hlast
    obtain ⟨ht, hsound⟩ := List.forall_mem_cons.1 hsound
    obtain ⟨htext, halone⟩ := List.forall_mem_cons.1 halone
    cases hcomment : t.comment? with
    | none =>
      obtain rfl := Trivia.eq_newline hcomment
      obtain ⟨r, rfl⟩ := Written.Closes.exists_newline (w := ⟨[], 1, false⟩) (by simp) hout
      rw [List.nil_append, trivia_newline]
      exact .newline ts _
    | some text =>
      have hspace : Gap [' '] := .blank rfl .nil
      have hstart : trivia (' ' :: text) = [t] := by
        rw [trivia_cons (by decide) (by decide), htext text hcomment]
      rw [splitSameLine, hcomment] at hout
      obtain ⟨us, hus, hsame⟩ := Written.Closes.exists_sameLine (w := ⟨' ' :: text, 0, false⟩)
        (List.isChain_cons.1 hends).2 hsound halone rfl (List.cons_ne_nil _ _)
        (Written.OnLine.comment hspace ht hcomment hends hlast) hout
      rw [hus, hstart]
      exact .cons t hsame

theorem closes_ownLine (slot indent : Text) (first : Bool) :
    (writeComments slot indent first).Closes (ownLine slot first indent) := by
  rw [ownLine]
  split
  · rename_i hsame
    exact Or.inl ⟨by simpa using (Bool.and_eq_true_iff.1 hsame).1, rfl⟩
  · obtain ⟨k, hk⟩ := exists_lineBreak (first && !(writeComments slot indent first).placed)
      (writeComments slot indent first).newlines indent
    exact Or.inr ⟨_, by rw [hk]⟩

/-- **In front of a child on its own line a gap has the same trivia on its line.** -/
theorem sameLine_ownLine (h : Gap slot) (first : Bool) (indent : Text) :
    Trivia.SameLine (trivia slot) (trivia (ownLine slot first indent)) :=
  sameLine_of_closes h (closes_ownLine slot indent first)

/-- **In front of a closing bracket on its own line a gap has the same trivia on its line.** -/
theorem sameLine_closingLine (h : Gap slot) (childIndent indent : Text) :
    Trivia.SameLine (trivia slot) (trivia (closingLine slot childIndent indent)) :=
  sameLine_of_closes h (Or.inr ⟨indent, rfl⟩)

end EnvManifest
