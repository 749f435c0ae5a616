import EnvManifest.Proofs.Comments.Line
import EnvManifest.Proofs.Layout.OneLine
import EnvManifest.Proofs.Reading.Exact

/-!
# Composites that layout leaves as they are

Layout of a composite that a parser left, with its mark set, leaves it *steady*
(`Composite.steady_arrangedAt`): its slots are cut where a parser cuts them
(`Composite.AsRead`), so that reading leads back to the same composite, and a second layout finds
nothing to do (`Composite.Steady.arrangedAt_map`).

* On several lines the closing bracket starts a line, and what is in front of each child either
  breaks the line, so that it is left alone, or is block comments on one line, which are written as
  they stand whatever the indentation is (`Stands`).
* On one line nothing breaks the line, and the first child is as far from its bracket as the
  closing bracket.

Whether a composite goes on several lines depends on what can be seen of its children from outside
(`Child.seen`), and that is the same before and after layout has gone through them.
-/

namespace EnvManifest

/-! ### In front of a child -/

/-- What is in front of a child on several lines is left as it is: it breaks the line, or is written
as it stands. -/
def Stands (lead : Text) : Prop :=
  lead.breaksLine = true ∨ ∀ (first : Bool) (indent : Text), ownLine lead first indent = lead

/-- Comments on one line, each with a space in front. -/
def spacedOut (comments : List Text) : Text :=
  comments.flatMap fun comment => ' ' :: comment

/-- A gap on one line has nothing but block comments. -/
theorem Gap.exists_trivia_eq {s : Text} (h : Gap s) (hline : '\n' ∉ s) :
    ∃ comments : List Text, trivia s = comments.map .blockComment := by
  induction h with
  | nil => exact ⟨[], trivia_nil⟩
  | @blank c s hc _ ih =>
    obtain ⟨hn, hline⟩ : '\n' ≠ c ∧ '\n' ∉ s := by simpa using hline
    rw [trivia_cons hn.symm (ne_of_isWhite hc).2]
    exact ih hline
  | @line body s _ _ _ => simp at hline
  | @block body s hbody _ ih =>
    obtain ⟨comments, hcomments⟩ := ih (by simp_all)
    rw [trivia_block (cutAtClose_append hbody s), hcomments]
    exact ⟨_ :: comments, rfl⟩

section OwnLine

variable {s indent : Text} {first : Bool} {comments : List Text}

theorem Written.foldl_put_blockComments (indent : Text) (first : Bool) (comments : List Text)
    {w : Written} (hzero : w.newlines = 0) (hout : w.out ≠ []) :
    ((comments.map Trivia.blockComment).foldl (Written.put indent first) w).newlines = 0 ∧
      ((comments.map Trivia.blockComment).foldl (Written.put indent first) w).out =
        w.out ++ spacedOut comments := by
  induction comments generalizing w with
  | nil => exact ⟨hzero, (List.append_nil _).symm⟩
  | cons comment comments ih =>
    have hput : w.put indent first (.blockComment comment) =
        ⟨w.out ++ [' '] ++ comment, 0, true⟩ := by
      simp [Written.put, Trivia.comment?, hzero, hout]
    rw [List.map_cons, List.foldl_cons, hput]
    obtain ⟨hnewlines, hwritten⟩ := ih (w := ⟨w.out ++ [' '] ++ comment, 0, true⟩) rfl (by simp)
    exact ⟨hnewlines, by rw [hwritten]; simp [spacedOut]⟩

/-- Block comments on one line stay there, one space apart. -/
theorem ownLine_of_trivia_eq (h : trivia s = comments.map .blockComment) (hne : comments ≠ []) :
    ownLine s first indent = spacedOut comments ++ [' '] := by
  match comments with
  | [] => exact absurd rfl hne
  | comment :: comments =>
    have hwritten := Written.foldl_put_blockComments indent first comments
      (w := ⟨' ' :: comment, 0, false⟩) rfl (by simp)
    have heq : writeComments s indent first = (comments.map Trivia.blockComment).foldl
        (Written.put indent first) ⟨' ' :: comment, 0, false⟩ := by
      rw [writeComments, h]
      rfl
    rw [← heq] at hwritten
    have hout : (writeComments s indent first).out = spacedOut (comment :: comments) := hwritten.2
    rw [ownLine, if_pos (by rw [hwritten.1, hout]; rfl), hout]

/-- The comments of a gap are found again when they are written one space apart. -/
theorem trivia_spacedOut (h : Gap s) (htrivia : trivia s = comments.map .blockComment) :
    trivia (spacedOut comments ++ [' ']) = comments.map .blockComment := by
  have hfound : ∀ comment ∈ comments, Gap comment ∧ trivia comment = [.blockComment comment] := by
    intro comment hcomment
    have hmem : Trivia.blockComment comment ∈ trivia s :=
      htrivia ▸ List.mem_map_of_mem hcomment
    exact ⟨(gap_iff_scan comment).2 (sound_trivia h.whole _ hmem), h.trivia_of_mem _ hmem _ rfl⟩
  clear h htrivia
  induction comments with
  | nil => exact trivia_space
  | cons comment comments ih =>
    obtain ⟨⟨hgap, hcomment⟩, hcomments⟩ := List.forall_mem_cons.1 hfound
    have hsplit : spacedOut (comment :: comments) ++ [' '] =
        ' ' :: (comment ++ (spacedOut comments ++ [' '])) := by
      simp [spacedOut]
    rw [hsplit, trivia_cons (by decide) (by decide), hgap.trivia_append, hcomment, ih hcomments]
    rfl

/-- **What layout puts in front of a child on several lines stands.** -/
theorem stands_ownLine (h : Gap s) (hline : s.breaksLine = false) (first : Bool) (indent : Text) :
    Stands (ownLine s first indent) := by
  obtain ⟨comments, hcomments⟩ := h.exists_trivia_eq (by simpa [Text.breaksLine] using hline)
  by_cases hne : comments = []
  · -- without a comment there is a newline
    subst hne
    refine Or.inl ?_
    have hwritten : writeComments s indent first = ⟨[], 0, false⟩ := by
      rw [writeComments, hcomments]
      rfl
    obtain ⟨k, hk⟩ := exists_lineBreak (first && !false) 0 indent
    rw [ownLine, hwritten, if_neg (by simp), hk]
    simp [Text.breaksLine]
  · refine Or.inr fun first' indent' => ?_
    rw [ownLine_of_trivia_eq hcomments hne]
    exact ownLine_of_trivia_eq (trivia_spacedOut h hcomments) hne

end OwnLine

/-! ### What is seen of children from outside -/

/-- What layout can see of a child without going into its node. -/
def Child.seen {κ : Type} (c : Child κ Node) : Text × κ × Text × Bool :=
  (c.lead, c.label, c.trail, c.node.breaksLine)

namespace Composite

variable {κ : Type} {c c' : Composite κ Node}

theorem isMultiline_congr (hchildren : c'.children.map Child.seen = c.children.map Child.seen)
    (hclosing : c'.closing = c.closing) : c'.isMultiline = c.isMultiline := by
  have hany : ∀ cs : List (Child κ Node),
      cs.any (fun k => k.lead.breaksLine || k.trail.breaksLine || k.node.breaksLine) =
        (cs.map Child.seen).any fun k => k.1.breaksLine || k.2.2.1.breaksLine || k.2.2.2 := by
    intro cs
    rw [List.any_map]
    rfl
  have hempty : c'.children.isEmpty = c.children.isEmpty := by
    have hmap := congrArg List.isEmpty hchildren
    simpa using hmap
  rw [isMultiline, isMultiline, hany, hany, hchildren, hclosing, hempty]

theorem breaksLine_congr [Label κ]
    (hchildren : c'.children.map Child.seen = c.children.map Child.seen)
    (hclosing : c'.closing = c.closing) :
    (c'.map Node.breaksLine).breaksLine = (c.map Node.breaksLine).breaksLine := by
  have hany : ∀ c : Composite κ Node, (c.map Node.breaksLine).breaksLine =
      (c.closing.breaksLine || (c.children.map Child.seen).any fun k =>
        k.1.breaksLine || (Label.slots k.2.1).any Text.breaksLine || k.2.2.1.breaksLine ||
          k.2.2.2) := by
    intro c
    rw [breaksLine, children_map, List.any_map, List.any_map]
    rfl
  rw [hany, hany, hchildren, hclosing]

/-- A composite that goes on several lines breaks the line. -/
theorem breaksLine_of_isMultiline [Label κ] (h : c.isMultiline = true) :
    (c.map Node.breaksLine).breaksLine = true := by
  rw [isMultiline, Bool.and_eq_true, Bool.or_eq_true] at h
  rw [breaksLine, Bool.or_eq_true]
  refine (Bool.or_eq_true_iff.1 h.2).imp id fun hany => ?_
  obtain ⟨m, hm, hbreaks⟩ := List.any_eq_true.1 hany
  refine List.any_eq_true.2 ⟨m.map Node.breaksLine, List.mem_map_of_mem hm, ?_⟩
  rw [Bool.or_eq_true, Bool.or_eq_true] at hbreaks
  simp only [Child.breaksLine, Child.lead_map, Child.trail_map, Child.node_map, Bool.or_eq_true]
  tauto

/-- On one line nothing breaks the line, unless it is what is in front of the bracket of an empty
composite. -/
theorem forall_of_not_isMultiline (h : c.isMultiline = false) (hne : c.children ≠ []) :
    c.closing.breaksLine = false ∧ ∀ m ∈ c.children,
      m.lead.breaksLine = false ∧ m.trail.breaksLine = false ∧ m.node.breaksLine = false := by
  rw [isMultiline, show c.children.isEmpty = false by simpa using hne, Bool.not_false,
    Bool.true_or, Bool.true_and, Bool.or_eq_false_iff, List.any_eq_false] at h
  refine ⟨h.1, fun m hm => ?_⟩
  have hm' := h.2 m hm
  rw [Bool.not_eq_true, Bool.or_eq_false_iff, Bool.or_eq_false_iff] at hm'
  exact ⟨hm'.1.1, hm'.1.2, hm'.2⟩

end Composite

/-! ### Settling what was read -/

namespace Composite

variable {κ ν : Type} [Label κ]

theorem asRead_map {μ : Type} {f : ν → μ} {c : Composite κ ν} : (c.map f).AsRead ↔ c.AsRead := by
  have hiff : ∀ {ρ : Type} {c : Composite κ ρ}, c.AsRead ↔
      (∀ m ∈ c.children, m.FrontLegible) ∧
        trailsRead c.trailingComma c.closing (c.children.map Child.trail) ∧ c.AtRest :=
    ⟨fun h => ⟨h.front, h.behind, h.atRest⟩, fun h => ⟨h.1, h.2.1, h.2.2⟩⟩
  rw [hiff, hiff, atRest_map]
  simp [Child.FrontLegible, Function.comp_def]

omit [Label κ] in
/-- No line comment is in front of a comma in what was read. -/
theorem shiftComments_of_read {comma : Bool} {closing : Text} {cs : List (Child κ ν)}
    (h : trailsRead comma closing (cs.map Child.trail)) :
    shiftComments comma closing [] cs = (cs, closing) := by
  match cs with
  | [] => rfl
  | [c] =>
    cases comma with
    | true =>
      obtain ⟨htrail, -⟩ : Gap c.trail ∧ Gap closing := h
      simp [shiftComments, htrail.endsInLineComment_eq_false]
    | false => simp [shiftComments]
  | c :: d :: cs =>
    obtain ⟨htrail, hrest⟩ : Gap c.trail ∧ _ := h
    have hshift : shiftComments comma closing [] (d :: cs) = (d :: cs, closing) :=
      shiftComments_of_read hrest
    rw [shiftComments]
    simp [htrail.endsInLineComment_eq_false, hshift]

variable {c : Composite κ Node}

/-- The composite without the newlines in front of its bracket. -/
def drawnUp (c : Composite κ Node) : Composite κ Node :=
  { c with closing := if c.closing.breaksLine then [] else c.closing }

/-- What was read as layout arranges it, not yet indented: on several lines, or on one line with the
first child as far from its bracket as the closing bracket. -/
def arranged (c : Composite κ Node) : Composite κ Node :=
  if c.isMultiline then { c with dirty := true }
  else { c.drawnUp with children := padded c.drawnUp.pad c.children }

omit [Label κ] in
theorem placeInline_eq_padded {cs : List (Child κ ν)} (h : ∀ m ∈ cs, m.fresh = false) (pad : Text) :
    placeInline pad cs = padded pad cs := by
  match cs with
  | [] => rfl
  | ⟨lead, label, node, trail, fresh⟩ :: ms =>
    obtain ⟨hm, hms⟩ := List.forall_mem_cons.1 h
    obtain rfl : fresh = false := hm
    rw [placeInline, map_placeNext_eq _ hms, padded]
    cases hcomment : hasComment lead <;> simp [placeFirst, hcomment]

/-- **What was read is settled as it is**, but for what is in front of the first child on one line
and in front of the closing bracket of an empty composite. -/
theorem settle_of_asRead (h : c.AsRead) (standard : Bool) :
    ({ c with dirty := true } : Composite κ Node).settle standard = c.arranged := by
  obtain ⟨cs, closing, comma, dirty⟩ := c
  obtain ⟨-, hbehind, hdirty, hfresh⟩ := h
  obtain rfl : dirty = false := hdirty
  have hcomma : settledComma standard (⟨cs, closing, comma, true⟩ : Composite κ Node) = comma := by
    match cs with
    | [] =>
      obtain ⟨hnone, -⟩ : comma = false ∧ Gap closing := hbehind
      simp [settledComma, hnone]
    | m :: ms =>
      have hplaced : m.fresh = false := hfresh m List.mem_cons_self
      simp [settledComma, hplaced]
  have hmultiline : isMultiline (⟨cs, closing, comma, true⟩ : Composite κ Node) =
      isMultiline ⟨cs, closing, comma, false⟩ := rfl
  rw [settle, hcomma, hmultiline, shiftComments_of_read hbehind, arranged]
  dsimp only
  rw [map_tidy_eq hfresh]
  split
  · rfl
  · rename_i hline
    have hclosing : (if closing.breaksLine then (inline closing [] [' '] []).getD closing
        else closing) = if closing.breaksLine then [] else closing := by
      split
      · rename_i hbreaks
        -- nothing is in front of the bracket but blanks, or the composite would go on lines
        have hnone : hasComment closing = false := by
          rw [Bool.not_eq_true, isMultiline, hbreaks, Bool.true_or, Bool.and_true,
            Bool.or_eq_false_iff] at hline
          exact hline.2
        rw [inline_of_hasComment_eq_false hnone]
        rfl
      · rfl
    rw [hclosing, placeInline_eq_padded hfresh]
    rfl

end Composite

/-! ### Steady composites -/

/-- A composite that layout leaves as it is, and reading too. -/
structure Composite.Steady {κ : Type} [Label κ] (c : Composite κ Node) : Prop where
  read : c.AsRead
  lines : c.isMultiline = true → c.closing.breaksLine = true ∧ ∀ m ∈ c.children, Stands m.lead
  line : c.isMultiline = false → c.closing.breaksLine = false ∧ padded c.pad c.children = c.children

namespace Composite

variable {κ ν : Type} [Label κ]

/-! ### On several lines -/

section Lines

variable {step line : Text}

/-- In front of a bracket that shares a line with the child, a parser leaves a gap, and nothing if
there is no comma. -/
theorem closing_of_trailsRead {comma : Bool} {closing : Text} {ts : List Text}
    (hbreaks : closing.breaksLine = false) (h : trailsRead comma closing ts) :
    Gap closing ∧ (comma = false → ts ≠ [] → closing = []) := by
  match ts with
  | [] => exact ⟨h.2, by simp⟩
  | [t] =>
    cases comma with
    | true => exact ⟨h.2, by simp⟩
    | false =>
      obtain ⟨-, hcut⟩ :
        Gap (t ++ closing) ∧ Text.cutAtNewline (t ++ closing) = (t, closing) := h
      -- what was cut off begins with a newline or is empty
      have hnil : closing = [] := by
        have hsnd := cutAtNewline_snd (t ++ closing)
        rw [hcut] at hsnd
        refine hsnd.resolve_right fun ⟨r, hr⟩ => ?_
        rw [show closing = '\n' :: r from hr] at hbreaks
        simp [Text.breaksLine] at hbreaks
      exact ⟨hnil ▸ .nil, fun _ _ => hnil⟩
  | t :: u :: us =>
    obtain ⟨hgap, hnil⟩ := closing_of_trailsRead hbreaks h.2
    exact ⟨hgap, fun hcomma _ => hnil hcomma (by simp)⟩

theorem trailsRead_closingLine {comma : Bool} {closing indent : Text} (hindent : Spaces indent)
    (hline : Spaces line) (hbreaks : closing.breaksLine = false) {ts : List Text}
    (h : trailsRead comma closing ts) : trailsRead comma (closingLine closing indent line) ts := by
  obtain ⟨hgap, hnil⟩ := closing_of_trailsRead hbreaks h
  have hlaid := gap_closingLine hindent hline hgap.whole
  match ts with
  | [] => exact ⟨h.1, hlaid⟩
  | [t] =>
    cases comma with
    | true => exact ⟨h.1, hlaid⟩
    | false =>
      obtain rfl := hnil rfl (by simp)
      obtain ⟨ht, hcut⟩ : Gap (t ++ []) ∧ Text.cutAtNewline (t ++ []) = (t, []) := h
      have hmem := not_mem_cutAtNewline (t ++ [])
      rw [hcut] at hmem
      rw [List.append_nil] at ht
      have hclosing : closingLine [] indent line = '\n' :: line := by
        rw [closingLine, writeComments, trivia_nil]
        rfl
      rw [hclosing]
      exact ⟨ht.append (.blank rfl hline.gap), cutAtNewline_append_newline hmem line⟩
  | t :: u :: us => exact ⟨h.1, trailsRead_closingLine hindent hline hbreaks h.2⟩

omit [Label κ] in
theorem stands_breakLines {c : Composite κ ν} (hlead : ∀ m ∈ c.children, Gap m.lead)
    (hfresh : ∀ m ∈ c.children, m.fresh = false) :
    ∀ m ∈ (c.breakLines line step).children, Stands m.lead := by
  have honLine : ∀ m ∈ c.children, ∀ indent first, Stands (onLine indent first m).lead := by
    intro m hm indent first
    rw [onLine, hfresh m hm, Bool.false_or]
    cases hbreaks : m.lead.breaksLine with
    | true => exact Or.inl hbreaks
    | false => exact stands_ownLine (hlead m hm) hbreaks first indent
  obtain ⟨cs, closing, comma, dirty⟩ := c
  cases cs with
  | nil => simp [breakLines]
  | cons c cs =>
    refine List.forall_mem_cons.2 ⟨honLine c List.mem_cons_self _ _, fun m hm => ?_⟩
    obtain ⟨k, hk, rfl⟩ := List.mem_map.1 hm
    exact honLine k (List.mem_cons_of_mem c hk) _ _

omit [Label κ] in
theorem breaksLine_closing_breakLines (c : Composite κ ν) :
    (c.breakLines line step).closing.breaksLine = true := by
  rw [breakLines]
  dsimp only
  split
  · assumption
  · simp [closingLine, Text.breaksLine]

/-- Children and bracket on lines of their own are as a parser leaves them. -/
theorem asRead_breakLines {c : Composite κ ν} (hstep : Spaces step) (hline : Spaces line)
    (hfront : ∀ m ∈ c.children, m.FrontLegible)
    (hbehind : trailsRead c.trailingComma c.closing (c.children.map Child.trail)) :
    (∀ m ∈ (c.breakLines line step).children, m.FrontLegible) ∧
      trailsRead (c.breakLines line step).trailingComma (c.breakLines line step).closing
        ((c.breakLines line step).children.map Child.trail) := by
  refine ⟨frontLegible_breakLines hline hstep hfront, ?_⟩
  rw [map_trail_breakLines, breakLines]
  dsimp only
  split
  · exact hbehind
  · rename_i hbreaks
    exact trailsRead_closingLine (spaces_childIndent hline hstep _) hline (by simpa using hbreaks)
      hbehind

theorem asRead_indentChildren {c : Composite κ (Text → ν)} (hline : Spaces line)
    (hfront : ∀ m ∈ c.children, m.FrontLegible)
    (hbehind : trailsRead c.trailingComma c.closing (c.children.map Child.trail)) :
    (⟨indentChildren line c.children, c.closing, c.trailingComma, false⟩ :
      Composite κ ν).AsRead := by
  refine ⟨fun m hm => ?_, ?_, rfl, fun m hm => ?_⟩
  · obtain ⟨k, hk, line', -, rfl⟩ := exists_of_mem_indentChildren hline hm
    exact hfront k hk
  · dsimp only
    rwa [map_trail_indentChildren]
  · obtain ⟨k, hk, line', -, rfl⟩ := exists_of_mem_indentChildren hline hm
    rfl

end Lines

/-! ### Layout of what was read -/

variable {c : Composite κ Node} {step line : Text}

/-- What layout makes of a composite that was read: it is arranged and then indented. -/
def arrangedAt (step line : Text) (c : Composite κ Node) : Composite κ Node :=
  (c.arranged.map (Node.indent step)).indent step line

theorem arrangedAt_of_isMultiline (hmulti : c.isMultiline = true) :
    c.arrangedAt step line =
      ⟨indentChildren line ((c.map (Node.indent step)).breakLines line step).children,
        ((c.map (Node.indent step)).breakLines line step).closing, c.trailingComma, false⟩ := by
  rw [arrangedAt, arranged, if_pos hmulti]
  rfl

theorem arrangedAt_of_not_isMultiline (hone : c.isMultiline = false) (hdirty : c.dirty = false) :
    c.arrangedAt step line =
      ⟨indentChildren line ((padded c.drawnUp.pad c.children).map (Child.map (Node.indent step))),
        c.drawnUp.closing, c.trailingComma, false⟩ := by
  obtain ⟨cs, closing, comma, dirty⟩ := c
  obtain rfl : dirty = false := hdirty
  rw [arrangedAt, arranged, if_neg (by simp [hone])]
  rfl

/-- A composite that goes on several lines still does once it is laid out. -/
theorem isMultiline_arrangedAt (hmulti : c.isMultiline = true) :
    (c.arrangedAt step line).isMultiline = true := by
  rw [arrangedAt_of_isMultiline hmulti, isMultiline, breaksLine_closing_breakLines, Bool.true_or,
    Bool.and_true]
  have hempty : (indentChildren line
      ((c.map (Node.indent step)).breakLines line step).children).isEmpty = c.children.isEmpty := by
    have hmap : ((indentChildren line
        ((c.map (Node.indent step)).breakLines line step).children).map Child.trail).isEmpty =
          (c.children.map Child.trail).isEmpty := by
      rw [map_trail_indentChildren, map_trail_breakLines]
      simp
    simpa using hmap
  rw [hempty]
  cases hnil : c.children.isEmpty with
  | false => rfl
  | true =>
    -- without a child there is a comment and a newline in front of the bracket
    rw [isMultiline, hnil, List.isEmpty_iff.1 hnil, List.any_nil, Bool.or_false,
      Bool.and_eq_true] at hmulti
    have hclosing : ((c.map (Node.indent step)).breakLines line step).closing = c.closing := by
      rw [breakLines]
      exact if_pos hmulti.2
    rw [hclosing]
    exact hmulti.1

/-- **Layout on several lines leaves a steady composite.** -/
theorem steady_of_isMultiline (h : c.AsRead) (hmulti : c.isMultiline = true) (hstep : Spaces step)
    (hline : Spaces line) : (c.arrangedAt step line).Steady := by
  have hread := asRead_map (f := Node.indent step).2 h
  obtain ⟨hfront, hbehind⟩ := asRead_breakLines hstep hline hread.front hread.behind
  have hstands : ∀ m ∈ ((c.map (Node.indent step)).breakLines line step).children, Stands m.lead :=
    stands_breakLines (fun m hm => (hread.front m hm).1) hread.atRest.2
  have hmulti' : (c.arrangedAt step line).isMultiline = true := isMultiline_arrangedAt hmulti
  rw [arrangedAt_of_isMultiline hmulti] at hmulti' ⊢
  refine ⟨asRead_indentChildren hline hfront hbehind,
    fun _ => ⟨breaksLine_closing_breakLines _, fun m hm => ?_⟩, fun hone => ?_⟩
  · obtain ⟨k, hk, line', -, rfl⟩ := exists_of_mem_indentChildren hline hm
    exact hstands k hk
  · rw [hmulti'] at hone
    simp at hone

/-! ### On one line -/

omit [Label κ] in
theorem padded_eq_iff {pad : Text} {cs : List (Child κ ν)} : padded pad cs = cs ↔
    ∀ lead ∈ (cs.map Child.lead).head?, hasComment lead = true ∨ lead = pad := by
  cases cs with
  | nil => simp [padded]
  | cons c cs =>
    obtain ⟨lead, label, node, trail, fresh⟩ := c
    cases hcomment : hasComment lead with
    | true => simp [padded, hcomment]
    | false => simpa [padded, hcomment] using eq_comm

omit [Label κ] in
theorem padded_padded (pad : Text) (cs : List (Child κ ν)) :
    padded pad (padded pad cs) = padded pad cs := by
  rw [padded_eq_iff]
  cases cs with
  | nil => simp [padded]
  | cons c cs =>
    cases hcomment : hasComment c.lead <;> simp [padded, hcomment]

/-- Indenting does not change what is seen of children if it does not change whether their nodes
break the line. -/
theorem map_seen_indentChildren {cs : List (Child κ Node)} (hline : Spaces line)
    (hnode : ∀ m ∈ cs, ∀ line, Spaces line →
      (Node.indent step m.node line).breaksLine = m.node.breaksLine) :
    (indentChildren line (cs.map (Child.map (Node.indent step)))).map Child.seen =
      cs.map Child.seen := by
  induction cs generalizing line with
  | nil => rfl
  | cons c cs ih =>
    obtain ⟨hc, hcs⟩ := List.forall_mem_cons.1 hnode
    have hline' := (c.map (Node.indent step)).spaces_lineIndent hline
    rw [List.map_cons, indentChildren, List.map_cons, List.map_cons, ih hline' hcs]
    simp [Child.seen, hc _ hline']

omit [Label κ] in
/-- Without the newlines in front of its bracket nothing in the composite breaks the line. -/
theorem breaksLine_drawnUp (c : Composite κ Node) :
    c.drawnUp.closing.breaksLine = false ∧ c.drawnUp.pad.breaksLine = false := by
  have hclosing : c.drawnUp.closing.breaksLine = false := by
    rw [drawnUp]
    dsimp only
    split
    · rfl
    · rename_i hbreaks
      simpa using hbreaks
  refine ⟨hclosing, ?_⟩
  rw [pad]
  split
  · rfl
  · exact hclosing

omit [Label κ] in
theorem isMultiline_padded (hone : c.isMultiline = false) :
    ({ c.drawnUp with children := padded c.drawnUp.pad c.children } :
      Composite κ Node).isMultiline = false := by
  obtain ⟨hclosing, hpad⟩ := breaksLine_drawnUp c
  rw [isMultiline, hclosing, Bool.false_or, Bool.and_eq_false_iff]
  refine Or.inr (List.any_eq_false.2 fun m hm => ?_)
  have hne : c.children ≠ [] := by
    intro hnil
    rw [hnil] at hm
    simp [padded] at hm
  obtain ⟨-, hchildren⟩ := forall_of_not_isMultiline hone hne
  -- the first child has a new slot in front of it, the others are as they were
  cases hcs : c.children with
  | nil => exact absurd hcs hne
  | cons k ks =>
    rw [hcs] at hm hchildren
    obtain ⟨hk, hks⟩ := List.forall_mem_cons.1 hchildren
    rcases List.mem_cons.1 hm with rfl | hm
    · cases hasComment k.lead <;> simp [hk, hpad]
    · simp [hks m hm]

theorem asRead_padded (h : c.AsRead) (hone : c.isMultiline = false) :
    ({ c.drawnUp with children := padded c.drawnUp.pad c.children } :
      Composite κ Node).AsRead := by
  obtain ⟨cs, closing, comma, dirty⟩ := c
  obtain ⟨hfront, hbehind, hdirty, hfresh⟩ := h
  cases cs with
  | nil =>
    refine ⟨by simp [padded], ⟨hbehind.1, ?_⟩, hdirty, by simp [padded]⟩
    rw [drawnUp]
    dsimp only
    split
    · exact .nil
    · exact hbehind.2
  | cons k ks =>
    have hbreaks : closing.breaksLine = false :=
      (forall_of_not_isMultiline hone (List.cons_ne_nil k ks)).1
    have hdrawn : drawnUp (⟨k :: ks, closing, comma, dirty⟩ : Composite κ Node) =
        ⟨k :: ks, closing, comma, dirty⟩ := by
      simp [drawnUp, hbreaks]
    have hpad : Gap (pad (⟨k :: ks, closing, comma, dirty⟩ : Composite κ Node)) := by
      rw [pad]
      split
      · exact .nil
      · exact (closing_of_trailsRead hbreaks hbehind).1
    obtain ⟨hk, hks⟩ := List.forall_mem_cons.1 hfront
    obtain ⟨hkfresh, hksfresh⟩ := List.forall_mem_cons.1 hfresh
    rw [hdrawn]
    refine ⟨List.forall_mem_cons.2 ⟨⟨?_, hk.2⟩, hks⟩, hbehind, hdirty,
      List.forall_mem_cons.2 ⟨hkfresh, hksfresh⟩⟩
    dsimp only
    split
    · exact hk.1
    · exact hpad

/-- **Layout on one line leaves a steady composite**, and what is seen of its children is what was
arranged. -/
theorem steady_of_not_isMultiline (h : c.AsRead) (hone : c.isMultiline = false)
    (hline : Spaces line)
    (hnode : ∀ m ∈ c.children, ∀ line, Spaces line →
      (Node.indent step m.node line).breaksLine = m.node.breaksLine) :
    (c.arrangedAt step line).Steady ∧ (c.arrangedAt step line).children.map Child.seen =
      c.arranged.children.map Child.seen := by
  have harranged : c.arranged = { c.drawnUp with children := padded c.drawnUp.pad c.children } :=
    if_neg (by simp [hone])
  have hread := asRead_map (f := Node.indent step).2 (asRead_padded h hone)
  have hseen : (indentChildren line ((padded c.drawnUp.pad c.children).map
      (Child.map (Node.indent step)))).map Child.seen =
        (padded c.drawnUp.pad c.children).map Child.seen := by
    refine map_seen_indentChildren hline fun m hm line' hline' => ?_
    obtain ⟨m', hm', hsame⟩ := mem_padded hm
    rw [hsame]
    exact hnode m' hm' line' hline'
  have hmulti : (c.arrangedAt step line).isMultiline = false := by
    rw [← isMultiline_padded hone, arrangedAt_of_not_isMultiline hone h.atRest.1]
    exact isMultiline_congr hseen rfl
  rw [arrangedAt_of_not_isMultiline hone h.atRest.1] at hmulti ⊢
  refine ⟨⟨asRead_indentChildren hline hread.front hread.behind, fun hlines => ?_, fun _ => ?_⟩, ?_⟩
  · rw [hmulti] at hlines
    simp at hlines
  · refine ⟨(breaksLine_drawnUp c).1, ?_⟩
    have hleads := congrArg (List.map Prod.fst) hseen
    rw [List.map_map, List.map_map] at hleads
    change padded c.drawnUp.pad _ = _
    rw [padded_eq_iff]
    have hpadded := padded_eq_iff.1 (padded_padded c.drawnUp.pad c.children)
    rw [show (Child.lead : Child κ Node → Text) = Prod.fst ∘ Child.seen from rfl] at hpadded ⊢
    rwa [hleads]
  · rw [hseen, harranged]

/-- **What layout makes of a composite that was read is steady**, and breaks the line if what was
arranged does. -/
theorem steady_arrangedAt (h : c.AsRead) (hstep : Spaces step) (hline : Spaces line)
    (hnode : ∀ m ∈ c.children, ∀ line, Spaces line →
      (Node.indent step m.node line).breaksLine = m.node.breaksLine) :
    (c.arrangedAt step line).Steady ∧ ((c.arrangedAt step line).map Node.breaksLine).breaksLine =
      (c.arranged.map Node.breaksLine).breaksLine := by
  cases hmulti : c.isMultiline with
  | true =>
    refine ⟨steady_of_isMultiline h hmulti hstep hline, ?_⟩
    rw [breaksLine_of_isMultiline (isMultiline_arrangedAt hmulti), arranged, if_pos hmulti]
    exact (breaksLine_of_isMultiline (c := { c with dirty := true }) hmulti).symm
  | false =>
    obtain ⟨hsteady, hseen⟩ := steady_of_not_isMultiline h hmulti hline hnode
    refine ⟨hsteady, breaksLine_congr hseen ?_⟩
    rw [arrangedAt_of_not_isMultiline hmulti h.atRest.1, arranged, if_neg (by simp [hmulti])]

/-! ### Steady composites stay -/

omit [Label κ] in
/-- Children and bracket that stand on lines of their own stay there. -/
theorem breakLines_eq {c : Composite κ ν} (hclosing : c.closing.breaksLine = true)
    (hstands : ∀ m ∈ c.children, Stands m.lead) (hfresh : ∀ m ∈ c.children, m.fresh = false) :
    c.breakLines line step = { c with dirty := false } := by
  have honLine : ∀ m ∈ c.children, ∀ indent first, onLine indent first m = m := by
    intro m hm indent first
    rw [onLine, hfresh m hm, Bool.false_or]
    rcases hstands m hm with hbreaks | hown
    · rw [hbreaks]
      rfl
    · rw [hown, ← hfresh m hm]
      split <;> rfl
  obtain ⟨cs, closing, comma, dirty⟩ := c
  rw [breakLines, if_pos hclosing]
  cases cs with
  | nil => rfl
  | cons k ks =>
    have hks : ∀ indent, ks.map (onLine indent false) = ks := fun indent => by
      conv_rhs => rw [← List.map_id ks]
      exact List.map_congr_left fun m hm => honLine m (List.mem_cons_of_mem k hm) indent false
    dsimp only
    rw [honLine k List.mem_cons_self, hks]

/-- **A steady composite is laid out as it was**, if its nodes are. -/
theorem Steady.arrangedAt_map (h : c.Steady) (step line : Text) {f : Node → Node}
    (hbreaks : ∀ m ∈ c.children, (f m.node).breaksLine = m.node.breaksLine)
    (hnode : ∀ m ∈ c.children, ∀ line, Node.indent step (f m.node) line = m.node) :
    (c.map f).arrangedAt step line = c ∧
      ((c.map f).arranged.map Node.breaksLine).breaksLine = (c.map Node.breaksLine).breaksLine := by
  obtain ⟨hread, hlines, hline⟩ := h
  have hseen : (c.map f).children.map Child.seen = c.children.map Child.seen := by
    rw [children_map, List.map_map]
    exact List.map_congr_left fun m hm => by simp [Child.seen, hbreaks m hm]
  have hmulti : (c.map f).isMultiline = c.isMultiline := isMultiline_congr hseen rfl
  have hindent : indentChildren line (c.children.map (Child.map fun n => Node.indent step (f n))) =
      c.children := indentChildren_map_eq hread.atRest.2 hnode line
  have hdirty : c.dirty = false := hread.atRest.1
  cases hc : c.isMultiline with
  | true =>
    obtain ⟨hclosing, hstands⟩ := hlines hc
    have hbroken : ((c.map f).map (Node.indent step)).breakLines line step =
        { (c.map f).map (Node.indent step) with dirty := false } :=
      breakLines_eq hclosing (by simpa using hstands) (by simpa using hread.atRest.2)
    constructor
    · rw [arrangedAt_of_isMultiline (hmulti.trans hc), hbroken]
      dsimp only
      rw [children_map, children_map, List.map_map]
      refine (congrArg (Composite.mk · c.closing c.trailingComma false) hindent).trans ?_
      rw [← hdirty]
    · rw [arranged, if_pos (hmulti.trans hc)]
      exact breaksLine_congr hseen rfl
  | false =>
    obtain ⟨hclosing, hpadded⟩ := hline hc
    have hone : (c.map f).isMultiline = false := hmulti.trans hc
    have hdrawn : (c.map f).drawnUp = c.map f := by
      rw [drawnUp, closing_map, hclosing]
      rfl
    have hleads : padded (c.map f).pad (c.map f).children = (c.map f).children := by
      rw [padded_eq_iff] at hpadded ⊢
      rw [children_map, List.map_map]
      exact hpadded
    constructor
    · rw [arrangedAt_of_not_isMultiline hone hdirty, hdrawn, hleads, children_map, List.map_map]
      refine (congrArg (Composite.mk · c.closing c.trailingComma false) hindent).trans ?_
      rw [← hdirty]
    · rw [arranged, if_neg (by simp [hone]), hdrawn, hleads]
      exact breaksLine_congr hseen rfl

end Composite

end EnvManifest
