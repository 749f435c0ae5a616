import EnvManifest.Proofs.Comments.Line
import EnvManifest.Proofs.Layout.OneLine

/-!
# Comments behind the children of a composite

Each child of a composite is written with its slots and what is behind it
(`Composite.behinds`), where the comments on its line are found, in front of the comma or behind it
(`besides`). A child that is put at the end, on a line of its own, leaves them with the child that
they are beside, but for those of the last child (`Composite.exists_grown_push`). These stay exactly
if they are in front of its comma, should there be one, and none of them is cut in two
(`Composite.KeepsLine`): a comment behind a trailing comma is in the slot of the closing bracket,
and ends up beside the new child, and a block comment that the parser has cut in two takes in the
new child.
-/

namespace EnvManifest

open Text

/-! ### A comment that is cut in two -/

/-- **A severed comment takes in what is put in its place.** -/
theorem Severs.beside_ne {trail closing : Text} (h : Severs trail closing) (hline : '\n' ∉ trail)
    (x : Text) : beside (trail ++ ',' :: x) ≠ beside (trail ++ closing) := by
  obtain ⟨g, a, b, rest, rfl, rfl, hg, hab, -⟩ := h
  have ha : ¬['*', '/'] <:+: a := fun hin => hab (hin.trans (List.infix_append' [] a _))
  have hg' : '\n' ∉ g := fun hmem => hline (List.mem_append_left _ hmem)
  have hhead : ∀ c y, c ≠ '*' → c ≠ '/' →
      ∃ z, (beside ('/' :: '*' :: (a ++ c :: y))).head? = some ('/' :: '*' :: (a ++ c :: z)) := by
    intro c y hstar hslash
    obtain ⟨z, ts, hts⟩ := exists_trivia_block ha hstar hslash y
    refine ⟨z, ?_⟩
    rw [beside, hts, Trivia.lineOf]
    dsimp only [Trivia.comment?]
    split <;> rfl
  obtain ⟨z, hz⟩ := hhead ',' x (by decide) (by decide)
  obtain ⟨z', hz'⟩ := hhead '\n' (b ++ '*' :: '/' :: rest) (by decide) (by decide)
  intro heq
  rw [List.append_assoc, List.append_assoc, hg.beside_append hg', hg.beside_append hg'] at heq
  have hheads := congrArg List.head? (List.append_cancel_left heq)
  simp only [List.cons_append] at hheads
  rw [hz, hz'] at hheads
  simp at hheads

/-! ### Entries and what is behind them -/

namespace Standing

/-- What is written between a child and the next one, or the closing bracket. -/
def behind (comma : Bool) (closing : Text) (s : Standing) : List Standing → Text
  | [] => s.trail ++ if comma then ',' :: closing else closing
  | next :: _ => s.trail ++ ',' :: next.lead

/-- Each child as it is written, with what is behind it. -/
def behinds (comma : Bool) (closing : Text) : List Standing → List (Text × Text)
  | [] => []
  | s :: ss => (s.label ++ s.value, s.behind comma closing ss) :: behinds comma closing ss

/-- A child that stands as it did, but for what is in front of its line. -/
structure Stays (s s' : Standing) : Prop where
  label : s'.label = s.label
  value : s'.value = s.value
  trail : s'.trail = s.trail
  beside : beside s'.lead = beside s.lead

end Standing

/-- Each entry with the comments beside it. -/
def besides (entries : List (Text × Text)) : List (Text × List Text) :=
  entries.map fun e => (e.1, beside e.2)

theorem besides_singleton (e : Text × Text) : besides [e] = [(e.1, beside e.2)] := rfl

theorem besides_append (es es' : List (Text × Text)) :
    besides (es ++ es') = besides es ++ besides es' :=
  List.map_append

namespace Standing

variable {comma : Bool} {closing closing' : Text} {ss ss' ts ts' : List Standing}
  {s s' t t' : Standing}

theorem behind_congr (hs : Stays s s') (hgap : Gap s.trail) (ht : beside t'.lead = beside t.lead) :
    beside (s'.behind comma closing' (t' :: ts')) = beside (s.behind comma closing (t :: ts)) := by
  rw [behind, behind, hs.trail]
  refine hgap.beside_append_congr ?_
  rw [beside_comma, beside_comma, ht]

/-- **Children that stay have the comments beside them that they had**, if one comes behind
them. -/
theorem exists_behinds_append (h : List.Forall₂ Stays ss ss') (hgap : ∀ s ∈ ss, Gap s.trail)
    (ht : beside t'.lead = beside t.lead) (comma : Bool) (closing closing' : Text)
    (ts ts' : List Standing) :
    ∃ front front',
      behinds comma closing (ss ++ t :: ts) = front ++ behinds comma closing (t :: ts) ∧
      behinds comma closing' (ss' ++ t' :: ts') = front' ++ behinds comma closing' (t' :: ts') ∧
      besides front' = besides front := by
  induction h with
  | nil => exact ⟨[], [], rfl, rfl, rfl⟩
  | @cons s s' ss ss' hs hss ih =>
    obtain ⟨htrail, htrails⟩ := List.forall_mem_cons.1 hgap
    obtain ⟨front, front', hfront, hfront', hbesides⟩ := ih htrails
    refine ⟨(s.label ++ s.value, s.behind comma closing (ss ++ t :: ts)) :: front,
      (s'.label ++ s'.value, s'.behind comma closing' (ss' ++ t' :: ts')) :: front', ?_, ?_, ?_⟩
    · rw [List.cons_append, behinds, hfront, List.cons_append]
    · rw [List.cons_append, behinds, hfront', List.cons_append]
    · have hbehind : beside (s'.behind comma closing' (ss' ++ t' :: ts')) =
          beside (s.behind comma closing (ss ++ t :: ts)) := by
        cases hss with
        | nil => exact behind_congr hs htrail ht
        | cons hnext _ => exact behind_congr hs htrail hnext.beside
      rw [besides, List.map_cons, hbehind, hs.label, hs.value]
      exact congrArg _ hbesides

end Standing

/-! ### One composite -/

theorem exists_append_of_forall₂ {α β : Type} {R : α → β → Prop} {as bs : List α} {cs : List β}
    (h : List.Forall₂ R (as ++ bs) cs) :
    ∃ as' bs', cs = as' ++ bs' ∧ List.Forall₂ R as as' ∧ List.Forall₂ R bs bs' := by
  have hflip : List.Forall₂ (flip R) cs (as ++ bs) := h.flip
  exact ⟨cs.take as.length, cs.drop as.length, (List.take_append_drop _ _).symm,
    (List.forall₂_take_append _ _ _ hflip).flip, (List.forall₂_drop_append _ _ _ hflip).flip⟩

/-- The same trivia on the line, wherever the child is put. -/
theorem Composite.sameLine_onLine {κ ν : Type} {m : Child κ ν} (h : Gap m.lead) (indent : Text)
    (first : Bool) : Trivia.SameLine (trivia m.lead) (trivia (onLine indent first m).lead) := by
  rw [onLine]
  split
  · exact sameLine_ownLine h first indent
  · exact .refl _

/-- A child put on a line of its own is changed in front of it only. -/
theorem Composite.onLine_eq {κ ν : Type} (indent : Text) (first : Bool) (m : Child κ ν) :
    onLine indent first m = { m with lead := (onLine indent first m).lead } := by
  rw [onLine]
  split <;> rfl

namespace Composite

variable {κ : Type} [Label κ]

/-- Each child as it is written, with what is behind it. -/
def behinds (c : Composite κ Node) : List (Text × Text) :=
  Standing.behinds c.trailingComma c.closing (c.children.map Child.standing)

/-- The comments beside the last child are in front of its comma, if it has one, and none of them
is cut in two. -/
def KeepsLine {ν : Type} (c : Composite κ ν) : Prop :=
  ∀ last ∈ c.children.getLast?, Whole last.trail ∧
    beside (last.trail ++ if c.trailingComma then ',' :: c.closing else c.closing) =
      beside last.trail

/-! #### Laying out on several lines -/

/-- A child of a composite that is laid out on several lines. -/
structure PutOnOwnLine (step indent : Text) (m m' : Child κ Node) : Prop where
  lead : ∃ first, m'.lead = (onLine indent first m).lead
  label : m'.label = m.label
  trail : m'.trail = m.trail
  node : ∃ line, m'.node = Node.indent step m.node line

/-- **A composite is laid out on several lines child by child.** -/
theorem exists_putOnOwnLine {c : Composite κ Node} (h : c.dirty = true) (step line : Text) :
    ∃ indent, List.Forall₂ (PutOnOwnLine step indent) c.children
        ((c.map (Node.indent step)).indent step line).children ∧
      ((c.map (Node.indent step)).indent step line).trailingComma = c.trailingComma ∧
      ((c.map (Node.indent step)).indent step line).closing =
        if c.closing.breaksLine then c.closing else closingLine c.closing indent line := by
  let indent := childIndent line step (c.map (Node.indent step)).children
  rw [Composite.indent, dirty_map, h, if_pos rfl]
  refine ⟨indent, ?_, rfl, rfl⟩
  have hplaced : ∀ (first : Bool) (m m' : Child κ Node),
      PutOnLine (onLine indent first (m.map (Node.indent step))) m' →
        PutOnOwnLine step indent m m' := by
    intro first m m' hm
    rw [onLine_map, onLine_eq] at hm
    exact ⟨⟨first, hm.lead⟩, hm.label, hm.trail, hm.node⟩
  have hlines := forall₂_indentChildren line
    ((c.map (Node.indent step)).breakLines line step).children
  obtain ⟨cs, closing, comma, dirty⟩ := c
  cases cs with
  | nil => exact .nil
  | cons m ms =>
    obtain ⟨m', ms', hm, hms, hcons⟩ := List.forall₂_cons_left_iff.1 hlines
    rw [List.forall₂_map_left_iff, List.forall₂_map_left_iff] at hms
    rw [hcons]
    exact .cons (hplaced true m m' hm) (hms.imp (hplaced false))

theorem PutOnOwnLine.stays {step indent : Text} {m m' : Child κ Node}
    (h : PutOnOwnLine step indent m m') (hlead : Gap m.lead) (hclean : m.node.isDirty = false) :
    m.standing.Stays m'.standing := by
  obtain ⟨first, hfirst⟩ := h.lead
  obtain ⟨line, hline⟩ := h.node
  refine ⟨?_, ?_, h.trail, ?_⟩
  · rw [Child.standing, Child.standing, h.label]
  · rw [Child.standing, Child.standing, hline, Node.pack_indent_of_not_isDirty step _ hclean]
  · exact (congrArg beside hfirst).trans (sameLine_onLine hlead indent first).lineOf_eq

/-! #### The last child and the new one -/

section Last

variable {α ν : Type} {comma : Bool} {closing lead : Text} {m : Child α ν}

/-- **What is beside the last child once another one is behind it**: a line comment in front of
the new comma is moved behind it, and what follows begins a line. -/
theorem beside_relieved (h : Whole m.trail)
    (hlead : Trivia.SameLine (trivia (carried m.trail ++ ['\n'])) (trivia lead)) :
    beside ((relieved [] m).trail ++ ',' :: lead) = beside m.trail := by
  have hline : beside lead = beside (carried m.trail ++ ['\n']) := hlead.lineOf_eq
  dsimp only [relieved]
  cases hends : endsInLineComment m.trail with
  | true =>
    rw [carried, hends, if_pos rfl, h.beside_append_newline] at hline
    rw [if_pos rfl, List.nil_append, beside_comma, hline]
  | false =>
    have hnil : beside (',' :: lead) = beside [] := by
      rw [beside_comma, hline, carried, hends, if_neg (by simp)]
      exact Gap.nil.whole.beside_append_newline []
    rw [if_neg (by simp), (h.gap hends).beside_append_congr hnil, List.append_nil]

/-- A newline is behind the last child once another one is behind it. -/
theorem newline_mem_relieved (h : Whole m.trail)
    (hlead : Trivia.SameLine (trivia (carried m.trail ++ ['\n'])) (trivia lead)) :
    .newline ∈ trivia ((relieved [] m).trail ++ ',' :: lead) := by
  have hcarried : Whole (carried m.trail) := by
    rw [carried]
    split
    · exact h
    · exact Gap.nil.whole
  have hnewline : .newline ∈ trivia lead := by
    refine hlead.newline_mem ?_
    rw [hcarried.trivia_append_newline]
    simp
  rw [(gap_trail_relieved h).trivia_append, trivia_cons (by decide) (by decide)]
  exact List.mem_append_right _ hnewline

/-- **The last child keeps the comments beside it** exactly if they are whole and in front of its
comma. -/
theorem beside_relieved_iff (hcut : trailsCut comma closing [m.trail])
    (hlead : Trivia.SameLine (trivia (carried m.trail ++ ['\n'])) (trivia lead)) :
    beside ((relieved [] m).trail ++ ',' :: lead) =
        beside (m.trail ++ if comma then ',' :: closing else closing) ↔
      Whole m.trail ∧
        beside (m.trail ++ if comma then ',' :: closing else closing) = beside m.trail := by
  by_cases hwhole : Whole m.trail
  · rw [beside_relieved hwhole hlead]
    exact ⟨fun h => ⟨hwhole, h.symm⟩, fun h => h.2.symm⟩
  · refine iff_of_false ?_ fun h => hwhole h.1
    cases comma with
    | true => exact absurd hcut.1.whole hwhole
    | false =>
      have hbehind : CutBehind m.trail closing := hcut
      have hsevers := hbehind.comments.resolve_left fun h => hwhole h.1
      dsimp only [relieved]
      rw [hsevers.swallows.endsInLineComment_eq_false]
      exact hsevers.beside_ne hbehind.line lead

/-- The closing bracket is laid out with what is on the line in front of it. -/
theorem beside_closing (hcut : trailsCut comma closing [m.trail]) (indent line : Text) :
    beside (if closing.breaksLine then closing else closingLine closing indent line) =
      beside closing := by
  split
  · rfl
  · rename_i hbreaks
    have hgap : Gap closing := by
      cases comma with
      | true => exact hcut.2
      | false =>
        have hbehind : CutBehind m.trail closing := hcut
        rcases hbehind.rest with ⟨rfl, -⟩ | hnewline
        · exact .nil
        · refine absurd (List.mem_of_head? hnewline) ?_
          simpa [Text.breaksLine] using hbreaks
    exact (sameLine_closingLine hgap indent line).lineOf_eq

end Last

/-! #### Putting a child at the end -/

theorem trailsCut_append {comma : Bool} {closing t : Text} {ts : List Text}
    (h : trailsCut comma closing (ts ++ [t])) :
    (∀ u ∈ ts, Gap u) ∧ trailsCut comma closing [t] := by
  induction ts with
  | nil => exact ⟨by simp, h⟩
  | cons u ts ih =>
    have hcons : Gap u ∧ trailsCut comma closing (ts ++ [t]) := by
      cases ts <;> exact h
    obtain ⟨hts, ht⟩ := ih hcons.2
    exact ⟨List.forall_mem_cons.2 ⟨hcons.1, hts⟩, ht⟩

variable {c : Composite κ Node} {k last : Child κ Node} {front : List (Child κ Node)}

/-- **A composite with a child put on a line of its own at its end** goes on several lines, and a
line comment behind the last child is moved behind the comma. -/
theorem settle_push_onOwnLine (hc : c.children = front ++ [last])
    (hfresh : ∀ m ∈ c.children, m.fresh = false)
    (hends : ∀ m ∈ front, endsInLineComment m.trail = false) (hlead : k.lead = ['\n'])
    (htrail : k.trail = []) (standard : Bool) :
    (c.push k).settle standard =
      ⟨front ++ [relieved [] last, tidy (relieved (carried last.trail) k)], c.closing,
        c.trailingComma, true⟩ := by
  have hmultiline : (c.push k).isMultiline = true := by
    simp [isMultiline, push, hlead, Text.breaksLine]
  have hcomma : (c.push k).settledComma standard = c.trailingComma := by
    rw [settledComma, if_neg]
    · rfl
    · simp [push, hc, hfresh last (by simp [hc])]
  have hnil : endsInLineComment [] = false := Gap.nil.endsInLineComment_eq_false
  have hshift : shiftComments c.trailingComma c.closing [] (c.push k).children =
      (front ++ [relieved [] last, relieved (carried last.trail) k], c.closing) := by
    rw [children_push, hc, List.append_assoc, shiftComments_append hends, List.singleton_append,
      shiftComments_of_comma (by simp)]
    simp [shiftComments, relieved, htrail, hnil]
  have htidy : (front ++ [relieved [] last]).map tidy = front ++ [relieved [] last] := by
    refine map_tidy_eq fun m hm => ?_
    rcases List.mem_append.1 hm with hm | hm
    · exact hfresh m (by simp [hc, hm])
    · rw [List.mem_singleton.1 hm]
      exact hfresh last (by simp [hc])
  rw [settle, hmultiline, hcomma]
  dsimp only
  rw [show (c.push k).closing = c.closing from rfl, hshift, if_pos rfl]
  dsimp only
  rw [List.append_cons, List.map_append, htidy]
  simp

/-- What is carried behind a comma begins a line when a newline is put behind it. -/
theorem gap_carried_newline {comma : Bool} {closing trail : Text}
    (h : trailsCut comma closing [trail]) : Gap (carried trail ++ ['\n']) := by
  cases hends : endsInLineComment trail with
  | false =>
    rw [carried, hends, if_neg (by simp)]
    exact .blank rfl .nil
  | true =>
    rw [carried, hends, if_pos rfl]
    cases comma with
    | true => exact h.1.whole
    | false =>
      have hbehind : CutBehind trail closing := h
      refine (hbehind.comments.resolve_right fun hsevers => ?_).1
      simp [hsevers.swallows.endsInLineComment_eq_false] at hends

end Composite

/-- What entries and what is behind them become when a new one is put at the end: those that there
were, and the new one. All but the last keep the comments beside them; `keeps` says whether the
last one does, and if so the new one begins another line. The comments in front of the closing
bracket end up beside the new entry. -/
structure Grown (before after : List (Text × Text)) (closing : Text) (keeps : Prop)
    (olds : List (Text × Text)) (new : Text × Text) : Prop where
  split : after = olds ++ [new]
  others : (besides olds).dropLast = (besides before).dropLast
  last : besides olds = besides before ↔ keeps
  apart : keeps → ∀ e ∈ olds.getLast?, .newline ∈ trivia e.2
  moved : olds ≠ [] → beside new.2 = beside closing

namespace Composite

variable {κ : Type} [Label κ] {c : Composite κ Node} {k last : Child κ Node}
  {front : List (Child κ Node)}

/-- **The children of a composite with one put on a line of its own at its end**, once it is laid
out: the others stay, but for a line comment behind the last of them, which is moved in front of
the new one. -/
theorem exists_laid_push (hfresh : ∀ m ∈ c.children, m.fresh = false)
    (hclean : ∀ m ∈ c.children, m.node.isDirty = false)
    (hleads : ∀ m ∈ c.children, Gap m.lead) (hc : c.children = front ++ [last])
    (hends : ∀ m ∈ front, endsInLineComment m.trail = false)
    (hcarried : Gap (carried last.trail ++ ['\n'])) (hlead : k.lead = ['\n'])
    (htrail : k.trail = []) (standard : Bool) (step line : Text) :
    ∃ front' last' k' indent,
      ((c.push k).laid standard step line).children = front' ++ [last', k'] ∧
      List.Forall₂ Standing.Stays (front.map Child.standing) (front'.map Child.standing) ∧
      (relieved [] last).standing.Stays last'.standing ∧
      Trivia.SameLine (trivia (carried last.trail ++ ['\n'])) (trivia k'.lead) ∧ k'.trail = [] ∧
      ((c.push k).laid standard step line).trailingComma = c.trailingComma ∧
      ((c.push k).laid standard step line).closing =
        if c.closing.breaksLine then c.closing else closingLine c.closing indent line := by
  have hmem : ∀ m ∈ front, m ∈ c.children := fun m hm => by simp [hc, hm]
  have hlast : last ∈ c.children := by simp [hc]
  let k₁ : Child κ Node := tidy (relieved (carried last.trail) (k.map (Node.settle standard)))
  have hlead₁ : k₁.lead = carried last.trail ++ ['\n'] :=
    (lead_tidy _).trans (congrArg (carried last.trail ++ ·) hlead)
  have htrail₁ : k₁.trail = [] := by
    refine (trail_tidy _).trans ?_
    rw [relieved, Child.trail_map, htrail]
    simp
  obtain ⟨indent, hchildren, hcomma, hclosing⟩ := exists_putOnOwnLine
    (c := ⟨front ++ [relieved [] last, k₁], c.closing, c.trailingComma, true⟩) rfl step line
  rw [laid, if_pos (show (c.push k).dirty = true from rfl), map_settle_push hclean,
    settle_push_onOwnLine (k := k.map (Node.settle standard)) hc hfresh hends hlead htrail]
  obtain ⟨front', rest', hc', hfront, hrest'⟩ := exists_append_of_forall₂ hchildren
  obtain ⟨last', ks', hlast', hks', rfl⟩ := List.forall₂_cons_left_iff.1 hrest'
  obtain ⟨k', ks', hk', hnil, rfl⟩ := List.forall₂_cons_left_iff.1 hks'
  obtain rfl := List.forall₂_nil_left_iff.1 hnil
  refine ⟨front', last', k', indent, hc', ?_, ?_, ?_, hk'.trail.trans htrail₁, hcomma, hclosing⟩
  · rw [List.forall₂_map_left_iff, List.forall₂_map_right_iff]
    have hstays := (List.forall₂_and_left _ _).2 ⟨hmem, hfront⟩
    exact hstays.imp fun m m' hm => hm.2.stays (hleads m hm.1) (hclean m hm.1)
  · exact hlast'.stays (hleads last hlast) (hclean last hlast)
  · obtain ⟨first, hfirst⟩ := hk'.lead
    rw [← hlead₁] at hcarried ⊢
    rw [hfirst]
    exact sameLine_onLine hcarried indent first

/-- The children and what is behind them before one is put on a line of its own at the end and after
that. The line goes on behind the last of them as behind a child that is relieved of its line
comment. -/
theorem exists_behinds_push (hcut : c.Cut) (hfresh : ∀ m ∈ c.children, m.fresh = false)
    (hclean : ∀ m ∈ c.children, m.node.isDirty = false) (hc : c.children = front ++ [last])
    (hbehind : trailsCut c.trailingComma c.closing [last.trail])
    (htrails : ∀ m ∈ front, Gap m.trail) (hlead : k.lead = ['\n']) (htrail : k.trail = [])
    (standard : Bool) (step line : Text) :
    ∃ es es' lead new,
      c.behinds = es ++ [(last.standing.label ++ last.standing.value,
        last.trail ++ if c.trailingComma then ',' :: c.closing else c.closing)] ∧
      ((c.push k).laid standard step line).behinds = (es' ++ [(last.standing.label ++
        last.standing.value, (relieved [] last).trail ++ ',' :: lead)]) ++ [new] ∧
      besides es' = besides es ∧
      Trivia.SameLine (trivia (carried last.trail ++ ['\n'])) (trivia lead) ∧
      beside new.2 = beside c.closing := by
  obtain ⟨front', last', k', indent, hchildren, hfront, hlast, hline, hnone, hcomma, hclosing⟩ :=
    exists_laid_push hfresh hclean (fun m hm => (hcut.front m hm).1) hc
      (fun m hm => (htrails m hm).endsInLineComment_eq_false) (gap_carried_newline hbehind) hlead
      htrail standard step line
  generalize (c.push k).laid standard step line = c' at hchildren hcomma hclosing ⊢
  have hlead' : beside last'.standing.lead = beside last.standing.lead := hlast.beside
  obtain ⟨es, es', hes, hes', hbesides⟩ := Standing.exists_behinds_append hfront
    (fun s hs => by
      obtain ⟨m, hm, rfl⟩ := List.mem_map.1 hs
      exact htrails m hm)
    hlead' c.trailingComma c.closing c'.closing [] [k'.standing]
  refine ⟨es, es', k'.lead, (k'.standing.label ++ k'.standing.value,
    if c.trailingComma then ',' :: c'.closing else c'.closing), ?_, ?_, hbesides, hline, ?_⟩
  · rw [behinds, hc, List.map_append]
    exact hes
  · have hlabel : last'.standing.label = last.standing.label := hlast.label
    have hvalue : last'.standing.value = last.standing.value := hlast.value
    have htrail : last'.standing.trail = (relieved [] last).trail := hlast.trail
    have hnone : k'.standing.trail = [] := hnone
    rw [behinds, hchildren, hcomma, List.map_append]
    refine hes'.trans ?_
    simp only [Standing.behinds, Standing.behind, hlabel, hvalue, htrail, hnone, List.append_assoc,
      List.nil_append, List.singleton_append]
    rfl
  · have hclosing' : beside c'.closing = beside c.closing := by
      rw [hclosing]
      exact beside_closing hbehind indent line
    dsimp only
    split
    · rw [beside_comma, hclosing']
    · exact hclosing'

/-- **What is beside the children of a composite** when one is put on a line of its own at its
end. -/
theorem exists_grown_push_of_eq (hcut : c.Cut) (hfresh : ∀ m ∈ c.children, m.fresh = false)
    (hclean : ∀ m ∈ c.children, m.node.isDirty = false) (hc : c.children = front ++ [last])
    (hlead : k.lead = ['\n']) (htrail : k.trail = []) (standard : Bool) (step line : Text) :
    ∃ olds new, Grown c.behinds ((c.push k).laid standard step line).behinds c.closing c.KeepsLine
      olds new := by
  obtain ⟨htrails, hbehind⟩ : (∀ t ∈ front.map Child.trail, Gap t) ∧
      trailsCut c.trailingComma c.closing [last.trail] := by
    have hbehind := hcut.behind
    rw [hc, List.map_append] at hbehind
    exact trailsCut_append hbehind
  obtain ⟨es, es', lead, new, hbefore, hafter, hbesides, hline, hmoved⟩ :=
    exists_behinds_push hcut hfresh hclean hc hbehind
      (fun m hm => htrails _ (List.mem_map_of_mem hm)) hlead htrail standard step line
  have hkeeps : c.KeepsLine ↔ Whole last.trail ∧
      beside (last.trail ++ if c.trailingComma then ',' :: c.closing else c.closing) =
        beside last.trail := by
    simp [KeepsLine, hc]
  refine ⟨_, new, hafter, ?_, ?_, fun h e he => ?_, fun _ => hmoved⟩
  · rw [hbefore, besides_append, besides_append, besides_singleton, besides_singleton,
      List.dropLast_concat, List.dropLast_concat, hbesides]
  · rw [hbefore, besides_append, besides_append, besides_singleton, besides_singleton, hbesides,
      hkeeps, ← beside_relieved_iff hbehind hline]
    simp
  · obtain rfl : e = _ := by simpa using he.symm
    exact newline_mem_relieved (hkeeps.1 h).1 hline

/-- **What is beside the children of a composite** when one is put at its end, on a line of its own
unless it is the first. -/
theorem exists_grown_push [Named κ] (hcut : c.Cut) (hfresh : ∀ m ∈ c.children, m.fresh = false)
    (hclean : ∀ m ∈ c.children, m.node.isDirty = false)
    (hlead : c.children ≠ [] → k.lead = ['\n']) (htrail : k.trail = []) (standard : Bool)
    (step line : Text) :
    ∃ olds new, Grown c.behinds ((c.push k).laid standard step line).behinds c.closing c.KeepsLine
      olds new := by
  rcases List.eq_nil_or_concat c.children with hnil | ⟨front, last, hc⟩
  · have hchildren := forall₂_laid standard step line (c.push k)
    rw [children_push, hnil, List.nil_append] at hchildren
    obtain ⟨k', ks', -, hks', hlaid⟩ := List.forall₂_cons_left_iff.1 hchildren
    obtain rfl := List.forall₂_nil_left_iff.1 hks'
    have hbefore : c.behinds = [] := by
      rw [behinds, hnil]
      rfl
    have hkeeps : c.KeepsLine := by simp [KeepsLine, hnil]
    obtain ⟨new, hafter⟩ : ∃ new, ((c.push k).laid standard step line).behinds = [] ++ [new] := by
      rw [behinds, hlaid]
      exact ⟨_, rfl⟩
    refine ⟨[], new, hafter, ?_, ?_, by simp, by simp⟩
    · rw [hbefore]
    · rw [hbefore]
      exact iff_of_true rfl hkeeps
  · rw [List.concat_eq_append] at hc
    exact exists_grown_push_of_eq hcut hfresh hclean hc (hlead (by simp [hc])) htrail standard step
      line

end Composite

end EnvManifest
