import EnvManifest.Document.Layout.Settle
import EnvManifest.Proofs.Layout.Slot
import EnvManifest.Proofs.Layout.View
import EnvManifest.Proofs.Legible

/-!
# Settling loose composites

An edit glues slots and puts commas behind children without looking at what is in the
slots, and the first pass of layout has to make a legible composite of what it leaves. It
can, if the composite is `Loose`: a line comment may stand in front of a comma, as long as
what is behind the comma begins a line (`Joins`), since the comment is moved there.

A settled composite is legible, or will go on several lines and is legible but for the
newline in front of its closing bracket (`Composite.settled_settle`). So a tree that is
loose everywhere is settled everywhere (`Node.everywhere_settle`).
-/

namespace EnvManifest

/-! ### Slots around a comma -/

/-- The line comment that a comma behind a trail would end up in. -/
def carried (trail : Text) : Text :=
  if endsInLineComment trail then trail else []

/-- A comma can be put between a trail and the slot in front of the next child. -/
def Joins (trail lead : Text) : Prop :=
  Whole trail ∧ Gap (carried trail ++ lead)

/-- A comma that is swallowed is put in a block comment, not in a line comment. -/
theorem Swallows.endsInLineComment_eq_false {trail closing : Text} (h : Swallows trail closing) :
    endsInLineComment trail = false := by
  rcases h.scan_trail with hs | hs <;>
    rw [← Bool.not_eq_true, endsInLineComment_iff_scan hs] <;> simp

theorem joins_of_gap {trail lead : Text} (htrail : Gap trail) (hlead : Gap lead) :
    Joins trail lead := by
  rw [Joins, carried, htrail.endsInLineComment_eq_false]
  exact ⟨htrail.whole, hlead⟩

/-! ### Loose composites -/

section Loose

variable {κ ν : Type}

/-- What is behind the children of a composite, up to the closing bracket, can be made
legible by moving line comments behind commas. -/
def looseBehind (several comma : Bool) (closing : Text) : List (Child κ ν) → Prop
  | [] => Closes several [] closing
  | [c] =>
    if comma then
      Whole c.trail ∧ Closes several [] (carried c.trail ++ closing) ∨ Swallows c.trail closing
    else Closes several c.trail closing
  | c :: d :: cs => Joins c.trail d.lead ∧ looseBehind several comma closing (d :: cs)

/-- A composite that can be made legible by moving line comments behind commas, where
`comma` says whether one follows the last child. -/
structure Composite.Loose [Label κ] (several comma : Bool) (c : Composite κ ν) : Prop where
  labels : ∀ m ∈ c.children, ∀ t ∈ Label.slots m.label, Gap t
  first : ∀ m ∈ c.children.head?, Gap m.lead
  behind : looseBehind several comma c.closing c.children

variable {several comma : Bool} {closing : Text}

theorem trailsLegible_cons {t : Text} {ts : List Text} (hts : ts ≠ []) :
    trailsLegible several comma closing (t :: ts) ↔
      Gap t ∧ trailsLegible several comma closing ts := by
  cases ts with
  | nil => exact absurd rfl hts
  | cons u us => exact Iff.rfl

/-- What is legible is loose. -/
theorem looseBehind_of_trailsLegible {cs : List (Child κ ν)} (hlead : ∀ m ∈ cs, Gap m.lead)
    (h : trailsLegible several comma closing (cs.map Child.trail)) :
    looseBehind several comma closing cs := by
  induction cs with
  | nil => exact h
  | cons c cs ih =>
    cases cs with
    | nil =>
      cases comma with
      | true =>
        have hlast : Gap c.trail ∧ Closes several [] closing ∨ Swallows c.trail closing := by
          simpa [trailsLegible] using h
        rcases hlast with ⟨htrail, hclosing⟩ | hswallows
        · refine Or.inl ⟨htrail.whole, ?_⟩
          rw [carried, htrail.endsInLineComment_eq_false]
          exact hclosing
        · exact Or.inr hswallows
      | false => simpa [looseBehind, trailsLegible] using h
    | cons d cs =>
      obtain ⟨htrail, hrest⟩ : Gap c.trail ∧ _ := h
      obtain ⟨-, hlead⟩ := List.forall_mem_cons.1 hlead
      exact ⟨joins_of_gap htrail (hlead d List.mem_cons_self), ih hlead hrest⟩

namespace Composite

/-- The child with a slot put in front of it, and with the line comment gone that a comma
behind it would end up in. -/
def relieved (carry : Text) (c : Child κ ν) : Child κ ν :=
  { c with
    lead := carry ++ c.lead
    trail := if endsInLineComment c.trail then [] else c.trail }

theorem gap_trail_relieved {carry : Text} {c : Child κ ν} (h : Whole c.trail) :
    Gap (relieved carry c).trail := by
  rw [relieved]
  dsimp only
  split
  · exact .nil
  · rename_i hends
    exact h.gap (by simpa using hends)

theorem shiftComments_of_comma {carry : Text} {c : Child κ ν} {cs : List (Child κ ν)}
    (h : (comma || !cs.isEmpty) = true) :
    shiftComments comma closing carry (c :: cs) =
      (relieved carry c :: (shiftComments comma closing (carried c.trail) cs).1,
        (shiftComments comma closing (carried c.trail) cs).2) := by
  rw [shiftComments, relieved, carried, h, Bool.true_and]
  cases endsInLineComment c.trail <;> rfl

/-- Moving comments changes leads and trails and nothing else. -/
theorem map_shiftComments {α : Type} {f : Child κ ν → α}
    (hf : ∀ (c : Child κ ν) lead trail, f { c with lead := lead, trail := trail } = f c)
    (carry : Text) (cs : List (Child κ ν)) :
    (shiftComments comma closing carry cs).1.map f = cs.map f := by
  induction cs generalizing carry with
  | nil => rfl
  | cons c cs ih =>
    rw [shiftComments]
    dsimp only
    split
    · rw [List.map_cons, List.map_cons, ih]
      exact congrArg (· :: _) (hf c _ _)
    · rw [List.map_cons, List.map_cons, ih]
      exact congrArg (· :: _) (hf c _ c.trail)

theorem shiftComments_ne_nil {carry : Text} {cs : List (Child κ ν)} (h : cs ≠ []) :
    (shiftComments comma closing carry cs).1 ≠ [] := by
  intro hnil
  have hmap : (shiftComments comma closing carry cs).1.map (fun _ => ()) = cs.map fun _ => () :=
    map_shiftComments (fun _ _ _ => rfl) carry cs
  rw [hnil] at hmap
  exact h (List.map_eq_nil_iff.1 hmap.symm)

/-- **Moving line comments behind commas makes the slots legible.** -/
theorem legible_shiftComments (carry : Text) {cs : List (Child κ ν)} (hcs : cs ≠ [])
    (hcarry : ∀ m ∈ cs.head?, Gap (carry ++ m.lead))
    (h : looseBehind several comma closing cs) :
    (∀ m ∈ (shiftComments comma closing carry cs).1, Gap m.lead) ∧
      trailsLegible several comma (shiftComments comma closing carry cs).2
        ((shiftComments comma closing carry cs).1.map Child.trail) := by
  match cs with
  | [] => exact absurd rfl hcs
  | [c] =>
    have hlead : Gap (carry ++ c.lead) := hcarry c rfl
    cases comma with
    | true =>
      rw [shiftComments_of_comma (by rfl)]
      refine ⟨List.forall_mem_cons.2 ⟨hlead, by simp [shiftComments]⟩, ?_⟩
      rcases h with ⟨htrail, hclosing⟩ | hswallows
      · exact Or.inl ⟨gap_trail_relieved htrail, hclosing⟩
      · refine Or.inr ?_
        simpa [relieved, carried, shiftComments, hswallows.endsInLineComment_eq_false] using hswallows
    | false =>
      rw [shiftComments]
      exact ⟨by simpa [shiftComments] using hlead, h⟩
  | c :: d :: cs =>
    obtain ⟨⟨htrail, hjoin⟩, hrest⟩ : Joins c.trail d.lead ∧ _ := h
    have hcarry' : ∀ m ∈ (d :: cs).head?, Gap (carried c.trail ++ m.lead) := by simpa using hjoin
    -- the comment behind the child is carried over to the child behind its comma
    obtain ⟨hleads, htrails⟩ := legible_shiftComments (carried c.trail) (by simp) hcarry' hrest
    rw [shiftComments_of_comma (by simp)]
    refine ⟨List.forall_mem_cons.2 ⟨hcarry c rfl, hleads⟩, ?_⟩
    rw [List.map_cons, trailsLegible_cons]
    · exact ⟨gap_trail_relieved htrail, htrails⟩
    · rw [ne_eq, List.map_eq_nil_iff]
      exact shiftComments_ne_nil (by simp)

/-- Moving comments glues no newline to the closing slot if there is none behind a child. -/
theorem newline_not_mem_shiftComments {carry : Text} {cs : List (Child κ ν)}
    (hcarry : '\n' ∉ carry) (hclosing : '\n' ∉ closing) (h : ∀ m ∈ cs, '\n' ∉ m.trail) :
    '\n' ∉ (shiftComments comma closing carry cs).2 := by
  induction cs generalizing carry with
  | nil => simpa [shiftComments] using ⟨hcarry, hclosing⟩
  | cons c cs ih =>
    obtain ⟨hc, hcs⟩ := List.forall_mem_cons.1 h
    rw [shiftComments]
    dsimp only
    split
    · exact ih hc hcs
    · exact ih (by simp) hcs

/-- **Loose slots are made legible** by moving line comments behind commas. -/
theorem Loose.legibleOn [Label κ] {c : Composite κ ν} (h : c.Loose several comma) (dirty : Bool) :
    (⟨(shiftComments comma c.closing [] c.children).1,
      (shiftComments comma c.closing [] c.children).2, comma, dirty⟩ :
        Composite κ ν).LegibleOn several := by
  obtain ⟨hlabels, hfirst, hbehind⟩ := h
  obtain ⟨cs, closing, trailingComma, dirty'⟩ := c
  dsimp only at *
  by_cases hcs : cs = []
  · subst hcs
    exact ⟨by simp [shiftComments], hbehind⟩
  · obtain ⟨hleads, htrails⟩ := legible_shiftComments [] hcs hfirst hbehind
    refine ⟨fun m hm => ⟨hleads m hm, ?_⟩, htrails⟩
    have hmap : (shiftComments comma closing [] cs).1.map Child.label = cs.map Child.label :=
      map_shiftComments (fun _ _ _ => rfl) [] cs
    have hlabel : m.label ∈ cs.map Child.label := hmap ▸ List.mem_map_of_mem hm
    obtain ⟨k, hk, heq⟩ := List.mem_map.1 hlabel
    rw [← heq]
    exact hlabels k hk

end Composite

/-- A closing slot on one line is a gap of its own. -/
theorem gap_closing_of_trailsLegible {ts : List Text}
    (h : trailsLegible false comma closing ts) (hclosing : '\n' ∉ closing) : Gap closing := by
  have hhead : closing.head? ≠ some '\n' := fun hhead => hclosing (List.mem_of_head? hhead)
  match ts with
  | [] =>
    have hnil : Closes false [] closing := h
    exact hnil.gap
  | [t] =>
    cases comma with
    | true =>
      rcases h with ⟨-, hnil⟩ | hswallows
      · exact hnil.gap
      · exact absurd hswallows.2.1 hhead
    | false =>
      have hlast : Closes false t closing := h
      rcases hlast with ⟨hgap, hwhole | hmem⟩ | hlast
      · rcases (whole_iff_scan t).1 hwhole with ht | ht
        · exact hgap.of_append ((gap_iff_scan t).2 ht)
        · exact absurd (mem_newline_of_gap_append ht hgap) hclosing
      · exact absurd hmem hhead
      · simp at hlast
  | t :: u :: us =>
    have hrest : Gap t ∧ trailsLegible false comma closing (u :: us) := h
    exact gap_closing_of_trailsLegible hrest.2 hclosing

end Loose

/-! ### One composite -/

namespace Composite

variable {κ : Type}

/-- Tidying keeps the slots of a label gaps. -/
theorem frontLegible_tidy {ν : Type} [Label κ] [Named κ] {c : Child κ ν} (h : c.FrontLegible) :
    (tidy c).FrontLegible := by
  have hspace : Gap [' '] := .blank rfl .nil
  rw [tidy]
  split
  · refine ⟨h.1, fun t ht => ?_⟩
    obtain ⟨u, hu, rfl | rfl⟩ := Named.mem_slots_mapSlots _ _ c.label t ht
    · exact gap_getD_inline (h.2 u hu) .nil hspace hspace
    · exact gap_getD_inline (h.2 u hu) hspace hspace hspace
  · exact h

/-- The text between the children of a composite on one line is a gap. -/
theorem gap_separator {ν : Type} {cs : List (Child κ ν)} (h : ∀ m ∈ cs, Gap m.lead) :
    Gap (separator cs) := by
  rw [separator]
  split
  · rename_i c hc
    exact h c (List.mem_of_mem_tail (List.mem_of_find?_eq_some hc))
  · exact .blank rfl .nil

theorem frontLegible_placeFirst {ν : Type} [Label κ] {pad : Text} (hpad : Gap pad) {c : Child κ ν}
    (h : c.FrontLegible) : (placeFirst pad c).FrontLegible := by
  rw [placeFirst]
  split
  · exact ⟨hpad, h.2⟩
  · split
    · exact ⟨gap_getD_inline h.1 .nil .nil (.blank rfl .nil), h.2⟩
    · exact h

theorem frontLegible_placeNext {ν : Type} [Label κ] {between : Text} (hbetween : Gap between)
    {c : Child κ ν} (h : c.FrontLegible) : (placeNext between c).FrontLegible := by
  rw [placeNext]
  split
  · exact ⟨gap_getD_inline h.1 hbetween (.blank rfl .nil) (.blank rfl .nil), h.2⟩
  · exact h

/-- The children of a composite on one line are legible in front, and at rest. -/
theorem frontLegible_placeInline {ν : Type} [Label κ] {pad : Text} (hpad : Gap pad)
    {cs : List (Child κ ν)} (h : ∀ m ∈ cs, m.FrontLegible) :
    ∀ m ∈ placeInline pad cs, m.FrontLegible ∧ m.fresh = false := by
  cases cs with
  | nil => simp [placeInline]
  | cons c cs =>
    have hbetween : Gap (separator (c :: cs)) := gap_separator fun m hm => (h m hm).1
    obtain ⟨hc, hcs⟩ := List.forall_mem_cons.1 h
    refine List.forall_mem_cons.2 ⟨⟨frontLegible_placeFirst hpad hc, ?_⟩, fun m hm => ?_⟩
    · rw [placeFirst]
      split
      · rfl
      · split <;> rfl
    · obtain ⟨k, hk, rfl⟩ := List.mem_map.1 hm
      refine ⟨frontLegible_placeNext hbetween (hcs k hk), ?_⟩
      rw [placeNext]
      split <;> rfl

theorem trail_placeFirst {ν : Type} (pad : Text) (c : Child κ ν) :
    (placeFirst pad c).trail = c.trail := by
  rw [placeFirst]
  split
  · rfl
  · split <;> rfl

theorem trail_placeNext {ν : Type} (between : Text) (c : Child κ ν) :
    (placeNext between c).trail = c.trail := by
  rw [placeNext]
  split <;> rfl

theorem map_trail_placeInline {ν : Type} (pad : Text) (cs : List (Child κ ν)) :
    (placeInline pad cs).map Child.trail = cs.map Child.trail := by
  cases cs with
  | nil => rfl
  | cons c cs => simp [placeInline, trail_placeFirst, trail_placeNext, Function.comp_def]

theorem lead_tidy {ν : Type} [Label κ] (c : Child κ ν) : (tidy c).lead = c.lead := by
  rw [tidy]
  split <;> rfl

theorem trail_tidy {ν : Type} [Label κ] (c : Child κ ν) : (tidy c).trail = c.trail := by
  rw [tidy]
  split <;> rfl

theorem map_trail_tidy {ν : Type} [Label κ] (cs : List (Child κ ν)) :
    (cs.map tidy).map Child.trail = cs.map Child.trail := by
  simp [trail_tidy, Function.comp_def]

/-- **A settled composite** is legible and at rest, or dirty and legible but for the newline
in front of its closing bracket. -/
def Settled {ν : Type} [Label κ] (c : Composite κ ν) : Prop :=
  if c.dirty = true then c.LegibleOn true else c.Legible ∧ c.AtRest

/-- There is nothing between the brackets that layout keeps: no child, and a newline without
a comment. A removal may leave the end of a block comment there. -/
def Emptied {ν : Type} (c : Composite κ ν) : Prop :=
  c.children = [] ∧ c.closing.breaksLine = true ∧ hasComment c.closing = false

/-- What a composite has to be for layout to make it legible, its children being settled
already: loose or emptied if an edit changed it, and otherwise legible and at rest. -/
def Editable [Label κ] (standard : Bool) (c : Composite κ Node) : Prop :=
  if c.dirty = true then c.Loose c.isMultiline (c.settledComma standard) ∨ c.Emptied
  else c.Legible ∧ c.AtRest

theorem legibleOn_tidy {ν : Type} [Label κ] [Named κ] {several comma : Bool} {closing : Text}
    {cs : List (Child κ ν)} {dirty : Bool}
    (h : (⟨cs, closing, comma, dirty⟩ : Composite κ ν).LegibleOn several) :
    (⟨cs.map tidy, closing, comma, dirty⟩ : Composite κ ν).LegibleOn several := by
  refine ⟨fun m hm => ?_, ?_⟩
  · obtain ⟨k, hk, rfl⟩ := List.mem_map.1 hm
    exact frontLegible_tidy (h.1 k hk)
  · dsimp only
    rw [map_trail_tidy]
    exact h.2

/-- On one line, no newline is behind a child. -/
theorem newline_not_mem_of_isMultiline {c : Composite κ Node} (h : c.isMultiline = false)
    (hc : c.children ≠ []) : '\n' ∉ c.closing ∧ ∀ m ∈ c.children, '\n' ∉ m.trail := by
  have hempty : c.children.isEmpty = false := by simpa using hc
  rw [isMultiline, hempty, Bool.not_false, Bool.true_or, Bool.true_and, Bool.or_eq_false_iff,
    List.any_eq_false] at h
  refine ⟨by simpa [Text.breaksLine] using h.1, fun m hm hmem => h.2 m hm ?_⟩
  have htrail : m.trail.breaksLine = true := by simpa [Text.breaksLine] using hmem
  simp [htrail]

/-- A closing slot that is kept on the line. -/
def inlineClosing (closing : Text) : Text :=
  if closing.breaksLine then (inline closing [] [' '] []).getD closing else closing

/-- **Legible children on one line** stay legible, and are at rest. -/
theorem settled_placeInline {ν : Type} [Label κ] {comma dirty : Bool} {closing pad : Text}
    {cs : List (Child κ ν)} (h : (⟨cs, closing, comma, dirty⟩ : Composite κ ν).LegibleOn false)
    (hclosing : cs ≠ [] → '\n' ∉ closing)
    (hpad : pad = if hasComment (inlineClosing closing) then [] else inlineClosing closing) :
    (⟨placeInline pad cs, inlineClosing closing, comma, false⟩ : Composite κ ν).Settled := by
  obtain ⟨hfront, htrails⟩ := h
  dsimp only at hfront htrails
  -- the slot in front of the bracket is no part of the last child's, being on one line
  have hgap : Gap closing := by
    by_cases hcs : cs = []
    · subst hcs
      have hnil : Closes false [] closing := htrails
      exact hnil.gap
    · exact gap_closing_of_trailsLegible htrails (hclosing hcs)
  have hgap' : Gap (inlineClosing closing) := by
    rw [inlineClosing]
    split
    · exact gap_getD_inline hgap .nil (.blank rfl .nil) .nil
    · exact hgap
  have hpadGap : Gap pad := by
    rw [hpad]
    split
    · exact .nil
    · exact hgap'
  have hplaced := frontLegible_placeInline hpadGap hfront
  refine ⟨⟨fun m hm => (hplaced m hm).1, ?_⟩, rfl, fun m hm => (hplaced m hm).2⟩
  dsimp only
  rw [map_trail_placeInline]
  by_cases hcs : cs = []
  · subst hcs
    exact closes_of_gap .nil hgap'
  · have hsame : inlineClosing closing = closing := by
      rw [inlineClosing, if_neg]
      simpa [Text.breaksLine] using hclosing hcs
    rw [hsame]
    exact htrails

/-- **Settling makes a loose composite legible**, but for the newline in front of its closing
bracket if it goes on several lines. -/
theorem settled_settle [Label κ] [Named κ] {standard : Bool} {c : Composite κ Node}
    (h : c.Loose c.isMultiline (c.settledComma standard)) : (c.settle standard).Settled := by
  have hlegible := legibleOn_tidy (h.legibleOn true)
  rw [settle]
  dsimp only
  split
  · rename_i hmulti
    rw [hmulti] at hlegible
    exact hlegible
  · rename_i hmulti
    rw [Bool.not_eq_true] at hmulti
    rw [hmulti] at hlegible
    generalize c.settledComma standard = comma at hlegible
    have hclosing : c.children ≠ [] → '\n' ∉ (shiftComments comma c.closing [] c.children).2 := by
      intro hc
      obtain ⟨hclosing, htrails⟩ := newline_not_mem_of_isMultiline hmulti hc
      exact newline_not_mem_shiftComments (by simp) hclosing htrails
    refine settled_placeInline hlegible (fun hcs => ?_) rfl
    refine hclosing fun hc => hcs ?_
    rw [hc]
    rfl

theorem settled_of_emptied [Label κ] {standard : Bool} {c : Composite κ Node} (h : c.Emptied) :
    (c.settle standard).Settled := by
  obtain ⟨cs, closing, comma, dirty⟩ := c
  obtain ⟨rfl, hclosing, hcomment⟩ :
    cs = [] ∧ closing.breaksLine = true ∧ hasComment closing = false := h
  have hline : isMultiline (⟨[], closing, comma, dirty⟩ : Composite κ Node) = false := by
    simp [isMultiline, hcomment]
  rw [settle]
  dsimp only
  rw [if_neg (by simp [hline]), Settled, if_neg (by simp)]
  simp only [shiftComments, List.nil_append, List.map_nil, hclosing, if_true,
    inline_of_hasComment_eq_false hcomment, Option.getD_some]
  exact ⟨⟨by simp [placeInline], closes_of_gap .nil .nil⟩, rfl, by simp [placeInline]⟩

end Composite

/-! ### Whole trees -/

namespace Node

/-- What a node has to be for layout to make it legible. -/
def EditableHere (standard : Bool) : Node → Prop
  | .object ms => (ms.map (settle standard)).Editable standard
  | .array es => (es.map (settle standard)).Editable standard
  | _ => True

/-- A settled node. -/
def SettledHere : Node → Prop
  | .object ms => ms.Settled
  | .array es => es.Settled
  | _ => True

theorem settled_of_editable {κ : Type} [Label κ] [Named κ] {standard : Bool}
    {c : Composite κ Node} (h : (c.map (settle standard)).Editable standard) :
    (if c.dirty then (c.map (settle standard)).settle standard
      else c.map (settle standard)).Settled := by
  rw [Composite.Editable, Composite.dirty_map] at h
  split
  · rename_i hdirty
    rw [if_pos hdirty] at h
    exact h.elim Composite.settled_settle Composite.settled_of_emptied
  · rename_i hdirty
    rw [if_neg hdirty] at h
    rw [Composite.Settled, Composite.dirty_map, if_neg hdirty]
    exact h

/-- The children of a settled composite are the settled children. -/
theorem exists_of_mem_settled {κ : Type} [Label κ] [Named κ] {standard : Bool}
    {c : Composite κ Node} {m : Child κ Node}
    (hm : m ∈ (if c.dirty then (c.map (settle standard)).settle standard
      else c.map (settle standard)).children) :
    ∃ k ∈ c.children, m.node = settle standard k.node := by
  have hview : (if c.dirty then (c.map (settle standard)).settle standard
      else c.map (settle standard)).view = (c.map (settle standard)).view := by
    split
    · exact Composite.view_settle standard _
    · rfl
  have hmem : m.view ∈ (c.map (settle standard)).view := hview ▸ List.mem_map_of_mem hm
  obtain ⟨j, hj, heq⟩ := List.mem_map.1 hmem
  obtain ⟨k, hk, rfl⟩ := List.mem_map.1 hj
  exact ⟨k, hk, (congrArg Prod.snd heq).symm⟩

/-- The nodes in a settled node are the settled nodes in it. -/
theorem exists_of_mem_inner_settle {standard : Bool} {n k : Node}
    (hk : k ∈ (settle standard n).inner) : ∃ k' ∈ n.inner, k = settle standard k' := by
  cases n with
  | object ms =>
    rw [settle_object] at hk
    obtain ⟨m, hm, rfl⟩ := List.mem_map.1 hk
    obtain ⟨m', hm', heq⟩ := exists_of_mem_settled hm
    exact ⟨m'.node, List.mem_map_of_mem hm', heq⟩
  | array es =>
    rw [settle_array] at hk
    obtain ⟨e, he, rfl⟩ := List.mem_map.1 hk
    obtain ⟨e', he', heq⟩ := exists_of_mem_settled he
    exact ⟨e'.node, List.mem_map_of_mem he', heq⟩
  | null | bool b | number t | string l => exact absurd hk List.not_mem_nil

/-- **What settling makes of one node, it makes of all nodes in a tree.** -/
theorem Everywhere.settle {P Q : Node → Prop} {standard : Bool}
    (hnode : ∀ n : Node, P n → Q (n.settle standard)) (n : Node) (h : Everywhere P n) :
    Everywhere Q (n.settle standard) := by
  induction h with
  | mk hhere _ ih =>
    refine .mk (hnode _ hhere) fun k hk => ?_
    obtain ⟨k', hk', rfl⟩ := exists_of_mem_inner_settle hk
    exact ih k' hk'

/-- **Settling settles a tree everywhere.** -/
theorem everywhere_settle (standard : Bool) : ∀ n : Node, Everywhere (EditableHere standard) n →
    Everywhere SettledHere (settle standard n) := by
  refine Everywhere.settle fun n h => ?_
  cases n with
  | object ms =>
    rw [settle_object]
    exact settled_of_editable h
  | array es =>
    rw [settle_array]
    exact settled_of_editable h
  | null | bool b | number t | string l => exact trivial

end Node

end EnvManifest
