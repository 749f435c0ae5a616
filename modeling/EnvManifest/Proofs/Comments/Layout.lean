import EnvManifest.Proofs.Comments.Slot
import EnvManifest.Proofs.Layout.Indent

/-!
# Layout keeps comments

A tree keeps its comments in its slots, and `Node.gather` goes through the slots in document
order. Layout moves comments from slot to slot and writes slots anew, but what is gathered stays
the same, in the same order (`Node.remarks_settle`, `Node.remarks_indent`).

For that a line comment at the end of a slot must be followed by a newline once everything is
laid out. A slot behind a child may end in one, if what comes next begins a line
(`lineCommentsEnd`). In front of a comma the comment is then moved behind the comma, which
happens in edited composites only: `shifts` says whether it does. Settling leaves no such
comment in front of a comma (`Composite.Ended`), and so does indenting.
-/

namespace EnvManifest

open Text

/-! ### Going through the slots -/

section Gather

variable {κ ν : Type} [Label κ]

/-- What `f` finds in the slots of a child and `g` in its node, in order. -/
def Child.gather (f : Text → List Text) (g : ν → List Text) (c : Child κ ν) : List Text :=
  f c.lead ++ ((Label.slots c.label).flatMap f ++ (g c.node ++ f c.trail))

/-- What `f` finds in the slots between two brackets and `g` in the children, in order. -/
def Composite.gather (f : Text → List Text) (g : ν → List Text) (c : Composite κ ν) : List Text :=
  c.children.flatMap (Child.gather f g) ++ f c.closing

theorem Composite.gather_map {μ : Type} (f : Text → List Text) (g : ν → List Text) (h : μ → ν)
    (c : Composite κ μ) : (c.map h).gather f g = c.gather f fun n => g (h n) := by
  rw [gather, gather, children_map, List.flatMap_map]
  rfl

theorem Composite.gather_congr {f : Text → List Text} {g h : ν → List Text} {c : Composite κ ν}
    (hgh : ∀ m ∈ c.children, g m.node = h m.node) : c.gather f g = c.gather f h := by
  rw [gather, gather, List.flatMap_congr fun m hm => by rw [Child.gather, hgh m hm, ← Child.gather]]

namespace Node

/-- Gathering, kind by kind. -/
def gathering (f : Text → List Text) : Algebra (List Text) where
  null := []
  bool _ := []
  number _ := []
  string _ := []
  object ms := ms.gather f id
  array es := es.gather f id

/-- What `f` finds in the slots of a tree, in document order. -/
def gather (f : Text → List Text) (n : Node) : List Text :=
  fold (gathering f) n

@[simp]
theorem gather_object (f : Text → List Text) (ms : Object) :
    gather f (.object ms) = ms.gather f (gather f) := by
  rw [gather, fold_object]
  exact Composite.gather_map f id (gather f) ms

@[simp]
theorem gather_array (f : Text → List Text) (es : Elements) :
    gather f (.array es) = es.gather f (gather f) := by
  rw [gather, fold_array]
  exact Composite.gather_map f id (gather f) es

end Node

/-- What `f` finds in the slots of a document, in order. -/
def Value.gather (f : Text → List Text) (v : Value) : List Text :=
  f v.lead ++ (v.node.gather f ++ f v.trail)

/-- The slots of a label are changed one by one, in their order. -/
class Label.InOrder (κ : Type) [Label κ] : Prop where
  forall₂_slots : ∀ (f g : Text → Text) (k : κ),
    List.Forall₂ (fun u t => t = f u ∨ t = g u) (Label.slots k) (Label.slots (Label.mapSlots f g k))

instance : Label.InOrder Key where
  forall₂_slots _ _ _ := .cons (Or.inl rfl) (.cons (Or.inr rfl) .nil)

instance : Label.InOrder Unit where
  forall₂_slots _ _ _ := .nil

theorem flatMap_slots_mapSlots [Label.InOrder κ] {h : Text → List Text} {f g : Text → Text} {k : κ}
    (hf : ∀ t ∈ Label.slots k, h (f t) = h t) (hg : ∀ t ∈ Label.slots k, h (g t) = h t) :
    (Label.slots (Label.mapSlots f g k)).flatMap h = (Label.slots k).flatMap h := by
  have hslots := Label.InOrder.forall₂_slots f g k
  generalize Label.slots k = us, Label.slots (Label.mapSlots f g k) = ts at hf hg hslots ⊢
  induction hslots with
  | nil => rfl
  | cons hu _ ih =>
    obtain ⟨hf, hfs⟩ := List.forall_mem_cons.1 hf
    obtain ⟨hg, hgs⟩ := List.forall_mem_cons.1 hg
    rw [List.flatMap_cons, List.flatMap_cons, ih hfs hgs]
    rcases hu with rfl | rfl
    · rw [hf]
    · rw [hg]

end Gather

/-! ### Line comments at the ends of slots -/

section Ended

variable {κ μ ν : Type}

/-- A slot ends in front of the one that is written behind it: it is a gap, or ends in a line
comment and the other one begins a line. -/
def EndsBefore (slot next : Text) : Prop :=
  Gap slot ∨ Whole slot ∧ StartsLine next

theorem EndsBefore.whole {slot next : Text} (h : EndsBefore slot next) : Whole slot :=
  h.elim Gap.whole And.left

theorem EndsBefore.remarks_append {slot next : Text} (h : EndsBefore slot next) :
    remarks (slot ++ next) = remarks slot ++ remarks next :=
  h.whole.remarks_append (h.imp_right And.right)

theorem EndsBefore.gap_append {slot next : Text} (h : EndsBefore slot next) (hnext : Gap next) :
    Gap (slot ++ next) := by
  rcases h with hgap | ⟨hwhole, blanks, rest, rfl, hblanks⟩
  · exact hgap.append hnext
  · rcases (whole_iff_scan slot).1 hwhole with hs | hs
    · exact ((gap_iff_scan slot).2 hs).append hnext
    · have hnone : '\n' ∉ blanks := fun hmem => (hblanks _ hmem).2 rfl
      have hspaces : Gap blanks := gap_of_all_isWhite fun c hc => (hblanks c hc).1
      have hrest : Gap ('\n' :: rest) := hnext.of_append hspaces
      rw [gap_iff_scan] at hrest
      rw [gap_iff_scan, scan_append_of_eq hs, scan_line_append hnone]
      exact hrest

/-- What is moved behind a comma ends in front of the next slot too. -/
theorem EndsBefore.carried {slot next : Text} (h : EndsBefore slot next) :
    EndsBefore (carried slot) next := by
  rw [EnvManifest.carried]
  split
  · exact h
  · exact Or.inl .nil

/-- The slot behind the comma that follows a child, or in front of the closing bracket. -/
def nextSlot (closing : Text) : List (Child κ ν) → Text
  | [] => closing
  | c :: _ => c.lead

/-- Every slot behind a child ends in front of the next one, and in front of a comma it does so by
itself, unless comments are moved behind commas. -/
def lineCommentsEnd (shifts comma : Bool) (closing : Text) : List (Child κ ν) → Prop
  | [] => True
  | c :: cs =>
    EndsBefore c.trail (nextSlot closing cs) ∧
      (comma = true ∨ cs ≠ [] → shifts = true ∨ Gap c.trail) ∧
        lineCommentsEnd shifts comma closing cs

/-- The slots of a composite hold blanks and complete comments, and what is behind a line comment
begins a line. -/
structure Composite.Ended [Label κ] (shifts : Bool) (c : Composite κ ν) : Prop where
  front : ∀ m ∈ c.children, m.FrontLegible
  closing : Gap c.closing
  behind : lineCommentsEnd shifts c.trailingComma c.closing c.children

variable {comma : Bool} {closing closing' : Text}

theorem lineCommentsEnd_map {shifts : Bool} {f : μ → ν} {cs : List (Child κ μ)} :
    lineCommentsEnd shifts comma closing (cs.map (Child.map f)) ↔
      lineCommentsEnd shifts comma closing cs := by
  have hnext : ∀ cs : List (Child κ μ), nextSlot closing (cs.map (Child.map f)) =
      nextSlot closing cs := by
    intro cs
    cases cs <;> rfl
  induction cs with
  | nil => exact Iff.rfl
  | cons c cs ih =>
    simp only [List.map_cons, lineCommentsEnd, Child.trail_map, hnext, ih, ne_eq,
      List.map_eq_nil_iff]

theorem Composite.ended_map [Label κ] {shifts : Bool} {f : μ → ν} {c : Composite κ μ} :
    (c.map f).Ended shifts ↔ c.Ended shifts := by
  constructor
  · rintro ⟨hfront, hclosing, hbehind⟩
    refine ⟨fun m hm => hfront (m.map f) (List.mem_map_of_mem hm), hclosing, ?_⟩
    exact lineCommentsEnd_map.1 hbehind
  · rintro ⟨hfront, hclosing, hbehind⟩
    refine ⟨fun m hm => ?_, hclosing, lineCommentsEnd_map.2 hbehind⟩
    obtain ⟨k, hk, rfl⟩ := List.mem_map.1 hm
    exact hfront k hk

/-- Without comments moved, only the slot in front of the closing bracket counts. -/
theorem lineCommentsEnd_congr {cs cs' : List (Child κ ν)}
    (h : lineCommentsEnd false comma closing cs)
    (htrails : cs'.map Child.trail = cs.map Child.trail)
    (hclosing : StartsLine closing → StartsLine closing') :
    lineCommentsEnd false comma closing' cs' := by
  induction cs generalizing cs' with
  | nil =>
    obtain rfl := List.map_eq_nil_iff.1 htrails
    trivial
  | cons c cs ih =>
    obtain ⟨c', cs', rfl, hc, hcs⟩ := List.map_eq_cons_iff.1 htrails
    obtain ⟨hends, hcomma, hrest⟩ := h
    have hgap : comma = true ∨ cs ≠ [] → Gap c.trail := fun hc => by simpa using hcomma hc
    refine ⟨?_, fun hcomma' => Or.inr ?_, ih hrest hcs⟩
    · rw [hc]
      by_cases hnil : cs = []
      · subst hnil
        obtain rfl := List.map_eq_nil_iff.1 hcs
        exact hends.imp_right fun hline => ⟨hline.1, hclosing hline.2⟩
      · exact Or.inl (hgap (Or.inr hnil))
    · rw [hc]
      refine hgap (hcomma'.imp_right fun hne hnil => hne ?_)
      rw [hnil] at hcs
      exact List.map_eq_nil_iff.1 hcs

/-- **What has no comment to be moved is legible.** -/
theorem Composite.Ended.legible [Label κ] {c : Composite κ ν} (h : c.Ended false) : c.Legible := by
  obtain ⟨hfront, hclosing, hbehind⟩ := h
  refine ⟨hfront, ?_⟩
  obtain ⟨cs, closing, comma, dirty⟩ := c
  dsimp only at hclosing hbehind ⊢
  clear hfront
  induction cs with
  | nil => exact closes_of_gap .nil hclosing
  | cons c cs ih =>
    obtain ⟨hends, hcomma, hrest⟩ := hbehind
    have hgap : comma = true ∨ cs ≠ [] → Gap c.trail := fun hc => by simpa using hcomma hc
    cases cs with
    | nil =>
      cases comma with
      | true => exact Or.inl ⟨hgap (Or.inl rfl), closes_of_gap .nil hclosing⟩
      | false => exact Or.inl ⟨hends.gap_append hclosing, Or.inl hends.whole⟩
    | cons d cs => exact ⟨hgap (Or.inr (by simp)), ih hrest⟩

end Ended

/-! ### Settling one composite -/

namespace Composite

section Shift

variable {κ ν : Type} {comma : Bool} {closing carry : Text} {g : ν → List Text}

/-- **Moving comments behind commas leaves none in front of one** that would swallow it. -/
theorem ended_shiftComments {cs : List (Child κ ν)} (hcarry : Gap (carry ++ nextSlot closing cs))
    (hleads : ∀ m ∈ cs, Gap m.lead) (hclosing : Gap closing)
    (h : lineCommentsEnd true comma closing cs) :
    (∀ m ∈ (shiftComments comma closing carry cs).1, Gap m.lead) ∧
      Gap (shiftComments comma closing carry cs).2 ∧
      lineCommentsEnd false comma (shiftComments comma closing carry cs).2
        (shiftComments comma closing carry cs).1 := by
  induction cs generalizing carry with
  | nil => exact ⟨by simp [shiftComments], hcarry, trivial⟩
  | cons c cs ih =>
    obtain ⟨-, hleads⟩ := List.forall_mem_cons.1 hleads
    obtain ⟨hends, -, hrest⟩ := h
    by_cases hcomma : (comma || !cs.isEmpty) = true
    · have hnext : Gap (nextSlot closing cs) := by
        cases cs with
        | nil => exact hclosing
        | cons d cs => exact hleads d List.mem_cons_self
      obtain ⟨hlead, hgap, hbehind⟩ := ih (hends.carried.gap_append hnext) hleads hrest
      have htrail : Gap (relieved carry c).trail := gap_trail_relieved hends.whole
      rw [shiftComments_of_comma hcomma]
      exact ⟨List.forall_mem_cons.2 ⟨hcarry, hlead⟩, hgap, Or.inl htrail, fun _ => Or.inr htrail,
        hbehind⟩
    · obtain ⟨rfl, rfl⟩ : comma = false ∧ cs = [] := by simpa using hcomma
      rw [shiftComments]
      exact ⟨List.forall_mem_singleton.2 hcarry, hclosing, hends, by simp [shiftComments], trivial⟩

/-- **Moving comments behind commas keeps them in order.** -/
theorem remarks_shiftComments [Label κ] {cs : List (Child κ ν)}
    (hcarry : remarks (carry ++ nextSlot closing cs) =
      remarks carry ++ remarks (nextSlot closing cs))
    (h : lineCommentsEnd true comma closing cs) :
    (shiftComments comma closing carry cs).1.flatMap (Child.gather remarks g) ++
        remarks (shiftComments comma closing carry cs).2 =
      remarks carry ++ (cs.flatMap (Child.gather remarks g) ++ remarks closing) := by
  induction cs generalizing carry with
  | nil => exact hcarry
  | cons c cs ih =>
    obtain ⟨hends, -, hrest⟩ := h
    by_cases hcomma : (comma || !cs.isEmpty) = true
    · -- the comment behind the child is counted with the slot that it is carried to
      have hchild : Child.gather remarks g (relieved carry c) ++ remarks (carried c.trail) =
          remarks carry ++ Child.gather remarks g c := by
        have htrail : remarks (relieved carry c).trail ++ remarks (carried c.trail) =
            remarks c.trail := by
          rw [relieved, carried]
          cases endsInLineComment c.trail <;> simp
        have hlead : remarks (relieved carry c).lead = remarks carry ++ remarks c.lead := hcarry
        simp only [Child.gather, hlead, List.append_assoc, htrail]
        rfl
      rw [shiftComments_of_comma hcomma, List.flatMap_cons, List.flatMap_cons, List.append_assoc,
        ih hends.carried.remarks_append hrest, ← List.append_assoc, hchild]
      simp only [List.append_assoc]
    · obtain ⟨rfl, rfl⟩ : comma = false ∧ cs = [] := by simpa using hcomma
      have hlead : remarks (carry ++ c.lead) = remarks carry ++ remarks c.lead := hcarry
      simp [shiftComments, Child.gather, hlead]

end Shift

section Settle

variable {κ ν : Type} [Label κ] {g : ν → List Text}

/-- Tidying keeps comments. -/
theorem gather_tidy [Label.InOrder κ] {c : Child κ ν} (h : c.FrontLegible) :
    (tidy c).gather remarks g = c.gather remarks g := by
  have hspace : Spaces [' '] := spaces_of_blanks (by simp)
  rw [tidy]
  split
  · have hlabel := flatMap_slots_mapSlots (h := remarks) (k := c.label)
      (f := fun slot => (inline slot [] [' '] [' ']).getD slot)
      (g := fun slot => (inline slot [' '] [' '] [' ']).getD slot)
      (fun t ht => remarks_getD_inline (h.2 t ht) remarks_nil hspace hspace)
      (fun t ht => remarks_getD_inline (h.2 t ht) hspace.remarks_eq_nil hspace hspace)
    simp only [Child.gather]
    rw [hlabel]
  · rfl

omit [Label κ] in
/-- The text between the children of a composite on one line has no comments. -/
theorem remarks_separator {cs : List (Child κ ν)} (h : ∀ m ∈ cs, Gap m.lead) :
    remarks (separator cs) = [] := by
  rw [separator]
  split
  · rename_i c hc
    have hlead : hasComment c.lead = false := by
      have hfound := List.find?_some hc
      rw [Bool.and_eq_true, Bool.not_eq_true', Bool.not_eq_true'] at hfound
      exact hfound.2
    have hgap := h c (List.mem_of_mem_tail (List.mem_of_find?_eq_some hc))
    exact remarks_eq_nil_of_hasComment hgap.whole hlead
  · exact (spaces_of_blanks (by simp)).remarks_eq_nil

theorem gather_placeFirst {pad : Text} (hpad : remarks pad = []) {c : Child κ ν}
    (h : Gap c.lead) : (placeFirst pad c).gather remarks g = c.gather remarks g := by
  have hspace : Spaces [' '] := spaces_of_blanks (by simp)
  have hnone : Spaces [] := spaces_of_blanks (by simp)
  rw [placeFirst]
  split
  · rename_i hcomment
    have hlead := remarks_eq_nil_of_hasComment h.whole (by simpa using hcomment)
    simp only [Child.gather, hpad, hlead]
  · split
    · simp only [Child.gather, remarks_getD_inline h remarks_nil hnone hspace]
    · rfl

theorem gather_placeNext {between : Text} (hbetween : remarks between = [])
    {c : Child κ ν} (h : Gap c.lead) :
    (placeNext between c).gather remarks g = c.gather remarks g := by
  have hspace : Spaces [' '] := spaces_of_blanks (by simp)
  rw [placeNext]
  split
  · simp only [Child.gather, remarks_getD_inline h hbetween hspace hspace]
  · rfl

theorem flatMap_gather_congr {f : Child κ ν → Child κ ν}
    {cs : List (Child κ ν)} (h : ∀ c ∈ cs, (f c).gather remarks g = c.gather remarks g) :
    (cs.map f).flatMap (Child.gather remarks g) = cs.flatMap (Child.gather remarks g) := by
  rw [List.flatMap_map]
  exact List.flatMap_congr h

/-- Placing children on one line keeps their comments. -/
theorem gather_placeInline {pad : Text} (hpad : remarks pad = []) {cs : List (Child κ ν)}
    (h : ∀ m ∈ cs, Gap m.lead) : (placeInline pad cs).flatMap (Child.gather remarks g) =
      cs.flatMap (Child.gather remarks g) := by
  cases cs with
  | nil => rfl
  | cons c cs =>
    obtain ⟨hc, hcs⟩ := List.forall_mem_cons.1 h
    have hbetween : remarks (separator (c :: cs)) = [] := remarks_separator h
    rw [placeInline, List.flatMap_cons, List.flatMap_cons, gather_placeFirst hpad hc,
      flatMap_gather_congr fun m hm => gather_placeNext hbetween (hcs m hm)]

/-- A closing slot that is kept on the line keeps its comments. -/
theorem remarks_inlineClosing {closing : Text} (h : Gap closing) :
    remarks (inlineClosing closing) = remarks closing := by
  rw [inlineClosing]
  split
  · have hleft : Spaces [' '] := spaces_of_blanks (by simp)
    have hright : Spaces [] := spaces_of_blanks (by simp)
    exact remarks_getD_inline h remarks_nil hleft hright
  · rfl

end Settle

end Composite

/-! ### Rewriting composites -/

namespace Composite

/-- A composite with its slots written anew: there is no comment to be moved in it, and it has the
comments of the other one in the same order. -/
structure Rewrites {κ ν : Type} [Label κ] (c c' : Composite κ ν) : Prop where
  ended : c'.Ended false
  remarks : ∀ g : ν → List Text, c'.gather Text.remarks g = c.gather Text.remarks g

variable {κ ν : Type} [Label κ] {comma dirty : Bool}

theorem Rewrites.trans {c c' c'' : Composite κ ν} (h : c.Rewrites c') (h' : c'.Rewrites c'') :
    c.Rewrites c'' :=
  ⟨h'.ended, fun g => (h'.remarks g).trans (h.remarks g)⟩

omit [Label κ] in
/-- Whatever comma is decided on, comments can be moved behind it. -/
theorem lineCommentsEnd_shifts {comma' : Bool} {closing : Text} {cs : List (Child κ ν)}
    (h : lineCommentsEnd true comma closing cs) : lineCommentsEnd true comma' closing cs := by
  induction cs with
  | nil => trivial
  | cons c cs ih => exact ⟨h.1, fun _ => Or.inl rfl, ih h.2.2⟩

/-- Comments are moved behind commas. -/
theorem Ended.rewrites_shifted {c : Composite κ ν} (h : c.Ended true) (comma dirty : Bool) :
    c.Rewrites ⟨(shiftComments comma c.closing [] c.children).1,
      (shiftComments comma c.closing [] c.children).2, comma, dirty⟩ := by
  have hleads : ∀ m ∈ c.children, Gap m.lead := fun m hm => (h.front m hm).1
  have hbehind : lineCommentsEnd true comma c.closing c.children := lineCommentsEnd_shifts h.behind
  have hnext : Gap ([] ++ nextSlot c.closing c.children) := by
    rw [List.nil_append]
    match hcs : c.children with
    | [] => exact h.closing
    | d :: cs => exact hleads d (by simp [hcs])
  obtain ⟨hlead, hclosing, hends⟩ := ended_shiftComments hnext hleads h.closing hbehind
  refine ⟨⟨fun m hm => ⟨hlead m hm, ?_⟩, hclosing, hends⟩, fun g => ?_⟩
  · have hmap : (shiftComments comma c.closing [] c.children).1.map Child.label =
        c.children.map Child.label := map_shiftComments (fun _ _ _ => rfl) [] c.children
    obtain ⟨j, hj, heq⟩ := List.mem_map.1 (hmap ▸ List.mem_map_of_mem hm)
    rw [← heq]
    exact (h.front j hj).2
  · have hcarry : remarks ([] ++ nextSlot c.closing c.children) =
        remarks [] ++ remarks (nextSlot c.closing c.children) := by simp
    have hshift := remarks_shiftComments (g := g) hcarry hbehind
    rw [remarks_nil, List.nil_append] at hshift
    exact hshift

/-- Fresh children are tidied. -/
theorem Ended.rewrites_tidied [Named κ] [Label.InOrder κ] {closing : Text} {cs : List (Child κ ν)}
    (h : (⟨cs, closing, comma, dirty⟩ : Composite κ ν).Ended false) :
    (⟨cs, closing, comma, dirty⟩ : Composite κ ν).Rewrites
      ⟨cs.map tidy, closing, comma, dirty⟩ := by
  refine ⟨⟨fun m hm => ?_, h.closing, lineCommentsEnd_congr h.behind (map_trail_tidy cs) id⟩,
    fun g => ?_⟩
  · obtain ⟨k, hk, rfl⟩ := List.mem_map.1 hm
    exact frontLegible_tidy (h.front k hk)
  · simp only [gather]
    rw [flatMap_gather_congr fun m hm => gather_tidy (h.front m hm)]

/-- Children are put on one line. -/
theorem Ended.rewrites_placeInline {closing pad : Text} {cs : List (Child κ ν)}
    (h : (⟨cs, closing, comma, dirty⟩ : Composite κ ν).Ended false)
    (hline : cs ≠ [] → '\n' ∉ closing)
    (hpad : pad = if hasComment (inlineClosing closing) then [] else inlineClosing closing) :
    (⟨cs, closing, comma, dirty⟩ : Composite κ ν).Rewrites
      ⟨placeInline pad cs, inlineClosing closing, comma, false⟩ := by
  obtain ⟨hfront, hclosing, hbehind⟩ := h
  dsimp only at hfront hclosing hbehind
  have hgap : Gap (inlineClosing closing) := by
    rw [inlineClosing]
    split
    · exact gap_getD_inline hclosing .nil (.blank rfl .nil) .nil
    · exact hclosing
  obtain ⟨hpadGap, hpadNone⟩ : Gap pad ∧ Text.remarks pad = [] := by
    rw [hpad]
    split
    · exact ⟨.nil, remarks_nil⟩
    · rename_i hcomment
      exact ⟨hgap, remarks_eq_nil_of_hasComment hgap.whole (by simpa using hcomment)⟩
  refine ⟨⟨fun m hm => (frontLegible_placeInline hpadGap hfront m hm).1, hgap, ?_⟩, fun g => ?_⟩
  · refine lineCommentsEnd_congr ?_ (map_trail_placeInline pad cs) id
    cases cs with
    | nil => trivial
    | cons c cs =>
      refine lineCommentsEnd_congr hbehind rfl fun hstarts => ?_
      obtain ⟨blanks, rest, heq, -⟩ := hstarts
      exact absurd (by simp [heq]) (hline (by simp))
  · simp only [gather]
    rw [gather_placeInline hpadNone fun m hm => (hfront m hm).1, remarks_inlineClosing hclosing]

/-- **Settling rewrites a composite.** -/
theorem Ended.rewrites_settle [Named κ] [Label.InOrder κ] {c : Composite κ Node} (h : c.Ended true)
    (standard : Bool) : c.Rewrites (c.settle standard) := by
  have hshifted := h.rewrites_shifted (c.settledComma standard) true
  have htidied := hshifted.trans hshifted.ended.rewrites_tidied
  rw [settle]
  dsimp only
  split
  · exact htidied
  · rename_i hmulti
    rw [Bool.not_eq_true] at hmulti
    refine htidied.trans (htidied.ended.rewrites_placeInline (fun hcs => ?_) rfl)
    have hne : c.children ≠ [] := by
      intro hnil
      rw [hnil] at hcs
      exact hcs rfl
    obtain ⟨hclosing, htrails⟩ := newline_not_mem_of_isMultiline hmulti hne
    exact newline_not_mem_shiftComments (by simp) hclosing htrails

/-! ### Indenting -/

theorem gather_onLine {indent : Text} (hindent : Spaces indent) (first : Bool) {c : Child κ ν}
    {g : ν → List Text} (h : Gap c.lead) :
    (onLine indent first c).gather Text.remarks g = c.gather Text.remarks g := by
  rw [onLine]
  split
  · simp only [Child.gather, remarks_ownLine hindent h]
  · rfl

/-- **Putting children and bracket on lines of their own rewrites a composite.** -/
theorem Ended.rewrites_breakLines {c : Composite κ ν} (h : c.Ended false) {line step : Text}
    (hline : Spaces line) (hstep : Spaces step) : c.Rewrites (c.breakLines line step) := by
  have hindent := spaces_childIndent hline hstep c.children
  have htrails := map_trail_breakLines line step c
  have hfront := frontLegible_breakLines hline hstep h.front
  obtain ⟨cs, closing, comma, dirty⟩ := c
  obtain ⟨hleads, hclosing, hbehind⟩ := h
  dsimp only at hleads hclosing hbehind hindent
  -- the slot in front of the bracket is written anew if it does not break the line
  have hwritten : Gap (breakLines line step ⟨cs, closing, comma, dirty⟩).closing ∧
      Text.remarks (breakLines line step ⟨cs, closing, comma, dirty⟩).closing =
        Text.remarks closing ∧
      (StartsLine closing →
        StartsLine (breakLines line step ⟨cs, closing, comma, dirty⟩).closing) := by
    rw [breakLines]
    dsimp only
    split
    · exact ⟨hclosing, rfl, id⟩
    · rename_i hbreaks
      refine ⟨gap_closingLine hindent hline hclosing.whole,
        remarks_closingLine hindent hline hclosing.whole, fun hstarts => ?_⟩
      obtain ⟨blanks, rest, heq, -⟩ := hstarts
      exact absurd (by simp [heq, Text.breaksLine]) hbreaks
  refine ⟨⟨hfront, hwritten.1, lineCommentsEnd_congr hbehind htrails hwritten.2.2⟩, fun g => ?_⟩
  rw [gather, gather, hwritten.2.1]
  congr 1
  cases cs with
  | nil => rfl
  | cons c cs =>
    obtain ⟨hc, hcs⟩ := List.forall_mem_cons.1 hleads
    simp only [breakLines, List.flatMap_cons]
    rw [gather_onLine hindent true hc.1,
      flatMap_gather_congr fun m hm => gather_onLine hindent false (hcs m hm).1]

theorem Ended.rewrites_broken {c : Composite κ ν} (h : c.Ended false) {line step : Text}
    (hline : Spaces line) (hstep : Spaces step) : c.Rewrites (c.broken line step) := by
  rw [broken]
  split
  · exact h.rewrites_breakLines hline hstep
  · exact ⟨h, fun _ => rfl⟩

/-- The children of an indented composite have the slots that they had. -/
theorem gather_indentChildren {f : Text → List Text} {g : ν → List Text}
    {g' : (Text → ν) → List Text} {current : Text} (hcurrent : Spaces current)
    {cs : List (Child κ (Text → ν))}
    (h : ∀ c ∈ cs, ∀ line, Spaces line → g (c.node line) = g' c.node) :
    (indentChildren current cs).flatMap (Child.gather f g) = cs.flatMap (Child.gather f g') := by
  induction cs generalizing current with
  | nil => rfl
  | cons c cs ih =>
    obtain ⟨hc, hcs⟩ := List.forall_mem_cons.1 h
    have hline := c.spaces_lineIndent hcurrent
    rw [indentChildren, List.flatMap_cons, List.flatMap_cons, ih hline hcs]
    simp only [Child.gather, hc _ hline]

theorem lineCommentsEnd_indentChildren {shifts : Bool} {closing current : Text}
    {cs : List (Child κ (Text → ν))} (h : lineCommentsEnd shifts comma closing cs) :
    lineCommentsEnd shifts comma closing (indentChildren current cs : List (Child κ ν)) := by
  induction cs generalizing current with
  | nil => trivial
  | cons c cs ih =>
    cases cs with
    | nil => exact ⟨h.1, by simpa [indentChildren] using h.2.1, trivial⟩
    | cons d cs => exact ⟨h.1, fun _ => h.2.1 (Or.inr (by simp)), ih h.2.2⟩

/-- **An indented composite** has no comment to be moved, and has the comments that it had, if
its children have theirs on whatever lines they are. -/
theorem Ended.indent [Named κ] {c : Composite κ (Text → ν)} (h : c.Ended false) {line step : Text}
    (hline : Spaces line) (hstep : Spaces step) : (c.indent step line).Ended false ∧
      ∀ (g : ν → List Text) (g' : (Text → ν) → List Text),
        (∀ k ∈ c.children, ∀ line', Spaces line' → g (k.node line') = g' k.node) →
          (c.indent step line).gather Text.remarks g = c.gather Text.remarks g' := by
  obtain ⟨⟨hfront, hclosing, hbehind⟩, hremarks⟩ := h.rewrites_broken hline hstep
  change (⟨indentChildren line (c.broken line step).children, (c.broken line step).closing,
    (c.broken line step).trailingComma, (c.broken line step).dirty⟩ : Composite κ ν).Ended false ∧ _
  refine ⟨⟨fun m hm => ?_, hclosing, lineCommentsEnd_indentChildren hbehind⟩, fun g g' hg => ?_⟩
  · obtain ⟨k, hk, line', -, rfl⟩ := exists_of_mem_indentChildren hline hm
    exact hfront k hk
  · rw [← hremarks g', gather]
    change (indentChildren line (c.broken line step).children).flatMap _ ++
      Text.remarks (c.broken line step).closing = _
    rw [gather_indentChildren hline fun k hk line' hline' => ?_]
    · rfl
    · obtain ⟨k', hk', heq⟩ := exists_of_mem_broken hk
      rw [heq]
      exact hg k' hk' line' hline'

end Composite

/-! ### Whole trees -/

namespace Node

/-- The slots of a composite hold blanks and complete comments, and what is behind a line comment
begins a line; in front of a comma it may have to be moved if the composite is dirty. -/
def CommentedHere : Node → Prop
  | .object ms => ms.Ended ms.dirty
  | .array es => es.Ended es.dirty
  | _ => True

/-- The slots of a composite hold blanks and complete comments, none of which has to be moved. -/
def EndedHere : Node → Prop
  | .object ms => ms.Ended false
  | .array es => es.Ended false
  | _ => True

theorem legibleHere_of_endedHere {n : Node} (h : n.EndedHere) : n.LegibleHere := by
  cases n with
  | object ms => exact Composite.Ended.legible h
  | array es => exact Composite.Ended.legible h
  | null | bool b | number t | string l => trivial

theorem rewrites_settled {κ : Type} [Label κ] [Named κ] [Label.InOrder κ] {standard : Bool}
    {c : Composite κ Node} (h : c.Ended c.dirty) : (c.map (settle standard)).Rewrites
      (if c.dirty then (c.map (settle standard)).settle standard else c.map (settle standard)) := by
  split
  · rename_i hdirty
    rw [hdirty] at h
    exact (Composite.ended_map.2 h).rewrites_settle standard
  · rename_i hdirty
    rw [Bool.not_eq_true] at hdirty
    rw [hdirty] at h
    exact ⟨Composite.ended_map.2 h, fun _ => rfl⟩

/-- **A settled tree has no comment to be moved.** -/
theorem everywhere_ended_settle (standard : Bool) : ∀ n : Node, Everywhere CommentedHere n →
    Everywhere EndedHere (settle standard n) := by
  refine Everywhere.settle fun n h => ?_
  cases n with
  | object ms =>
    rw [settle_object]
    exact (rewrites_settled h).ended
  | array es =>
    rw [settle_array]
    exact (rewrites_settled h).ended
  | null | bool b | number t | string l => trivial

/-- **A settled tree has the comments that it had.** -/
theorem remarks_settle (standard : Bool) : ∀ n : Node, Everywhere CommentedHere n →
    (settle standard n).gather remarks = n.gather remarks := by
  refine induction {
    null := fun _ => rfl
    bool := fun _ _ => rfl
    number := fun _ _ => rfl
    string := fun _ _ => rfl
    object := fun ms ih h => ?_
    array := fun es ih h => ?_ }
  · obtain ⟨hhere, hinner⟩ := everywhere_object.1 h
    rw [settle_object, gather_object, gather_object, (rewrites_settled hhere).remarks,
      Composite.gather_map]
    exact Composite.gather_congr fun m hm => ih m hm (hinner m hm)
  · obtain ⟨hhere, hinner⟩ := everywhere_array.1 h
    rw [settle_array, gather_array, gather_array, (rewrites_settled hhere).remarks,
      Composite.gather_map]
    exact Composite.gather_congr fun e he => ih e he (hinner e he)

/-- **An indented tree has no comment to be moved.** -/
theorem everywhere_ended_indent {step : Text} (hstep : Spaces step) : ∀ n : Node,
    Everywhere EndedHere n → ∀ line, Spaces line → Everywhere EndedHere (indent step n line) := by
  refine Everywhere.indent fun n line hline h => ?_
  cases n with
  | object ms =>
    rw [indent_object]
    exact ((Composite.ended_map.2 h).indent hline hstep).1
  | array es =>
    rw [indent_array]
    exact ((Composite.ended_map.2 h).indent hline hstep).1
  | null | bool b | number t | string l => trivial

/-- An indented composite has the comments that it had, if the nodes in it have theirs. -/
theorem Composite.Ended.remarks_indent {κ : Type} [Label κ] [Named κ] {c : Composite κ Node}
    (h : c.Ended false) {step line : Text} (hline : Spaces line) (hstep : Spaces step)
    (hinner : ∀ m ∈ c.children, ∀ line, Spaces line →
      (indent step m.node line).gather remarks = m.node.gather remarks) :
    ((c.map (indent step)).indent step line).gather remarks (gather remarks) =
      c.gather remarks (gather remarks) := by
  have hmap : (c.map (indent step)).Ended false := Composite.ended_map.2 h
  rw [(hmap.indent hline hstep).2 _ fun n => (n []).gather remarks, Composite.gather_map]
  · exact Composite.gather_congr fun m hm => hinner m hm [] (by simp [Spaces])
  · intro k hk line' hline'
    obtain ⟨m, hm, rfl⟩ := List.mem_map.1 hk
    exact (hinner m hm line' hline').trans (hinner m hm [] (by simp [Spaces])).symm

/-- **An indented tree has the comments that it had**, on whatever line it is. -/
theorem remarks_indent {step : Text} (hstep : Spaces step) : ∀ n : Node, Everywhere EndedHere n →
    ∀ line, Spaces line → (indent step n line).gather remarks = n.gather remarks := by
  refine induction {
    null := fun _ _ _ => rfl
    bool := fun _ _ _ _ => rfl
    number := fun _ _ _ _ => rfl
    string := fun _ _ _ _ => rfl
    object := fun ms ih h line hline => ?_
    array := fun es ih h line hline => ?_ }
  · obtain ⟨hhere, hinner⟩ := everywhere_object.1 h
    rw [indent_object, gather_object, gather_object]
    exact Composite.Ended.remarks_indent hhere hline hstep fun m hm => ih m hm (hinner m hm)
  · obtain ⟨hhere, hinner⟩ := everywhere_array.1 h
    rw [indent_array, gather_array, gather_array]
    exact Composite.Ended.remarks_indent hhere hline hstep fun e he => ih e he (hinner e he)

/-- Without a mark there is no comment to be moved. -/
theorem everywhere_ended_of_not_isDirty (n : Node) (hclean : n.isDirty = false)
    (h : Everywhere CommentedHere n) : Everywhere EndedHere n := by
  have hended : ∀ {κ : Type} [Label κ] {c : Composite κ Node},
      c.dirty = false → c.Ended c.dirty → c.Ended false := fun hdirty hc => hdirty ▸ hc
  exact ((isDirty_eq_false_iff.1 hclean).and h).mono fun n hn => match n with
    | .object _ | .array _ => hended hn.1 hn.2
    | .null | .bool _ | .number _ | .string _ => trivial

end Node

namespace Value

/-- **A laid out document has no comment to be moved.** -/
theorem everywhere_ended_format {v : Value} (h : Node.Everywhere Node.CommentedHere v.node) :
    Node.Everywhere Node.EndedHere v.format.node := by
  rw [format]
  split
  · exact Node.everywhere_ended_indent v.spaces_step _ (Node.everywhere_ended_settle _ _ h) _
      v.spaces_line
  · rename_i hclean
    exact Node.everywhere_ended_of_not_isDirty _ (by simpa using hclean) h

/-- **A laid out document has the comments that it had.** -/
theorem remarks_format {v : Value} (h : Node.Everywhere Node.CommentedHere v.node) :
    v.format.gather remarks = v.gather remarks := by
  rw [format]
  split
  · have hsettled := Node.everywhere_ended_settle v.isStandard _ h
    rw [gather, gather]
    dsimp only
    rw [Node.remarks_indent v.spaces_step _ hsettled _ v.spaces_line, Node.remarks_settle _ _ h]
  · rfl

end Value

end EnvManifest
