import EnvManifest.Proofs.Comments.Format

/-!
# Comments that a parser cuts in two

A parser puts what it passes over into the slots of the tree, and each comment of the document
ends up in one slot: with one exception. What is behind a last child without a comma is cut in
front of its first newline, into the trail of the child and the slot in front of the closing
bracket, and nothing asks whether that newline is in a block comment. If it is, the comment begins
in one slot and goes on in the other (`Severs`), and neither of them is a text of whole comments.

`cutBehind_cutAtNewline` says what the cut makes of a gap, `Composite.Cut` how the slots of a
composite are filled, and `Value.slots_of_parse` what becomes of the comments of a document: all of
its slots are whole exactly if no composite is severed, and then the comments of the tree are
those of the document.
-/

namespace EnvManifest

open Text

/-! ### Cutting a gap at its first newline -/

/-- A block comment begins in the first slot and goes on in the second, which begins with its
first newline. -/
def Severs (trail closing : Text) : Prop :=
  ∃ g a b rest, trail = g ++ '/' :: '*' :: a ∧ closing = '\n' :: (b ++ '*' :: '/' :: rest) ∧
    Gap g ∧ ¬['*', '/'] <:+: a ++ '\n' :: b ∧ Gap rest

/-- The first slot ends inside the comment. -/
theorem Severs.not_whole {trail closing : Text} (h : Severs trail closing) : ¬Whole trail := by
  obtain ⟨g, a, b, rest, rfl, -, hg, hab, -⟩ := h
  have hcut : cutAtClose a = none := by
    rw [Option.eq_none_iff_forall_ne_some]
    rintro ⟨cut, left⟩ hcut
    obtain ⟨body, -, -, rfl⟩ := body_of_cutAtClose hcut
    exact hab ⟨body, left ++ '\n' :: b, by simp⟩
  rw [whole_iff_scan, scan_append_of_eq hg.scan_eq]
  change ¬(scan .block a = _ ∨ scan .block a = _)
  rcases scan_block_of_cutAtClose_none hcut with hs | hs <;> simp [hs]

/-- The comment swallows a comma that is written between the two slots. -/
theorem Severs.swallows {trail closing : Text} (h : Severs trail closing) :
    Swallows trail closing := by
  refine ⟨h.not_whole, ?_⟩
  obtain ⟨g, a, b, rest, rfl, rfl, hg, hab, hrest⟩ := h
  have hsplit : g ++ '/' :: '*' :: a ++ '\n' :: (b ++ '*' :: '/' :: rest) =
      g ++ '/' :: '*' :: (a ++ '\n' :: b ++ '*' :: '/' :: rest) := by
    simp
  rw [hsplit]
  exact ⟨rfl, hg.append (.block hab hrest)⟩

/-- A gap in front of the comment stays in the first slot. -/
theorem Severs.append {g trail closing : Text} (hg : Gap g) (h : Severs trail closing) :
    Severs (g ++ trail) closing := by
  obtain ⟨g', a, b, rest, rfl, hclosing, hg', hab, hrest⟩ := h
  exact ⟨g ++ g', a, b, rest, by simp, hclosing, hg.append hg', hab, hrest⟩

/-- What a cut at the first newline makes of a gap: the first slot is what is on the line, the
second begins with the newline, if there is one, and both hold whole comments only, unless a
block comment is severed. -/
structure CutBehind (trail closing : Text) : Prop where
  line : '\n' ∉ trail
  rest : closing = [] ∧ Gap trail ∨ closing.head? = some '\n'
  comments : Whole trail ∧ Gap closing ∨ Severs trail closing

theorem cutAtNewline_append_of_not_mem {s : Text} (hs : '\n' ∉ s) (t : Text) :
    cutAtNewline (s ++ t) = (s ++ (cutAtNewline t).1, (cutAtNewline t).2) := by
  have hs' := ne_newline_of_not_mem hs
  simp [cutAtNewline, List.takeWhile_append_of_pos hs', List.dropWhile_append_of_pos hs']

/-- A gap without a newline in front of a gap stays in the first slot. -/
theorem CutBehind.append {g t : Text} (hg : Gap g) (hline : '\n' ∉ g)
    (h : CutBehind (cutAtNewline t).1 (cutAtNewline t).2) :
    CutBehind (cutAtNewline (g ++ t)).1 (cutAtNewline (g ++ t)).2 := by
  obtain ⟨ht, hrest, hcomments⟩ := h
  rw [cutAtNewline_append_of_not_mem hline]
  refine ⟨by simp [hline, ht], hrest.imp_left fun hnil => ⟨hnil.1, hg.append hnil.2⟩, ?_⟩
  exact hcomments.imp (fun h => ⟨hg.append_whole h.1, h.2⟩) (Severs.append hg)

/-- **A gap is cut at its first newline**, which may be in a block comment. -/
theorem cutBehind_cutAtNewline {t : Text} (h : Gap t) :
    CutBehind (cutAtNewline t).1 (cutAtNewline t).2 := by
  induction h with
  | nil => exact ⟨List.not_mem_nil, Or.inl ⟨rfl, .nil⟩, Or.inl ⟨Gap.nil.whole, .nil⟩⟩
  | @blank c s hc hs ih =>
    by_cases hn : c = '\n'
    · subst hn
      have hcut : cutAtNewline ('\n' :: s) = ([], '\n' :: s) :=
        cutAtNewline_append_newline List.not_mem_nil s
      rw [hcut]
      exact ⟨List.not_mem_nil, Or.inr rfl, Or.inl ⟨Gap.nil.whole, .blank hc hs⟩⟩
    · exact CutBehind.append (.blank hc .nil) (by simpa [eq_comm] using hn) ih
  | @line body s hbody hs _ =>
    -- the newline behind a line comment is not part of the comment
    have hline : '\n' ∉ '/' :: '/' :: body := by simp [hbody]
    rw [show '/' :: '/' :: (body ++ '\n' :: s) = '/' :: '/' :: body ++ '\n' :: s from rfl,
      cutAtNewline_append_newline hline]
    refine ⟨hline, Or.inr rfl, Or.inl ⟨?_, .blank (by decide) hs⟩⟩
    exact (whole_iff_scan _).2 (Or.inr (scan_line_of_not_mem hbody))
  | @block body s hbody hs ih =>
    by_cases hn : '\n' ∈ body
    · obtain ⟨a, b, rfl, ha⟩ := List.eq_append_cons_of_mem hn
      have hline : '\n' ∉ '/' :: '*' :: a := by simp [ha]
      rw [show '/' :: '*' :: (a ++ '\n' :: b ++ '*' :: '/' :: s) =
        '/' :: '*' :: a ++ '\n' :: (b ++ '*' :: '/' :: s) by simp,
        cutAtNewline_append_newline hline]
      exact ⟨hline, Or.inr rfl, Or.inr ⟨[], a, b, s, rfl, rfl, .nil, hbody, hs⟩⟩
    · have hline : '\n' ∉ '/' :: '*' :: (body ++ ['*', '/']) := by simp [hn]
      have happend := CutBehind.append (.block hbody .nil) hline ih
      simpa using happend

/-! ### The slots of a composite -/

theorem whole_of_lineCommentsEnd {κ ν : Type} {shifts comma : Bool} {closing : Text}
    {cs : List (Child κ ν)} (h : lineCommentsEnd shifts comma closing cs) :
    ∀ m ∈ cs, Whole m.trail := by
  induction cs with
  | nil => simp
  | cons c cs ih => exact List.forall_mem_cons.2 ⟨h.1.whole, ih h.2.2⟩

section Composites

variable {κ ν : Type} [Label κ]

/-- The slots behind the children of a composite, as a parser leaves them. -/
def trailsCut (comma : Bool) (closing : Text) : List Text → Prop
  | [] => Gap closing
  | [t] => if comma then Gap t ∧ Gap closing else CutBehind t closing
  | t :: ts => Gap t ∧ trailsCut comma closing ts

namespace Composite

/-- The slots of a composite are as a parser leaves them: gaps, but for the two behind a last
child without a comma, which are a gap that was cut at its first newline. -/
structure Cut (c : Composite κ ν) : Prop where
  front : ∀ m ∈ c.children, m.FrontLegible
  behind : trailsCut c.trailingComma c.closing (c.children.map Child.trail)

/-- A block comment behind the last child is cut in two. -/
def Severed (c : Composite κ ν) : Prop :=
  c.trailingComma = false ∧ ∃ last ∈ c.children.getLast?, Severs last.trail c.closing

/-- A composite that is not severed has no comment in front of a comma, or of anything but a
newline, that would take it in. -/
theorem Cut.ended {c : Composite κ ν} (h : c.Cut) (hsevered : ¬c.Severed) : c.Ended false := by
  obtain ⟨cs, closing, comma, dirty⟩ := c
  obtain ⟨hfront, hbehind⟩ := h
  suffices hslots : Gap closing ∧ lineCommentsEnd false comma closing cs from
    ⟨hfront, hslots.1, hslots.2⟩
  clear hfront
  dsimp only at hbehind
  induction cs with
  | nil => exact ⟨hbehind, trivial⟩
  | cons c cs ih =>
    cases cs with
    | nil =>
      cases comma with
      | true =>
        obtain ⟨htrail, hclosing⟩ : Gap c.trail ∧ Gap closing := hbehind
        exact ⟨hclosing, Or.inl htrail, fun _ => Or.inr htrail, trivial⟩
      | false =>
        obtain ⟨-, hrest, hcomments⟩ : CutBehind c.trail closing := hbehind
        obtain ⟨htrail, hclosing⟩ := hcomments.resolve_right fun hs => hsevered ⟨rfl, c, rfl, hs⟩
        refine ⟨hclosing, ?_, by simp, trivial⟩
        refine hrest.imp And.right fun hnewline => ⟨htrail, ?_⟩
        obtain ⟨rest, rfl⟩ := List.head?_eq_some_iff.1 hnewline
        exact ⟨[], rest, rfl, by simp⟩
    | cons d cs =>
      obtain ⟨htrail, hbehind⟩ : Gap c.trail ∧ _ := hbehind
      obtain ⟨hclosing, hends⟩ := ih (fun hs => hsevered (by simpa [Severed] using hs)) hbehind
      exact ⟨hclosing, Or.inl htrail, fun _ => Or.inr htrail, hends⟩

/-- **The slots between two brackets are whole exactly if none of them is severed**, here or
further down. -/
theorem Cut.forall_whole_iff {c : Composite κ ν} (h : c.Cut) {g : ν → List Text} {Q : ν → Prop}
    (hg : ∀ m ∈ c.children, (∀ t ∈ g m.node, Whole t) ↔ Q m.node) :
    (∀ t ∈ c.gather (fun t => [t]) g, Whole t) ↔ ¬c.Severed ∧ ∀ m ∈ c.children, Q m.node := by
  constructor
  · intro hwhole
    have hchild : ∀ m ∈ c.children, ∀ t ∈ m.gather (fun t => [t]) g, Whole t := fun m hm t ht =>
      hwhole t (List.mem_append_left _ (List.mem_flatMap_of_mem hm ht))
    refine ⟨?_, fun m hm => (hg m hm).1 fun t ht => hchild m hm t ?_⟩
    · rintro ⟨-, last, hlast, hs⟩
      refine hs.not_whole (hchild last (List.mem_of_getLast? hlast) _ ?_)
      simp [Child.gather]
    · simp [Child.gather, ht]
  · rintro ⟨hsevered, hQ⟩ t ht
    obtain ⟨hfront, hclosing, hends⟩ := h.ended hsevered
    rcases List.mem_append.1 ht with ht | ht
    · obtain ⟨m, hm, ht⟩ := List.mem_flatMap.1 ht
      have hslots : t = m.lead ∨ t ∈ Label.slots m.label ∨ t ∈ g m.node ∨ t = m.trail := by
        simpa [Child.gather] using ht
      rcases hslots with rfl | ht | ht | rfl
      · exact (hfront m hm).1.whole
      · exact ((hfront m hm).2 t ht).whole
      · exact (hg m hm).2 (hQ m hm) t ht
      · exact whole_of_lineCommentsEnd hends m hm
    · rw [List.mem_singleton.1 ht]
      exact hclosing.whole

/-! ### Reading a composite -/

theorem cut_nil {closing : Text} {comma : Bool} (h : Gap closing) :
    (⟨[], closing, comma, false⟩ : Composite κ ν).Cut :=
  ⟨by simp, h⟩

theorem cut_last {c : Child κ ν} (hfront : c.FrontLegible) (htrail : Gap c.trail) :
    (Composite.last c).Cut :=
  ⟨by simpa [Composite.last, Child.FrontLegible] using hfront, cutBehind_cutAtNewline htrail⟩

theorem cut_cons {c : Child κ ν} {rest : Composite κ ν} (hfront : c.FrontLegible)
    (htrail : Gap c.trail) (hrest : rest.Cut) (h : rest.children = [] → rest.trailingComma = true) :
    (rest.cons c).Cut := by
  obtain ⟨cs, closing, comma, dirty⟩ := rest
  refine ⟨List.forall_mem_cons.2 ⟨hfront, hrest.front⟩, ?_⟩
  cases cs with
  | nil =>
    obtain rfl : comma = true := h rfl
    exact ⟨htrail, hrest.behind⟩
  | cons d cs => exact ⟨htrail, hrest.behind⟩

end Composite

end Composites

namespace Node

/-- The slots of a composite are as a parser leaves them. -/
def CutHere : Node → Prop
  | .object ms => ms.Cut
  | .array es => es.Cut
  | _ => True

/-- A block comment behind the last child is cut in two. -/
def SeveredHere : Node → Prop
  | .object ms => ms.Severed
  | .array es => es.Severed
  | _ => False

/-- **The slots of a tree are whole exactly if nothing in it is severed.** -/
theorem forall_whole_iff : ∀ n : Node, Everywhere CutHere n →
    ((∀ t ∈ n.gather fun t => [t], Whole t) ↔ Everywhere (fun k => ¬k.SeveredHere) n) := by
  have leaf : ∀ n : Node, n.inner = [] → n.gather (fun t => [t]) = [] → ¬n.SeveredHere →
      ((∀ t ∈ n.gather fun t => [t], Whole t) ↔ Everywhere (fun k => ¬k.SeveredHere) n) := by
    intro n hinner hslots hsevered
    rw [everywhere_of_inner_eq_nil hinner, hslots]
    simp [hsevered]
  refine induction {
    null := fun _ => leaf _ rfl rfl id
    bool := fun _ _ => leaf _ rfl rfl id
    number := fun _ _ => leaf _ rfl rfl id
    string := fun _ _ => leaf _ rfl rfl id
    object := fun ms ih h => ?_
    array := fun es ih h => ?_ }
  · obtain ⟨hcut, hinner⟩ := everywhere_object.1 h
    rw [gather_object, everywhere_object]
    exact Composite.Cut.forall_whole_iff hcut fun m hm => ih m hm (hinner m hm)
  · obtain ⟨hcut, hinner⟩ := everywhere_array.1 h
    rw [gather_array, everywhere_array]
    exact Composite.Cut.forall_whole_iff hcut fun e he => ih e he (hinner e he)

end Node

/-! ### Reading a node -/

section Reading

variable {κ : Type} [Label κ] [Named κ] {i : Inside κ} {node : Parser Node} {inner : Node → Prop}

/-- **What is read between two brackets has its slots cut in one place only**, and so has what is
read of each child. -/
theorem cut_of_readChildren (hi : i.Sound)
    (hnode : ∀ {s rest n}, node.run s = .ok (n, rest) → n.pack ++ rest = s ∧ inner n)
    {first : Bool} {s rest : Text} {c : Composite κ Node}
    (h : readChildren i node first s = .ok (c, rest)) :
    c.Cut ∧ (∀ m ∈ c.children, inner m.node) ∧ (c.children = [] → c.trailingComma = !first) := by
  refine readChildren_induction (motive := fun first _ c _ => c.Cut ∧
    (∀ m ∈ c.children, inner m.node) ∧ (c.children = [] → c.trailingComma = !first))
    hi hnode ?close ?comma ?last h
  case close => exact fun hgap => ⟨Composite.cut_nil hgap, by simp, fun _ => rfl⟩
  case comma =>
    rintro first s rest c r hc ⟨hrest, hinner, hnil⟩
    exact ⟨Composite.cut_cons hc.front hc.trail hrest hnil,
      List.forall_mem_cons.2 ⟨hc.inner.2, hinner⟩, by simp [Composite.cons]⟩
  case last =>
    exact fun hc => ⟨Composite.cut_last hc.front hc.trail,
      by simpa [Composite.last] using hc.inner.2, by simp [Composite.last]⟩

end Reading

namespace Parser

theorem cut_of_run_nodeAround {inner : Option (Parser Node)}
    (hinner : ∀ node ∈ inner, ∀ {s rest n}, node.run s = .ok (n, rest) →
      n.pack ++ rest = s ∧ Node.Everywhere Node.CutHere n)
    {s rest : Text} {n : Node} (h : (nodeAround inner).run s = .ok (n, rest)) :
    Node.Everywhere Node.CutHere n := by
  rcases cases_of_run_nodeAround h with ⟨node, hnode, s₁, ms, -, rfl, hread⟩ |
    ⟨node, hnode, s₁, es, -, rfl, hread⟩ | ⟨hobject, harray, -, -⟩
  · obtain ⟨hcut, hms, -⟩ := cut_of_readChildren insideObject_sound (hinner node hnode) hread
    exact Node.everywhere_object.2 ⟨hcut, hms⟩
  · obtain ⟨hcut, hes, -⟩ := cut_of_readChildren insideArray_sound (hinner node hnode) hread
    exact Node.everywhere_array.2 ⟨hcut, hes⟩
  · cases n with
    | object ms => simp [Node.object?] at hobject
    | array es => simp [Node.array?] at harray
    | null | bool b | number t | string l => exact (Node.everywhere_of_inner_eq_nil rfl).2 trivial

/-- The slots of a node that is read are cut in one place only, throughout. -/
theorem cut_of_run_node {d : Nat} {s rest : Text} {n : Node} (h : (node d).run s = .ok (n, rest)) :
    Node.Everywhere Node.CutHere n := by
  induction d generalizing s rest n with
  | zero => exact cut_of_run_nodeAround (by simp) h
  | succ d ih =>
    refine cut_of_run_nodeAround (fun node hnode => ?_) h
    obtain rfl := Option.mem_some_iff.1 hnode
    exact fun hn => ⟨(orderly_of_run_node hn).1, ih hn⟩

end Parser

/-! ### Documents -/

namespace Value

/-- The slots of a document, in their order in the text. -/
def slots (v : Value) : List Text :=
  v.gather fun t => [t]

theorem forall_mem_slots {P : Text → Prop} {v : Value} :
    (∀ t ∈ v.slots, P t) ↔ P v.lead ∧ (∀ t ∈ v.node.gather fun t => [t], P t) ∧ P v.trail := by
  simp only [slots, gather, List.forall_mem_append, List.forall_mem_singleton]

/-- **What becomes of the comments of a document.** The slots of a document that is accepted are
gaps, but for the one behind the root, where a line comment may end the document, and the two
behind a last child without a comma, which are a gap cut at its first newline. All slots are texts
of whole comments exactly if no block comment is severed by that, and then the slots have the
comments of the document, in order. -/
theorem slots_of_parse {s : Text} {v : Value} (h : parse s = .ok v) :
    Gap v.lead ∧ Whole v.trail ∧ v.node.Everywhere Node.CutHere ∧
      ((∀ t ∈ v.slots, Whole t) ↔ v.node.Everywhere fun n => ¬n.SeveredHere) ∧
      ((∀ t ∈ v.slots, Whole t) → remarks s = v.gather remarks) := by
  have hread := parse_eq_ok.1 h
  obtain ⟨hpack, hlead, horderly, htrail, -⟩ := orderly_of_readTo hread
  obtain ⟨s₁, s₂, -, hnode, -, -⟩ := run_of_readTo hread
  have hcut := Parser.cut_of_run_node hnode
  have hwhole : (∀ t ∈ v.slots, Whole t) ↔ v.node.Everywhere fun n => ¬n.SeveredHere := by
    rw [forall_mem_slots, Node.forall_whole_iff v.node hcut]
    exact ⟨fun hslots => hslots.2.1, fun hsevered => ⟨hlead.whole, hsevered, htrail⟩⟩
  refine ⟨hlead, htrail, hcut, hwhole, fun hslots => ?_⟩
  have hended : v.node.Everywhere Node.EndedHere :=
    (hcut.and (hwhole.1 hslots)).mono fun n hn => by
      cases n with
      | object ms => exact Composite.Cut.ended hn.1 hn.2
      | array es => exact Composite.Cut.ended hn.1 hn.2
      | null | bool b | number t | string l => trivial
  rw [← hpack]
  exact remarks_pack hlead horderly.fits hended

/-- A block comment over two lines stays whole in front of a comma, and a line comment ends the
slot behind the last element. -/
theorem slots_of_parse_commented :
    ∃ v, parse "[1 /* a\n */, 2 // b\n]".toList = .ok v ∧ (∀ t ∈ v.slots, Whole t) ∧
      Gap v.lead ∧ Whole v.trail ∧ v.node.Everywhere Node.CutHere ∧
      ((∀ t ∈ v.slots, Whole t) ↔ v.node.Everywhere fun n => ¬n.SeveredHere) ∧
      ((∀ t ∈ v.slots, Whole t) →
        remarks "[1 /* a\n */, 2 // b\n]".toList = v.gather remarks) := by
  obtain ⟨v, hv, hslots⟩ : ∃ v, parse "[1 /* a\n */, 2 // b\n]".toList = .ok v ∧ v.slots =
      [[], [], " /* a\n */".toList, " ".toList, " // b".toList, "\n".toList, []] := by
    decide +kernel
  refine ⟨v, hv, ?_, slots_of_parse hv⟩
  simp only [hslots, whole_iff_scan]
  decide

/-- **A comment may be cut in two**: neither of the slots that it is in is a text of whole
comments. -/
theorem not_whole_slots :
    ∃ v, parse "[1 /* a\n b */]".toList = .ok v ∧
      v.slots = [[], [], " /* a".toList, "\n b */".toList, []] ∧
        ¬Whole " /* a".toList ∧ ¬Whole "\n b */".toList := by
  obtain ⟨v, hv, hslots⟩ : ∃ v, parse "[1 /* a\n b */]".toList = .ok v ∧
      v.slots = [[], [], " /* a".toList, "\n b */".toList, []] := by
    decide +kernel
  refine ⟨v, hv, hslots, ?_, ?_⟩
  · rw [whole_iff_scan]
    decide
  · rw [whole_iff_scan]
    decide

end Value

end EnvManifest
