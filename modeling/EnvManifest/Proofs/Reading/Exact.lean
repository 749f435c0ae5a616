import EnvManifest.Proofs.Comments.Cut
import EnvManifest.Proofs.Reading.Complete

/-!
# Trees that are read back as they are

A legible tree is read back with its outline. For the very same tree to come back, its slots have
to be cut where a parser cuts: no mark is on it, a composite without children has no comma, and
behind a last child without a comma the trail ends at the first newline (`Composite.AsRead`).

What a parser answers is like that everywhere (`Value.asRead_of_parse`), and a tree that is like
that is what a parser answers when it is written (`Value.parse_pack`).
-/

namespace EnvManifest

open Text

/-! ### Slots as a parser cuts them -/

/-- The slots behind the children of a composite are cut as a parser cuts them. -/
def trailsRead (comma : Bool) (closing : Text) : List Text → Prop
  | [] => comma = false ∧ Gap closing
  | [t] =>
    if comma then Gap t ∧ Gap closing
    else Gap (t ++ closing) ∧ cutAtNewline (t ++ closing) = (t, closing)
  | t :: ts => Gap t ∧ trailsRead comma closing ts

theorem CutBehind.cutAtNewline_eq {t closing : Text} (h : CutBehind t closing) :
    cutAtNewline (t ++ closing) = (t, closing) := by
  rcases h.rest with ⟨rfl, -⟩ | hnewline
  · rw [List.append_nil, cutAtNewline_of_not_mem h.line]
  · obtain ⟨rest, rfl⟩ := List.head?_eq_some_iff.1 hnewline
    exact cutAtNewline_append_newline h.line rest

/-- What is between two brackets is as a parser leaves it. -/
structure Composite.AsRead {κ ν : Type} [Label κ] (c : Composite κ ν) : Prop where
  front : ∀ m ∈ c.children, m.FrontLegible
  behind : trailsRead c.trailingComma c.closing (c.children.map Child.trail)
  atRest : c.AtRest

namespace Composite

variable {κ ν : Type} [Label κ] {c : Composite κ ν}

theorem trailsRead_of_cut {comma : Bool} {closing : Text} {ts : List Text}
    (hcut : trailsCut comma closing ts) (hlegible : trailsLegible false comma closing ts)
    (hnil : ts = [] → comma = false) : trailsRead comma closing ts := by
  match ts with
  | [] => exact ⟨hnil rfl, hcut⟩
  | [t] =>
    cases comma with
    | true => exact hcut
    | false =>
      have hcloses : Closes false t closing := hlegible
      exact ⟨hcloses.gap, CutBehind.cutAtNewline_eq hcut⟩
  | t :: u :: us => exact ⟨hcut.1, trailsRead_of_cut hcut.2 hlegible.2 (by simp)⟩

/-- A composite that was read, put together from what is known of it. -/
theorem asRead (hcut : c.Cut) (hlegible : c.Legible) (hrest : c.AtRest)
    (hnil : c.children = [] → c.trailingComma = false) : c.AsRead :=
  ⟨hcut.front, trailsRead_of_cut hcut.behind hlegible.2 (by simpa using hnil), hrest⟩

theorem trailsLegible_of_read {comma : Bool} {closing : Text} {ts : List Text}
    (h : trailsRead comma closing ts) : trailsLegible false comma closing ts := by
  match ts with
  | [] => exact closes_of_gap .nil h.2
  | [t] =>
    cases comma with
    | true => exact Or.inl ⟨h.1, closes_of_gap .nil h.2⟩
    | false =>
      have hcut : Gap (t ++ closing) ∧ cutAtNewline (t ++ closing) = (t, closing) := h
      have hcloses := closes_cutAtNewline hcut.1
      rwa [hcut.2] at hcloses
  | t :: u :: us => exact ⟨h.1, trailsLegible_of_read h.2⟩

theorem AsRead.legible (h : c.AsRead) : c.Legible :=
  ⟨h.front, trailsLegible_of_read h.behind⟩

end Composite

namespace Node

/-- What is between the brackets of a node is as a parser leaves it. -/
def AsReadHere : Node → Prop
  | .object ms => ms.AsRead
  | .array es => es.AsRead
  | _ => True

/-- A tree is as a parser leaves it. -/
def AsRead (n : Node) : Prop :=
  Everywhere AsReadHere n

theorem AsRead.legible {n : Node} (h : n.AsRead) : n.Legible :=
  h.mono fun n hn => match n with
    | .object _ | .array _ => Composite.AsRead.legible hn
    | .null | .bool _ | .number _ | .string _ => trivial

end Node

namespace Parser

/-! ### What a parser leaves -/

theorem asRead_of_run_nodeAround {inner : Option (Parser Node)}
    (hinner : ∀ node ∈ inner, ∀ {s rest n}, node.run s = .ok (n, rest) →
      n.pack ++ rest = s ∧ n.AsRead)
    {s rest : Text} {n : Node} (h : (nodeAround inner).run s = .ok (n, rest)) : n.AsRead := by
  rcases cases_of_run_nodeAround h with ⟨node, hnode, s₁, ms, -, rfl, hread⟩ |
    ⟨node, hnode, s₁, es, -, rfl, hread⟩ | ⟨hobject, harray, -, -⟩
  · obtain ⟨hcut, hms, hnil⟩ := cut_of_readChildren insideObject_sound (hinner node hnode) hread
    obtain ⟨-, horderly, -⟩ := orderly_of_readChildren insideObject_sound (hinner node hnode) hread
    exact Node.everywhere_object.2
      ⟨Composite.asRead hcut horderly.legible horderly.atRest hnil, hms⟩
  · obtain ⟨hcut, hes, hnil⟩ := cut_of_readChildren insideArray_sound (hinner node hnode) hread
    obtain ⟨-, horderly, -⟩ := orderly_of_readChildren insideArray_sound (hinner node hnode) hread
    exact Node.everywhere_array.2
      ⟨Composite.asRead hcut horderly.legible horderly.atRest hnil, hes⟩
  · cases n with
    | object ms => simp [Node.object?] at hobject
    | array es => simp [Node.array?] at harray
    | null | bool b | number t | string l => exact (Node.everywhere_of_inner_eq_nil rfl).2 trivial

/-- **A node that is read is as a parser leaves it**, throughout. -/
theorem asRead_of_run_node {d : Nat} {s rest : Text} {n : Node}
    (h : (node d).run s = .ok (n, rest)) : n.AsRead := by
  induction d generalizing s rest n with
  | zero => exact asRead_of_run_nodeAround (by simp) h
  | succ d ih =>
    refine asRead_of_run_nodeAround (fun node hnode => ?_) h
    obtain rfl := Option.mem_some_iff.1 hnode
    exact fun hn => ⟨(orderly_of_run_node hn).1, ih hn⟩

/-! ### Reading children back -/

/-- A parser reads a node back as it is, in front of what lengthens no number. -/
def ReadsBack (p : Parser Node) (n : Node) : Prop :=
  (∃ c s, n.pack = c :: s ∧ ValueStart c) ∧
    ∀ rest, NumberEnd rest → p.run (n.pack ++ rest) = .ok (n, rest)

end Parser

section Children

variable {κ : Type} [Label κ] [Named κ]

/-- What a parser of labels has to read back: a label whose names are literals and whose slots are
gaps, in front of a value. It begins with no bracket. -/
structure Inside.Exact (i : Inside κ) : Prop where
  run : ∀ (k : κ) (u : Text), (∀ l ∈ Named.names k, IsLiteral l) → (∀ t ∈ Label.slots k, Gap t) →
    TokenStart u → i.label.run (Label.pack k ++ u) = .ok (k, u)
  head : ∀ (k : κ) (c : Char) (s : Text), (∀ l ∈ Named.names k, IsLiteral l) → ValueStart c →
    ∃ d t, Label.pack k ++ c :: s = d :: t ∧ isWhite d = false ∧ d ≠ '/' ∧ d ≠ i.close
  close : i.close ∈ [']', '\x7d']

variable {i : Inside κ} {node : Parser Node} {inner : Node → Prop} {m : Child κ Node}

theorem Inside.Exact.closing (hi : i.Exact) : i.Closing := by
  have hclose := hi.close
  simp only [List.mem_cons, List.not_mem_nil, or_false] at hclose
  rcases hclose with hclose | hclose <;>
    exact ⟨by rw [hclose]; rfl, by simp [hclose], by simp [hclose]⟩

/-- A child with a gap behind it is read back, up to a comma or the bracket. -/
theorem run_child_pack (hi : i.Exact) (hnode : node.ReadsBack m.node) (hfront : m.FrontLegible)
    (hfits : m.Fits inner) {g : Text} (hg : Gap g) {d : Char} (hd : d ∈ [',', ']', '\x7d'])
    (rest : Text) :
    (i.child node m.lead).run (Label.pack m.label ++ (m.node.pack ++ (g ++ d :: rest))) =
      .ok (⟨m.lead, m.label, m.node, g, false⟩, d :: rest) := by
  obtain ⟨⟨c, s, hpack, hc⟩, hrun⟩ := hnode
  have hvalue : TokenStart (m.node.pack ++ (g ++ d :: rest)) := by
    rw [hpack]
    exact tokenStart_cons.2 ⟨hc.token.1, hc.token.2.1⟩
  have htoken : TokenStart (d :: rest) := by
    simp only [List.mem_cons, List.not_mem_nil, or_false] at hd
    rcases hd with rfl | rfl | rfl <;> simp [tokenStart_cons, isWhite]
  rw [Inside.child, Parser.run_bind_of_eq (hi.run m.label _ hfits.1 hfront.2 hvalue),
    Parser.run_bind_of_eq (hrun _ (numberEnd_gap_append hg hd rest)),
    Parser.run_bind_of_eq (Parser.run_slot_of_gap hg htoken), Parser.run_pure]

/-- The slot in front of a child is read up to the child, which begins with no bracket. -/
theorem exists_run_slot_child (hi : i.Exact) (hnode : node.ReadsBack m.node)
    (hfront : m.FrontLegible) (hfits : m.Fits inner) (rest : Text) :
    ∃ s, s = Label.pack m.label ++ (m.node.pack ++ rest) ∧
      Parser.slot.run (m.lead ++ s) = .ok (m.lead, s) ∧ s.head? ≠ some i.close := by
  obtain ⟨⟨c, s, hpack, hc⟩, -⟩ := hnode
  obtain ⟨d, t, hhead, hspacing, hslash, hclose⟩ := hi.head m.label c (s ++ rest) hfits.1 hc
  refine ⟨_, rfl, ?_, ?_⟩
  · rw [hpack, List.cons_append, hhead]
    exact Parser.run_slot_of_gap hfront.1 (tokenStart_cons.2 ⟨hspacing, hslash⟩)
  · rw [hpack, List.cons_append, hhead]
    simpa using hclose

/-- **Children as a parser leaves them are read back**, if their nodes are. -/
theorem readChildren_listed (hi : i.Exact) {cs : List (Child κ Node)} {closing : Text}
    {comma : Bool} (hfront : ∀ m ∈ cs, m.FrontLegible)
    (hbehind : trailsRead comma closing (cs.map Child.trail))
    (hfresh : ∀ m ∈ cs, m.fresh = false) (hfits : ∀ m ∈ cs, m.Fits inner)
    (hnode : ∀ m ∈ cs, node.ReadsBack m.node) (hcs : cs ≠ []) (first : Bool) (rest : Text) :
    readChildren i node first
        ((Composite.map Node.pack ⟨cs, closing, comma, false⟩).pack ++ i.close :: rest) =
      .ok (⟨cs, closing, comma, false⟩, rest) := by
  have hclose : i.close ∈ [',', ']', '\x7d'] := List.mem_cons_of_mem _ hi.close
  match cs with
  | [] => exact absurd rfl hcs
  | [⟨lead, label, n, trail, fresh⟩] =>
    obtain ⟨hfront, -⟩ := List.forall_mem_cons.1 hfront
    obtain ⟨hfits, -⟩ := List.forall_mem_cons.1 hfits
    obtain ⟨hnode, -⟩ := List.forall_mem_cons.1 hnode
    obtain rfl : fresh = false := hfresh _ List.mem_cons_self
    cases comma with
    | true =>
      obtain ⟨htrail, hclosing⟩ : Gap trail ∧ Gap closing := hbehind
      obtain ⟨s, hs, hslot, hhead⟩ :=
        exists_run_slot_child hi hnode hfront hfits (trail ++ ',' :: (closing ++ i.close :: rest))
      have hchild := run_child_pack hi hnode hfront hfits htrail
        (show ',' ∈ [',', ']', '\x7d'] by simp) (closing ++ i.close :: rest)
      rw [← hs] at hchild
      have hend : readChildren i node false (closing ++ i.close :: rest) = _ :=
        readChildren_close (Parser.run_slot_of_gap hclosing (hi.closing.tokenStart rest))
      have hread : readChildren i node first (lead ++ s) = _ :=
        readChildren_comma hslot hhead hchild hend
      rw [hs] at hread
      simpa [Composite.map_mk, Composite.pack_singleton, Child.pack, Composite.cons] using hread
    | false =>
      obtain ⟨hgap, hcut⟩ :
        Gap (trail ++ closing) ∧ cutAtNewline (trail ++ closing) = (trail, closing) := hbehind
      obtain ⟨s, hs, hslot, hhead⟩ :=
        exists_run_slot_child hi hnode hfront hfits (trail ++ closing ++ i.close :: rest)
      have hchild := run_child_pack hi hnode hfront hfits hgap hclose rest
      rw [← hs] at hchild
      have hread : readChildren i node first (lead ++ s) = _ :=
        readChildren_last hslot hhead hi.closing.comma hchild
      rw [hs, Composite.last] at hread
      simpa [Composite.map_mk, Composite.pack_singleton, Child.pack, hcut] using hread
  | ⟨lead, label, n, trail, fresh⟩ :: d :: cs =>
    obtain ⟨hfront, hfronts⟩ := List.forall_mem_cons.1 hfront
    obtain ⟨hfits, hfits'⟩ := List.forall_mem_cons.1 hfits
    obtain ⟨hnode, hnodes⟩ := List.forall_mem_cons.1 hnode
    obtain ⟨hplaced, hfreshs⟩ := List.forall_mem_cons.1 hfresh
    obtain rfl : fresh = false := hplaced
    obtain ⟨htrail, hbehind⟩ : Gap trail ∧ _ := hbehind
    have hlist := readChildren_listed hi hfronts hbehind hfreshs hfits' hnodes (by simp) false rest
    obtain ⟨s, hs, hslot, hhead⟩ := exists_run_slot_child hi hnode hfront hfits (trail ++ ',' ::
      ((Composite.map Node.pack ⟨d :: cs, closing, comma, false⟩).pack ++ i.close :: rest))
    have hchild := run_child_pack hi hnode hfront hfits htrail
      (show ',' ∈ [',', ']', '\x7d'] by simp)
      ((Composite.map Node.pack ⟨d :: cs, closing, comma, false⟩).pack ++ i.close :: rest)
    rw [← hs] at hchild
    have hread : readChildren i node first (lead ++ s) = _ :=
      readChildren_comma hslot hhead hchild hlist
    rw [hs] at hread
    simpa [Composite.map_mk, Composite.pack_cons_cons, Child.pack, Composite.cons] using hread

/-- **What is between two brackets is read back** if it is as a parser leaves it. -/
theorem readChildren_pack (hi : i.Exact) {c : Composite κ Node} (h : c.AsRead)
    (hfits : ∀ m ∈ c.children, m.Fits inner) (hnode : ∀ m ∈ c.children, node.ReadsBack m.node)
    (rest : Text) :
    readChildren i node true ((c.map Node.pack).pack ++ i.close :: rest) = .ok (c, rest) := by
  obtain ⟨cs, closing, comma, dirty⟩ := c
  obtain ⟨hfront, hbehind, hdirty, hfresh⟩ := h
  obtain rfl : dirty = false := hdirty
  by_cases hcs : cs = []
  · subst hcs
    obtain ⟨hcomma, hclosing⟩ : comma = false ∧ Gap closing := hbehind
    obtain rfl := hcomma
    exact readChildren_close (Parser.run_slot_of_gap hclosing (hi.closing.tokenStart rest))
  · exact readChildren_listed hi hfront hbehind hfresh hfits hnode hcs true rest

end Children

namespace Parser

/-! ### Reading nodes back -/

theorem insideObject_exact : insideObject.Exact where
  run k u hnames hslots hu := by
    have hrun := run_key (hnames k.name (by simp [Named.names]))
      (hslots k.beforeColon (by simp [Label.slots])) (hslots k.afterColon (by simp [Label.slots])) hu
    rw [← hrun]
    simp [Label.pack, insideObject]
  head k c s hnames _ := by
    obtain ⟨body, hraw, -⟩ := hnames k.name (by simp [Named.names])
    have hpack : Label.pack k ++ c :: s =
        '"' :: (body ++ ['"'] ++ k.beforeColon ++ ':' :: k.afterColon ++ c :: s) := by
      rw [Label.pack, instLabelKey]
      dsimp only
      rw [hraw]
      rfl
    exact ⟨'"', _, hpack, by decide, by decide, by decide⟩
  close := by decide

theorem insideArray_exact : insideArray.Exact where
  run k u _ _ _ := rfl
  head k c s _ hc := ⟨c, s, rfl, hc.token.1, hc.token.2.1, hc.token.2.2.1⟩
  close := by decide

/-- A leaf has the outline of no other node. -/
theorem eq_of_outline_of_leaf {n n' : Node} (hobject : n.object? = none) (harray : n.array? = none)
    (h : n'.outline = n.outline) : n' = n := by
  cases n with
  | object ms => simp [Node.object?] at hobject
  | array es => simp [Node.array?] at harray
  | null | bool b | number t | string l =>
    cases n' with
    | object ms => rw [Node.outline_object] at h; simp [Node.outline, Node.outlining] at h
    | array es => rw [Node.outline_array] at h; simp [Node.outline, Node.outlining] at h
    | null | bool b' | number t' | string l' => simp_all [Node.outline, Node.outlining]

/-- A leaf is read back. -/
theorem readsBack_leaf (inner : Option (Parser Node)) {d : Nat} {n : Node}
    (hobject : n.object? = none) (harray : n.array? = none) (hfits : n.Fits d) :
    (nodeAround inner).ReadsBack n := by
  have hleaf : IsLeaf n.outline n.pack := by
    cases n with
    | object ms => simp [Node.object?] at hobject
    | array es => simp [Node.array?] at harray
    | null => exact .null
    | bool b => cases b with
      | true => exact .true
      | false => exact .false
    | number t => exact .number (Node.fits_number.1 hfits)
    | string l => exact .string (Node.fits_string.1 hfits)
  refine ⟨hleaf.head, fun rest hrest => ?_⟩
  obtain ⟨n', hrun, houtline⟩ := run_nodeAround_of_isLeaf inner hleaf hrest
  rw [hrun, eq_of_outline_of_leaf hobject harray houtline]

/-- **A node as a parser leaves it is read back.** -/
theorem readsBack_node : ∀ (n : Node) (d : Nat), n.Fits d → n.AsRead → (node d).ReadsBack n := by
  have leaf : ∀ (n : Node), n.object? = none → n.array? = none → ∀ d, n.Fits d →
      (node d).ReadsBack n := by
    intro n hobject harray d hfits
    cases d with
    | zero => exact readsBack_leaf none hobject harray hfits
    | succ d => exact readsBack_leaf (some (node d)) hobject harray hfits
  refine Node.induction {
    null := fun d hfits _ => leaf _ rfl rfl d hfits
    bool := fun b d hfits _ => leaf _ rfl rfl d hfits
    number := fun t d hfits _ => leaf _ rfl rfl d hfits
    string := fun l d hfits _ => leaf _ rfl rfl d hfits
    object := fun ms ih d hfits hread => ?_
    array := fun es ih d hfits hread => ?_ }
  · obtain ⟨d, rfl, hinner⟩ := Node.fits_object_iff.1 hfits
    obtain ⟨hhere, hread⟩ := Node.everywhere_object.1 hread
    rw [ReadsBack, Node.pack_object]
    refine ⟨⟨'\x7b', _, rfl, Or.inr (by simp)⟩, fun rest _ => ?_⟩
    have hms : readChildren insideObject (node d) true _ = .ok (ms, rest) :=
      readChildren_pack insideObject_exact hhere hinner
        (fun m hm => ih m hm d (hinner m hm).2 (hread m hm)) rest
    rw [List.append_assoc, List.cons_append]
    change (skip >>= fun _ => children insideObject (node d) >>= fun ms =>
      pure (Node.object ms)).run _ = _
    rw [run_bind_of_eq (run_skip _), List.tail_cons]
    exact run_bind_of_eq hms _
  · obtain ⟨d, rfl, hinner⟩ := Node.fits_array_iff.1 hfits
    obtain ⟨hhere, hread⟩ := Node.everywhere_array.1 hread
    rw [ReadsBack, Node.pack_array]
    refine ⟨⟨'[', _, rfl, Or.inr (by simp)⟩, fun rest _ => ?_⟩
    have hes : readChildren insideArray (node d) true _ = .ok (es, rest) :=
      readChildren_pack insideArray_exact hhere hinner
        (fun e he => ih e he d (hinner e he).2 (hread e he)) rest
    rw [List.append_assoc, List.cons_append]
    change (skip >>= fun _ => children insideArray (node d) >>= fun es =>
      pure (Node.array es)).run _ = _
    rw [run_bind_of_eq (run_skip _), List.tail_cons]
    exact run_bind_of_eq hes _

end Parser

/-! ### Documents -/

namespace Value

/-- A document that is read is as a parser leaves it. -/
theorem asRead_of_parse {s : Text} {v : Value} (h : parse s = .ok v) : v.node.AsRead := by
  obtain ⟨s₁, s₂, -, hnode, -, -⟩ := run_of_readTo (parse_eq_ok.1 h)
  exact Parser.asRead_of_run_node hnode

/-- **A document as a parser leaves it is read back**, down to the last slot. -/
theorem parse_pack {v : Value} (hlead : Gap v.lead) (hfits : v.node.Fits maxDepth)
    (hread : v.node.AsRead) (htrail : Whole v.trail) (hfresh : v.fresh = false) :
    parse v.pack = .ok v := by
  obtain ⟨lead, label, n, trail, fresh⟩ := v
  obtain rfl : fresh = false := hfresh
  obtain ⟨⟨c, t, hpack, hc⟩, hrun⟩ := Parser.readsBack_node n maxDepth hfits hread
  have hslot : Parser.slot.run (lead ++ (n.pack ++ trail)) = .ok (lead, n.pack ++ trail) := by
    rw [hpack]
    exact Parser.run_slot_of_gap hlead (tokenStart_cons.2 ⟨hc.token.1, hc.token.2.1⟩)
  have hvalue : (Parser.value maxDepth).run (lead ++ (n.pack ++ trail)) =
      .ok (⟨lead, (), n, trail, false⟩, []) := by
    rw [Parser.value, Parser.run_bind_of_eq hslot,
      Parser.run_bind_of_eq (hrun trail (numberEnd_of_head htrail.head)),
      Parser.run_bind_of_eq (Parser.run_slot_of_whole htrail), Parser.run_pure]
  rw [parse_eq_ok, readTo, pack, List.append_assoc, hvalue]

end Value

end EnvManifest
