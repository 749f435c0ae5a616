import EnvManifest.Document.Parser
import EnvManifest.Proofs.Computed
import EnvManifest.Proofs.Legible
import EnvManifest.Proofs.Reading.Number

/-!
# What a parser answers

Whatever `Parser.node` reads is written back as it stood in the document, and the tree
it answers is orderly (`Parser.orderly_of_run_node`). The heart of it is the loop over the
children of a composite, `orderly_of_readChildren`: every slot it passes over ends up
in one place of the tree, and the place where a slot is cut in two, behind a last child
without a comma, is the one where a legible composite asks only for the two together.

`Value.pack_of_parse` is what this says of a document.
-/

namespace EnvManifest

/-! ### Putting children together -/

/-- A child is as a parser leaves it, with a node as `inner` says. -/
structure Child.Orderly {κ ν : Type} [Label κ] [Named κ] (inner : ν → Prop) (c : Child κ ν) :
    Prop where
  front : c.FrontLegible
  trail : Gap c.trail
  atRest : c.fresh = false
  inner : c.Fits inner

namespace Composite

/-- A child in front of others is written in front of them, with a comma between. -/
theorem pack_cons {κ : Type} [Label κ] {c : Child κ Text} {rest : Composite κ Text}
    (h : rest.children = [] → rest.trailingComma = true) :
    (rest.cons c).pack = c.pack ++ ',' :: rest.pack := by
  obtain ⟨cs, closing, comma, dirty⟩ := rest
  cases cs with
  | nil =>
    obtain rfl : comma = true := h rfl
    simp [Composite.cons, pack_singleton, pack_nil]
  | cons d cs => simp [Composite.cons, pack_cons_cons]

/-- A last child is written as it was read, however its trail is cut. -/
theorem pack_last {κ : Type} [Label κ] (c : Child κ Text) :
    (Composite.last c).pack = c.pack := by
  simp [Composite.last, pack_singleton, Child.pack, Text.cutAtNewline_append]

variable {κ ν : Type} [Label κ] [Named κ] {inner : ν → Prop}

theorem orderly_nil {closing : Text} {comma : Bool} (h : Gap closing) :
    (⟨[], closing, comma, false⟩ : Composite κ ν).Orderly inner :=
  ⟨⟨by simp, closes_of_gap .nil h⟩, by simp [AtRest], by simp⟩

/-- A gap cut at its first newline can be read back. -/
theorem closes_cutAtNewline {t : Text} (h : Gap t) :
    Closes false (Text.cutAtNewline t).1 (Text.cutAtNewline t).2 := by
  refine Or.inl ⟨by rwa [Text.cutAtNewline_append], ?_⟩
  by_cases ht : '\n' ∈ t
  · obtain ⟨body, r, rfl, hbody⟩ := List.eq_append_cons_of_mem ht
    exact Or.inr (by simp [cutAtNewline_append_newline hbody])
  · rw [cutAtNewline_of_not_mem ht]
    exact Or.inl h.whole

theorem orderly_last {c : Child κ ν} (h : c.Orderly inner) :
    (Composite.last c).Orderly inner := by
  refine ⟨⟨?_, ?_⟩, ⟨rfl, ?_⟩, ?_⟩
  · simpa [Composite.last, Child.FrontLegible] using h.front
  · exact closes_cutAtNewline h.trail
  · simpa [Composite.last] using h.atRest
  · simpa [Composite.last, Child.Fits] using h.inner

theorem orderly_cons {c : Child κ ν} {rest : Composite κ ν} (hc : c.Orderly inner)
    (hrest : rest.Orderly inner) (h : rest.children = [] → rest.trailingComma = true) :
    (rest.cons c).Orderly inner := by
  obtain ⟨cs, closing, comma, dirty⟩ := rest
  obtain ⟨⟨hfront, htrails⟩, ⟨hclean, hfresh⟩, hinner⟩ := hrest
  refine ⟨⟨List.forall_mem_cons.2 ⟨hc.front, hfront⟩, ?_⟩,
    ⟨hclean, List.forall_mem_cons.2 ⟨hc.atRest, hfresh⟩⟩,
    List.forall_mem_cons.2 ⟨hc.inner, hinner⟩⟩
  cases cs with
  | nil =>
    obtain rfl : comma = true := h rfl
    exact Or.inl ⟨hc.trail, htrails⟩
  | cons d cs => exact ⟨hc.trail, htrails⟩

end Composite

/-! ### The loop over children -/

section Children

variable {κ : Type} [Label κ] [Named κ]

/-- What a label parser has to answer: the label as it stood there, with its names
spelled as the grammar wants it, and with gaps in its slots unless the input ends. -/
def Inside.Sound (i : Inside κ) : Prop :=
  ∀ {s rest : Text} {k : κ}, i.label.run s = .ok (k, rest) →
    Label.pack k ++ rest = s ∧ (∀ l ∈ Named.names k, IsLiteral l) ∧
      (rest ≠ [] → ∀ t ∈ Label.slots k, Gap t)

variable {i : Inside κ} {node : Parser Node} {inner : Node → Prop}

theorem ne_nil_of_run {α : Type} {p : Parser α} {s rest : Text} {a : α}
    (h : p.run s = .ok (a, rest)) (hrest : rest ≠ []) : s ≠ [] := by
  rintro rfl
  have hlength := p.length_le h
  exact hrest (List.length_eq_zero_iff.1 (Nat.le_zero.1 hlength))

theorem orderly_of_run_child (hi : i.Sound)
    (hnode : ∀ {s rest n}, node.run s = .ok (n, rest) → n.pack ++ rest = s ∧ inner n)
    {lead s rest : Text} {c : Child κ Node} (hlead : Gap lead) (hrest : rest ≠ [])
    (h : (i.child node lead).run s = .ok (c, rest)) :
    c.lead = lead ∧ (c.map Node.pack).pack ++ rest = lead ++ s ∧ c.Orderly inner := by
  obtain ⟨k, s₁, hlabel, h⟩ := Parser.run_bind_eq_ok.1 h
  obtain ⟨n, s₂, hn, h⟩ := Parser.run_bind_eq_ok.1 h
  obtain ⟨trail, s₃, hslot, hpure⟩ := Parser.run_bind_eq_ok.1 h
  obtain ⟨rfl, rfl⟩ := by simpa using hpure
  have hs₂ := ne_nil_of_run hslot hrest
  obtain ⟨hpack, hnames, hslots⟩ := hi hlabel
  obtain ⟨happ, hinner⟩ := hnode hn
  obtain ⟨htrail, -⟩ := Parser.gap_of_run_slot_of_ne_nil hslot hrest
  refine ⟨rfl, ?_, ⟨hlead, hslots (ne_nil_of_run hn hs₂)⟩, htrail, rfl, hnames, hinner⟩
  simp [Child.pack, ← hpack, ← happ, ← (Parser.gap_of_run_slot hslot).1]

/-- **What is read between two brackets is one of three things**: a gap and the closing bracket, a
child in front of a comma and what is read behind it, or a child in front of the closing bracket. -/
theorem readChildren_induction {motive : Bool → Text → Composite κ Node → Text → Prop}
    (hi : i.Sound)
    (hnode : ∀ {s rest n}, node.run s = .ok (n, rest) → n.pack ++ rest = s ∧ inner n)
    (hclose : ∀ {first lead rest}, Gap lead →
      motive first (lead ++ i.close :: rest) ⟨[], lead, !first, false⟩ rest)
    (hcomma : ∀ {first s rest c r}, Child.Orderly inner c → motive false s r rest →
      motive first ((c.map Node.pack).pack ++ ',' :: s) (r.cons c) rest)
    (hlast : ∀ {first rest c}, Child.Orderly inner c →
      motive first ((c.map Node.pack).pack ++ i.close :: rest) (Composite.last c) rest)
    {first : Bool} {s rest : Text} {c : Composite κ Node}
    (h : readChildren i node first s = .ok (c, rest)) : motive first s c rest := by
  -- a child, with the slot in front of it, and what it was read off
  have hchild : ∀ {s lead s₁ c d s₂}, Parser.slot.run s = .ok (lead, s₁) →
      (i.child node lead).run s₁ = .ok (c, d :: s₂) →
      (c.map Node.pack).pack ++ d :: s₂ = s ∧ Child.Orderly inner c := by
    intro s lead s₁ c d s₂ hlead hrun
    obtain ⟨hgap, -⟩ :=
      Parser.gap_of_run_slot_of_ne_nil hlead (ne_nil_of_run hrun (List.cons_ne_nil _ _))
    obtain ⟨-, hpack, hc⟩ := orderly_of_run_child hi hnode hgap (List.cons_ne_nil _ _) hrun
    exact ⟨hpack.trans (Parser.gap_of_run_slot hlead).1, hc⟩
  fun_induction readChildren i node first s generalizing c rest with
  | case1 => simp at h
  | case2 first s lead s₁ hlead hhead =>
    obtain ⟨rfl, rfl⟩ := by simpa using h
    obtain ⟨s₁, rfl⟩ := List.head?_eq_some_iff.1 hhead
    obtain ⟨rfl, -⟩ := Parser.gap_of_run_slot hlead
    exact hclose (Parser.gap_of_run_slot_of_ne_nil hlead (by simp)).1
  | case3 => simp at h
  | case4 => simp at h
  | case5 first s lead s₁ hlead _ c₁ s₂ r left hread hrun ih =>
    obtain ⟨rfl, rfl⟩ := by simpa using h
    obtain ⟨rfl, hc⟩ := hchild hlead hrun
    exact hcomma hc (ih hread)
  | case6 => simp at h
  | case7 first s lead s₁ hlead _ c₁ s₂ hrun _ =>
    obtain ⟨rfl, rfl⟩ := by simpa using h
    obtain ⟨rfl, hc⟩ := hchild hlead hrun
    exact hlast hc
  | case8 => simp at h

/-- **What is read between two brackets is written back as it stood there**, and is
orderly. A composite without children has a trailing comma if its bracket is not the
first thing that is read. -/
theorem orderly_of_readChildren (hi : i.Sound)
    (hnode : ∀ {s rest n}, node.run s = .ok (n, rest) → n.pack ++ rest = s ∧ inner n)
    {first : Bool} {s rest : Text} {c : Composite κ Node}
    (h : readChildren i node first s = .ok (c, rest)) :
    (c.map Node.pack).pack ++ i.close :: rest = s ∧ c.Orderly inner ∧
      (c.children = [] → c.trailingComma = !first) := by
  refine readChildren_induction (motive := fun first s c rest =>
    (c.map Node.pack).pack ++ i.close :: rest = s ∧ c.Orderly inner ∧
      (c.children = [] → c.trailingComma = !first)) hi hnode ?close ?comma ?last h
  case close =>
    intro first lead rest hgap
    refine ⟨?_, Composite.orderly_nil hgap, fun _ => rfl⟩
    simp [Composite.map_mk, Composite.pack_nil]
  case comma =>
    rintro first s rest c r hc ⟨happ, hrest, hnil⟩
    -- the child that is read first is put in front of those read after its comma
    refine ⟨?_, Composite.orderly_cons hc hrest hnil, by simp [Composite.cons]⟩
    change ((r.map Node.pack).cons (c.map Node.pack)).pack ++ _ = _
    rw [Composite.pack_cons (by simpa using hnil), List.append_assoc, List.cons_append, happ]
  case last =>
    intro first rest c hc
    refine ⟨?_, Composite.orderly_last hc, by simp [Composite.last]⟩
    change (Composite.last (c.map Node.pack)).pack ++ _ = _
    rw [Composite.pack_last]

end Children

namespace Parser

/-! ### Labels -/

theorem insideObject_sound : insideObject.Sound := by
  intro s rest k h
  have h : key.run s = .ok (k, rest) := h
  rw [key, run_bind, run_peek] at h
  by_cases hquote : s.head? = some '"'
  · simp only [hquote, if_true] at h
    obtain ⟨name, s₁, hname, h⟩ := run_bind_eq_ok.1 h
    obtain ⟨before, s₂, hbefore, h⟩ := run_bind_eq_ok.1 h
    obtain ⟨happ, hliteral⟩ := isLiteral_of_run hquote hname
    rw [run_bind, run_peek] at h
    by_cases hcolon : s₂.head? = some ':'
    · obtain ⟨s₂, rfl⟩ := List.head?_eq_some_iff.1 hcolon
      simp only [List.head?_cons, if_true] at h
      obtain ⟨⟨⟩, s₃, hskip, h⟩ := run_bind_eq_ok.1 h
      obtain rfl : s₂ = s₃ := by simpa using hskip
      obtain ⟨after, s₄, hafter, hpure⟩ := run_bind_eq_ok.1 h
      obtain ⟨rfl, rfl⟩ := by simpa using hpure
      obtain ⟨hgap, -⟩ := gap_of_run_slot_of_ne_nil hbefore (List.cons_ne_nil _ _)
      refine ⟨?_, by simpa [Named.names] using hliteral, fun hrest => ?_⟩
      · simp [Label.pack, ← happ, ← (gap_of_run_slot hbefore).1, ← (gap_of_run_slot hafter).1]
      · obtain ⟨hgap', -⟩ := gap_of_run_slot_of_ne_nil hafter hrest
        simpa [Label.slots] using ⟨hgap, hgap'⟩
    · simp [hcolon] at h
  · simp [hquote] at h

theorem insideArray_sound : insideArray.Sound := by
  intro s rest k h
  obtain rfl : s = rest := by simpa [insideArray] using h
  exact ⟨rfl, by simp [Named.names], by simp [Label.slots]⟩

/-! ### Nodes -/

/-- A word that stands for a node. -/
theorem run_word_eq_ok {w s rest : Text} {n n' : Node}
    (h : (do word w; pure n : Parser Node).run s = .ok (n', rest)) : n' = n ∧ w ++ rest = s := by
  obtain ⟨⟨⟩, s₁, hword, hpure⟩ := run_bind_eq_ok.1 h
  obtain ⟨rfl, rfl⟩ := by simpa using hpure
  simp only [word] at hword
  split at hword
  · rename_i r hr
    obtain rfl : r = s₁ := by simpa using hword
    exact ⟨rfl, Text.append_of_without? hr⟩
  · simp at hword

/-- A leaf that is spelled as the grammar wants it is orderly. -/
theorem orderly_leaf (n : Node) {d : Nat} (hfits : n.Fits d) (hobject : n.object? = none)
    (harray : n.array? = none) : n.Orderly d := by
  cases n with
  | object ms => simp [Node.object?] at hobject
  | array es => simp [Node.array?] at harray
  | null | bool b | number t | string l =>
    exact ⟨hfits, (Node.everywhere_of_inner_eq_nil rfl).2 trivial,
      (Node.everywhere_of_inner_eq_nil rfl).2 trivial⟩

/-- **What one layer of nodes answers**: an object or array, with what was read between its
brackets, or a leaf, which is written back as it stood there. -/
theorem cases_of_run_nodeAround {inner : Option (Parser Node)} {s rest : Text} {n : Node}
    (h : (nodeAround inner).run s = .ok (n, rest)) :
    (∃ node ∈ inner, ∃ s₁ ms, s = '\x7b' :: s₁ ∧ n = .object ms ∧
      readChildren insideObject node true s₁ = .ok (ms, rest)) ∨
    (∃ node ∈ inner, ∃ s₁ es, s = '[' :: s₁ ∧ n = .array es ∧
      readChildren insideArray node true s₁ = .ok (es, rest)) ∨
    n.object? = none ∧ n.array? = none ∧ n.pack ++ rest = s ∧ ∀ d, n.Fits d := by
  unfold nodeAround at h
  rw [run_bind, run_peek] at h
  simp only at h
  split at h
  · -- an object
    rename_i hhead
    split at h
    · rename_i node
      obtain ⟨s, rfl⟩ := List.head?_eq_some_iff.1 hhead
      obtain ⟨⟨⟩, s₁, hskip, h⟩ := run_bind_eq_ok.1 h
      obtain rfl : s = s₁ := by simpa using hskip
      obtain ⟨ms, s₂, hread, hpure⟩ := run_bind_eq_ok.1 h
      obtain ⟨rfl, rfl⟩ := by simpa using hpure
      exact Or.inl ⟨node, rfl, s, ms, rfl, rfl, hread⟩
    · simp at h
  · -- an array
    rename_i hhead
    split at h
    · rename_i node
      obtain ⟨s, rfl⟩ := List.head?_eq_some_iff.1 hhead
      obtain ⟨⟨⟩, s₁, hskip, h⟩ := run_bind_eq_ok.1 h
      obtain rfl : s = s₁ := by simpa using hskip
      obtain ⟨es, s₂, hread, hpure⟩ := run_bind_eq_ok.1 h
      obtain ⟨rfl, rfl⟩ := by simpa using hpure
      exact Or.inr (Or.inl ⟨node, rfl, s, es, rfl, rfl, hread⟩)
    · simp at h
  · -- a string
    rename_i hhead
    obtain ⟨l, s₁, hliteral, hpure⟩ := run_bind_eq_ok.1 h
    obtain ⟨rfl, rfl⟩ := by simpa using hpure
    obtain ⟨happ, hl⟩ := isLiteral_of_run hhead hliteral
    exact Or.inr (Or.inr ⟨rfl, rfl, happ, fun _ => hl⟩)
  · obtain ⟨rfl, happ⟩ := run_word_eq_ok h
    exact Or.inr (Or.inr ⟨rfl, rfl, happ, fun _ => trivial⟩)
  · obtain ⟨rfl, happ⟩ := run_word_eq_ok h
    exact Or.inr (Or.inr ⟨rfl, rfl, happ, fun _ => trivial⟩)
  · obtain ⟨rfl, happ⟩ := run_word_eq_ok h
    exact Or.inr (Or.inr ⟨rfl, rfl, happ, fun _ => trivial⟩)
  · -- a number, or nothing
    split at h
    · obtain ⟨t, s₁, hnumber, hpure⟩ := run_bind_eq_ok.1 h
      obtain ⟨rfl, rfl⟩ := by simpa using hpure
      obtain ⟨happ, ht⟩ := isNumber_of_run hnumber
      exact Or.inr (Or.inr ⟨rfl, rfl, happ, fun _ => ht⟩)
    · simp at h
  · simp at h

/-- One layer of nodes answers orderly trees if the nodes in it do. -/
theorem orderly_of_run_nodeAround {inner : Option (Parser Node)} {d : Nat}
    (hinner : ∀ node ∈ inner, ∃ e, d = e + 1 ∧ ∀ {s rest n}, node.run s = .ok (n, rest) →
      n.pack ++ rest = s ∧ n.Orderly e)
    {s rest : Text} {n : Node} (h : (nodeAround inner).run s = .ok (n, rest)) :
    n.pack ++ rest = s ∧ n.Orderly d := by
  rcases cases_of_run_nodeAround h with ⟨node, hmem, s₁, ms, rfl, rfl, hread⟩ |
    ⟨node, hmem, s₁, es, rfl, rfl, hread⟩ | ⟨hobject, harray, happ, hfits⟩
  · obtain ⟨e, rfl, hnode⟩ := hinner node hmem
    obtain ⟨hpack, horderly, -⟩ := orderly_of_readChildren insideObject_sound hnode hread
    refine ⟨?_, Node.orderly_object.2 horderly⟩
    simpa [insideObject] using hpack
  · obtain ⟨e, rfl, hnode⟩ := hinner node hmem
    obtain ⟨hpack, horderly, -⟩ := orderly_of_readChildren insideArray_sound hnode hread
    refine ⟨?_, Node.orderly_array.2 horderly⟩
    simpa [insideArray] using hpack
  · exact ⟨happ, orderly_leaf n (hfits d) hobject harray⟩

/-- **A node is written back as it was read, and is orderly.** -/
theorem orderly_of_run_node {d : Nat} {s rest : Text} {n : Node}
    (h : (node d).run s = .ok (n, rest)) : n.pack ++ rest = s ∧ n.Orderly d := by
  induction d generalizing s rest n with
  | zero => exact orderly_of_run_nodeAround (by simp) h
  | succ d ih =>
    refine orderly_of_run_nodeAround (fun node hnode => ⟨d, rfl, ?_⟩) h
    obtain rfl := Option.mem_some_iff.1 hnode
    exact ih

/-- A node is not read off nothing. -/
theorem run_node_nil (d : Nat) : (node d).run [] = .error ⟨.unexpected .value, []⟩ := by
  cases d <;> simp [node, nodeAround]

end Parser

/-! ### Documents -/

namespace Value

/-- A document is a node between two slots. -/
theorem run_of_readTo {d : Nat} {s : Text} {v : Value} (h : readTo d s = .ok v) :
    ∃ s₁ s₂, Parser.slot.run s = .ok (v.lead, s₁) ∧ (Parser.node d).run s₁ = .ok (v.node, s₂) ∧
      Parser.slot.run s₂ = .ok (v.trail, []) ∧ v.fresh = false := by
  simp only [readTo] at h
  split at h
  · rename_i v' hrun
    obtain rfl : v' = v := by simpa using h
    obtain ⟨lead, s₁, hlead, hrun⟩ := Parser.run_bind_eq_ok.1 hrun
    obtain ⟨n, s₂, hnode, hrun⟩ := Parser.run_bind_eq_ok.1 hrun
    obtain ⟨trail, s₃, htrail, hpure⟩ := Parser.run_bind_eq_ok.1 hrun
    obtain ⟨rfl, rfl⟩ := by simpa using hpure
    exact ⟨s₁, s₂, hlead, hnode, htrail, rfl⟩
  · simp at h
  · simp at h

/-- **What reading a document answers**: a tree between two slots, which is written back
as the document and is orderly. -/
theorem orderly_of_readTo {d : Nat} {s : Text} {v : Value} (h : readTo d s = .ok v) :
    v.pack = s ∧ Gap v.lead ∧ v.node.Orderly d ∧ Whole v.trail ∧ v.fresh = false := by
  obtain ⟨s₁, s₂, hlead, hnode, htrail, hfresh⟩ := run_of_readTo h
  have hs₁ : s₁ ≠ [] := by
    rintro rfl
    simp [Parser.run_node_nil] at hnode
  obtain ⟨happ, hn⟩ := Parser.orderly_of_run_node hnode
  obtain ⟨happ', htrail'⟩ := Parser.gap_of_run_slot htrail
  refine ⟨?_, (Parser.gap_of_run_slot_of_ne_nil hlead hs₁).1, hn, ?_, hfresh⟩
  · have happ'' := (Parser.gap_of_run_slot hlead).1
    rw [← happ'', ← happ, ← happ']
    simp [pack]
  · exact htrail'.elim (fun hgap => hgap.1.whole) fun hwhole => hwhole.1

theorem parse_eq_ok {s : Text} {v : Value} : parse s = .ok v ↔ readTo maxDepth s = .ok v := by
  simp only [parse, read]
  split <;> simp [*]

/-- **A document is written back as it was read**, whatever its comments, blanks,
escapes, spellings and trailing commas. -/
theorem pack_of_parse {s : Text} {v : Value} (h : parse s = .ok v) : v.pack = s :=
  (orderly_of_readTo (parse_eq_ok.1 h)).1

/-- A document with a block comment behind a last member, an escaped name and a
trailing comma. -/
theorem pack_of_parse_commented :
    ∃ v, parse "// a\n\x7b \"\\u0061\": [-0.5e1,] /* b\n*/ \x7d".toList = .ok v ∧
      v.pack = "// a\n\x7b \"\\u0061\": [-0.5e1,] /* b\n*/ \x7d".toList := by
  obtain ⟨v, hv⟩ : ∃ v,
      parse "// a\n\x7b \"\\u0061\": [-0.5e1,] /* b\n*/ \x7d".toList = .ok v := by
    decide +kernel
  exact ⟨v, hv, pack_of_parse hv⟩

end Value

end EnvManifest
