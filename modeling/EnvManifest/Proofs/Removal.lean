import EnvManifest.Proofs.Comments.Layout
import EnvManifest.Proofs.Edit.Leave
import EnvManifest.Proofs.Edit.Path
import EnvManifest.Proofs.Gap.SameLine
import Mathlib.Data.List.InsertIdx

/-!
# Taking out a child

A child is taken out of an object or array anywhere in a document, and the document is laid out.
This file is about what is left: the outline without that child and with everything else in
place (`Outline.removeAt?`), in the tree always, and in the text that is written whenever the
slots that the removal glues go together (`Value.exists_parse_removal`).

Glued are the comment on the line of the token in front of the child, which is kept, and the
slot behind the child. They may not go together (`Composite.Mends`): a line comment is kept
without its newline, so that it takes in the next child or the bracket if the slot behind does
not begin a line (`Value.not_parse_removal`), and the slot in front of the bracket may be the
end of a block comment that began behind the child. Where the slot behind the child does begin
a line, they go together (`Composite.mends_of_startsLine`).
-/

namespace EnvManifest

/-! ### Outlines without a child -/

namespace Outline

/-- The outline without the child at a place. -/
def removeChild? (i : Nat) : Outline → Option Outline
  | .object ms => if i < ms.length then some (.object (ms.eraseIdx i)) else none
  | .array es => if i < es.length then some (.array (es.eraseIdx i)) else none
  | _ => none

/-- **The outline without the child at a place** of what a path leads to; everything else is as
it was, in order. -/
def removeAt? (path : List PathItem) (i : Nat) (o : Outline) : Option Outline :=
  o.updateAt? (removeChild? i) path

end Outline

/-! ### Slots that go together -/

namespace Composite

variable {κ : Type}

/-- **The slots that are glued go together** when the child at a place is taken out: the comment
that is kept, and the slot behind the child. In front of the closing bracket a line comment may
be left open if what is left goes on several lines; and there may be nothing left that layout
keeps. -/
def Mends (c : Composite κ Node) (i : Nat) : Prop :=
  match c.children.drop i with
  | [] => True
  | [removed] =>
    Closes (c.remove i).isMultiline [] (sameLine removed.lead ++ c.closing) ∨ (c.remove i).Emptied
  | removed :: next :: _ => Gap (sameLine removed.lead ++ next.lead)

instance (c : Composite κ Node) (i : Nat) : Decidable (c.Mends i) := by
  unfold Mends
  split <;> infer_instance

/-- What is kept of a slot is whole, so that a line behind it begins as it did. -/
theorem gap_sameLine_append {lead next : Text} (hlead : Gap lead) (hnext : Gap next)
    (h : Text.StartsLine next) : Gap (sameLine lead ++ next) := by
  have hkept : Whole (sameLine lead) := whole_sameLine hlead.whole
  have hends : EndsBefore (sameLine lead) next := Or.inr ⟨hkept, h⟩
  exact hends.gap_append hnext

/-- **The slots go together where a line begins** behind the child that is taken out. -/
theorem mends_of_startsLine {c : Composite κ Node} {i : Nat} (hlead : ∀ m ∈ c.children, Gap m.lead)
    (hclosing : Gap c.closing)
    (h : Text.StartsLine (nextSlot c.closing (c.children.drop (i + 1)))) : c.Mends i := by
  have hdrop : ∀ m ∈ c.children.drop i, Gap m.lead := fun m hm => hlead m (List.mem_of_mem_drop hm)
  rw [← List.tail_drop] at h
  rw [Mends]
  split
  · trivial
  · rename_i removed heq
    rw [heq] at hdrop h
    have hremoved : Gap removed.lead := hdrop removed List.mem_cons_self
    exact Or.inl (closes_of_gap .nil (gap_sameLine_append hremoved hclosing h))
  · rename_i removed next rest heq
    rw [heq] at hdrop h
    obtain ⟨hremoved, hnext, -⟩ := by simpa only [List.forall_mem_cons] using hdrop
    exact gap_sameLine_append hremoved hnext h

variable [Label κ]

/-- Behind gaps, all depends on the slot in front of the bracket. -/
theorem trailsLegible_of_forall_gap {several comma : Bool} {closing : Text} {ts : List Text}
    (hts : ∀ t ∈ ts, Gap t) (h : Closes several [] closing) :
    trailsLegible several comma closing ts := by
  match ts with
  | [] => exact h
  | [t] =>
    have ht : Gap t := hts t List.mem_cons_self
    cases comma with
    | true => exact Or.inl ⟨ht, h⟩
    | false =>
      rcases h with ⟨hclosing, -⟩ | ⟨hseveral, hline, -, hclosing⟩
      · exact closes_of_gap ht hclosing
      · exact Or.inr ⟨hseveral, hline, ht, hclosing⟩
  | t :: u :: us =>
    obtain ⟨ht, hts⟩ := List.forall_mem_cons.1 hts
    exact ⟨ht, trailsLegible_of_forall_gap hts h⟩

/-- **What is left is sealed** if the slots go together. -/
theorem Mends.sealed {c : Composite κ Node} {i : Nat} (hc : c.Legible) (h : c.Mends i) :
    (c.remove i).Sealed := by
  have htake : ∀ m ∈ c.children.take i, m.FrontLegible :=
    fun m hm => hc.1 m (List.mem_of_mem_take hm)
  have hsplit := List.take_append_drop i c.children
  obtain ⟨hfront, htrails⟩ := hc
  rw [Mends] at h
  -- there is no such child, it is the last one, or another one is behind it
  split at h
  · rename_i hdrop
    rw [remove, hdrop]
    exact Or.inl ⟨hfront, trailsLegible_mono (fun _ ht => ht.several) (fun _ ht => ht) htrails⟩
  · rename_i removed hdrop
    refine h.imp_left fun hcloses => ?_
    generalize (c.remove i).isMultiline = several at hcloses ⊢
    rw [← hsplit, hdrop, List.map_append, trailsLegible_append (by simp)] at htrails
    rw [remove, hdrop]
    exact ⟨htake, trailsLegible_of_forall_gap htrails.1 hcloses⟩
  · rename_i removed next rest hdrop
    have hdrop' : ∀ m ∈ c.children.drop i, m.FrontLegible :=
      fun m hm => hfront m (List.mem_of_mem_drop hm)
    rw [hdrop] at hdrop'
    obtain ⟨-, hnext, hrest⟩ := by simpa only [List.forall_mem_cons] using hdrop'
    rw [← hsplit, hdrop, List.map_append, trailsLegible_append (by simp)] at htrails
    obtain ⟨hbefore, -, hbehind⟩ := htrails
    left
    generalize (c.remove i).isMultiline = several
    rw [remove, hdrop]
    refine ⟨fun m hm => ?_, ?_⟩
    · rcases List.mem_append.1 hm with hm | hm
      · exact htake m hm
      · rcases List.mem_cons.1 hm with rfl | hm
        · exact ⟨h, hnext.2⟩
        · exact hrest m hm
    · rw [List.map_append, trailsLegible_append (by simp)]
      exact ⟨hbefore, trailsLegible_mono (fun _ ht => ht.several) (fun _ ht => ht) hbehind⟩

end Composite

/-! ### Nodes without a child -/

namespace Node

/-- The node without the child at a place. -/
def removeChild? (i : Nat) : Node → Option Node
  | .object ms => if i < ms.children.length then some (.object (ms.remove i)) else none
  | .array es => if i < es.children.length then some (.array (es.remove i)) else none
  | _ => none

/-- The slots that are glued go together when the child at a place is taken out. -/
def Mends (i : Nat) : Node → Prop
  | .object ms => ms.Mends i
  | .array es => es.Mends i
  | _ => True

instance (i : Nat) : (n : Node) → Decidable (n.Mends i)
  | .object ms => inferInstanceAs (Decidable (ms.Mends i))
  | .array es => inferInstanceAs (Decidable (es.Mends i))
  | .null | .bool _ | .number _ | .string _ => inferInstanceAs (Decidable True)

theorem outline_removeChild? (i : Nat) (n : Node) :
    (n.removeChild? i).map outline = n.outline.removeChild? i := by
  cases n with
  | object ms =>
    have hnodes := congrArg (List.map fun p : Key × Node => (p.1.name, p.2.outline))
      (Composite.nodes_remove ms i)
    rw [List.map_map, List.map_map] at hnodes
    rw [removeChild?, outline_object, Outline.removeChild?, List.length_map]
    split
    · rw [Option.map_some, outline_object, List.eraseIdx_map]
      exact congrArg (fun l => some (Outline.object l)) hnodes
    · rfl
  | array es =>
    have hnodes := congrArg (List.map fun p : Unit × Node => p.2.outline)
      (Composite.nodes_remove es i)
    rw [List.map_map, List.map_map] at hnodes
    rw [removeChild?, outline_array, Outline.removeChild?, List.length_map]
    split
    · rw [Option.map_some, outline_array, List.eraseIdx_map]
      exact congrArg (fun l => some (Outline.array l)) hnodes
    · rfl
  | null | bool b | number t | string l => rfl

theorem fits_removeChild? {i d : Nat} {n n' : Node} (h : n.Fits d)
    (hn : n.removeChild? i = some n') : n'.Fits d := by
  cases n with
  | object ms =>
    obtain ⟨e, rfl, hms⟩ := fits_object_iff.1 h
    obtain ⟨-, rfl⟩ := Option.ite_some_none_eq_some.1 hn
    exact fits_object.2 (Composite.fits_remove hms i)
  | array es =>
    obtain ⟨e, rfl, hes⟩ := fits_array_iff.1 h
    obtain ⟨-, rfl⟩ := Option.ite_some_none_eq_some.1 hn
    exact fits_array.2 (Composite.fits_remove hes i)
  | null | bool b | number t | string l => simp [removeChild?] at hn

/-- **A node without a child is pliant** if the slots go together. -/
theorem pliant_removeChild? {i : Nat} {n n' : Node} (h : Everywhere LaidOut n) (hmends : n.Mends i)
    (hn : n.removeChild? i = some n') : n'.Pliant := by
  cases n with
  | object ms =>
    obtain ⟨-, rfl⟩ := Option.ite_some_none_eq_some.1 hn
    exact pliant_of_left h (Composite.Left.remove (still_object h) (Or.inl rfl) i)
      (hmends.sealed (workable_object h).legible)
  | array es =>
    obtain ⟨-, rfl⟩ := Option.ite_some_none_eq_some.1 hn
    exact pliant_remove h (hmends.sealed (workable_array h).legible)
  | null | bool b | number t | string l => simp [removeChild?] at hn

end Node

/-! ### Documents without a child -/

namespace Value

/-- The slots that are glued go together when a child is taken out of what a path leads to. -/
def MendsAt (v : Value) (path : List PathItem) (i : Nat) : Prop :=
  ∀ a ∈ v.at? path, a.node.Mends i

instance (v : Value) (path : List PathItem) (i : Nat) : Decidable (v.MendsAt path i) :=
  inferInstanceAs (Decidable (∀ a ∈ v.at? path, a.node.Mends i))

theorem removeAt?_eq (v : Value) (path : List PathItem) (i : Nat) :
    v.removeAt? path i =
      (v.node.updateAt? (Node.removeChild? i) path).map fun n => { v with node := n } :=
  v.updateNode?_eq path (Node.removeChild? i)

/-- **Taking out a child takes out that child only**, from any object or array of a document that
was read. The tree that is laid out has everything else, in order; and so has the document that
is read of it, if the slots that are glued go together. -/
theorem exists_parse_removal {s : Text} {v : Value} {path : List PathItem} {i : Nat} {o : Outline}
    (h : parse s = .ok v) (ho : v.node.outline.removeAt? path i = some o) :
    ∃ v', v.removeAt? path i = some v' ∧ v'.format.node.outline = o ∧
      (v.MendsAt path i → ∃ w, parse v'.format.pack = .ok w ∧ w.node.outline = o) := by
  obtain ⟨-, hlead, hnode, htrail, -⟩ := orderly_of_readTo (parse_eq_ok.1 h)
  have hlaid : Node.Everywhere Node.LaidOut v.node := hnode.legible.and hnode.atRest
  have houtline := Node.outline_updateAt? (Node.outline_removeChild? i) path v.node
  obtain ⟨n, hn, rfl⟩ := Option.map_eq_some_iff.1 (houtline.trans ho)
  refine ⟨{ v with node := n }, ?_, outline_format _, fun hmends => ?_⟩
  · rw [removeAt?_eq, hn]
    rfl
  · have hfits : n.Fits maxDepth :=
      Node.fits_updateAt? (fun _ _ _ _ => Node.fits_removeChild?) hnode.fits hn
    have hpliant : n.Pliant := Around.pliant_updateAt? (a := .ofValue v) hlaid
      (fun a ha hlaid' k hk => Node.pliant_removeChild? hlaid' (hmends a ha) hk) hn
    exact exists_parse_format_of_pliant (v := { v with node := n }) hlead hfits hpliant htrail

/-- A comment is kept on the line of the member that it is about, and the next one is on a line of
its own. -/
theorem exists_parse_removal_ownLine :
    ∃ v o, parse "\x7b\"a\": 1, // one\n\"b\": 2,\n\"c\": 3\x7d".toList = .ok v ∧
      v.node.outline.removeAt? [] 1 = some o ∧ ∃ v', v.removeAt? [] 1 = some v' ∧
        v'.format.node.outline = o ∧ ∃ w, parse v'.format.pack = .ok w ∧ w.node.outline = o := by
  obtain ⟨v, hv, o, ho, hmends⟩ : ∃ v,
      parse "\x7b\"a\": 1, // one\n\"b\": 2,\n\"c\": 3\x7d".toList = .ok v ∧
      ∃ o, v.node.outline.removeAt? [] 1 = some o ∧ v.MendsAt [] 1 := by
    decide +kernel
  obtain ⟨v', hv', houtline, hread⟩ := exists_parse_removal hv ho
  exact ⟨v, o, hv, ho, v', hv', houtline, hread hmends⟩

/-- **The comment that is kept may swallow the next child**: the text is read without it. -/
theorem not_parse_removal :
    ∃ v o v' w, parse "\x7b\n  \"a\": 1, // one\n  \"b\": 2, \"c\": 3\n\x7d".toList = .ok v ∧
      v.node.outline.removeAt? [] 1 = some o ∧ v.removeAt? [] 1 = some v' ∧
        parse v'.format.pack = .ok w ∧ w.node.outline ≠ o := by
  obtain ⟨v, hv, o, ho, v', hv', w, hw, hnames⟩ : ∃ v,
      parse "\x7b\n  \"a\": 1, // one\n  \"b\": 2, \"c\": 3\n\x7d".toList = .ok v ∧
      ∃ o, v.node.outline.removeAt? [] 1 = some o ∧ ∃ v', v.removeAt? [] 1 = some v' ∧
        ∃ w, parse v'.format.pack = .ok w ∧ w.node.outline.names ≠ o.names := by
    decide +kernel
  exact ⟨v, o, v', w, hv, ho, hv', hw, mt (congrArg Outline.names) hnames⟩

end Value

end EnvManifest
