import EnvManifest.Document.Edit
import EnvManifest.Proofs.Layout.View
import EnvManifest.Proofs.Legible
import Mathlib.Data.List.Forall2

/-!
# What layout does not write anew

Layout goes through the whole tree, but it only writes anew what an edit has marked. A node
without a mark is the same text before and after (`Node.LaysOut.pack_eq`), wherever it ends up.
A composite keeps its children, so a member of an object can be followed through layout by its
name (`Member.LaysOut`); and if the object has no mark itself, nothing around the nodes of its
members is written anew either (`Member.StaysPut`), whatever has happened to the nodes.
-/

namespace EnvManifest

/-! ### Nodes without a mark -/

/-- A child as it is written. -/
def Child.written {κ : Type} [Label κ] (c : Child κ Node) : Text :=
  (c.map Node.pack).pack

namespace Composite

variable {κ : Type}

theorem map_of_forall_eq {f : Node → Node} {c : Composite κ Node}
    (h : ∀ m ∈ c.children, f m.node = m.node) : c.map f = c := by
  have hchildren : c.children.map (Child.map f) = c.children.map id :=
    List.map_congr_left fun m hm => by simp [Child.map, h m hm]
  rw [map, hchildren, List.map_id]

variable [Label κ]

/-- A composite is written as its children are. -/
theorem pack_map_congr {c c' : Composite κ Node}
    (h : c'.children.map Child.written = c.children.map Child.written)
    (hclosing : c'.closing = c.closing) (hcomma : c'.trailingComma = c.trailingComma) :
    (c'.map Node.pack).pack = (c.map Node.pack).pack := by
  have hempty : c'.children.isEmpty = c.children.isEmpty := by
    simpa using congrArg List.isEmpty h
  have hpacks : ∀ o : Composite κ Node,
      (o.map Node.pack).children.map Child.pack = o.children.map Child.written := by
    intro o
    rw [children_map, List.map_map]
    rfl
  rw [pack, pack, hpacks, hpacks, h]
  simp [hclosing, hcomma, hempty]

/-- Indenting children writes them as they are if it does so with their nodes. -/
theorem written_indentChildren {step : Text} {cs : List (Child κ Node)}
    (h : ∀ c ∈ cs, ∀ line, (Node.indent step c.node line).pack = c.node.pack) (current : Text) :
    (indentChildren current (cs.map (Child.map (Node.indent step)))).map Child.written =
      cs.map Child.written := by
  induction cs generalizing current with
  | nil => rfl
  | cons c cs ih =>
    obtain ⟨hc, hcs⟩ := List.forall_mem_cons.1 h
    rw [List.map_cons, indentChildren, List.map_cons, List.map_cons, ih hcs]
    simp [Child.written, Child.pack, hc]

/-- A composite without a mark is indented to what is written alike. -/
theorem pack_indent {step : Text} {c : Composite κ Node} (hdirty : c.dirty = false)
    (h : ∀ m ∈ c.children, ∀ line, (Node.indent step m.node line).pack = m.node.pack)
    (line : Text) :
    (((c.map (Node.indent step)).indent step line).map Node.pack).pack =
      (c.map Node.pack).pack := by
  rw [indent, dirty_map, hdirty]
  exact pack_map_congr (written_indentChildren h line) rfl rfl

end Composite

namespace Node

theorem isDirty_of_mem {o : Object} (h : (Node.object o).isDirty = false) {m : Member}
    (hm : m ∈ o.children) : m.node.isDirty = false :=
  (isDirty_eq_false_iff_inner.1 h).2 m.node (List.mem_map_of_mem hm)

/-- A node without a mark is settled. -/
theorem settle_of_not_isDirty (standard : Bool) :
    ∀ n : Node, n.isDirty = false → settle standard n = n := by
  refine induction {
    null := fun _ => rfl
    bool := fun _ _ => rfl
    number := fun _ _ => rfl
    string := fun _ _ => rfl
    object := fun ms ih h => ?_
    array := fun es ih h => ?_ }
  · rw [isDirty_object, Bool.or_eq_false_iff, List.any_eq_false] at h
    rw [settle_object, h.1, if_neg (by simp),
      Composite.map_of_forall_eq fun m hm => ih m hm (by simpa using h.2 m hm)]
  · rw [isDirty_array, Bool.or_eq_false_iff, List.any_eq_false] at h
    rw [settle_array, h.1, if_neg (by simp),
      Composite.map_of_forall_eq fun e he => ih e he (by simpa using h.2 e he)]

/-- A node without a mark is indented to what is written alike. -/
theorem pack_indent_of_not_isDirty (step : Text) :
    ∀ n : Node, n.isDirty = false → ∀ line, (indent step n line).pack = n.pack := by
  refine induction {
    null := fun _ _ => rfl
    bool := fun _ _ _ => rfl
    number := fun _ _ _ => rfl
    string := fun _ _ _ => rfl
    object := fun ms ih h line => ?_
    array := fun es ih h line => ?_ }
  · rw [isDirty_object, Bool.or_eq_false_iff, List.any_eq_false] at h
    rw [indent_object, pack_object, pack_object,
      Composite.pack_indent h.1 fun m hm => ih m hm (by simpa using h.2 m hm)]
  · rw [isDirty_array, Bool.or_eq_false_iff, List.any_eq_false] at h
    rw [indent_array, pack_array, pack_array,
      Composite.pack_indent h.1 fun e he => ih e he (by simpa using h.2 e he)]

/-- What layout makes of a node, in a document with a mark or without one. -/
def LaysOut (n n' : Node) : Prop :=
  n' = n ∨ ∃ standard step line, n' = indent step (settle standard n) line

/-- **Layout does not write a node anew that has no mark.** -/
theorem LaysOut.pack_eq {n n' : Node} (h : n.LaysOut n') (hclean : n.isDirty = false) :
    n'.pack = n.pack := by
  obtain rfl | ⟨standard, step, line, rfl⟩ := h
  · rfl
  · rw [settle_of_not_isDirty standard n hclean, pack_indent_of_not_isDirty step n hclean]

end Node

/-- Laying out a document lays out its node. -/
theorem Value.laysOut_format (v : Value) : v.node.LaysOut v.format.node := by
  rw [format]
  split
  · exact Or.inr ⟨_, _, _, rfl⟩
  · exact Or.inl rfl

/-! ### Following members through layout -/

namespace Member

/-- What layout makes of a member: it keeps the name. -/
structure LaysOut (m m' : Member) : Prop where
  name : m'.label.name = m.label.name
  node : m.node.LaysOut m'.node

/-- What layout makes of a member of an object without a mark: it keeps what is around the
node. -/
structure StaysPut (m m' : Member) : Prop where
  lead : m'.lead = m.lead
  label : m'.label = m.label
  trail : m'.trail = m.trail
  node : m.node.LaysOut m'.node

theorem StaysPut.written_eq {m m' : Member} (h : StaysPut m m') (hclean : m.node.isDirty = false) :
    Child.written m' = Child.written m := by
  simp [Child.written, Child.pack, h.lead, h.label, h.trail, h.node.pack_eq hclean]

end Member

namespace Composite

section Indent

variable {κ ν : Type} [Label κ]

/-- A child whose node is put on some line, with what is around it as it was. -/
structure PutOnLine (c : Child κ (Text → ν)) (c' : Child κ ν) : Prop where
  lead : c'.lead = c.lead
  label : c'.label = c.label
  trail : c'.trail = c.trail
  node : ∃ line, c'.node = c.node line

/-- Indenting goes through the children in order. -/
theorem forall₂_indentChildren (current : Text) (cs : List (Child κ (Text → ν))) :
    List.Forall₂ PutOnLine cs (indentChildren current cs) := by
  induction cs generalizing current with
  | nil => exact .nil
  | cons c cs ih => exact .cons ⟨rfl, rfl, rfl, _, rfl⟩ (ih _)

/-- Putting children on lines of their own goes through them in order too. -/
theorem forall₂_indent [Named κ] (step line : Text) (c : Composite κ (Text → ν)) :
    List.Forall₂ (fun p c' => Named.names c'.label = p.1 ∧ ∃ line, c'.node = p.2 line)
      c.view (c.indent step line).children := by
  have hview : ∀ c₁ : Composite κ (Text → ν), c₁.view = c.view →
      List.Forall₂ (fun p c' => Named.names c'.label = p.1 ∧ ∃ line, c'.node = p.2 line)
        c.view (indentChildren line c₁.children) := by
    intro c₁ hc₁
    rw [← hc₁, view, List.forall₂_map_left_iff]
    exact (forall₂_indentChildren line c₁.children).imp fun k k' hk =>
      ⟨congrArg Named.names hk.label, hk.node⟩
  rw [indent]
  dsimp only
  split
  · exact hview _ (view_breakLines line step c)
  · exact hview c rfl

end Indent

end Composite

namespace Node

variable {o : Object} {n : Node}

/-- What the two passes of layout make of a node that opens on some line. -/
def LaidBy (standard : Bool) (step : Text) (n n' : Node) : Prop :=
  ∃ line, n' = indent step (settle standard n) line

end Node

namespace Composite

variable {κ : Type} [Label κ]

/-- What the two passes of layout make of a composite whose bracket opens on some line. -/
def laid (standard : Bool) (step line : Text) (c : Composite κ Node) : Composite κ Node :=
  ((if c.dirty then (c.map (Node.settle standard)).settle standard
    else c.map (Node.settle standard)).map (Node.indent step)).indent step line

/-- **A composite is laid out child by child**, whether it has a mark or not. -/
theorem forall₂_laid [Named κ] (standard : Bool) (step line : Text) (c : Composite κ Node) :
    List.Forall₂ (fun m m' => Named.names m'.label = Named.names m.label ∧
        Node.LaidBy standard step m.node m'.node) c.children
      (c.laid standard step line).children := by
  have hview : (if c.dirty then (c.map (Node.settle standard)).settle standard
      else c.map (Node.settle standard)).view = (c.map (Node.settle standard)).view := by
    split
    · exact view_settle standard _
    · rfl
  have hindent := forall₂_indent step line
    ((if c.dirty then (c.map (Node.settle standard)).settle standard
      else c.map (Node.settle standard)).map (Node.indent step))
  rw [view_map, hview, view_map, view, List.map_map, List.map_map, List.forall₂_map_left_iff]
    at hindent
  exact hindent

end Composite

namespace Node

variable {o : Object} {n : Node}

theorem indent_settle_object (standard : Bool) (step line : Text) (ms : Object) :
    indent step (settle standard (.object ms)) line = .object (ms.laid standard step line) := by
  rw [settle_object, indent_object]
  rfl

theorem indent_settle_array (standard : Bool) (step line : Text) (es : Elements) :
    indent step (settle standard (.array es)) line = .array (es.laid standard step line) := by
  rw [settle_array, indent_array]
  rfl

theorem LaidBy.object {standard : Bool} {step : Text} (h : LaidBy standard step (.object o) n) :
    ∃ o', n = .object o' ∧ List.Forall₂ (fun m m' => m'.label.name = m.label.name ∧
      LaidBy standard step m.node m'.node) o.children o'.children := by
  obtain ⟨line, rfl⟩ := h
  exact ⟨_, indent_settle_object standard step line o,
    (Composite.forall₂_laid standard step line o).imp fun m m' hm =>
      ⟨List.singleton_injective hm.1, hm.2⟩⟩

theorem LaidBy.array {standard : Bool} {step : Text} {es : Elements}
    (h : LaidBy standard step (.array es) n) : ∃ es', n = .array es' ∧
      List.Forall₂ (fun e e' => LaidBy standard step e.node e'.node) es.children es'.children := by
  obtain ⟨line, rfl⟩ := h
  exact ⟨_, indent_settle_array standard step line es,
    (Composite.forall₂_laid standard step line es).imp fun e e' he => he.2⟩

/-- An object is laid out to an object, member by member. -/
theorem LaysOut.object (h : LaysOut (.object o) n) :
    ∃ o', n = .object o' ∧ List.Forall₂ Member.LaysOut o.children o'.children := by
  obtain rfl | ⟨standard, step, line, rfl⟩ := h
  · exact ⟨o, rfl, List.forall₂_same.2 fun m _ => ⟨rfl, Or.inl rfl⟩⟩
  · have hlaid :
        LaidBy standard step (.object o) (indent step (settle standard (.object o)) line) :=
      ⟨line, rfl⟩
    obtain ⟨o', ho', hmembers⟩ := hlaid.object
    exact ⟨o', ho', hmembers.imp fun m m' hm => ⟨hm.1, Or.inr ⟨standard, step, hm.2⟩⟩⟩

/-- **An object without a mark stays what it is around the nodes of its members.** -/
theorem LaysOut.object_of_not_dirty (h : LaysOut (.object o) n) (hdirty : o.dirty = false) :
    ∃ o', n = .object o' ∧ List.Forall₂ Member.StaysPut o.children o'.children ∧
      o'.closing = o.closing ∧ o'.trailingComma = o.trailingComma := by
  obtain rfl | ⟨standard, step, line, rfl⟩ := h
  · exact ⟨o, rfl, List.forall₂_same.2 fun m _ => ⟨rfl, rfl, rfl, Or.inl rfl⟩, rfl, rfl⟩
  · rw [settle_object, if_neg (by simp [hdirty]), indent_object, Composite.indent]
    simp only [Composite.dirty_map, hdirty, Bool.false_eq_true, if_false]
    refine ⟨_, rfl, ?_, rfl, rfl⟩
    have hindent : List.Forall₂ Composite.PutOnLine
        (o.children.map (Child.map (indent step) ∘ Child.map (settle standard)))
        (Composite.indentChildren line ((o.map (settle standard)).map (indent step)).children) := by
      rw [← List.map_map]
      exact Composite.forall₂_indentChildren line _
    exact (List.forall₂_map_left_iff.1 hindent).imp fun m m' hm =>
      ⟨hm.lead, hm.label, hm.trail, Or.inr ⟨standard, step, hm.node⟩⟩

end Node

/-- Laying out a document with a mark makes this of its node. -/
theorem Value.laidBy_format {v : Value} (h : v.node.isDirty = true) :
    ∃ step, Node.LaidBy v.isStandard step v.node v.format.node := by
  rw [format, if_pos h]
  exact ⟨_, _, rfl⟩

/-! ### Looking for members -/

/-- Members that are related one by one and have the same names are found at the same place. -/
theorem spotIn?_of_forall₂ {R : Member → Member → Prop}
    (hname : ∀ m m', R m m' → Member.name m' = Member.name m) {name : Text} {ms ms' : List Member}
    (h : List.Forall₂ R ms ms') {s : Spot} (hs : spotIn? name ms = some s) :
    ∃ s', spotIn? name ms' = some s' ∧ List.Forall₂ R s.before s'.before ∧ R s.here s'.here ∧
      List.Forall₂ R s.after s'.after := by
  induction h generalizing s with
  | nil => simp [spotIn?] at hs
  | @cons m m' ms ms' hm hms ih =>
    rw [spotIn?] at hs ⊢
    rw [hname m m' hm]
    split at hs
    · rename_i hhere
      obtain rfl := Option.some.inj hs
      exact ⟨⟨[], m', ms'⟩, if_pos hhere, .nil, hm, hms⟩
    · rename_i hhere
      obtain ⟨t, ht, rfl⟩ := Option.map_eq_some_iff.1 hs
      obtain ⟨t', ht', hbefore, hthere, hafter⟩ := ih ht
      exact ⟨{ t' with before := m' :: t'.before }, by rw [if_neg hhere, ht']; rfl,
        .cons hm hbefore, hthere, hafter⟩

theorem Member.LaysOut.name_eq {m m' : Member} (h : LaysOut m m') :
    Member.name m' = Member.name m :=
  congrArg Literal.value h.name

theorem Member.StaysPut.name_eq {m m' : Member} (h : StaysPut m m') :
    Member.name m' = Member.name m :=
  congrArg (fun k : Key => k.name.value) h.label

end EnvManifest
