import EnvManifest.Document.Path
import EnvManifest.Proofs.Edit.Slots
import Mathlib.Data.List.Forall2

/-!
# Edits at the end of a path

A path leads into an outline as it leads into a tree, and what an edit makes of the node at its
end shows in the outline in the same place (`Node.outline_updateAt?`). All that is above gets
another node for a child. That is no matter of slots, so that the tree is pliant if it is laid out
and the node at the end is pliant (`Around.pliant_updateAt?`).

Paths of names lead from one first member of a name to the next (`Node.updateAt?_key_eq_some`).
-/

namespace EnvManifest

/-! ### Paths into outlines -/

namespace Outline

/-- The names of the members. -/
def names : Outline → List Text
  | .object ms => ms.map fun m => m.1.value
  | _ => []

/-- The place of a child: that of the first member of a name, or one in range. -/
def place? : PathItem → Outline → Option Nat
  | .key name, .object ms => ms.findIdx? fun m => m.1.value = name
  | .index i, .object ms => if i < ms.length then some i else none
  | .index i, .array es => if i < es.length then some i else none
  | _, _ => none

/-- What a path leads to, replaced by what `f` makes of it. -/
def updateAt? (f : Outline → Option Outline) : List PathItem → Outline → Option Outline
  | [], o => f o
  | item :: path, .object ms => do
    let i ← place? item (.object ms)
    let m ← ms[i]?
    let o ← updateAt? f path m.2
    some (.object (ms.set i (m.1, o)))
  | item :: path, .array es => do
    let i ← place? item (.array es)
    let e ← es[i]?
    let o ← updateAt? f path e
    some (.array (es.set i o))
  | _ :: _, _ => none

end Outline

/-! ### Another node for a child -/

namespace Composite

variable {κ : Type}

/-- The composite with the node of a child replaced by what `f` makes of it. -/
def setNodeAt? (f : Node → Option Node) (c : Composite κ Node) (i : Nat) :
    Option (Composite κ Node) := do
  let m ← c.children[i]?
  let n ← f m.node
  some { c with children := c.children.set i { m with node := n } }

variable {f : Node → Option Node} {c c' : Composite κ Node} {i : Nat}

theorem setNodeAt?_eq_some : c.setNodeAt? f i = some c' ↔ ∃ m n, c.children[i]? = some m ∧
    f m.node = some n ∧ c' = { c with children := c.children.set i { m with node := n } } := by
  rw [setNodeAt?]
  constructor
  · intro h
    obtain ⟨m, hm, h⟩ := Option.bind_eq_some_iff.1 h
    obtain ⟨n, hn, h⟩ := Option.bind_eq_some_iff.1 h
    exact ⟨m, n, hm, hn, (Option.some.inj h).symm⟩
  · rintro ⟨m, n, hm, hn, rfl⟩
    exact Option.bind_eq_some_iff.2 ⟨m, hm, Option.bind_eq_some_iff.2 ⟨n, hn, rfl⟩⟩

/-- What an entry has in common with the one that replaces it stays in the list. -/
theorem map_set_of_getElem? {α β : Type} {g : α → β} {l : List α} {a b : α} (h : l[i]? = some a)
    (hb : g b = g a) : (l.set i b).map g = l.map g := by
  obtain ⟨hi, rfl⟩ := List.getElem?_eq_some_iff.1 h
  rw [List.map_set, hb, ← List.map_set, List.set_getElem_self]

/-- **Another node for a child** is no matter of slots. -/
theorem pliant_setNodeAt? [Label κ] (h : c.Workable)
    (hf : ∀ m, c.children[i]? = some m → ∀ n, f m.node = some n → n.Pliant)
    (hc : c.setNodeAt? f i = some c') : c'.Pliant ∧ ∀ m ∈ c'.children, m.node.Pliant := by
  obtain ⟨m, n, hm, hn, rfl⟩ := setNodeAt?_eq_some.1 hc
  have hframe : SameFrame c { c with children := c.children.set i { m with node := n } } :=
    ⟨map_set_of_getElem? hm rfl, rfl, rfl, rfl⟩
  refine ⟨(h.supple.congr hframe).pliant, fun k hk => ?_⟩
  rcases List.mem_or_eq_of_mem_set hk with hk | rfl
  · exact h.pliant k hk
  · exact hf m hm n hn

theorem fits_setNodeAt? [Label κ] [Named κ] {P : Node → Prop} (h : ∀ m ∈ c.children, m.Fits P)
    (hf : ∀ n n', P n → f n = some n' → P n') (hc : c.setNodeAt? f i = some c') :
    ∀ m ∈ c'.children, m.Fits P := by
  obtain ⟨m, n, hm, hn, rfl⟩ := setNodeAt?_eq_some.1 hc
  intro k hk
  rcases List.mem_or_eq_of_mem_set hk with hk | rfl
  · exact h k hk
  · obtain ⟨hnames, hnode⟩ := h m (List.mem_of_getElem? hm)
    exact ⟨hnames, hf _ _ hnode hn⟩

end Composite

/-- The first member of a name gets another node where it stands. -/
theorem Object.setNodeAt?_of_spot? {f : Node → Option Node} {o : Object} {name : Text} {s : Spot}
    (hs : spot? o name = some s) : o.setNodeAt? f s.before.length =
      (f s.here.node).map fun n => withSpot o (s.setNode n) := by
  have hmembers := members_of_spot? hs
  have hhere : o.children[s.before.length]? = some s.here := by
    rw [← hmembers, Spot.members, List.getElem?_append_right (le_refl _)]
    simp
  rw [Composite.setNodeAt?, hhere, Option.bind_eq_bind, Option.bind_some]
  cases f s.here.node with
  | none => rfl
  | some n => simp [withSpot, ← hmembers, Spot.members, Spot.setNode, List.set_append_right]

/-! ### Another node at the end of a path -/

theorem Object.place?_eq (ms : Object) (item : PathItem) :
    Object.place? ms item = (Node.object ms).outline.place? item := by
  cases item with
  | key name =>
    rw [Object.place?, Object.index?, Object.spot?, Node.outline_object, Outline.place?]
    induction ms.children with
    | nil => rfl
    | cons m cs ih =>
      rw [spotIn?, List.map_cons, List.findIdx?_cons, ← ih]
      by_cases hname : Member.name m = name
      · have hname' : m.label.name.value = name := hname
        simp [hname, hname']
      · have hname' : m.label.name.value ≠ name := hname
        simp [hname, hname', Function.comp_def]
  | index i =>
    rw [Object.place?, Node.outline_object, Outline.place?, List.length_map]

theorem Elements.place?_eq (es : Elements) (item : PathItem) :
    Elements.place? es item = (Node.array es).outline.place? item := by
  cases item with
  | key name =>
    rw [Node.outline_array]
    rfl
  | index i => rw [Elements.place?, Node.outline_array, Outline.place?, List.length_map]

namespace Node

/-- The node with what a path leads to replaced by what `f` makes of it. -/
def updateAt? (f : Node → Option Node) : List PathItem → Node → Option Node
  | [], n => f n
  | item :: path, .object ms => do
    let i ← Object.place? ms item
    (ms.setNodeAt? (updateAt? f path) i).map .object
  | item :: path, .array es => do
    let i ← Elements.place? es item
    (es.setNodeAt? (updateAt? f path) i).map .array
  | _ :: _, _ => none

variable {f : Node → Option Node} {d : Nat}

/-- **An outline and a tree are changed alike** at the end of a path. -/
theorem outline_updateAt? {g : Outline → Option Outline}
    (h : ∀ n, (f n).map outline = g n.outline) (path : List PathItem) (n : Node) :
    (n.updateAt? f path).map outline = n.outline.updateAt? g path := by
  induction path generalizing n with
  | nil => exact h n
  | cons item path ih =>
    cases n with
    | object ms =>
      rw [updateAt?, Object.place?_eq, outline_object, Outline.updateAt?]
      generalize (Outline.object _).place? item = place
      cases place with
      | none => rfl
      | some i =>
        cases hm : ms.children[i]? with
        | none => simp [Composite.setNodeAt?, hm]
        | some m =>
          have hnode := ih m.node
          cases hn : m.node.updateAt? f path with
          | none => simp [Composite.setNodeAt?, hm, hn, ← hnode]
          | some n => simp [Composite.setNodeAt?, hm, hn, ← hnode, List.map_set]
    | array es =>
      rw [updateAt?, Elements.place?_eq, outline_array, Outline.updateAt?]
      generalize (Outline.array _).place? item = place
      cases place with
      | none => rfl
      | some i =>
        cases he : es.children[i]? with
        | none => simp [Composite.setNodeAt?, he]
        | some e =>
          have hnode := ih e.node
          cases hn : e.node.updateAt? f path with
          | none => simp [Composite.setNodeAt?, he, hn, ← hnode]
          | some n => simp [Composite.setNodeAt?, he, hn, ← hnode, List.map_set]
    | null | bool b | number t | string l => rfl

/-- What is put at the end of a path may nest as deep as what was there. -/
theorem fits_updateAt? {path : List PathItem} {n n' : Node}
    (hf : ∀ e k k', d = e + path.length → Fits e k → f k = some k' → Fits e k') (h : n.Fits d)
    (hn : n.updateAt? f path = some n') : n'.Fits d := by
  induction path generalizing n n' d with
  | nil => exact hf d n n' rfl h hn
  | cons item path ih =>
    cases n with
    | object ms =>
      obtain ⟨e, rfl, hms⟩ := fits_object_iff.1 h
      obtain ⟨i, -, hn⟩ := Option.bind_eq_some_iff.1 hn
      obtain ⟨ms', hms', rfl⟩ := Option.map_eq_some_iff.1 hn
      refine fits_object.2 (Composite.fits_setNodeAt? hms (fun k k' hk => ih (fun j => ?_) hk) hms')
      exact fun l l' hj => hf j l l' (by rw [hj, List.length_cons, Nat.add_assoc])
    | array es =>
      obtain ⟨e, rfl, hes⟩ := fits_array_iff.1 h
      obtain ⟨i, -, hn⟩ := Option.bind_eq_some_iff.1 hn
      obtain ⟨es', hes', rfl⟩ := Option.map_eq_some_iff.1 hn
      refine fits_array.2 (Composite.fits_setNodeAt? hes (fun k k' hk => ih (fun j => ?_) hk) hes')
      exact fun l l' hj => hf j l l' (by rw [hj, List.length_cons, Nat.add_assoc])
    | null | bool b | number t | string l => simp [updateAt?] at hn

/-- **A name in a path** leads to the first member of that name. -/
theorem updateAt?_key {o : Object} {name : Text} {s : Spot} (hs : Object.spot? o name = some s)
    (path : List PathItem) : (Node.object o).updateAt? f (.key name :: path) =
      (s.here.node.updateAt? f path).map fun k => .object (Object.withSpot o (s.setNode k)) := by
  rw [updateAt?, Object.place?, Object.index?, hs]
  simp [Object.setNodeAt?_of_spot? hs, Function.comp_def]

theorem updateAt?_key_eq_some {name : Text} {path : List PathItem} {n n' : Node} :
    n.updateAt? f (.key name :: path) = some n' ↔ ∃ o s k, n = .object o ∧
      Object.spot? o name = some s ∧ s.here.node.updateAt? f path = some k ∧
        n' = .object (Object.withSpot o (s.setNode k)) := by
  constructor
  · intro h
    cases n with
    | object o =>
      cases hs : Object.spot? o name with
      | none => simp [updateAt?, Object.place?, Object.index?, hs] at h
      | some s =>
        rw [updateAt?_key hs] at h
        obtain ⟨k, hk, rfl⟩ := Option.map_eq_some_iff.1 h
        exact ⟨o, s, k, rfl, hs, hk, rfl⟩
    | array es => simp [updateAt?, Elements.place?] at h
    | null | bool b | number t | string l => simp [updateAt?] at h
  · rintro ⟨o, s, k, rfl, hs, hk, rfl⟩
    rw [updateAt?_key hs, hk]
    rfl

end Node

/-- **What is pliant at the end of a path is pliant in all of a tree** that is laid out. -/
theorem Around.pliant_updateAt? {f : Node → Option Node} {path : List PathItem} {a : Around}
    {n : Node} (h : Node.Everywhere Node.LaidOut a.node)
    (hf : ∀ b ∈ at? path a, Node.Everywhere Node.LaidOut b.node → ∀ k, f b.node = some k → k.Pliant)
    (hn : a.node.updateAt? f path = some n) : n.Pliant := by
  induction path generalizing a n with
  | nil => exact hf a rfl h n hn
  | cons item path ih =>
    obtain ⟨before, node, after⟩ := a
    cases node with
    | object ms =>
      obtain ⟨i, hi, hn⟩ := Option.bind_eq_some_iff.1 hn
      obtain ⟨ms', hms', rfl⟩ := Option.map_eq_some_iff.1 hn
      have hmember : ∀ m, ms.children[i]? = some m →
          ∀ k, m.node.updateAt? f path = some k → k.Pliant := by
        intro m hm k hk
        refine ih (a := ofMember m) ((Node.everywhere_object.1 h).2 m (List.mem_of_getElem? hm))
          (fun b hb => hf b ?_) hk
        exact Option.bind_eq_some_iff.2 ⟨i, hi, Option.bind_eq_some_iff.2 ⟨m, hm, hb⟩⟩
      obtain ⟨hpliant, hinner⟩ := Composite.pliant_setNodeAt? (workable_object h) hmember hms'
      exact Node.pliant_object hpliant hinner
    | array es =>
      obtain ⟨i, hi, hn⟩ := Option.bind_eq_some_iff.1 hn
      obtain ⟨es', hes', rfl⟩ := Option.map_eq_some_iff.1 hn
      have helement : ∀ e, es.children[i]? = some e →
          ∀ k, e.node.updateAt? f path = some k → k.Pliant := by
        intro e he k hk
        refine ih (a := ofValue e) ((Node.everywhere_array.1 h).2 e (List.mem_of_getElem? he))
          (fun b hb => hf b ?_) hk
        exact Option.bind_eq_some_iff.2 ⟨i, hi, Option.bind_eq_some_iff.2 ⟨e, he, hb⟩⟩
      obtain ⟨hpliant, hinner⟩ := Composite.pliant_setNodeAt? (workable_array h) helement hes'
      exact Node.pliant_array hpliant hinner
    | null | bool b | number t | string l => simp [Node.updateAt?] at hn

/-! ### Where a path leads -/

namespace Object

/-- A path goes by the names of the members and their number. -/
theorem place?_congr {o o' : Object} (h : o'.children.map Member.name = o.children.map Member.name)
    (item : PathItem) : place? o' item = place? o item := by
  have hkey : ∀ (ms : Object) (name : Text),
      place? ms (.key name) = (ms.children.map Member.name).findIdx? fun n => n = name := by
    intro ms name
    rw [place?_eq, Node.outline_object, Outline.place?, List.findIdx?_map, List.findIdx?_map]
    rfl
  cases item with
  | key name => rw [hkey, hkey, h]
  | index i =>
    have hlength : o'.children.length = o.children.length := by simpa using congrArg List.length h
    rw [place?, place?, hlength]

end Object

theorem Elements.place?_congr {es es' : Elements} (h : es'.children.length = es.children.length)
    (item : PathItem) : place? es' item = place? es item := by
  cases item with
  | key name => rfl
  | index i => rw [place?, place?, h]

/-- Lists that are related one by one are related place by place. -/
theorem exists_getElem?_of_forall₂ {α β : Type} {R : α → β → Prop} {l : List α} {l' : List β}
    (h : List.Forall₂ R l l') {i : Nat} {a : α} (ha : l[i]? = some a) :
    ∃ b, l'[i]? = some b ∧ R a b := by
  induction h generalizing i with
  | nil => simp at ha
  | @cons c d l l' hcd _ ih =>
    cases i with
    | zero =>
      obtain rfl : c = a := by simpa using ha
      exact ⟨d, rfl, hcd⟩
    | succ i => exact ih ha

theorem map_eq_of_forall₂ {α β γ : Type} {f : α → γ} {g : β → γ} {l : List α} {l' : List β}
    (h : List.Forall₂ (fun a b => g b = f a) l l') : l'.map g = l.map f := by
  induction h with
  | nil => rfl
  | cons hab _ ih => rw [List.map_cons, List.map_cons, hab, ih]

namespace Around

/-- A path leads on from a node in the node. -/
theorem exists_of_at?_cons {item : PathItem} {path : List PathItem} {a b : Around}
    (h : at? (item :: path) a = some b) : ∃ a' : Around, a'.node ∈ a.node.inner ∧
      at? path a' = some b := by
  obtain ⟨before, node, after⟩ := a
  cases node with
  | object ms =>
    obtain ⟨i, -, h⟩ := Option.bind_eq_some_iff.1 h
    obtain ⟨m, hm, h⟩ := Option.bind_eq_some_iff.1 h
    exact ⟨ofMember m, List.mem_map_of_mem (List.mem_of_getElem? hm), h⟩
  | array es =>
    obtain ⟨i, -, h⟩ := Option.bind_eq_some_iff.1 h
    obtain ⟨e, he, h⟩ := Option.bind_eq_some_iff.1 h
    exact ⟨ofValue e, List.mem_map_of_mem (List.mem_of_getElem? he), h⟩
  | null | bool b | number t | string l => simp [at?] at h

/-- What holds everywhere in a tree holds everywhere in what a path leads to. -/
theorem everywhere_at? {P : Node → Prop} {path : List PathItem} {a b : Around}
    (h : at? path a = some b) (ha : Node.Everywhere P a.node) : Node.Everywhere P b.node := by
  induction path generalizing a with
  | nil =>
    obtain rfl := Option.some.inj h
    exact ha
  | cons item path ih =>
    obtain ⟨a', hinner, h⟩ := exists_of_at?_cons h
    exact ih h (ha.inner hinner)

/-- **A path leads to what an edit at its end has put there.** -/
theorem at?_updateAt? {f : Node → Option Node} {path : List PathItem} {a b : Around} {n : Node}
    (h : at? path a = some b) (hn : a.node.updateAt? f path = some n) :
    ∃ k, f b.node = some k ∧ at? path { a with node := n } = some { b with node := k } := by
  induction path generalizing a n with
  | nil =>
    obtain rfl := Option.some.inj h
    exact ⟨n, hn, rfl⟩
  | cons item path ih =>
    obtain ⟨before, node, after⟩ := a
    cases node with
    | object ms =>
      obtain ⟨i, hi, h⟩ := Option.bind_eq_some_iff.1 h
      obtain ⟨m, hm, h⟩ := Option.bind_eq_some_iff.1 h
      obtain ⟨j, hj, hn⟩ := Option.bind_eq_some_iff.1 hn
      obtain rfl := Option.some.inj (hi.symm.trans hj)
      obtain ⟨ms', hms', rfl⟩ := Option.map_eq_some_iff.1 hn
      obtain ⟨m', n', hm', hn', rfl⟩ := Composite.setNodeAt?_eq_some.1 hms'
      obtain rfl := Option.some.inj (hm.symm.trans hm')
      obtain ⟨k, hk, hat⟩ := ih h hn'
      refine ⟨k, hk, ?_⟩
      have hnames : (ms.children.set i { m with node := n' }).map Member.name =
          ms.children.map Member.name := Composite.map_set_of_getElem? hm rfl
      have hplace : Object.place? { ms with
          children := ms.children.set i { m with node := n' } } item = Object.place? ms item :=
        Object.place?_congr hnames item
      have hlt : i < ms.children.length := (List.getElem?_eq_some_iff.1 hm).1
      simp only [at?, hplace, hi, Option.bind_eq_bind, Option.bind_some]
      rw [List.getElem?_set_self hlt]
      exact hat
    | array es =>
      obtain ⟨i, hi, h⟩ := Option.bind_eq_some_iff.1 h
      obtain ⟨e, he, h⟩ := Option.bind_eq_some_iff.1 h
      obtain ⟨j, hj, hn⟩ := Option.bind_eq_some_iff.1 hn
      obtain rfl := Option.some.inj (hi.symm.trans hj)
      obtain ⟨es', hes', rfl⟩ := Option.map_eq_some_iff.1 hn
      obtain ⟨e', n', he', hn', rfl⟩ := Composite.setNodeAt?_eq_some.1 hes'
      obtain rfl := Option.some.inj (he.symm.trans he')
      obtain ⟨k, hk, hat⟩ := ih h hn'
      refine ⟨k, hk, ?_⟩
      have hplace :
          Elements.place? { es with children := es.children.set i { e with node := n' } } item =
            Elements.place? es item := Elements.place?_congr (List.length_set ..) item
      have hlt : i < es.children.length := (List.getElem?_eq_some_iff.1 he).1
      simp only [at?, hplace, hi, Option.bind_eq_bind, Option.bind_some]
      rw [List.getElem?_set_self hlt]
      exact hat
    | null | bool b | number t | string l => simp [at?] at h

/-- **A path leads to the same place in a tree that was changed child by child**, with the names
and their order as they were. -/
theorem at?_of_forall₂ {R : Node → Node → Prop}
    (hobject : ∀ o n, R (.object o) n → ∃ o', n = .object o' ∧ List.Forall₂
      (fun m m' => Member.name m' = Member.name m ∧ R m.node m'.node) o.children o'.children)
    (harray : ∀ es n, R (.array es) n → ∃ es', n = .array es' ∧ List.Forall₂
      (fun e e' => R e.node e'.node) es.children es'.children)
    {path : List PathItem} {a a' b : Around} (h : at? path a = some b) (ha : R a.node a'.node) :
    ∃ b', at? path a' = some b' ∧ R b.node b'.node := by
  induction path generalizing a a' with
  | nil =>
    obtain rfl := Option.some.inj h
    exact ⟨a', rfl, ha⟩
  | cons item path ih =>
    obtain ⟨before, node, after⟩ := a
    obtain ⟨before', node', after'⟩ := a'
    cases node with
    | object ms =>
      obtain ⟨i, hi, h⟩ := Option.bind_eq_some_iff.1 h
      obtain ⟨m, hm, h⟩ := Option.bind_eq_some_iff.1 h
      obtain ⟨ms', rfl, hmembers⟩ := hobject ms node' ha
      obtain ⟨m', hm', -, hnode⟩ := exists_getElem?_of_forall₂ hmembers hm
      have hplace : Object.place? ms' item = Object.place? ms item :=
        Object.place?_congr (map_eq_of_forall₂ (hmembers.imp fun _ _ hm => hm.1)) item
      have hmember : R (ofMember m).node (ofMember m').node := hnode
      obtain ⟨b', hb', hrel⟩ := ih h hmember
      refine ⟨b', ?_, hrel⟩
      simp only [at?, hplace, hi, hm', Option.bind_eq_bind, Option.bind_some, hb']
    | array es =>
      obtain ⟨i, hi, h⟩ := Option.bind_eq_some_iff.1 h
      obtain ⟨e, he, h⟩ := Option.bind_eq_some_iff.1 h
      obtain ⟨es', rfl, helements⟩ := harray es node' ha
      obtain ⟨e', he', hnode⟩ := exists_getElem?_of_forall₂ helements he
      have hplace : Elements.place? es' item = Elements.place? es item :=
        Elements.place?_congr helements.length_eq.symm item
      have helement : R (ofValue e).node (ofValue e').node := hnode
      obtain ⟨b', hb', hrel⟩ := ih h helement
      refine ⟨b', ?_, hrel⟩
      simp only [at?, hplace, hi, he', Option.bind_eq_bind, Option.bind_some, hb']
    | null | bool b | number t | string l => simp [at?] at h

end Around

/-! ### Edits by hand -/

/-- An edit of nodes keeps the slots around them. -/
theorem Around.update?_eq (f : Node → Option Node) (path : List PathItem) (a : Around) :
    update? (fun a => (f a.node).map fun n => { a with node := n }) path a =
      (a.node.updateAt? f path).map fun n => { a with node := n } := by
  induction path generalizing a with
  | nil => rfl
  | cons item path ih =>
    obtain ⟨before, node, after⟩ := a
    cases node with
    | object ms =>
      simp only [update?, Node.updateAt?, Composite.setNodeAt?, ih, Option.bind_eq_bind]
      cases Object.place? ms item with
      | none => rfl
      | some i =>
        cases hm : ms.children[i]? with
        | none => simp [hm]
        | some m =>
          simp only [Option.bind_some, hm, ofMember]
          cases m.node.updateAt? f path <;> rfl
    | array es =>
      simp only [update?, Node.updateAt?, Composite.setNodeAt?, ih, Option.bind_eq_bind]
      cases Elements.place? es item with
      | none => rfl
      | some i =>
        cases he : es.children[i]? with
        | none => simp [he]
        | some e =>
          simp only [Option.bind_some, he, ofValue]
          cases e.node.updateAt? f path <;> rfl
    | null | bool b | number t | string l => rfl

theorem Value.updateNode?_eq (v : Value) (path : List PathItem) (f : Node → Option Node) :
    v.updateNode? path f = (v.node.updateAt? f path).map fun n => { v with node := n } := by
  rw [updateNode?, update?, Around.update?_eq, Option.map_map]
  rfl

end EnvManifest
