import EnvManifest.Proofs.Edit.Apart
import EnvManifest.Proofs.Edit.Path
import EnvManifest.Proofs.Layout.Untouched

/-!
# How objects and arrays end

If an object or array has a child, there may be a comma behind the last one (`Ending`). Layout
chooses it anew where an edit has changed something and there are no children but fresh ones
(`Composite.Chooses`); everywhere else it keeps the comma that it finds
(`Node.LaysOut.exists_ending`).

A place in a tree is given by the steps that lead there (`Node.descend?`). A member is found by its
name and by the number of members of that name in front of it (`Object.nodesOf`), so that its place
is the same after a member of another name has been put in or taken out. What relates two trees
place by place is shown one step at a time (`Node.Throughout`).
-/

namespace EnvManifest

open Object

/-! ### Members by name and number -/

namespace Object

variable {o o' : Object} {name : Text}

/-- The nodes of the members of a name, in order. -/
def nodesOf (o : Object) (name : Text) : List Node :=
  (o.children.filter fun m => Member.name m = name).map fun m => m.node

/-- Members of another name are seen apart from a name. -/
theorem nodesOf_eq_of_apartFrom {other : Text} (hne : name ≠ other)
    (h : apartFrom (some other) o' = apartFrom (some other) o) :
    nodesOf o' name = nodesOf o name := by
  have hnodes : ∀ o : Object, nodesOf o name =
      ((apartFrom (some other) o).filter fun p => p.1.value = name).map Prod.snd := by
    intro o
    rw [nodesOf, apartFrom, List.filter_filter, List.filter_map, List.map_map]
    refine congrArg (List.map _) (List.filter_congr fun m _ => ?_)
    by_cases hm : Member.name m = name
    · have hm' : m.label.name.value = name := hm
      simp [hm, hm', hne]
    · have hm' : m.label.name.value ≠ name := hm
      simp [hm, hm']
  rw [hnodes, hnodes, h]

/-- The first member of a name is the first one there. -/
theorem nodesOf_members {s : Spot} (hbefore : name ∉ s.before.map Member.name)
    (hhere : Member.name s.here = name) (h : s.members = o.children) : nodesOf o name =
      s.here.node :: (s.after.filter fun m => Member.name m = name).map fun m => m.node := by
  have hnone : (s.before.filter fun m => Member.name m = name) = [] :=
    List.filter_eq_nil_iff.2 fun m hm hname =>
      hbefore (of_decide_eq_true hname ▸ List.mem_map_of_mem hm)
  rw [nodesOf, ← h, Spot.members, List.filter_append, hnone, List.nil_append, List.filter_cons,
    if_pos (decide_eq_true hhere), List.map_cons]

theorem nodesOf_push (o : Object) (m : Member) (name : Text) :
    ∃ rest, nodesOf (o.push m) name = nodesOf o name ++ rest := by
  rw [nodesOf, Composite.children_push, List.filter_append, List.map_append]
  exact ⟨_, rfl⟩

/-- Members that are related one by one and have the same names are related name by name. -/
theorem forall₂_nodesOf {R : Node → Node → Prop} (h : List.Forall₂
      (fun m m' => Member.name m' = Member.name m ∧ R m.node m'.node) o.children o'.children)
    (name : Text) : List.Forall₂ R (nodesOf o name) (nodesOf o' name) := by
  rw [nodesOf, nodesOf, List.forall₂_map_left_iff, List.forall₂_map_right_iff]
  refine (List.rel_filter (fun m m' hm => ?_) h).imp fun _ _ hm => hm.2
  simp [hm.1]

end Object

/-! ### Places -/

/-- A step from an object or array to a child: a member by its name and by how many members of that
name are in front of it, or an element by how many elements are. -/
inductive Branch where
  | member (name : Text) (i : Nat)
  | element (i : Nat)

/-- How an object or array ends: whether it has no child, and whether a comma is kept for behind
the last one. -/
structure Ending where
  empty : Bool
  comma : Bool
deriving DecidableEq

/-- How a composite ends. -/
def Composite.ending {κ ν : Type} (c : Composite κ ν) : Ending :=
  ⟨c.children.isEmpty, c.trailingComma⟩

namespace Node

/-- The node of a child. -/
def child? : Branch → Node → Option Node
  | .member name i, .object ms => (Object.nodesOf ms name)[i]?
  | .element i, .array es => (es.children.map fun e => e.node)[i]?
  | _, _ => none

/-- The node at the end of a path. -/
def descend? : List Branch → Node → Option Node
  | [], n => some n
  | b :: path, n => (n.child? b).bind (descend? path)

/-- How an object or array ends. -/
def ending? : Node → Option Ending
  | .object ms => some ms.ending
  | .array es => some es.ending
  | _ => none

theorem ending?_of_child? {b : Branch} {n x : Node} (h : n.child? b = some x) :
    n.ending?.isSome := by
  cases n with
  | object ms | array es => rfl
  | null | bool b | number t | string l => simp [child?] at h

/-- On the way to an object or array there are only such. -/
theorem ending?_of_descend? {path : List Branch} {n x : Node} (h : n.descend? path = some x)
    (hx : x.ending?.isSome) : n.ending?.isSome := by
  cases path with
  | nil =>
    obtain rfl := Option.some.inj h
    exact hx
  | cons b path =>
    obtain ⟨y, hy, -⟩ := Option.bind_eq_some_iff.1 h
    exact ending?_of_child? hy

/-- What holds everywhere in a tree holds of a child and everywhere in it. -/
theorem Everywhere.child? {P : Node → Prop} {b : Branch} {n x : Node} (h : n.Everywhere P)
    (hx : n.child? b = some x) : x.Everywhere P := by
  cases n with
  | object ms =>
    cases b with
    | member name i =>
      obtain ⟨m, hm, rfl⟩ := List.mem_map.1 (List.mem_of_getElem? hx)
      exact (everywhere_object.1 h).2 m (List.mem_of_mem_filter hm)
    | element i => simp [Node.child?] at hx
  | array es =>
    cases b with
    | member name i => simp [Node.child?] at hx
    | element i =>
      obtain ⟨e, he, rfl⟩ := List.mem_map.1 (List.mem_of_getElem? hx)
      exact (everywhere_array.1 h).2 e he
  | null | bool b | number t | string l => simp [Node.child?] at hx

/-! ### Trees related place by place -/

/-- Each object or array of a tree has a counterpart in another tree, at the same place. -/
def Throughout (R : Node → Node → Prop) (n n' : Node) : Prop :=
  ∀ path x, n.descend? path = some x → x.ending?.isSome →
    ∃ x', n'.descend? path = some x' ∧ R x x'

variable {R : Node → Node → Prop} {n n' : Node}

/-- **The step**: the nodes are related, if the path ends there, and those of their children
throughout. -/
theorem exists_descend? (path : List Branch) (hhere : path = [] → n.ending?.isSome → R n n')
    (hchild : ∀ b x, n.child? b = some x → x.ending?.isSome →
      ∃ x', n'.child? b = some x' ∧ Throughout R x x') {y : Node} (hy : n.descend? path = some y)
    (hend : y.ending?.isSome) : ∃ y', n'.descend? path = some y' ∧ R y y' := by
  cases path with
  | nil =>
    obtain rfl := Option.some.inj hy
    exact ⟨n', rfl, hhere rfl hend⟩
  | cons b path =>
    obtain ⟨x, hx, hy⟩ := Option.bind_eq_some_iff.1 hy
    obtain ⟨x', hx', hthrough⟩ := hchild b x hx (ending?_of_descend? hy hend)
    obtain ⟨y', hy', hR⟩ := hthrough path y hy hend
    exact ⟨y', Option.bind_eq_some_iff.2 ⟨x', hx', hy'⟩, hR⟩

/-- Each object or array among some nodes has a counterpart at the same place. -/
def ThroughoutAll (R : Node → Node → Prop) (ns ns' : List Node) : Prop :=
  ∀ (i : Nat) (x : Node), ns[i]? = some x → x.ending?.isSome →
    ∃ x' : Node, ns'[i]? = some x' ∧ Throughout R x x'

theorem exists_descend?_object {o o' : Object} (path : List Branch)
    (hhere : path = [] → R (.object o) (.object o'))
    (hchild : ∀ name, ThroughoutAll R (Object.nodesOf o name) (Object.nodesOf o' name)) {x : Node}
    (hx : (Node.object o).descend? path = some x) (hend : x.ending?.isSome) :
    ∃ x', (Node.object o').descend? path = some x' ∧ R x x' := by
  refine exists_descend? path (fun hpath _ => hhere hpath) (fun b x hx hend => ?_) hx hend
  cases b with
  | member name i => exact hchild name i x hx hend
  | element i => simp [child?] at hx

theorem throughout_object {o o' : Object} (hhere : R (.object o) (.object o'))
    (hchild : ∀ name, ThroughoutAll R (Object.nodesOf o name) (Object.nodesOf o' name)) :
    Throughout R (.object o) (.object o') :=
  fun path _ hx hend => exists_descend?_object path (fun _ => hhere) hchild hx hend

theorem throughout_array {es es' : Elements} (hhere : R (.array es) (.array es'))
    (hchild : ThroughoutAll R (es.children.map fun e => e.node)
      (es'.children.map fun e => e.node)) : Throughout R (.array es) (.array es') := by
  intro path _ hx hend
  refine exists_descend? path (fun _ _ => hhere) (fun b x hx hend => ?_) hx hend
  cases b with
  | member name i => simp [child?] at hx
  | element i => exact hchild i x hx hend

/-- More nodes behind those that stay. -/
theorem throughoutAll_append {ns : List Node} (h : ∀ x ∈ ns, Throughout R x x) (more : List Node) :
    ThroughoutAll R ns (ns ++ more) := by
  intro i x hx _
  obtain ⟨hi, -⟩ := List.getElem?_eq_some_iff.1 hx
  exact ⟨x, by rw [List.getElem?_append_left hi, hx], h x (List.mem_of_getElem? hx)⟩

/-- Another node in front of those that stay. -/
theorem throughoutAll_cons {ns : List Node} (hhere : n.ending?.isSome → Throughout R n n')
    (h : ∀ x ∈ ns, Throughout R x x) : ThroughoutAll R (n :: ns) (n' :: ns) := by
  intro i x hx hend
  cases i with
  | zero =>
    obtain rfl : n = x := by simpa using hx
    exact ⟨n', rfl, hhere hend⟩
  | succ i => exact ⟨x, hx, h x (List.mem_of_getElem? hx)⟩

/-- A tree in which each object or array is related to itself is related to itself throughout. -/
theorem Everywhere.throughout {P : Node → Prop} (hP : ∀ x, x.ending?.isSome → P x → R x x)
    (h : n.Everywhere P) : Throughout R n n := by
  intro path x hx hend
  refine ⟨x, hx, ?_⟩
  induction path generalizing n with
  | nil =>
    obtain rfl := Option.some.inj hx
    exact hP n hend h.here
  | cons b path ih =>
    obtain ⟨y, hy, hx⟩ := Option.bind_eq_some_iff.1 hx
    exact ih (h.child? hy) hx

end Node

/-! ### What layout chooses -/

namespace Composite

variable {κ : Type}

/-- An edit has changed the composite and left no child that it has not made or moved. -/
def Chooses {ν : Type} (c : Composite κ ν) : Prop :=
  c.dirty = true ∧ ∀ m ∈ c.children, m.fresh = true

variable [Label κ]

/-- The comma of a composite after both passes. -/
theorem trailingComma_laid (standard : Bool) (step line : Text) (c : Composite κ Node) :
    (c.laid standard step line).trailingComma =
      if c.dirty then (c.map (Node.settle standard)).settledComma standard
      else c.trailingComma := by
  have hindent : ∀ {ν : Type} (c : Composite κ (Text → ν)),
      (c.indent step line).trailingComma = c.trailingComma := by
    intro ν c
    rw [indent]
    dsimp only
    split <;> rfl
  rw [laid, hindent, trailingComma_map]
  split
  · rw [settle]
    dsimp only
    split <;> rfl
  · rfl

/-- **How a composite ends after both passes.** -/
theorem ending_laid [Named κ] (standard : Bool) (step line : Text) (c : Composite κ Node) :
    (c.laid standard step line).ending = ⟨c.children.isEmpty,
      if c.dirty then (c.map (Node.settle standard)).settledComma standard
      else c.trailingComma⟩ := by
  have hlength := (forall₂_laid standard step line c).length_eq
  have hempty : (c.laid standard step line).children.isEmpty = c.children.isEmpty := by
    rw [Bool.eq_iff_iff, List.isEmpty_iff_length_eq_zero, List.isEmpty_iff_length_eq_zero, hlength]
  rw [ending, hempty, trailingComma_laid]

omit [Label κ] in
/-- A composite with a child that an edit has neither made nor moved keeps its comma. -/
theorem settledComma_of_not_chooses (standard : Bool) {c : Composite κ Node} (h : ¬c.Chooses)
    (hdirty : c.dirty = true) :
    (c.map (Node.settle standard)).settledComma standard = c.trailingComma := by
  have hold : (c.map (Node.settle standard)).children.all (·.fresh) = false := by
    rw [← Bool.not_eq_true, List.all_eq_true]
    exact fun hall => h ⟨hdirty, fun m hm => hall (m.map (Node.settle standard))
      (List.mem_map_of_mem hm)⟩
  rw [settledComma, hold, if_neg (by simp)]
  rfl

end Composite

namespace Node

/-- Layout chooses the comma of the node. -/
def Chooses : Node → Prop
  | .object ms => ms.Chooses
  | .array es => es.Chooses
  | _ => False

variable {n n' : Node}

/-- **Layout keeps the ending of an object or array**, if it does not choose. -/
theorem LaysOut.exists_ending (h : LaysOut n n') {e : Ending} (he : n.ending? = some e) :
    ∃ e', n'.ending? = some e' ∧ e'.empty = e.empty ∧ (¬n.Chooses → e'.comma = e.comma) := by
  have hlaid : ∀ {κ : Type} [Label κ] [Named κ] (standard : Bool) (step line : Text)
      (c : Composite κ Node), (c.laid standard step line).ending.empty = c.ending.empty ∧
        (¬c.Chooses → (c.laid standard step line).ending.comma = c.ending.comma) := by
    intro κ _ _ standard step line c
    rw [Composite.ending_laid]
    refine ⟨rfl, fun hc => ?_⟩
    dsimp only
    split
    · rename_i hdirty
      exact Composite.settledComma_of_not_chooses standard hc hdirty
    · rfl
  obtain rfl | ⟨standard, step, line, rfl⟩ := h
  · exact ⟨e, he, rfl, fun _ => rfl⟩
  · cases n with
    | object ms =>
      obtain rfl := Option.some.inj he
      rw [indent_settle_object]
      exact ⟨_, rfl, hlaid standard step line ms⟩
    | array es =>
      obtain rfl := Option.some.inj he
      rw [indent_settle_array]
      exact ⟨_, rfl, hlaid standard step line es⟩
    | null | bool b | number t | string l => simp [ending?] at he

/-- An array is laid out to an array, element by element. -/
theorem LaysOut.array {es : Elements} (h : LaysOut (.array es) n) : ∃ es', n = .array es' ∧
    List.Forall₂ LaysOut (es.children.map fun e => e.node) (es'.children.map fun e => e.node) := by
  obtain rfl | ⟨standard, step, line, rfl⟩ := h
  · exact ⟨es, rfl, List.forall₂_same.2 fun _ _ => Or.inl rfl⟩
  · have hlaid :
        LaidBy standard step (.array es) (indent step (settle standard (.array es)) line) :=
      ⟨line, rfl⟩
    obtain ⟨es', hes', helements⟩ := hlaid.array
    refine ⟨es', hes', ?_⟩
    rw [List.forall₂_map_left_iff, List.forall₂_map_right_iff]
    exact helements.imp fun _ _ he => Or.inr ⟨standard, step, he⟩

/-- **What layout makes of a tree stands at the same places.** -/
theorem LaysOut.descend? {path : List Branch} {x : Node} (h : LaysOut n n')
    (hx : n.descend? path = some x) : ∃ x', n'.descend? path = some x' ∧ LaysOut x x' := by
  induction path generalizing n n' with
  | nil =>
    obtain rfl := Option.some.inj hx
    exact ⟨n', rfl, h⟩
  | cons b path ih =>
    obtain ⟨y, hy, hx⟩ := Option.bind_eq_some_iff.1 hx
    obtain ⟨y', hy', hlaid⟩ : ∃ y', n'.child? b = some y' ∧ LaysOut y y' := by
      cases n with
      | object ms =>
        cases b with
        | member name i =>
          obtain ⟨ms', rfl, hmembers⟩ := h.object
          exact exists_getElem?_of_forall₂ (Object.forall₂_nodesOf
            (hmembers.imp fun _ _ hm => ⟨hm.name_eq, hm.node⟩) name) hy
        | element i => simp [child?] at hy
      | array es =>
        cases b with
        | member name i => simp [child?] at hy
        | element i =>
          obtain ⟨es', rfl, helements⟩ := h.array
          exact exists_getElem?_of_forall₂ helements hy
      | null | bool b | number t | string l => simp [child?] at hy
    obtain ⟨x', hx', hlaid⟩ := ih hlaid hx
    exact ⟨x', Option.bind_eq_some_iff.2 ⟨y', hy', hx'⟩, hlaid⟩

end Node

end EnvManifest
