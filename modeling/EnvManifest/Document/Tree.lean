import EnvManifest.Document.Literal

/-!
# The tree of a document

A document is JSON with comments and trailing commas, and its tree keeps every
character of it. Between two tokens there is a *slot*, a text of white space and
comments, and every slot has its place in the tree: in front of a child and after
it, on both sides of the colon of a member, before a closing bracket, around the
whole value.

An object and an array are the same thing up to what labels a child: a member has
a `Key`, an element has nothing. `Composite` is therefore generic in the label,
`Label` says what a label contributes to the text, and what holds of composites is
said once for both.

A function on trees is a `Node.Algebra`: what it answers on each kind of node,
given its answers on the children. `Node.fold` runs it
(`Node.fold_object`, `Node.fold_array`), and `Node.induction` is the matching way
to prove something of every node.
-/

namespace EnvManifest

/-! ### Labels -/

/-- What labels a member: its name and the slots on both sides of the colon. -/
structure Key where
  name : Literal
  beforeColon : Text
  afterColon : Text
deriving DecidableEq

/-- What a label contributes to the text in front of its value. -/
class Label (κ : Type) where
  /-- The label as written, up to the value. -/
  pack : κ → Text
  /-- The slots inside the label, in order. -/
  slots : κ → List Text
  /-- The label with its name in the canonical spelling and empty slots. -/
  minimal : κ → κ
  /-- The label with its slots changed: the first function is for a slot before
  the colon, the second for one after it. -/
  mapSlots : (Text → Text) → (Text → Text) → κ → κ

instance : Label Key where
  pack k := k.name.raw ++ k.beforeColon ++ ':' :: k.afterColon
  slots k := [k.beforeColon, k.afterColon]
  minimal k := ⟨k.name.respell, [], []⟩
  mapSlots before after k := { k with
    beforeColon := before k.beforeColon
    afterColon := after k.afterColon }

instance : Label Unit where
  pack _ := []
  slots _ := []
  minimal u := u
  mapSlots _ _ u := u

/-! ### Children and composites -/

/-- A child of a composite: the slot in front of it, its label, its node and the
slot after it. A child is fresh if an edit made it and it has not been laid out
yet. -/
structure Child (κ ν : Type) where
  lead : Text
  label : κ
  node : ν
  trail : Text
  fresh : Bool

/-- What stands between two brackets: the children, the slot before the closing
bracket, and whether a comma follows the last child. A composite is dirty if an
edit changed it and it has not been laid out yet. -/
structure Composite (κ ν : Type) where
  children : List (Child κ ν)
  closing : Text
  trailingComma : Bool
  dirty : Bool

namespace Child

variable {κ μ ν : Type}

/-- The child with its node replaced. -/
def map (f : μ → ν) (c : Child κ μ) : Child κ ν :=
  ⟨c.lead, c.label, f c.node, c.trail, c.fresh⟩

@[simp]
theorem map_id (c : Child κ ν) : c.map id = c := rfl

@[simp]
theorem lead_map (f : μ → ν) (c : Child κ μ) : (c.map f).lead = c.lead := rfl

@[simp]
theorem label_map (f : μ → ν) (c : Child κ μ) : (c.map f).label = c.label := rfl

@[simp]
theorem node_map (f : μ → ν) (c : Child κ μ) : (c.map f).node = f c.node := rfl

@[simp]
theorem trail_map (f : μ → ν) (c : Child κ μ) : (c.map f).trail = c.trail := rfl

@[simp]
theorem fresh_map (f : μ → ν) (c : Child κ μ) : (c.map f).fresh = c.fresh := rfl

end Child

namespace Composite

variable {κ μ ν : Type}

/-- The composite with the node of every child replaced. -/
def map (f : μ → ν) (c : Composite κ μ) : Composite κ ν :=
  ⟨c.children.map (Child.map f), c.closing, c.trailingComma, c.dirty⟩

/-- A composite without children that will be laid out. -/
def new : Composite κ ν :=
  ⟨[], [], false, true⟩

/-- The composite with one more child at its end. -/
def push (c : Composite κ ν) (child : Child κ ν) : Composite κ ν :=
  { c with children := c.children ++ [child], dirty := true }

@[simp]
theorem children_map (f : μ → ν) (c : Composite κ μ) :
    (c.map f).children = c.children.map (Child.map f) := rfl

@[simp]
theorem closing_map (f : μ → ν) (c : Composite κ μ) : (c.map f).closing = c.closing := rfl

@[simp]
theorem trailingComma_map (f : μ → ν) (c : Composite κ μ) :
    (c.map f).trailingComma = c.trailingComma := rfl

@[simp]
theorem dirty_map (f : μ → ν) (c : Composite κ μ) : (c.map f).dirty = c.dirty := rfl

@[simp]
theorem children_push (c : Composite κ ν) (child : Child κ ν) :
    (c.push child).children = c.children ++ [child] := rfl

end Composite

/-! ### Nodes -/

/-- A JSON value without the text around it. A number is kept as it is spelled. -/
inductive Node where
  | null
  | bool (b : Bool)
  | number (spelling : Text)
  | string (literal : Literal)
  | object (members : Composite Key Node)
  | array (elements : Composite Unit Node)

/-- A member of an object. -/
abbrev Member := Child Key Node

/-- An object without its brackets. -/
abbrev Object := Composite Key Node

/-- A value with the text around it: an element of an array, or a whole document. -/
abbrev Value := Child Unit Node

/-- An array without its brackets. -/
abbrev Elements := Composite Unit Node

namespace Node

/-! ### Functions on trees -/

/-- What a function on trees answers on each kind of node, given its answers on the
children. -/
structure Algebra (α : Type) where
  null : α
  bool : Bool → α
  number : Text → α
  string : Literal → α
  object : Composite Key α → α
  array : Composite Unit α → α

variable {α : Type}

mutual

/-- The answer of an algebra on a node. -/
def fold (f : Algebra α) : Node → α
  | .null => f.null
  | .bool b => f.bool b
  | .number t => f.number t
  | .string l => f.string l
  | .object ms => f.object ⟨foldMembers f ms.children, ms.closing, ms.trailingComma, ms.dirty⟩
  | .array es => f.array ⟨foldElements f es.children, es.closing, es.trailingComma, es.dirty⟩

/-- The members of an object with the answers on their nodes. -/
def foldMembers (f : Algebra α) : List Member → List (Child Key α)
  | [] => []
  | m :: ms => ⟨m.lead, m.label, fold f m.node, m.trail, m.fresh⟩ :: foldMembers f ms

/-- The elements of an array with the answers on their nodes. -/
def foldElements (f : Algebra α) : List Value → List (Child Unit α)
  | [] => []
  | e :: es => ⟨e.lead, e.label, fold f e.node, e.trail, e.fresh⟩ :: foldElements f es

end

theorem foldMembers_eq_map (f : Algebra α) (ms : List Member) :
    foldMembers f ms = ms.map (Child.map (fold f)) := by
  induction ms with
  | nil => rfl
  | cons m ms ih => simp [foldMembers, Child.map, ih]

theorem foldElements_eq_map (f : Algebra α) (es : List Value) :
    foldElements f es = es.map (Child.map (fold f)) := by
  induction es with
  | nil => rfl
  | cons e es ih => simp [foldElements, Child.map, ih]

@[simp]
theorem fold_null (f : Algebra α) : fold f .null = f.null := rfl

@[simp]
theorem fold_bool (f : Algebra α) (b : Bool) : fold f (.bool b) = f.bool b := rfl

@[simp]
theorem fold_number (f : Algebra α) (t : Text) : fold f (.number t) = f.number t := rfl

@[simp]
theorem fold_string (f : Algebra α) (l : Literal) : fold f (.string l) = f.string l := rfl

/-- On an object the answer comes from the answers on its members. -/
@[simp]
theorem fold_object (f : Algebra α) (ms : Object) :
    fold f (.object ms) = f.object (ms.map (fold f)) := by
  rw [fold, foldMembers_eq_map]
  rfl

/-- On an array the answer comes from the answers on its elements. -/
@[simp]
theorem fold_array (f : Algebra α) (es : Elements) :
    fold f (.array es) = f.array (es.map (fold f)) := by
  rw [fold, foldElements_eq_map]
  rfl

/-! ### Proofs about trees -/

/-- What is asked of a proof about every node: it holds of a leaf, and of a
composite as soon as it holds of the children. -/
structure Step (P : Node → Prop) : Prop where
  null : P .null
  bool : ∀ b, P (.bool b)
  number : ∀ t, P (.number t)
  string : ∀ l, P (.string l)
  object : ∀ ms : Object, (∀ m ∈ ms.children, P m.node) → P (.object ms)
  array : ∀ es : Elements, (∀ e ∈ es.children, P e.node) → P (.array es)

mutual

/-- **What holds of a composite as soon as it holds of its children holds of every
node.** -/
theorem induction {P : Node → Prop} (step : Step P) : ∀ n, P n
  | .null => step.null
  | .bool b => step.bool b
  | .number t => step.number t
  | .string l => step.string l
  | .object ms => step.object ms (members_induction step ms.children)
  | .array es => step.array es (elements_induction step es.children)

theorem members_induction {P : Node → Prop} (step : Step P) :
    ∀ ms : List Member, ∀ m ∈ ms, P m.node
  | [], _, h => absurd h List.not_mem_nil
  | m :: ms, m', h => by
    rcases List.mem_cons.1 h with h | h
    · exact h ▸ induction step m.node
    · exact members_induction step ms m' h

theorem elements_induction {P : Node → Prop} (step : Step P) :
    ∀ es : List Value, ∀ e ∈ es, P e.node
  | [], _, h => absurd h List.not_mem_nil
  | e :: es, e', h => by
    rcases List.mem_cons.1 h with h | h
    · exact h ▸ induction step e.node
    · exact elements_induction step es e' h

end

end Node

end EnvManifest
