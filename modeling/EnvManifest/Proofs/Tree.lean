import EnvManifest.Document.Datum
import EnvManifest.Document.Pack
import EnvManifest.Proofs.Reading.Literal

/-!
# Trees

What is proved of trees is mostly of two kinds. A *local* property is asked of every
node of a tree, each time looking at one node only; `Node.Everywhere` asks it of all of
them. A *view* forgets the layout of a tree, and two trees that differ in layout only
have the same view: the `Node.outline` keeps the literals with their spelling and the
`Node.datum` keeps what they stand for, so that the outline decides the datum
(`Node.datum_eq`) and the grammar is about outlines.

Neither does layout change whether a tree can be derived at all: whether every number,
string and name in it is spelled as the grammar wants it, and how deep it nests
(`Node.Fits`).
-/

namespace EnvManifest

namespace Node

/-! ### Kinds -/

theorem object?_eq_some {n : Node} {o : Object} : n.object? = some o ↔ n = .object o := by
  cases n <;> simp [object?]

theorem array?_eq_some {n : Node} {es : Elements} : n.array? = some es ↔ n = .array es := by
  cases n <;> simp [array?]

/-! ### Local properties -/

/-- The nodes of the children of a node. -/
def inner : Node → List Node
  | .object ms => ms.children.map Child.node
  | .array es => es.children.map Child.node
  | _ => []

/-- The property holds of a node and of every node in it. -/
inductive Everywhere (P : Node → Prop) : Node → Prop
  | mk {n : Node} : P n → (∀ k ∈ n.inner, Everywhere P k) → Everywhere P n

namespace Everywhere

variable {P Q : Node → Prop}

theorem here {n : Node} (h : Everywhere P n) : P n := by
  cases h with
  | mk h _ => exact h

theorem inner {n k : Node} (h : Everywhere P n) (hk : k ∈ n.inner) : Everywhere P k := by
  cases h with
  | mk _ h => exact h k hk

theorem mono (hPQ : ∀ n, P n → Q n) {n : Node} (h : Everywhere P n) : Everywhere Q n := by
  induction h with
  | mk h _ ih => exact .mk (hPQ _ h) ih

theorem and {n : Node} (hP : Everywhere P n) (hQ : Everywhere Q n) :
    Everywhere (fun k => P k ∧ Q k) n := by
  induction hP with
  | mk h _ ih => exact .mk ⟨h, hQ.here⟩ fun k hk => ih k hk (hQ.inner hk)

end Everywhere

variable {P : Node → Prop}

/-- **What a node has as soon as the nodes of its children have it, every node has.** -/
theorem inner_induction (h : ∀ n : Node, (∀ k ∈ n.inner, P k) → P n) : ∀ n, P n := by
  have leaf : ∀ n : Node, n.inner = [] → P n := fun n hn => h n (by simp [hn])
  refine induction {
    null := leaf _ rfl
    bool := fun _ => leaf _ rfl
    number := fun _ => leaf _ rfl
    string := fun _ => leaf _ rfl
    object := fun ms ih => h _ fun k hk => ?_
    array := fun es ih => h _ fun k hk => ?_ }
  · obtain ⟨m, hm, rfl⟩ := List.mem_map.1 hk
    exact ih m hm
  · obtain ⟨e, he, rfl⟩ := List.mem_map.1 hk
    exact ih e he

theorem Everywhere.of_forall (h : ∀ n, P n) : ∀ n, Everywhere P n :=
  inner_induction fun n ih => .mk (h n) ih

@[simp]
theorem everywhere_object {ms : Object} : Everywhere P (.object ms) ↔
    P (.object ms) ∧ ∀ m ∈ ms.children, Everywhere P m.node := by
  constructor
  · intro h
    exact ⟨h.here, fun m hm => h.inner (List.mem_map_of_mem hm)⟩
  · rintro ⟨h, hms⟩
    refine .mk h fun k hk => ?_
    obtain ⟨m, hm, rfl⟩ := List.mem_map.1 hk
    exact hms m hm

@[simp]
theorem everywhere_array {es : Elements} : Everywhere P (.array es) ↔
    P (.array es) ∧ ∀ e ∈ es.children, Everywhere P e.node := by
  constructor
  · intro h
    exact ⟨h.here, fun e he => h.inner (List.mem_map_of_mem he)⟩
  · rintro ⟨h, hes⟩
    refine .mk h fun k hk => ?_
    obtain ⟨e, he, rfl⟩ := List.mem_map.1 hk
    exact hes e he

theorem everywhere_of_inner_eq_nil {n : Node} (hn : n.inner = []) : Everywhere P n ↔ P n := by
  refine ⟨fun h => h.here, fun h => .mk h fun k hk => ?_⟩
  rw [hn] at hk
  exact absurd hk List.not_mem_nil

@[simp]
theorem everywhere_null : Everywhere P .null ↔ P .null :=
  everywhere_of_inner_eq_nil rfl

@[simp]
theorem everywhere_bool {b : Bool} : Everywhere P (.bool b) ↔ P (.bool b) :=
  everywhere_of_inner_eq_nil rfl

@[simp]
theorem everywhere_number {t : Text} : Everywhere P (.number t) ↔ P (.number t) :=
  everywhere_of_inner_eq_nil rfl

@[simp]
theorem everywhere_string {l : Literal} : Everywhere P (.string l) ↔ P (.string l) :=
  everywhere_of_inner_eq_nil rfl

/-! ### Outlines -/

/-- The outline, kind by kind. -/
def outlining : Algebra Outline where
  null := .null
  bool := .bool
  number := .number
  string := .string
  object ms := .object (ms.children.map fun m => (m.label.name, m.node))
  array es := .array (es.children.map fun e => e.node)

/-- The members, elements and literals of a node, in order. -/
def outline (n : Node) : Outline :=
  fold outlining n

@[simp]
theorem outline_object (ms : Object) :
    outline (.object ms) = .object (ms.children.map fun m => (m.label.name, outline m.node)) := by
  rw [outline, fold_object]
  simp [outlining, outline, Function.comp_def]

@[simp]
theorem outline_array (es : Elements) :
    outline (.array es) = .array (es.children.map fun e => outline e.node) := by
  rw [outline, fold_array]
  simp [outlining, outline, Function.comp_def]

/-- What has the outline of an object is an object. -/
theorem exists_object_of_outline {n : Node} {o : Object}
    (h : n.outline = (Node.object o).outline) : ∃ o', n = .object o' := by
  cases n with
  | object o' => exact ⟨o', rfl⟩
  | array es => simp at h
  | null | bool b | number t | string l =>
    rw [outline_object] at h
    simp [outline, outlining] at h

end Node

mutual

/-- What the value of an outline stands for. -/
def Outline.datum : Outline → Datum
  | .null => .null
  | .bool b => .bool b
  | .number t => .number t
  | .string l => .string l.value
  | .object ms => .object (datumMembers ms)
  | .array es => .array (datumElements es)

/-- What the members of an outline stand for. -/
def Outline.datumMembers : List (Literal × Outline) → List (Text × Datum)
  | [] => []
  | (l, o) :: ms => (l.value, Outline.datum o) :: Outline.datumMembers ms

/-- What the elements of an outline stand for. -/
def Outline.datumElements : List Outline → List Datum
  | [] => []
  | o :: es => Outline.datum o :: Outline.datumElements es

end

theorem Outline.datumMembers_eq_map (ms : List (Literal × Outline)) :
    datumMembers ms = ms.map fun m => (m.1.value, m.2.datum) := by
  induction ms with
  | nil => rfl
  | cons m ms ih => simp [datumMembers, ih]

theorem Outline.datumElements_eq_map (es : List Outline) :
    datumElements es = es.map Outline.datum := by
  induction es with
  | nil => rfl
  | cons e es ih => simp [datumElements, ih]

namespace Node

/-- **The outline decides what a node says.** -/
theorem datum_eq : ∀ n : Node, n.datum = n.outline.datum :=
  induction {
    null := rfl
    bool := fun _ => rfl
    number := fun _ => rfl
    string := fun _ => rfl
    object := fun ms ih => by
      rw [datum_object, outline_object, Outline.datum, Outline.datumMembers_eq_map, List.map_map]
      congr 1
      exact List.map_congr_left fun m hm => by simp [Member.name, ih m hm]
    array := fun es ih => by
      rw [datum_array, outline_array, Outline.datum, Outline.datumElements_eq_map, List.map_map]
      congr 1
      exact List.map_congr_left fun e he => by simp [ih e he] }

end Node

/-! ### Spelling and depth -/

/-- The literals in a label. -/
class Named (κ : Type) [Label κ] where
  names : κ → List Literal
  /-- The slots of a label are no part of its names. -/
  names_mapSlots : ∀ (f g : Text → Text) (k : κ), names (Label.mapSlots f g k) = names k
  /-- The slots of a label are changed one by one. -/
  mem_slots_mapSlots : ∀ (f g : Text → Text) (k : κ), ∀ t ∈ Label.slots (Label.mapSlots f g k),
    ∃ u ∈ Label.slots k, t = f u ∨ t = g u

instance : Named Key where
  names k := [k.name]
  names_mapSlots _ _ _ := rfl
  mem_slots_mapSlots f g k t ht := by
    rcases List.mem_pair.1 ht with rfl | rfl
    · exact ⟨k.beforeColon, by simp [Label.slots], Or.inl rfl⟩
    · exact ⟨k.afterColon, by simp [Label.slots], Or.inr rfl⟩

instance : Named Unit where
  names _ := []
  names_mapSlots _ _ _ := rfl
  mem_slots_mapSlots _ _ _ _ ht := absurd ht List.not_mem_nil

/-- The names in a label are spelled as literals are, and the node is as `inner` says. -/
def Child.Fits {κ ν : Type} [Label κ] [Named κ] (inner : ν → Prop) (c : Child κ ν) : Prop :=
  (∀ l ∈ Named.names c.label, IsLiteral l) ∧ inner c.node

/-- Fitting, kind by kind. -/
def Node.fitting : Algebra (Nat → Prop) where
  null _ := True
  bool _ _ := True
  number t _ := IsNumber t
  string l _ := IsLiteral l
  object ms d := ∃ e, d = e + 1 ∧ ∀ m ∈ ms.children, m.Fits (· e)
  array es d := ∃ e, d = e + 1 ∧ ∀ m ∈ es.children, m.Fits (· e)

namespace Node

/-- Everything in a tree is spelled as the grammar wants it, and objects and arrays nest
up to `d` deep. -/
def Fits (d : Nat) (n : Node) : Prop :=
  fold fitting n d

variable {d : Nat}

@[simp]
theorem fits_null : Fits d .null := trivial

@[simp]
theorem fits_bool {b : Bool} : Fits d (.bool b) := trivial

@[simp]
theorem fits_number {t : Text} : Fits d (.number t) ↔ IsNumber t := Iff.rfl

@[simp]
theorem fits_string {l : Literal} : Fits d (.string l) ↔ IsLiteral l := Iff.rfl

theorem fits_object_iff {ms : Object} :
    Fits d (.object ms) ↔ ∃ e, d = e + 1 ∧ ∀ m ∈ ms.children, m.Fits (Fits e) := by
  rw [Fits, fold_object]
  simp [fitting, Child.Fits, Fits]

theorem fits_array_iff {es : Elements} :
    Fits d (.array es) ↔ ∃ e, d = e + 1 ∧ ∀ m ∈ es.children, m.Fits (Fits e) := by
  rw [Fits, fold_array]
  simp [fitting, Child.Fits, Fits]

@[simp]
theorem fits_object {ms : Object} :
    Fits (d + 1) (.object ms) ↔ ∀ m ∈ ms.children, m.Fits (Fits d) := by
  simp [fits_object_iff]

@[simp]
theorem fits_array {es : Elements} :
    Fits (d + 1) (.array es) ↔ ∀ m ∈ es.children, m.Fits (Fits d) := by
  simp [fits_array_iff]

theorem fits_ofText (s : Text) : Fits d (Node.ofText s) :=
  isLiteral_ofText s

end Node

/-! ### The marks of edits -/

/-- No edit has changed the composite since it was laid out. -/
def Composite.AtRest {κ ν : Type} (c : Composite κ ν) : Prop :=
  c.dirty = false ∧ ∀ m ∈ c.children, m.fresh = false

namespace Node

/-- No edit has changed the node since it was laid out. -/
def AtRestHere : Node → Prop
  | .object ms => ms.AtRest
  | .array es => es.AtRest
  | _ => True

/-- No edit has changed anything in a tree since it was laid out. -/
def AtRest (n : Node) : Prop :=
  Everywhere AtRestHere n

end Node

end EnvManifest
