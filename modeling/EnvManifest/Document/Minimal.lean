import EnvManifest.Document.Pack
import EnvManifest.Document.Trivia

/-!
# Strict JSON

Every document has a *minimal* form: all slots emptied, all trailing commas taken
away, all string literals in the canonical spelling. Its text is strict JSON
without a blank between two tokens, and two documents with the same values have the
same minimal text, which is why documents are hashed and decoded in this form.

A document is *standard* if it is strict JSON as it stands, that is without a
comment or a trailing comma anywhere; its white space and its spelling of strings
may be of any kind.
-/

namespace EnvManifest

/-! ### The minimal form -/

/-- A child with its slots emptied and its label in the canonical spelling. -/
def Child.minimal {κ ν : Type} [Label κ] (c : Child κ ν) : Child κ ν :=
  ⟨[], Label.minimal c.label, c.node, [], c.fresh⟩

/-- A composite with its slots emptied and without a trailing comma. -/
def Composite.minimal {κ ν : Type} [Label κ] (c : Composite κ ν) : Composite κ ν :=
  ⟨c.children.map Child.minimal, [], false, c.dirty⟩

namespace Node

/-- The minimal form, kind by kind. -/
def minimizing : Algebra Node where
  null := .null
  bool b := .bool b
  number t := .number t
  string l := .string l.respell
  object ms := .object ms.minimal
  array es := .array es.minimal

/-- The minimal form of a node. -/
def minimal (n : Node) : Node :=
  fold minimizing n

@[simp]
theorem minimal_object (ms : Object) : minimal (.object ms) = .object (ms.map minimal).minimal := by
  rw [minimal, fold_object]
  rfl

@[simp]
theorem minimal_array (es : Elements) : minimal (.array es) = .array (es.map minimal).minimal := by
  rw [minimal, fold_array]
  rfl

end Node

namespace Value

/-- The minimal form of a value. -/
def minimal (v : Value) : Value :=
  ⟨[], (), v.node.minimal, [], v.fresh⟩

/-- **The strict, compact JSON text of a value.** -/
def minimalText (v : Value) : Text :=
  v.minimal.pack

theorem minimalText_eq (v : Value) : v.minimalText = v.node.minimal.pack := by
  simp [minimalText, minimal, pack]

end Value

/-! ### Building strict JSON -/

namespace Node

/-- An object with nothing in its slots. -/
def strictObject (members : List (Text × Node)) : Node :=
  .object ⟨members.map fun m => ⟨[], ⟨Literal.ofText m.1, [], []⟩, m.2, [], false⟩, [], false, false⟩

/-- An array with nothing in its slots. -/
def strictArray (elements : List Node) : Node :=
  .array ⟨elements.map fun n => ⟨[], (), n, [], false⟩, [], false, false⟩

/-- An array of strings with nothing in its slots. -/
def ofTexts (texts : List Text) : Node :=
  strictArray (texts.map ofText)

@[simp]
theorem minimal_ofText (s : Text) : (ofText s).minimal = ofText s := rfl

/-- What is built strict is minimal already. -/
theorem minimal_strictArray {elements : List Node} (h : ∀ n ∈ elements, n.minimal = n) :
    (strictArray elements).minimal = strictArray elements := by
  simp only [strictArray, minimal_array, Composite.minimal, Composite.map, List.map_map]
  congr 2
  exact List.map_congr_left fun n hn => by simp [Child.map, Child.minimal, Label.minimal, h n hn]

theorem minimal_strictObject {members : List (Text × Node)}
    (h : ∀ m ∈ members, m.2.minimal = m.2) :
    (strictObject members).minimal = strictObject members := by
  simp only [strictObject, minimal_object, Composite.minimal, Composite.map, List.map_map]
  congr 2
  exact List.map_congr_left fun m hm => by
    simp [Child.map, Child.minimal, Label.minimal, Literal.respell, Literal.ofText, h m hm]

end Node

/-! ### Standard documents -/

/-- Whether a child has no comment around its node, and the node is standard. -/
def Child.isStandard {κ : Type} [Label κ] (c : Child κ Bool) : Bool :=
  !hasComment c.lead && (Label.slots c.label).all (fun s => !hasComment s) &&
    c.node && !hasComment c.trail

/-- Whether the text between the brackets has no comment and no trailing comma. -/
def Composite.isStandard {κ : Type} [Label κ] (c : Composite κ Bool) : Bool :=
  !(c.trailingComma && !c.children.isEmpty) && !hasComment c.closing &&
    c.children.all Child.isStandard

namespace Node

/-- Being standard, kind by kind. -/
def standardness : Algebra Bool where
  null := true
  bool _ := true
  number _ := true
  string _ := true
  object ms := ms.isStandard
  array es := es.isStandard

/-- Whether a node has no comment and no trailing comma in it. -/
def isStandard (n : Node) : Bool :=
  fold standardness n

end Node

/-- Whether a value is strict JSON as it stands. -/
def Value.isStandard (v : Value) : Bool :=
  !hasComment v.lead && !hasComment v.trail && v.node.isStandard

end EnvManifest
