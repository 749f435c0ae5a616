import EnvManifest.Document.Minimal

/-!
# What a document says

The `Datum` of a node is the value it denotes, without anything of its layout:
strings and keys decoded, numbers as they are spelled, members and elements in
order. It is the view of the tree that editing has to respect and that settings are
decoded from. Slots, trailing commas, spelling of strings and the marks of edits do
not show in it (`Node.datum_minimal`).
-/

namespace EnvManifest

/-- The value of a document. Members keep their order, and a key may occur more than
once. -/
inductive Datum where
  | null
  | bool (b : Bool)
  | number (spelling : Text)
  | string (text : Text)
  | object (members : List (Text × Datum))
  | array (elements : List Datum)

namespace Node

/-- The denoted value, kind by kind. -/
def denoting : Algebra Datum where
  null := .null
  bool b := .bool b
  number t := .number t
  string l := .string l.value
  object ms := .object (ms.children.map fun c => (c.label.name.value, c.node))
  array es := .array (es.children.map fun c => c.node)

/-- The value that a node denotes. -/
def datum (n : Node) : Datum :=
  fold denoting n

@[simp]
theorem datum_object (ms : Object) :
    datum (.object ms) = .object (ms.children.map fun m => (Member.name m, datum m.node)) := by
  rw [datum, fold_object]
  simp [denoting, datum, Member.name, Function.comp_def]

@[simp]
theorem datum_array (es : Elements) :
    datum (.array es) = .array (es.children.map fun e => datum e.node) := by
  rw [datum, fold_array]
  simp [denoting, datum, Function.comp_def]

/-- The minimal form denotes the same value. -/
@[simp]
theorem datum_minimal : ∀ n : Node, n.minimal.datum = n.datum :=
  induction {
    null := rfl
    bool := fun _ => rfl
    number := fun _ => rfl
    string := fun _ => rfl
    object := fun ms ih => by
      simp only [minimal_object, datum_object, Composite.minimal, Composite.children_map,
        List.map_map, Function.comp_def]
      congr 1
      exact List.map_congr_left fun m hm => by
        simp [Child.minimal, Member.name, Label.minimal, ih m hm]
    array := fun es ih => by
      simp only [minimal_array, datum_array, Composite.minimal, Composite.children_map,
        List.map_map, Function.comp_def]
      congr 1
      exact List.map_congr_left fun e he => by simp [Child.minimal, ih e he] }

end Node

end EnvManifest
