import EnvManifest.Document.Layout.Slot
import EnvManifest.Document.Minimal

/-!
# Settling edited composites

The first pass of laying out a document goes from the leaves up. In every composite
that an edit changed it decides between one line and one line for each child, gives
a composite whose children are all new its trailing comma, and moves a line comment
that a comma would end up in behind the comma. A composite on one line is finished
here; one on several lines stays dirty, because its indentation is not known before
what is around it has been settled.

A composite goes on several lines if a child or its closing bracket is on a line of
its own already.
-/

namespace EnvManifest

namespace Composite

variable {κ : Type}

/-! ### Line comments and commas -/

/-- The children with every line comment that a comma would follow moved into the
next slot; `carry` is what comes from the child in front. The last slot is the one
before the closing bracket, and a comma stands in front of it if `comma` says so. -/
def shiftComments {ν : Type} (comma : Bool) (closing : Text) :
    (carry : Text) → List (Child κ ν) → List (Child κ ν) × Text
  | carry, [] => ([], carry ++ closing)
  | carry, c :: cs =>
    let c := { c with lead := carry ++ c.lead }
    if (comma || !cs.isEmpty) && endsInLineComment c.trail then
      let moved := shiftComments comma closing c.trail cs
      ({ c with trail := [] } :: moved.1, moved.2)
    else
      let moved := shiftComments comma closing [] cs
      (c :: moved.1, moved.2)

/-! ### The parts of a line -/

/-- A fresh child with nothing but block comments and single spaces around its
colon. -/
def tidy {ν : Type} [Label κ] (c : Child κ ν) : Child κ ν :=
  let before (slot : Text) : Text := (inline slot [] [' '] [' ']).getD slot
  let after (slot : Text) : Text := (inline slot [' '] [' '] [' ']).getD slot
  if c.fresh then { c with label := Label.mapSlots before after c.label } else c

/-- What separates the children of a composite on one line: the first slot without a
comment between two children that were there before, or else a space. -/
def separator {ν : Type} (children : List (Child κ ν)) : Text :=
  match children.tail.find? fun c => !c.fresh && !hasComment c.lead with
  | some c => c.lead
  | none => [' ']

/-- The first child of a composite on one line: it stands as far from its bracket as
the closing bracket from the last. -/
def placeFirst {ν : Type} (pad : Text) (c : Child κ ν) : Child κ ν :=
  if !hasComment c.lead then { c with lead := pad, fresh := false }
  else if c.fresh then
    { c with lead := (inline c.lead [] [] [' ']).getD c.lead, fresh := false }
  else { c with fresh := false }

/-- A later child of a composite on one line. -/
def placeNext {ν : Type} (between : Text) (c : Child κ ν) : Child κ ν :=
  if c.fresh then
    { c with lead := (inline c.lead between [' '] [' ']).getD c.lead, fresh := false }
  else { c with fresh := false }

/-- The children of a composite on one line. -/
def placeInline {ν : Type} (pad : Text) (children : List (Child κ ν)) : List (Child κ ν) :=
  match children with
  | [] => []
  | c :: cs => placeFirst pad c :: cs.map (placeNext (separator (c :: cs)))

/-! ### One composite -/

/-- Whether the composite has to go on several lines. -/
def isMultiline (c : Composite κ Node) : Bool :=
  (!c.children.isEmpty || hasComment c.closing) &&
    (c.closing.breaksLine ||
      c.children.any fun k => k.lead.breaksLine || k.trail.breaksLine || k.node.breaksLine)

/-- The trailing comma: a composite whose children are all new gets one if it goes on
several lines, unless the document is strict JSON. -/
def settledComma (standard : Bool) (c : Composite κ Node) : Bool :=
  if c.children.all (·.fresh) then c.isMultiline && !standard && !c.children.isEmpty
  else c.trailingComma

/-- **A settled composite.** It stays dirty if it goes on several lines. -/
def settle [Label κ] (standard : Bool) (c : Composite κ Node) : Composite κ Node :=
  let multiline := c.isMultiline
  let comma := c.settledComma standard
  let shifted := shiftComments comma c.closing [] c.children
  let children := shifted.1.map tidy
  let closing := shifted.2
  if multiline then ⟨children, closing, comma, true⟩
  else
    let closing := if closing.breaksLine then (inline closing [] [' '] []).getD closing else closing
    let pad := if hasComment closing then [] else closing
    ⟨placeInline pad children, closing, comma, false⟩

end Composite

/-! ### A whole tree -/

namespace Node

/-- Whether a node or one below it is dirty, kind by kind. -/
def dirtiness : Algebra Bool where
  null := false
  bool _ := false
  number _ := false
  string _ := false
  object ms := ms.dirty || ms.children.any (·.node)
  array es := es.dirty || es.children.any (·.node)

/-- Whether an edit has changed a node or one below it. -/
def isDirty (n : Node) : Bool :=
  fold dirtiness n

/-- Settling, kind by kind; what is not dirty is left alone. -/
def settling (standard : Bool) : Algebra Node where
  null := .null
  bool b := .bool b
  number t := .number t
  string l := .string l
  object ms := .object (if ms.dirty then ms.settle standard else ms)
  array es := .array (if es.dirty then es.settle standard else es)

/-- The node with every dirty composite in it settled. -/
def settle (standard : Bool) (n : Node) : Node :=
  fold (settling standard) n

@[simp]
theorem settle_object (standard : Bool) (ms : Object) :
    settle standard (.object ms) =
      .object (if ms.dirty then (ms.map (settle standard)).settle standard
        else ms.map (settle standard)) := by
  rw [settle, fold_object]
  rfl

@[simp]
theorem settle_array (standard : Bool) (es : Elements) :
    settle standard (.array es) =
      .array (if es.dirty then (es.map (settle standard)).settle standard
        else es.map (settle standard)) := by
  rw [settle, fold_array]
  rfl

@[simp]
theorem isDirty_object (ms : Object) :
    isDirty (.object ms) = (ms.dirty || ms.children.any fun m => m.node.isDirty) := by
  rw [isDirty, fold_object]
  simp [dirtiness, isDirty, Function.comp_def]

@[simp]
theorem isDirty_array (es : Elements) :
    isDirty (.array es) = (es.dirty || es.children.any fun e => e.node.isDirty) := by
  rw [isDirty, fold_array]
  simp [dirtiness, isDirty, Function.comp_def]

end Node

end EnvManifest
