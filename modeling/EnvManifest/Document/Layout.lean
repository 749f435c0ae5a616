import EnvManifest.Document.Layout.Settle

/-!
# Laying out an edited document

An edit leaves its mark on the composites that it changed and on the children that
it made; `Value.format` lays these out and leaves every other character alone. After
the first pass (`Node.settle`), the composites that go on several lines are indented
from the root down: new children, and children that are not yet on a line of their
own, are put on one, indented like a sibling, or one step deeper than the line of the
opening bracket. The step is taken from the document itself, and is a tab if the
document shows none.

A document without a mark is not touched (`Value.format_of_not_isDirty`).
-/

namespace EnvManifest

/-! ### The step of the indentation -/

/-- The indentation of the line that a child's value opens on, if the child starts a
line. -/
def Child.lineIndent? {κ ν : Type} [Label κ] (c : Child κ ν) : Option Text :=
  ((Label.slots c.label).getLast?.bind indentOf?).or (indentOf? c.lead)

/-- By how much an indentation is deeper than that of the line around it. -/
def stepBeyond? (line indent : Text) : Option Text :=
  match Text.without? line indent with
  | some [] => none
  | step => step

/-- The first step among some children and what is in them: `line` is the indentation
of the line that holds the opening bracket, `current` that of the line a child is
on. -/
def findStep {κ : Type} [Label κ] (line : Text) :
    (current : Text) → List (Child κ (Text → Option Text)) → Option Text
  | _, [] => none
  | current, c :: cs =>
    if c.fresh then findStep line current cs
    else
      match (indentOf? c.lead).bind (stepBeyond? line) with
      | some step => some step
      | none =>
        let current := (indentOf? c.lead).getD current
        match c.node (c.lineIndent?.getD current) with
        | some step => some step
        | none => findStep line current cs

namespace Node

/-- Finding the step of a document, kind by kind, from the indentation of the line that
a node opens on. -/
def stepFinding : Algebra (Text → Option Text) where
  null _ := none
  bool _ _ := none
  number _ _ := none
  string _ _ := none
  object ms line := findStep line line ms.children
  array es line := findStep line line es.children

/-- The first step of indentation in a node that opens on a line with indentation
`line`. -/
def step? (n : Node) (line : Text) : Option Text :=
  fold stepFinding n line

end Node

/-! ### Indenting -/

namespace Composite

variable {κ ν : Type}

/-- The indentation of children on lines of their own: that of the first one that was
there before, or one step deeper than the opening bracket. -/
def childIndent (line step : Text) (children : List (Child κ ν)) : Text :=
  match (children.filter fun c => !c.fresh).findSome? fun c => indentOf? c.lead with
  | some indent => indent
  | none => line ++ step

/-- A child on a line of its own. -/
def onLine (indent : Text) (first : Bool) (c : Child κ ν) : Child κ ν :=
  if c.fresh || !c.lead.breaksLine then { c with lead := ownLine c.lead first indent } else c

/-- A composite with every child and its closing bracket on lines of their own. -/
def breakLines (line step : Text) (c : Composite κ ν) : Composite κ ν :=
  let indent := childIndent line step c.children
  let children := match c.children with
    | [] => []
    | k :: ks => onLine indent true k :: ks.map (onLine indent false)
  let closing := if c.closing.breaksLine then c.closing else closingLine c.closing indent line
  ⟨children, closing, c.trailingComma, false⟩

/-- The children with their nodes indented, each for the line that it opens on. -/
def indentChildren [Label κ] : (current : Text) → List (Child κ (Text → ν)) → List (Child κ ν)
  | _, [] => []
  | current, c :: cs =>
    let current := c.lineIndent?.getD current
    ⟨c.lead, c.label, c.node current, c.trail, false⟩ :: indentChildren current cs

/-- The composite indented, with its opening bracket on a line with indentation
`line`. -/
def indent [Label κ] (step line : Text) (c : Composite κ (Text → ν)) : Composite κ ν :=
  let c := if c.dirty then c.breakLines line step else c
  ⟨indentChildren line c.children, c.closing, c.trailingComma, c.dirty⟩

end Composite

namespace Node

/-- Indenting, kind by kind, from the indentation of the line that a node opens on. -/
def indenting (step : Text) : Algebra (Text → Node) where
  null _ := .null
  bool b _ := .bool b
  number t _ := .number t
  string l _ := .string l
  object ms line := .object (ms.indent step line)
  array es line := .array (es.indent step line)

/-- The node with every dirty composite in it indented. -/
def indent (step : Text) (n : Node) (line : Text) : Node :=
  fold (indenting step) n line

@[simp]
theorem indent_object (step : Text) (ms : Object) (line : Text) :
    indent step (.object ms) line = .object ((ms.map (indent step)).indent step line) := by
  rw [indent, fold_object]
  rfl

@[simp]
theorem indent_array (step : Text) (es : Elements) (line : Text) :
    indent step (.array es) line = .array ((es.map (indent step)).indent step line) := by
  rw [indent, fold_array]
  rfl

end Node

/-! ### The whole document -/

namespace Value

/-- **The document with its edited composites laid out.** -/
def format (v : Value) : Value :=
  if v.node.isDirty then
    let settled := v.node.settle v.isStandard
    let line := (indentOf? v.lead).getD []
    let step := (settled.step? line).getD ['\t']
    { v with node := settled.indent step line }
  else v

/-- A document without a mark is not touched. -/
theorem format_of_not_isDirty {v : Value} (h : v.node.isDirty = false) : v.format = v := by
  simp [format, h]

/-- The root of a laid out object is an object, with the slots around it unchanged. -/
theorem format_object (lead trail : Text) (root : Object) :
    ∃ root', format ⟨lead, (), .object root, trail, false⟩ =
      ⟨lead, (), .object root', trail, false⟩ := by
  rw [format]
  split
  · simp
  · exact ⟨root, rfl⟩

end Value

end EnvManifest
