import EnvManifest.Document.Edit
import EnvManifest.Document.Layout
import EnvManifest.Document.Parser

/-!
# Reaching into a document

A path leads from the root to a value: a name picks the first member of that name, a
number picks the member or element at that place. `Value.at?` looks up what a path
leads to and `Value.update?` replaces it; both have no answer if the path leads
nowhere. The edits below it are those of a tree by hand, where anything may be put
into any slot.
-/

namespace EnvManifest

/-- One step of a path. -/
inductive PathItem where
  | key (name : Text)
  | index (i : Nat)
deriving DecidableEq

/-- A value as it is seen from where it stands: its node and the slots on both sides
of it. Behind the colon of a member the slot in front is the one after the colon. -/
structure Around where
  before : Text
  node : Node
  after : Text

/-- The place of a member. -/
def Object.place? (o : Object) : PathItem → Option Nat
  | .key name => Object.index? o name
  | .index i => if i < o.children.length then some i else none

/-- The place of an element. -/
def Elements.place? (es : Elements) : PathItem → Option Nat
  | .key _ => none
  | .index i => if i < es.children.length then some i else none

namespace Around

/-- The value of a member. -/
def ofMember (m : Member) : Around :=
  ⟨m.label.afterColon, m.node, m.trail⟩

/-- The value of an element, or of a document. -/
def ofValue (v : Value) : Around :=
  ⟨v.lead, v.node, v.trail⟩

/-- The value as written, with its slots. -/
def pack (a : Around) : Text :=
  a.before ++ a.node.pack ++ a.after

/-- The member with another value. -/
def toMember (a : Around) (m : Member) : Member :=
  { m with label := { m.label with afterColon := a.before }, node := a.node, trail := a.after }

/-- The element with another value. -/
def toValue (a : Around) (v : Value) : Value :=
  { v with lead := a.before, node := a.node, trail := a.after }

/-- What a path leads to. -/
def at? : List PathItem → Around → Option Around
  | [], a => some a
  | item :: path, a =>
    match a.node with
    | .object ms => do
      let m ← ms.children[← Object.place? ms item]?
      at? path (ofMember m)
    | .array es => do
      let e ← es.children[← Elements.place? es item]?
      at? path (ofValue e)
    | _ => none

/-- What a path leads to, replaced by what `f` makes of it. -/
def update? (f : Around → Option Around) : List PathItem → Around → Option Around
  | [], a => f a
  | item :: path, a =>
    match a.node with
    | .object ms => do
      let i ← Object.place? ms item
      let m ← ms.children[i]?
      let b ← update? f path (ofMember m)
      some { a with node := .object { ms with children := ms.children.set i (b.toMember m) } }
    | .array es => do
      let i ← Elements.place? es item
      let e ← es.children[i]?
      let b ← update? f path (ofValue e)
      some { a with node := .array { es with children := es.children.set i (b.toValue e) } }
    | _ => none

end Around

namespace Value

/-- What a path leads to. -/
def at? (v : Value) (path : List PathItem) : Option Around :=
  Around.at? path (.ofValue v)

/-- The document with what a path leads to replaced. -/
def update? (v : Value) (path : List PathItem) (f : Around → Option Around) : Option Value :=
  (Around.update? f path (.ofValue v)).map fun a => a.toValue v

/-! ### Edits by hand -/

/-- The node at a path replaced. -/
def updateNode? (v : Value) (path : List PathItem) (f : Node → Option Node) : Option Value :=
  update? v path fun a => (f a.node).map fun n => { a with node := n }

/-- The node at a path replaced, its slots kept. -/
def setNode? (v : Value) (path : List PathItem) (n : Node) : Option Value :=
  updateNode? v path fun _ => some n

/-- The node at a path marked as edited. -/
def markDirty? (v : Value) (path : List PathItem) : Option Value :=
  updateNode? v path fun n => some n.markDirty

/-- The slot in front of the value at a path set. -/
def setBefore? (v : Value) (path : List PathItem) (slot : Text) : Option Value :=
  update? v path fun a => some { a with before := slot }

/-- The slot behind the value at a path set. -/
def setAfter? (v : Value) (path : List PathItem) (slot : Text) : Option Value :=
  update? v path fun a => some { a with after := slot }

/-- The trailing comma of the composite at a path set. -/
def setComma? (v : Value) (path : List PathItem) (comma : Bool) : Option Value :=
  updateNode? v path fun
    | .object ms => some (.object { ms with trailingComma := comma })
    | .array es => some (.array { es with trailingComma := comma })
    | _ => none

/-- The slot before the closing bracket of the composite at a path set. -/
def setClosing? (v : Value) (path : List PathItem) (slot : Text) : Option Value :=
  updateNode? v path fun
    | .object ms => some (.object { ms with closing := slot })
    | .array es => some (.array { es with closing := slot })
    | _ => none

/-- A value put at the end of the array at a path; `ownLine` starts a line for it. -/
def pushElement? (v : Value) (path : List PathItem) (ownLine : Bool) (e : Value) : Option Value :=
  updateNode? v path fun
    | .array es => some (.array (es.push { e with lead := e.lead ++ Text.repeated ownLine.toNat '\n' }))
    | _ => none

/-- A value put at the end of the object at a path under a name. -/
def pushMember? (v : Value) (path : List PathItem) (ownLine : Bool) (name : Text) (e : Value) :
    Option Value :=
  updateNode? v path fun
    | .object ms =>
      some (.object (ms.push ⟨Text.repeated ownLine.toNat '\n', ⟨Literal.ofText name, [], e.lead⟩,
        e.node, e.trail, e.fresh⟩))
    | _ => none

/-- The child at a place of the composite at a path taken out. -/
def removeAt? (v : Value) (path : List PathItem) (i : Nat) : Option Value :=
  updateNode? v path fun
    | .object ms => if i < ms.children.length then some (.object (ms.remove i)) else none
    | .array es => if i < es.children.length then some (.array (es.remove i)) else none
    | _ => none

/-- The slot in front of a member and its key, at a path that ends in the member,
replaced. -/
def updateKey? (v : Value) (path : List PathItem) (f : Text × Key → Text × Key) : Option Value :=
  match path.reverse with
  | [] => none
  | item :: parents =>
    updateNode? v parents.reverse fun
      | .object ms => do
        let i ← Object.place? ms item
        let m ← ms.children[i]?
        let (lead, key) := f (m.lead, m.label)
        let edited : Member := { m with lead := lead, label := key }
        some (.object { ms with children := ms.children.set i edited })
      | _ => none

end Value

/-! ### Comments in front of a value -/

/-- The slot in front of what a path leads to, which is in front of the name of a
member; `lead` is the slot in front of the node itself. -/
def Node.leadAt? : List PathItem → Text → Node → Option Text
  | [], lead, _ => some lead
  | item :: path, _, n =>
    match n with
    | .object ms => do
      let m ← ms.children[← Object.place? ms item]?
      leadAt? path m.lead m.node
    | .array es => do
      let e ← es.children[← Elements.place? es item]?
      leadAt? path e.lead e.node
    | _ => none

/-- **The comment right in front of what a path leads to**, without its marks; nothing
if there is none or the path leads nowhere. -/
def Value.commentAt (v : Value) (path : List PathItem) : Text :=
  match Node.leadAt? path v.lead v.node with
  | some lead => commentText lead
  | none => []

end EnvManifest
