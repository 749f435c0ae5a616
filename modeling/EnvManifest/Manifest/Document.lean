import EnvManifest.Document.Datum
import EnvManifest.Document.Layout
import EnvManifest.Document.Edit
import EnvManifest.Document.Parser
import EnvManifest.Error

/-!
# The document of a manifest

A manifest is kept as the tree of its document, whose root is an object. An edit is a
function on the root object that answers a value or an internal error; whatever it
answers, the document it leaves is laid out (`Document.edit`), so that an edit only
changes the layout of what it touched.
-/

namespace EnvManifest

/-- A document whose root is an object. -/
structure Document where
  lead : Text
  root : Object
  trail : Text

/-- An edit of an object: what it answers and the object that it leaves. -/
abbrev Edit (α : Type) := Object → Except InternalError α × Object

namespace Document

/-- The document as a value. -/
def toValue (d : Document) : Value :=
  ⟨d.lead, (), .object d.root, d.trail, false⟩

/-- The document that a value is, if its root is an object. -/
def ofValue? (v : Value) : Option Document :=
  match v.node with
  | .object root => some ⟨v.lead, root, v.trail⟩
  | _ => none

theorem ofValue?_toValue (d : Document) : ofValue? d.toValue = some d := rfl

/-- The names and values of the members of the root. -/
def members (d : Document) : List (Text × Datum) :=
  d.root.children.map fun m => (Member.name m, m.node.datum)

/-- The members of the root are the value of the document. -/
theorem datum_toValue (d : Document) : d.toValue.node.datum = .object d.members := by
  simp [toValue, members]

/-- The document as written. -/
def pack (d : Document) : Text :=
  d.toValue.pack

/-- The document of a text, or what is wrong with it. -/
def parse (s : Text) : Except Error Document :=
  match Value.parse s with
  | .error e => .error (.malformed e)
  | .ok v =>
    match ofValue? v with
    | some d => .ok d
    | none => .error (.user (.rootKind v.node.kindName))

/-- The document of octets, or what is wrong with them. -/
def parseOctets (b : Octets) : Except Error Document :=
  match Text.ofUtf8 b with
  | .ok s => parse s
  | .error n => .error (.malformed (.notUtf8 b n))

/-- The document laid out. -/
def format (d : Document) : Document :=
  match ofValue? d.toValue.format with
  | some d' => d'
  | none => d

/-- Laying out the document is laying out the value. -/
theorem toValue_format (d : Document) : d.format.toValue = d.toValue.format := by
  obtain ⟨root, h⟩ := Value.format_object d.lead d.trail d.root
  rw [format, show d.toValue.format = _ from h]
  rfl

/-- **The document after an edit, laid out**, and what the edit answers. -/
def edit {α : Type} (e : Edit α) (d : Document) : Except InternalError α × Document :=
  let r := e d.root
  (r.1, format { d with root := r.2 })

end Document

end EnvManifest
