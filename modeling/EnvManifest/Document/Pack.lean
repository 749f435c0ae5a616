import EnvManifest.Document.Tree

/-!
# Writing a tree back

`Node.pack` and `Value.pack` write a tree as text: every slot, label and literal as
it is kept in the tree, with the brackets, colons and commas between them. The
equations `Node.pack_object` and `Node.pack_array` say what a composite is written
as in terms of its children, and are how a proof unfolds packing.

The file also has the two questions that layout asks of a node: what kind it is of,
and whether its text breaks a line.
-/

namespace EnvManifest

/-! ### Packing -/

/-- A child as written, once its node has been. -/
def Child.pack {κ : Type} [Label κ] (c : Child κ Text) : Text :=
  c.lead ++ Label.pack c.label ++ c.node ++ c.trail

/-- What is written between the brackets, once the nodes of the children have
been. A trailing comma needs a child to follow. -/
def Composite.pack {κ : Type} [Label κ] (c : Composite κ Text) : Text :=
  Text.join [','] (c.children.map Child.pack) ++
    (if c.trailingComma && !c.children.isEmpty then [','] else []) ++ c.closing

namespace Node

/-- Packing, kind by kind. -/
def packing : Algebra Text where
  null := "null".toList
  bool b := if b then "true".toList else "false".toList
  number t := t
  string l := l.raw
  object ms := '\x7b' :: ms.pack ++ ['\x7d']
  array es := '[' :: es.pack ++ [']']

/-- A node as written. -/
def pack (n : Node) : Text :=
  fold packing n

@[simp]
theorem pack_object (ms : Object) :
    pack (.object ms) = '\x7b' :: (ms.map pack).pack ++ ['\x7d'] := by
  rw [pack, fold_object]
  rfl

@[simp]
theorem pack_array (es : Elements) : pack (.array es) = '[' :: (es.map pack).pack ++ [']'] := by
  rw [pack, fold_array]
  rfl

/-! ### Kinds -/

/-- The name of a node's kind. -/
def kindName : Node → Text
  | .null => "null".toList
  | .bool _ => "bool".toList
  | .number _ => "number".toList
  | .string _ => "string".toList
  | .object _ => "object".toList
  | .array _ => "array".toList

/-- The text that a string node stands for. -/
def text? : Node → Option Text
  | .string l => some l.value
  | _ => none

/-- The object that an object node holds. -/
def object? : Node → Option Object
  | .object ms => some ms
  | _ => none

/-- The elements that an array node holds. -/
def array? : Node → Option Elements
  | .array es => some es
  | _ => none

/-- A string node with its text in the canonical spelling. -/
def ofText (s : Text) : Node :=
  .string (Literal.ofText s)

/-- The node with the mark of an edit, if it is a composite. -/
def markDirty : Node → Node
  | .object ms => .object { ms with dirty := true }
  | .array es => .array { es with dirty := true }
  | n => n

end Node

/-! ### Newlines -/

/-- Whether a child breaks a line, its node having been asked. -/
def Child.breaksLine {κ : Type} [Label κ] (c : Child κ Bool) : Bool :=
  c.lead.breaksLine || (Label.slots c.label).any Text.breaksLine || c.trail.breaksLine || c.node

/-- Whether the text between the brackets breaks a line, the nodes of the children
having been asked. -/
def Composite.breaksLine {κ : Type} [Label κ] (c : Composite κ Bool) : Bool :=
  c.closing.breaksLine || c.children.any Child.breaksLine

namespace Node

/-- Breaking a line, kind by kind. A leaf is always on one line. -/
def lineBreaking : Algebra Bool where
  null := false
  bool _ := false
  number _ := false
  string _ := false
  object ms := ms.breaksLine
  array es := es.breaksLine

/-- Whether the packed node spans more than one line. -/
def breaksLine (n : Node) : Bool :=
  fold lineBreaking n

theorem breaksLine_object (ms : Object) :
    breaksLine (.object ms) = (ms.map breaksLine).breaksLine := by
  rw [breaksLine, fold_object]
  rfl

theorem breaksLine_array (es : Elements) :
    breaksLine (.array es) = (es.map breaksLine).breaksLine := by
  rw [breaksLine, fold_array]
  rfl

end Node

/-! ### Values and members -/

namespace Value

/-- The value as written, with the text around it. -/
def pack (v : Value) : Text :=
  v.lead ++ v.node.pack ++ v.trail

/-- A fresh value around a node. -/
def new (n : Node) : Value :=
  ⟨[], (), n, [], true⟩

/-- A fresh string value. -/
def ofText (s : Text) : Value :=
  new (Node.ofText s)

end Value

namespace Member

/-- The name of a member, decoded. -/
def name (m : Member) : Text :=
  m.label.name.value

/-- A fresh member. -/
def new (name : Text) (n : Node) : Member :=
  ⟨[], ⟨Literal.ofText name, [], []⟩, n, [], true⟩

/-- A fresh member that starts a line of its own. -/
def onOwnLine (name : Text) (n : Node) : Member :=
  ⟨['\n'], ⟨Literal.ofText name, [], []⟩, n, [], true⟩

end Member

end EnvManifest
