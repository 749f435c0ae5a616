import EnvManifest.Document.Parser.Slot
import EnvManifest.Document.Parser.Literal
import EnvManifest.Document.Parser.Number
import EnvManifest.Document.Tree

/-!
# Reading a document

A document is one value with slots around it. `Parser.node` reads a node whose
objects and arrays nest at most as deep as it is told; what stands between two
brackets is read by one loop, `readChildren`, for objects and arrays alike. The loop
needs no bound of its own, because a child and its comma leave less of the input.

Behind a last child without a comma, the slot is cut at its first newline: what is
on the child's own line stays with the child, and the rest belongs to the closing
bracket.
-/

namespace EnvManifest

/-! ### Children -/

/-- What differs between the inside of an object and that of an array: how a label
is read, which bracket closes, and what a fault behind a child says. -/
structure Inside (κ : Type) where
  label : Parser κ
  close : Char
  afterChild : Expectation

/-- A child without the slot in front of it, read with `node`. -/
def Inside.child {κ : Type} (i : Inside κ) (node : Parser Node) (lead : Text) :
    Parser (Child κ Node) := do
  let label ← i.label
  let n ← node
  let trail ← Parser.slot
  pure ⟨lead, label, n, trail, false⟩

/-- The composite whose only child stands in front of the closing bracket. -/
def Composite.last {κ ν : Type} (c : Child κ ν) : Composite κ ν :=
  let cut := Text.cutAtNewline c.trail
  ⟨[{ c with trail := cut.1 }], cut.2, false, false⟩

/-- The composite with one more child in front of the others. -/
def Composite.cons {κ ν : Type} (c : Child κ ν) (rest : Composite κ ν) : Composite κ ν :=
  { rest with children := c :: rest.children }

/-- The children of a composite and its closing bracket. `first` says that no child
has been read yet: only then is a closing bracket in the place of a child not behind
a trailing comma. -/
def readChildren {κ : Type} (i : Inside κ) (node : Parser Node) (first : Bool) (s : Text) :
    Except Fault (Composite κ Node × Text) :=
  match _hl : Parser.slot.run s with
  | .error e => .error e
  | .ok (lead, s₁) =>
    if s₁.head? = some i.close then .ok (⟨[], lead, !first, false⟩, s₁.tail)
    else match _hc : (i.child node lead).run s₁ with
      | .error e => .error e
      | .ok (_, []) => .error ⟨.unexpected i.afterChild, []⟩
      | .ok (c, d :: s₂) =>
        if d = ',' then
          match readChildren i node false s₂ with
          | .ok (rest, left) => .ok (rest.cons c, left)
          | .error e => .error e
        else if d = i.close then .ok (Composite.last c, s₂)
        else .error ⟨.unexpected i.afterChild, d :: s₂⟩
termination_by s.length
decreasing_by
  have hl := Parser.slot.length_le _hl
  have hc := (i.child node lead).length_le _hc
  simp only [List.length_cons] at hc
  omega

theorem readChildren_within {κ : Type} (i : Inside κ) (node : Parser Node) (first : Bool)
    (s : Text) : Within s (readChildren i node first s) := by
  -- what is left behind a slot and a child, and behind the comma or bracket that follows
  have hchild : ∀ {s lead s₁ c s₂}, Parser.slot.run s = .ok (lead, s₁) →
      (i.child node lead).run s₁ = .ok (c, s₂) → s₂ <:+ s := fun hl hc =>
    ((i.child node _).suffix_of_run hc).trans (Parser.slot.suffix_of_run hl)
  have hbehind : ∀ {s lead s₁ c d s₂}, Parser.slot.run s = .ok (lead, s₁) →
      (i.child node lead).run s₁ = .ok (c, d :: s₂) → s₂ <:+ s := fun hl hc =>
    (List.suffix_cons _ _).trans (hchild hl hc)
  fun_induction readChildren i node first s with
  | case1 first s e hl => exact Parser.slot.rest_suffix_of_run hl
  | case2 first s lead s₁ hl _ =>
    exact (List.tail_suffix s₁).trans (Parser.slot.suffix_of_run hl)
  | case3 first s lead s₁ hl _ e hc =>
    exact ((i.child node lead).rest_suffix_of_run hc).trans (Parser.slot.suffix_of_run hl)
  | case4 first s lead s₁ hl _ c hc => exact hchild hl hc
  | case5 first s lead s₁ hl _ c s₂ rest left heq hc ih =>
    rw [heq] at ih
    exact ih.mono (hbehind hl hc)
  | case6 first s lead s₁ hl _ c s₂ e heq hc ih =>
    rw [heq] at ih
    exact ih.mono (hbehind hl hc)
  | case7 first s lead s₁ hl _ c s₂ hc _ => exact hbehind hl hc
  | case8 first s lead s₁ hl _ c d s₂ hc _ _ => exact hchild hl hc

namespace Parser

/-- The children of a composite and its closing bracket. -/
def children {κ : Type} (i : Inside κ) (node : Parser Node) : Parser (Composite κ Node) :=
  ⟨readChildren i node true, readChildren_within i node true⟩

/-! ### Objects and arrays -/

/-- The name of a member and its colon. -/
def key : Parser Key := do
  if (← peek) = some '"' then do
    let name ← literal
    let beforeColon ← slot
    if (← peek) = some ':' then do
      skip
      let afterColon ← slot
      pure ⟨name, beforeColon, afterColon⟩
    else stop (.unexpected .colon)
  else stop (.unexpected .key)

/-- The inside of an object. -/
def insideObject : Inside Key :=
  ⟨key, '\x7d', .memberEnd⟩

/-- The inside of an array. -/
def insideArray : Inside Unit :=
  ⟨pure (), ']', .elementEnd⟩

/-! ### Nodes -/

/-- A node whose children, if it may have any, are read with `inner`. -/
def nodeAround (inner : Option (Parser Node)) : Parser Node := do
  match ← peek with
  | some '\x7b' =>
    match inner with
    | some node => do
      skip
      let members ← children insideObject node
      pure (.object members)
    | none => stop .tooDeep
  | some '[' =>
    match inner with
    | some node => do
      skip
      let elements ← children insideArray node
      pure (.array elements)
    | none => stop .tooDeep
  | some '"' => do
    let l ← literal
    pure (.string l)
  | some 't' => do
    word "true".toList
    pure (.bool true)
  | some 'f' => do
    word "false".toList
    pure (.bool false)
  | some 'n' => do
    word "null".toList
    pure .null
  | some c =>
    if c = '-' ∨ Text.isDigit c then do
      let t ← number
      pure (.number t)
    else stop (.unexpected .value)
  | none => stop (.unexpected .value)

/-- A node in which objects and arrays nest at most `depth` deep. -/
def node : (depth : Nat) → Parser Node
  | 0 => nodeAround none
  | depth + 1 => nodeAround (some (node depth))

/-- A value with the slots around it. -/
def value (depth : Nat) : Parser Value := do
  let lead ← slot
  let n ← node depth
  let trail ← slot
  pure ⟨lead, (), n, trail, false⟩

end Parser

/-! ### Documents -/

namespace Value

/-- The value that a whole text is, with nesting up to `depth`. -/
def readTo (depth : Nat) (s : Text) : Except Fault Value :=
  match (Parser.value depth).run s with
  | .ok (v, []) => .ok v
  | .ok (_, rest) => .error ⟨.trailing, rest⟩
  | .error e => .error e

/-- The value that a document is. -/
def read (s : Text) : Except Fault Value :=
  readTo maxDepth s

/-- The value that a document is, or what is reported of it. -/
def parse (s : Text) : Except SyntaxError Value :=
  match read s with
  | .ok v => .ok v
  | .error f => .error (f.report s)

/-- The value of a document given by its octets. -/
def parseOctets (b : Octets) : Except SyntaxError Value :=
  match Text.ofUtf8 b with
  | .ok s => parse s
  | .error n => .error (.notUtf8 b n)

end Value

end EnvManifest
