import EnvManifest.Proofs.Strict.Grammar
import EnvManifest.Proofs.Legible
import Mathlib.Algebra.Order.BigOperators.Group.List
import Mathlib.Algebra.Order.Group.Nat
import Mathlib.Algebra.Ring.Nat

/-!
# Blanks, counted

How much of a text is not blank is its `ink`. What strict JSON has beyond its tokens is
blank, so that it has as much ink as the text of its outline with nothing in between
(`IsJson.ink_eq`). A tree is written with the ink of its outline and that of its slots and
trailing commas, its `Node.excess` (`Node.ink_pack`). So a tree whose text is strict JSON
has nothing but blanks in its slots and no trailing comma, and nothing has to be read
again to see that (`Node.plain_of_excess`).
-/

namespace EnvManifest

/-! ### Ink -/

/-- How many characters of a text are not blank. -/
def ink (s : Text) : Nat :=
  s.countP fun c => !isWhite c

@[simp]
theorem ink_nil : ink [] = 0 := rfl

@[simp]
theorem ink_append (s t : Text) : ink (s ++ t) = ink s + ink t :=
  List.countP_append

theorem ink_cons {c : Char} (h : isWhite c = false) (s : Text) : ink (c :: s) = ink s + 1 := by
  rw [ink, List.countP_cons_of_pos (by simp [h])]
  rfl

@[simp]
theorem ink_comma (s : Text) : ink (',' :: s) = ink s + 1 :=
  ink_cons (by decide) s

@[simp]
theorem ink_colon (s : Text) : ink (':' :: s) = ink s + 1 :=
  ink_cons (by decide) s

/-- Two brackets are two characters of ink. -/
theorem ink_enclosed {a b : Char} (ha : isWhite a = false) (hb : isWhite b = false)
    (s : Text) : ink (a :: (s ++ [b])) = ink s + 2 := by
  rw [ink_cons ha, ink_append, ink_cons hb]
  rfl

theorem ink_eq_zero_iff {s : Text} : ink s = 0 ↔ Spaces s := by
  simp [ink, Spaces, List.countP_eq_zero]

theorem Spaces.ink_eq {s : Text} (h : Spaces s) : ink s = 0 :=
  ink_eq_zero_iff.2 h

/-- What is joined with commas has the ink of its parts and of the commas. -/
theorem ink_join (parts : List Text) :
    ink (Text.join [','] parts) = (parts.map ink).sum + (parts.length - 1) := by
  induction parts with
  | nil => rfl
  | cons t parts ih =>
    cases parts with
    | nil => simp [Text.join]
    | cons u parts =>
      have hjoin : Text.join [','] (t :: u :: parts) = t ++ ',' :: Text.join [','] (u :: parts) := by
        simp [Text.join, List.intercalate_cons_cons]
      rw [hjoin, ink_append, ink_comma, ih]
      simp only [List.map_cons, List.sum_cons, List.length_cons]
      omega

/-! ### The text of an outline -/

mutual

/-- The text of an outline with nothing between its tokens. -/
def Outline.text : Outline → Text
  | .null => "null".toList
  | .bool b => if b then "true".toList else "false".toList
  | .number t => t
  | .string l => l.raw
  | .object ms => '\x7b' :: Text.join [','] (memberTexts ms) ++ ['\x7d']
  | .array es => '[' :: Text.join [','] (elementTexts es) ++ [']']

/-- The texts of the members of an outline. -/
def Outline.memberTexts : List (Literal × Outline) → List Text
  | [] => []
  | (l, o) :: ms => (l.raw ++ ':' :: Outline.text o) :: Outline.memberTexts ms

/-- The texts of the elements of an outline. -/
def Outline.elementTexts : List Outline → List Text
  | [] => []
  | o :: es => Outline.text o :: Outline.elementTexts es

end

namespace Outline

/-- The text of a member of an outline. -/
def memberText (m : Literal × Outline) : Text :=
  m.1.raw ++ ':' :: m.2.text

theorem memberTexts_eq_map (ms : List (Literal × Outline)) :
    memberTexts ms = ms.map memberText := by
  induction ms with
  | nil => rfl
  | cons m ms ih => simp [memberTexts, memberText, ih]

theorem elementTexts_eq_map (es : List Outline) : elementTexts es = es.map text := by
  induction es with
  | nil => rfl
  | cons e es ih => simp [elementTexts, ih]

@[simp]
theorem text_object (ms : List (Literal × Outline)) :
    text (.object ms) = '\x7b' :: Text.join [','] (ms.map memberText) ++ ['\x7d'] := by
  rw [text, memberTexts_eq_map]

@[simp]
theorem text_array (es : List Outline) :
    text (.array es) = '[' :: Text.join [','] (es.map text) ++ [']'] := by
  rw [text, elementTexts_eq_map]

end Outline

/-- A leaf is written as its outline. -/
theorem text_of_isLeaf {o : Outline} {s : Text} (h : IsLeaf o s) : s = o.text := by
  cases h <;> rfl

/-! ### The ink of strict JSON -/

namespace Strict

variable {blank : Text → Prop} {inner : Outline → Text → Prop}

theorem IsElement.ink_eq (hblank : Blanks blank) (hinner : ∀ o s, inner o s → ink s = ink o.text)
    {o : Outline} {s : Text} (h : IsElement blank inner o s) : ink s = ink o.text := by
  obtain ⟨hlead, hvalue, htrail⟩ := h
  simp [(hblank.spaces hlead).ink_eq, hinner _ _ hvalue, (hblank.spaces htrail).ink_eq]

theorem IsMember.ink_eq (hblank : Blanks blank) (hinner : ∀ o s, inner o s → ink s = ink o.text)
    {m : Literal × Outline} {s : Text} (h : IsMember blank inner m s) :
    ink s = ink (Outline.memberText m) := by
  obtain ⟨hlead, -, hbefore, hafter, hvalue, htrail⟩ := h
  simp [Outline.memberText, (hblank.spaces hlead).ink_eq, (hblank.spaces hbefore).ink_eq,
    (hblank.spaces hafter).ink_eq, hinner _ _ hvalue, (hblank.spaces htrail).ink_eq]

theorem Listed.ink_eq {α : Type} {P : α → Text → Prop} (text : α → Text)
    (hP : ∀ a s, P a s → ink s = ink (text a)) {as : List α} {s : Text} (h : Listed P as s) :
    ink s = ink (Text.join [','] (as.map text)) := by
  induction h with
  | last ha => simp [Text.join, hP _ _ ha]
  | @cons a as s t ha hrest ih =>
    -- there is something behind the comma, so that joining puts a comma there too
    have hne : as ≠ [] := by cases hrest <;> simp
    obtain ⟨b, bs, rfl⟩ := List.exists_cons_of_ne_nil hne
    rw [ink_append, ink_comma, ih, hP _ _ ha, ink_join, ink_join]
    simp only [List.map_cons, List.sum_cons, List.length_cons]
    omega

theorem Bracketed.ink_eq (hblank : Blanks blank) {α : Type} {P : α → Text → Prop}
    (text : α → Text) (hP : ∀ a s, P a s → ink s = ink (text a)) {as : List α} {s : Text}
    (h : Bracketed blank P as s) : ink s = ink (Text.join [','] (as.map text)) := by
  cases h with
  | empty hg => exact (hblank.spaces hg).ink_eq
  | listed h => exact h.ink_eq text hP

theorem IsComposite.ink_eq (hblank : Blanks blank)
    (hinner : ∀ o s, inner o s → ink s = ink o.text) {o : Outline} {s : Text}
    (h : IsComposite blank inner o s) : ink s = ink o.text := by
  cases h with
  | object h =>
    have hbody := h.ink_eq hblank Outline.memberText fun _ _ hm => hm.ink_eq hblank hinner
    rw [Outline.text_object, List.cons_append, ink_enclosed (by decide) (by decide),
      ink_enclosed (by decide) (by decide), hbody]
  | array h =>
    have hbody := h.ink_eq hblank Outline.text fun _ _ he => he.ink_eq hblank hinner
    rw [Outline.text_array, List.cons_append, ink_enclosed (by decide) (by decide),
      ink_enclosed (by decide) (by decide), hbody]

theorem IsValue.ink_eq (hblank : Blanks blank) {d : Nat} {o : Outline} {s : Text}
    (h : IsValue blank d o s) : ink s = ink o.text := by
  induction d generalizing o s with
  | zero => rw [text_of_isLeaf h]
  | succ d ih =>
    rcases h with h | h
    · rw [text_of_isLeaf h]
    · exact h.ink_eq hblank fun _ _ hv => ih hv

end Strict

/-- **Strict JSON has the ink of its outline.** -/
theorem IsJson.ink_eq {blank : Text → Prop} (hblank : Blanks blank) {o : Outline} {s : Text}
    (h : IsJson blank o s) : ink s = ink o.text := by
  obtain ⟨d, g₁, u, g₂, rfl, hlead, hvalue, htrail⟩ := h
  simp [(hblank.spaces hlead).ink_eq, hvalue.ink_eq hblank, (hblank.spaces htrail).ink_eq]

/-! ### Plain trees -/

/-- The slots of a child are blank. -/
structure Child.Plain {κ ν : Type} [Label κ] (blank : Text → Prop) (c : Child κ ν) : Prop where
  lead : blank c.lead
  label : ∀ t ∈ Label.slots c.label, blank t
  trail : blank c.trail

/-- The slots of a composite and of its children are blank, and no comma is behind the last
child. -/
structure Composite.Plain {κ ν : Type} [Label κ] (blank : Text → Prop) (c : Composite κ ν) :
    Prop where
  children : ∀ m ∈ c.children, m.Plain blank
  closing : blank c.closing
  comma : c.trailingComma = false

namespace Node

/-- What is between the brackets of a node is plain. -/
def PlainHere (blank : Text → Prop) : Node → Prop
  | .object ms => ms.Plain blank
  | .array es => es.Plain blank
  | _ => True

/-- **A tree has nothing in it but blanks**: no comment and no trailing comma. -/
def Plain (blank : Text → Prop) (n : Node) : Prop :=
  n.Everywhere (PlainHere blank)

end Node

/-! ### The ink of a tree -/

section Excess

variable {κ : Type} [Label κ]

/-- The ink in the slots of a child, that in its node having been counted. -/
def Child.excess (c : Child κ Nat) : Nat :=
  ink c.lead + ((Label.slots c.label).map ink).sum + c.node + ink c.trail

/-- The ink in the slots of a composite and of its trailing comma, if one is written. -/
def Composite.excess (c : Composite κ Nat) : Nat :=
  (c.children.map Child.excess).sum +
    (if c.trailingComma && !c.children.isEmpty then 1 else 0) + ink c.closing

/-- A composite is written with the ink of what its outline lists and with its excess.
`front` is what a label is written as without its slots. -/
theorem Composite.ink_pack {ν : Type} (front : κ → Text) (f g : ν → Text) (e : ν → Nat)
    (hlabel : ∀ k : κ, ink (Label.pack k) = ink (front k) + ((Label.slots k).map ink).sum)
    {c : Composite κ ν} (h : ∀ m ∈ c.children, ink (f m.node) = ink (g m.node) + e m.node) :
    ink (c.map f).pack = ink (Text.join [','] (c.children.map fun m => front m.label ++ g m.node)) +
      (c.map e).excess := by
  have hchildren : (c.children.map fun m => ink (m.map f).pack).sum =
      (c.children.map fun m => ink (front m.label ++ g m.node)).sum +
        (c.children.map fun m => (m.map e).excess).sum := by
    rw [← List.sum_map_add]
    refine congrArg List.sum (List.map_congr_left fun m hm => ?_)
    simp only [Child.pack, Child.excess, ink_append, Child.lead_map, Child.label_map, Child.node_map,
      Child.trail_map, hlabel, h m hm]
    omega
  have hcomma : ink (if (c.map f).trailingComma && !(c.map f).children.isEmpty then [','] else []) =
      if (c.map e).trailingComma && !(c.map e).children.isEmpty then 1 else 0 := by
    simp only [trailingComma_map, children_map, List.isEmpty_map]
    split <;> rfl
  -- as many commas are between the children as between the things of the list
  rw [Composite.pack, ink_append, ink_append, hcomma, ink_join, ink_join, Composite.excess]
  simp only [children_map, List.map_map, Function.comp_def, List.length_map, closing_map] at hchildren ⊢
  omega

end Excess

namespace Node

/-- The excess of a node, kind by kind. -/
def exceeding : Algebra Nat where
  null := 0
  bool _ := 0
  number _ := 0
  string _ := 0
  object ms := ms.excess
  array es := es.excess

/-- The ink in the slots of a node and of its trailing commas. -/
def excess (n : Node) : Nat :=
  fold exceeding n

theorem excess_object (ms : Object) : excess (.object ms) = (ms.map excess).excess := by
  rw [excess, fold_object]
  rfl

theorem excess_array (es : Elements) : excess (.array es) = (es.map excess).excess := by
  rw [excess, fold_array]
  rfl

/-- **A tree is written with the ink of its outline and its excess.** -/
theorem ink_pack : ∀ n : Node, ink n.pack = ink n.outline.text + n.excess := by
  refine induction {
    null := rfl
    bool := fun b => by cases b <;> rfl
    number := fun _ => rfl
    string := fun _ => rfl
    object := fun ms ih => ?_
    array := fun es ih => ?_ }
  · have hbody := Composite.ink_pack (fun k : Key => k.name.raw ++ [':']) pack
      (fun n => n.outline.text) excess (fun k => by simp [Label.pack, Label.slots]; omega) ih
    simp only [List.append_assoc, List.singleton_append] at hbody
    rw [pack_object, outline_object, Outline.text_object, excess_object, List.cons_append,
      ink_enclosed (by decide) (by decide), hbody, List.cons_append,
      ink_enclosed (by decide) (by decide), List.map_map]
    simp only [Function.comp_def, Outline.memberText]
    omega
  · have hbody := Composite.ink_pack (fun _ : Unit => []) pack (fun n => n.outline.text) excess
      (fun k => by simp [Label.pack, Label.slots]) ih
    simp only [List.nil_append] at hbody
    rw [pack_array, outline_array, Outline.text_array, excess_array, List.cons_append,
      ink_enclosed (by decide) (by decide), hbody, List.cons_append,
      ink_enclosed (by decide) (by decide), List.map_map]
    simp only [Function.comp_def]
    omega

end Node

/-! ### Trees without an excess -/

theorem Child.plain_of_excess {κ ν : Type} [Label κ] {f : ν → Nat} {c : Child κ ν}
    (h : (c.map f).excess = 0) : c.Plain Spaces ∧ f c.node = 0 := by
  rw [excess] at h
  simp only [lead_map, label_map, node_map, trail_map] at h
  have hslots : ((Label.slots c.label).map ink).sum = 0 := by omega
  refine ⟨⟨ink_eq_zero_iff.1 (by omega), fun t ht => ?_, ink_eq_zero_iff.1 (by omega)⟩, by omega⟩
  exact ink_eq_zero_iff.1 (List.sum_eq_zero_iff.1 hslots (ink t) (List.mem_map_of_mem ht))

theorem Composite.plain_of_excess {κ ν : Type} [Label κ] {f : ν → Nat} {c : Composite κ ν}
    (hempty : c.children = [] → c.trailingComma = false) (h : (c.map f).excess = 0) :
    c.Plain Spaces ∧ ∀ m ∈ c.children, f m.node = 0 := by
  rw [excess] at h
  simp only [children_map, trailingComma_map, closing_map, List.isEmpty_map] at h
  have hsum : ((c.children.map (Child.map f)).map Child.excess).sum = 0 := by omega
  have hchildren : ∀ m ∈ c.children, m.Plain Spaces ∧ f m.node = 0 := by
    intro m hm
    refine Child.plain_of_excess (List.sum_eq_zero_iff.1 hsum _ ?_)
    exact List.mem_map_of_mem (List.mem_map_of_mem hm)
  refine ⟨⟨fun m hm => (hchildren m hm).1, ink_eq_zero_iff.1 (by omega), ?_⟩,
    fun m hm => (hchildren m hm).2⟩
  -- behind a child a trailing comma is written, and it would be an excess of one
  by_cases hc : c.children = []
  · exact hempty hc
  · by_contra hcomma
    have hwritten : (c.trailingComma && !c.children.isEmpty) = true := by
      simpa [hc] using hcomma
    rw [if_pos hwritten] at h
    omega

namespace Node

/-- A composite without children has no trailing comma. -/
def CommaHere : Node → Prop
  | .object ms => ms.children = [] → ms.trailingComma = false
  | .array es => es.children = [] → es.trailingComma = false
  | _ => True

/-- **A tree without an excess is plain**: there is no comment and no trailing comma in it. -/
theorem plain_of_excess : ∀ n : Node, n.Everywhere CommaHere → n.excess = 0 → n.Plain Spaces := by
  refine induction {
    null := fun _ _ => everywhere_null.2 trivial
    bool := fun _ _ _ => everywhere_bool.2 trivial
    number := fun _ _ _ => everywhere_number.2 trivial
    string := fun _ _ _ => everywhere_string.2 trivial
    object := fun ms ih hcomma h => ?_
    array := fun es ih hcomma h => ?_ }
  · obtain ⟨hhere, hinner⟩ := everywhere_object.1 hcomma
    rw [excess_object] at h
    obtain ⟨hplain, hzero⟩ := Composite.plain_of_excess hhere h
    exact everywhere_object.2 ⟨hplain, fun m hm => ih m hm (hinner m hm) (hzero m hm)⟩
  · obtain ⟨hhere, hinner⟩ := everywhere_array.1 hcomma
    rw [excess_array] at h
    obtain ⟨hplain, hzero⟩ := Composite.plain_of_excess hhere h
    exact everywhere_array.2 ⟨hplain, fun e he => ih e he (hinner e he) (hzero e he)⟩

end Node

end EnvManifest
