import EnvManifest.Proofs.Tree

/-!
# Legible trees

A tree is written by gluing its slots to its tokens, so that it can be read back if
every slot is a gap. There is one exception: what is behind a last child without a comma
is written in two slots, the trail of the child and the closing of the composite, and
only the two together have to be a gap (`Closes`). A parser cuts even a block comment at
its first newline to make those two slots, and a comma that is written between them then is
part of the comment (`Swallows`).

`Composite.Legible` is the condition for one composite and `Node.Legible` asks it
everywhere. A legible tree is written as what the grammar calls a value, with the
outline of the tree (`Node.isValue_pack`). A composite that will go on several lines may
be legible but for the newline in front of its closing bracket, which layout puts there:
`several` says whether that is allowed.
-/

namespace EnvManifest

/-! ### Writing a list of children -/

namespace Composite

theorem map_mk {κ μ ν : Type} (f : μ → ν) (cs : List (Child κ μ)) (closing : Text)
    (comma dirty : Bool) :
    map f ⟨cs, closing, comma, dirty⟩ = ⟨cs.map (Child.map f), closing, comma, dirty⟩ := rfl

variable {κ : Type} [Label κ]

theorem pack_nil {closing : Text} {comma dirty : Bool} :
    pack (⟨[], closing, comma, dirty⟩ : Composite κ Text) = closing := by
  simp [pack, Text.join]

theorem pack_singleton {c : Child κ Text} {closing : Text} {comma dirty : Bool} :
    pack ⟨[c], closing, comma, dirty⟩ =
      c.pack ++ ((if comma then [','] else []) ++ closing) := by
  simp [pack, Text.join]

theorem pack_cons_cons {c d : Child κ Text} {cs : List (Child κ Text)} {closing : Text}
    {comma dirty : Bool} :
    pack ⟨c :: d :: cs, closing, comma, dirty⟩ =
      c.pack ++ ',' :: pack ⟨d :: cs, closing, comma, dirty⟩ := by
  simp [pack, Text.join, List.intercalate_cons_cons]

end Composite

/-! ### One composite -/

/-- What is behind a last child without a comma, in its trail and in front of the closing
bracket, can be read back: it is a gap, cut in front of a newline if in a block comment. On
several lines the slot in front of the bracket may end in a line comment. -/
def Closes (several : Bool) (trail closing : Text) : Prop :=
  Gap (trail ++ closing) ∧ (Whole trail ∨ closing.head? = some '\n') ∨
    several = true ∧ '\n' ∉ closing ∧ Gap trail ∧ Whole closing

/-- A block comment goes on from the trail of a last child to the closing slot, and swallows
a comma that is written between the two. -/
def Swallows (trail closing : Text) : Prop :=
  ¬Whole trail ∧ closing.head? = some '\n' ∧ Gap (trail ++ closing)

theorem closes_of_gap {several : Bool} {trail closing : Text} (htrail : Gap trail)
    (hclosing : Gap closing) : Closes several trail closing :=
  Or.inl ⟨htrail.append hclosing, Or.inl htrail.whole⟩

theorem Closes.several {several : Bool} {trail closing : Text} (h : Closes false trail closing) :
    Closes several trail closing := by
  rcases h with h | h
  · exact Or.inl h
  · simp at h

theorem Closes.gap {trail closing : Text} (h : Closes false trail closing) :
    Gap (trail ++ closing) := by
  rcases h with h | h
  · exact h.1
  · simp at h

/-- A reader of the trail is left in the block comment. -/
theorem Swallows.scan_trail {trail closing : Text} (h : Swallows trail closing) :
    scan .between trail = some .block ∨ scan .between trail = some .star := by
  obtain ⟨hwhole, hhead, hgap⟩ := h
  obtain ⟨r, rfl⟩ := List.head?_eq_some_iff.1 hhead
  rw [gap_iff_scan, scan_append] at hgap
  obtain ⟨q, hq, hrest⟩ := Option.bind_eq_some_iff.1 hgap
  cases q with
  | between => exact absurd ((whole_iff_scan trail).2 (Or.inl hq)) hwhole
  | line => exact absurd ((whole_iff_scan trail).2 (Or.inr hq)) hwhole
  | slash => simp [scan_cons, Lexing.next] at hrest
  | block => exact Or.inl hq
  | star => exact Or.inr hq

/-- The comma is part of the gap. -/
theorem Swallows.gap {trail closing : Text} (h : Swallows trail closing) :
    Gap (trail ++ ',' :: closing) := by
  obtain ⟨r, rfl⟩ := List.head?_eq_some_iff.1 h.2.1
  have hgap := h.2.2
  rw [gap_iff_scan] at hgap ⊢
  rcases h.scan_trail with hs | hs <;> rw [scan_append_of_eq hs] at hgap ⊢ <;> exact hgap

/-- The slots behind the children of a composite can be read back. -/
def trailsLegible (several comma : Bool) (closing : Text) : List Text → Prop
  | [] => Closes several [] closing
  | [t] =>
    if comma then Gap t ∧ Closes several [] closing ∨ Swallows t closing
    else Closes several t closing
  | t :: ts => Gap t ∧ trailsLegible several comma closing ts

/-- The slots in front of a child and in its label are gaps. -/
def Child.FrontLegible {κ ν : Type} [Label κ] (c : Child κ ν) : Prop :=
  Gap c.lead ∧ ∀ t ∈ Label.slots c.label, Gap t

/-- The slots of a composite can be read back, on several lines but for a newline in front
of the closing bracket. -/
def Composite.LegibleOn {κ ν : Type} [Label κ] (several : Bool) (c : Composite κ ν) : Prop :=
  (∀ m ∈ c.children, m.FrontLegible) ∧
    trailsLegible several c.trailingComma c.closing (c.children.map Child.trail)

/-- The slots of a composite can be read back. -/
def Composite.Legible {κ ν : Type} [Label κ] (c : Composite κ ν) : Prop :=
  c.LegibleOn false

namespace Node

/-- The slots of a composite can be read back. -/
def LegibleHere : Node → Prop
  | .object ms => ms.Legible
  | .array es => es.Legible
  | _ => True

/-- The slots everywhere in a tree can be read back. -/
def Legible (n : Node) : Prop :=
  Everywhere LegibleHere n

end Node

/-! ### Legible trees are values -/

section Listed

variable {α κ ν : Type} [Label κ] {P : α → Text → Prop} {view : Child κ ν → α} {f : ν → Text}

/-- The children of a legible composite are written as a list, if each is written as one
of its things. -/
theorem listed_pack {cs : List (Child κ ν)} {closing : Text} {comma dirty : Bool}
    (hP : ∀ c ∈ cs, ∀ trail, Gap trail →
      P (view c) (c.lead ++ Label.pack c.label ++ f c.node ++ trail))
    (htrails : trailsLegible false comma closing (cs.map Child.trail)) (hcs : cs ≠ []) :
    Listed P (cs.map view) (Composite.map f ⟨cs, closing, comma, dirty⟩).pack := by
  match cs with
  | [] => exact absurd rfl hcs
  | [c] =>
    have hc := hP c (by simp)
    cases comma with
    | true =>
      have htrails : Gap c.trail ∧ Closes false [] closing ∨ Swallows c.trail closing := by
        simpa [trailsLegible] using htrails
      -- a comma that the comment in front of it swallows is not there for a reader
      rcases htrails with ⟨htrail, hclosing⟩ | hswallows
      · have hlist := Listed.trailing (hc _ htrail) hclosing.gap
        simpa [Composite.map_mk, Composite.pack_singleton, Child.pack] using hlist
      · have hlist := Listed.last (hc _ hswallows.gap)
        simpa [Composite.map_mk, Composite.pack_singleton, Child.pack] using hlist
    | false =>
      have htrail : Closes false c.trail closing := by simpa [trailsLegible] using htrails
      have hlist := Listed.last (hc _ htrail.gap)
      simpa [Composite.map_mk, Composite.pack_singleton, Child.pack] using hlist
  | c :: d :: cs =>
    obtain ⟨htrail, hrest⟩ : Gap c.trail ∧ _ := htrails
    have hc := hP c (by simp) _ htrail
    have hlist : Listed P _ (Composite.map f ⟨d :: cs, closing, comma, dirty⟩).pack :=
      listed_pack (fun m hm => hP m (List.mem_cons_of_mem c hm)) hrest (by simp)
    simp only [Composite.map_mk, List.map_cons, Composite.pack_cons_cons]
    exact .cons hc hlist

theorem bracketed_pack {c : Composite κ ν}
    (hP : ∀ m ∈ c.children, ∀ trail, Gap trail →
      P (view m) (m.lead ++ Label.pack m.label ++ f m.node ++ trail))
    (hc : c.Legible) : Bracketed P (c.children.map view) (c.map f).pack := by
  obtain ⟨cs, closing, comma, dirty⟩ := c
  by_cases hcs : cs = []
  · subst hcs
    simp only [Composite.map_mk, List.map_nil, Composite.pack_nil]
    have hclosing : Closes false [] closing := hc.2
    exact .empty hclosing.gap
  · exact .listed (listed_pack hP hc.2 hcs)

end Listed

namespace Node

/-- **A legible tree is written as a value with its outline.** -/
theorem isValue_pack : ∀ n : Node, ∀ d, n.Fits d → n.Legible → IsValue d n.outline n.pack := by
  have leaf : ∀ {o : Outline} {t : Text}, IsLeaf o t → ∀ d, IsValue d o t := by
    intro o t h d
    cases d with
    | zero => exact h
    | succ d => exact Or.inl h
  refine induction {
    null := fun d _ _ => leaf .null d
    bool := fun b d _ _ => ?_
    number := fun t d hfits _ => leaf (.number (fits_number.1 hfits)) d
    string := fun l d hfits _ => leaf (.string (fits_string.1 hfits)) d
    object := fun ms ih d hfits hlegible => ?_
    array := fun es ih d hfits hlegible => ?_ }
  · cases b with
    | true => exact leaf .true d
    | false => exact leaf .false d
  · obtain ⟨d, rfl, hinner⟩ := fits_object_iff.1 hfits
    obtain ⟨hslots, hlegible⟩ := everywhere_object.1 hlegible
    rw [outline_object, pack_object]
    refine Or.inr (.object (bracketed_pack (fun m hm trail htrail => ?_) hslots))
    obtain ⟨hlead, hlabel⟩ := hslots.1 m hm
    obtain ⟨hname, hnode⟩ := hinner m hm
    have hmember := IsMember.mk hlead (hname m.label.name (by simp [Named.names]))
      (hlabel m.label.beforeColon (by simp [Label.slots]))
      (hlabel m.label.afterColon (by simp [Label.slots]))
      (ih m hm d hnode (hlegible m hm)) htrail
    simpa [Label.pack] using hmember
  · obtain ⟨d, rfl, hinner⟩ := fits_array_iff.1 hfits
    obtain ⟨hslots, hlegible⟩ := everywhere_array.1 hlegible
    rw [outline_array, pack_array]
    refine Or.inr (.array (bracketed_pack (fun e he trail htrail => ?_) hslots))
    have helement :=
      IsElement.mk (hslots.1 e he).1 (ih e he d (hinner e he).2 (hlegible e he)) htrail
    simpa [Label.pack] using helement

end Node

/-! ### Orderly trees -/

/-- What is between two brackets is as a parser leaves it: legible and at rest, with
names that are spelled as literals and children as `inner` says. -/
structure Composite.Orderly {κ ν : Type} [Label κ] [Named κ] (inner : ν → Prop)
    (c : Composite κ ν) : Prop where
  legible : c.Legible
  atRest : c.AtRest
  inner : ∀ m ∈ c.children, m.Fits inner

namespace Node

/-- A tree is as a parser leaves it: legible, at rest, spelled as the grammar wants it
and no deeper than `d`. -/
structure Orderly (d : Nat) (n : Node) : Prop where
  fits : n.Fits d
  legible : n.Legible
  atRest : n.AtRest

/-- What is between two brackets is orderly if what is asked of it and of its children is. -/
theorem orderly_iff {κ : Type} [Label κ] [Named κ] {c : Composite κ Node} {d : Nat} :
    c.Orderly (Orderly d) ↔ (∀ m ∈ c.children, m.Fits (Fits d)) ∧
      (c.Legible ∧ ∀ m ∈ c.children, m.node.Legible) ∧
        (c.AtRest ∧ ∀ m ∈ c.children, m.node.AtRest) := by
  constructor
  · rintro ⟨hlegible, hrest, hinner⟩
    exact ⟨fun m hm => ⟨(hinner m hm).1, (hinner m hm).2.fits⟩,
      ⟨hlegible, fun m hm => (hinner m hm).2.legible⟩, hrest, fun m hm => (hinner m hm).2.atRest⟩
  · rintro ⟨hfits, ⟨hlegible, hlegible'⟩, hrest, hrest'⟩
    exact ⟨hlegible, hrest, fun m hm =>
      ⟨(hfits m hm).1, (hfits m hm).2, hlegible' m hm, hrest' m hm⟩⟩

theorem orderly_object {d : Nat} {ms : Object} :
    (Node.object ms).Orderly (d + 1) ↔ ms.Orderly (Orderly d) := by
  rw [orderly_iff, ← fits_object]
  exact ⟨fun h => ⟨h.fits, everywhere_object.1 h.legible, everywhere_object.1 h.atRest⟩,
    fun h => ⟨h.1, everywhere_object.2 h.2.1, everywhere_object.2 h.2.2⟩⟩

theorem orderly_array {d : Nat} {es : Elements} :
    (Node.array es).Orderly (d + 1) ↔ es.Orderly (Orderly d) := by
  rw [orderly_iff, ← fits_array]
  exact ⟨fun h => ⟨h.fits, everywhere_array.1 h.legible, everywhere_array.1 h.atRest⟩,
    fun h => ⟨h.1, everywhere_array.2 h.2.1, everywhere_array.2 h.2.2⟩⟩

end Node

end EnvManifest
