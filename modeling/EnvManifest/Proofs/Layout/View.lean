import EnvManifest.Document.Layout
import EnvManifest.Proofs.Tree

/-!
# What layout leaves alone

Layout moves slots, commas and marks and nothing else. The `Composite.view` of a
composite is what it leaves alone, the names and nodes of its children in order, and
both passes keep it (`Composite.view_settle`, `Composite.view_indent`). So an algebra that
looks at views only answers the same before and after (`Node.Algebra.LayoutFree`), and
with it the outline of a laid out document is that of the document
(`Value.outline_format`), and it fits as deep as the document does
(`Value.fits_format`).
-/

namespace EnvManifest

/-! ### Views -/

/-- The names and the node of a child. -/
def Child.view {κ ν : Type} [Label κ] [Named κ] (c : Child κ ν) : List Literal × ν :=
  (Named.names c.label, c.node)

/-- The names and nodes of the children of a composite. -/
def Composite.view {κ ν : Type} [Label κ] [Named κ] (c : Composite κ ν) : List (List Literal × ν) :=
  c.children.map Child.view

/-- An algebra that only looks at the names and nodes of children. -/
structure Node.Algebra.LayoutFree {α : Type} (f : Node.Algebra α) : Prop where
  object : ∀ {c c' : Composite Key α}, c.view = c'.view → f.object c = f.object c'
  array : ∀ {c c' : Composite Unit α}, c.view = c'.view → f.array c = f.array c'

namespace Composite

section Settle

variable {κ ν : Type} [Label κ] [Named κ]

theorem view_map {μ : Type} (f : ν → μ) (c : Composite κ ν) :
    (c.map f).view = c.view.map fun p => (p.1, f p.2) := by
  simp [view, Child.view, Function.comp_def]

theorem view_map_map {μ ρ : Type} {f : ν → μ} {g : μ → ρ} {h : ν → ρ} {c : Composite κ ν}
    (hfg : ∀ m ∈ c.children, g (f m.node) = h m.node) : ((c.map f).map g).view = (c.map h).view := by
  simp only [view, children_map, List.map_map]
  exact List.map_congr_left fun m hm => by simp [Child.view, hfg m hm]

theorem view_shiftComments (comma : Bool) (closing carry : Text) (cs : List (Child κ ν)) :
    (shiftComments comma closing carry cs).1.map Child.view = cs.map Child.view := by
  induction cs generalizing carry with
  | nil => rfl
  | cons c cs ih =>
    rw [shiftComments]
    dsimp only
    split
    · exact congrArg (c.view :: ·) (ih c.trail)
    · exact congrArg (c.view :: ·) (ih [])

theorem view_tidy (c : Child κ ν) : (tidy c).view = c.view := by
  rw [tidy]
  split
  · simp [Child.view, Named.names_mapSlots]
  · rfl

theorem view_placeFirst (pad : Text) (c : Child κ ν) : (placeFirst pad c).view = c.view := by
  rw [placeFirst]
  split
  · rfl
  · split <;> rfl

theorem view_placeNext (between : Text) (c : Child κ ν) : (placeNext between c).view = c.view := by
  rw [placeNext]
  split <;> rfl

theorem view_placeInline (pad : Text) (cs : List (Child κ ν)) :
    (placeInline pad cs).map Child.view = cs.map Child.view := by
  cases cs with
  | nil => rfl
  | cons c cs => simp [placeInline, view_placeFirst, view_placeNext, Function.comp_def]

/-- Settling a composite keeps its view. -/
theorem view_settle {κ : Type} [Label κ] [Named κ] (standard : Bool) (c : Composite κ Node) :
    (c.settle standard).view = c.view := by
  have htidy (cs : List (Child κ Node)) : (cs.map tidy).map Child.view = cs.map Child.view := by
    simp [view_tidy, Function.comp_def]
  rw [settle]
  dsimp only
  split
  · exact (htidy _).trans (view_shiftComments _ _ _ _)
  · exact (view_placeInline _ _).trans ((htidy _).trans (view_shiftComments _ _ _ _))

end Settle

section Indent

variable {κ μ ν : Type} [Label κ] [Named κ]

theorem view_onLine (indent : Text) (first : Bool) (c : Child κ ν) :
    (onLine indent first c).view = c.view := by
  rw [onLine]
  split <;> rfl

theorem view_breakLines (line step : Text) (c : Composite κ ν) :
    (c.breakLines line step).view = c.view := by
  obtain ⟨cs, closing, comma, dirty⟩ := c
  cases cs with
  | nil => rfl
  | cons c cs => simp [breakLines, view, view_onLine, Function.comp_def]

theorem view_indentChildren {f : (Text → ν) → μ} {g : ν → μ}
    (current : Text) (cs : List (Child κ (Text → ν)))
    (h : ∀ c ∈ cs, ∀ line, g (c.node line) = f c.node) :
    (indentChildren current cs).map (fun c => (c.map g).view) =
      cs.map fun c => (c.map f).view := by
  induction cs generalizing current with
  | nil => rfl
  | cons c cs ih =>
    rw [indentChildren, List.map_cons, List.map_cons,
      ih _ fun d hd => h d (List.mem_cons_of_mem c hd)]
    simp [Child.view, h c List.mem_cons_self]

/-- Indenting a composite keeps its view, if what `g` sees of the children does not
depend on the lines they are put on. -/
theorem view_indent {f : (Text → ν) → μ} {g : ν → μ} (step line : Text)
    (c : Composite κ (Text → ν)) (h : ∀ k ∈ c.children, ∀ line, g (k.node line) = f k.node) :
    ((c.indent step line).map g).view = (c.map f).view := by
  have hview : ∀ c' : Composite κ (Text → ν), c'.view = c.view →
      (indentChildren line c'.children).map (fun k => (k.map g).view) = (c.map f).view := by
    intro c' hc'
    rw [view_indentChildren (f := f)]
    · rw [view_map, ← hc']
      simp [view, Child.view, Function.comp_def]
    · intro k hk line
      obtain ⟨k', hk', heq⟩ := List.mem_map.1 (hc' ▸ List.mem_map_of_mem hk : k.view ∈ c.view)
      have hnode : k'.node = k.node := congrArg Prod.snd heq
      rw [← hnode]
      exact h k' hk' line
  rw [indent, view, children_map, List.map_map]
  dsimp only
  split
  · exact hview _ (view_breakLines line step c)
  · exact hview c rfl

end Indent

end Composite

/-! ### What algebras answer -/

namespace Node

variable {α : Type} {f : Algebra α}

theorem fold_settle (hf : f.LayoutFree) (standard : Bool) :
    ∀ n : Node, fold f (settle standard n) = fold f n := by
  have hview : ∀ {κ : Type} [Label κ] [Named κ] {c : Composite κ Node},
      (∀ m ∈ c.children, fold f (settle standard m.node) = fold f m.node) →
        ((if c.dirty then (c.map (settle standard)).settle standard
          else c.map (settle standard)).map (fold f)).view = (c.map (fold f)).view := by
    intro κ _ _ c ih
    split
    · rw [Composite.view_map, Composite.view_settle, ← Composite.view_map]
      exact Composite.view_map_map ih
    · exact Composite.view_map_map ih
  refine induction {
    null := rfl
    bool := fun _ => rfl
    number := fun _ => rfl
    string := fun _ => rfl
    object := fun ms ih => ?_
    array := fun es ih => ?_ }
  · rw [settle_object, fold_object, fold_object]
    exact hf.object (hview ih)
  · rw [settle_array, fold_array, fold_array]
    exact hf.array (hview ih)

theorem fold_indent (hf : f.LayoutFree) (step : Text) :
    ∀ (n : Node) (line : Text), fold f (indent step n line) = fold f n := by
  have hview : ∀ {κ : Type} [Label κ] [Named κ] {c : Composite κ Node},
      (∀ m ∈ c.children, ∀ line, fold f (indent step m.node line) = fold f m.node) →
        ∀ line, (((c.map (indent step)).indent step line).map (fold f)).view =
          (c.map (fold f)).view := by
    intro κ _ _ c ih line
    rw [Composite.view_indent (f := fun n => fold f (n line))]
    · exact Composite.view_map_map fun m hm => ih m hm line
    · rintro k hk line'
      obtain ⟨m, hm, rfl⟩ := List.mem_map.1 hk
      exact (ih m hm line').trans (ih m hm line).symm
  refine induction {
    null := fun _ => rfl
    bool := fun _ _ => rfl
    number := fun _ _ => rfl
    string := fun _ _ => rfl
    object := fun ms ih line => ?_
    array := fun es ih line => ?_ }
  · rw [indent_object, fold_object, fold_object]
    exact hf.object (hview ih line)
  · rw [indent_array, fold_array, fold_array]
    exact hf.array (hview ih line)

/-! ### Marks -/

/-- The node itself is not marked as dirty. -/
def CleanHere : Node → Prop
  | .object ms => ms.dirty = false
  | .array es => es.dirty = false
  | _ => True

theorem isDirty_eq_false_iff_inner {n : Node} :
    n.isDirty = false ↔ n.CleanHere ∧ ∀ k ∈ n.inner, k.isDirty = false := by
  cases n with
  | object ms => simp [CleanHere, inner]
  | array es => simp [CleanHere, inner]
  | null | bool b | number t | string l => simp [CleanHere, inner, isDirty, fold, dirtiness]

/-- **There is no mark in a tree exactly if no node in it is dirty.** -/
theorem isDirty_eq_false_iff {n : Node} : n.isDirty = false ↔ Everywhere CleanHere n := by
  constructor
  · induction n using inner_induction with
    | h n ih =>
      intro hclean
      obtain ⟨hhere, hinner⟩ := isDirty_eq_false_iff_inner.1 hclean
      exact .mk hhere fun k hk => ih k hk (hinner k hk)
  · intro h
    induction h with
    | mk hhere _ ih => exact isDirty_eq_false_iff_inner.2 ⟨hhere, ih⟩

/-- A tree at rest has no mark. -/
theorem isDirty_of_atRest (n : Node) (h : n.AtRest) : n.isDirty = false :=
  isDirty_eq_false_iff.2 (h.mono fun n hn => match n with
    | .object _ | .array _ => hn.1
    | .null | .bool _ | .number _ | .string _ => trivial)

/-! ### Outlines and fitting -/

theorem layoutFree_outlining : outlining.LayoutFree where
  object {c c'} h := by
    have hmap := congrArg (List.filterMap fun p => p.1.head?.map fun l => (l, p.2)) h
    simpa [outlining, Composite.view, Child.view, Named.names, List.filterMap_map,
      Function.comp_def] using hmap
  array {c c'} h := by
    have hmap := congrArg (List.map Prod.snd) h
    simpa [outlining, Composite.view, Child.view, Function.comp_def] using hmap

theorem forall_fits_iff {κ ν : Type} [Label κ] [Named κ] {inner : ν → Prop} {c : Composite κ ν} :
    (∀ m ∈ c.children, m.Fits inner) ↔
      ∀ p ∈ c.view, (∀ l ∈ p.1, IsLiteral l) ∧ inner p.2 := by
  simp [Composite.view, Child.view, Child.Fits]

theorem layoutFree_fitting : fitting.LayoutFree where
  object {c c'} h := by simp only [fitting, forall_fits_iff, h]
  array {c c'} h := by simp only [fitting, forall_fits_iff, h]

end Node

namespace Value

/-- **Laying out a document keeps its outline.** -/
theorem outline_format (v : Value) : v.format.node.outline = v.node.outline := by
  rw [format]
  split
  · exact (Node.fold_indent Node.layoutFree_outlining _ _ _).trans
      (Node.fold_settle Node.layoutFree_outlining _ _)
  · rfl

/-- **A laid out document fits as deep as the document.** -/
theorem fits_format {d : Nat} (v : Value) : v.format.node.Fits d ↔ v.node.Fits d := by
  rw [format]
  split
  · exact Iff.of_eq (congrFun ((Node.fold_indent Node.layoutFree_fitting _ _ _).trans
      (Node.fold_settle Node.layoutFree_fitting _ _)) d)
  · exact Iff.rfl

end Value

end EnvManifest
