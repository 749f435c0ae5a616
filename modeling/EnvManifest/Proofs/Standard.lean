import EnvManifest.Proofs.Reading.Complete

/-!
# Reading strict JSON

The minimal form of a tree has nothing in its slots and spells every string as it is
spelled by default, so that it is legible whatever the slots of the tree hold. It nests
as deep as the tree and denotes the same. So the strict JSON text of a document can be
read, and what is read denotes what the document does (`Value.exists_parse_minimalText`).
-/

namespace EnvManifest

/-! ### Minimal forms -/

/-- Children with nothing behind them can be read back. -/
theorem trailsLegible_of_forall_nil {closing : Text} {trails : List Text} (hclosing : Gap closing)
    (h : ∀ t ∈ trails, t = []) : trailsLegible false false closing trails := by
  induction trails with
  | nil => exact closes_of_gap .nil hclosing
  | cons t ts ih =>
    obtain ⟨rfl, hts⟩ := List.forall_mem_cons.1 h
    cases ts with
    | nil => exact closes_of_gap .nil hclosing
    | cons u us => exact ⟨.nil, ih hts⟩

theorem Composite.trailsLegible_minimal {κ : Type} [Label κ] (c : Composite κ Node) :
    trailsLegible false false [] (c.minimal.children.map Child.trail) := by
  refine trailsLegible_of_forall_nil .nil fun t ht => ?_
  obtain ⟨m, hm, rfl⟩ := List.mem_map.1 ht
  obtain ⟨k, -, rfl⟩ := List.mem_map.1 hm
  rfl

theorem Composite.exists_of_mem_minimal {κ : Type} [Label κ] {c : Composite κ Node}
    {m : Child κ Node} (hm : m ∈ (c.map Node.minimal).minimal.children) :
    ∃ k ∈ c.children, m = (k.map Node.minimal).minimal := by
  obtain ⟨j, hj, rfl⟩ := List.mem_map.1 hm
  obtain ⟨k, hk, rfl⟩ := List.mem_map.1 hj
  exact ⟨k, hk, rfl⟩

namespace Node

theorem exists_of_mem_inner_minimal {n k : Node} (hk : k ∈ n.minimal.inner) :
    ∃ k' ∈ n.inner, k = k'.minimal := by
  cases n with
  | object ms =>
    rw [minimal_object] at hk
    obtain ⟨m, hm, rfl⟩ := List.mem_map.1 hk
    obtain ⟨m', hm', rfl⟩ := Composite.exists_of_mem_minimal hm
    exact ⟨m'.node, List.mem_map_of_mem hm', rfl⟩
  | array es =>
    rw [minimal_array] at hk
    obtain ⟨e, he, rfl⟩ := List.mem_map.1 hk
    obtain ⟨e', he', rfl⟩ := Composite.exists_of_mem_minimal he
    exact ⟨e'.node, List.mem_map_of_mem he', rfl⟩
  | null | bool b | number t | string l => exact absurd hk List.not_mem_nil

/-- **What every minimal form has at its root, it has everywhere.** -/
theorem everywhere_minimal {P : Node → Prop} (h : ∀ n : Node, P n.minimal) :
    ∀ n : Node, Everywhere P n.minimal := by
  refine inner_induction fun n ih => .mk (h n) fun k hk => ?_
  obtain ⟨k', hk', rfl⟩ := exists_of_mem_inner_minimal hk
  exact ih k' hk'

/-- The minimal form is legible. -/
theorem legible_minimal : ∀ n : Node, n.minimal.Legible := by
  refine everywhere_minimal fun n => ?_
  cases n with
  | object ms =>
    rw [minimal_object]
    refine ⟨fun m hm => ?_, Composite.trailsLegible_minimal _⟩
    obtain ⟨k, -, rfl⟩ := Composite.exists_of_mem_minimal hm
    simp [Child.FrontLegible, Child.minimal, Label.minimal, Label.slots, Gap.nil]
  | array es =>
    rw [minimal_array]
    refine ⟨fun e he => ?_, Composite.trailsLegible_minimal _⟩
    obtain ⟨k, -, rfl⟩ := Composite.exists_of_mem_minimal he
    simp [Child.FrontLegible, Child.minimal, Label.slots, Gap.nil]
  | null | bool b | number t | string l => exact trivial

/-- The minimal form fits as deep as the tree does. -/
theorem fits_minimal : ∀ (n : Node) (d : Nat), n.Fits d → n.minimal.Fits d := by
  refine induction {
    null := fun d h => h
    bool := fun _ d h => h
    number := fun _ d h => h
    string := fun l d _ => isLiteral_ofText l.value
    object := fun ms ih d h => ?_
    array := fun es ih d h => ?_ }
  · obtain ⟨d, rfl, hms⟩ := fits_object_iff.1 h
    rw [minimal_object, fits_object]
    intro m hm
    obtain ⟨k, hk, rfl⟩ := Composite.exists_of_mem_minimal hm
    refine ⟨?_, ih k hk d (hms k hk).2⟩
    simpa [Named.names, Child.minimal, Label.minimal, Literal.respell] using
      isLiteral_ofText k.label.name.value
  · obtain ⟨d, rfl, hes⟩ := fits_array_iff.1 h
    rw [minimal_array, fits_array]
    intro e he
    obtain ⟨k, hk, rfl⟩ := Composite.exists_of_mem_minimal he
    exact ⟨by simp [Named.names], ih k hk d (hes k hk).2⟩

end Node

/-! ### Reading back -/

/-- **The strict JSON text of a document can be read**, and says what the document
says. -/
theorem Value.exists_parse_minimalText {v : Value} (hfits : v.node.Fits maxDepth) :
    ∃ v', parse v.minimalText = .ok v' ∧ v'.node.datum = v.node.datum := by
  obtain ⟨v', hparse, houtline⟩ := exists_parse_pack (v := v.minimal) .nil
    (Node.fits_minimal v.node maxDepth hfits) (Node.legible_minimal v.node) Gap.nil.whole
  refine ⟨v', hparse, ?_⟩
  rw [Node.datum_eq, houtline, ← Node.datum_eq]
  exact Node.datum_minimal v.node

end EnvManifest
