import EnvManifest.Proofs.Strict.Ink

/-!
# Plain trees

A tree is plain if there are only blanks in its slots and no trailing comma. What it is
written as is strict JSON (`Node.isStrict_pack`), and if there is nothing in its slots at all,
it is written as the text of its outline (`Node.pack_of_plain`).
-/

namespace EnvManifest

variable {blank : Text → Prop}

/-! ### Plain trees are written as strict JSON -/

section Listed

variable {α κ ν : Type} [Label κ] {P : α → Text → Prop} {view : Child κ ν → α} {f : ν → Text}

/-- The children of a plain composite are written as a list, if each is written as one of its
things; blanks in front of the closing bracket are taken for part of the last child. -/
theorem Strict.listed_pack (hblank : Blanks blank) {closing : Text} {dirty : Bool}
    (hclosing : blank closing) : ∀ {cs : List (Child κ ν)},
    (∀ c ∈ cs, ∀ trail, blank trail →
      P (view c) (c.lead ++ Label.pack c.label ++ f c.node ++ trail)) →
    (∀ c ∈ cs, blank c.trail) → cs ≠ [] →
    Strict.Listed P (cs.map view) (Composite.map f ⟨cs, closing, false, dirty⟩).pack
  | [], _, _, hcs => absurd rfl hcs
  | [c], hP, htrail, _ => by
    have hlast := hP c (by simp) _ (hblank.append (htrail c (by simp)) hclosing)
    simpa [Composite.map_mk, Composite.pack_singleton, Child.pack] using Strict.Listed.last hlast
  | c :: d :: cs, hP, htrail, _ => by
    obtain ⟨hc, hcs⟩ := List.forall_mem_cons.1 hP
    obtain ⟨hctrail, htrail⟩ := List.forall_mem_cons.1 htrail
    have hrest : Strict.Listed P _ (Composite.map f ⟨d :: cs, closing, false, dirty⟩).pack :=
      Strict.listed_pack hblank hclosing hcs htrail (by simp)
    simp only [Composite.map_mk, List.map_cons, Composite.pack_cons_cons]
    exact .cons (hc _ hctrail) hrest

theorem Strict.bracketed_pack (hblank : Blanks blank) {c : Composite κ ν}
    (hP : ∀ m ∈ c.children, ∀ trail, blank trail →
      P (view m) (m.lead ++ Label.pack m.label ++ f m.node ++ trail))
    (hc : c.Plain blank) : Strict.Bracketed blank P (c.children.map view) (c.map f).pack := by
  -- the closing slot is all there is between empty brackets, else the last child has it
  obtain ⟨hchildren, hclosing, hcomma⟩ := hc
  obtain ⟨cs, closing, comma, dirty⟩ := c
  obtain rfl : comma = false := hcomma
  by_cases hcs : cs = []
  · subst hcs
    simp only [Composite.map_mk, List.map_nil, Composite.pack_nil]
    exact .empty hclosing
  · exact .listed (Strict.listed_pack hblank hclosing hP (fun m hm => (hchildren m hm).trail) hcs)

end Listed

namespace Node

/-- **A plain tree is written as strict JSON with its outline.** -/
theorem isStrict_pack (hblank : Blanks blank) : ∀ n : Node, ∀ d, n.Fits d → n.Plain blank →
    Strict.IsValue blank d n.outline n.pack := by
  have leaf : ∀ {o : Outline} {t : Text}, IsLeaf o t → ∀ d, Strict.IsValue blank d o t := by
    intro o t h d
    cases d with
    | zero => exact h
    | succ d => exact Or.inl h
  refine induction {
    null := fun d _ _ => leaf .null d
    bool := fun b d _ _ => ?_
    number := fun t d hfits _ => leaf (.number (fits_number.1 hfits)) d
    string := fun l d hfits _ => leaf (.string (fits_string.1 hfits)) d
    object := fun ms ih d hfits hplain => ?_
    array := fun es ih d hfits hplain => ?_ }
  · cases b with
    | true => exact leaf .true d
    | false => exact leaf .false d
  · obtain ⟨d, rfl, hinner⟩ := fits_object_iff.1 hfits
    obtain ⟨hhere, hplain⟩ := everywhere_object.1 hplain
    rw [outline_object, pack_object]
    refine Or.inr (.object (Strict.bracketed_pack hblank (fun m hm trail htrail => ?_) hhere))
    -- a member is its slots, its name and, one level down, its value
    obtain ⟨hlead, hlabel, -⟩ := hhere.children m hm
    obtain ⟨hname, hnode⟩ := hinner m hm
    have hmember := Strict.IsMember.mk hlead (hname m.label.name (by simp [Named.names]))
      (hlabel m.label.beforeColon (by simp [Label.slots]))
      (hlabel m.label.afterColon (by simp [Label.slots]))
      (ih m hm d hnode (hplain m hm)) htrail
    simpa [Label.pack] using hmember
  · obtain ⟨d, rfl, hinner⟩ := fits_array_iff.1 hfits
    obtain ⟨hhere, hplain⟩ := everywhere_array.1 hplain
    rw [outline_array, pack_array]
    refine Or.inr (.array (Strict.bracketed_pack hblank (fun e he trail htrail => ?_) hhere))
    have helement := Strict.IsElement.mk (hhere.children e he).lead
      (ih e he d (hinner e he).2 (hplain e he)) htrail
    simpa [Label.pack] using helement

end Node

/-- A plain document is strict JSON. -/
theorem Value.isJson_pack (hblank : Blanks blank) {v : Value} {d : Nat} (hlead : blank v.lead)
    (hfits : v.node.Fits d) (hplain : v.node.Plain blank) (htrail : blank v.trail) :
    IsJson blank v.node.outline v.pack := by
  refine ⟨d, v.lead, v.node.pack, v.trail, ?_, hlead, ?_, htrail⟩
  · rw [pack, List.append_assoc]
  · exact Node.isStrict_pack hblank v.node d hfits hplain

/-! ### Nothing between the tokens -/

/-- The children of a composite with nothing in its slots are written as they are listed. -/
theorem Composite.pack_of_plain {κ ν : Type} [Label κ] {f g : ν → Text} {front : κ → Text}
    (hfront : ∀ k : κ, (∀ t ∈ Label.slots k, Nothing t) → Label.pack k = front k)
    {c : Composite κ ν} (hplain : c.Plain Nothing) (h : ∀ m ∈ c.children, f m.node = g m.node) :
    (c.map f).pack = Text.join [','] (c.children.map fun m => front m.label ++ g m.node) := by
  have hchildren : (c.map f).children.map Child.pack =
      c.children.map fun m => front m.label ++ g m.node := by
    rw [children_map, List.map_map]
    refine List.map_congr_left fun m hm => ?_
    obtain ⟨hlead, hlabel, htrail⟩ := hplain.children m hm
    rw [Nothing] at hlead htrail
    simp [Child.pack, hlead, htrail, hfront m.label hlabel, h m hm]
  have hclosing := hplain.closing
  rw [Nothing] at hclosing
  rw [pack, hchildren, trailingComma_map, hplain.comma, closing_map, hclosing]
  simp

namespace Node

/-- **A tree with nothing in its slots is written as the text of its outline.** -/
theorem pack_of_plain : ∀ n : Node, n.Plain Nothing → n.pack = n.outline.text := by
  refine induction {
    null := fun _ => rfl
    bool := fun _ _ => rfl
    number := fun _ _ => rfl
    string := fun _ _ => rfl
    object := fun ms ih hplain => ?_
    array := fun es ih hplain => ?_ }
  · obtain ⟨hhere, hinner⟩ := everywhere_object.1 hplain
    have hfront : ∀ k : Key, (∀ t ∈ Label.slots k, Nothing t) →
        Label.pack k = k.name.raw ++ [':'] := by
      intro k hk
      have hbefore : k.beforeColon = [] := hk _ (by simp [Label.slots])
      have hafter : k.afterColon = [] := hk _ (by simp [Label.slots])
      simp [Label.pack, hbefore, hafter]
    rw [pack_object, outline_object, Outline.text_object, List.map_map,
      Composite.pack_of_plain (g := fun n => n.outline.text) hfront hhere
        fun m hm => ih m hm (hinner m hm)]
    simp [Outline.memberText, Function.comp_def]
  · obtain ⟨hhere, hinner⟩ := everywhere_array.1 hplain
    rw [pack_array, outline_array, Outline.text_array, List.map_map,
      Composite.pack_of_plain (g := fun n => n.outline.text) (fun _ _ => rfl) hhere
        fun e he => ih e he (hinner e he)]
    simp [Label.pack, Function.comp_def]

end Node

end EnvManifest
