import EnvManifest.Proofs.Strict.Plain
import EnvManifest.Proofs.Strict.Layout
import EnvManifest.Proofs.Reading.Complete
import EnvManifest.Proofs.Reading.Untabbed

/-!
# Reading strict JSON

What is read off strict JSON is a plain tree, and nothing else is (`Value.plain_iff_isJson`).
The derivation of the text and the tree that is read have the same outline, however deep the
derivation nests (`IsJson.outline_eq`), so that the tree has the ink of its outline and no
excess. As ink does not change when tabs are written as spaces, neither does a document become
anything but strict JSON by being saved (`Value.exists_plain_untabbed`).
-/

namespace EnvManifest

/-! ### Commas without a child -/

namespace Parser

theorem commaHere_of_leaf {n : Node} (hobject : n.object? = none) (harray : n.array? = none) :
    n.Everywhere Node.CommaHere := by
  cases n with
  | object ms => simp [Node.object?] at hobject
  | array es => simp [Node.array?] at harray
  | null | bool b | number t | string l => exact (Node.everywhere_of_inner_eq_nil rfl).2 trivial

/-- Nothing that is read has a trailing comma and no child in front of it. -/
theorem commaHere_of_run_node {d : Nat} {s rest : Text} {n : Node}
    (h : (node d).run s = .ok (n, rest)) : n.Everywhere Node.CommaHere := by
  induction d generalizing s rest n with
  | zero =>
    rcases cases_of_run_nodeAround h with ⟨node, hmem, -⟩ | ⟨node, hmem, -⟩ | ⟨hobject, harray, -⟩
    · simp at hmem
    · simp at hmem
    · exact commaHere_of_leaf hobject harray
  | succ d ih =>
    have hnode : ∀ {s rest : Text} {n : Node}, (node d).run s = .ok (n, rest) →
        n.pack ++ rest = s ∧ n.Everywhere Node.CommaHere :=
      fun h => ⟨(orderly_of_run_node h).1, ih h⟩
    -- the bracket behind no child is the first thing that is read, with no comma in front
    rcases cases_of_run_nodeAround h with ⟨p, hmem, s₁, ms, rfl, rfl, hread⟩ |
      ⟨p, hmem, s₁, es, rfl, rfl, hread⟩ | ⟨hobject, harray, -⟩
    · obtain rfl : node d = p := Option.some.inj hmem
      obtain ⟨-, horderly, hcomma⟩ := orderly_of_readChildren insideObject_sound hnode hread
      exact Node.everywhere_object.2 ⟨hcomma, fun m hm => (horderly.inner m hm).2⟩
    · obtain rfl : node d = p := Option.some.inj hmem
      obtain ⟨-, horderly, hcomma⟩ := orderly_of_readChildren insideArray_sound hnode hread
      exact Node.everywhere_array.2 ⟨hcomma, fun e he => (horderly.inner e he).2⟩
    · exact commaHere_of_leaf hobject harray

end Parser

/-! ### Outlines of strict JSON -/

/-- A tree that fits a depth fits every greater one. -/
theorem Node.fits_mono : ∀ (n : Node) {d e : Nat}, d ≤ e → n.Fits d → n.Fits e := by
  refine induction {
    null := fun _ h => h
    bool := fun _ _ _ _ h => h
    number := fun _ _ _ _ h => h
    string := fun _ _ _ _ h => h
    object := fun ms ih d e hde h => ?_
    array := fun es ih d e hde h => ?_ }
  · obtain ⟨d, rfl, hms⟩ := fits_object_iff.1 h
    obtain ⟨e, rfl⟩ : ∃ k, e = k + 1 := ⟨e - 1, by omega⟩
    exact fits_object.2 fun m hm => ⟨(hms m hm).1, ih m hm (by omega) (hms m hm).2⟩
  · obtain ⟨d, rfl, hes⟩ := fits_array_iff.1 h
    obtain ⟨e, rfl⟩ : ∃ k, e = k + 1 := ⟨e - 1, by omega⟩
    exact fits_array.2 fun m hm => ⟨(hes m hm).1, ih m hm (by omega) (hes m hm).2⟩

namespace Value

variable {blank : Text → Prop} {s : Text} {v : Value}

/-- **Strict JSON has one outline**, that of the tree that is read off it. It may have been
derived with more nesting than a document has, so both are read as deep as either goes. -/
theorem outline_of_isJson (hblank : Blanks blank) {o : Outline} (hparse : parse s = .ok v)
    (h : IsJson blank o s) : v.node.outline = o := by
  obtain ⟨hpack, hlead, hnode, htrail, -⟩ := orderly_of_readTo (parse_eq_ok.1 hparse)
  obtain ⟨d, g₁, u, g₂, hs, hg₁, hu, hg₂⟩ := h
  have hfits : v.node.Fits (max d maxDepth) := v.node.fits_mono (by omega) hnode.fits
  obtain ⟨v₁, hread₁, houtline₁⟩ := exists_readTo hlead
    (v.node.isValue_pack _ hfits hnode.legible) htrail
  obtain ⟨v₂, hread₂, houtline₂⟩ := exists_readTo (hblank.spaces hg₁).gap
    (hu.loose hblank (e := max d maxDepth) (by omega)) (hblank.spaces hg₂).gap.whole
  -- the text of the tree and that of the derivation are one, and it is read in one way
  have hsame : v.lead ++ (v.node.pack ++ v.trail) = g₁ ++ (u ++ g₂) := by
    rw [← hs, ← hpack, pack, List.append_assoc]
  rw [hsame, hread₂] at hread₁
  obtain rfl : v₂ = v₁ := Except.ok.inj hread₁
  rw [← houtline₁, houtline₂]

/-! ### Plain documents -/

theorem ink_pack (v : Value) : ink v.pack = ink v.lead + ink v.node.pack + ink v.trail := by
  rw [pack, ink_append, ink_append]

/-- A tree that is read is plain if it is written with the ink of its outline. -/
theorem plain_of_ink (hparse : parse s = .ok v) (h : ink s = ink v.node.outline.text) :
    v.Plain := by
  have hpack := pack_of_parse hparse
  have hcomma : v.node.Everywhere Node.CommaHere := by
    obtain ⟨s₁, s₂, -, hnode, -⟩ := run_of_readTo (parse_eq_ok.1 hparse)
    exact Parser.commaHere_of_run_node hnode
  -- the outline is written with its ink, so that nothing is left for the slots
  rw [← hpack, ink_pack, Node.ink_pack] at h
  exact ⟨ink_eq_zero_iff.1 (by omega), Node.plain_of_excess _ hcomma (by omega),
    ink_eq_zero_iff.1 (by omega)⟩

/-- **What is read off strict JSON is plain, and nothing else is.** -/
theorem plain_iff_isJson (hparse : parse s = .ok v) : v.Plain ↔ ∃ o, IsJson Spaces o s := by
  constructor
  · intro h
    obtain ⟨hpack, -, hnode, -⟩ := orderly_of_readTo (parse_eq_ok.1 hparse)
    rw [← hpack]
    exact ⟨_, isJson_pack blanks_spaces h.lead hnode.fits h.node h.trail⟩
  · rintro ⟨o, h⟩
    refine plain_of_ink hparse ?_
    rw [outline_of_isJson blanks_spaces hparse h]
    exact h.ink_eq blanks_spaces

end Value

/-! ### Saving without tabs -/

theorem ink_untabbed (s : Text) : ink (Manifest.untabbed s) = ink s := by
  induction s with
  | nil => rfl
  | cons c s ih =>
    by_cases hc : c = '\t'
    · subst hc
      have htwo : Manifest.untabbed ('\t' :: s) = [' ', ' '] ++ Manifest.untabbed s := rfl
      have hone : ink ('\t' :: s) = ink ['\t'] + ink s := ink_append ['\t'] s
      rw [htwo, hone, ink_append, ih]
      rfl
    · rw [untabbed_cons_of_ne hc, ← List.singleton_append, ← List.singleton_append (l := s),
        ink_append, ink_append, ih]

/-- **Strict JSON stays strict JSON without its tabs**, and is read with the outline that it
had. -/
theorem Value.exists_plain_untabbed {v : Value} (h : v.Plain) (hfits : v.node.Fits maxDepth) :
    ∃ v', parse (Manifest.untabbed v.pack) = .ok v' ∧ v'.Plain ∧
      v'.node.outline = v.node.outline := by
  have hjson := isJson_pack blanks_spaces h.lead hfits h.node h.trail
  have hdocument : IsDocument v.node.outline v.pack := by
    refine ⟨v.lead, v.node.pack, v.trail, ?_, h.lead.gap, ?_, h.trail.gap.whole⟩
    · rw [pack, List.append_assoc]
    · exact (Node.isStrict_pack blanks_spaces v.node maxDepth hfits h.node).loose blanks_spaces
        (Nat.le_refl _)
  obtain ⟨v', hparse, houtline⟩ := exists_parse_of_isDocument hdocument.untabbed
  refine ⟨v', hparse, plain_of_ink hparse ?_, houtline⟩
  rw [ink_untabbed, houtline, hjson.ink_eq blanks_spaces]

end EnvManifest
