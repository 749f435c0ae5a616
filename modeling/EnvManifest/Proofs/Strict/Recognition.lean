import EnvManifest.Proofs.Comments.Cut
import EnvManifest.Proofs.Strict.Reading
import EnvManifest.Proofs.Strict.Skeleton

/-!
# Which documents are standard

A document is standard if its slots hold no mark of a comment and none of its flags says that a
comma trails. A mark is looked for in each slot by itself, although one comment may be cut into two
slots, and flags are all that is kept of trailing commas. Still the answer is that of the text: a
slot in which there is no mark is blank (`Whole.spaces_of_hasComment`), and of a comment that was
cut the opening mark is in the first slot (`Severs.hasComment`). So the tree that is read is plain
if it is standard (`Node.plain_of_isStandard`), which is to say that its text is strict JSON
(`Value.isStandard_iff_isJson`).
-/

namespace EnvManifest

open Text

/-! ### Slots without a mark -/

/-- A whole slot without the mark of a comment is blank. -/
theorem Whole.spaces_of_hasComment {s : Text} (h : Whole s) (hs : hasComment s = false) :
    Spaces s := by
  refine h.spaces ?_
  have hremarks := remarks_eq_nil_of_hasComment h hs
  rwa [remarks, List.map_eq_nil_iff] at hremarks

/-- Of a comment that is cut in two, the opening mark is in the first slot. -/
theorem Severs.hasComment {trail closing : Text} (h : Severs trail closing) :
    hasComment trail = true := by
  obtain ⟨g, a, b, rest, rfl, -, -, -, -⟩ := h
  have hmark : hasPair '/' '*' (g ++ '/' :: '*' :: a) = true := by
    rw [hasPair_append]
    simp [hasPair]
  rw [EnvManifest.hasComment, hmark, Bool.or_true]

/-! ### Standard composites -/

section Composites

variable {κ ν : Type} [Label κ]

/-- The slots behind children that are read are blank if there is no mark in them. -/
theorem spaces_of_trailsCut {closing : Text} {trails : List Text}
    (h : trailsCut false closing trails) (htrails : ∀ t ∈ trails, hasComment t = false)
    (hclosing : hasComment closing = false) : (∀ t ∈ trails, Spaces t) ∧ Spaces closing := by
  induction trails with
  | nil =>
    have hgap : Gap closing := h
    exact ⟨by simp, hgap.whole.spaces_of_hasComment hclosing⟩
  | cons t ts ih =>
    obtain ⟨ht, hts⟩ := List.forall_mem_cons.1 htrails
    cases ts with
    | nil =>
      obtain ⟨-, -, hcomments⟩ : CutBehind t closing := h
      obtain ⟨htrail, hgap⟩ := hcomments.resolve_right fun hsevers => by
        rw [hsevers.hasComment] at ht
        simp at ht
      exact ⟨by simpa using htrail.spaces_of_hasComment ht,
        hgap.whole.spaces_of_hasComment hclosing⟩
    | cons u us =>
      obtain ⟨hgap, hrest⟩ : Gap t ∧ trailsCut false closing (u :: us) := h
      obtain ⟨hspaces, hspaces'⟩ := ih hrest hts
      exact ⟨List.forall_mem_cons.2 ⟨hgap.whole.spaces_of_hasComment ht, hspaces⟩, hspaces'⟩

/-- **A composite that is read is plain if it is standard**, and what is in it is standard too. -/
theorem Composite.plain_of_isStandard {f : ν → Bool} {c : Composite κ ν} (hcut : c.Cut)
    (hempty : c.children = [] → c.trailingComma = false) (h : (c.map f).isStandard = true) :
    c.Plain Spaces ∧ ∀ m ∈ c.children, f m.node = true := by
  obtain ⟨⟨hcomma, hclosing⟩, hchildren⟩ : ((c.trailingComma = false ∨ c.children = []) ∧
      hasComment c.closing = false) ∧
      ∀ m ∈ c.children, (m.map f).isStandard = true := by
    simpa [isStandard] using h
  have hnone : c.trailingComma = false := hcomma.elim id hempty
  have hmember : ∀ m ∈ c.children, hasComment m.lead = false ∧
      (∀ t ∈ Label.slots m.label, hasComment t = false) ∧ f m.node = true ∧
      hasComment m.trail = false := by
    intro m hm
    have hstandard := hchildren m hm
    simp only [Child.isStandard, Child.lead_map, Child.label_map, Child.node_map, Child.trail_map,
      Bool.and_eq_true, Bool.not_eq_true', List.all_eq_true] at hstandard
    exact ⟨hstandard.1.1.1, hstandard.1.1.2, hstandard.1.2, hstandard.2⟩
  have hbehind := hcut.behind
  rw [hnone] at hbehind
  obtain ⟨htrails, hspaces⟩ := spaces_of_trailsCut hbehind
    (List.forall_mem_map.2 fun m hm => (hmember m hm).2.2.2) hclosing
  refine ⟨⟨fun m hm => ?_, hspaces, hnone⟩, fun m hm => (hmember m hm).2.2.1⟩
  obtain ⟨hlead, hslots⟩ := hcut.front m hm
  obtain ⟨hmark, hmarks, -, -⟩ := hmember m hm
  exact ⟨hlead.whole.spaces_of_hasComment hmark,
    fun t ht => (hslots t ht).whole.spaces_of_hasComment (hmarks t ht),
    htrails _ (List.mem_map_of_mem hm)⟩

end Composites

/-! ### Standard trees -/

/-- **A tree that is read is plain if it is standard.** -/
theorem Node.plain_of_isStandard : ∀ n : Node, n.Everywhere CutHere → n.Everywhere CommaHere →
    n.isStandard = true → n.Plain Spaces := by
  refine induction {
    null := fun _ _ _ => everywhere_null.2 trivial
    bool := fun _ _ _ _ => everywhere_bool.2 trivial
    number := fun _ _ _ _ => everywhere_number.2 trivial
    string := fun _ _ _ _ => everywhere_string.2 trivial
    object := fun ms ih hcut hcomma h => ?_
    array := fun es ih hcut hcomma h => ?_ }
  · obtain ⟨hcut, hcuts⟩ := everywhere_object.1 hcut
    obtain ⟨hempty, hcommas⟩ := everywhere_object.1 hcomma
    rw [isStandard, fold_object] at h
    obtain ⟨hplain, hinner⟩ := Composite.plain_of_isStandard hcut hempty h
    exact everywhere_object.2
      ⟨hplain, fun m hm => ih m hm (hcuts m hm) (hcommas m hm) (hinner m hm)⟩
  · obtain ⟨hcut, hcuts⟩ := everywhere_array.1 hcut
    obtain ⟨hempty, hcommas⟩ := everywhere_array.1 hcomma
    rw [isStandard, fold_array] at h
    obtain ⟨hplain, hinner⟩ := Composite.plain_of_isStandard hcut hempty h
    exact everywhere_array.2
      ⟨hplain, fun e he => ih e he (hcuts e he) (hcommas e he) (hinner e he)⟩

/-! ### Documents -/

namespace Value

/-- A document is standard exactly if it is plain. -/
theorem isStandard_iff_plain {s : Text} {v : Value} (h : parse s = .ok v) :
    v.isStandard = true ↔ v.Plain := by
  refine ⟨fun hstandard => ?_, isStandard_of_plain⟩
  obtain ⟨hlead, htrail, hcut, -, -⟩ := slots_of_parse h
  obtain ⟨s₁, s₂, -, hnode, -⟩ := run_of_readTo (parse_eq_ok.1 h)
  simp only [isStandard, Bool.and_eq_true, Bool.not_eq_true'] at hstandard
  exact ⟨hlead.whole.spaces_of_hasComment hstandard.1.1,
    v.node.plain_of_isStandard hcut (Parser.commaHere_of_run_node hnode) hstandard.2,
    htrail.spaces_of_hasComment hstandard.1.2⟩

/-- **A document is standard exactly if it is strict JSON**: if its text is derived in the grammar
of strict JSON, which is to say that there is no comment in it outside of literals, and at no depth
a comma in front of a closing bracket. -/
theorem isStandard_iff_isJson {s : Text} {v : Value} (h : parse s = .ok v) :
    (v.isStandard = true ↔ ∃ o, IsJson Spaces o s) ∧
      ((∃ o, IsJson Spaces o s) ↔ comments s = [] ∧ hasTrailingComma s = false) :=
  ⟨(isStandard_iff_plain h).trans (plain_iff_isJson h), (isDocument_of_parse h).isJson_iff⟩

/-- What looks like a comment or like a comma in front of a bracket does not count in a literal. -/
theorem isStandard_iff_isJson_quoted :
    ∃ v, parse "\x7b\"url\": \"http://a/*\", \"b,]\": [1, [ ]]\x7d\n".toList = .ok v ∧
      v.isStandard = true ∧
      ∃ o, IsJson Spaces o "\x7b\"url\": \"http://a/*\", \"b,]\": [1, [ ]]\x7d\n".toList := by
  obtain ⟨v, hv⟩ : ∃ v,
      parse "\x7b\"url\": \"http://a/*\", \"b,]\": [1, [ ]]\x7d\n".toList = .ok v := by
    decide +kernel
  obtain ⟨hstandard, htext⟩ := isStandard_iff_isJson hv
  have hjson := htext.2 ⟨by decide +kernel, by decide +kernel⟩
  exact ⟨v, hv, hstandard.2 hjson, hjson⟩

end Value

end EnvManifest
