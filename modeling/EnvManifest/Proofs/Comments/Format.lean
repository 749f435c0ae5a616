import EnvManifest.Proofs.Comments.Layout
import EnvManifest.Proofs.Reading.Complete

/-!
# Formatting keeps values and comments

A tree whose slots hold blanks and complete comments, and in which what is behind a line comment
begins a line, is laid out to a text that is read again: with the outline of the tree, and with
the comments in its slots, in document order (`Value.exists_parse_format`). Which of its composites
and children are marked does not matter, as long as a comma is not in the way of a line comment
where nothing is marked.

The comments are those of the text (`Text.comments`), not of the tree that it is read to, and
they are the same but for blanks at their ends: a line comment that is moved takes in what is in
front of the newline there (`Value.not_comments_format`).
-/

namespace EnvManifest

open Text

/-! ### The comments of a packed tree -/

theorem remarks_token {s : Text} (h : ∀ c ∈ s, c ≠ '"' ∧ c ≠ '/') (t : Text) :
    remarks (s ++ t) = remarks t := by
  rw [remarks, comments_token h, remarks]

theorem remarks_cons {c : Char} (hquote : c ≠ '"') (hslash : c ≠ '/') (t : Text) :
    remarks (c :: t) = remarks t := by
  rw [remarks, comments_cons hquote hslash, remarks]

theorem remarks_literal {l : Literal} (h : IsLiteral l) (t : Text) :
    remarks (l.raw ++ t) = remarks t := by
  rw [remarks, comments_literal h, remarks]

theorem Text.StartsLine.append {s : Text} (h : StartsLine s) (t : Text) : StartsLine (s ++ t) := by
  obtain ⟨blanks, rest, rfl, hblanks⟩ := h
  exact ⟨blanks, rest ++ t, by simp, hblanks⟩

section Pack

variable {κ ν : Type} [Label κ] {f : ν → Text} {g : ν → List Text}

/-- The comments of the children between two brackets are those in their slots and nodes. -/
theorem remarks_pack_children {cs : List (Child κ ν)} {closing : Text} {comma dirty : Bool}
    (hchild : ∀ m ∈ cs, ∀ t, remarks (m.lead ++ Label.pack m.label ++ f m.node ++ t) =
      remarks m.lead ++ ((Label.slots m.label).flatMap remarks ++ (g m.node ++ remarks t)))
    (hclosing : Gap closing) (h : lineCommentsEnd false comma closing cs) (t : Text) :
    remarks ((Composite.map f ⟨cs, closing, comma, dirty⟩).pack ++ t) =
      (⟨cs, closing, comma, dirty⟩ : Composite κ ν).gather remarks g ++ remarks t := by
  induction cs with
  | nil =>
    rw [Composite.map_mk, List.map_nil, Composite.pack_nil, hclosing.remarks_append]
    rfl
  | cons c cs ih =>
    obtain ⟨hends, hcomma, hrest⟩ := h
    obtain ⟨hc, hcs⟩ := List.forall_mem_cons.1 hchild
    have hgap : comma = true ∨ cs ≠ [] → Gap c.trail := fun hc => by simpa using hcomma hc
    -- what is written behind the child is its trail, a comma or not, and the rest
    have hwritten : ∀ u, remarks (c.trail ++ u) = remarks c.trail ++ remarks u →
        remarks ((c.map f).pack ++ u) = c.gather remarks g ++ remarks u := by
      intro u hu
      rw [Child.pack, List.append_assoc]
      refine (hc _).trans ?_
      rw [Child.trail_map, hu, Child.gather]
      simp only [List.append_assoc]
    cases cs with
    | nil =>
      rw [Composite.map_mk, List.map_singleton, Composite.pack_singleton, List.append_assoc,
        hwritten]
      · cases comma with
        | true =>
          have hcomma : remarks ([','] ++ closing ++ t) = remarks (closing ++ t) :=
            remarks_cons (by decide) (by decide) _
          rw [if_pos rfl, hcomma, hclosing.remarks_append]
          simp [Composite.gather]
        | false =>
          rw [if_neg (by simp), List.nil_append, hclosing.remarks_append]
          simp [Composite.gather]
      · cases comma with
        | true => exact (hgap (Or.inl rfl)).remarks_append _
        | false => exact hends.whole.remarks_append (hends.imp_right fun hline => hline.2.append t)
    | cons d cs =>
      have htrail : Gap c.trail := hgap (Or.inr (by simp))
      have hcons : remarks (',' :: ((Composite.map f ⟨d :: cs, closing, comma, dirty⟩).pack ++ t)) =
          (⟨d :: cs, closing, comma, dirty⟩ : Composite κ ν).gather remarks g ++ remarks t := by
        rw [remarks_cons (by decide) (by decide)]
        exact ih hcs hrest
      rw [Composite.map_mk, List.map_cons, List.map_cons, Composite.pack_cons_cons, List.append_assoc,
        List.cons_append, hwritten _ (htrail.remarks_append _)]
      refine (congrArg (c.gather remarks g ++ ·) hcons).trans ?_
      simp [Composite.gather]

theorem remarks_pack_composite {c : Composite κ ν}
    (hchild : ∀ m ∈ c.children, ∀ t, remarks (m.lead ++ Label.pack m.label ++ f m.node ++ t) =
      remarks m.lead ++ ((Label.slots m.label).flatMap remarks ++ (g m.node ++ remarks t)))
    (h : c.Ended false) (t : Text) :
    remarks ((c.map f).pack ++ t) = c.gather remarks g ++ remarks t :=
  remarks_pack_children hchild h.closing h.behind t

end Pack

namespace Node

/-- **The comments of a packed tree are those in its slots**, if no comment has to be moved. -/
theorem remarks_pack : ∀ n : Node, ∀ d, n.Fits d → Everywhere EndedHere n →
    ∀ t, remarks (n.pack ++ t) = n.gather remarks ++ remarks t := by
  refine induction {
    null := fun d _ _ t => remarks_token (s := "null".toList) (by simp) t
    bool := fun b d _ _ t => ?_
    number := fun s d hfits _ t => ?_
    string := fun l d hfits _ t => remarks_literal (fits_string.1 hfits) t
    object := fun ms ih d hfits h t => ?_
    array := fun es ih d hfits h t => ?_ }
  · cases b with
    | false => exact remarks_token (s := "false".toList) (by simp) t
    | true => exact remarks_token (s := "true".toList) (by simp) t
  · have hnumber : IsNumber s := fits_number.1 hfits
    refine remarks_token (fun c hc => ⟨?_, ?_⟩) t
    · rintro rfl
      exact hnumber.not_mem (by decide) (by decide) hc
    · rintro rfl
      exact hnumber.not_mem (by decide) (by decide) hc
  · obtain ⟨d, rfl, hinner⟩ := fits_object_iff.1 hfits
    obtain ⟨hended, heverywhere⟩ := everywhere_object.1 h
    rw [pack_object, gather_object, List.cons_append, List.cons_append, List.append_assoc,
      remarks_cons (by decide) (by decide), remarks_pack_composite (g := gather remarks) ?_ hended,
      List.singleton_append, remarks_cons (by decide) (by decide)]
    intro m hm t
    obtain ⟨hlead, hlabel⟩ := hended.front m hm
    obtain ⟨hname, hnode⟩ := hinner m hm
    have hliteral : IsLiteral m.label.name := hname m.label.name (by simp [Named.names])
    have hbefore : Gap m.label.beforeColon := hlabel _ (by simp [Label.slots])
    have hafter : Gap m.label.afterColon := hlabel _ (by simp [Label.slots])
    simp only [Label.pack, Label.slots, List.append_assoc, List.cons_append, List.flatMap_cons,
      List.flatMap_nil, List.nil_append]
    rw [hlead.remarks_append, remarks_literal hliteral, hbefore.remarks_append,
      remarks_cons (by decide) (by decide), hafter.remarks_append,
      ih m hm d hnode (heverywhere m hm)]
  · obtain ⟨d, rfl, hinner⟩ := fits_array_iff.1 hfits
    obtain ⟨hended, heverywhere⟩ := everywhere_array.1 h
    rw [pack_array, gather_array, List.cons_append, List.cons_append, List.append_assoc,
      remarks_cons (by decide) (by decide), remarks_pack_composite (g := gather remarks) ?_ hended,
      List.singleton_append, remarks_cons (by decide) (by decide)]
    intro e he t
    simp only [Label.pack, Label.slots, List.append_nil, List.append_assoc, List.flatMap_nil,
      List.nil_append]
    rw [(hended.front e he).1.remarks_append, ih e he d (hinner e he).2 (heverywhere e he)]

end Node

/-! ### Documents -/

namespace Value

/-- The comments of a packed document are those in its slots. -/
theorem remarks_pack {v : Value} (hlead : Gap v.lead) (hfits : v.node.Fits maxDepth)
    (hnode : Node.Everywhere Node.EndedHere v.node) : remarks v.pack = v.gather remarks := by
  rw [pack, gather, List.append_assoc, hlead.remarks_append, Node.remarks_pack _ _ hfits hnode]

/-- **Formatting keeps values and comments** of a tree, whatever is marked in it: what it is laid
out to is read again, with the same outline and with the comments of the tree in document order,
but for blanks at their ends. -/
theorem exists_parse_format {v : Value} (hlead : Gap v.lead) (hfits : v.node.Fits maxDepth)
    (hnode : Node.Everywhere Node.CommentedHere v.node) (htrail : Whole v.trail) :
    ∃ w, parse v.format.pack = .ok w ∧ w.node.outline = v.node.outline ∧
      remarks v.format.pack = v.gather remarks := by
  have hended := everywhere_ended_format hnode
  obtain ⟨hslots, hslots'⟩ := v.slots_format
  have hlead' : Gap v.format.lead := hslots ▸ hlead
  have hfits' : v.format.node.Fits maxDepth := v.fits_format.2 hfits
  obtain ⟨w, hw, houtline⟩ := exists_parse_pack hlead' hfits'
    (hended.mono fun _ => Node.legibleHere_of_endedHere) (hslots' ▸ htrail)
  refine ⟨w, hw, houtline.trans v.outline_format, ?_⟩
  rw [remarks_pack hlead' hfits' hended, remarks_format hnode]

/-- An array in which the first element has a line comment behind it that a comma would end up
in; blanks are in front of the newline behind the comma. -/
def dangling : Value :=
  ⟨[], (), .array ⟨[⟨[], (), .null, " // x".toList, false⟩, ⟨"  \n ".toList, (), .null, [], false⟩],
    [], false, true⟩, [], false⟩

theorem commented_dangling : Node.Everywhere Node.CommentedHere dangling.node := by
  have hlead : Gap "  \n ".toList := gap_of_all_isWhite (by simp [isWhite])
  have htrail : Whole " // x".toList := (whole_iff_scan _).2 (Or.inr (by decide))
  have hstarts : StartsLine "  \n ".toList := ⟨[' ', ' '], [' '], rfl, by simp [isWhite]⟩
  have hfront : ∀ {lead trail : Text}, Gap lead →
      (⟨lead, (), .null, trail, false⟩ : Value).FrontLegible :=
    fun hlead => ⟨hlead, fun _ ht => absurd ht List.not_mem_nil⟩
  refine Node.everywhere_array.2 ⟨⟨?_, .nil, ?_⟩, ?_⟩
  · exact List.forall_mem_cons.2 ⟨hfront .nil, List.forall_mem_singleton.2 (hfront hlead)⟩
  · exact ⟨Or.inr ⟨htrail, hstarts⟩, fun _ => Or.inl rfl, Or.inl .nil, fun _ => Or.inl rfl, trivial⟩
  · exact List.forall_mem_cons.2 ⟨Node.everywhere_null.2 trivial,
      List.forall_mem_singleton.2 (Node.everywhere_null.2 trivial)⟩

/-- The comment is moved behind the comma. -/
theorem exists_parse_format_dangling :
    ∃ w, parse dangling.format.pack = .ok w ∧ w.node.outline = dangling.node.outline ∧
      remarks dangling.format.pack = dangling.gather remarks :=
  exists_parse_format .nil (Node.fits_array_iff.2 ⟨127, rfl, by simp [Child.Fits, Named.names]⟩)
    commented_dangling Gap.nil.whole

/-- **A comment may get blanks at its end** that it did not have, and not just a carriage return
less. -/
theorem not_comments_format : ∃ v : Value, Gap v.lead ∧ v.node.Fits maxDepth ∧
    Node.Everywhere Node.CommentedHere v.node ∧ Whole v.trail ∧
    (comments v.format.pack).map (dropEndWhile (· == '\r')) ≠
      v.gather fun slot => (comments slot).map (dropEndWhile (· == '\r')) := by
  refine ⟨dangling, .nil, Node.fits_array_iff.2 ⟨127, rfl, ?_⟩, commented_dangling,
    Gap.nil.whole, ?_⟩
  · simp [Child.Fits, Named.names]
  · decide +kernel

end Value

end EnvManifest
