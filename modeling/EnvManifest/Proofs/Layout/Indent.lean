import EnvManifest.Document.Layout
import EnvManifest.Proofs.Layout.Settle

/-!
# Indenting settled trees

The second pass of layout puts the children of a settled composite on lines of their own,
and its closing bracket behind a newline. With that the composite is legible
(`Composite.legible_indent`). All indentations are blanks: they are taken from the lines of
the document, or are one tab (`Node.spaces_of_step?`).

Together with the first pass this is `Value.legible_format`: a document that may be edited
everywhere (`Node.EditableHere`) is laid out to one that is legible and at rest.
-/

namespace EnvManifest

/-! ### Indentations -/

theorem Spaces.of_append {s t : Text} (h : Spaces (s ++ t)) : Spaces t :=
  fun c hc => h c (List.mem_append.2 (Or.inr hc))

theorem spaces_of_stepBeyond? {line indent step : Text} (h : stepBeyond? line indent = some step)
    (hindent : Spaces indent) : Spaces step := by
  rw [stepBeyond?] at h
  split at h
  · simp at h
  · rw [← Text.append_of_without? h] at hindent
    exact hindent.of_append

theorem Child.spaces_of_lineIndent? {κ ν : Type} [Label κ] {c : Child κ ν} {indent : Text}
    (h : c.lineIndent? = some indent) : Spaces indent := by
  rcases Option.or_eq_some_iff.1 h with h | ⟨-, h⟩
  · obtain ⟨slot, -, h⟩ := Option.bind_eq_some_iff.1 h
    exact spaces_of_indentOf? h
  · exact spaces_of_indentOf? h

theorem Child.spaces_lineIndent {κ ν : Type} [Label κ] (c : Child κ ν) {current : Text}
    (h : Spaces current) : Spaces (c.lineIndent?.getD current) := by
  cases hc : c.lineIndent? with
  | none => exact h
  | some indent => exact c.spaces_of_lineIndent? hc

theorem spaces_of_findStep {κ : Type} [Label κ] {line current step : Text}
    {cs : List (Child κ (Text → Option Text))}
    (hcs : ∀ c ∈ cs, ∀ line step, c.node line = some step → Spaces step)
    (h : findStep line current cs = some step) : Spaces step := by
  induction cs generalizing current with
  | nil => simp [findStep] at h
  | cons c cs ih =>
    obtain ⟨hc, hcs⟩ := List.forall_mem_cons.1 hcs
    rw [findStep] at h
    split at h
    · exact ih hcs h
    · split at h
      · rename_i step' hstep
        obtain rfl := Option.some.inj h
        obtain ⟨indent, hindent, hstep⟩ := Option.bind_eq_some_iff.1 hstep
        exact spaces_of_stepBeyond? hstep (spaces_of_indentOf? hindent)
      · dsimp only at h
        split at h
        · rename_i hstep
          obtain rfl := Option.some.inj h
          exact hc _ _ hstep
        · exact ih hcs h

/-- The step of a document is a text of blanks. -/
theorem Node.spaces_of_step? : ∀ (n : Node) (line step : Text), n.step? line = some step →
    Spaces step := by
  refine induction {
    null := fun line step h => ?_
    bool := fun _ line step h => ?_
    number := fun _ line step h => ?_
    string := fun _ line step h => ?_
    object := fun ms ih line step h => ?_
    array := fun es ih line step h => ?_ }
  · simp [step?, stepFinding] at h
  · simp [step?, stepFinding] at h
  · simp [step?, stepFinding] at h
  · simp [step?, stepFinding] at h
  · rw [step?, fold_object] at h
    refine spaces_of_findStep (fun c hc => ?_) h
    obtain ⟨m, hm, rfl⟩ := List.mem_map.1 hc
    exact ih m hm
  · rw [step?, fold_array] at h
    refine spaces_of_findStep (fun c hc => ?_) h
    obtain ⟨e, he, rfl⟩ := List.mem_map.1 hc
    exact ih e he

/-! ### One composite -/

theorem trailsLegible_mono {several several' comma : Bool} {closing closing' : Text}
    (h : ∀ t, Closes several t closing → Closes several' t closing')
    (hswallows : ∀ t, Swallows t closing → Swallows t closing') {ts : List Text}
    (hts : trailsLegible several comma closing ts) : trailsLegible several' comma closing' ts := by
  match ts with
  | [] => exact h [] hts
  | [t] =>
    cases comma with
    | true => exact Or.imp (fun hlast => ⟨hlast.1, h [] hlast.2⟩) (hswallows t) hts
    | false => exact h t hts
  | t :: u :: us => exact ⟨hts.1, trailsLegible_mono h hswallows hts.2⟩

/-- A newline in front of the closing bracket is all that may be missing. -/
theorem Closes.of_newline {several : Bool} {t closing : Text} (h : Closes several t closing)
    (hclosing : '\n' ∈ closing) : Closes false t closing :=
  Or.inl (h.resolve_right fun hlast => hlast.2.1 hclosing)

/-- What closes a composite on one line are two texts of their own. -/
theorem Closes.split {several : Bool} {t closing : Text} (h : Closes several t closing)
    (hclosing : '\n' ∉ closing) : Gap t ∧ Whole closing := by
  rcases h with ⟨hgap, hwhole | hmem⟩ | ⟨-, -, ht, hwhole⟩
  · rcases (whole_iff_scan t).1 hwhole with ht | ht
    · have ht' : Gap t := (gap_iff_scan t).2 ht
      exact ⟨ht', (hgap.of_append ht').whole⟩
    · exact absurd (mem_newline_of_gap_append ht hgap) hclosing
  · exact absurd (List.mem_of_head? hmem) hclosing
  · exact ⟨ht, hwhole⟩

namespace Composite

section Map

variable {κ μ ν : Type} {f : μ → ν} {c : Composite κ μ}

theorem atRest_map : (c.map f).AtRest ↔ c.AtRest := by
  simp [AtRest]

variable [Label κ]

theorem legibleOn_map {several : Bool} : (c.map f).LegibleOn several ↔ c.LegibleOn several := by
  simp [LegibleOn, Child.FrontLegible, Function.comp_def]

theorem legible_map : (c.map f).Legible ↔ c.Legible :=
  legibleOn_map

theorem settled_map : (c.map f).Settled ↔ c.Settled := by
  simp [Settled, legibleOn_map, legible_map, atRest_map]

end Map

variable {κ ν : Type}

theorem spaces_childIndent {line step : Text} (hline : Spaces line) (hstep : Spaces step)
    (cs : List (Child κ ν)) : Spaces (childIndent line step cs) := by
  rw [childIndent]
  split
  · rename_i indent h
    obtain ⟨c, -, hc⟩ := List.exists_of_findSome?_eq_some h
    exact spaces_of_indentOf? hc
  · exact hline.append hstep

theorem frontLegible_onLine [Label κ] {indent : Text} (hindent : Spaces indent) (first : Bool)
    {c : Child κ ν} (h : c.FrontLegible) : (onLine indent first c).FrontLegible := by
  rw [onLine]
  split
  · exact ⟨(gap_ownLine_iff hindent h.1.whole first).2 h.1, h.2⟩
  · exact h

theorem trail_onLine (indent : Text) (first : Bool) (c : Child κ ν) :
    (onLine indent first c).trail = c.trail := by
  rw [onLine]
  split <;> rfl

theorem map_trail_breakLines (line step : Text) (c : Composite κ ν) :
    (c.breakLines line step).children.map Child.trail = c.children.map Child.trail := by
  obtain ⟨cs, closing, comma, dirty⟩ := c
  cases cs with
  | nil => rfl
  | cons c cs => simp [breakLines, trail_onLine, Function.comp_def]

theorem frontLegible_breakLines [Label κ] {line step : Text} (hline : Spaces line)
    (hstep : Spaces step) {c : Composite κ ν} (h : ∀ m ∈ c.children, m.FrontLegible) :
    ∀ m ∈ (c.breakLines line step).children, m.FrontLegible := by
  have hindent := spaces_childIndent hline hstep c.children
  obtain ⟨cs, closing, comma, dirty⟩ := c
  cases cs with
  | nil => simp [breakLines]
  | cons c cs =>
    obtain ⟨hc, hcs⟩ := List.forall_mem_cons.1 h
    refine List.forall_mem_cons.2 ⟨frontLegible_onLine hindent true hc, fun m hm => ?_⟩
    obtain ⟨k, hk, rfl⟩ := List.mem_map.1 hm
    exact frontLegible_onLine hindent false (hcs k hk)

/-- **Putting children and bracket on lines of their own makes the composite legible.** -/
theorem legible_breakLines [Label κ] {line step : Text} (hline : Spaces line)
    (hstep : Spaces step) {c : Composite κ ν} (h : c.LegibleOn true) :
    (c.breakLines line step).Legible := by
  obtain ⟨hfront, htrails⟩ := h
  refine ⟨frontLegible_breakLines hline hstep hfront, ?_⟩
  rw [map_trail_breakLines, breakLines]
  dsimp only
  refine trailsLegible_mono (fun t ht => ?_) (fun t ht => ?_) htrails
  · split
    · rename_i hbreaks
      exact ht.of_newline (by simpa [Text.breaksLine] using hbreaks)
    · rename_i hbreaks
      obtain ⟨hgap, hwhole⟩ := ht.split (by simpa [Text.breaksLine] using hbreaks)
      exact closes_of_gap hgap (gap_closingLine (spaces_childIndent hline hstep _) hline hwhole)
  · have hbreaks : c.closing.breaksLine = true := by
      simpa [Text.breaksLine] using List.mem_of_head? ht.2.1
    rwa [if_pos hbreaks]

/-! ### Children one line after the other -/

section Children

variable [Label κ] {current : Text}

/-- The children of an indented composite: each is a child that was there, its node being
indented for a text of blanks, and is at rest. -/
theorem exists_of_mem_indentChildren (hcurrent : Spaces current) {cs : List (Child κ (Text → ν))}
    {m : Child κ ν} (hm : m ∈ indentChildren current cs) :
    ∃ c ∈ cs, ∃ line, Spaces line ∧ m = ⟨c.lead, c.label, c.node line, c.trail, false⟩ := by
  induction cs generalizing current with
  | nil => simp [indentChildren] at hm
  | cons c cs ih =>
    have hline := c.spaces_lineIndent hcurrent
    rcases List.mem_cons.1 hm with rfl | hm
    · exact ⟨c, List.mem_cons_self, _, hline, rfl⟩
    · obtain ⟨d, hd, hrest⟩ := ih hline hm
      exact ⟨d, List.mem_cons_of_mem c hd, hrest⟩

theorem map_trail_indentChildren (current : Text) (cs : List (Child κ (Text → ν))) :
    (indentChildren current cs).map Child.trail = cs.map Child.trail := by
  induction cs generalizing current with
  | nil => rfl
  | cons c cs ih => exact congrArg (c.trail :: ·) (ih _)

/-- Children whose nodes indenting leads back to are left as they are. -/
theorem indentChildren_map_eq {μ : Type} {f : μ → Text → μ} {cs : List (Child κ μ)}
    (hfresh : ∀ m ∈ cs, m.fresh = false) (hnode : ∀ m ∈ cs, ∀ line, f m.node line = m.node)
    (current : Text) : indentChildren current (cs.map (Child.map f)) = cs := by
  induction cs generalizing current with
  | nil => rfl
  | cons c cs ih =>
    obtain ⟨hc, hcs⟩ := List.forall_mem_cons.1 hfresh
    obtain ⟨hn, hns⟩ := List.forall_mem_cons.1 hnode
    rw [List.map_cons, indentChildren, ih hcs hns]
    simp [hn, ← hc]

end Children

/-- The composite that goes through the children, on lines of their own if need be. -/
def broken (line step : Text) (c : Composite κ ν) : Composite κ ν :=
  if c.dirty then c.breakLines line step else c

theorem legible_broken [Label κ] {line step : Text} (hline : Spaces line) (hstep : Spaces step)
    {c : Composite κ ν} (h : c.Settled) : (c.broken line step).Legible ∧
      (c.broken line step).dirty = false := by
  rw [Settled] at h
  rw [broken]
  split
  · rename_i hdirty
    rw [if_pos hdirty] at h
    exact ⟨legible_breakLines hline hstep h, rfl⟩
  · rename_i hdirty
    rw [if_neg hdirty] at h
    exact ⟨h.1, h.2.1⟩

/-- **An indented composite is legible and at rest.** -/
theorem legible_indent [Label κ] {line step : Text} (hline : Spaces line) (hstep : Spaces step)
    {c : Composite κ (Text → ν)} (h : c.Settled) :
    (c.indent step line).Legible ∧ (c.indent step line).AtRest := by
  obtain ⟨⟨hfront, htrails⟩, hdirty⟩ := legible_broken hline hstep h
  change (⟨indentChildren line (c.broken line step).children, (c.broken line step).closing,
    (c.broken line step).trailingComma, (c.broken line step).dirty⟩ : Composite κ ν).Legible ∧ _
  refine ⟨⟨fun m hm => ?_, ?_⟩, hdirty, fun m hm => ?_⟩
  · obtain ⟨k, hk, line', -, rfl⟩ := exists_of_mem_indentChildren hline hm
    exact hfront k hk
  · dsimp only
    rw [map_trail_indentChildren]
    exact htrails
  · obtain ⟨k, hk, line', -, rfl⟩ := exists_of_mem_indentChildren hline hm
    rfl

/-- The children of a composite on several lines are those that it has. -/
theorem exists_of_mem_broken [Label κ] [Named κ] {line step : Text} {c : Composite κ ν}
    {k : Child κ ν}
    (hk : k ∈ (c.broken line step).children) : ∃ k' ∈ c.children, k.node = k'.node := by
  have hview : (c.broken line step).view = c.view := by
    rw [broken]
    split
    · exact view_breakLines line step c
    · rfl
  have hmem : k.view ∈ c.view := hview ▸ List.mem_map_of_mem hk
  obtain ⟨k', hk', heq⟩ := List.mem_map.1 hmem
  exact ⟨k', hk', (congrArg Prod.snd heq).symm⟩

/-- The children of an indented composite are the indented children. -/
theorem exists_of_mem_indent [Label κ] [Named κ] {line step : Text} (hline : Spaces line)
    {f : Node → Text → ν} {c : Composite κ Node} {m : Child κ ν}
    (hm : m ∈ ((c.map f).indent step line).children) :
    ∃ k ∈ c.children, ∃ line', Spaces line' ∧ m.node = f k.node line' := by
  obtain ⟨k, hk, line', hline', rfl⟩ := exists_of_mem_indentChildren hline hm
  obtain ⟨k', hk', heq⟩ := exists_of_mem_broken hk
  obtain ⟨k'', hk'', rfl⟩ := List.mem_map.1 hk'
  exact ⟨k'', hk'', line', hline', congrFun heq line'⟩

end Composite

/-! ### Whole trees -/

namespace Node

/-- What layout leaves of a node. -/
def LaidOut (n : Node) : Prop :=
  n.LegibleHere ∧ n.AtRestHere

/-- The nodes in an indented node are the indented nodes in it. -/
theorem exists_of_mem_inner_indent {step line : Text} (hline : Spaces line) {n k : Node}
    (hk : k ∈ (indent step n line).inner) :
    ∃ k' ∈ n.inner, ∃ line', Spaces line' ∧ k = indent step k' line' := by
  cases n with
  | object ms =>
    rw [indent_object] at hk
    obtain ⟨m, hm, rfl⟩ := List.mem_map.1 hk
    obtain ⟨m', hm', line', hline', heq⟩ := Composite.exists_of_mem_indent hline hm
    exact ⟨m'.node, List.mem_map_of_mem hm', line', hline', heq⟩
  | array es =>
    rw [indent_array] at hk
    obtain ⟨e, he, rfl⟩ := List.mem_map.1 hk
    obtain ⟨e', he', line', hline', heq⟩ := Composite.exists_of_mem_indent hline he
    exact ⟨e'.node, List.mem_map_of_mem he', line', hline', heq⟩
  | null | bool b | number t | string l => exact absurd hk List.not_mem_nil

/-- **What indenting makes of one node, it makes of all nodes in a tree**, wherever the lines
of their brackets start. -/
theorem Everywhere.indent {P Q : Node → Prop} {step : Text}
    (hnode : ∀ (n : Node) (line : Text), Spaces line → P n → Q (n.indent step line))
    (n : Node) (h : Everywhere P n) : ∀ line, Spaces line → Everywhere Q (n.indent step line) := by
  induction h with
  | mk hhere _ ih =>
    intro line hline
    refine .mk (hnode _ line hline hhere) fun k hk => ?_
    obtain ⟨k', hk', line', hline', rfl⟩ := exists_of_mem_inner_indent hline hk
    exact ih k' hk' line' hline'

/-- **Indenting a settled tree lays it out everywhere.** -/
theorem everywhere_indent {step : Text} (hstep : Spaces step) : ∀ n : Node,
    Everywhere SettledHere n → ∀ line, Spaces line → Everywhere LaidOut (indent step n line) := by
  refine Everywhere.indent fun n line hline h => ?_
  cases n with
  | object ms =>
    rw [indent_object]
    exact Composite.legible_indent hline hstep (Composite.settled_map.2 h)
  | array es =>
    rw [indent_array]
    exact Composite.legible_indent hline hstep (Composite.settled_map.2 h)
  | null | bool b | number t | string l => exact ⟨trivial, trivial⟩

theorem laidOut_of_editable {κ : Type} [Label κ] {standard : Bool} {c : Composite κ Node}
    (hclean : c.dirty = false) (h : (c.map (settle standard)).Editable standard) :
    c.Legible ∧ c.AtRest := by
  rw [Composite.Editable, Composite.dirty_map, hclean, if_neg (by simp)] at h
  exact ⟨Composite.legible_map.1 h.1, Composite.atRest_map.1 h.2⟩

/-- What is not marked is laid out already. -/
theorem everywhere_of_not_isDirty {standard : Bool} (n : Node) (hclean : n.isDirty = false)
    (h : Everywhere (EditableHere standard) n) : Everywhere LaidOut n := by
  refine ((isDirty_eq_false_iff.1 hclean).and h).mono fun n hn => ?_
  cases n with
  | object ms => exact laidOut_of_editable hn.1 hn.2
  | array es => exact laidOut_of_editable hn.1 hn.2
  | null | bool b | number t | string l => exact ⟨trivial, trivial⟩

end Node

namespace Value

/-- The indentation of the line that a document opens on. -/
theorem spaces_line (v : Value) : Spaces ((indentOf? v.lead).getD []) := by
  cases hlead : indentOf? v.lead with
  | none => simp [Spaces]
  | some indent => exact spaces_of_indentOf? hlead

/-- The step that a document is indented by. -/
theorem spaces_step (v : Value) : Spaces (((v.node.settle v.isStandard).step?
    ((indentOf? v.lead).getD [])).getD ['\t']) := by
  cases hfound : (v.node.settle v.isStandard).step? ((indentOf? v.lead).getD []) with
  | none => exact spaces_of_blanks (by simp)
  | some step => exact Node.spaces_of_step? _ _ _ hfound

/-- Laying out a document keeps the slots around it. -/
theorem slots_format (v : Value) : v.format.lead = v.lead ∧ v.format.trail = v.trail := by
  rw [format]
  split <;> exact ⟨rfl, rfl⟩

/-- **A document that may be edited as it was is laid out everywhere.** -/
theorem everywhere_format {v : Value}
    (h : Node.Everywhere (Node.EditableHere v.isStandard) v.node) :
    Node.Everywhere Node.LaidOut v.format.node := by
  rw [format]
  split
  · exact Node.everywhere_indent v.spaces_step _ (Node.everywhere_settle _ _ h) _ v.spaces_line
  · rename_i hclean
    exact Node.everywhere_of_not_isDirty _ (by simpa using hclean) h

end Value

end EnvManifest
