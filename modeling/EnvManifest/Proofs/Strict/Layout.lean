import EnvManifest.Proofs.Layout.Indent
import EnvManifest.Proofs.Strict.Ink

/-!
# Laying out plain trees

Layout keeps a plain tree plain. A slot of blanks is laid out as another one, whichever way
(`spaces_getD_inline`, `spaces_ownLine`, `spaces_closingLine`), and there is no line comment to
move. The one thing that layout might add is a trailing comma, behind children that are all
new; it does so only in a document that is no strict JSON already, and a plain one is
(`Value.isStandard_of_plain`). Each pass decides anew, on a tree that is half laid out, so that
what is kept is said of both passes, composite by composite (`Composite.Plain.settle`,
`Composite.Plain.indent`).
-/

namespace EnvManifest

/-! ### Slots of blanks -/

theorem mem_of_hasPair {a b : Char} {s : Text} (h : Text.hasPair a b s = true) : a ∈ s := by
  fun_induction Text.hasPair a b s with
  | case1 c d r ih =>
    rcases Bool.or_eq_true_iff.1 h with hhere | hrest
    · obtain ⟨hc, -⟩ := by simpa using hhere
      exact hc ▸ List.mem_cons_self
    · exact List.mem_cons_of_mem c (ih hrest)
  | case2 => simp at h

/-- There is no comment among blanks. -/
theorem Spaces.hasComment_eq_false {s : Text} (h : Spaces s) : hasComment s = false := by
  have hslash : '/' ∉ s := fun hmem => absurd (h '/' hmem) (by decide)
  have hpair : ∀ b, Text.hasPair '/' b s = false := by
    intro b
    by_contra hb
    exact hslash (mem_of_hasPair (by simpa using hb))
  rw [hasComment, hpair, hpair]
  rfl

theorem Spaces.endsInLineComment_eq_false {s : Text} (h : Spaces s) :
    endsInLineComment s = false :=
  h.gap.endsInLineComment_eq_false

theorem spaces_nil : Spaces [] := by
  intro c hc
  exact absurd hc List.not_mem_nil

theorem spaces_singleton {c : Char} (h : isWhite c = true) : Spaces [c] := by
  intro d hd
  obtain rfl := List.mem_singleton.1 hd
  exact h

theorem spaces_getD_inline {slot empty left right : Text} (h : Spaces slot)
    (hempty : Spaces empty) : Spaces ((inline slot empty left right).getD slot) := by
  rw [inline_of_hasComment_eq_false h.hasComment_eq_false]
  exact hempty

/-- Nothing is written of a slot without comments, its newlines being counted only. -/
theorem out_writeComments {slot : Text} (h : Spaces slot) (indent : Text) (first : Bool) :
    (writeComments slot indent first).out = [] := by
  have hnewline := newline_of_hasComment_eq_false h.hasComment_eq_false
  -- a newline is counted and not written, so the fold keeps what it has written
  have hfold : ∀ (ts : List Trivia) (w : Written), (∀ t ∈ ts, t = .newline) →
      (ts.foldl (Written.put indent first) w).out = w.out := by
    intro ts
    induction ts with
    | nil => exact fun w _ => rfl
    | cons t ts ih =>
      intro w hts
      obtain ⟨rfl, hrest⟩ := List.forall_mem_cons.1 hts
      rw [List.foldl_cons, ih _ hrest]
      rfl
  rw [writeComments]
  cases hts : trivia slot with
  | nil => rfl
  | cons t ts =>
    rw [hts] at hnewline
    obtain rfl := hnewline t List.mem_cons_self
    exact hfold _ _ hnewline

theorem spaces_ownLine {slot indent : Text} (h : Spaces slot) (hindent : Spaces indent)
    (first : Bool) : Spaces (ownLine slot first indent) := by
  have hout := out_writeComments h indent first
  rw [ownLine, hout, List.isEmpty_nil, Bool.not_true, Bool.and_false, if_neg (by simp), List.nil_append]
  exact spaces_lineBreak _ _ hindent

theorem spaces_closingLine {slot indent line : Text} (h : Spaces slot) (hline : Spaces line) :
    Spaces (closingLine slot indent line) := by
  rw [closingLine, out_writeComments h]
  exact (spaces_singleton (c := '\n') rfl).append hline

/-! ### Strict documents -/

namespace Composite

variable {κ ν : Type} [Label κ]

theorem isStandard_of_plain {f : ν → Bool} {c : Composite κ ν} (h : c.Plain Spaces)
    (hf : ∀ m ∈ c.children, f m.node = true) : (c.map f).isStandard = true := by
  have hchildren : (c.map f).children.all Child.isStandard = true := by
    refine List.all_eq_true.2 fun m hm => ?_
    obtain ⟨k, hk, rfl⟩ := List.mem_map.1 hm
    obtain ⟨hlead, hlabel, htrail⟩ := h.children k hk
    have hslots : (Label.slots k.label).all (fun s => !hasComment s) = true :=
      List.all_eq_true.2 fun t ht => by simp [(hlabel t ht).hasComment_eq_false]
    simp [Child.isStandard, hlead.hasComment_eq_false, hslots, hf k hk, htrail.hasComment_eq_false]
  rw [isStandard, hchildren, trailingComma_map, h.comma, closing_map,
    h.closing.hasComment_eq_false]
  rfl

end Composite

/-- A plain tree is standard. -/
theorem Node.isStandard_of_plain : ∀ n : Node, n.Plain Spaces → n.isStandard = true := by
  refine induction {
    null := fun _ => rfl
    bool := fun _ _ => rfl
    number := fun _ _ => rfl
    string := fun _ _ => rfl
    object := fun ms ih h => ?_
    array := fun es ih h => ?_ }
  · obtain ⟨hhere, hinner⟩ := everywhere_object.1 h
    rw [isStandard, fold_object]
    exact Composite.isStandard_of_plain hhere fun m hm => ih m hm (hinner m hm)
  · obtain ⟨hhere, hinner⟩ := everywhere_array.1 h
    rw [isStandard, fold_array]
    exact Composite.isStandard_of_plain hhere fun e he => ih e he (hinner e he)

/-! ### Settling -/

namespace Composite

variable {κ : Type}

/-- Without a line comment behind a child there is nothing to move. -/
theorem shiftComments_eq_self {ν : Type} (comma : Bool) (closing : Text) {cs : List (Child κ ν)}
    (h : ∀ m ∈ cs, endsInLineComment m.trail = false) :
    shiftComments comma closing [] cs = (cs, closing) := by
  induction cs with
  | nil => rfl
  | cons c cs ih =>
    obtain ⟨hc, hcs⟩ := List.forall_mem_cons.1 h
    rw [shiftComments]
    dsimp only
    rw [hc, Bool.and_false, if_neg (by simp), ih hcs]
    rfl

section Children

variable {ν : Type} [Label κ] {c : Child κ ν}

theorem plain_tidy [Named κ] (h : c.Plain Spaces) : (tidy c).Plain Spaces := by
  rw [tidy]
  split
  · refine ⟨h.lead, fun t ht => ?_, h.trail⟩
    obtain ⟨u, hu, rfl | rfl⟩ := Named.mem_slots_mapSlots _ _ c.label t ht
    · exact spaces_getD_inline (h.label u hu) spaces_nil
    · exact spaces_getD_inline (h.label u hu) (spaces_singleton rfl)
  · exact h

theorem plain_placeFirst {pad : Text} (hpad : Spaces pad) (h : c.Plain Spaces) :
    (placeFirst pad c).Plain Spaces := by
  rw [placeFirst, h.lead.hasComment_eq_false]
  exact ⟨hpad, h.label, h.trail⟩

theorem plain_placeNext {between : Text} (hbetween : Spaces between) (h : c.Plain Spaces) :
    (placeNext between c).Plain Spaces := by
  rw [placeNext]
  split
  · exact ⟨spaces_getD_inline h.lead hbetween, h.label, h.trail⟩
  · exact ⟨h.lead, h.label, h.trail⟩

theorem spaces_separator {cs : List (Child κ ν)} (h : ∀ m ∈ cs, m.Plain Spaces) :
    Spaces (separator cs) := by
  rw [separator]
  split
  · rename_i c hc
    exact (h c (List.mem_of_mem_tail (List.mem_of_find?_eq_some hc))).lead
  · exact spaces_singleton rfl

theorem plain_placeInline {pad : Text} (hpad : Spaces pad) {cs : List (Child κ ν)}
    (h : ∀ m ∈ cs, m.Plain Spaces) : ∀ m ∈ placeInline pad cs, m.Plain Spaces := by
  cases cs with
  | nil => simp [placeInline]
  | cons c cs =>
    have hbetween := spaces_separator h
    obtain ⟨hc, hcs⟩ := List.forall_mem_cons.1 h
    refine List.forall_mem_cons.2 ⟨plain_placeFirst hpad hc, fun m hm => ?_⟩
    obtain ⟨k, hk, rfl⟩ := List.mem_map.1 hm
    exact plain_placeNext hbetween (hcs k hk)

end Children

variable [Label κ]

theorem settledComma_of_plain {c : Composite κ Node} (h : c.Plain Spaces) :
    c.settledComma true = false := by
  rw [settledComma]
  split
  · simp
  · exact h.comma

/-- **Settling keeps a plain composite plain**, if the document is strict JSON. -/
theorem Plain.settle [Named κ] {c : Composite κ Node} (h : c.Plain Spaces) :
    (c.settle true).Plain Spaces := by
  have hshift : shiftComments (c.settledComma true) c.closing [] c.children =
      (c.children, c.closing) :=
    shiftComments_eq_self _ _ fun m hm => (h.children m hm).trail.endsInLineComment_eq_false
  have htidy : ∀ m ∈ c.children.map tidy, m.Plain Spaces := by
    intro m hm
    obtain ⟨k, hk, rfl⟩ := List.mem_map.1 hm
    exact plain_tidy (h.children k hk)
  have hclosing : Spaces (inlineClosing c.closing) := by
    rw [inlineClosing]
    split
    · exact spaces_getD_inline h.closing spaces_nil
    · exact h.closing
  -- on several lines the slots are left alone here, on one they are padded with blanks
  rw [Composite.settle]
  dsimp only
  rw [hshift]
  dsimp only
  split
  · exact ⟨htidy, h.closing, settledComma_of_plain h⟩
  · change (⟨placeInline (if hasComment (inlineClosing c.closing) then [] else
      inlineClosing c.closing) _, inlineClosing c.closing, _, false⟩ : Composite κ Node).Plain Spaces
    rw [hclosing.hasComment_eq_false, if_neg (by simp)]
    exact ⟨plain_placeInline hclosing htidy, hclosing, settledComma_of_plain h⟩

theorem plain_map {μ ν : Type} {f : μ → ν} {blank : Text → Prop} {c : Composite κ μ} :
    (c.map f).Plain blank ↔ c.Plain blank := by
  constructor
  · rintro ⟨hchildren, hclosing, hcomma⟩
    refine ⟨fun m hm => ?_, hclosing, hcomma⟩
    obtain ⟨hlead, hlabel, htrail⟩ := hchildren (m.map f) (List.mem_map_of_mem hm)
    exact ⟨hlead, hlabel, htrail⟩
  · rintro ⟨hchildren, hclosing, hcomma⟩
    refine ⟨fun m hm => ?_, hclosing, hcomma⟩
    obtain ⟨k, hk, rfl⟩ := List.mem_map.1 hm
    obtain ⟨hlead, hlabel, htrail⟩ := hchildren k hk
    exact ⟨hlead, hlabel, htrail⟩

end Composite

namespace Node

theorem plain_settled {κ : Type} [Label κ] [Named κ] {c : Composite κ Node} (h : c.Plain Spaces) :
    (if c.dirty then (c.map (settle true)).settle true else c.map (settle true)).Plain Spaces := by
  have hmap : (c.map (settle true)).Plain Spaces := Composite.plain_map.2 h
  split
  · exact hmap.settle
  · exact hmap

/-- **Settling keeps a plain tree plain.** -/
theorem Plain.settle : ∀ n : Node, n.Plain Spaces → (settle true n).Plain Spaces := by
  refine Everywhere.settle fun n h => ?_
  cases n with
  | object ms =>
    rw [settle_object]
    exact plain_settled h
  | array es =>
    rw [settle_array]
    exact plain_settled h
  | null | bool b | number t | string l => exact trivial

end Node

/-! ### Indenting -/

namespace Composite

variable {κ ν : Type} [Label κ] {line step : Text}

theorem plain_onLine {indent : Text} (hindent : Spaces indent) (first : Bool) {c : Child κ ν}
    (h : c.Plain Spaces) : (onLine indent first c).Plain Spaces := by
  rw [onLine]
  split
  · exact ⟨spaces_ownLine h.lead hindent first, h.label, h.trail⟩
  · exact h

theorem Plain.breakLines (hline : Spaces line) (hstep : Spaces step) {c : Composite κ ν}
    (h : c.Plain Spaces) : (c.breakLines line step).Plain Spaces := by
  have hindent := spaces_childIndent hline hstep c.children
  obtain ⟨hchildren, hclosing, hcomma⟩ := h
  refine ⟨fun m hm => ?_, ?_, hcomma⟩
  · obtain ⟨cs, closing, comma, dirty⟩ := c
    cases cs with
    | nil => simp [Composite.breakLines] at hm
    | cons c cs =>
      obtain ⟨hc, hcs⟩ := List.forall_mem_cons.1 hchildren
      rcases List.mem_cons.1 hm with rfl | hm
      · exact plain_onLine hindent true hc
      · obtain ⟨k, hk, rfl⟩ := List.mem_map.1 hm
        exact plain_onLine hindent false (hcs k hk)
  · rw [Composite.breakLines]
    dsimp only
    split
    · exact hclosing
    · exact spaces_closingLine hclosing hline

/-- **Indenting keeps a plain composite plain.** -/
theorem Plain.indent (hline : Spaces line) (hstep : Spaces step) {c : Composite κ (Text → ν)}
    (h : c.Plain Spaces) : (c.indent step line).Plain Spaces := by
  have hbroken : (c.broken line step).Plain Spaces := by
    rw [broken]
    split
    · exact h.breakLines hline hstep
    · exact h
  refine ⟨fun m hm => ?_, hbroken.closing, hbroken.comma⟩
  obtain ⟨k, hk, -, -, rfl⟩ := exists_of_mem_indentChildren hline hm
  obtain ⟨hlead, hlabel, htrail⟩ := hbroken.children k hk
  exact ⟨hlead, hlabel, htrail⟩

end Composite

/-- **Indenting keeps a plain tree plain.** -/
theorem Node.Plain.indent {step : Text} (hstep : Spaces step) : ∀ n : Node, n.Plain Spaces →
    ∀ line, Spaces line → (n.indent step line).Plain Spaces := by
  refine Everywhere.indent fun n line hline h => ?_
  cases n with
  | object ms =>
    rw [indent_object]
    exact (Composite.plain_map.2 h).indent hline hstep
  | array es =>
    rw [indent_array]
    exact (Composite.plain_map.2 h).indent hline hstep
  | null | bool b | number t | string l => exact trivial

/-! ### Documents -/

namespace Value

/-- A document is plain, with blanks around it. -/
structure Plain (v : Value) : Prop where
  lead : Spaces v.lead
  node : v.node.Plain Spaces
  trail : Spaces v.trail

theorem isStandard_of_plain {v : Value} (h : v.Plain) : v.isStandard = true := by
  rw [isStandard, h.lead.hasComment_eq_false, h.trail.hasComment_eq_false,
    v.node.isStandard_of_plain h.node]
  rfl

/-- **Laying out a plain document leaves a plain document.** -/
theorem Plain.format {v : Value} (h : v.Plain) : v.format.Plain := by
  rw [Value.format]
  split
  · refine ⟨h.lead, ?_, h.trail⟩
    have hsettled : (v.node.settle v.isStandard).Plain Spaces := by
      rw [isStandard_of_plain h]
      exact Node.Plain.settle v.node h.node
    exact Node.Plain.indent v.spaces_step _ hsettled _ v.spaces_line
  · exact h

end Value

end EnvManifest
