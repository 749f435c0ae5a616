import EnvManifest.Proofs.Layout.Indent
import EnvManifest.Proofs.Layout.Untouched
import EnvManifest.Proofs.Reading.Complete

/-!
# What an edit may leave

Layout makes a legible document of a tree that is editable everywhere
(`Value.everywhere_format`), and this file is about how an edit gets there from a tree that
is laid out.

A composite that was changed is `Supple` if its slots are loose whatever layout decides
about lines and commas. Another node for one of its children does not matter to that, since
it is a matter of slots only (`Composite.Supple.congr`). A child can be put at the end of a
composite that is `Open`: that has nothing behind its last child that a comma would be lost
in, as in an open block comment (`Composite.supple_append`). And if one is taken out, what
the removal glues has to stay legible (`Composite.Sealed`).
-/

namespace EnvManifest

/-! ### Slots that go on -/

/-- What is behind a child can be taken apart in front of the closing slot, and be put
together again. -/
def Ends (trail closing : Text) : Prop :=
  Whole trail ∧ Gap closing ∧ Gap (trail ++ closing)

theorem ends_of_gap {trail closing : Text} (htrail : Gap trail) (hclosing : Gap closing) :
    Ends trail closing :=
  ⟨htrail.whole, hclosing, htrail.append hclosing⟩

theorem Ends.gap_carried {trail closing : Text} (h : Ends trail closing) :
    Gap (carried trail ++ closing) := by
  rw [carried]
  split
  · exact h.2.2
  · exact h.2.1

/-- A comma can be put in front of a child that starts a line. -/
theorem joins_newline {trail lead : Text} (htrail : Whole trail) (hlead : Gap lead) :
    Joins trail ('\n' :: lead) := by
  rcases (whole_iff_scan trail).1 htrail with hs | hs
  · exact joins_of_gap ((gap_iff_scan trail).2 hs) (.blank rfl hlead)
  · refine ⟨htrail, ?_⟩
    rw [carried, if_pos ((endsInLineComment_iff_scan hs).2 rfl), gap_iff_scan, scan_append_of_eq hs]
    exact hlead.scan_eq

section Chains

variable {κ ν : Type} {several comma : Bool} {closing : Text}

/-- A comma can be put between any two children. -/
def Joined (cs : List (Child κ ν)) : Prop :=
  cs.IsChain fun c d => Joins c.trail d.lead

theorem joined_of_trailsLegible {cs : List (Child κ ν)} (hlead : ∀ m ∈ cs, Gap m.lead)
    (h : trailsLegible several comma closing (cs.map Child.trail)) : Joined cs := by
  match cs with
  | [] => exact List.isChain_nil
  | [c] => exact List.isChain_singleton c
  | c :: d :: cs =>
    obtain ⟨htrail, hrest⟩ : Gap c.trail ∧ _ := h
    obtain ⟨-, hlead⟩ := List.forall_mem_cons.1 hlead
    exact List.isChain_cons_cons.2
      ⟨joins_of_gap htrail (hlead d List.mem_cons_self), joined_of_trailsLegible hlead hrest⟩

theorem joined_of_forall {cs : List (Child κ ν)}
    (h : ∀ a ∈ cs, ∀ b ∈ cs, Joins a.trail b.lead) : Joined cs :=
  (List.pairwise_of_forall_mem_list h).isChain

/-- Children that commas can be put between, with or without one at the end. -/
theorem looseBehind_of_joined {cs : List (Child κ ν)} (hcs : Joined cs) (hclosing : Gap closing)
    (hends : ∀ last ∈ cs.getLast?, Ends last.trail closing) :
    looseBehind several comma closing cs := by
  match cs with
  | [] => exact closes_of_gap .nil hclosing
  | [c] =>
    have hlast : Ends c.trail closing := hends c rfl
    cases comma with
    | true => exact Or.inl ⟨hlast.1, closes_of_gap .nil hlast.gap_carried⟩
    | false => exact Or.inl ⟨hlast.2.2, Or.inl hlast.1⟩
  | c :: d :: cs =>
    obtain ⟨hjoin, hrest⟩ := List.isChain_cons_cons.1 hcs
    exact ⟨hjoin, looseBehind_of_joined hrest hclosing (by simpa using hends)⟩

/-- **What may be behind a last child**: two gaps, a line comment that ends in front of the
bracket, or a block comment that goes on. -/
theorem trailsLegible_last_cases {t : Text} (h : trailsLegible false comma closing [t]) :
    Gap t ∧ Gap closing ∨ scan .between t = some .line ∧ Gap (t ++ closing) ∨
      Swallows t closing := by
  cases comma with
  | true =>
    rcases h with ⟨htrail, hcloses⟩ | hswallows
    · exact Or.inl ⟨htrail, hcloses.gap⟩
    · exact Or.inr (Or.inr hswallows)
  | false =>
    have hcloses : Closes false t closing := h
    rcases hcloses with ⟨hgap, hcut⟩ | hseveral
    · by_cases hwhole : Whole t
      · rcases (whole_iff_scan t).1 hwhole with hs | hs
        · have ht := (gap_iff_scan t).2 hs
          exact Or.inl ⟨ht, hgap.of_append ht⟩
        · exact Or.inr (Or.inl ⟨hs, hgap⟩)
      · exact Or.inr (Or.inr ⟨hwhole, hcut.resolve_left hwhole, hgap⟩)
    · simp at hseveral

/-- Behind a last child, a comma may be put in or left out. A trail without a comment may be
emptied before that. -/
theorem looseBehind_last {comma' : Bool} {t : Text} (h : trailsLegible false comma' closing [t])
    {c : Child κ ν} (hc : c.trail = t ∨ hasComment t = false ∧ c.trail = []) :
    looseBehind several comma closing [c] := by
  -- a gap of its own; a line comment that the closing slot ends; a text that swallows it
  rcases trailsLegible_last_cases h with ⟨ht, hclosing⟩ | ⟨hs, hgap⟩ | hswallows
  · refine looseBehind_of_joined (List.isChain_singleton c) hclosing fun last hlast => ?_
    obtain rfl := Option.some.inj hlast
    rcases hc with hc | ⟨-, hc⟩ <;> rw [List.getLast_singleton, hc]
    · exact ends_of_gap ht hclosing
    · exact ends_of_gap .nil hclosing
  · have htrail : c.trail = t := hc.resolve_right fun ⟨hnone, _⟩ => by
      simpa using scan_of_hasComment_eq_false hnone hs
    have hwhole : Whole t := (whole_iff_scan t).2 (Or.inr hs)
    rw [← htrail] at hs hgap hwhole
    cases comma with
    | true =>
      refine Or.inl ⟨hwhole, Or.inl ⟨?_, Or.inl Gap.nil.whole⟩⟩
      rw [carried, if_pos ((endsInLineComment_iff_scan hs).2 rfl)]
      exact hgap
    | false => exact Or.inl ⟨hgap, Or.inl hwhole⟩
  · have htrail : c.trail = t := hc.resolve_right fun ⟨hnone, _⟩ => by
      rcases hswallows.scan_trail with hs | hs <;> simpa using scan_of_hasComment_eq_false hnone hs
    rw [← htrail] at hswallows
    cases comma with
    | true => exact Or.inr hswallows
    | false => exact Or.inl ⟨hswallows.2.2, Or.inr hswallows.2.1⟩

/-- The slots around a child, and whether it is fresh. -/
def Child.frame [Label κ] (c : Child κ ν) : Text × List Text × Text × Bool :=
  (c.lead, Label.slots c.label, c.trail, c.fresh)

theorem looseBehind_congr [Label κ] {μ : Type} {cs : List (Child κ ν)} {cs' : List (Child κ μ)}
    (h : cs'.map Child.frame = cs.map Child.frame) (hcs : looseBehind several comma closing cs) :
    looseBehind several comma closing cs' := by
  match cs, cs' with
  | [], [] => exact hcs
  | [], _ :: _ | _ :: _, [] => simp at h
  | [c], [c'] =>
    obtain ⟨-, -, htrail, -⟩ : c'.lead = c.lead ∧ _ ∧ c'.trail = c.trail ∧ _ := by
      simpa [Child.frame] using h
    rw [looseBehind, htrail]
    exact hcs
  | [_], _ :: _ :: _ | _ :: _ :: _, [_] => simp at h
  | c :: d :: cs, c' :: d' :: cs' =>
    obtain ⟨hjoin, hrest⟩ : Joins c.trail d.lead ∧ _ := hcs
    obtain ⟨hc, hcs'⟩ := List.cons.inj h
    obtain ⟨hd, -⟩ := List.cons.inj hcs'
    have htrail : c'.trail = c.trail := congrArg (fun f => f.2.2.1) hc
    have hlead : d'.lead = d.lead := congrArg Prod.fst hd
    refine ⟨?_, looseBehind_congr hcs' hrest⟩
    rw [htrail, hlead]
    exact hjoin

end Chains

/-! ### Composites with the same slots -/

namespace Composite

section Frames

variable {κ μ ν : Type} [Label κ]

/-- Two composites differ in nodes and names only. -/
structure SameFrame (c : Composite κ ν) (c' : Composite κ μ) : Prop where
  children : c'.children.map Child.frame = c.children.map Child.frame
  closing : c'.closing = c.closing
  trailingComma : c'.trailingComma = c.trailingComma
  dirty : c'.dirty = c.dirty

variable {c : Composite κ ν} {c' : Composite κ μ}

theorem sameFrame_map (f : ν → μ) (c : Composite κ ν) : c.SameFrame (c.map f) where
  children := by simp [Child.frame, Function.comp_def]
  closing := rfl
  trailingComma := rfl
  dirty := rfl

namespace SameFrame

theorem exists_of_mem (h : c.SameFrame c') {m : Child κ μ} (hm : m ∈ c'.children) :
    ∃ k ∈ c.children, k.frame = m.frame :=
  List.mem_map.1 (h.children ▸ List.mem_map_of_mem hm)

theorem legibleOn (h : c.SameFrame c') {several : Bool} (hc : c.LegibleOn several) :
    c'.LegibleOn several := by
  refine ⟨fun m hm => ?_, ?_⟩
  · obtain ⟨k, hk, heq⟩ := h.exists_of_mem hm
    obtain ⟨hlead, hlabel, -⟩ :
        k.lead = m.lead ∧ Label.slots k.label = Label.slots m.label ∧ _ := by
      simpa [Child.frame] using heq
    rw [Child.FrontLegible, ← hlead, ← hlabel]
    exact hc.1 k hk
  · have htrails : c'.children.map Child.trail = c.children.map Child.trail := by
      simpa [Child.frame, Function.comp_def] using congrArg (List.map fun f => f.2.2.1) h.children
    rw [htrails, h.closing, h.trailingComma]
    exact hc.2

theorem atRest (h : c.SameFrame c') (hc : c.AtRest) : c'.AtRest := by
  refine ⟨h.dirty.trans hc.1, fun m hm => ?_⟩
  obtain ⟨k, hk, heq⟩ := h.exists_of_mem hm
  have hfresh : k.fresh = m.fresh := congrArg (fun f => f.2.2.2) heq
  rw [← hfresh]
  exact hc.2 k hk

theorem loose (h : c.SameFrame c') {several comma : Bool} (hc : c.Loose several comma) :
    c'.Loose several comma where
  labels m hm := by
    obtain ⟨k, hk, heq⟩ := h.exists_of_mem hm
    have hlabel : Label.slots k.label = Label.slots m.label := congrArg (fun f => f.2.1) heq
    rw [← hlabel]
    exact hc.labels k hk
  first m hm := by
    have hhead := congrArg List.head? h.children
    rw [List.head?_map, List.head?_map, Option.mem_def.1 hm] at hhead
    obtain ⟨k, hk, heq⟩ := Option.map_eq_some_iff.1 hhead.symm
    have hlead : k.lead = m.lead := congrArg Prod.fst heq
    rw [← hlead]
    exact hc.first k hk
  behind := by
    rw [h.closing]
    exact looseBehind_congr h.children hc.behind

end SameFrame

end Frames

/-! ### Supple composites -/

section Supple

variable {κ ν : Type} [Label κ] {c : Composite κ ν}

/-- A composite that layout makes legible: its slots are loose, whether it goes on several
lines or not and gets a trailing comma or not, or they have not been touched. Only fresh
children get a comma that was not there. -/
def Supple (c : Composite κ ν) : Prop :=
  if c.dirty = true then
    ∀ several comma, (comma = c.trailingComma ∨ ∀ m ∈ c.children, m.fresh = true) →
      c.Loose several comma
  else c.Legible ∧ c.AtRest

theorem Supple.congr {μ : Type} {c' : Composite κ μ} (h : c.Supple) (hc : c.SameFrame c') :
    c'.Supple := by
  rw [Supple] at h ⊢
  rw [hc.dirty]
  split
  · rename_i hdirty
    rw [if_pos hdirty] at h
    intro several comma hcomma
    refine hc.loose (h several comma ?_)
    rw [hc.trailingComma] at hcomma
    refine hcomma.imp_right fun hfresh k hk => ?_
    obtain ⟨m, hm, heq⟩ := List.mem_map.1 (hc.children ▸ List.mem_map_of_mem hk)
    have hfresh' : m.fresh = k.fresh := congrArg (fun f => f.2.2.2) heq
    rw [← hfresh']
    exact hfresh m hm
  · rename_i hdirty
    rw [if_neg hdirty] at h
    exact ⟨hc.legibleOn h.1, hc.atRest h.2⟩

theorem supple_of_loose (hdirty : c.dirty = true) (h : ∀ several comma, c.Loose several comma) :
    c.Supple := by
  rw [Supple, if_pos hdirty]
  exact fun several comma _ => h several comma

theorem supple_of_atRest (hlegible : c.Legible) (hrest : c.AtRest) : c.Supple := by
  rw [Supple, if_neg (by rw [hrest.1]; simp)]
  exact ⟨hlegible, hrest⟩

/-! ### Putting children at the end -/

/-- A child can be put at the end of the composite on a line of its own: no block comment
goes on behind the last child, and if there is no trailing comma, one can be put in front of
the closing slot. -/
def Open (c : Composite κ ν) : Prop :=
  ∀ last ∈ c.children.getLast?, Whole last.trail ∧ (c.trailingComma = false → Gap c.closing)

/-- A child can be put at the end of the composite on the same line. -/
def OpenOnLine (c : Composite κ ν) : Prop :=
  ∀ last ∈ c.children.getLast?, Gap last.trail

theorem gap_closing_of_empty (h : c.Legible) (hc : c.children = []) : Gap c.closing := by
  obtain ⟨-, htrails⟩ := h
  rw [hc] at htrails
  have hcloses : Closes false [] c.closing := htrails
  exact hcloses.gap

/-- All but the last of some trails are gaps. -/
theorem trailsLegible_append {several comma : Bool} {closing : Text} {ts us : List Text}
    (hus : us ≠ []) : trailsLegible several comma closing (ts ++ us) ↔
      (∀ t ∈ ts, Gap t) ∧ trailsLegible several comma closing us := by
  induction ts with
  | nil => simp
  | cons t ts ih =>
    rw [List.cons_append, trailsLegible_cons (by simp [hus]), ih, List.forall_mem_cons, and_assoc]

/-- What is behind the last child. -/
theorem trailsLegible_last {several : Bool} (h : c.LegibleOn several) {last : Child κ ν}
    (hlast : last ∈ c.children.getLast?) :
    trailsLegible several c.trailingComma c.closing [last.trail] := by
  obtain ⟨-, htrails⟩ := h
  obtain ⟨cs, hcs⟩ := List.getLast?_eq_some_iff.1 hlast
  rw [hcs, List.map_append] at htrails
  exact ((trailsLegible_append (by simp)).1 htrails).2

/-- Behind the last child of a composite with a trailing comma there are two gaps, unless the
comma is swallowed by a comment. -/
theorem gap_last_of_comma (h : c.Legible) (hcomma : c.trailingComma = true) {last : Child κ ν}
    (hlast : last ∈ c.children.getLast?) (hwhole : Whole last.trail) :
    Gap last.trail ∧ Gap c.closing := by
  have htrails := trailsLegible_last h hlast
  rw [hcomma] at htrails
  rcases htrails with ⟨htrail, hcloses⟩ | hswallows
  · exact ⟨htrail, hcloses.gap⟩
  · exact absurd hwhole hswallows.1

/-- Without a trailing comma, what is behind the last child is a gap. -/
theorem gap_last_of_not_comma (h : c.Legible) (hcomma : c.trailingComma = false)
    {last : Child κ ν} (hlast : last ∈ c.children.getLast?) : Gap (last.trail ++ c.closing) := by
  have htrails := trailsLegible_last h hlast
  rw [hcomma] at htrails
  have hcloses : Closes false last.trail c.closing := htrails
  exact hcloses.gap

/-- What is behind the last child of an open composite. -/
theorem Open.ends (ho : c.Open) (h : c.Legible) {last : Child κ ν}
    (hlast : last ∈ c.children.getLast?) : Ends last.trail c.closing := by
  obtain ⟨hwhole, hclosing⟩ := ho last hlast
  cases hcomma : c.trailingComma with
  | true =>
    obtain ⟨htrail, hclosing⟩ := gap_last_of_comma h hcomma hlast hwhole
    exact ends_of_gap htrail hclosing
  | false => exact ⟨hwhole, hclosing hcomma, gap_last_of_not_comma h hcomma hlast⟩

theorem Open.gap_closing (ho : c.Open) (h : c.Legible) : Gap c.closing := by
  cases hlast : c.children.getLast? with
  | none => exact gap_closing_of_empty h (List.getLast?_eq_none_iff.1 hlast)
  | some last => exact (ho.ends h hlast).2.1

/-- What is open on the same line is open for a child on a line of its own. -/
theorem OpenOnLine.open (ho : c.OpenOnLine) (h : c.Legible) : c.Open := by
  intro last hlast
  have htrail := ho last hlast
  exact ⟨htrail.whole, fun hcomma => (gap_last_of_not_comma h hcomma hlast).of_append htrail⟩

omit [Label κ] in
theorem open_of_empty (h : c.children = []) : c.Open := by
  intro last hlast
  rw [h] at hlast
  simp at hlast

/-- **New children at the end of an open composite** leave it supple. -/
theorem supple_append {ks : List (Child κ ν)} (h : c.Legible) (ho : c.Open)
    (hfront : ∀ k ∈ ks, k.FrontLegible) (htrail : ∀ k ∈ ks, k.trail = [])
    (hjoin : ∀ last ∈ c.children.getLast?, ∀ k ∈ ks.head?, Joins last.trail k.lead) :
    Supple ⟨c.children ++ ks, c.closing, c.trailingComma, true⟩ := by
  have hall : ∀ m ∈ c.children ++ ks, m.FrontLegible := fun m hm =>
    (List.mem_append.1 hm).elim (h.1 m) (hfront m)
  have hjoined : Joined (c.children ++ ks) := by
    refine List.isChain_append.2
      ⟨joined_of_trailsLegible (fun m hm => (h.1 m hm).1) h.2, joined_of_forall ?_, hjoin⟩
    intro a ha b hb
    rw [htrail a ha]
    exact joins_of_gap .nil (hfront b hb).1
  refine supple_of_loose rfl fun several comma =>
    ⟨fun m hm => (hall m hm).2, fun m hm => (hall m (List.mem_of_mem_head? hm)).1, ?_⟩
  refine looseBehind_of_joined hjoined (ho.gap_closing h) fun last hlast => ?_
  rw [List.getLast?_append, Option.mem_def, Option.or_eq_some_iff] at hlast
  rcases hlast with hlast | ⟨-, hlast⟩
  · rw [htrail last (List.mem_of_getLast? hlast)]
    exact ends_of_gap .nil (ho.gap_closing h)
  · exact ho.ends h hlast

end Supple

end Composite

/-! ### Pliant composites -/

/-- What is laid out is not settled again. -/
theorem Node.settle_of_laidOut (standard : Bool) (n : Node) (h : Everywhere LaidOut n) :
    settle standard n = n :=
  settle_of_not_isDirty standard n (isDirty_of_atRest n (h.mono fun _ hn => hn.2))

namespace Composite

section Pliant

variable {κ : Type} [Label κ] {c : Composite κ Node}

/-- Layout makes the composite legible, its children being pliant themselves. -/
def Pliant (c : Composite κ Node) : Prop :=
  ∀ standard, (c.map (Node.settle standard)).Editable standard

omit [Label κ] in
/-- Layout puts a comma behind the last child only if all children are fresh. -/
theorem settledComma_eq (standard : Bool) (c : Composite κ Node) :
    c.settledComma standard = c.trailingComma ∨ ∀ m ∈ c.children, m.fresh = true := by
  rw [settledComma]
  split
  · rename_i hfresh
    exact Or.inr (List.all_eq_true.1 hfresh)
  · exact Or.inl rfl

/-- **Supple slots make a pliant composite.** -/
theorem Supple.pliant (h : c.Supple) : c.Pliant := by
  intro standard
  have hmap := h.congr (sameFrame_map (Node.settle standard) c)
  rw [Supple] at hmap
  rw [Editable]
  split
  · rename_i hdirty
    rw [if_pos hdirty] at hmap
    exact Or.inl (hmap _ _ (settledComma_eq standard _))
  · rename_i hdirty
    rw [if_neg hdirty] at hmap
    exact hmap

/-- The slots that a removal leaves can be read back, on several lines but for a newline
in front of the closing bracket; or there is nothing left. -/
def Sealed (c : Composite κ Node) : Prop :=
  c.LegibleOn c.isMultiline ∨ c.Emptied

/-- No edit has touched the children of a composite. -/
def Still (c : Composite κ Node) : Prop :=
  ∀ m ∈ c.children, m.fresh = false ∧ Node.Everywhere Node.LaidOut m.node

/-- **A sealed composite is pliant**, its children being as they were. -/
theorem Sealed.pliant (h : c.Sealed) (hstill : c.Still) (hdirty : c.dirty = true) :
    c.Pliant := by
  intro standard
  rw [map_of_forall_eq fun m hm => Node.settle_of_laidOut standard _ (hstill m hm).2, Editable,
    if_pos hdirty]
  refine h.imp_left fun h => ?_
  refine ⟨fun m hm => (h.1 m hm).2, fun m hm => (h.1 m (List.mem_of_mem_head? hm)).1, ?_⟩
  rcases settledComma_eq standard c with hcomma | hfresh
  · rw [hcomma]
    exact looseBehind_of_trailsLegible (fun m hm => (h.1 m hm).1) h.2
  · -- all children being fresh and none, there are no children
    have hnil : c.children = [] := List.eq_nil_iff_forall_not_mem.2 fun m hm => by
      have hold := (hstill m hm).1
      simp [hfresh m hm] at hold
    have htrails := h.2
    rw [hnil] at htrails ⊢
    exact htrails

end Pliant

end Composite

/-! ### Pliant trees -/

namespace Node

/-- Layout makes the tree legible. -/
def Pliant (n : Node) : Prop :=
  ∀ standard, Everywhere (EditableHere standard) n

theorem pliant_object {ms : Object} (h : ms.Pliant) (hinner : ∀ m ∈ ms.children, m.node.Pliant) :
    (Node.object ms).Pliant :=
  fun standard => everywhere_object.2 ⟨h standard, fun m hm => hinner m hm standard⟩

theorem pliant_array {es : Elements} (h : es.Pliant) (hinner : ∀ e ∈ es.children, e.node.Pliant) :
    (Node.array es).Pliant :=
  fun standard => everywhere_array.2 ⟨h standard, fun e he => hinner e he standard⟩

/-- What is laid out is pliant. -/
theorem pliant_of_laidOut {n : Node} (h : Everywhere LaidOut n) : n.Pliant := by
  refine fun standard => h.mono fun k hk => ?_
  cases k with
  | object ms => exact (Composite.supple_of_atRest hk.1 hk.2).pliant standard
  | array es => exact (Composite.supple_of_atRest hk.1 hk.2).pliant standard
  | null | bool b | number t | string l => trivial

theorem pliant_ofText (s : Text) : (Node.ofText s).Pliant :=
  fun _ => everywhere_string.2 trivial

end Node

/-- **A pliant document is laid out to one that is read back**, with its outline. -/
theorem Value.exists_parse_format_of_pliant {v : Value} (hlead : Gap v.lead)
    (hfits : v.node.Fits maxDepth) (hnode : v.node.Pliant) (htrail : Whole v.trail) :
    ∃ w, parse v.format.pack = .ok w ∧ w.node.outline = v.node.outline := by
  obtain ⟨hslots, hslots'⟩ := v.slots_format
  have hlaid := everywhere_format (hnode v.isStandard)
  obtain ⟨w, hw, houtline⟩ := exists_parse_pack (hslots ▸ hlead) (v.fits_format.2 hfits)
    (hlaid.mono fun _ h => h.1) (hslots' ▸ htrail)
  exact ⟨w, hw, houtline.trans v.outline_format⟩

end EnvManifest
