import EnvManifest.Proofs.Reading.Sound

/-!
# What a parser accepts

Every text that the grammar derives is read, and the tree has the outline of the
derivation (`Parser.run_node_of_isValue`). A number is the only value that what
follows it could lengthen, and behind a value stands a gap, a comma, a bracket or
nothing (`numberEnd_gap_append`); a slot is passed over as far as it goes, and behind it
stands a token that no gap begins with (`Parser.ValueStart`).

Together with what a parser answers, this makes the grammar and the parser the same:
`Value.parse_iff_isDocument`.
-/

namespace EnvManifest

/-! ### What follows a value -/

theorem Gap.head {g : Text} (h : Gap g) : ∀ c ∈ g.head?, isWhite c = true ∨ c = '/' := by
  cases h with
  | nil => simp
  | blank hc _ => simp [hc]
  | line _ _ => simp
  | block _ _ => simp

theorem Whole.head {g : Text} (h : Whole g) : ∀ c ∈ g.head?, isWhite c = true ∨ c = '/' := by
  cases g with
  | nil => simp
  | cons d g => simpa using Gap.head h

/-- A blank or a slash lengthens no number. -/
theorem numberEnd_of_head {s : Text} (h : ∀ c ∈ s.head?, isWhite c = true ∨ c = '/') :
    NumberEnd s := by
  intro c hc
  have hclass := h c hc
  rw [isWhite_iff] at hclass
  rcases hclass with (rfl | rfl | rfl | rfl) | rfl <;> decide

/-- Neither a comma nor a bracket does, with a gap in front of it. -/
theorem numberEnd_gap_append {g : Text} (h : Gap g) {c : Char} (hc : c ∈ [',', ']', '\x7d'])
    (rest : Text) : NumberEnd (g ++ c :: rest) := by
  cases g with
  | nil =>
    simp only [List.mem_cons, List.not_mem_nil, or_false] at hc
    rcases hc with rfl | rfl | rfl <;> simp [NumberEnd, Text.isDigit]
  | cons d g => exact numberEnd_of_head (by simpa using h.head)

/-! ### What a value begins with -/

/-- The characters that a value begins with. -/
def ValueStart (c : Char) : Prop :=
  c ∈ decimals ∨ c ∈ ['-', '"', 't', 'f', 'n', '[', '\x7b']

theorem ValueStart.token {c : Char} (h : ValueStart c) :
    isWhite c = false ∧ c ≠ '/' ∧ c ≠ ']' ∧ c ≠ '\x7d' := by
  rcases h with h | h
  · simp only [decimals, List.mem_cons, List.not_mem_nil, or_false] at h
    rcases h with rfl | rfl | rfl | rfl | rfl | rfl | rfl | rfl | rfl | rfl <;> decide
  · simp only [List.mem_cons, List.not_mem_nil, or_false] at h
    rcases h with rfl | rfl | rfl | rfl | rfl | rfl | rfl <;> decide

theorem IsNumber.head {t : Text} (h : IsNumber t) :
    ∃ c s, t = c :: s ∧ (c = '-' ∨ Text.isDigit c = true) := by
  cases h with
  | @mk sign int frac exp hsign hint _ _ =>
    obtain ⟨c, s, rfl, hc⟩ := hint.head
    rcases hsign with rfl | rfl
    · exact ⟨c, _, rfl, Or.inr hc⟩
    · exact ⟨'-', _, rfl, Or.inl rfl⟩

theorem IsLeaf.head {o : Outline} {u : Text} (h : IsLeaf o u) : ∃ c s, u = c :: s ∧ ValueStart c := by
  cases h with
  | null => exact ⟨'n', _, rfl, Or.inr (by simp)⟩
  | true => exact ⟨'t', _, rfl, Or.inr (by simp)⟩
  | false => exact ⟨'f', _, rfl, Or.inr (by simp)⟩
  | number h =>
    obtain ⟨c, s, rfl, hc⟩ := h.head
    refine ⟨c, s, rfl, ?_⟩
    rcases hc with rfl | hc
    · exact Or.inr (by simp)
    · exact Or.inl (isDigit_iff.1 hc)
  | string h =>
    obtain ⟨body, hraw, -⟩ := h
    exact ⟨'"', _, hraw, Or.inr (by simp)⟩

theorem IsValue.head {d : Nat} {o : Outline} {u : Text} (h : IsValue d o u) :
    ∃ c s, u = c :: s ∧ ValueStart c := by
  cases d with
  | zero => exact IsLeaf.head h
  | succ d =>
    rcases h with h | h
    · exact h.head
    · cases h with
      | object _ => exact ⟨'\x7b', _, rfl, Or.inr (by simp)⟩
      | array _ => exact ⟨'[', _, rfl, Or.inr (by simp)⟩

/-! ### The loop over children -/

section Children

variable {κ α : Type}

/-- What a parser of children has to read: everything that is written as one thing of
a list, up to a comma or the closing bracket. -/
def Inside.Complete (i : Inside κ) (node : Parser Node) (view : κ → Node → α)
    (P : α → Text → Prop) : Prop :=
  ∀ a s, P a s → ∃ lead c t, s = lead ++ c :: t ∧ Gap lead ∧
    isWhite c = false ∧ c ≠ '/' ∧ c ≠ i.close ∧
    ∀ d ∈ [',', i.close], ∀ rest, ∃ m,
      (i.child node lead).run (c :: (t ++ d :: rest)) = .ok (m, d :: rest) ∧
        view m.label m.node = a

variable {i : Inside κ} {node : Parser Node} {view : κ → Node → α} {P : α → Text → Prop}

/-- A bracket in the place of a child ends the composite. -/
theorem readChildren_close {first : Bool} {s lead rest : Text}
    (hslot : Parser.slot.run s = .ok (lead, i.close :: rest)) :
    readChildren i node first s = .ok (⟨[], lead, !first, false⟩, rest) := by
  rw [readChildren]
  split
  · simp_all
  · rename_i h
    rw [hslot] at h
    obtain ⟨rfl, rfl⟩ := by simpa using h
    simp

/-- A child with a comma behind it stands in front of the others. -/
theorem readChildren_comma {first : Bool} {s lead s₁ s₂ : Text} {m : Child κ Node}
    (hslot : Parser.slot.run s = .ok (lead, s₁)) (hclose : s₁.head? ≠ some i.close)
    (hchild : (i.child node lead).run s₁ = .ok (m, ',' :: s₂)) {c : Composite κ Node} {rest : Text}
    (hrest : readChildren i node false s₂ = .ok (c, rest)) :
    readChildren i node first s = .ok (c.cons m, rest) := by
  rw [readChildren]
  split
  · simp_all
  · rename_i h
    rw [hslot] at h
    obtain ⟨rfl, rfl⟩ := by simpa using h
    rw [if_neg hclose]
    split <;> rename_i h' <;> rw [hchild] at h'
    · simp at h'
    · simp at h'
    · obtain ⟨rfl, rfl, rfl⟩ := by simpa using h'
      simp [hrest]

/-- A child with the bracket behind it is the last. -/
theorem readChildren_last {first : Bool} {s lead s₁ rest : Text} {m : Child κ Node}
    (hslot : Parser.slot.run s = .ok (lead, s₁)) (hclose : s₁.head? ≠ some i.close)
    (hcomma : i.close ≠ ',')
    (hchild : (i.child node lead).run s₁ = .ok (m, i.close :: rest)) :
    readChildren i node first s = .ok (Composite.last m, rest) := by
  rw [readChildren]
  split
  · simp_all
  · rename_i h
    rw [hslot] at h
    obtain ⟨rfl, rfl⟩ := by simpa using h
    rw [if_neg hclose]
    split <;> rename_i h' <;> rw [hchild] at h'
    · simp at h'
    · simp at h'
    · obtain ⟨rfl, rfl, rfl⟩ := by simpa using h'
      simp [hcomma]

/-- A bracket that nothing in a composite can be taken for. -/
structure Inside.Closing (i : Inside κ) : Prop where
  spacing : isWhite i.close = false
  slash : i.close ≠ '/'
  comma : i.close ≠ ','

theorem Inside.Closing.tokenStart (h : i.Closing) (rest : Text) :
    TokenStart (i.close :: rest) :=
  tokenStart_cons.2 ⟨h.spacing, h.slash⟩

/-- **A list is read to its end**, with what each of its things is read as. -/
theorem run_listed (hi : i.Complete node view P) (hclose : i.Closing) {as : List α} {s : Text}
    (h : Listed P as s) (first : Bool) (rest : Text) :
    ∃ c, readChildren i node first (s ++ i.close :: rest) = .ok (c, rest) ∧
      c.children.map (fun m => view m.label m.node) = as := by
  -- by the derivation: what is behind a thing of the list tells its rule
  induction h generalizing first with
  | last ha =>
    obtain ⟨lead, c, t, rfl, hlead, hspacing, hslash, hne, hrun⟩ := hi _ _ ha
    obtain ⟨m, hm, rfl⟩ := hrun i.close (by simp) rest
    have hslot : Parser.slot.run (lead ++ c :: (t ++ i.close :: rest)) = _ :=
      Parser.run_slot_of_gap hlead (tokenStart_cons.2 ⟨hspacing, hslash⟩)
    refine ⟨Composite.last m, ?_, by simp [Composite.last]⟩
    rw [List.append_assoc, List.cons_append]
    exact readChildren_last hslot (by simpa using hne) hclose.comma hm
  | @trailing a s g ha hg =>
    obtain ⟨lead, c, t, rfl, hlead, hspacing, hslash, hne, hrun⟩ := hi _ _ ha
    obtain ⟨m, hm, rfl⟩ := hrun ',' (by simp) (g ++ i.close :: rest)
    have hslot : Parser.slot.run (lead ++ c :: (t ++ ',' :: (g ++ i.close :: rest))) = _ :=
      Parser.run_slot_of_gap hlead (tokenStart_cons.2 ⟨hspacing, hslash⟩)
    have hend : readChildren i node false (g ++ i.close :: rest) = _ :=
      readChildren_close (Parser.run_slot_of_gap hg (hclose.tokenStart rest))
    refine ⟨Composite.cons m ⟨[], g, true, false⟩, ?_, by simp [Composite.cons]⟩
    simp only [List.append_assoc, List.cons_append]
    exact readChildren_comma hslot (by simpa using hne) hm hend
  | @cons a as s u ha _ ih =>
    obtain ⟨lead, c, t, rfl, hlead, hspacing, hslash, hne, hrun⟩ := hi _ _ ha
    obtain ⟨m, hm, rfl⟩ := hrun ',' (by simp) (u ++ i.close :: rest)
    obtain ⟨cs, hcs, rfl⟩ := ih false
    have hslot : Parser.slot.run (lead ++ c :: (t ++ ',' :: (u ++ i.close :: rest))) = _ :=
      Parser.run_slot_of_gap hlead (tokenStart_cons.2 ⟨hspacing, hslash⟩)
    refine ⟨cs.cons m, ?_, by simp [Composite.cons]⟩
    simp only [List.append_assoc, List.cons_append]
    exact readChildren_comma hslot (by simpa using hne) hm hcs

theorem run_bracketed (hi : i.Complete node view P) (hclose : i.Closing) {as : List α} {s : Text}
    (h : Bracketed P as s) (rest : Text) :
    ∃ c, (Parser.children i node).run (s ++ i.close :: rest) = .ok (c, rest) ∧
      c.children.map (fun m => view m.label m.node) = as := by
  cases h with
  | empty hg =>
    exact ⟨_, readChildren_close (Parser.run_slot_of_gap hg (hclose.tokenStart rest)), rfl⟩
  | listed h => exact run_listed hi hclose h true rest

end Children

namespace Parser

/-! ### Members and elements -/

/-- What a parser of nodes has to read: the values that `P` derives, in front of what
lengthens no number. -/
def Reads (p : Parser Node) (P : Outline → Text → Prop) : Prop :=
  ∀ o u, P o u → (∃ c s, u = c :: s ∧ ValueStart c) ∧
    ∀ rest, NumberEnd rest → ∃ n, p.run (u ++ rest) = .ok (n, rest) ∧ n.outline = o

variable {p : Parser Node} {P : Outline → Text → Prop}

/-- A value with a gap behind it is read, label and all, up to a comma or a bracket. -/
theorem run_child_of_reads {κ : Type} {i : Inside κ} (hp : Reads p P)
    {o : Outline} {u g : Text} (hu : P o u) (hg : Gap g) {d : Char} (hd : d ∈ [',', ']', '\x7d'])
    {s rest : Text} {k : κ} (hlabel : i.label.run s = .ok (k, u ++ (g ++ d :: rest)))
    (lead : Text) :
    ∃ m, (i.child p lead).run s = .ok (m, d :: rest) ∧ m.label = k ∧ m.node.outline = o := by
  obtain ⟨n, hn, ho⟩ := (hp _ _ hu).2 _ (numberEnd_gap_append hg hd rest)
  have htoken : TokenStart (d :: rest) := by
    simp only [List.mem_cons, List.not_mem_nil, or_false] at hd
    rcases hd with rfl | rfl | rfl <;> simp [tokenStart_cons, isWhite]
  refine ⟨⟨lead, k, n, g, false⟩, ?_, rfl, ho⟩
  rw [Inside.child, run_bind_of_eq hlabel, run_bind_of_eq hn,
    run_bind_of_eq (run_slot_of_gap hg htoken), run_pure]

theorem insideArray_complete (hp : Reads p P) :
    insideArray.Complete p (fun _ n => n.outline) (IsElement P) := by
  rintro o _ ⟨hlead, hvalue, htrail⟩
  obtain ⟨⟨c, t, rfl, hc⟩, -⟩ := hp _ _ hvalue
  obtain ⟨hspacing, hslash, hbracket, -⟩ := hc.token
  refine ⟨_, c, _, rfl, hlead, hspacing, hslash, hbracket, fun d hd rest => ?_⟩
  have hd' : d ∈ [',', ']', '\x7d'] := by
    rcases (by simpa [insideArray] using hd : d = ',' ∨ d = ']') with rfl | rfl <;> simp
  obtain ⟨m, hm, -, ho⟩ :=
    run_child_of_reads (i := insideArray) (k := ()) hp hvalue htrail hd' rfl _
  exact ⟨m, by simpa using hm, ho⟩

theorem run_key {l : Literal} (hl : IsLiteral l) {g₁ g₂ s : Text} (h₁ : Gap g₁) (h₂ : Gap g₂)
    (hs : TokenStart s) :
    key.run (l.raw ++ (g₁ ++ ':' :: (g₂ ++ s))) = .ok (⟨l, g₁, g₂⟩, s) := by
  have hquote : (l.raw ++ (g₁ ++ ':' :: (g₂ ++ s))).head? = some '"' := by
    obtain ⟨body, hraw, -⟩ := hl
    simp [hraw]
  have hcolon : TokenStart (':' :: (g₂ ++ s)) := by simp [tokenStart_cons, isWhite]
  rw [key, run_bind, run_peek]
  simp only [hquote, if_true]
  rw [run_bind_of_eq (run_literal hl _), run_bind_of_eq (run_slot_of_gap h₁ hcolon), run_bind,
    run_peek]
  simp only [List.head?_cons, if_true]
  rw [run_bind_of_eq (run_skip _), List.tail_cons, run_bind_of_eq (run_slot_of_gap h₂ hs), run_pure]

theorem insideObject_complete (hp : Reads p P) :
    insideObject.Complete p (fun k n => (k.name, n.outline)) (IsMember P) := by
  rintro ⟨l, o⟩ _ (@⟨_, _, lead, _, _, _, g, hlead, hl, hbefore, hafter, hvalue, htrail⟩)
  obtain ⟨⟨c, t, rfl, hc⟩, -⟩ := hp _ _ hvalue
  obtain ⟨body, hraw, -⟩ := id hl
  refine ⟨_, '"', _, by rw [hraw, List.cons_append], hlead, by decide, by decide, by decide,
    fun d hd rest => ?_⟩
  have hd' : d ∈ [',', ']', '\x7d'] := by
    rcases (by simpa [insideObject] using hd : d = ',' ∨ d = '\x7d') with rfl | rfl <;> simp
  have htoken (s : Text) : TokenStart (c :: s) := tokenStart_cons.2 ⟨hc.token.1, hc.token.2.1⟩
  have hkey := run_key hl hbefore hafter (htoken (t ++ (g ++ d :: rest)))
  obtain ⟨m, hm, hk, ho⟩ := run_child_of_reads (i := insideObject) hp hvalue htrail hd' hkey lead
  refine ⟨m, ?_, by simp [hk, ho]⟩
  rw [← hm, hraw]
  simp

/-! ### Nodes -/

theorem run_word (w rest : Text) : (word w).run (w ++ rest) = .ok ((), rest) := by
  simp [word, Text.without?_append]

/-- A word is read as the node that it names. -/
theorem run_nodeAround_word (inner : Option (Parser Node)) {c : Char} {w : Text} {n : Node}
    (hc : ∀ s, (nodeAround inner).run (c :: s) = (word (c :: w) >>= fun _ => pure n).run (c :: s))
    (rest : Text) : (nodeAround inner).run (c :: w ++ rest) = .ok (n, rest) := by
  rw [List.cons_append, hc]
  exact run_bind_of_eq (run_word (c :: w) rest) _

/-- Behind a digit or a minus sign stands a number. -/
theorem run_nodeAround_number (inner : Option (Parser Node)) {c : Char} {s t rest : Text}
    (hc : c = '-' ∨ Text.isDigit c = true) (h : number.run (c :: s) = .ok (t, rest)) :
    (nodeAround inner).run (c :: s) = .ok (.number t, rest) := by
  have hdigit {d : Char} (hd : Text.isDigit d = false) (hminus : d ≠ '-') : c ≠ d := by
    rintro rfl
    exact hc.elim hminus fun h => by simp [hd] at h
  unfold nodeAround
  rw [run_bind, run_peek]
  simp only [List.head?_cons]
  split
  · exact absurd (Option.some.inj ‹_›) (hdigit rfl (by decide))
  · exact absurd (Option.some.inj ‹_›) (hdigit rfl (by decide))
  · exact absurd (Option.some.inj ‹_›) (hdigit rfl (by decide))
  · exact absurd (Option.some.inj ‹_›) (hdigit rfl (by decide))
  · exact absurd (Option.some.inj ‹_›) (hdigit rfl (by decide))
  · exact absurd (Option.some.inj ‹_›) (hdigit rfl (by decide))
  · rename_i hsome
    obtain rfl := Option.some.inj hsome
    rw [if_pos hc, run_bind_of_eq h, run_pure]
  · simp_all

theorem insideObject_closing : insideObject.Closing :=
  ⟨by decide, by decide, by decide⟩

theorem insideArray_closing : insideArray.Closing :=
  ⟨by decide, by decide, by decide⟩

/-- A leaf is read, whatever its depth. -/
theorem run_nodeAround_of_isLeaf (inner : Option (Parser Node)) {o : Outline} {u rest : Text}
    (h : IsLeaf o u) (hrest : NumberEnd rest) :
    ∃ n, (nodeAround inner).run (u ++ rest) = .ok (n, rest) ∧ n.outline = o := by
  cases h with
  | null => exact ⟨.null, run_nodeAround_word inner (fun _ => rfl) rest, rfl⟩
  | true => exact ⟨.bool true, run_nodeAround_word inner (fun _ => rfl) rest, rfl⟩
  | false => exact ⟨.bool false, run_nodeAround_word inner (fun _ => rfl) rest, rfl⟩
  | number h =>
    refine ⟨.number u, ?_, rfl⟩
    have hrun := run_number h hrest
    obtain ⟨c, s, rfl, hc⟩ := h.head
    rw [List.cons_append] at hrun ⊢
    exact run_nodeAround_number inner hc hrun
  | string h =>
    refine ⟨.string _, ?_, rfl⟩
    have hrun := run_literal h rest
    obtain ⟨body, hraw, -⟩ := h
    rw [hraw, List.cons_append] at hrun ⊢
    exact run_bind_of_eq hrun _

/-- An object or an array is read if what is in it is. -/
theorem run_nodeAround_of_isComposite (hp : Reads p P) {o : Outline} {u : Text}
    (h : IsComposite P o u) (rest : Text) :
    ∃ n, (nodeAround (some p)).run (u ++ rest) = .ok (n, rest) ∧ n.outline = o := by
  cases h with
  | object h =>
    obtain ⟨ms, hms, hview⟩ :=
      run_bracketed (insideObject_complete hp) insideObject_closing h rest
    refine ⟨.object ms, ?_, by rw [Node.outline_object, hview]⟩
    rw [List.cons_append, List.append_assoc]
    change (skip >>= fun _ => children insideObject p >>= fun ms => pure (Node.object ms)).run _ = _
    rw [run_bind_of_eq (run_skip _), List.tail_cons]
    exact run_bind_of_eq hms _
  | array h =>
    obtain ⟨es, hes, hview⟩ :=
      run_bracketed (insideArray_complete hp) insideArray_closing h rest
    refine ⟨.array es, ?_, by rw [Node.outline_array, hview]⟩
    rw [List.cons_append, List.append_assoc]
    change (skip >>= fun _ => children insideArray p >>= fun es => pure (Node.array es)).run _ = _
    rw [run_bind_of_eq (run_skip _), List.tail_cons]
    exact run_bind_of_eq hes _

/-- **A value is read as a tree with its outline.** -/
theorem run_node_of_isValue {d : Nat} {o : Outline} {u : Text} (h : IsValue d o u) {rest : Text}
    (hrest : NumberEnd rest) : ∃ n, (node d).run (u ++ rest) = .ok (n, rest) ∧ n.outline = o := by
  induction d generalizing o u rest with
  | zero => exact run_nodeAround_of_isLeaf none h hrest
  | succ d ih =>
    rcases h with h | h
    · exact run_nodeAround_of_isLeaf _ h hrest
    · exact run_nodeAround_of_isComposite (fun o u hu => ⟨hu.head, fun rest hr => ih hu hr⟩) h rest

end Parser

/-! ### Documents -/

namespace Value

/-- A value between two gaps is read to a tree with its outline. -/
theorem exists_readTo {d : Nat} {o : Outline} {g₁ u g₂ : Text} (hg₁ : Gap g₁)
    (hu : IsValue d o u) (hg₂ : Whole g₂) :
    ∃ v, readTo d (g₁ ++ (u ++ g₂)) = .ok v ∧ v.node.outline = o := by
  obtain ⟨n, hn, ho⟩ := Parser.run_node_of_isValue hu (numberEnd_of_head hg₂.head)
  obtain ⟨c, t, rfl, hc⟩ := hu.head
  have hslot : Parser.slot.run (g₁ ++ c :: (t ++ g₂)) = _ :=
    Parser.run_slot_of_gap hg₁ (tokenStart_cons.2 ⟨hc.token.1, hc.token.2.1⟩)
  have hrun : (Parser.value d).run (g₁ ++ (c :: t ++ g₂)) =
      .ok (⟨g₁, (), n, g₂, false⟩, []) := by
    rw [List.cons_append] at hn ⊢
    rw [Parser.value, Parser.run_bind_of_eq hslot, Parser.run_bind_of_eq hn,
      Parser.run_bind_of_eq (Parser.run_slot_of_whole hg₂), Parser.run_pure]
  exact ⟨_, by rw [readTo, hrun], ho⟩

/-- A document is read to a tree with its outline. -/
theorem exists_parse_of_isDocument {o : Outline} {s : Text} (h : IsDocument o s) :
    ∃ v, parse s = .ok v ∧ v.node.outline = o := by
  obtain ⟨g₁, u, g₂, rfl, hg₁, hu, hg₂⟩ := h
  obtain ⟨v, hread, ho⟩ := exists_readTo hg₁ hu hg₂
  exact ⟨v, parse_eq_ok.2 hread, ho⟩

/-- **A legible document is written as a document** of the grammar. -/
theorem isDocument_pack {v : Value} (hlead : Gap v.lead) (hfits : v.node.Fits maxDepth)
    (hlegible : v.node.Legible) (htrail : Whole v.trail) : IsDocument v.node.outline v.pack := by
  refine ⟨v.lead, v.node.pack, v.trail, ?_, hlead, ?_, htrail⟩
  · rw [pack, List.append_assoc]
  · exact Node.isValue_pack v.node maxDepth hfits hlegible

/-- **A legible document is read back** to a tree with its outline. -/
theorem exists_parse_pack {v : Value} (hlead : Gap v.lead) (hfits : v.node.Fits maxDepth)
    (hlegible : v.node.Legible) (htrail : Whole v.trail) :
    ∃ v', parse v.pack = .ok v' ∧ v'.node.outline = v.node.outline :=
  exists_parse_of_isDocument (isDocument_pack hlead hfits hlegible htrail)

/-- What a document is read to is written as a document. -/
theorem isDocument_of_parse {s : Text} {v : Value} (h : parse s = .ok v) :
    IsDocument v.node.outline s := by
  obtain ⟨hpack, hlead, hnode, htrail, -⟩ := orderly_of_readTo (parse_eq_ok.1 h)
  rw [← hpack]
  exact isDocument_pack hlead hnode.fits hnode.legible htrail

/-- **The parser accepts the documents of the grammar and nothing else**, and answers a
tree with the outline of the derivation. -/
theorem parse_iff_isDocument (s : Text) :
    ((∃ v, parse s = .ok v) ↔ ∃ o, IsDocument o s) ∧
      ∀ o, IsDocument o s ↔ ∃ v, parse s = .ok v ∧ v.node.outline = o := by
  have hiff : ∀ o, IsDocument o s ↔ ∃ v, parse s = .ok v ∧ v.node.outline = o := by
    intro o
    refine ⟨exists_parse_of_isDocument, ?_⟩
    rintro ⟨v, hv, rfl⟩
    exact isDocument_of_parse hv
  refine ⟨⟨?_, ?_⟩, hiff⟩
  · rintro ⟨v, hv⟩
    exact ⟨_, isDocument_of_parse hv⟩
  · rintro ⟨o, ho⟩
    obtain ⟨v, hv, -⟩ := (hiff o).1 ho
    exact ⟨v, hv⟩

end Value

end EnvManifest
