import EnvManifest.Proofs.Edit.Fields
import EnvManifest.Proofs.Layout.Pliant

/-!
# What edits do to slots

The edits of a composite, one by one, with what each needs to leave a pliant tree of one
that is laid out:

| edit | what it needs |
|---|---|
| another node for a member | nothing (`Object.pliant_withSpot`) |
| a new member at the end | an open object (`Object.pliant_push`) |
| new values at the end of a list | a list that is open on the line (`pliant_pushTexts`) |
| a child taken out | a sealed composite afterwards (`Composite.Left.pliant`) |
| an array of packages turned into an object | an array of strings (`supple_migrated`) |
-/

namespace EnvManifest

open Composite

/-! ### Another node for a member -/

namespace Object

section Spot

variable {o : Object} {s : Spot} {here : Member}

theorem sameFrame_withSpot (hs : s.members = o.children) (hhere : here.frame = s.here.frame) :
    SameFrame o (withSpot o { s with here := here }) where
  children := by
    rw [← hs]
    simp [withSpot, Spot.members, hhere]
  closing := rfl
  trailingComma := rfl
  dirty := rfl

theorem mem_withSpot (hs : s.members = o.children) {m : Member}
    (hm : m ∈ (withSpot o { s with here := here }).children) : m = here ∨ m ∈ o.children := by
  rw [← hs]
  rcases List.mem_append.1 hm with hm | hm
  · exact Or.inr (List.mem_append_left _ hm)
  · rcases List.mem_cons.1 hm with rfl | hm
    · exact Or.inl rfl
    · exact Or.inr (List.mem_append_right _ (List.mem_cons_of_mem _ hm))

/-- **Another node or name for a member** does not touch the slots. -/
theorem pliant_withSpot (hs : s.members = o.children) (ho : o.Supple)
    (hinner : ∀ m ∈ o.children, m.node.Pliant) (hframe : here.frame = s.here.frame)
    (hhere : here.node.Pliant) : (Node.object (withSpot o { s with here := here })).Pliant := by
  refine Node.pliant_object (ho.congr (sameFrame_withSpot hs hframe)).pliant fun m hm => ?_
  rcases mem_withSpot hs hm with rfl | hm
  · exact hhere
  · exact hinner m hm

theorem laidOut_withSpot (hs : s.members = o.children)
    (h : Node.Everywhere Node.LaidOut (.object o)) (hframe : here.frame = s.here.frame)
    (hhere : Node.Everywhere Node.LaidOut here.node) :
    Node.Everywhere Node.LaidOut (.object (withSpot o { s with here := here })) := by
  obtain ⟨⟨hlegible, hrest⟩, hinner⟩ := Node.everywhere_object.1 h
  have hsame := sameFrame_withSpot hs hframe
  refine Node.everywhere_object.2 ⟨⟨hsame.legibleOn hlegible, hsame.atRest hrest⟩, fun m hm => ?_⟩
  rcases mem_withSpot hs hm with rfl | hm
  · exact hhere
  · exact hinner m hm

end Spot

end Object

/-! ### Workable composites -/

/-- A composite that can be edited: its slots can be read back and are supple, and its
children are laid out. -/
structure Composite.Workable {κ : Type} [Label κ] (c : Composite κ Node) : Prop where
  legible : c.Legible
  supple : c.Supple
  inner : ∀ m ∈ c.children, Node.Everywhere Node.LaidOut m.node

theorem Composite.Workable.pliant {κ : Type} [Label κ] {c : Composite κ Node} (h : c.Workable) :
    ∀ m ∈ c.children, m.node.Pliant :=
  fun m hm => Node.pliant_of_laidOut (h.inner m hm)

theorem workable_object {o : Object} (h : Node.Everywhere Node.LaidOut (.object o)) :
    o.Workable := by
  obtain ⟨⟨hlegible, hrest⟩, hinner⟩ := Node.everywhere_object.1 h
  exact ⟨hlegible, supple_of_atRest hlegible hrest, hinner⟩

theorem workable_array {es : Elements} (h : Node.Everywhere Node.LaidOut (.array es)) :
    es.Workable := by
  obtain ⟨⟨hlegible, hrest⟩, hinner⟩ := Node.everywhere_array.1 h
  exact ⟨hlegible, supple_of_atRest hlegible hrest, hinner⟩

/-! ### New children -/

theorem frontLegible_onOwnLine (name : Text) (n : Node) :
    (Member.onOwnLine name n).FrontLegible := by
  refine ⟨.blank rfl .nil, fun t ht => ?_⟩
  obtain rfl | rfl := List.mem_pair.1 ht <;> exact .nil

theorem frontLegible_new (name : Text) (n : Node) : (Member.new name n).FrontLegible := by
  refine ⟨.nil, fun t ht => ?_⟩
  obtain rfl | rfl := List.mem_pair.1 ht <;> exact .nil

/-- A composite without children is legible. -/
theorem legible_new {κ : Type} [Label κ] : (Composite.new : Composite κ Node).Legible :=
  ⟨by simp [Composite.new], closes_of_gap .nil .nil⟩

/-- **A new composite** with new children is supple. -/
theorem supple_new {κ : Type} [Label κ] {ks : List (Child κ Node)}
    (hfront : ∀ k ∈ ks, k.FrontLegible) (htrail : ∀ k ∈ ks, k.trail = []) :
    Supple ⟨ks, [], false, true⟩ :=
  supple_append legible_new (open_of_empty rfl) hfront htrail (by simp [Composite.new])

namespace Object

variable {o : Object}

theorem supple_push (h : o.Legible) (ho : o.Open) (name : Text) (n : Node) :
    Supple (o.push (Member.onOwnLine name n)) := by
  refine supple_append h ho (by simpa using frontLegible_onOwnLine name n)
    (by simp [Member.onOwnLine]) fun last hlast k hk => ?_
  obtain rfl := Option.some.inj hk
  exact joins_newline (ho.ends h hlast).1 .nil

/-- **A new member at the end** of an open object. -/
theorem pliant_push (h : o.Workable) (ho : o.Open) (name : Text) {n : Node} (hn : n.Pliant) :
    (Node.object (o.push (Member.onOwnLine name n))).Pliant := by
  refine Node.pliant_object (supple_push h.legible ho name n).pliant fun m hm => ?_
  rcases List.mem_append.1 hm with hm | hm
  · exact h.pliant m hm
  · rw [List.mem_singleton.1 hm]
    exact hn

theorem pliant_setOrPush (h : o.Workable) {name : Text} (ho : spot? o name = none → o.Open)
    {n : Node} (hn : n.Pliant) : (Node.object (setOrPush o name n)).Pliant := by
  rw [setOrPush]
  split
  · rename_i s hs
    exact pliant_withSpot (members_of_spot? hs) h.supple h.pliant rfl hn
  · rename_i hs
    exact pliant_push h (ho hs) name hn

end Object

theorem pushTexts_eq (es : Elements) (values : List Text) : pushTexts es values =
    ⟨es.children ++ values.map Value.ofText, es.closing, es.trailingComma,
      es.dirty || !values.isEmpty⟩ := by
  induction values generalizing es with
  | nil => simp [pushTexts]
  | cons v values ih =>
    change pushTexts (es.push (Value.ofText v)) values = _
    rw [ih]
    simp [push]

/-- **New values at the end of a list** that is open on the line. -/
theorem pliant_pushTexts {es : Elements} (h : es.Workable) (ho : es.OpenOnLine)
    (values : List Text) : (Node.array (pushTexts es values)).Pliant := by
  by_cases hvalues : values = []
  · subst hvalues
    exact Node.pliant_array h.supple.pliant h.pliant
  · rw [pushTexts_eq, show (es.dirty || !values.isEmpty) = true by simp [hvalues]]
    refine Node.pliant_array (supple_append h.legible (ho.open h.legible) ?_ ?_ ?_).pliant
      fun e he => ?_
    · intro e he
      obtain ⟨v, -, rfl⟩ := List.mem_map.1 he
      exact ⟨.nil, by simp [Label.slots]⟩
    · intro e he
      obtain ⟨v, -, rfl⟩ := List.mem_map.1 he
      rfl
    · intro last hlast e he
      obtain ⟨v, -, rfl⟩ := List.mem_map.1 (List.mem_of_mem_head? he)
      exact joins_of_gap (ho last hlast) .nil
    · rcases List.mem_append.1 he with he | he
      · exact h.pliant e he
      · obtain ⟨v, -, rfl⟩ := List.mem_map.1 he
        exact Node.pliant_ofText v

/-! ### Taking a child out -/

namespace Composite

variable {κ : Type} {c : Composite κ Node}

/-- The children that a removal leaves were there before, up to the slot in front. -/
theorem exists_of_mem_remove {i : Nat} {m : Child κ Node} (hm : m ∈ (c.remove i).children) :
    ∃ k ∈ c.children, m.node = k.node ∧ m.fresh = k.fresh := by
  have htake : ∀ k ∈ c.children.take i, k ∈ c.children := fun k hk => List.mem_of_mem_take hk
  have hdrop : ∀ k ∈ c.children.drop i, k ∈ c.children := fun k hk => List.mem_of_mem_drop hk
  rw [remove] at hm
  split at hm
  · exact ⟨m, hm, rfl, rfl⟩
  · exact ⟨m, htake m hm, rfl, rfl⟩
  · rename_i removed next rest heq
    rw [heq] at hdrop
    rcases List.mem_append.1 hm with hm | hm
    · exact ⟨m, htake m hm, rfl, rfl⟩
    · rcases List.mem_cons.1 hm with rfl | hm
      · exact ⟨next, hdrop next (by simp), rfl, rfl⟩
      · exact ⟨m, hdrop m (by simp [hm]), rfl, rfl⟩

theorem still_remove (h : c.Still) (i : Nat) : (c.remove i).Still := by
  intro m hm
  obtain ⟨k, hk, hnode, hfresh⟩ := exists_of_mem_remove hm
  rw [hnode, hfresh]
  exact h k hk

theorem remove_eq_or_dirty (c : Composite κ Node) (i : Nat) :
    c.remove i = c ∨ (c.remove i).dirty = true := by
  rw [remove]
  split
  · exact Or.inl rfl
  · exact Or.inr rfl
  · exact Or.inr rfl

/-- What removals leave of a composite: the composite, or one with fewer children that is
to be laid out. -/
def Left (c c' : Composite κ Node) : Prop :=
  c' = c ∨ c'.dirty = true ∧ c'.Still

theorem Left.remove {c' : Composite κ Node} (h : c.Still) (hleft : c.Left c') (i : Nat) :
    c.Left (c'.remove i) := by
  have hstill : c'.Still := by
    rcases hleft with rfl | hleft
    · exact h
    · exact hleft.2
  rcases remove_eq_or_dirty c' i with heq | hdirty
  · rwa [heq]
  · exact Or.inr ⟨hdirty, still_remove hstill i⟩

/-- **Taking children out**: what is left is pliant, if it is sealed. -/
theorem Left.pliant [Label κ] {c' : Composite κ Node} (hleft : c.Left c') (h : c.Supple)
    (hsealed : c'.Sealed) : c'.Pliant := by
  rcases hleft with rfl | ⟨hdirty, hstill⟩
  · exact h.pliant
  · exact hsealed.pliant hstill hdirty

theorem still_of_laidOut [Label κ] (hrest : c.AtRest)
    (h : ∀ m ∈ c.children, Node.Everywhere Node.LaidOut m.node) : c.Still :=
  fun m hm => ⟨hrest.2 m hm, h m hm⟩

end Composite

/-! ### Packages and settings in another shape -/

theorem gap_migratedLead {lead : Text} (h : Gap lead) :
    ∃ r, (if (Text.trim lead).isEmpty then ['\n'] else '\n' :: Text.trim lead ++ ['\n']) = '\n' :: r ∧
      Gap r := by
  split
  · exact ⟨[], rfl, .nil⟩
  · exact ⟨Text.trim lead ++ ['\n'], rfl, h.whole_trim⟩

/-- The slots of a migrated element. -/
theorem slots_of_migratedElement {e : Value} {m : Member} (h : migratedElement e = some m)
    (hlead : Gap e.lead) : (∃ r, m.lead = '\n' :: r ∧ Gap r) ∧ (∀ t ∈ Label.slots m.label, Gap t) ∧
      (m.trail = e.trail ∨ hasComment e.trail = false ∧ m.trail = []) ∧
        ∃ t, m.node = Node.ofText t := by
  rw [migratedElement] at h
  split at h
  · simp at h
  · rename_i text htext
    obtain rfl := Option.some.inj h
    refine ⟨gap_migratedLead hlead, fun t ht => ?_, ?_, _, rfl⟩
    · rcases List.mem_pair.1 ht with rfl | rfl <;> exact .nil
    · dsimp only
      split
      · exact Or.inl rfl
      · rename_i hcomment
        exact Or.inr ⟨by simpa using hcomment, rfl⟩

/-- What is behind the members that strings become is loose. -/
theorem looseBehind_migrated {several comma comma' : Bool} {closing : Text} {cs : List Value}
    (hlead : ∀ e ∈ cs, Gap e.lead) (hstrings : ∀ e ∈ cs, (migratedElement e).isSome = true)
    (htrails : trailsLegible false comma' closing (cs.map Child.trail)) :
    looseBehind several comma closing (cs.filterMap migratedElement) := by
  match cs with
  | [] =>
    have hcloses : Closes false [] closing := htrails
    exact hcloses.several
  | [e] =>
    obtain ⟨m, hm⟩ := Option.isSome_iff_exists.1 (hstrings e List.mem_cons_self)
    rw [List.filterMap_cons_some hm, List.filterMap_nil]
    exact looseBehind_last htrails
      (slots_of_migratedElement hm (hlead e List.mem_cons_self)).2.2.1
  | e :: f :: cs =>
    obtain ⟨htrail, hrest⟩ : Gap e.trail ∧ _ := htrails
    obtain ⟨m, hm⟩ := Option.isSome_iff_exists.1 (hstrings e List.mem_cons_self)
    obtain ⟨k, hk⟩ := Option.isSome_iff_exists.1 (hstrings f (by simp))
    obtain ⟨he, hlead⟩ := List.forall_mem_cons.1 hlead
    obtain ⟨-, hstrings⟩ := List.forall_mem_cons.1 hstrings
    have hloose : looseBehind several comma closing ((f :: cs).filterMap migratedElement) :=
      looseBehind_migrated hlead hstrings hrest
    -- every member starts a line, which ends whatever comment is behind the one before
    obtain ⟨⟨r, hline, hr⟩, -⟩ := slots_of_migratedElement hk (hlead f List.mem_cons_self)
    have hwhole : Whole m.trail := by
      rcases (slots_of_migratedElement hm he).2.2.1 with heq | ⟨-, heq⟩ <;> rw [heq]
      · exact htrail.whole
      · exact Gap.nil.whole
    rw [List.filterMap_cons_some hk] at hloose
    rw [List.filterMap_cons_some hm, List.filterMap_cons_some hk]
    refine ⟨?_, hloose⟩
    rw [hline]
    exact joins_newline hwhole hr

/-- **An array of packages turned into an object**. -/
theorem supple_migrated {es : Elements} (h : es.Legible)
    (hstrings : ∀ e ∈ es.children, (migratedElement e).isSome = true) :
    (migrated es).Supple ∧ ∀ m ∈ (migrated es).children, ∃ t, m.node = Node.ofText t := by
  have hslots : ∀ m ∈ (migrated es).children, (∃ r, m.lead = '\n' :: r ∧ Gap r) ∧
      (∀ t ∈ Label.slots m.label, Gap t) ∧ ∃ t, m.node = Node.ofText t := by
    intro m hm
    obtain ⟨e, he, hmigrated⟩ := List.mem_filterMap.1 hm
    obtain ⟨hlead, hlabel, -, hnode⟩ := slots_of_migratedElement hmigrated (h.1 e he).1
    exact ⟨hlead, hlabel, hnode⟩
  refine ⟨supple_of_loose rfl fun several comma => ⟨fun m hm => (hslots m hm).2.1,
    fun m hm => ?_, ?_⟩, fun m hm => (hslots m hm).2.2⟩
  · obtain ⟨⟨r, hlead, hr⟩, -⟩ := hslots m (List.mem_of_mem_head? hm)
    rw [hlead]
    exact .blank rfl hr
  · exact looseBehind_migrated (fun e he => (h.1 e he).1) hstrings h.2

/-- The object of an environment is pliant. -/
theorem pliant_envObject (ownLine : Bool) (env : Table Text) :
    (Node.object (envObject ownLine env)).Pliant := by
  refine Node.pliant_object (supple_new ?_ ?_).pliant ?_
  all_goals
    intro m hm
    obtain ⟨⟨name, value⟩, -, rfl⟩ := List.mem_map.1 hm
    cases ownLine
  · exact frontLegible_new name _
  · exact frontLegible_onOwnLine name _
  · rfl
  · rfl
  · exact Node.pliant_ofText value
  · exact Node.pliant_ofText value

theorem workable_new {κ : Type} [Label κ] : (Composite.new : Composite κ Node).Workable :=
  ⟨legible_new, supple_new (by simp) (by simp), by simp [Composite.new]⟩

/-- The settings of an entry can be edited. -/
theorem workable_settingsOf {entry : Node} (h : Node.Everywhere Node.LaidOut entry) :
    (settingsOf entry).Workable := by
  match entry with
  | .object o => exact workable_object h
  | .string ⟨c :: cs, raw⟩ =>
    have hversion := frontLegible_onOwnLine "version".toList (Node.ofText (c :: cs))
    refine ⟨⟨by simpa [settingsOf, Node.text?, Composite.new] using hversion, ?_⟩, ?_, ?_⟩
    · exact closes_of_gap .nil .nil
    · exact Object.supple_push legible_new (open_of_empty rfl) _ _
    · simp [settingsOf, Node.text?, Composite.new, Member.onOwnLine, Node.ofText, Node.LaidOut,
        Node.LegibleHere, Node.AtRestHere]
  | .string ⟨[], raw⟩ => exact workable_new
  | .null | .bool b | .number t | .array es => exact workable_new

end EnvManifest
