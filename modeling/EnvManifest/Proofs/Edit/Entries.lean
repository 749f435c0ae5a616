import EnvManifest.Manifest.PackageEdit
import EnvManifest.Manifest.FieldEdit
import EnvManifest.Proofs.Decode
import EnvManifest.Proofs.Tree

/-!
# What an edit does to an object

An object is edited by its members: one is given another node or taken out, and one is
put at the end. To a decoder an object is its `Object.entries`, the names and values of
its members in order, and an edit of the object is an edit of one entry. So a record that
was decoded from an object is decoded from the edited object with one field set
(`Object.decodes_setOrPush`, `Object.decodes_removeFirst`).

Beside that, an edit may only put in what is spelled as the grammar wants it and not too
deep; what it leaves of the object fits as it did before (`Object.fits_setOrPush`, …).
-/

namespace EnvManifest

theorem Composite.fits_push {κ : Type} [Label κ] [Named κ] {inner : Node → Prop}
    {c : Composite κ Node} (h : ∀ m ∈ c.children, m.Fits inner) {m : Child κ Node}
    (hm : m.Fits inner) : ∀ k ∈ (c.push m).children, k.Fits inner := by
  intro k hk
  rcases List.mem_append.1 hk with hk | hk
  · exact h k hk
  · exact List.mem_singleton.1 hk ▸ hm

/-- The name and value of a member. -/
def Member.entry (m : Member) : Text × Datum :=
  (Member.name m, m.node.datum)

namespace Object

/-- The names and values of the members of an object, in order. -/
def entries (o : Object) : List (Text × Datum) :=
  o.children.map Member.entry

variable {o : Object} {name : Text} {s : Spot}

/-! ### Members by name -/

theorem name_of_spot? (h : spot? o name = some s) : Member.name s.here = name :=
  name_of_spotIn? h

theorem not_mem_before_of_spotIn? {ms : List Member} (h : spotIn? name ms = some s) :
    name ∉ s.before.map Member.name := by
  induction ms generalizing s with
  | nil => simp [spotIn?] at h
  | cons m ms ih =>
    simp only [spotIn?] at h
    split at h
    · obtain rfl := Option.some.inj h
      simp
    · rename_i hm
      obtain ⟨t, ht, rfl⟩ := Option.map_eq_some_iff.1 h
      simpa [Ne.symm hm] using ih ht

theorem not_mem_of_spotIn?_eq_none {ms : List Member} (h : spotIn? name ms = none) :
    name ∉ ms.map Member.name := by
  induction ms with
  | nil => simp
  | cons m ms ih =>
    simp only [spotIn?] at h
    split at h
    · simp at h
    · rename_i hm
      simpa [Ne.symm hm] using ih (Option.map_eq_none_iff.1 h)

theorem map_fst_entry (ms : List Member) : (ms.map Member.entry).map Prod.fst = ms.map Member.name := by
  simp [Member.entry, Function.comp_def]

/-- A name without a member is not among the entries. -/
theorem not_mem_of_spot?_eq_none (h : spot? o name = none) : name ∉ o.entries.map Prod.fst := by
  rw [entries, map_fst_entry]
  exact not_mem_of_spotIn?_eq_none h

/-! ### Entries of edited objects -/

theorem entries_withSpot (o : Object) (s : Spot) : (withSpot o s).entries =
    s.before.map Member.entry ++ Member.entry s.here :: s.after.map Member.entry := by
  simp [entries, withSpot, Spot.members]

theorem entries_of_spot? (h : spot? o name = some s) : o.entries =
    s.before.map Member.entry ++ (name, s.here.node.datum) :: s.after.map Member.entry := by
  rw [entries, ← members_of_spot? h, ← name_of_spot? h]
  simp [Spot.members, Member.entry]

theorem entries_setNode (h : spot? o name = some s) (n : Node) :
    (withSpot o (s.setNode n)).entries =
      s.before.map Member.entry ++ (name, n.datum) :: s.after.map Member.entry := by
  rw [entries_withSpot, ← name_of_spot? h]
  rfl

theorem entries_push (o : Object) (m : Member) :
    entries (o.push m) = o.entries ++ [Member.entry m] := by
  simp [entries]

theorem entries_removeFirst (h : spot? o name = some s) : (removeFirst o name).entries =
    s.before.map Member.entry ++ s.after.map Member.entry := by
  have hindex : index? o name = some s.before.length := by rw [index?, h]; rfl
  have hnodes := congrArg (List.map fun p : Key × Node => (p.1.name.value, p.2.datum))
    (Composite.nodes_remove o s.before.length)
  rw [← members_of_spot? h, Spot.members, List.eraseIdx_append_of_length_le (Nat.le_refl _)] at hnodes
  simp only [List.map_map, Nat.sub_self, List.eraseIdx_cons_zero, List.map_append] at hnodes
  rw [removeFirst, hindex]
  exact hnodes

theorem removeFirst_of_spot?_eq_none (h : spot? o name = none) : removeFirst o name = o := by
  rw [removeFirst, index?, h]
  rfl

/-! ### Records decoded from edited objects -/

section Decodes

variable {σ α : Type} {fields : List (Datum.Field σ)} {decode : Datum → Decoded α}
  {set : α → σ → σ} {first t : σ}

theorem decodes_setNode (hf : Datum.HasField fields name decode set) (hs : spot? o name = some s)
    (h : Datum.decodeMembers fields [] o.entries first = .ok t) {n : Node} {a : α}
    (hn : decode n.datum = .ok a) :
    Datum.decodeMembers fields [] (withSpot o (s.setNode n)).entries first = .ok (set a t) := by
  rw [entries_of_spot? hs] at h
  rw [entries_setNode hs]
  exact Datum.decodeMembers_replace hf h hn

theorem decodes_push (hf : Datum.HasField fields name decode set) (hs : spot? o name = none)
    (h : Datum.decodeMembers fields [] o.entries first = .ok t) {m : Member} {a : α}
    (hm : Member.name m = name) (hn : decode m.node.datum = .ok a) :
    Datum.decodeMembers fields [] (entries (o.push m)) first = .ok (set a t) := by
  rw [entries_push, Member.entry, hm]
  exact Datum.decodeMembers_append hf h (not_mem_of_spot?_eq_none hs) hn

/-- **Setting a member sets the field.** -/
theorem decodes_setOrPush (hf : Datum.HasField fields name decode set)
    (h : Datum.decodeMembers fields [] o.entries first = .ok t) {n : Node} {a : α}
    (hn : decode n.datum = .ok a) :
    Datum.decodeMembers fields [] (setOrPush o name n).entries first = .ok (set a t) := by
  rw [setOrPush]
  split
  · rename_i s hs
    exact decodes_setNode hf hs h hn
  · rename_i hs
    exact decodes_push hf hs h rfl hn

/-- **Taking out a member sets the field to what it was at first.** -/
theorem decodes_removeFirst (hf : Datum.HasField fields name decode set)
    (h : Datum.decodeMembers fields [] o.entries first = .ok t) {a : α} (ha : set a first = first) :
    Datum.decodeMembers fields [] (removeFirst o name).entries first = .ok (set a t) := by
  cases hs : spot? o name with
  | some s =>
    rw [entries_of_spot? hs] at h
    rw [entries_removeFirst hs]
    exact Datum.decodeMembers_delete hf h ha
  | none =>
    rw [removeFirst_of_spot?_eq_none hs, h]
    exact congrArg _ (Datum.decodeMembers_unset hf h (not_mem_of_spot?_eq_none hs) ha)

/-- A field that was decoded is the one of its member. -/
theorem decodes_spot (hf : Datum.HasField fields name decode set) (hs : spot? o name = some s)
    (h : Datum.decodeMembers fields [] o.entries first = .ok t) :
    ∃ a, decode s.here.node.datum = .ok a ∧ t = set a t := by
  rw [entries_of_spot? hs] at h
  obtain ⟨-, -, -, a, ha⟩ := Datum.exists_of_decodeMembers hf h
  exact ⟨a, ha, Datum.decodeMembers_set hf h ha⟩

end Decodes

/-! ### Fitting -/

section Fits

variable {inner : Node → Prop}

theorem fits_of_spot? (hs : spot? o name = some s) (h : ∀ m ∈ o.children, m.Fits inner) :
    (∀ m ∈ s.before, m.Fits inner) ∧ s.here.Fits inner ∧ ∀ m ∈ s.after, m.Fits inner := by
  rw [← members_of_spot? hs] at h
  refine ⟨fun m hm => h m ?_, h s.here ?_, fun m hm => h m ?_⟩ <;> simp [Spot.members, *]

theorem fits_setNode (hs : spot? o name = some s) (h : ∀ m ∈ o.children, m.Fits inner) {n : Node}
    (hn : inner n) : ∀ m ∈ (withSpot o (s.setNode n)).children, m.Fits inner := by
  obtain ⟨hbefore, hhere, hafter⟩ := fits_of_spot? hs h
  intro m hm
  rcases List.mem_append.1 hm with hm | hm
  · exact hbefore m hm
  · rcases List.mem_cons.1 hm with rfl | hm
    · exact ⟨hhere.1, hn⟩
    · exact hafter m hm

theorem fits_onOwnLine (name : Text) {n : Node} (hn : inner n) :
    (Member.onOwnLine name n).Fits inner :=
  ⟨by simpa [Named.names, Member.onOwnLine] using isLiteral_ofText name, hn⟩

theorem fits_setOrPush (h : ∀ m ∈ o.children, m.Fits inner) (name : Text) {n : Node}
    (hn : inner n) : ∀ m ∈ (setOrPush o name n).children, m.Fits inner := by
  rw [setOrPush]
  split
  · rename_i s hs
    exact fits_setNode hs h hn
  · exact Composite.fits_push h (fits_onOwnLine name hn)

end Fits

end Object

/-- Whatever is left of a composite fits as it did. -/
theorem Composite.fits_remove {κ : Type} [Label κ] [Named κ] {inner : Node → Prop}
    {c : Composite κ Node} (h : ∀ m ∈ c.children, m.Fits inner) (i : Nat) :
    ∀ m ∈ (c.remove i).children, m.Fits inner := by
  intro m hm
  have hmem : (m.label, m.node) ∈ (c.remove i).children.map fun k => (k.label, k.node) :=
    List.mem_map_of_mem hm
  rw [Composite.nodes_remove] at hmem
  obtain ⟨k, hk, heq⟩ := List.mem_map.1 hmem
  obtain ⟨hlabel, hnode⟩ := Prod.mk.inj heq
  rw [Child.Fits, ← hlabel, ← hnode]
  exact h k (List.mem_of_mem_eraseIdx hk)

theorem Object.fits_removeFirst {inner : Node → Prop} {o : Object}
    (h : ∀ m ∈ o.children, m.Fits inner) (name : Text) :
    ∀ m ∈ (removeFirst o name).children, m.Fits inner := by
  rw [removeFirst]
  split
  · exact Composite.fits_remove h _
  · exact h

end EnvManifest
