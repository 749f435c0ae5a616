import EnvManifest.Text.Basic

/-!
# Tables keyed by texts

Variables and scripts are looked up by name and are always listed in the order
of their names, compared code point by code point. A `Table` keeps that order in
its type: the keys increase strictly, so a key occurs once and two tables with
the same entries are the same table. Putting a key that is there replaces its
value.
-/

namespace EnvManifest

/-! ### The order of texts -/

/-- Whether a text comes before another one: at the first place where they differ it
ends, or has the smaller code point. -/
def Text.precedes : Text → Text → Bool
  | _, [] => false
  | [], _ :: _ => true
  | c :: s, d :: t => if c = d then Text.precedes s t else c.toNat < d.toNat

theorem Text.precedes_trans {r s t : Text} (hrs : r.precedes s) (hst : s.precedes t) :
    r.precedes t := by
  induction r generalizing s t with
  | nil => cases s <;> cases t <;> simp_all [Text.precedes]
  | cons c r ih =>
    cases s with
    | nil => simp [Text.precedes] at hrs
    | cons d s =>
      cases t with
      | nil => simp [Text.precedes] at hst
      | cons e t =>
        simp only [Text.precedes] at hrs hst ⊢
        -- the first place where two of the three differ decides
        by_cases hcd : c = d <;> by_cases hde : d = e
        · subst hcd hde
          simp only [if_true] at *
          exact ih hrs hst
        · subst hcd
          simpa [hde] using hst
        · subst hde
          simpa [hcd] using hrs
        · simp only [hcd, hde, if_false, decide_eq_true_eq] at hrs hst
          have hce : c ≠ e := by
            rintro rfl
            omega
          simp only [hce, if_false, decide_eq_true_eq]
          omega

theorem Text.precedes_irrefl (s : Text) : s.precedes s = false := by
  induction s with
  | nil => rfl
  | cons c s ih => simpa [Text.precedes] using ih

/-- Of two different texts one comes before the other. -/
theorem Text.precedes_of_ne {s t : Text} (hne : s ≠ t) (h : s.precedes t = false) :
    t.precedes s := by
  induction s generalizing t with
  | nil => cases t <;> simp_all [Text.precedes]
  | cons c s ih =>
    cases t with
    | nil => rfl
    | cons d t =>
      simp only [Text.precedes] at h ⊢
      by_cases hcd : c = d
      · subst hcd
        simp only [if_true] at h ⊢
        exact ih (fun hst => hne (by rw [hst])) h
      · have hdc : d ≠ c := Ne.symm hcd
        have hval : c.toNat ≠ d.toNat := fun heq =>
          hcd (Char.ext (UInt32.toNat_inj.1 heq))
        simp only [hcd, hdc, if_false, decide_eq_false_iff_not, decide_eq_true_eq] at h ⊢
        omega

/-! ### Tables -/

/-- Putting an entry into a list of entries ordered by key. -/
def putEntry {α : Type} (key : Text) (value : α) : List (Text × α) → List (Text × α)
  | [] => [(key, value)]
  | (k, v) :: rest =>
    if key.precedes k then (key, value) :: (k, v) :: rest
    else if key = k then (key, value) :: rest
    else (k, v) :: putEntry key value rest

/-- An entry of the list after putting one is the new one or was there. -/
theorem mem_putEntry {α : Type} {key : Text} {value : α} {entries : List (Text × α)}
    {e : Text × α} (h : e ∈ putEntry key value entries) : e = (key, value) ∨ e ∈ entries := by
  induction entries with
  | nil => simpa [putEntry] using h
  | cons head rest ih =>
    obtain ⟨k, v⟩ := head
    simp only [putEntry] at h
    split at h
    · simpa using h
    · split at h
      · rcases List.mem_cons.1 h with h | h
        · exact Or.inl h
        · exact Or.inr (List.mem_cons_of_mem _ h)
      · rcases List.mem_cons.1 h with h | h
        · exact Or.inr (h ▸ List.mem_cons_self)
        · exact (ih h).imp_right (List.mem_cons_of_mem _)

/-- Putting an entry keeps the keys increasing. -/
theorem sorted_putEntry {α : Type} (key : Text) (value : α) {entries : List (Text × α)}
    (h : entries.Pairwise fun a b => a.1.precedes b.1) :
    (putEntry key value entries).Pairwise fun a b => a.1.precedes b.1 := by
  induction entries with
  | nil => simp [putEntry]
  | cons head rest ih =>
    obtain ⟨k, v⟩ := head
    obtain ⟨hk, hrest⟩ := List.pairwise_cons.1 h
    simp only [putEntry]
    split
    · rename_i hlt
      refine List.pairwise_cons.2 ⟨fun e he => ?_, h⟩
      rcases List.mem_cons.1 he with rfl | he
      · exact hlt
      · exact Text.precedes_trans hlt (hk e he)
    · rename_i hge
      split
      · rename_i heq
        exact List.pairwise_cons.2 ⟨fun e he => heq ▸ hk e he, hrest⟩
      · rename_i hne
        refine List.pairwise_cons.2 ⟨fun e he => ?_, ih hrest⟩
        rcases mem_putEntry he with rfl | he
        · exact Text.precedes_of_ne hne (by simpa using hge)
        · exact hk e he

/-- A key behind all others goes to the end. -/
theorem putEntry_of_forall_precedes {α : Type} {key : Text} (value : α)
    {entries : List (Text × α)} (h : ∀ e ∈ entries, e.1.precedes key) :
    putEntry key value entries = entries ++ [(key, value)] := by
  induction entries with
  | nil => rfl
  | cons head rest ih =>
    obtain ⟨k, v⟩ := head
    obtain ⟨hk, hrest⟩ := List.forall_mem_cons.1 h
    have hlt : key.precedes k = false := by
      rw [← Bool.not_eq_true]
      intro hkey
      simpa [Text.precedes_irrefl] using Text.precedes_trans hk hkey
    have hne : key ≠ k := by
      rintro rfl
      simp [Text.precedes_irrefl] at hk
    simp [putEntry, hlt, hne, ih hrest]

/-- A table from texts to values, in increasing order of the keys. -/
structure Table (α : Type) where
  /-- The entries in order. -/
  entries : List (Text × α)
  /-- The keys increase. -/
  sorted : entries.Pairwise (fun a b => a.1.precedes b.1)

namespace Table

variable {α β : Type}

instance [DecidableEq α] : DecidableEq (Table α) := fun a b =>
  decidable_of_iff (a.entries = b.entries) (by cases a; cases b; simp)

/-- The table without entries. -/
def empty : Table α :=
  ⟨[], List.Pairwise.nil⟩

instance : Inhabited (Table α) := ⟨empty⟩

/-- The table with `value` under `key`, in place of what was there. -/
def insert (t : Table α) (key : Text) (value : α) : Table α :=
  ⟨putEntry key value t.entries, sorted_putEntry key value t.sorted⟩

/-- The table of a list of entries; of two with one key the later counts. -/
def ofList (entries : List (Text × α)) : Table α :=
  entries.foldl (fun t e => t.insert e.1 e.2) empty

/-- The value under a key. -/
def get? (t : Table α) (key : Text) : Option α :=
  t.entries.lookup key

/-- The table with every value replaced by what `f` makes of its key and it. -/
def mapEntries (f : Text → α → β) (t : Table α) : Table β :=
  ⟨t.entries.map fun e => (e.1, f e.1 e.2), t.sorted.map _ fun _ _ h => h⟩

@[simp]
theorem entries_empty : (empty : Table α).entries = [] := rfl

@[simp]
theorem entries_insert (t : Table α) (key : Text) (value : α) :
    (t.insert key value).entries = putEntry key value t.entries := rfl

theorem eq_of_entries {s t : Table α} (h : s.entries = t.entries) : s = t := by
  cases s
  cases t
  simpa using h

/-- The table of the entries of a table. -/
theorem ofList_entries (t : Table α) : ofList t.entries = t := by
  have hfold : ∀ (rest : List (Text × α)) (s : Table α),
      (s.entries ++ rest).Pairwise (fun a b => a.1.precedes b.1) →
      (rest.foldl (fun t e => t.insert e.1 e.2) s).entries = s.entries ++ rest := by
    intro rest
    induction rest with
    | nil => simp
    | cons e rest ih =>
      intro s hs
      have hput : (s.insert e.1 e.2).entries = s.entries ++ [e] :=
        putEntry_of_forall_precedes e.2 fun k hk =>
          (List.pairwise_append.1 hs).2.2 k hk e List.mem_cons_self
      rw [List.foldl_cons, ih, hput, List.append_assoc, List.singleton_append]
      rwa [hput, List.append_assoc, List.singleton_append]
  exact eq_of_entries (hfold t.entries empty t.sorted)

end Table

end EnvManifest
