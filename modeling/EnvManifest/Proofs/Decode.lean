import EnvManifest.Decode

/-!
# Decoding after an edit

A record is decoded member by member, in the order of the document, and every member
sets a field of its own. So the order does not matter to what comes out, and an edit of
one member is an edit of one field: `decodeMembers_middle` takes a member out of the
middle of an object and sets its field at the end instead. From it, what decodes still
does after a member has been replaced (`decodeMembers_replace`), appended
(`decodeMembers_append`) or deleted (`decodeMembers_delete`), and only the field of that
member has changed.

What this asks of the fields of a record is in `Datum.HasField`.
-/

namespace EnvManifest

/-! ### Results -/

section Results

variable {ε α β : Type}

theorem bind_eq_ok {x : Except ε α} {f : α → Except ε β} {b : β} :
    (x >>= f) = .ok b ↔ ∃ a, x = .ok a ∧ f a = .ok b := by
  cases x with
  | error e => simp [bind, Except.bind]
  | ok a => simp [bind, Except.bind]

theorem map_eq_ok {x : Except ε α} {f : α → β} {b : β} :
    x.map f = .ok b ↔ ∃ a, x = .ok a ∧ f a = b := by
  cases x with
  | error e => simp [Except.map]
  | ok a => simp [Except.map]

end Results

namespace Datum

variable {σ α : Type}

/-- Changing a record by `u` is the same before and after reading any field but the one
of a name. -/
def IndependentOf (fields : List (Field σ)) (name : Text) (u : σ → σ) : Prop :=
  ∀ g ∈ fields, g.name ≠ name → ∀ d s, g.put d (u s) = (g.put d s).map u

/-- A record has a field of a name that `decode` reads and `set` puts into it, apart from
every other field. -/
structure HasField (fields : List (Field σ)) (name : Text) (decode : Datum → Decoded α)
    (set : α → σ → σ) : Prop where
  find : fields.find? (fun f => f.name == name) =
    some ⟨name, fun d s => (decode d).map fun a => set a s⟩
  independent : ∀ a, IndependentOf fields name (set a)
  set_set : ∀ a b s, set a (set b s) = set a s

/-- A field that is set apart from another one is read so. -/
theorem put_of_comm {β : Type} {name : String} {decode : Datum → Decoded β} {set : β → σ → σ}
    {u : σ → σ} (h : ∀ b s, set b (u s) = u (set b s)) (d : Datum) (s : σ) :
    (Field.of name decode set).put d (u s) = ((Field.of name decode set).put d s).map u := by
  simp only [Field.of]
  cases decode d with
  | error e => rfl
  | ok b => exact congrArg Except.ok (h b s)

/-! ### A change against the fields of a record, one by one -/

namespace IndependentOf

variable {β : Type} {fields : List (Field σ)} {name : Text} {n : String}
  {decode : Datum → Decoded β} {set : β → σ → σ} {u : σ → σ}

theorem nil : IndependentOf [] name u :=
  fun _ hg => absurd hg List.not_mem_nil

/-- Nothing is asked of the field of the name itself. -/
theorem cons_self (hname : n.toList = name) (h : IndependentOf fields name u) :
    IndependentOf (.of n decode set :: fields) name u :=
  List.forall_mem_cons.2 ⟨fun hne => absurd hname hne, h⟩

theorem cons_of_comm (hcomm : ∀ b s, set b (u s) = u (set b s)) (h : IndependentOf fields name u) :
    IndependentOf (.of n decode set :: fields) name u :=
  List.forall_mem_cons.2 ⟨fun _ => put_of_comm hcomm, h⟩

end IndependentOf

variable {fields : List (Field σ)} {name : Text} {decode : Datum → Decoded α} {set : α → σ → σ}
  {seen : List Text} {pre post ms : List (Text × Datum)} {d : Datum} {s t : σ}

theorem decodeMembers_cons (k : Text) :
    decodeMembers fields seen ((k, d) :: ms) s =
      match fields.find? (fun f => f.name == k) with
      | none => decodeMembers fields seen ms s
      | some f =>
        if k ∈ seen then .error (.duplicateField k)
        else f.put d s >>= fun s' => decodeMembers fields (k :: seen) ms s' :=
  rfl

/-! ### Members apart -/

/-- Without a member of the name, changing the field is the same before and after. -/
theorem decodeMembers_update {u : σ → σ} (hu : IndependentOf fields name u) {seen seen' : List Text}
    (hseen : ∀ k, k ≠ name → (k ∈ seen' ↔ k ∈ seen)) (hms : name ∉ ms.map Prod.fst) (s : σ) :
    decodeMembers fields seen' ms (u s) = (decodeMembers fields seen ms s).map u := by
  induction ms generalizing seen seen' s with
  | nil => rfl
  | cons m ms ih =>
    obtain ⟨k, e⟩ := m
    obtain ⟨hk, hms⟩ : k ≠ name ∧ name ∉ ms.map Prod.fst := by
      simpa [eq_comm] using hms
    rw [decodeMembers_cons, decodeMembers_cons]
    cases hfind : fields.find? (fun f => f.name == k) with
    | none => exact ih hseen hms s
    | some g =>
      have hg : g.name = k := by simpa using List.find?_some hfind
      have hput := hu g (List.mem_of_find?_eq_some hfind) (hg ▸ hk) e s
      simp only [hseen k hk]
      split
      · rfl
      · rw [hput]
        cases g.put e s with
        | error e => rfl
        | ok s' =>
          refine ih (fun j hj => ?_) hms s'
          simp [hseen j hj]

/-- **A member can be taken out of the middle of an object** and its field set at the
end. -/
theorem decodeMembers_middle (hf : HasField fields name decode set) (hseen : name ∉ seen)
    (hpre : name ∉ pre.map Prod.fst) (hpost : name ∉ post.map Prod.fst) {a : α}
    (hd : decode d = .ok a) (s : σ) :
    decodeMembers fields seen (pre ++ (name, d) :: post) s =
      (decodeMembers fields seen (pre ++ post) s).map (set a) := by
  induction pre generalizing seen s with
  | nil =>
    rw [List.nil_append, List.nil_append, decodeMembers_cons, hf.find]
    simp only [hseen, if_false, hd]
    -- the name does not come again, so its field can just as well be set at the end
    refine decodeMembers_update (hf.independent a) (fun k hk => ?_) hpost s
    simp [hk]
  | cons m pre ih =>
    obtain ⟨k, e⟩ := m
    obtain ⟨hk, hpre⟩ : k ≠ name ∧ name ∉ pre.map Prod.fst := by
      simpa [eq_comm] using hpre
    rw [List.cons_append, List.cons_append, decodeMembers_cons, decodeMembers_cons]
    cases hfind : fields.find? (fun f => f.name == k) with
    | none => exact ih hseen hpre s
    | some g =>
      dsimp only
      split
      · rfl
      · cases g.put e s with
        | error e => rfl
        | ok s' => exact ih (by simpa [Ne.symm hk] using hseen) hpre s'

/-! ### What was decoded -/

/-- A name that was met before does not come again. -/
theorem not_mem_of_decodeMembers (hf : HasField fields name decode set) (hseen : name ∈ seen)
    (h : decodeMembers fields seen ms s = .ok t) : name ∉ ms.map Prod.fst := by
  induction ms generalizing seen s with
  | nil => simp
  | cons m ms ih =>
    obtain ⟨k, e⟩ := m
    rw [decodeMembers_cons] at h
    by_cases hk : k = name
    · subst hk
      rw [hf.find] at h
      simp [hseen] at h
    · have hms : name ∉ ms.map Prod.fst := by
        split at h
        · exact ih hseen h
        · split at h
          · simp at h
          · obtain ⟨s', -, hrest⟩ := bind_eq_ok.1 h
            exact ih (List.mem_cons_of_mem k hseen) hrest
      simpa [Ne.symm hk] using hms

/-- In an object that decodes, a field comes once, with a value that it can be read
from. -/
theorem exists_of_decodeMembers (hf : HasField fields name decode set)
    (h : decodeMembers fields seen (pre ++ (name, d) :: post) s = .ok t) :
    name ∉ seen ∧ name ∉ pre.map Prod.fst ∧ name ∉ post.map Prod.fst ∧ ∃ a, decode d = .ok a := by
  induction pre generalizing seen s with
  | nil =>
    rw [List.nil_append, decodeMembers_cons, hf.find] at h
    dsimp only at h
    split at h
    · simp at h
    · rename_i hseen
      obtain ⟨s', hput, hrest⟩ := bind_eq_ok.1 h
      obtain ⟨a, hd, -⟩ := map_eq_ok.1 hput
      exact ⟨hseen, by simp, not_mem_of_decodeMembers hf List.mem_cons_self hrest, a, hd⟩
  | cons m pre ih =>
    obtain ⟨k, e⟩ := m
    rw [List.cons_append, decodeMembers_cons] at h
    by_cases hk : k = name
    · -- the name comes twice, which is an error
      subst hk
      rw [hf.find] at h
      dsimp only at h
      split at h
      · simp at h
      · obtain ⟨s', -, hrest⟩ := bind_eq_ok.1 h
        exact absurd (not_mem_of_decodeMembers hf List.mem_cons_self hrest) (by simp)
    · have hrest : ∃ seen' s', (name ∈ seen → name ∈ seen') ∧
          decodeMembers fields seen' (pre ++ (name, d) :: post) s' = .ok t := by
        split at h
        · exact ⟨seen, s, id, h⟩
        · split at h
          · simp at h
          · obtain ⟨s', -, hrest⟩ := bind_eq_ok.1 h
            exact ⟨k :: seen, s', List.mem_cons_of_mem k, hrest⟩
      obtain ⟨seen', s', hsub, hrest⟩ := hrest
      obtain ⟨hseen, hpre, hpost, hd⟩ := ih hrest
      exact ⟨fun hin => hseen (hsub hin), by simpa [Ne.symm hk] using hpre, hpost, hd⟩

/-- Without a member of the name, the field is as it was at first. -/
theorem decodeMembers_unset (hf : HasField fields name decode set)
    (h : decodeMembers fields [] ms s = .ok t) (hms : name ∉ ms.map Prod.fst) {a : α}
    (ha : set a s = s) : t = set a t := by
  have hupdate : decodeMembers fields [] ms (set a s) = (decodeMembers fields [] ms s).map (set a) :=
    decodeMembers_update (hf.independent a) (fun _ _ => Iff.rfl) hms s
  rw [ha, h] at hupdate
  exact Except.ok.inj hupdate

/-- A member has set its field. -/
theorem decodeMembers_set (hf : HasField fields name decode set)
    (h : decodeMembers fields [] (pre ++ (name, d) :: post) s = .ok t) {a : α}
    (hd : decode d = .ok a) : t = set a t := by
  obtain ⟨hseen, hpre, hpost, -⟩ := exists_of_decodeMembers hf h
  rw [decodeMembers_middle hf hseen hpre hpost hd] at h
  obtain ⟨r, -, rfl⟩ := map_eq_ok.1 h
  rw [hf.set_set]

/-- A field is read from any member of its name. -/
theorem decodeMembers_of_mem (hf : HasField fields name decode set)
    (h : decodeMembers fields [] ms s = .ok t) (hmem : (name, d) ∈ ms) :
    ∃ a, decode d = .ok a ∧ t = set a t := by
  obtain ⟨pre, post, rfl⟩ := List.append_of_mem hmem
  obtain ⟨-, -, -, a, ha⟩ := exists_of_decodeMembers hf h
  exact ⟨a, ha, decodeMembers_set hf h ha⟩

/-- A field that is not as it was at first has been read from a member of its name. -/
theorem exists_mem_of_decodeMembers (hf : HasField fields name decode set)
    (h : decodeMembers fields [] ms s = .ok t) {b : α} (hb : set b s = s)
    (hne : t ≠ set b t) : ∃ d a, (name, d) ∈ ms ∧ decode d = .ok a ∧ t = set a t := by
  by_cases hname : name ∈ ms.map Prod.fst
  · obtain ⟨⟨_, d⟩, hmem, rfl⟩ := List.mem_map.1 hname
    obtain ⟨a, ha⟩ := decodeMembers_of_mem hf h hmem
    exact ⟨d, a, hmem, ha⟩
  · exact absurd (decodeMembers_unset hf h hname hb) hne

/-! ### Edits of one member -/

/-- **Replacing a member sets its field.** -/
theorem decodeMembers_replace (hf : HasField fields name decode set)
    (h : decodeMembers fields [] (pre ++ (name, d) :: post) s = .ok t) {d' : Datum} {a : α}
    (hd : decode d' = .ok a) :
    decodeMembers fields [] (pre ++ (name, d') :: post) s = .ok (set a t) := by
  obtain ⟨hseen, hpre, hpost, b, hb⟩ := exists_of_decodeMembers hf h
  rw [decodeMembers_middle hf hseen hpre hpost hb] at h
  obtain ⟨r, hr, rfl⟩ := map_eq_ok.1 h
  rw [decodeMembers_middle hf hseen hpre hpost hd, hr, hf.set_set]
  rfl

/-- **Appending a member sets its field.** -/
theorem decodeMembers_append (hf : HasField fields name decode set)
    (h : decodeMembers fields [] ms s = .ok t) (hms : name ∉ ms.map Prod.fst) {a : α}
    (hd : decode d = .ok a) :
    decodeMembers fields [] (ms ++ [(name, d)]) s = .ok (set a t) := by
  rw [decodeMembers_middle hf (by simp) hms (by simp) hd, List.append_nil, h]
  rfl

/-- **Deleting a member sets its field to what it was at first.** -/
theorem decodeMembers_delete (hf : HasField fields name decode set)
    (h : decodeMembers fields [] (pre ++ (name, d) :: post) s = .ok t) {a : α} (ha : set a s = s) :
    decodeMembers fields [] (pre ++ post) s = .ok (set a t) := by
  obtain ⟨hseen, hpre, hpost, b, hb⟩ := exists_of_decodeMembers hf h
  rw [decodeMembers_middle hf hseen hpre hpost hb] at h
  obtain ⟨r, hr, rfl⟩ := map_eq_ok.1 h
  have hmembers : name ∉ (pre ++ post).map Prod.fst := by
    rw [List.map_append, List.mem_append]
    exact fun hin => hin.elim hpre hpost
  rw [hf.set_set, ← decodeMembers_unset hf hr hmembers ha]
  exact hr

end Datum

end EnvManifest
