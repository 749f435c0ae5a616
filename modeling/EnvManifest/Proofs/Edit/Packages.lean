import EnvManifest.Proofs.Edit.Fields

/-!
# The packages of a document after an edit

The packages of a manifest are decoded from a list or from an object, and an edit of a
package goes by its name: what it does to the first member of a name, it does to the first
package of that name (`decodeEntries_setNode`, `decodeEntries_removeFirst`). Whatever shape
the packages are written in, the edits of the document are read back as functions on the
list of packages:

| edit | packages |
|---|---|
| `addPackage` | `Manifest.addedTo` |
| `removePackage` | the first one of the name, or of the name and version, taken out |
| `editSettings` | the first one of the name changed |
| `removePatchMode` | likewise |

An edit of a document that decodes never fails, and the document decodes afterwards.
-/

namespace EnvManifest

open Datum (HasField)

/-! ### Lists of results -/

section Results

variable {ε α β : Type} {f : α → Except ε β}

theorem mapM_cons_eq_ok {a : α} {l : List α} {bs : List β} : (a :: l).mapM f = .ok bs ↔
    ∃ b bs', f a = .ok b ∧ l.mapM f = .ok bs' ∧ bs = b :: bs' := by
  rw [List.mapM_cons, bind_eq_ok]
  constructor
  · rintro ⟨b, hb, h⟩
    obtain ⟨bs', hbs', h⟩ := bind_eq_ok.1 h
    exact ⟨b, bs', hb, hbs', (Except.ok.inj h).symm⟩
  · rintro ⟨b, bs', hb, hbs', rfl⟩
    exact ⟨b, hb, by rw [hbs']; rfl⟩

theorem mapM_append_eq_ok {l₁ l₂ : List α} {bs : List β} : (l₁ ++ l₂).mapM f = .ok bs ↔
    ∃ bs₁ bs₂, l₁.mapM f = .ok bs₁ ∧ l₂.mapM f = .ok bs₂ ∧ bs = bs₁ ++ bs₂ := by
  rw [List.mapM_append, bind_eq_ok]
  constructor
  · rintro ⟨bs₁, h₁, h⟩
    obtain ⟨bs₂, h₂, h⟩ := bind_eq_ok.1 h
    exact ⟨bs₁, bs₂, h₁, h₂, (Except.ok.inj h).symm⟩
  · rintro ⟨bs₁, bs₂, h₁, h₂, rfl⟩
    exact ⟨bs₁, h₁, by rw [h₂]; rfl⟩

theorem mapM_middle_eq_ok {l₁ l₂ : List α} {a : α} {bs : List β} :
    (l₁ ++ a :: l₂).mapM f = .ok bs ↔ ∃ bs₁ b bs₂, l₁.mapM f = .ok bs₁ ∧ f a = .ok b ∧
      l₂.mapM f = .ok bs₂ ∧ bs = bs₁ ++ b :: bs₂ := by
  rw [mapM_append_eq_ok]
  constructor
  · rintro ⟨bs₁, bs, h₁, h, rfl⟩
    obtain ⟨b, bs₂, hb, h₂, rfl⟩ := mapM_cons_eq_ok.1 h
    exact ⟨bs₁, b, bs₂, h₁, hb, h₂, rfl⟩
  · rintro ⟨bs₁, b, bs₂, h₁, hb, h₂, rfl⟩
    exact ⟨bs₁, b :: bs₂, h₁, mapM_cons_eq_ok.2 ⟨b, bs₂, hb, h₂, rfl⟩, rfl⟩

/-- What comes out of a list of results comes from one of them. -/
theorem exists_of_mem_mapM {l : List α} {bs : List β} (h : l.mapM f = .ok bs) {b : β}
    (hb : b ∈ bs) : ∃ a ∈ l, f a = .ok b := by
  induction l generalizing bs with
  | nil =>
    obtain rfl := Except.ok.inj h
    simp at hb
  | cons a l ih =>
    obtain ⟨c, cs, hc, hcs, rfl⟩ := mapM_cons_eq_ok.1 h
    rcases List.mem_cons.1 hb with rfl | hb
    · exact ⟨a, List.mem_cons_self, hc⟩
    · obtain ⟨a', ha', hb'⟩ := ih hcs hb
      exact ⟨a', List.mem_cons_of_mem a ha', hb'⟩

/-- Everything that results are made of comes out of the list. -/
theorem exists_mem_of_mapM {l : List α} {bs : List β} (h : l.mapM f = .ok bs) {a : α}
    (ha : a ∈ l) : ∃ b ∈ bs, f a = .ok b := by
  obtain ⟨l₁, l₂, rfl⟩ := List.append_of_mem ha
  obtain ⟨bs₁, b, bs₂, -, hb, -, rfl⟩ := mapM_middle_eq_ok.1 h
  exact ⟨b, by simp, hb⟩

end Results

/-! ### Changing the first package -/

namespace Manifest

/-- A package after a change is one that was there, or the changed one. -/
theorem mem_changeFirst {q : Package → Bool} {f : Package → Package} {xs : List Package}
    {p : Package} (hp : p ∈ changeFirst q f xs) :
    p ∈ xs ∨ ∃ x, xs.find? q = some x ∧ p = f x := by
  induction xs with
  | nil => simp [changeFirst] at hp
  | cons x xs ih =>
    rw [changeFirst] at hp
    rw [List.find?_cons]
    cases hx : q x with
    | true =>
      rw [if_pos hx] at hp
      rcases List.mem_cons.1 hp with rfl | hp
      · exact Or.inr ⟨x, rfl, rfl⟩
      · exact Or.inl (List.mem_cons_of_mem x hp)
    | false =>
      rw [if_neg (by simp [hx])] at hp
      rcases List.mem_cons.1 hp with rfl | hp
      · exact Or.inl List.mem_cons_self
      · exact (ih hp).imp_left (List.mem_cons_of_mem x)

theorem changeFirst_append {q : Package → Bool} {f : Package → Package} {xs ys : List Package}
    {p : Package} (hxs : ∀ x ∈ xs, q x = false) (hp : q p = true) :
    changeFirst q f (xs ++ p :: ys) = xs ++ f p :: ys := by
  induction xs with
  | nil => simp [changeFirst, hp]
  | cons x xs ih =>
    obtain ⟨hx, hxs⟩ := List.forall_mem_cons.1 hxs
    simp [changeFirst, hx, ih hxs]

/-- Changing a package to itself changes nothing. -/
theorem changeFirst_of_forall_eq {q : Package → Bool} {f : Package → Package} {xs : List Package}
    (hxs : ∀ x ∈ xs, q x = true → f x = x) : changeFirst q f xs = xs := by
  induction xs with
  | nil => rfl
  | cons x xs ih =>
    obtain ⟨hx, hxs⟩ := List.forall_mem_cons.1 hxs
    rw [changeFirst, ih hxs]
    split
    · rename_i hq
      rw [hx hq]
    · rfl

end Manifest

open Manifest Object

/-! ### Packages by name -/

namespace Package

theorem name_of_decode {name : Text} {d : Datum} {p : Package} (h : decode name d = .ok p) :
    p.name = name := by
  have htoPackage : ∀ {t : EntryFields}, t.toPackage name = .ok p → p.name = name := by
    intro t ht
    obtain ⟨mode, -, rfl⟩ := EntryFields.toPackage_eq_ok.1 ht
    rfl
  cases d with
  | string version => exact htoPackage h
  | null => exact htoPackage h
  | object members =>
    obtain ⟨t, -, ht⟩ := bind_eq_ok.1 h
    exact htoPackage ht
  | bool b | number t | array ds => simp [decode] at h

/-- The packages that entries decode to. -/
def decodeEntries (entries : List (Text × Datum)) : Decoded (List Package) :=
  entries.mapM fun m => decode m.1 m.2

theorem names_of_decodeEntries {entries : List (Text × Datum)} {ps : List Package}
    (h : decodeEntries entries = .ok ps) : ps.map Package.name = entries.map Prod.fst := by
  induction entries generalizing ps with
  | nil =>
    obtain rfl := Except.ok.inj h
    rfl
  | cons e entries ih =>
    obtain ⟨p, ps, hp, hps, rfl⟩ := mapM_cons_eq_ok.1 h
    rw [List.map_cons, List.map_cons, name_of_decode hp, ih hps]

/-- Whether a package has a name. -/
def hasName (name : Text) (p : Package) : Bool :=
  p.name == name

theorem hasName_eq_false_of_not_mem {name : Text} {entries : List (Text × Datum)}
    {ps : List Package} (h : decodeEntries entries = .ok ps) (hname : name ∉ entries.map Prod.fst) :
    ∀ p ∈ ps, p.hasName name = false := by
  rw [← names_of_decodeEntries h] at hname
  intro p hp
  simp only [hasName, beq_eq_false_iff_ne, ne_eq]
  rintro rfl
  exact hname (List.mem_map_of_mem hp)

variable {pkgs : Object} {name : Text} {s : Spot} {ps : List Package}

/-- The member of a name is the first package of that name. -/
theorem decodeEntries_spot (hs : spot? pkgs name = some s) (h : decodeEntries pkgs.entries = .ok ps) :
    ∃ ps₁ p ps₂, decodeEntries (s.before.map Member.entry) = .ok ps₁ ∧
      decode name s.here.node.datum = .ok p ∧ decodeEntries (s.after.map Member.entry) = .ok ps₂ ∧
      ps = ps₁ ++ p :: ps₂ ∧ (∀ x ∈ ps₁, x.hasName name = false) ∧ p.hasName name = true := by
  rw [entries_of_spot? hs] at h
  obtain ⟨ps₁, p, ps₂, h₁, hp, h₂, rfl⟩ := mapM_middle_eq_ok.1 h
  refine ⟨ps₁, p, ps₂, h₁, hp, h₂, rfl, hasName_eq_false_of_not_mem h₁ ?_, ?_⟩
  · rw [map_fst_entry]
    exact not_mem_before_of_spotIn? hs
  · simp [hasName, name_of_decode hp]

/-- **Another value for a member changes the first package of its name.** -/
theorem decodeEntries_setNode (hs : spot? pkgs name = some s)
    (h : decodeEntries pkgs.entries = .ok ps) {n : Node} {g : Package → Package}
    (hn : ∀ p, decode name s.here.node.datum = .ok p → decode name n.datum = .ok (g p)) :
    decodeEntries (withSpot pkgs (s.setNode n)).entries =
      .ok (changeFirst (hasName name) g ps) := by
  obtain ⟨ps₁, p, ps₂, h₁, hp, h₂, rfl, hfirst, hname⟩ := decodeEntries_spot hs h
  rw [entries_setNode hs, changeFirst_append hfirst hname]
  exact mapM_middle_eq_ok.2 ⟨ps₁, g p, ps₂, h₁, hn p hp, h₂, rfl⟩

/-- **Taking out a member takes out the first package of its name.** -/
theorem decodeEntries_removeFirst (h : decodeEntries pkgs.entries = .ok ps) (name : Text) :
    decodeEntries (removeFirst pkgs name).entries = .ok (ps.eraseP (hasName name)) := by
  cases hs : spot? pkgs name with
  | some s =>
    obtain ⟨ps₁, p, ps₂, h₁, -, h₂, rfl, hfirst, hname⟩ := decodeEntries_spot hs h
    have hnot : ∀ x ∈ ps₁, ¬x.hasName name = true := fun x hx => by simp [hfirst x hx]
    rw [entries_removeFirst hs, List.eraseP_append_right _ hnot, List.eraseP_cons_of_pos hname]
    exact mapM_append_eq_ok.2 ⟨ps₁, ps₂, h₁, h₂, rfl⟩
  | none =>
    have hnot := hasName_eq_false_of_not_mem h (not_mem_of_spot?_eq_none hs)
    rw [removeFirst_of_spot?_eq_none hs, h, List.eraseP_of_forall_not]
    exact fun x hx => by simp [hnot x hx]

theorem decodeEntries_push (h : decodeEntries pkgs.entries = .ok ps) {m : Member} {p : Package}
    (hm : decode (Member.name m) m.node.datum = .ok p) :
    decodeEntries (entries (pkgs.push m)) = .ok (ps ++ [p]) := by
  rw [entries_push]
  exact mapM_append_eq_ok.2 ⟨ps, [p], h, mapM_cons_eq_ok.2 ⟨p, [], hm, rfl, rfl⟩, rfl⟩

end Package

/-! ### One entry -/

theorem datum_of_text? {n : Node} {t : Text} (h : n.text? = some t) : n.datum = .string t := by
  cases n with
  | string l => exact congrArg Datum.string (Option.some.inj h)
  | null | bool b | number t | object ms | array es => simp [Node.text?] at h

/-- The settings of an entry hold what the entry says. -/
theorem decode_settingsOf {name : Text} {entry : Node} {p : Package}
    (h : Package.decode name entry.datum = .ok p) :
    ∃ t, EntryFields.decode (settingsOf entry) = .ok t ∧ t.toPackage name = .ok p := by
  match entry with
  | .null => exact ⟨_, rfl, h⟩
  | .string ⟨[], _⟩ => exact ⟨_, rfl, h⟩
  | .string ⟨c :: cs, _⟩ => exact ⟨_, rfl, h⟩
  | .object o =>
    rw [Node.datum_object] at h
    exact bind_eq_ok.1 h
  | .array es =>
    rw [Node.datum_array] at h
    simp [Package.decode] at h
  | .bool b => simp [Node.datum, Node.denoting, Package.decode] at h
  | .number t => simp [Node.datum, Node.denoting, Package.decode] at h

theorem decode_object {name : Text} {o : Object} {t : EntryFields} {p : Package}
    (h : EntryFields.decode o = .ok t) (hp : t.toPackage name = .ok p) :
    Package.decode name (Node.object o).datum = .ok p := by
  rw [Node.datum_object]
  exact bind_eq_ok.2 ⟨t, h, hp⟩

variable {d : Nat}

theorem fits_settingsOf {entry : Node} (h : entry.Fits (d + 2)) :
    ∀ m ∈ (settingsOf entry).children, m.Fits (Node.Fits (d + 1)) := by
  match entry with
  | .object o => exact Node.fits_object.1 h
  | .string ⟨c :: cs, _⟩ =>
    exact Composite.fits_push (by simp [Composite.new]) (fits_onOwnLine _ (Node.fits_ofText (c :: cs)))
  | .string ⟨[], _⟩ => simp [settingsOf, Node.text?, Composite.new]
  | .null | .bool _ | .number _ | .array _ => simp [settingsOf, Node.text?, Composite.new]

/-- **An edit of the settings of an entry** changes the package. -/
theorem decode_editedEntry {e : Edit Unit} {g : Package → Package} (he : e.Changes d g)
    {name : Text} {entry : Node} {p : Package} (h : Package.decode name entry.datum = .ok p) :
    (e (settingsOf entry)).1 = .ok () ∧
      Package.decode name (Node.object (e (settingsOf entry)).2).datum = .ok (g p) := by
  obtain ⟨f, hsets, hturns⟩ := he.sets
  obtain ⟨t, ht, hp⟩ := decode_settingsOf h
  obtain ⟨hanswer, ht'⟩ := hsets _ _ ht
  exact ⟨hanswer, decode_object ht' (hturns _ _ _ hp)⟩

theorem fits_editedEntry {e : Edit Unit} {g : Package → Package} (he : e.Changes d g)
    {entry : Node} (h : entry.Fits (d + 2)) :
    (Node.object (e (settingsOf entry)).2).Fits (d + 2) :=
  Node.fits_object.2 (he.putsIn _ (fits_settingsOf h))

/-- An entry with another version is read as the package with that version. -/
theorem decode_entryWithVersion {name version : Text} {entry n : Node} {p : Package}
    (h : Package.decode name entry.datum = .ok p) (hn : entryWithVersion? version entry = some n) :
    Package.decode name n.datum = .ok { p with version := version } := by
  cases entry with
  | null =>
    obtain rfl := Option.some.inj hn
    exact EntryFields.turns_version version _ _ _ h
  | string l =>
    simp only [entryWithVersion?] at hn
    split at hn
    · simp at hn
    · obtain rfl := Option.some.inj hn
      exact EntryFields.turns_version version _ _ _ h
  | object o =>
    rw [Node.datum_object] at h
    obtain ⟨t, ht, hp⟩ := bind_eq_ok.1 h
    have hversion := EntryFields.turns_version version _ _ _ hp
    simp only [entryWithVersion?] at hn
    split at hn
    · rename_i s hs
      split at hn
      · rename_i hempty
        obtain rfl := List.isEmpty_iff.1 hempty
        obtain rfl := Option.some.inj hn
        exact decode_object (decodes_removeFirst EntryFields.hasField_version ht rfl) hversion
      · split at hn
        · simp at hn
        · obtain rfl := Option.some.inj hn
          exact decode_object (decodes_setNode EntryFields.hasField_version hs ht rfl) hversion
    · rename_i hs
      split at hn
      · simp at hn
      · obtain rfl := Option.some.inj hn
        exact decode_object (decodes_push EntryFields.hasField_version hs ht rfl rfl) hversion
  | array es =>
    rw [Node.datum_array] at h
    simp [Package.decode] at h
  | bool b | number t => simp [Node.datum, Node.denoting, Package.decode] at h

theorem fits_entryWithVersion {version : Text} {entry n : Node} (h : entry.Fits (d + 1))
    (hn : entryWithVersion? version entry = some n) : n.Fits (d + 1) := by
  have hversion : ∀ d, Node.Fits d (Node.ofText version) := fun d => Node.fits_ofText version
  cases entry with
  | object o =>
    rw [Node.fits_object] at h
    simp only [entryWithVersion?] at hn
    split at hn
    · rename_i s hs
      split at hn
      · obtain rfl := Option.some.inj hn
        exact Node.fits_object.2 (fits_removeFirst h _)
      · split at hn
        · simp at hn
        · obtain rfl := Option.some.inj hn
          exact Node.fits_object.2 (fits_setNode hs h (hversion d))
    · split at hn
      · simp at hn
      · obtain rfl := Option.some.inj hn
        exact Node.fits_object.2 (Composite.fits_push h (fits_onOwnLine _ (hversion d)))
  | string l =>
    simp only [entryWithVersion?] at hn
    split at hn
    · simp at hn
    · obtain rfl := Option.some.inj hn
      exact hversion _
  | null | bool b | number t | array es =>
    obtain rfl := Option.some.inj hn
    exact hversion _

/-- An entry that stays as it is has the version. -/
theorem version_of_entryWithVersion_eq_none {name version : Text} {entry : Node} {p : Package}
    (h : Package.decode name entry.datum = .ok p) (hn : entryWithVersion? version entry = none) :
    p.version = version := by
  cases entry with
  | string l =>
    simp only [entryWithVersion?] at hn
    split at hn
    · rename_i hl
      obtain ⟨mode, -, rfl⟩ := EntryFields.toPackage_eq_ok.1 h
      exact hl
    · simp at hn
  | object o =>
    rw [Node.datum_object] at h
    obtain ⟨t, ht, hp⟩ := bind_eq_ok.1 h
    obtain ⟨mode, -, rfl⟩ := EntryFields.toPackage_eq_ok.1 hp
    simp only [entryWithVersion?] at hn
    split at hn
    · rename_i s hs
      split at hn
      · simp at hn
      · split at hn
        · rename_i htext
          obtain ⟨a, ha, hset⟩ := decodes_spot EntryFields.hasField_version hs ht
          rw [datum_of_text? htext] at ha
          rw [hset]
          exact (Except.ok.inj ha).symm
        · simp at hn
    · rename_i hs
      split at hn
      · rename_i hempty
        have hunset := Datum.decodeMembers_unset (a := []) EntryFields.hasField_version ht
          (not_mem_of_spot?_eq_none hs) rfl
        rw [hunset, List.isEmpty_iff.1 hempty]
      · simp at hn
  | null | bool b | number t | array es => simp [entryWithVersion?] at hn

end EnvManifest
