import EnvManifest.Manifest.Operation
import EnvManifest.Proofs.Edit.Entries

/-!
# The fields of a package

The settings of a package are decoded from an object, field by field, and each edit of
the object sets one field of what is decoded, or two in the case of the patch mode. An
edit `Sets` a function on the decoded fields if the object decodes to its result
afterwards; there is one lemma for each edit (`sets_appendToSettings`, `sets_setBool`,
`sets_setPatchMode`, `sets_removePatchMode`), and none of them can fail on an object that
decodes.
-/

namespace EnvManifest

open Datum (HasField)

/-! ### The fields of an entry -/

namespace ListField

/-- The list among the fields of an entry. -/
def read : ListField → EntryFields → List Text
  | platforms, t => t.platforms
  | excludedPlatforms, t => t.excludedPlatforms
  | outputs, t => t.outputs
  | allowInsecure, t => t.allowInsecure

/-- The fields of an entry with the list set. -/
def write (values : List Text) : ListField → EntryFields → EntryFields
  | platforms, t => { t with platforms := values }
  | excludedPlatforms, t => { t with excludedPlatforms := values }
  | outputs, t => { t with outputs := values }
  | allowInsecure, t => { t with allowInsecure := values }

@[simp]
theorem read_write (values : List Text) (field : ListField) (t : EntryFields) :
    field.read (field.write values t) = values := by
  cases field <;> rfl

end ListField

namespace EntryFields

theorem hasField_version :
    HasField fields "version".toList Datum.decodeText fun a t => { t with version := a } where
  find := rfl
  independent _ := by
    repeat first | refine .cons_of_comm (fun _ _ => rfl) ?_ | refine .cons_self rfl ?_
    exact .nil
  set_set _ _ _ := rfl

theorem hasField_disablePlugin : HasField fields "disable_plugin".toList Datum.decodeBool
    fun a t => { t with disablePlugin := a } where
  find := rfl
  independent _ := by
    repeat first | refine .cons_of_comm (fun _ _ => rfl) ?_ | refine .cons_self rfl ?_
    exact .nil
  set_set _ _ _ := rfl

theorem hasField_patch : HasField fields patchKey (Datum.decodeOption Datum.decodeText)
    fun a t => { t with patch := a } where
  find := rfl
  independent _ := by
    repeat first | refine .cons_of_comm (fun _ _ => rfl) ?_ | refine .cons_self rfl ?_
    exact .nil
  set_set _ _ _ := rfl

theorem hasField_patchGlibc : HasField fields patchGlibcKey Datum.decodeBool
    fun a t => { t with patchGlibc := a } where
  find := rfl
  independent _ := by
    repeat first | refine .cons_of_comm (fun _ _ => rfl) ?_ | refine .cons_self rfl ?_
    exact .nil
  set_set _ _ _ := rfl

theorem hasField_list (field : ListField) :
    HasField fields field.key Datum.decodeTexts fun a t => field.write a t where
  find := by cases field <;> rfl
  independent _ := by
    cases field
    all_goals
      repeat first | refine .cons_of_comm (fun _ _ => rfl) ?_ | refine .cons_self rfl ?_
      exact .nil
  set_set a b t := by cases field <;> rfl

/-! ### Edits of the settings -/

/-- The fields that the members of an object give. -/
def decode (o : Object) : Decoded EntryFields :=
  Datum.decodeMembers fields [] o.entries (ofVersion [])

/-- An edit of the settings of a package that never fails, and that sets what is decoded
from them as `f` says. -/
def Sets (e : Edit Unit) (f : EntryFields → EntryFields) : Prop :=
  ∀ o t, decode o = .ok t → (e o).1 = .ok () ∧ decode (e o).2 = .ok (f t)

end EntryFields

open EntryFields Object

theorem sets_setOrPush {name : Text} {α : Type} {decode : Datum → Decoded α}
    {set : α → EntryFields → EntryFields} (hf : HasField EntryFields.fields name decode set)
    {n : Node} {a : α} (hn : decode n.datum = .ok a) :
    Sets (fun o => (.ok (), setOrPush o name n)) (set a) :=
  fun _ _ h => ⟨rfl, decodes_setOrPush hf h hn⟩

/-! ### Lists -/

theorem children_pushTexts (es : Elements) (values : List Text) :
    (pushTexts es values).children = es.children ++ values.map Value.ofText := by
  induction values generalizing es with
  | nil => simp [pushTexts]
  | cons v values ih =>
    change (pushTexts (es.push (Value.ofText v)) values).children = _
    rw [ih]
    simp

theorem decodeTexts_map_string (values : List Text) :
    (values.map Datum.string).mapM Datum.decodeText = .ok values := by
  induction values with
  | nil => rfl
  | cons v values ih => rw [List.map_cons, List.mapM_cons, ih]; rfl

/-- Values put at the end of a list are decoded at its end. -/
theorem decodeTexts_pushTexts {es : Elements} {texts : List Text}
    (h : Datum.decodeTexts (Node.array es).datum = .ok texts) (values : List Text) :
    Datum.decodeTexts (Node.array (pushTexts es values)).datum = .ok (texts ++ values) := by
  have hdatum : values.map (fun v => (Value.ofText v).node.datum) = values.map Datum.string := rfl
  rw [Node.datum_array, Datum.decodeTexts] at h ⊢
  rw [children_pushTexts, List.map_append, List.map_map, List.mapM_append, h, Function.comp_def,
    hdatum, decodeTexts_map_string]
  rfl

/-- What decodes as a list of texts is an array. -/
theorem exists_array_of_decodeTexts {n : Node} {texts : List Text}
    (h : Datum.decodeTexts n.datum = .ok texts) : ∃ es, n = .array es := by
  cases n with
  | array es => exact ⟨es, rfl⟩
  | object ms => simp [Datum.decodeTexts] at h
  | null | bool b | number t | string l => simp [Node.datum, Node.denoting, Datum.decodeTexts] at h

/-- **Appending to a list appends to the field.** -/
theorem sets_appendToSettings (name : Text) (field : ListField) (values : List Text) :
    Sets (appendToSettings name field.key values)
      (fun t => field.write (field.read t ++ values) t) := by
  intro o t h
  rw [appendToSettings]
  split
  · rename_i hs
    have hunset : t = field.write [] t :=
      Datum.decodeMembers_unset (hasField_list field) h (not_mem_of_spot?_eq_none hs)
        (by cases field <;> rfl)
    have hread : field.read t = [] := by rw [hunset, ListField.read_write]
    refine ⟨rfl, ?_⟩
    simp only [hread, List.nil_append]
    refine decodes_push (hasField_list field) hs h rfl ?_
    have hnew : Datum.decodeTexts (Node.array Composite.new).datum = .ok [] := by
      rw [Node.datum_array]
      rfl
    exact decodeTexts_pushTexts hnew values
  · rename_i s hs
    obtain ⟨texts, htexts, hset⟩ := decodes_spot (hasField_list field) hs h
    obtain ⟨es, hes⟩ := exists_array_of_decodeTexts htexts
    have hread : field.read t = texts := by rw [hset, ListField.read_write]
    rw [hes] at htexts
    simp only [hes, hread]
    exact ⟨trivial, decodes_setNode (hasField_list field) hs h (decodeTexts_pushTexts htexts values)⟩

/-! ### The patch mode -/

/-- The fields of an entry with its patch mode set, in the newer form. -/
def EntryFields.withPatch (patch : Option Text) (t : EntryFields) : EntryFields :=
  { t with patch := patch, patchGlibc := false }

/-- **Setting the patch mode** sets it and clears the older field. -/
theorem sets_patchSettings (mode : PatchMode) :
    Sets (patchSettings mode) (withPatch (some mode.toText)) := by
  have hmode : Datum.decodeOption Datum.decodeText (Node.ofText mode.toText).datum =
      .ok (some mode.toText) := rfl
  intro o t h
  rw [patchSettings]
  dsimp only
  split
  · rename_i s _ hs
    exact ⟨rfl, decodes_removeFirst (a := false) hasField_patchGlibc
      (decodes_setNode hasField_patch hs h hmode) rfl⟩
  · -- the member of the older field is renamed where it stands
    rename_i s hpatch hs
    refine ⟨rfl, ?_⟩
    have hnone := not_mem_of_spot?_eq_none hpatch
    rw [entries_of_spot? hs, List.map_append, List.map_cons, List.mem_append, List.mem_cons,
      not_or, not_or] at hnone
    rw [decode, entries_of_spot? hs] at h
    have hdelete := Datum.decodeMembers_delete (a := false) hasField_patchGlibc h rfl
    rw [decode, entries_withSpot, Member.entry]
    refine (Datum.decodeMembers_middle hasField_patch (by simp) hnone.1 hnone.2.2 hmode _).trans ?_
    rw [hdelete]
    rfl
  · rename_i hpatch hs
    have hunset := Datum.decodeMembers_unset (a := false) hasField_patchGlibc h
      (not_mem_of_spot?_eq_none hs) rfl
    have hglibc : t.patchGlibc = false := by rw [hunset]
    refine ⟨rfl, (decodes_push hasField_patch hpatch h rfl hmode).trans ?_⟩
    simp [withPatch, hglibc]

/-- **Removing the patch mode** clears both fields. -/
theorem decode_removePatch {o : Object} {t : EntryFields} (h : decode o = .ok t) :
    decode (removeFirst (removeFirst o patchKey) patchGlibcKey) = .ok (withPatch none t) :=
  decodes_removeFirst (a := false) hasField_patchGlibc
    (decodes_removeFirst (a := none) hasField_patch h rfl) rfl

/-! ### The package of the fields -/

namespace EntryFields

/-- What `f` makes of the fields of an entry is what `g` makes of the package. -/
def Turns (f : EntryFields → EntryFields) (g : Package → Package) : Prop :=
  ∀ name t p, t.toPackage name = .ok p → (f t).toPackage name = .ok (g p)

theorem toPackage_eq_ok {name : Text} {t : EntryFields} {p : Package} :
    t.toPackage name = .ok p ↔ ∃ mode, t.patchMode = .ok mode ∧
      p = ⟨name, t.version, t.disablePlugin, t.platforms, t.excludedPlatforms, t.patchGlibc, mode,
        t.outputs, t.allowInsecure⟩ := by
  rw [toPackage, bind_eq_ok]
  simp [pure, Except.pure, eq_comm]

theorem turns_write (field : ListField) (values : List Text) :
    Turns (fun t => field.write (field.read t ++ values) t) (field.append values) := by
  intro name t p h
  obtain ⟨mode, hmode, rfl⟩ := toPackage_eq_ok.1 h
  cases field <;> exact toPackage_eq_ok.2 ⟨mode, hmode, rfl⟩

theorem turns_version (version : Text) :
    Turns (fun t => { t with version := version }) (fun p => { p with version := version }) := by
  intro name t p h
  obtain ⟨mode, hmode, rfl⟩ := toPackage_eq_ok.1 h
  exact toPackage_eq_ok.2 ⟨mode, hmode, rfl⟩

theorem turns_disablePlugin (on : Bool) : Turns (fun t => { t with disablePlugin := on })
    (fun p => { p with disablePlugin := on }) := by
  intro name t p h
  obtain ⟨mode, hmode, rfl⟩ := toPackage_eq_ok.1 h
  exact toPackage_eq_ok.2 ⟨mode, hmode, rfl⟩

/-- The word for a mode stands for it. -/
theorem turns_withPatch (mode : PatchMode) : Turns (withPatch (some mode.toText))
    (fun p => { p with patchGlibc := false, patch := mode }) := by
  intro name t p h
  obtain ⟨-, -, rfl⟩ := toPackage_eq_ok.1 h
  refine toPackage_eq_ok.2 ⟨mode, ?_, rfl⟩
  cases mode <;> rfl

theorem turns_withoutPatch : Turns (withPatch none)
    (fun p => { p with patchGlibc := false, patch := .auto }) := by
  intro name t p h
  obtain ⟨-, -, rfl⟩ := toPackage_eq_ok.1 h
  exact toPackage_eq_ok.2 ⟨.auto, rfl, rfl⟩

end EntryFields

/-! ### Fitting -/

/-- What an edit puts into an object is spelled as the grammar wants it and nests at most
`d` deep. -/
def Edit.PutsIn (d : Nat) (e : Edit Unit) : Prop :=
  ∀ o : Object, (∀ m ∈ o.children, m.Fits (Node.Fits d)) →
    ∀ m ∈ (e o).2.children, m.Fits (Node.Fits d)

variable {d : Nat}

theorem fits_pushTexts {es : Elements} (h : ∀ e ∈ es.children, e.Fits (Node.Fits d))
    (values : List Text) : ∀ e ∈ (pushTexts es values).children, e.Fits (Node.Fits d) := by
  rw [children_pushTexts]
  intro e he
  rcases List.mem_append.1 he with he | he
  · exact h e he
  · obtain ⟨v, -, rfl⟩ := List.mem_map.1 he
    exact ⟨by simp [Named.names], Node.fits_ofText v⟩

theorem putsIn_appendToSettings (name field : Text) (values : List Text) :
    Edit.PutsIn (d + 1) (appendToSettings name field values) := by
  intro o h
  rw [appendToSettings]
  split
  · have hnew : ∀ e ∈ (pushTexts Composite.new values).children, e.Fits (Node.Fits d) :=
      fits_pushTexts (by simp [Composite.new]) values
    exact Composite.fits_push h (fits_onOwnLine field (Node.fits_array.2 hnew))
  · rename_i s hs
    split
    · rename_i es hes
      have hhere := (fits_of_spot? hs h).2.1.2
      rw [hes, Node.fits_array] at hhere
      exact fits_setNode hs h (Node.fits_array.2 (fits_pushTexts hhere values))
    · exact h

theorem putsIn_patchSettings (mode : PatchMode) : Edit.PutsIn d (patchSettings mode) := by
  have hmode : Node.Fits d (Node.ofText mode.toText) := Node.fits_ofText _
  intro o h
  rw [patchSettings]
  dsimp only
  split
  · rename_i s _ hs
    exact fits_removeFirst (fits_setNode hs h hmode) _
  · rename_i s _ hs
    obtain ⟨hbefore, -, hafter⟩ := fits_of_spot? hs h
    intro m hm
    rcases List.mem_append.1 hm with hm | hm
    · exact hbefore m hm
    · rcases List.mem_cons.1 hm with rfl | hm
      · exact ⟨by simpa [Named.names] using isLiteral_ofText patchKey, hmode⟩
      · exact hafter m hm
  · exact Composite.fits_push h (fits_onOwnLine patchKey hmode)

/-- An edit of the settings of a package that makes `g` of the package. -/
structure Edit.Changes (d : Nat) (e : Edit Unit) (g : Package → Package) : Prop where
  sets : ∃ f, Sets e f ∧ Turns f g
  putsIn : e.PutsIn (d + 1)

theorem changes_appendToSettings (name : Text) (field : ListField) (values : List Text) :
    Edit.Changes d (appendToSettings name field.key values) (field.append values) where
  sets := ⟨_, sets_appendToSettings name field values, turns_write field values⟩
  putsIn := putsIn_appendToSettings name field.key values

theorem changes_setBool (on : Bool) : Edit.Changes d
    (fun o => (.ok (), setOrPush o "disable_plugin".toList (.bool on)))
    (fun p => { p with disablePlugin := on }) where
  sets := ⟨_, sets_setOrPush hasField_disablePlugin (n := .bool on) rfl, turns_disablePlugin on⟩
  putsIn _ h := fits_setOrPush h _ Node.fits_bool

theorem changes_patchSettings (mode : PatchMode) : Edit.Changes d (patchSettings mode)
    (fun p => { p with patchGlibc := false, patch := mode }) where
  sets := ⟨_, sets_patchSettings mode, turns_withPatch mode⟩
  putsIn := putsIn_patchSettings mode

end EnvManifest
