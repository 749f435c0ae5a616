import EnvManifest.Proofs.Edit.Atomic
import EnvManifest.Proofs.Edit.Request
import Mathlib.Data.List.Lookmap

/-!
# Edits seen in the members of a document

Much of what an edit does is layout: which slots a new member gets, where a comment goes. As far
as the value of the document is concerned, an edit of an object is a function on its
`Object.entries`, and it `Acts` as that function if it does so on every object, however the
object is written. There are three such functions to know: the first member of a name is changed
(`Datum.change`), it is changed or put at the end if there is none (`Datum.put`), or it is taken
out.

An edit of the settings of a package changes the entry of that package in the object of
packages, and a few of them put the packages into an object first. `Tuning` lists what comes of
that. Two tunings of different packages commute (`Tuning.comm`): the one that comes second
finds the packages in an object already, and the entry that it is about as it was, except that
the entry of an array has become the member that it would have been turned into anyway.
-/

namespace EnvManifest

open Object

/-! ### Changing members -/

namespace Datum

variable {name name' : Text} {f g : Datum → Datum} {ms : List (Text × Datum)}

/-- Members with the first one of a name replaced by what is made of its value. -/
def replaceFirst (name : Text) (r : Datum → Text × Datum) (ms : List (Text × Datum)) :
    List (Text × Datum) :=
  ms.lookmap fun m => if m.1 = name then some (r m.2) else none

/-- Members with the value of the first one of a name changed. -/
def change (name : Text) (f : Datum → Datum) (ms : List (Text × Datum)) : List (Text × Datum) :=
  replaceFirst name (fun d => (name, f d)) ms

/-- Whether there is a member of a name. -/
def names (name : Text) (ms : List (Text × Datum)) : Bool :=
  ms.any fun m => m.1 == name

/-- Members with the value of the first one of a name changed; if there is none, one is put at
the end with the value `new`. -/
def put (name : Text) (f : Datum → Datum) (new : Datum) (ms : List (Text × Datum)) :
    List (Text × Datum) :=
  if names name ms then change name f ms else ms ++ [(name, new)]

theorem replaceFirst_cons {r : Datum → Text × Datum} (m : Text × Datum) :
    replaceFirst name r (m :: ms) =
      if m.1 = name then r m.2 :: ms else m :: replaceFirst name r ms := by
  rw [replaceFirst, List.lookmap_cons]
  split <;> simp_all [replaceFirst]

theorem replaceFirst_append {r : Datum → Text × Datum} {before after : List (Text × Datum)}
    {d : Datum} (h : name ∉ before.map Prod.fst) :
    replaceFirst name r (before ++ (name, d) :: after) = before ++ r d :: after := by
  induction before with
  | nil => exact (replaceFirst_cons _).trans (if_pos rfl)
  | cons m before ih =>
    rw [List.map_cons, List.mem_cons, not_or] at h
    obtain ⟨hm, hbefore⟩ := h
    rw [List.cons_append, replaceFirst_cons, if_neg (Ne.symm hm), ih hbefore, List.cons_append]

theorem change_cons (name : Text) (m : Text × Datum) :
    change name f (m :: ms) = if m.1 = name then (name, f m.2) :: ms else m :: change name f ms :=
  replaceFirst_cons m

theorem change_of_not_mem (h : name ∉ ms.map Prod.fst) : change name f ms = ms := by
  refine List.lookmap_of_forall_not _ fun m hm => if_neg ?_
  rintro rfl
  exact h (List.mem_map_of_mem hm)

/-- Changing values to themselves changes nothing. -/
theorem change_of_forall_eq (h : ∀ m ∈ ms, f m.2 = m.2) : change name f ms = ms := by
  induction ms with
  | nil => rfl
  | cons m ms ih =>
    obtain ⟨hm, hms⟩ := List.forall_mem_cons.1 h
    rw [change_cons, ih hms]
    split
    · rename_i hname
      rw [hm, ← hname]
    · rfl

@[simp]
theorem map_fst_change : (change name f ms).map Prod.fst = ms.map Prod.fst := by
  induction ms with
  | nil => rfl
  | cons m ms ih =>
    rw [change_cons]
    split
    · rename_i hname
      rw [List.map_cons, List.map_cons, hname]
    · rw [List.map_cons, List.map_cons, ih]

theorem change_change : change name f (change name g ms) = change name (f ∘ g) ms := by
  induction ms with
  | nil => rfl
  | cons m ms ih =>
    rw [change_cons, change_cons]
    split
    · rw [change_cons, if_pos rfl]
      rfl
    · rename_i hname
      rw [change_cons, if_neg hname, ih]

/-- **Changes of members of different names commute.** -/
theorem change_comm (hne : name ≠ name') :
    change name f (change name' g ms) = change name' g (change name f ms) := by
  induction ms with
  | nil => rfl
  | cons m ms ih =>
    by_cases hname : m.1 = name
    · have hname' : m.1 ≠ name' := hname ▸ hne
      rw [change_cons name' m, if_neg hname', change_cons, if_pos hname,
        change_cons name m, if_pos hname, change_cons, if_neg hne]
    · by_cases hname' : m.1 = name'
      · rw [change_cons name' m, if_pos hname', change_cons, if_neg (Ne.symm hne),
          change_cons name m, if_neg hname, change_cons, if_pos hname']
      · rw [change_cons name' m, if_neg hname', change_cons, if_neg hname,
          change_cons name m, if_neg hname, change_cons, if_neg hname', ih]

section Put

variable {new new' : Datum}

theorem names_iff : names name ms = true ↔ name ∈ ms.map Prod.fst := by
  simp [names]

theorem put_of_mem (h : name ∈ ms.map Prod.fst) : put name f new ms = change name f ms :=
  if_pos (names_iff.2 h)

theorem put_of_not_mem (h : name ∉ ms.map Prod.fst) :
    put name f new ms = ms ++ [(name, new)] :=
  if_neg (mt names_iff.1 h)

theorem mem_map_fst_put : name ∈ (put name f new ms).map Prod.fst := by
  by_cases hname : name ∈ ms.map Prod.fst
  · rwa [put_of_mem hname, map_fst_change]
  · rw [put_of_not_mem hname]
    simp

theorem change_put : change name g (put name f new ms) = put name (g ∘ f) (g new) ms := by
  by_cases hname : name ∈ ms.map Prod.fst
  · rw [put_of_mem hname, put_of_mem hname, change_change]
  · rw [put_of_not_mem hname, put_of_not_mem hname]
    exact replaceFirst_append hname

theorem put_put : put name g new' (put name f new ms) = put name (g ∘ f) (g new) ms := by
  rw [put_of_mem mem_map_fst_put, change_put]

theorem put_change : put name f new (change name g ms) = put name (f ∘ g) new ms := by
  have hsame : (change name g ms).map Prod.fst = ms.map Prod.fst := map_fst_change
  by_cases hname : name ∈ ms.map Prod.fst
  · rw [put_of_mem (hsame ▸ hname), put_of_mem hname, change_change]
  · rw [put_of_not_mem (hsame ▸ hname), put_of_not_mem hname, change_of_not_mem hname]

end Put

end Datum

open Datum

/-! ### Edits of an object -/

/-- An edit does to the members of an object what `F` does. -/
def Edit.Acts {α : Type} (e : Edit α) (F : List (Text × Datum) → List (Text × Datum)) : Prop :=
  ∀ o : Object, (e o).2.entries = F o.entries

namespace Object

variable {o : Object} {name : Text} {s : Spot}

theorem mem_names_of_spot? (h : spot? o name = some s) : name ∈ o.entries.map Prod.fst := by
  rw [entries_of_spot? h]
  simp

theorem entries_replaceFirst (h : spot? o name = some s) (here : Member) :
    (withSpot o { s with here := here }).entries =
      replaceFirst name (fun _ => here.entry) o.entries := by
  have hnot : name ∉ (s.before.map Member.entry).map Prod.fst := by
    rw [map_fst_entry]
    exact not_mem_before_of_spotIn? h
  rw [entries_withSpot, entries_of_spot? h, replaceFirst_append hnot]

/-- Another node for a member changes its value. -/
theorem entries_change (h : spot? o name = some s) {n : Node} {f : Datum → Datum}
    (hn : n.datum = f s.here.node.datum) :
    (withSpot o (s.setNode n)).entries = change name f o.entries := by
  have hnot : name ∉ (s.before.map Member.entry).map Prod.fst := by
    rw [map_fst_entry]
    exact not_mem_before_of_spotIn? h
  rw [entries_setNode h, entries_of_spot? h, change, replaceFirst_append hnot, hn]

theorem entries_setOrPush (o : Object) (name : Text) (n : Node) :
    (setOrPush o name n).entries = put name (fun _ => n.datum) n.datum o.entries := by
  rw [setOrPush]
  cases hs : spot? o name with
  | some s => exact (entries_change hs rfl).trans (put_of_mem (mem_names_of_spot? hs)).symm
  | none => exact (entries_push _ _).trans (put_of_not_mem (not_mem_of_spot?_eq_none hs)).symm

theorem entries_eraseFirst (o : Object) (name : Text) :
    (removeFirst o name).entries = o.entries.eraseP fun m => m.1 == name := by
  cases hs : spot? o name with
  | some s =>
    have hnot : ∀ m ∈ s.before.map Member.entry, ¬(m.1 == name) = true := by
      rintro m hm hname
      refine not_mem_before_of_spotIn? hs ?_
      rw [← map_fst_entry, ← beq_iff_eq.1 hname]
      exact List.mem_map_of_mem hm
    rw [entries_removeFirst hs, entries_of_spot? hs, List.eraseP_append_right _ hnot,
      List.eraseP_cons_of_pos (by simp)]
  | none =>
    rw [removeFirst_of_spot?_eq_none hs, List.eraseP_of_forall_not]
    rintro m hm hname
    exact not_mem_of_spot?_eq_none hs (beq_iff_eq.1 hname ▸ List.mem_map_of_mem hm)

end Object

/-! ### Edits of the settings of a package -/

/-- Texts put at the end of a list. -/
def Datum.pushTexts (values : List Text) : Datum → Datum
  | .array ds => .array (ds ++ values.map .string)
  | d => d

theorem datum_pushTexts (es : Elements) (values : List Text) :
    (Node.array (EnvManifest.pushTexts es values)).datum =
      Datum.pushTexts values (Node.array es).datum := by
  rw [Node.datum_array, Node.datum_array, children_pushTexts, List.map_append, List.map_map]
  rfl

theorem acts_appendToSettings (name field : Text) (values : List Text) :
    (appendToSettings name field values).Acts
      (put field (Datum.pushTexts values) (.array (values.map .string))) := by
  have hnew : (Node.array (EnvManifest.pushTexts Composite.new values)).datum =
      .array (values.map .string) := by
    rw [datum_pushTexts, Node.datum_array]
    rfl
  intro o
  rw [appendToSettings]
  cases hs : spot? o field with
  | none =>
    rw [put_of_not_mem (not_mem_of_spot?_eq_none hs), ← hnew]
    exact entries_push _ _
  | some s =>
    rw [put_of_mem (mem_names_of_spot? hs)]
    -- what is no list is left alone
    have hself : s.here.node.datum = Datum.pushTexts values s.here.node.datum →
        o.entries = change field (Datum.pushTexts values) o.entries := by
      intro hn
      rw [← entries_change hs hn, withSpot_setNode_self hs]
    dsimp only
    cases hnode : s.here.node with
    | array es => exact entries_change hs (by rw [hnode, datum_pushTexts])
    | object ms => exact hself (by rw [hnode, Node.datum_object]; rfl)
    | null | bool b | number t | string l => exact hself (by rw [hnode]; rfl)

/-- The members of an entry with its patch mode set. -/
def Datum.patch (mode : PatchMode) (ms : List (Text × Datum)) : List (Text × Datum) :=
  if names patchKey ms then
    (change patchKey (fun _ => .string mode.toText) ms).eraseP fun m => m.1 == patchGlibcKey
  else if names patchGlibcKey ms then
    replaceFirst patchGlibcKey (fun _ => (patchKey, .string mode.toText)) ms
  else ms ++ [(patchKey, .string mode.toText)]

theorem acts_patchSettings (mode : PatchMode) : (patchSettings mode).Acts (Datum.patch mode) := by
  intro o
  rw [patchSettings, Datum.patch]
  dsimp only
  cases hs : spot? o patchKey with
  | some s =>
    rw [if_pos (names_iff.2 (mem_names_of_spot? hs))]
    exact (entries_eraseFirst _ _).trans (congrArg _ (entries_change hs rfl))
  | none =>
    rw [if_neg (mt names_iff.1 (not_mem_of_spot?_eq_none hs))]
    cases hs' : spot? o patchGlibcKey with
    | some s =>
      rw [if_pos (names_iff.2 (mem_names_of_spot? hs'))]
      exact entries_replaceFirst hs' _
    | none =>
      rw [if_neg (mt names_iff.1 (not_mem_of_spot?_eq_none hs'))]
      exact entries_push _ _

/-- An entry with its patch mode taken out. -/
def Datum.unpatch : Datum → Datum
  | .object ms =>
    .object ((ms.eraseP fun m => m.1 == patchKey).eraseP fun m => m.1 == patchGlibcKey)
  | d => d

/-! ### Edits of the packages -/

/-- The member that a package of an array is turned into. -/
def Datum.migratedEntry : Datum → Option (Text × Datum)
  | .string t => some ((VersionedName.ofText t).name, .string (VersionedName.ofText t).version)
  | _ => none

/-- Packages in a shape that settings can be put into. -/
def Datum.editable : Datum → Datum
  | .null => .object []
  | .array ds => .object (ds.filterMap migratedEntry)
  | d => d

/-- Packages with the entry of a name changed. -/
def Datum.changeEntry (name : Text) (f : Datum → Datum) : Datum → Datum
  | .object ms => .object (change name f ms)
  | d => d

/-- What the settings of an entry are made of. -/
def Datum.settings : Datum → List (Text × Datum)
  | .object ms => ms
  | .string (c :: cs) => [("version".toList, .string (c :: cs))]
  | _ => []

theorem datum_object_eq (o : Object) : (Node.object o).datum = .object o.entries :=
  Node.datum_object o

theorem datum_editablePackages (n : Node) : (editablePackages true n).datum = n.datum.editable := by
  cases n with
  | array es =>
    change (Node.object (migrated es)).datum = _
    rw [datum_object_eq, Node.datum_array, editable, entries, migrated, List.map_filterMap,
      List.filterMap_map]
    congr 2
    funext e
    obtain ⟨lead, label, node, trail, fresh⟩ := e
    cases node with
    | string l => rfl
    | object ms => simp [migratedElement, Node.text?, migratedEntry]
    | array es => simp [migratedElement, Node.text?, migratedEntry]
    | null | bool b | number t => rfl
  | object ms =>
    rw [Node.datum_object]
    exact Node.datum_object ms
  | null => exact datum_object_eq _
  | bool b | number t | string l => rfl

theorem entries_settingsOf (n : Node) : (settingsOf n).entries = n.datum.settings := by
  match n with
  | .object o => rw [datum_object_eq]; rfl
  | .string ⟨c :: cs, _⟩ => rfl
  | .string ⟨[], _⟩ => rfl
  | .array es => rw [Node.datum_array]; rfl
  | .null | .bool _ | .number _ => rfl

/-- An edit of the settings of a package changes its entry, once the packages are an
object. -/
theorem acts_editSettings (name : Text) {e : Edit Unit}
    {F : List (Text × Datum) → List (Text × Datum)} (he : e.Acts F) :
    (editSettings name e).Acts (put packagesKey
      (changeEntry name (fun d => .object (F d.settings)) ∘ editable) (.object [])) := by
  intro root
  rw [editSettings, packagesSpot]
  cases hs : spot? root packagesKey with
  | none =>
    rw [put_of_not_mem (not_mem_of_spot?_eq_none hs)]
    exact entries_push root _
  | some s =>
    rw [put_of_mem (mem_names_of_spot? hs)]
    have hset : ∀ {n : Node}, n.datum = changeEntry name (fun d => .object (F d.settings))
        (editablePackages true s.here.node).datum → (withSpot root (s.setNode n)).entries =
          change packagesKey (changeEntry name (fun d => .object (F d.settings)) ∘ editable)
            root.entries :=
      fun hn => entries_change hs (by rw [hn, datum_editablePackages]; rfl)
    dsimp only [Spot.setNode] at hset ⊢
    cases hnode : editablePackages true s.here.node with
    | object pkgs =>
      dsimp only
      cases hentry : spot? pkgs name with
      | none =>
        refine hset ?_
        rw [hnode, datum_object_eq, changeEntry, change_of_not_mem (not_mem_of_spot?_eq_none hentry)]
      | some entry =>
        refine hset ?_
        rw [hnode, datum_object_eq, datum_object_eq, changeEntry]
        refine congrArg Datum.object (entries_change hentry ?_)
        rw [datum_object_eq, he, entries_settingsOf]
    | array es => exact hset (by rw [hnode, Node.datum_array]; rfl)
    | null | bool b | number t | string l => exact hset (by rw [hnode]; rfl)

/-- Taking out a patch mode changes an entry in place. -/
theorem acts_removePatchMode (name : Text) :
    (removePatchMode name).Acts (change packagesKey (changeEntry name unpatch)) := by
  intro root
  rw [removePatchMode]
  cases hs : spot? root packagesKey with
  | none => exact (change_of_not_mem (not_mem_of_spot?_eq_none hs)).symm
  | some s =>
    have hself : s.here.node.datum = changeEntry name unpatch s.here.node.datum →
        root.entries = change packagesKey (changeEntry name unpatch) root.entries := by
      intro hn
      rw [← entries_change hs hn, withSpot_setNode_self hs]
    dsimp only
    cases hnode : s.here.node with
    | object pkgs =>
      rw [hnode, datum_object_eq, changeEntry] at hself
      dsimp only
      cases hentry : spot? pkgs name with
      | none => exact hself (by rw [change_of_not_mem (not_mem_of_spot?_eq_none hentry)])
      | some entry =>
        have hentryself : entry.here.node.datum = unpatch entry.here.node.datum →
            Datum.object (entries pkgs) = .object (change name unpatch (entries pkgs)) := by
          intro hn
          rw [← entries_change hentry hn, withSpot_setNode_self hentry]
        dsimp only
        cases hnode' : entry.here.node with
        | object settings =>
          refine entries_change hs ?_
          rw [hnode, datum_object_eq, datum_object_eq, changeEntry]
          refine congrArg Datum.object (entries_change hentry ?_)
          rw [hnode', datum_object_eq, datum_object_eq, unpatch, entries_eraseFirst,
            entries_eraseFirst]
        | array es => exact hself (hentryself (by rw [hnode', Node.datum_array]; rfl))
        | null | bool b | number t | string l => exact hself (hentryself (by rw [hnode']; rfl))
    | array es => exact hself (by rw [hnode, Node.datum_array]; rfl)
    | null | bool b | number t | string l => exact hself (by rw [hnode]; rfl)

/-! ### Tunings -/

/-- What a request about the settings of a package does to the members of a document: an entry
is changed after the packages have been put into an object, or an entry that is an object is
changed in place. -/
inductive Tuning (name : Text) : (List (Text × Datum) → List (Text × Datum)) → Prop
  | settings (f : Datum → Datum) :
    Tuning name (put packagesKey (changeEntry name f ∘ editable) (.object []))
  | inPlace {f : Datum → Datum} (hf : ∀ t, f (.string t) = .string t) :
    Tuning name (change packagesKey (changeEntry name f))

namespace Datum

variable {name name' : Text} {f g : Datum → Datum}

/-- Once an entry of editable packages has been changed, they stay editable. -/
theorem editable_changeEntry_editable (d : Datum) :
    (changeEntry name f d.editable).editable = changeEntry name f d.editable := by
  cases d <;> rfl

theorem changeEntry_comm (hne : name ≠ name') (d : Datum) :
    changeEntry name f (changeEntry name' g d) = changeEntry name' g (changeEntry name f d) := by
  cases d with
  | object ms => exact congrArg Datum.object (change_comm hne)
  | null | bool b | number t | string s | array ds => rfl

/-- A change that leaves a version as it is may come before the packages are put into an
object. -/
theorem editable_changeEntry (hf : ∀ t, f (.string t) = .string t) (d : Datum) :
    (changeEntry name f d).editable = changeEntry name f d.editable := by
  cases d with
  | array ds =>
    refine congrArg Datum.object (change_of_forall_eq fun m hm => ?_).symm
    obtain ⟨d, -, hd⟩ := List.mem_filterMap.1 hm
    cases d with
    | string t =>
      obtain rfl := Option.some.inj hd
      exact hf _
    | null | bool b | number t | array ds | object ms => simp [migratedEntry] at hd
  | null | bool b | number t | string s | object ms => rfl

end Datum

namespace Tuning

variable {name name' : Text} {F G : List (Text × Datum) → List (Text × Datum)}

/-- **Tunings of different packages commute.** -/
theorem comm (hF : Tuning name F) (hG : Tuning name' G) (hne : name ≠ name')
    (ms : List (Text × Datum)) : F (G ms) = G (F ms) := by
  cases hF with
  | settings f =>
    cases hG with
    | settings g =>
      rw [put_put, put_put]
      congr 1
      funext d
      simp only [Function.comp_apply, editable_changeEntry_editable]
      exact changeEntry_comm hne _
    | inPlace hg =>
      rw [put_change, change_put]
      congr 1
      funext d
      simp only [Function.comp_apply, editable_changeEntry hg]
      exact changeEntry_comm hne _
  | inPlace hf =>
    cases hG with
    | settings g =>
      rw [put_change, change_put]
      congr 1
      funext d
      simp only [Function.comp_apply, editable_changeEntry hf]
      exact changeEntry_comm hne _
    | inPlace hg =>
      rw [change_change, change_change]
      congr 1
      funext d
      exact changeEntry_comm hne _

/-- Doing nothing is a tuning. -/
theorem id (name : Text) : Tuning name fun ms => ms := by
  have hself : change packagesKey (changeEntry name fun d => d) = fun ms => ms := by
    funext ms
    refine change_of_forall_eq fun m _ => ?_
    cases m.2 with
    | object ms => exact congrArg Datum.object (change_of_forall_eq fun _ _ => rfl)
    | null | bool b | number t | string s | array ds => rfl
  exact hself ▸ inPlace fun _ => rfl

end Tuning

/-! ### Requests -/

/-- A request tunes the package of a name. -/
def Request.Tunes (name : Text) (r : Request) : Prop :=
  ∃ F, Tuning name F ∧ ∀ root : Object, (r.leave root).entries = F root.entries

namespace Request

variable (name : Text)

theorem tunes_appendToList (field : ListField) (values : List Text) :
    Tunes name (.appendToList name field values) := by
  cases values with
  | nil => exact ⟨_, Tuning.id name, fun _ => rfl⟩
  | cons v vs =>
    exact ⟨_, .settings _, acts_editSettings name (acts_appendToSettings name field.key (v :: vs))⟩

theorem tunes_setBool (field : Text) (on : Bool) : Tunes name (.setBool name field on) :=
  ⟨_, .settings _, acts_editSettings name fun o => entries_setOrPush o field (.bool on)⟩

theorem tunes_setPatchMode (mode : PatchMode) : Tunes name (.setPatchMode name mode) :=
  ⟨_, .settings _, acts_editSettings name (acts_patchSettings mode)⟩

theorem tunes_removePatchMode : Tunes name (.removePatchMode name) :=
  ⟨_, .inPlace fun _ => rfl, acts_removePatchMode name⟩

end Request

end EnvManifest
