import EnvManifest.Proofs.Edit.Environment
import EnvManifest.Proofs.Edit.Members
import EnvManifest.Proofs.Internal
import EnvManifest.Proofs.Migration

/-!
# Edits that find their work done

A field or a patch mode that is set to what it is already set to is written over by the node that
is there, and one that is not there is not taken out. So the second of two equal edits leaves the
root as it finds it, and a document without a mark is not laid out again.

What an edit has to find for that is seen in the outline of the document, which layout does not
change: the member of a field has the node in question, or there is no such member
(`Document.after_setString_setString`); or the settings of the package have the patch mode
(`PatchedAs`), or none (`Unpatched`), and are where edits look for them (`Object.SettingsIn`;
`Document.after_setPatchMode_setPatchMode`, `Document.after_removePatchMode_removePatchMode`).
That no second member of the name is left behind is due to names coming once in what was
decoded.
-/

namespace EnvManifest

open Manifest Object

/-- The name of a field comes once at most if names do. -/
theorem Datum.HasField.count_le {σ α : Type} {fields : List (Field σ)} {name : Text}
    {decode : Datum → Decoded α} {set : α → σ → σ} {ms : List (Text × Datum)}
    (hf : HasField fields name decode set) (h : NamesOnce fields ms) :
    (ms.map Prod.fst).count name ≤ 1 :=
  h _ (List.mem_of_find?_eq_some hf.find)

/-! ### Members and outlines -/

namespace Object

variable {o o' : Object} {name other : Text} {s : Spot}

theorem spot?_eq_none_iff : spot? o name = none ↔ name ∉ o.entries.map Prod.fst := by
  constructor
  · exact not_mem_of_spot?_eq_none
  · intro h
    cases hs : spot? o name with
    | none => rfl
    | some s => exact absurd (mem_names_of_spot? hs) h

theorem spot?_eq_none_of_outline (h : (Node.object o').outline = (Node.object o).outline)
    (hs : spot? o name = none) : spot? o' name = none := by
  cases hs' : spot? o' name with
  | none => rfl
  | some s =>
    obtain ⟨s', hs'', -⟩ := spot?_of_outline h.symm hs'
    simp [hs] at hs''

theorem spot?_push {m : Member} (hs : spot? o name = none) (hm : Member.name m = name) :
    spot? (o.push m) name = some ⟨o.children, m, []⟩ :=
  spotIn?_members (s := ⟨o.children, m, []⟩) (not_mem_of_spotIn?_eq_none hs) hm

/-- A name that comes once does not come any more when its member is gone. -/
theorem spot?_removeFirst (h : (o.entries.map Prod.fst).count name ≤ 1) :
    spot? (removeFirst o name) name = none := by
  cases hs : spot? o name with
  | none => rwa [removeFirst_of_spot?_eq_none hs]
  | some s =>
    rw [entries_of_spot? hs, List.map_append, List.map_cons, List.count_append,
      List.count_cons_self] at h
    rw [spot?_eq_none_iff, entries_removeFirst hs, List.map_append, List.mem_append, not_or,
      ← List.count_eq_zero, ← List.count_eq_zero]
    omega

/-- A member of another name stays when one is taken out. -/
theorem spot?_removeFirst_of_ne (hne : name ≠ other) (hs : spot? o name = some s) :
    ∃ s', spot? (removeFirst o other) name = some s' ∧ s'.here.node = s.here.node := by
  have hnode : (spot? (removeFirst o other) name).map (·.here.node) = some s.here.node := by
    rw [node_of_spot?_eq hne, apartFrom_removeFirst, ← node_of_spot?_eq hne, hs]
    rfl
  exact Option.map_eq_some_iff.1 hnode

end Object

/-- What has the outline of a text is that text. -/
theorem Node.eq_ofText_of_outline {n : Node} {t : Text} (h : n.outline = (Node.ofText t).outline) :
    n = Node.ofText t := by
  cases n with
  | string l => exact congrArg Node.string (Outline.string.inj h)
  | object ms => rw [outline_object] at h; simp [outline, ofText, outlining] at h
  | array es => rw [outline_array] at h; simp [outline, ofText, outlining] at h
  | null | bool b | number t => simp [outline, ofText, outlining] at h

namespace Document

/-- The root after a request has the outline that the request leaves. -/
theorem outline_after (d : Document) (r : Request) :
    (Node.object (d.after (some r)).root).outline = (Node.object (r.leave d.root)).outline := by
  have h := Value.outline_format (toValue { d with root := r.leave d.root })
  rwa [← toValue_format] at h

/-- **A request that leaves the root as it finds it** changes nothing in a document without a
mark. -/
theorem after_eq_self {d : Document} (h : d.Clean) {r : Request} (hr : r.leave d.root = d.root) :
    d.after (some r) = d := by
  rw [after, hr]
  exact h.format_eq

end Document

/-! ### Fields -/

namespace Document

variable {d : Document}

/-- **Setting a field to the same string again changes nothing.** -/
theorem after_setString_setString {key : Text} (value : Text)
    (honce : (d.root.entries.map Prod.fst).count key ≤ 1) :
    (d.after (some (.setString key value))).after (some (.setString key value)) =
      d.after (some (.setString key value)) := by
  have houtline := d.outline_after (.setString key value)
  have hclean : (d.after (some (.setString key value))).Clean := clean_format _
  refine after_eq_self hclean ?_
  rw [Request.leave, EnvManifest.setString] at houtline ⊢
  split at houtline
  · rename_i hempty
    rw [if_pos hempty]
    exact removeFirst_of_spot?_eq_none
      (spot?_eq_none_of_outline houtline (spot?_removeFirst honce))
  · rename_i hempty
    rw [if_neg hempty]
    obtain ⟨s, hs, hnode⟩ : ∃ s, spot? (setOrPush d.root key (Node.ofText value)) key = some s ∧
        s.here.node = Node.ofText value := by
      rw [setOrPush]
      cases hs : spot? d.root key with
      | some s => exact ⟨_, spot?_setNode hs _, rfl⟩
      | none => exact ⟨_, spot?_push hs rfl, rfl⟩
    obtain ⟨s', hs', hnode'⟩ := spot?_of_outline houtline hs
    rw [hnode] at hnode'
    rw [setOrPush, hs', ← Node.eq_ofText_of_outline hnode']
    exact withSpot_setNode_self hs'

end Document

/-! ### Settings of a package -/

/-- The packages are an object, and if one has the name, the first one that does has settings with
a property. -/
def Object.SettingsIn (P : Object → Prop) (name : Text) (root : Object) : Prop :=
  ∃ s pkgs, spot? root packagesKey = some s ∧ s.here.node = .object pkgs ∧
    ∀ entry, spot? pkgs name = some entry →
      ∃ settings, entry.here.node = .object settings ∧ P settings

/-- A property of objects that is seen in the outline. -/
def Object.Outlined (P : Object → Prop) : Prop :=
  ∀ o o' : Object, (Node.object o').outline = (Node.object o).outline → P o → P o'

section Settings

variable {P : Object → Prop} {name : Text} {root root' : Object} {e : Edit Unit}

/-- Layout does not change what is found. -/
theorem Object.SettingsIn.of_outline (hP : Outlined P) (h : SettingsIn P name root)
    (houtline : (Node.object root').outline = (Node.object root).outline) :
    SettingsIn P name root' := by
  obtain ⟨s, pkgs, hs, hnode, hsettings⟩ := h
  obtain ⟨s', hs', hnode'⟩ := spot?_of_outline houtline hs
  rw [hnode] at hnode'
  obtain ⟨pkgs', hpkgs'⟩ := Node.exists_object_of_outline hnode'
  rw [hpkgs'] at hnode'
  refine ⟨s', pkgs', hs', hpkgs', fun entry' hentry' => ?_⟩
  obtain ⟨entry, hentry, hsame⟩ := spot?_of_outline hnode'.symm hentry'
  obtain ⟨settings, hsettings, hp⟩ := hsettings entry hentry
  rw [hsettings] at hsame
  obtain ⟨settings', hsettings'⟩ := Node.exists_object_of_outline hsame.symm
  rw [hsettings'] at hsame
  exact ⟨settings', hsettings', hP settings settings' hsame.symm hp⟩

/-- What is put where an edit has found the packages is found there. -/
theorem spot?_withSpot_packagesSpot (migrate : Bool) (root : Object) (n : Node) :
    spot? (withSpot (packagesSpot migrate root).1 ((packagesSpot migrate root).2.setNode n))
      packagesKey = some ((packagesSpot migrate root).2.setNode n) := by
  rw [packagesSpot]
  cases hs : spot? root packagesKey with
  | some s => exact spot?_setNode hs n
  | none => exact spotIn?_members (not_mem_of_spotIn?_eq_none hs) rfl

/-- **The settings that an edit of settings leaves** are where edits look for them. -/
theorem settingsIn_editSettings {d : Nat} {S : Settings}
    (he : ∀ o t, EntryFields.decode o = .ok t → P (e o).2) (h : root.Gives d S) (name : Text) :
    SettingsIn P name (editSettings name e root).2 := by
  have hspot : packagesSpot true root =
      ((packagesSpot true root).1, (packagesSpot true root).2) := rfl
  obtain ⟨hin, hobject, -⟩ := gives_packagesSpot h true hspot
  obtain ⟨pkgs, hpkgs⟩ := hobject rfl
  rw [hpkgs] at hin
  cases hin with
  | object hps _ =>
    rw [editSettings]
    dsimp only
    rw [hpkgs]
    dsimp only
    cases hentry : spot? pkgs name with
    | none =>
      refine ⟨_, pkgs, spot?_withSpot_packagesSpot true root _, hpkgs, fun entry' hentry' => ?_⟩
      simp [hentry] at hentry'
    | some entry =>
      refine ⟨_, _, spot?_withSpot_packagesSpot true root _, rfl, fun entry' hentry' => ?_⟩
      rw [spot?_setNode hentry] at hentry'
      obtain rfl := Option.some.inj hentry'
      obtain ⟨-, p, -, -, hp, -⟩ := Package.decodeEntries_spot hentry hps
      obtain ⟨t, ht, -⟩ := decode_settingsOf hp
      exact ⟨_, rfl, he _ t ht⟩

/-- An edit of settings that leaves settings as they are leaves everything as it is. -/
theorem editSettings_eq_self (he : ∀ o, P o → (e o).2 = o) (h : SettingsIn P name root) :
    (editSettings name e root).2 = root := by
  obtain ⟨s, pkgs, hs, hnode, hsettings⟩ := h
  have hself : withSpot root (s.setNode (.object pkgs)) = root := by
    rw [← hnode]
    exact withSpot_setNode_self hs
  rw [editSettings, packagesSpot, hs]
  dsimp only
  rw [hnode]
  dsimp only [editablePackages, Spot.setNode] at hself ⊢
  cases hentry : spot? pkgs name with
  | none => exact hself
  | some entry =>
    obtain ⟨settings, hentrynode, hp⟩ := hsettings entry hentry
    have hpkgs :
        withSpot pkgs (entry.setNode (.object (e (settingsOf entry.here.node)).2)) = pkgs := by
      rw [hentrynode, settingsOf, he settings hp, ← hentrynode]
      exact withSpot_setNode_self hentry
    exact (congrArg (fun o => withSpot root (s.setNode (.object o))) hpkgs).trans hself

end Settings

/-! ### Patch modes -/

/-- Settings without a patch mode. -/
def Unpatched (settings : Object) : Prop :=
  spot? settings patchKey = none ∧ spot? settings patchGlibcKey = none

/-- Settings with a patch mode in the newer form, and in no other. -/
def PatchedAs (mode : PatchMode) (settings : Object) : Prop :=
  (∃ s, spot? settings patchKey = some s ∧ s.here.node = Node.ofText mode.toText) ∧
    spot? settings patchGlibcKey = none

theorem outlined_unpatched : Outlined Unpatched :=
  fun _ _ h hp => ⟨spot?_eq_none_of_outline h hp.1, spot?_eq_none_of_outline h hp.2⟩

theorem outlined_patchedAs (mode : PatchMode) : Outlined (PatchedAs mode) := by
  rintro o o' h ⟨⟨s, hs, hnode⟩, hnone⟩
  obtain ⟨s', hs', hnode'⟩ := spot?_of_outline h hs
  rw [hnode] at hnode'
  exact ⟨⟨s', hs', Node.eq_ofText_of_outline hnode'⟩, spot?_eq_none_of_outline h hnone⟩

theorem patchKey_ne_patchGlibcKey : patchKey ≠ patchGlibcKey := by decide

/-- **Setting the patch mode** leaves settings with that mode. -/
theorem patchedAs_patchSettings (mode : PatchMode) {o : Object} {t : EntryFields}
    (h : EntryFields.decode o = .ok t) : PatchedAs mode (patchSettings mode o).2 := by
  have honce : Datum.NamesOnce EntryFields.fields o.entries := Datum.namesOnce_of_decodeMembers h
  have hglibc := EntryFields.hasField_patchGlibc.count_le honce
  rw [patchSettings]
  dsimp only
  cases hs : spot? o patchKey with
  | some s =>
    have hset := spot?_setNode hs (Node.ofText mode.toText)
    obtain ⟨s', hs', hnode'⟩ := spot?_removeFirst_of_ne patchKey_ne_patchGlibcKey hset
    refine ⟨⟨s', hs', hnode'⟩, spot?_removeFirst ?_⟩
    rw [entries_change hs (f := fun _ => (Node.ofText mode.toText).datum) rfl, Datum.map_fst_change]
    exact hglibc
  | none =>
    cases hs' : spot? o patchGlibcKey with
    | some s =>
      -- the member is renamed in place, and was the only one of its name
      have hnone := not_mem_of_spot?_eq_none hs
      rw [entries_of_spot? hs', List.map_append, List.mem_append, not_or] at hnone
      rw [entries_of_spot? hs', List.map_append, List.map_cons, List.count_append,
        List.count_cons_self] at hglibc
      refine ⟨⟨_, spotIn?_members ?_ rfl, rfl⟩, ?_⟩
      · rw [← map_fst_entry]
        exact hnone.1
      · rw [spot?_eq_none_iff, entries_withSpot, List.map_append, List.map_cons, List.mem_append,
          List.mem_cons, not_or, not_or, ← List.count_eq_zero, ← List.count_eq_zero]
        dsimp only
        exact ⟨by omega, Ne.symm patchKey_ne_patchGlibcKey, by omega⟩
    | none =>
      refine ⟨⟨_, spot?_push hs rfl, rfl⟩, ?_⟩
      rw [spot?_eq_none_iff, entries_push, List.map_append, List.mem_append, not_or]
      exact ⟨not_mem_of_spot?_eq_none hs', fun hmem =>
        patchKey_ne_patchGlibcKey (List.mem_singleton.1 hmem).symm⟩

/-- Settings with that mode are left as they are. -/
theorem patchSettings_eq_self {mode : PatchMode} {o : Object} (h : PatchedAs mode o) :
    (patchSettings mode o).2 = o := by
  obtain ⟨⟨s, hs, hnode⟩, hnone⟩ := h
  have hself : withSpot o (s.setNode (Node.ofText mode.toText)) = o := by
    rw [← hnode]
    exact withSpot_setNode_self hs
  rw [patchSettings]
  dsimp only
  rw [hs]
  dsimp only
  rw [hself, removeFirst_of_spot?_eq_none hnone]

/-- **Taking out the patch mode** leaves settings without one. -/
theorem unpatched_removeFirst {o : Object} {t : EntryFields} (h : EntryFields.decode o = .ok t) :
    Unpatched (removeFirst (removeFirst o patchKey) patchGlibcKey) := by
  have honce : Datum.NamesOnce EntryFields.fields o.entries := Datum.namesOnce_of_decodeMembers h
  have hpatch := EntryFields.hasField_patch.count_le honce
  have hglibc := EntryFields.hasField_patchGlibc.count_le honce
  have hsub : ∀ (o : Object) name, ((removeFirst o name).entries.map Prod.fst).Sublist
      (o.entries.map Prod.fst) := by
    intro o name
    rw [entries_eraseFirst]
    exact List.eraseP_sublist.map _
  refine ⟨?_, spot?_removeFirst ?_⟩
  · rw [spot?_eq_none_iff]
    intro hmem
    exact spot?_eq_none_iff.1 (spot?_removeFirst hpatch) ((hsub _ _).subset hmem)
  · exact ((hsub o patchKey).count_le patchGlibcKey).trans hglibc

/-- Settings without a patch mode are left as they are. -/
theorem removePatchMode_eq_self {name : Text} {root : Object} (h : SettingsIn Unpatched name root) :
    (removePatchMode name root).2 = root := by
  obtain ⟨s, pkgs, hs, hnode, hsettings⟩ := h
  rw [removePatchMode, hs]
  dsimp only
  rw [hnode]
  dsimp only
  cases hentry : spot? pkgs name with
  | none => rfl
  | some entry =>
    obtain ⟨settings, hentrynode, hpatch, hglibc⟩ := hsettings entry hentry
    have hkept : removeFirst (removeFirst settings patchKey) patchGlibcKey = settings := by
      rw [removeFirst_of_spot?_eq_none hpatch, removeFirst_of_spot?_eq_none hglibc]
    dsimp only
    rw [hentrynode]
    dsimp only
    rw [hkept, ← hentrynode, withSpot_setNode_self hentry, ← hnode, withSpot_setNode_self hs]

/-- Taking out a patch mode leaves the root as it was, or settings without a mode. -/
theorem removePatchMode_eq_or_settingsIn {d : Nat} {S : Settings} {root : Object}
    (h : root.Gives d S) (name : Text) : (removePatchMode name root).2 = root ∨
      SettingsIn Unpatched name (removePatchMode name root).2 := by
  refine removePatchMode_cases name root (Or.inl rfl) fun hs hnode hentry hsettings => ?_
  refine Or.inr ⟨_, _, spot?_setNode hs _, rfl, fun entry' hentry' => ?_⟩
  rw [spot?_setNode hentry] at hentry'
  obtain rfl := Option.some.inj hentry'
  refine ⟨_, rfl, ?_⟩
  obtain ⟨hin | ⟨hnull, -⟩, -⟩ := gives_packages h hs
  · rw [hnode] at hin
    cases hin with
    | object hps _ =>
      obtain ⟨-, p, -, -, hp, -⟩ := Package.decodeEntries_spot hentry hps
      obtain ⟨t, ht, -⟩ := decode_settingsOf hp
      rw [hsettings] at ht
      exact unpatched_removeFirst ht
  · simp [hnode] at hnull

namespace Document

variable {d : Document} {S : Settings}

/-- **Setting the same patch mode again changes nothing.** -/
theorem after_setPatchMode_setPatchMode (h : d.Says S) (name : Text) (mode : PatchMode) :
    (d.after (some (.setPatchMode name mode))).after (some (.setPatchMode name mode)) =
      d.after (some (.setPatchMode name mode)) := by
  have hclean : (d.after (some (.setPatchMode name mode))).Clean := clean_format _
  refine after_eq_self hclean ?_
  have hleft := settingsIn_editSettings (P := PatchedAs mode) (e := patchSettings mode)
    (fun _ _ ht => patchedAs_patchSettings mode ht) h.gives name
  have hfound := hleft.of_outline (outlined_patchedAs mode)
    (d.outline_after (.setPatchMode name mode))
  exact editSettings_eq_self (fun _ => patchSettings_eq_self) hfound

/-- **Taking out the patch mode again changes nothing.** -/
theorem after_removePatchMode_removePatchMode (hclean : d.Clean) (h : d.Says S) (name : Text) :
    (d.after (some (.removePatchMode name))).after (some (.removePatchMode name)) =
      d.after (some (.removePatchMode name)) := by
  rcases removePatchMode_eq_or_settingsIn h.gives name with hkept | hleft
  · have hself : d.after (some (.removePatchMode name)) = d := after_eq_self hclean hkept
    rw [hself, hself]
  · have hlaid : (d.after (some (.removePatchMode name))).Clean := clean_format _
    refine after_eq_self hlaid ?_
    exact removePatchMode_eq_self (hleft.of_outline outlined_unpatched
      (d.outline_after (.removePatchMode name)))

end Document

end EnvManifest
