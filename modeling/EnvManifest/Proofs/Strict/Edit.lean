import EnvManifest.Proofs.Edit.Cases
import EnvManifest.Proofs.Edit.Request
import EnvManifest.Proofs.Edit.Leave
import EnvManifest.Proofs.Strict.Layout

/-!
# Editing plain trees

Whatever a request asks for, it leaves a plain tree of a plain one
(`Request.plainTree_leave`): edits put in children whose slots are empty or a newline, glue slots
that were there, and touch no trailing comma. This is said of each of the few things that
edits are made of, and then of the edits one after the other.
-/

namespace EnvManifest

open Composite Object

/-! ### Slots -/

theorem Spaces.cons {c : Char} {s : Text} (hc : isWhite c = true) (hs : Spaces s) :
    Spaces (c :: s) :=
  (spaces_singleton hc).append hs

theorem Spaces.of_subset {s t : Text} (hs : Spaces s) (h : ∀ c ∈ t, c ∈ s) : Spaces t :=
  fun c hc => hs c (h c hc)

/-- What is on the line of the token in front is part of the slot. -/
theorem spaces_sameLine {s : Text} (h : Spaces s) : Spaces (sameLine s) := by
  rw [sameLine]
  split
  · exact spaces_nil
  · split
    · split
      · exact h.of_subset fun c hc => List.mem_of_mem_take hc
      · exact h
    · exact spaces_nil

theorem spaces_trim {s : Text} (h : Spaces s) : Spaces s.trim := by
  refine h.of_subset fun c hc => ?_
  have hend : c ∈ s.dropWhile isBlank := Text.mem_of_mem_dropEndWhile hc
  exact (List.dropWhile_suffix isBlank).mem hend

/-! ### Composites -/

/-- A composite is plain with everything in it. -/
structure Composite.PlainTree {κ : Type} [Label κ] (c : Composite κ Node) : Prop where
  here : c.Plain Spaces
  inner : ∀ m ∈ c.children, m.node.Plain Spaces

theorem Node.plain_object {o : Object} : (Node.object o).Plain Spaces ↔ o.PlainTree :=
  everywhere_object.trans ⟨fun h => ⟨h.1, h.2⟩, fun h => ⟨h.here, h.inner⟩⟩

theorem Node.plain_array {es : Elements} : (Node.array es).Plain Spaces ↔ es.PlainTree :=
  everywhere_array.trans ⟨fun h => ⟨h.1, h.2⟩, fun h => ⟨h.here, h.inner⟩⟩

theorem Node.plain_ofText (s : Text) : (Node.ofText s).Plain Spaces :=
  everywhere_string.2 trivial

namespace Composite

variable {κ : Type} [Label κ] {c : Composite κ Node}

theorem plainTree_new : (Composite.new : Composite κ Node).PlainTree :=
  ⟨⟨by simp [Composite.new], spaces_nil, rfl⟩, by simp [Composite.new]⟩

/-- One more child at the end. -/
theorem PlainTree.push (h : c.PlainTree) {m : Child κ Node} (hm : m.Plain Spaces)
    (hn : m.node.Plain Spaces) : (c.push m).PlainTree := by
  refine ⟨⟨fun k hk => ?_, h.here.closing, h.here.comma⟩, fun k hk => ?_⟩
  · rcases List.mem_append.1 hk with hk | hk
    · exact h.here.children k hk
    · obtain rfl := List.mem_singleton.1 hk
      exact hm
  · rcases List.mem_append.1 hk with hk | hk
    · exact h.inner k hk
    · obtain rfl := List.mem_singleton.1 hk
      exact hn

/-- A child less: a slot that was there is glued to the next one. -/
theorem PlainTree.remove (h : c.PlainTree) (i : Nat) : (c.remove i).PlainTree := by
  have htake : ∀ {m}, m ∈ c.children.take i → m ∈ c.children := fun hm => List.mem_of_mem_take hm
  have hdrop : ∀ {m}, m ∈ c.children.drop i → m ∈ c.children := fun hm => List.mem_of_mem_drop hm
  rw [Composite.remove]
  split
  · exact h
  · rename_i removed hremoved
    have hlead := (h.here.children removed (hdrop (by simp [hremoved]))).lead
    exact ⟨⟨fun m hm => h.here.children m (htake hm),
      (spaces_sameLine hlead).append h.here.closing, h.here.comma⟩, fun m hm => h.inner m (htake hm)⟩
  · rename_i removed next rest hremoved
    have hlead := (h.here.children removed (hdrop (by simp [hremoved]))).lead
    have hnext := h.here.children next (hdrop (by simp [hremoved]))
    refine ⟨⟨fun m hm => ?_, h.here.closing, h.here.comma⟩, fun m hm => ?_⟩
    · rcases List.mem_append.1 hm with hm | hm
      · exact h.here.children m (htake hm)
      · rcases List.mem_cons.1 hm with rfl | hm
        · exact ⟨(spaces_sameLine hlead).append hnext.lead, hnext.label, hnext.trail⟩
        · exact h.here.children m (hdrop (by simp [hremoved, hm]))
    · rcases List.mem_append.1 hm with hm | hm
      · exact h.inner m (htake hm)
      · rcases List.mem_cons.1 hm with rfl | hm
        · exact h.inner next (hdrop (by simp [hremoved]))
        · exact h.inner m (hdrop (by simp [hremoved, hm]))

end Composite

/-! ### Children that edits make -/

theorem Member.plain_onOwnLine (name : Text) (n : Node) : (Member.onOwnLine name n).Plain Spaces := by
  refine ⟨spaces_singleton rfl, fun t ht => ?_, spaces_nil⟩
  rcases List.mem_pair.1 ht with rfl | rfl <;> exact spaces_nil

theorem Member.plain_new (name : Text) (n : Node) : (Member.new name n).Plain Spaces := by
  refine ⟨spaces_nil, fun t ht => ?_, spaces_nil⟩
  rcases List.mem_pair.1 ht with rfl | rfl <;> exact spaces_nil

theorem Value.plain_fresh {lead : Text} (hlead : Spaces lead) (n : Node) :
    Child.Plain Spaces (⟨lead, (), n, [], true⟩ : Value) :=
  ⟨hlead, fun _ ht => absurd ht List.not_mem_nil, spaces_nil⟩

/-! ### Members by name -/

namespace Object

variable {o : Object} {name : Text} {s : Spot} {n : Node}

theorem plain_of_spot? (h : o.PlainTree) (hs : spot? o name = some s) :
    s.here.Plain Spaces ∧ s.here.node.Plain Spaces :=
  ⟨h.here.children _ (mem_of_spot? hs), h.inner _ (mem_of_spot? hs)⟩

/-- Another member in the place of one. -/
theorem plainTree_withSpot (h : o.PlainTree) (hs : s.members = o.children) {here : Member}
    (hhere : here.Plain Spaces) (hn : here.node.Plain Spaces) :
    PlainTree (withSpot o { s with here := here }) := by
  have hmem : ∀ m, m ∈ s.before ++ here :: s.after → m = here ∨ m ∈ o.children := by
    intro m hm
    rw [← hs]
    rcases List.mem_append.1 hm with hm | hm
    · exact Or.inr (List.mem_append_left _ hm)
    · rcases List.mem_cons.1 hm with rfl | hm
      · exact Or.inl rfl
      · exact Or.inr (List.mem_append_right _ (List.mem_cons_of_mem _ hm))
  refine ⟨⟨fun m hm => ?_, h.here.closing, h.here.comma⟩, fun m hm => ?_⟩
  · rcases hmem m hm with rfl | hm
    · exact hhere
    · exact h.here.children m hm
  · rcases hmem m hm with rfl | hm
    · exact hn
    · exact h.inner m hm

/-- Another node for the first member of a name. -/
theorem plainTree_setNode (h : o.PlainTree) (hs : spot? o name = some s)
    (hn : n.Plain Spaces) : PlainTree (withSpot o (s.setNode n)) := by
  obtain ⟨hhere, -⟩ := plain_of_spot? h hs
  have hthere : Child.Plain Spaces { s.here with node := n } :=
    ⟨hhere.lead, hhere.label, hhere.trail⟩
  exact plainTree_withSpot h (members_of_spot? hs) hthere hn

theorem plainTree_onOwnLine (h : o.PlainTree) (name : Text) (hn : n.Plain Spaces) :
    PlainTree (o.push (Member.onOwnLine name n)) :=
  h.push (Member.plain_onOwnLine name n) hn

theorem plainTree_removeFirst (h : o.PlainTree) (name : Text) : PlainTree (removeFirst o name) := by
  rw [removeFirst]
  split
  · exact h.remove _
  · exact h

theorem plainTree_setOrPush (h : o.PlainTree) (name : Text) (hn : n.Plain Spaces) :
    PlainTree (setOrPush o name n) := by
  rw [setOrPush]
  split
  · rename_i s hs
    exact plainTree_setNode h hs hn
  · exact plainTree_onOwnLine h name hn

end Object

/-! ### Packages and settings in another shape -/

theorem plainTree_pushTexts {es : Elements} (h : es.PlainTree) (values : List Text) :
    (pushTexts es values).PlainTree := by
  induction values generalizing es with
  | nil => exact h
  | cons v values ih =>
    exact ih (h.push (Value.plain_fresh spaces_nil (Node.ofText v)) (Node.plain_ofText v))

theorem plainTree_migrated {es : Elements} (h : es.PlainTree) : (migrated es).PlainTree := by
  have hmember : ∀ m ∈ (migrated es).children, m.Plain Spaces ∧ m.node.Plain Spaces := by
    intro m hm
    obtain ⟨e, he, hmigrated⟩ := List.mem_filterMap.1 hm
    have hplain := h.here.children e he
    rw [migratedElement] at hmigrated
    split at hmigrated
    · simp at hmigrated
    · obtain rfl := Option.some.inj hmigrated
      refine ⟨⟨?_, fun t ht => ?_, ?_⟩, Node.plain_ofText _⟩
      · dsimp only
        split
        · exact spaces_singleton rfl
        · exact ((spaces_trim hplain.lead).cons rfl).append (spaces_singleton rfl)
      · rcases List.mem_pair.1 ht with rfl | rfl <;> exact spaces_nil
      · dsimp only
        rw [hplain.trail.hasComment_eq_false]
        exact spaces_nil
  exact ⟨⟨fun m hm => (hmember m hm).1, h.here.closing, rfl⟩, fun m hm => (hmember m hm).2⟩

theorem plain_editablePackages (migrate : Bool) {n : Node} (h : n.Plain Spaces) :
    (editablePackages migrate n).Plain Spaces := by
  cases n with
  | null => exact Node.plain_object.2 plainTree_new
  | array es =>
    rw [editablePackages]
    split
    · exact Node.plain_object.2 (plainTree_migrated (Node.plain_array.1 h))
    · exact h
  | object o | bool b | number t | string l => exact h

theorem plainTree_settingsOf {entry : Node} (h : entry.Plain Spaces) :
    (settingsOf entry).PlainTree := by
  match entry with
  | .object o => exact Node.plain_object.1 h
  | .string ⟨c :: cs, raw⟩ =>
    exact plainTree_onOwnLine plainTree_new "version".toList (Node.plain_ofText (c :: cs))
  | .string ⟨[], raw⟩ => exact plainTree_new
  | .null | .bool b | .number t | .array es => exact plainTree_new

theorem plain_entryWithVersion {version : Text} {entry n : Node} (h : entry.Plain Spaces)
    (hn : entryWithVersion? version entry = some n) : n.Plain Spaces := by
  have hversion := Node.plain_ofText version
  cases entry with
  | object o =>
    have ho := Node.plain_object.1 h
    simp only [entryWithVersion?] at hn
    split at hn
    · rename_i s hs
      split at hn
      · obtain rfl := Option.some.inj hn
        exact Node.plain_object.2 (plainTree_removeFirst ho _)
      · split at hn
        · simp at hn
        · obtain rfl := Option.some.inj hn
          exact Node.plain_object.2 (plainTree_setNode ho hs hversion)
    · split at hn
      · simp at hn
      · obtain rfl := Option.some.inj hn
        exact Node.plain_object.2 (plainTree_onOwnLine ho _ hversion)
  | string l =>
    simp only [entryWithVersion?] at hn
    split at hn
    · simp at hn
    · obtain rfl := Option.some.inj hn
      exact hversion
  | null | bool b | number t | array es =>
    obtain rfl := Option.some.inj hn
    exact hversion

theorem plainTree_envObject (ownLine : Bool) (env : Table Text) :
    (envObject ownLine env).PlainTree := by
  have hmember : ∀ m ∈ (envObject ownLine env).children,
      m.Plain Spaces ∧ m.node.Plain Spaces := by
    intro m hm
    obtain ⟨⟨name, value⟩, -, rfl⟩ := List.mem_map.1 hm
    cases ownLine with
    | true => exact ⟨Member.plain_onOwnLine name _, Node.plain_ofText value⟩
    | false => exact ⟨Member.plain_new name _, Node.plain_ofText value⟩
  exact ⟨⟨fun m hm => (hmember m hm).1, spaces_nil, rfl⟩, fun m hm => (hmember m hm).2⟩

/-! ### The packages of a root -/

/-- The packages that an edit works on, singled out in a plain root. -/
structure PlainSpot (root : Object) (s : Spot) : Prop where
  here : s.here.Plain Spaces
  node : s.here.node.Plain Spaces
  back : ∀ here : Member, here.Plain Spaces → here.node.Plain Spaces →
    PlainTree (withSpot root { s with here := here })

theorem plainSpot_packagesSpot {root : Object} (h : root.PlainTree) (migrate : Bool) :
    PlainSpot (packagesSpot migrate root).1 (packagesSpot migrate root).2 := by
  have hnew := Node.plain_object.2 plainTree_new
  cases hs : spot? root packagesKey with
  | none =>
    simp only [packagesSpot, hs]
    have hpushed := plainTree_onOwnLine h packagesKey hnew
    exact ⟨Member.plain_onOwnLine packagesKey _, hnew, fun here hhere hn =>
      plainTree_withSpot (s := ⟨root.children, Member.onOwnLine packagesKey _, []⟩)
        hpushed rfl hhere hn⟩
  | some s =>
    obtain ⟨hhere, hn⟩ := plain_of_spot? h hs
    simp only [packagesSpot, hs]
    exact ⟨⟨hhere.lead, hhere.label, hhere.trail⟩, plain_editablePackages migrate hn,
      fun here hhere hn => plainTree_withSpot h (members_of_spot? hs) hhere hn⟩

namespace PlainSpot

variable {root : Object} {s : Spot} {n : Node}

/-- Another node for the packages. -/
theorem setNode (h : PlainSpot root s) (hn : n.Plain Spaces) :
    PlainTree (withSpot root (s.setNode n)) :=
  h.back { s.here with node := n } ⟨h.here.lead, h.here.label, h.here.trail⟩ hn

theorem unchanged (h : PlainSpot root s) : PlainTree (withSpot root s) :=
  h.back s.here h.here h.node

/-- The packages put back on a line of their own. -/
theorem putPackages (h : PlainSpot root s) (hn : n.Plain Spaces) (changed : Bool) :
    (putPackages root (s.setNode n) changed).PlainTree := by
  rw [EnvManifest.putPackages]
  split
  · have hline := h.back { s.here with lead := '\n' :: s.here.lead, node := n, fresh := true }
      ⟨h.here.lead.cons rfl, h.here.label, h.here.trail⟩ hn
    exact ⟨⟨hline.here.children, hline.here.closing, hline.here.comma⟩, hline.inner⟩
  · exact h.setNode hn

end PlainSpot

/-! ### Edits -/

section Edits

variable {root : Object}

theorem plainTree_addPackage (h : root.PlainTree) (v : VersionedName) :
    (addPackage v root).2.PlainTree := by
  have hspot := plainSpot_packagesSpot h false
  refine addPackage_cases v root ?kept ?version ?name ?element
  case kept => exact hspot.unchanged
  case version =>
    intro pkgs entry n hn hentry hversion
    have hpkgs := Node.plain_object.1 (hn ▸ hspot.node)
    obtain ⟨-, hnode⟩ := plain_of_spot? hpkgs hentry
    exact hspot.putPackages (Node.plain_object.2
      (plainTree_setNode hpkgs hentry (plain_entryWithVersion hnode hversion))) true
  case name =>
    intro pkgs hn _
    have hpkgs := Node.plain_object.1 (hn ▸ hspot.node)
    exact hspot.putPackages (Node.plain_object.2
      (plainTree_onOwnLine hpkgs v.name (Node.plain_ofText v.version))) true
  case element =>
    intro es hn
    have hes := Node.plain_array.1 (hn ▸ hspot.node)
    have hlead : Spaces (if es.children.isEmpty then [] else ['\n']) := by
      split
      · exact spaces_nil
      · exact spaces_singleton rfl
    exact hspot.putPackages (Node.plain_array.2
      (hes.push (Value.plain_fresh hlead _) (Node.plain_ofText v.toText))) true

theorem plainTree_removePackage (h : root.PlainTree) (v : VersionedName) :
    (removePackage v root).2.PlainTree := by
  refine removePackage_cases v root h ?name ?element
  case name =>
    intro s pkgs hs hn
    have hpkgs := Node.plain_object.1 (hn ▸ (plain_of_spot? h hs).2)
    exact plainTree_setNode h hs (Node.plain_object.2 (plainTree_removeFirst hpkgs v.name))
  case element =>
    intro s es i hs hn _
    have hes := Node.plain_array.1 (hn ▸ (plain_of_spot? h hs).2)
    exact plainTree_setNode h hs (Node.plain_array.2 (hes.remove i))

theorem plainTree_editSettings (h : root.PlainTree) (name : Text) {e : Edit Unit}
    (he : ∀ o : Object, o.PlainTree → (e o).2.PlainTree) :
    (editSettings name e root).2.PlainTree := by
  have hspot := plainSpot_packagesSpot h true
  refine editSettings_cases name e root hspot.unchanged fun hn hentry => ?_
  have hpkgs := Node.plain_object.1 (hn ▸ hspot.node)
  obtain ⟨-, hnode⟩ := plain_of_spot? hpkgs hentry
  exact hspot.setNode (Node.plain_object.2 (plainTree_setNode hpkgs hentry
    (Node.plain_object.2 (he _ (plainTree_settingsOf hnode)))))

theorem plainTree_appendToSettings (h : root.PlainTree) (name field : Text) (values : List Text) :
    (appendToSettings name field values root).2.PlainTree := by
  rw [appendToSettings]
  split
  · exact plainTree_onOwnLine h field (Node.plain_array.2 (plainTree_pushTexts plainTree_new values))
  · rename_i s hs
    obtain ⟨-, hnode⟩ := plain_of_spot? h hs
    split
    · rename_i es hes
      have hes' := Node.plain_array.1 (hes ▸ hnode)
      exact plainTree_setNode h hs (Node.plain_array.2 (plainTree_pushTexts hes' values))
    · exact h

theorem plainTree_patchSettings (h : root.PlainTree) (mode : PatchMode) :
    (patchSettings mode root).2.PlainTree := by
  have hmode := Node.plain_ofText mode.toText
  rw [patchSettings]
  dsimp only
  split
  · rename_i s hs
    exact plainTree_removeFirst (plainTree_setNode h hs hmode) _
  · rename_i s _ hs
    obtain ⟨hhere, -⟩ := plain_of_spot? h hs
    exact plainTree_withSpot h (members_of_spot? hs)
      ⟨hhere.lead, fun t ht => hhere.label t ht, hhere.trail⟩ hmode
  · exact plainTree_onOwnLine h patchKey hmode

theorem plainTree_removePatchMode (h : root.PlainTree) (name : Text) :
    (removePatchMode name root).2.PlainTree := by
  refine removePatchMode_cases name root h fun hs hpkgs hentry hsettings => ?_
  have hplain := Node.plain_object.1 (hpkgs ▸ (plain_of_spot? h hs).2)
  have hold := Node.plain_object.1 (hsettings ▸ (plain_of_spot? hplain hentry).2)
  have hnew := plainTree_removeFirst (plainTree_removeFirst hold patchKey) patchGlibcKey
  exact plainTree_setNode h hs (Node.plain_object.2
    (plainTree_setNode hplain hentry (Node.plain_object.2 hnew)))

theorem plainTree_setEnv (h : root.PlainTree) (env : Table Text) :
    (setEnv env root).2.PlainTree := by
  rw [setEnv]
  split
  · rename_i s hs
    exact plainTree_setNode h hs (Node.plain_object.2 (plainTree_envObject _ env))
  · exact plainTree_onOwnLine h _ (Node.plain_object.2 (plainTree_envObject false env))

theorem plainTree_setString (h : root.PlainTree) (key value : Text) :
    (setString key value root).2.PlainTree := by
  rw [setString]
  split
  · exact plainTree_removeFirst h key
  · exact plainTree_setOrPush h key (Node.plain_ofText value)

/-- **Every request leaves a plain tree of a plain tree.** -/
theorem Request.plainTree_leave (r : Request) (h : root.PlainTree) : (r.leave root).PlainTree := by
  cases r with
  | addPackage v => exact plainTree_addPackage h v
  | removePackage v => exact plainTree_removePackage h v
  | appendToList name field values =>
    rw [Request.leave, EnvManifest.appendToList]
    split
    · exact h
    · exact plainTree_editSettings h name fun o ho =>
        plainTree_appendToSettings ho name field.key values
  | setBool name field on =>
    exact plainTree_editSettings h name fun o ho =>
      plainTree_setOrPush ho field (Node.everywhere_bool.2 trivial)
  | setPatchMode name mode =>
    exact plainTree_editSettings h name fun o ho => plainTree_patchSettings ho mode
  | removePatchMode name => exact plainTree_removePatchMode h name
  | setEnv env => exact plainTree_setEnv h env
  | setString key value => exact plainTree_setString h key value

end Edits

end EnvManifest
