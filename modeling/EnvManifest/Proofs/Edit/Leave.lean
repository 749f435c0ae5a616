import EnvManifest.Proofs.Edit.Clear
import EnvManifest.Proofs.Edit.Root

/-!
# What clear requests leave

A request that is `Clear` leaves a pliant tree of a root that is laid out
(`Request.pliant_leave`). The edits are taken one after the other, each in all the shapes
that the packages may be written in; the settings of a package are those of its entry or
new ones, which are open (`settingsOf_cases`). Of what the root gives this needs that an
array of packages holds strings (`Object.Listed`), so that none of them is left out when
it becomes an object.
-/

namespace EnvManifest

open Composite Object Request

section Leave

variable {root : Object}

/-! ### One composite -/

theorem mem_of_spot? {o : Object} {name : Text} {s : Spot} (hs : spot? o name = some s) :
    s.here ∈ o.children := by
  rw [← members_of_spot? hs]
  simp [Spot.members]

theorem laidOut_here {o : Object} {name : Text} {s : Spot}
    (h : Node.Everywhere Node.LaidOut (.object o)) (hs : spot? o name = some s) :
    Node.Everywhere Node.LaidOut s.here.node :=
  (Node.everywhere_object.1 h).2 s.here (mem_of_spot? hs)

/-- Another node for the member of a name. -/
theorem pliant_setNode {o : Object} {name : Text} {s : Spot}
    (h : Node.Everywhere Node.LaidOut (.object o)) (hs : spot? o name = some s) {n : Node}
    (hn : n.Pliant) : (Node.object (withSpot o (s.setNode n))).Pliant :=
  pliant_withSpot (members_of_spot? hs) (workable_object h).supple (workable_object h).pliant rfl hn

theorem removeFirst_left {o c : Object} (h : o.Still) (hc : Left o c) (name : Text) :
    Left o (removeFirst c name) := by
  rw [removeFirst]
  split
  · exact hc.remove h _
  · exact hc

theorem pliant_of_left {o c : Object} (h : Node.Everywhere Node.LaidOut (.object o))
    (hc : Left o c) (hsealed : c.Sealed) : (Node.object c).Pliant := by
  have hinner : ∀ m ∈ c.children, m.node.Pliant := by
    rcases hc with rfl | ⟨-, hstill⟩
    · exact (workable_object h).pliant
    · exact fun m hm => Node.pliant_of_laidOut (hstill m hm).2
  exact Node.pliant_object (hc.pliant (workable_object h).supple hsealed) hinner

theorem still_object {o : Object} (h : Node.Everywhere Node.LaidOut (.object o)) : o.Still := by
  obtain ⟨⟨-, hrest⟩, hinner⟩ := Node.everywhere_object.1 h
  exact still_of_laidOut hrest hinner

/-- **Taking a member out** of an object that is sealed afterwards. -/
theorem pliant_removeFirst {o : Object} (h : Node.Everywhere Node.LaidOut (.object o))
    {name : Text} (hsealed : (removeFirst o name).Sealed) :
    (Node.object (removeFirst o name)).Pliant :=
  pliant_of_left h (removeFirst_left (still_object h) (Or.inl rfl) name) hsealed

theorem pliant_remove {es : Elements} (h : Node.Everywhere Node.LaidOut (.array es)) {i : Nat}
    (hsealed : (es.remove i).Sealed) : (Node.array (es.remove i)).Pliant := by
  obtain ⟨⟨-, hrest⟩, hinner⟩ := Node.everywhere_array.1 h
  have hstill := still_of_laidOut hrest hinner
  have hleft := Left.remove hstill (Or.inl rfl) i
  refine Node.pliant_array (hleft.pliant (workable_array h).supple hsealed) fun e he => ?_
  exact Node.pliant_of_laidOut (still_remove hstill i e he).2

/-! ### Fields of the manifest -/

theorem pliant_setEnv (h : Node.Everywhere Node.LaidOut (.object root)) {env : Table Text}
    (hc : PutClear "env".toList root) : (Node.object (setEnv env root).2).Pliant := by
  rw [setEnv]
  split
  · rename_i s hs
    exact pliant_setNode h hs (pliant_envObject _ env)
  · rename_i hs
    exact pliant_push (workable_object h) (hc hs) _ (pliant_envObject _ env)

theorem pliant_setString (h : Node.Everywhere Node.LaidOut (.object root)) {key value : Text}
    (hc : if value.isEmpty then (removeFirst root key).Sealed else PutClear key root) :
    (Node.object (setString key value root).2).Pliant := by
  rw [setString]
  split
  · rename_i hempty
    rw [if_pos hempty] at hc
    exact pliant_removeFirst h hc
  · rename_i hempty
    rw [if_neg hempty] at hc
    exact pliant_setOrPush (workable_object h) hc (Node.pliant_ofText value)

/-! ### Settings of a package -/

/-- What is asked of an edit of settings: that it leaves a pliant tree of those of any
entry that it is clear for. -/
def LeavesPliant (clear : Object → Prop) (e : Edit Unit) : Prop :=
  ∀ entry : Node, Node.Everywhere Node.LaidOut entry → (∀ o ∈ entry.object?, clear o) →
    (Node.object (e (settingsOf entry)).2).Pliant

/-- The settings of an entry are those of an object, or new ones: these are open, and hold a
version and nothing else. -/
theorem settingsOf_cases (entry : Node) : (∃ o, entry = .object o ∧ settingsOf entry = o) ∨
    (settingsOf entry).Open ∧
      ∀ name, name ≠ "version".toList → spot? (settingsOf entry) name = none := by
  have hnew : (Composite.new : Object).Open ∧
      ∀ name, name ≠ "version".toList → spot? (Composite.new : Object) name = none :=
    ⟨open_of_empty rfl, fun _ _ => rfl⟩
  match entry with
  | .object o => exact Or.inl ⟨o, rfl, rfl⟩
  | .string ⟨c :: cs, _⟩ =>
    refine Or.inr ⟨fun last hlast => ?_, fun name hname => ?_⟩
    · obtain rfl := Option.some.inj hlast
      exact ⟨Gap.nil.whole, fun _ => .nil⟩
    · change spotIn? name [Member.onOwnLine "version".toList (Node.ofText (c :: cs))] = none
      rw [spotIn?]
      exact (if_neg hname.symm).trans rfl
  | .string ⟨[], _⟩ => exact Or.inr hnew
  | .null | .bool _ | .number _ | .array _ => exact Or.inr hnew

/-- It is enough to look at settings that were there, and at new ones. -/
theorem leavesPliant_of {clear : Object → Prop} {e : Edit Unit}
    (hold : ∀ o, Node.Everywhere Node.LaidOut (.object o) → clear o →
      (Node.object (e o).2).Pliant)
    (hnew : ∀ o : Object, o.Workable → o.Open →
      (∀ name, name ≠ "version".toList → spot? o name = none) → (Node.object (e o).2).Pliant) :
    LeavesPliant clear e := by
  intro entry h hclear
  rcases settingsOf_cases entry with ⟨o, rfl, ho⟩ | ⟨hopen, hnone⟩
  · rw [ho]
    exact hold o h (hclear o rfl)
  · exact hnew _ (workable_settingsOf h) hopen hnone

theorem leavesPliant_appendToSettings (name : Text) (field : ListField) (values : List Text) :
    LeavesPliant (AppendClear field.key) (appendToSettings name field.key values) := by
  have hmade : (Node.array (pushTexts Composite.new values)).Pliant :=
    pliant_pushTexts workable_new (by simp [OpenOnLine, Composite.new]) values
  refine leavesPliant_of (fun o h hclear => ?_) fun o h hopen hnone => ?_
  · rw [AppendClear] at hclear
    rw [appendToSettings]
    split
    · rename_i hs
      rw [hs] at hclear
      exact pliant_push (workable_object h) hclear _ hmade
    · rename_i s hs
      rw [hs] at hclear
      split
      · rename_i es hes
        have hhere := laidOut_here h hs
        rw [hes] at hhere
        refine pliant_setNode h hs (pliant_pushTexts (workable_array hhere) ?_ values)
        exact hclear es (by rw [hes]; rfl)
      · exact Node.pliant_of_laidOut h
  · rw [appendToSettings, hnone _ (by cases field <;> decide)]
    exact pliant_push h hopen _ hmade

theorem leavesPliant_setOrPush (field : Text) {n : Node} (hn : n.Pliant) :
    LeavesPliant (PutClear field) fun settings => (.ok (), setOrPush settings field n) := by
  refine leavesPliant_of (fun o h hclear => ?_) fun o h hopen _ => ?_
  · exact pliant_setOrPush (workable_object h) hclear hn
  · exact pliant_setOrPush h (fun _ => hopen) hn

theorem leavesPliant_patchSettings (mode : PatchMode) :
    LeavesPliant (PatchClear mode) (patchSettings mode) := by
  have hmode : (Node.ofText mode.toText).Pliant := Node.pliant_ofText _
  refine leavesPliant_of (fun o h hclear => ?_) fun o h hopen hnone => ?_
  · rw [PatchClear] at hclear
    rw [patchSettings]
    dsimp only
    split
    · rename_i s hs
      rw [hs] at hclear
      have hset : Node.Everywhere Node.LaidOut
          (.object (withSpot o (s.setNode (Node.ofText mode.toText)))) :=
        laidOut_withSpot (members_of_spot? hs) h rfl (Node.everywhere_string.2 ⟨trivial, trivial⟩)
      exact pliant_removeFirst hset hclear
    · rename_i s _ hs
      exact pliant_withSpot (members_of_spot? hs) (workable_object h).supple
        (workable_object h).pliant rfl hmode
    · rename_i hpatch hglibc
      rw [hpatch, hglibc] at hclear
      exact pliant_push (workable_object h) hclear _ hmode
  · rw [patchSettings, hnone _ (by decide), hnone _ (by decide)]
    exact pliant_push h hopen _ hmode

/-- A clear edit of settings among entries. -/
theorem pliant_entries {clear : Object → Prop} {e : Edit Unit} (he : LeavesPliant clear e)
    {pkgs : Object} (hsupple : pkgs.Supple)
    (hinner : ∀ m ∈ pkgs.children, Node.Everywhere Node.LaidOut m.node) {name : Text} {entry : Spot}
    (hentry : spot? pkgs name = some entry) (hc : ∀ o ∈ entry.here.node.object?, clear o) :
    (Node.object (withSpot pkgs (entry.setNode
      (.object (e (settingsOf entry.here.node)).2)))).Pliant :=
  pliant_withSpot (members_of_spot? hentry) hsupple
    (fun m hm => Node.pliant_of_laidOut (hinner m hm)) rfl
    (he _ (hinner _ (mem_of_spot? hentry)) hc)

/-- The packages, if they are an array, are strings. -/
def Object.Listed (root : Object) : Prop :=
  ∀ s ∈ spot? root packagesKey, ∀ es ∈ s.here.node.array?, ∀ e ∈ es.children,
    (migratedElement e).isSome = true

/-- So they are if anything is decoded from them. -/
theorem Object.Gives.listed {d : Nat} {S : Settings} (h : root.Gives d S) : root.Listed := by
  intro s hs es hes e he
  obtain ⟨hpackages, -⟩ := gives_packages h hs
  cases hn : s.here.node with
  | array es' =>
    obtain rfl : es' = es := by simpa [hn, Node.array?] using hes
    rw [hn] at hpackages
    rcases hpackages with hin | ⟨hnull, -⟩
    · cases hin with
      | array hps _ =>
      obtain ⟨p, hp⟩ := Package.decodeElement_of_mem hps he
      obtain ⟨t, ht, -⟩ := Package.text?_of_decodeElement hp
      rw [migratedElement, ht]
      rfl
    · simp at hnull
  | null | bool b | number t | string l | object o => simp [hn, Node.array?] at hes

/-- **A clear edit of settings** leaves a pliant tree. -/
theorem pliant_editSettings {clear : Object → Prop} {e : Edit Unit} (he : LeavesPliant clear e)
    (h : Node.Everywhere Node.LaidOut (.object root)) (hlisted : Object.Listed root) {name : Text}
    (hc : SettingsClear name clear root) : (Node.object (editSettings name e root).2).Pliant := by
  have hempty : (Node.object Composite.new).Pliant :=
    Node.pliant_object workable_new.supple.pliant workable_new.pliant
  rw [SettingsClear] at hc
  rw [editSettings, packagesSpot]
  cases hs : spot? root packagesKey with
  | none =>
    rw [hs] at hc
    exact pliant_push (workable_object h) hc packagesKey hempty
  | some s =>
    rw [hs] at hc
    have hhere := laidOut_here h hs
    dsimp only at hc
    dsimp only [Spot.setNode]
    -- only settings that were there can be unclear; those of an array are versions
    cases hn : s.here.node with
    | object pkgs =>
      rw [hn] at hc hhere
      obtain ⟨-, hinner⟩ := Node.everywhere_object.1 hhere
      dsimp only [editablePackages]
      split
      · exact pliant_setNode h hs (Node.pliant_of_laidOut hhere)
      · rename_i entry hentry
        exact pliant_setNode h hs
          (pliant_entries he (workable_object hhere).supple hinner hentry (hc pkgs rfl entry hentry))
    | array es =>
      rw [hn] at hhere
      -- the array is turned into an object, of which nothing has been laid out yet
      obtain ⟨hsupple, hnodes⟩ := supple_migrated (workable_array hhere).legible
        (hlisted s hs es (by rw [hn]; rfl))
      have hinner : ∀ m ∈ (migrated es).children, Node.Everywhere Node.LaidOut m.node := by
        intro m hm
        obtain ⟨t, ht⟩ := hnodes m hm
        rw [ht]
        exact Node.everywhere_string.2 ⟨trivial, trivial⟩
      dsimp only [editablePackages]
      rw [if_pos rfl]
      dsimp only
      split
      · exact pliant_setNode h hs (Node.pliant_object hsupple.pliant fun m hm =>
          Node.pliant_of_laidOut (hinner m hm))
      · rename_i entry hentry
        refine pliant_setNode h hs (pliant_entries he hsupple hinner hentry ?_)
        obtain ⟨t, ht⟩ := hnodes entry.here (mem_of_spot? hentry)
        rw [ht]
        simp [Node.object?, Node.ofText]
    | null => exact pliant_setNode h hs hempty
    | bool b | number t | string l =>
      rw [hn] at hhere
      exact pliant_setNode h hs (Node.pliant_of_laidOut hhere)

theorem pliant_removePatchMode (h : Node.Everywhere Node.LaidOut (.object root)) {name : Text}
    (hc : UnpatchClear name root) : (Node.object (removePatchMode name root).2).Pliant := by
  have hstay := Node.pliant_of_laidOut h
  rw [removePatchMode]
  split
  · exact hstay
  · rename_i s hs
    have hhere := laidOut_here h hs
    split
    · rename_i pkgs hpkgs
      rw [hpkgs] at hhere
      split
      · exact hstay
      · rename_i entry hentry
        have hinner := laidOut_here hhere hentry
        split
        · rename_i settings hsettings
          rw [hsettings] at hinner
          have hstill := still_object hinner
          have hleft : Left settings (removeFirst (removeFirst settings patchKey) patchGlibcKey) :=
            removeFirst_left hstill (removeFirst_left hstill (Or.inl rfl) _) _
          refine pliant_setNode h hs (pliant_setNode hhere hentry (pliant_of_left hinner hleft ?_))
          exact hc s hs pkgs (by rw [hpkgs]; rfl) entry hentry settings (by rw [hsettings]; rfl)
        · exact hstay
    · exact hstay

/-! ### Adding and removing packages -/

theorem pliant_removePackage (h : Node.Everywhere Node.LaidOut (.object root))
    {v : VersionedName} (hc : RemoveClear v root) :
    (Node.object (removePackage v root).2).Pliant := by
  have hstay := Node.pliant_of_laidOut h
  rw [removePackage]
  split
  · exact hstay
  · rename_i s hs
    have hhere := laidOut_here h hs
    have hclear := hc s hs
    cases hn : s.here.node with
    | object pkgs =>
      rw [hn] at hhere hclear
      exact pliant_setNode h hs (pliant_removeFirst hhere hclear)
    | array es =>
      rw [hn] at hhere hclear
      dsimp only
      split
      · rename_i i hi
        exact pliant_setNode h hs (pliant_remove hhere (hclear i hi))
      · exact hstay
    | null | bool b | number t | string l => exact hstay

theorem pliant_entryWithVersion {version : Text} {entry n : Node}
    (h : Node.Everywhere Node.LaidOut entry) (hc : VersionClear version entry)
    (hn : entryWithVersion? version entry = some n) : n.Pliant := by
  have hversion := Node.pliant_ofText version
  cases entry with
  | object o =>
    simp only [entryWithVersion?] at hn
    rw [VersionClear] at hc
    split at hn
    · rename_i s hs
      rw [hs] at hc
      split at hn
      · rename_i hempty
        obtain rfl := Option.some.inj hn
        exact pliant_removeFirst h (hc hempty)
      · split at hn
        · simp at hn
        · obtain rfl := Option.some.inj hn
          exact pliant_setNode h hs hversion
    · rename_i hs
      rw [hs] at hc
      split at hn
      · simp at hn
      · rename_i hempty
        obtain rfl := Option.some.inj hn
        exact pliant_push (workable_object h) (hc (by simpa using hempty)) _ hversion
  | string l =>
    simp only [entryWithVersion?] at hn
    split at hn
    · simp at hn
    · obtain rfl := Option.some.inj hn
      exact hversion
  | null | bool b | number t | array es =>
    obtain rfl := Option.some.inj hn
    exact hversion

/-- A package put at the end of an open array, on a line of its own if there are others. -/
theorem pliant_pushElement {es : Elements} (h : es.Workable) (ho : es.Open) (text : Text) :
    (Node.array (es.push { Value.ofText text with
      lead := if es.children.isEmpty then [] else ['\n'] })).Pliant := by
  refine Node.pliant_array (supple_append h.legible ho ?_ ?_ ?_).pliant fun e he => ?_
  · intro e he
    obtain rfl := List.mem_singleton.1 he
    refine ⟨?_, by simp [Label.slots]⟩
    dsimp only
    split
    · exact .nil
    · exact .blank rfl .nil
  · intro e he
    obtain rfl := List.mem_singleton.1 he
    rfl
  · intro last hlast e he
    obtain rfl := Option.some.inj he
    have hne : es.children.isEmpty = false := by
      simpa using List.ne_nil_of_mem (List.mem_of_mem_getLast? hlast)
    dsimp only
    rw [hne]
    exact joins_newline (ho.ends h.legible hlast).1 .nil
  · rcases List.mem_append.1 he with he | he
    · exact h.pliant e he
    · obtain rfl := List.mem_singleton.1 he
      exact Node.pliant_ofText text

/-- The root with a member moved to a line of its own. If it is the only one, it gets a
comma. -/
theorem supple_relaid {s : Spot} (hs : s.members = root.children)
    (h : Node.Everywhere Node.LaidOut (.object root)) (here : Member)
    (hlead : here.lead = '\n' :: s.here.lead) (hlabel : here.label = s.here.label)
    (htrail : here.trail = s.here.trail) :
    Supple ⟨s.before ++ here :: s.after, root.closing, root.trailingComma, true⟩ := by
  obtain ⟨⟨hlegible, hrest⟩, -⟩ := Node.everywhere_object.1 h
  have hmem : s.here ∈ root.children := by simp [← hs, Spot.members]
  have hfront : ∀ m ∈ s.before ++ here :: s.after, m.FrontLegible := by
    intro m hm
    have hm' : m ∈ (withSpot root { s with here := here }).children := hm
    rcases mem_withSpot hs hm' with rfl | hm
    · obtain ⟨hgap, hslots⟩ := hlegible.1 _ hmem
      rw [Child.FrontLegible, hlead, hlabel]
      exact ⟨.blank rfl hgap, hslots⟩
    · exact hlegible.1 m hm
  have htrails : trailsLegible false root.trailingComma root.closing
      ((s.before ++ here :: s.after).map Child.trail) := by
    have hsame : (s.before ++ here :: s.after).map Child.trail = root.children.map Child.trail := by
      simp [← hs, Spot.members, htrail]
    rw [hsame]
    exact hlegible.2
  rw [Supple, if_pos rfl]
  intro several comma hcomma
  refine ⟨fun m hm => (hfront m hm).2, fun m hm => (hfront m (List.mem_of_mem_head? hm)).1, ?_⟩
  rcases hcomma with rfl | hfresh
  · refine looseBehind_of_trailsLegible (fun m hm => (hfront m hm).1) ?_
    exact trailsLegible_mono (fun _ ht => ht.several) (fun _ ht => ht) htrails
  · -- all children are fresh, and those beside the member never were
    have hnone : ∀ m ∈ root.children, m ∉ s.before ∧ m ∉ s.after := by
      intro m hm
      have hold := hrest.2 m hm
      constructor <;> intro hbeside <;> simp [hfresh m (by simp [hbeside])] at hold
    have hbefore : s.before = [] := List.eq_nil_iff_forall_not_mem.2 fun m hm =>
      (hnone m (by simp [← hs, Spot.members, hm])).1 hm
    have hafter : s.after = [] := List.eq_nil_iff_forall_not_mem.2 fun m hm =>
      (hnone m (by simp [← hs, Spot.members, hm])).2 hm
    rw [hbefore, hafter] at htrails ⊢
    exact looseBehind_last htrails (Or.inl rfl)

theorem pliant_putPackages {name : Text} {s : Spot} (hs : spot? root name = some s)
    (h : Node.Everywhere Node.LaidOut (.object root)) {n : Node} (hn : n.Pliant) :
    (Node.object (putPackages root (s.setNode n) true)).Pliant := by
  rw [putPackages]
  split
  · refine Node.pliant_object (supple_relaid (members_of_spot? hs) h
      { s.here with node := n, lead := '\n' :: s.here.lead, fresh := true } rfl rfl rfl).pliant
      fun m hm => ?_
    rcases mem_withSpot (members_of_spot? hs) hm with rfl | hm
    · exact hn
    · exact (workable_object h).pliant m hm
  · exact pliant_setNode h hs hn

theorem pliant_addPackage (h : Node.Everywhere Node.LaidOut (.object root)) {v : VersionedName}
    (hc : AddClear v root) : (Node.object (addPackage v root).2).Pliant := by
  rw [AddClear] at hc
  rw [addPackage, packagesSpot]
  cases hs : spot? root packagesKey with
  | none =>
    rw [hs] at hc
    refine pliant_push (workable_object h) hc packagesKey ?_
    exact pliant_push workable_new (open_of_empty rfl) v.name (Node.pliant_ofText v.version)
  | some s =>
    rw [hs] at hc
    have hhere := laidOut_here h hs
    dsimp only at hc
    dsimp only [Spot.setNode]
    cases hn : s.here.node with
    | object pkgs =>
      rw [hn] at hc hhere
      dsimp only [editablePackages] at hc ⊢
      split
      · rename_i entry hentry
        rw [hentry] at hc
        split
        · rename_i n hversion
          have hinner := laidOut_here hhere hentry
          exact pliant_putPackages hs h
            (pliant_setNode hhere hentry (pliant_entryWithVersion hinner hc hversion))
        · exact pliant_setNode h hs (Node.pliant_of_laidOut hhere)
      · rename_i hentry
        rw [hentry] at hc
        exact pliant_putPackages hs h
          (pliant_push (workable_object hhere) hc v.name (Node.pliant_ofText v.version))
    | array es =>
      rw [hn] at hc hhere
      dsimp only [editablePackages] at hc ⊢
      exact pliant_putPackages hs h (pliant_pushElement (workable_array hhere) hc _)
    | null =>
      exact pliant_putPackages hs h
        (pliant_push workable_new (open_of_empty rfl) v.name (Node.pliant_ofText v.version))
    | bool b | number t | string l =>
      rw [hn] at hhere
      exact pliant_setNode h hs (Node.pliant_of_laidOut hhere)

end Leave

/-! ### All requests -/

/-- **A clear request leaves a pliant tree** of a root that is laid out. -/
theorem Request.pliant_leave (r : Request) {root : Object}
    (h : Node.Everywhere Node.LaidOut (.object root)) (hlisted : root.Listed) (hc : r.Clear root) :
    (Node.object (r.leave root)).Pliant := by
  cases r with
  | addPackage v => exact pliant_addPackage h hc
  | removePackage v => exact pliant_removePackage h hc
  | appendToList name field values =>
    rw [leave, EnvManifest.appendToList]
    split
    · exact Node.pliant_of_laidOut h
    · exact pliant_editSettings (leavesPliant_appendToSettings name field values) h hlisted hc
  | setBool name field on =>
    have hon : (Node.bool on).Pliant := fun _ => Node.everywhere_bool.2 trivial
    exact pliant_editSettings (leavesPliant_setOrPush field hon) h hlisted hc
  | setPatchMode name mode => exact pliant_editSettings (leavesPliant_patchSettings mode) h hlisted hc
  | removePatchMode name => exact pliant_removePatchMode h hc
  | setEnv env => exact pliant_setEnv h hc
  | setString key value => exact pliant_setString h hc

end EnvManifest
