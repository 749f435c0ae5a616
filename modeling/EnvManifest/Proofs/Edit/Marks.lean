import EnvManifest.Proofs.Edit.Cases
import EnvManifest.Proofs.Edit.Leave
import EnvManifest.Proofs.Failure

/-!
# Where the marks of edits are

An edit marks the children that it makes as fresh, and the composites that it puts them into as
dirty, so that a tree is `Node.Marked`: a child is only fresh in a composite that is dirty.
Every request keeps it so (`Request.marked_leave`).

Layout takes the marks of all composites away, and as it goes through the whole tree those of
the children as well. It does nothing at all if there is no dirty composite; but then there is no
fresh child either. So documents are at rest between operations (`Manifest.atRest_runAll`), and
what an operation finds in a document is found as a parser would leave it.
-/

namespace EnvManifest

open Object

/-! ### Marks -/

/-- A child is only fresh if the composite is dirty. -/
def Composite.Marked {κ ν : Type} (c : Composite κ ν) : Prop :=
  c.dirty = false → ∀ m ∈ c.children, m.fresh = false

namespace Node

/-- A child of the node is only fresh if the node is dirty. -/
def MarkedHere : Node → Prop
  | .object ms => ms.Marked
  | .array es => es.Marked
  | _ => True

/-- Everywhere in a tree, a child is only fresh in a composite that is dirty. -/
def Marked (n : Node) : Prop :=
  Everywhere MarkedHere n

theorem marked_object {o : Object} :
    (Node.object o).Marked ↔ o.Marked ∧ ∀ m ∈ o.children, m.node.Marked :=
  everywhere_object

theorem marked_array {es : Elements} :
    (Node.array es).Marked ↔ es.Marked ∧ ∀ e ∈ es.children, e.node.Marked :=
  everywhere_array

theorem marked_ofText (s : Text) : (Node.ofText s).Marked :=
  everywhere_string.2 trivial

theorem marked_of_atRest {n : Node} (h : n.AtRest) : n.Marked :=
  h.mono fun n hn => match n with
    | .object _ | .array _ => fun _ => hn.2
    | .null | .bool _ | .number _ | .string _ => trivial

/-- **Without a dirty composite there is no fresh child.** -/
theorem atRest_of_marked (n : Node) (h : n.Marked) (hclean : n.isDirty = false) : n.AtRest :=
  ((isDirty_eq_false_iff.1 hclean).and h).mono fun n hn => match n with
    | .object _ | .array _ => ⟨hn.1, hn.2 hn.1⟩
    | .null | .bool _ | .number _ | .string _ => trivial

end Node

/-- **Layout leaves a tree at rest**, if it was marked as edits do it. -/
theorem Value.atRest_format {v : Value} (h : v.node.Marked) : v.format.node.AtRest := by
  rw [format]
  split
  · exact Node.atRest_indent _ _ _ v.spaces_line
  · rename_i hdirty
    exact Node.atRest_of_marked _ h (by simpa using hdirty)

/-! ### Edits of one composite -/

/-- What is left of a composite is marked as it was, and so are the nodes in it. -/
theorem Composite.marked_remove {κ : Type} {c : Composite κ Node}
    (h : c.Marked ∧ ∀ m ∈ c.children, m.node.Marked) (i : Nat) :
    (c.remove i).Marked ∧ ∀ m ∈ (c.remove i).children, m.node.Marked := by
  refine ⟨?_, fun m hm => ?_⟩
  · rcases remove_eq_or_dirty c i with heq | hdirty
    · rw [heq]
      exact h.1
    · exact fun hclean => absurd hdirty (by simp [hclean])
  · obtain ⟨k, hk, hnode, -⟩ := exists_of_mem_remove hm
    exact hnode ▸ h.2 k hk

namespace Object

variable {o : Object} {s : Spot} {name : Text}

theorem marked_push (h : (Node.object o).Marked) {m : Member} (hm : m.node.Marked) :
    (Node.object (o.push m)).Marked := by
  refine Node.marked_object.2 ⟨fun hdirty => absurd hdirty (by simp [Composite.push]), fun k hk => ?_⟩
  rcases List.mem_append.1 hk with hk | hk
  · exact (Node.marked_object.1 h).2 k hk
  · exact List.mem_singleton.1 hk ▸ hm

/-- Another node for a member, which is as fresh as it was or in a dirty object. -/
theorem marked_withSpot (hs : s.members = o.children) (h : (Node.object o).Marked) {here : Member}
    {dirty : Bool} (hfresh : here.fresh = s.here.fresh ∧ dirty = o.dirty ∨ dirty = true)
    (hhere : here.node.Marked) :
    (Node.object { withSpot o { s with here := here } with dirty := dirty }).Marked := by
  obtain ⟨hmarked, hinner⟩ := Node.marked_object.1 h
  refine Node.marked_object.2 ⟨fun hdirty m hm => ?_, fun m hm => ?_⟩
  · obtain ⟨hkept, rfl⟩ : here.fresh = s.here.fresh ∧ dirty = o.dirty :=
      hfresh.resolve_right (by simp [show dirty = false from hdirty])
    rcases mem_withSpot hs hm with rfl | hm
    · rw [hkept]
      exact hmarked hdirty s.here (hs ▸ by simp [Spot.members])
    · exact hmarked hdirty m hm
  · rcases mem_withSpot hs hm with rfl | hm
    · exact hhere
    · exact hinner m hm

theorem marked_setNode (hs : spot? o name = some s) (h : (Node.object o).Marked) {n : Node}
    (hn : n.Marked) : (Node.object (withSpot o (s.setNode n))).Marked :=
  marked_withSpot (members_of_spot? hs) h (Or.inl ⟨rfl, rfl⟩) hn

theorem marked_here (hs : spot? o name = some s) (h : (Node.object o).Marked) :
    s.here.node.Marked :=
  (Node.marked_object.1 h).2 s.here (mem_of_spot? hs)

theorem marked_setOrPush (h : (Node.object o).Marked) (name : Text) {n : Node} (hn : n.Marked) :
    (Node.object (setOrPush o name n)).Marked := by
  rw [setOrPush]
  split
  · rename_i s hs
    exact marked_setNode hs h hn
  · exact marked_push h hn

theorem marked_removeFirst (h : (Node.object o).Marked) (name : Text) :
    (Node.object (removeFirst o name)).Marked := by
  rw [removeFirst]
  split
  · exact Node.marked_object.2 (Composite.marked_remove (Node.marked_object.1 h) _)
  · exact h

end Object

/-! ### Requests -/

section Requests

variable {root : Object} {name : Text}

theorem marked_new : (Node.object Composite.new).Marked :=
  Node.marked_object.2 ⟨fun _ => by simp [Composite.new], by simp [Composite.new]⟩

theorem marked_envObject (ownLine : Bool) (env : Table Text) :
    (Node.object (envObject ownLine env)).Marked := by
  refine Node.marked_object.2 ⟨fun hdirty => absurd hdirty (by simp [envObject]), fun m hm => ?_⟩
  obtain ⟨p, -, rfl⟩ := List.mem_map.1 hm
  cases ownLine <;> exact Node.marked_ofText _

theorem marked_migrated (es : Elements) : (Node.object (migrated es)).Marked := by
  refine Node.marked_object.2 ⟨fun hdirty => absurd hdirty (by simp [migrated]), fun m hm => ?_⟩
  obtain ⟨e, -, he⟩ := List.mem_filterMap.1 hm
  rw [migratedElement] at he
  split at he
  · simp at he
  · obtain rfl := Option.some.inj he
    exact Node.marked_ofText _

theorem marked_editablePackages (migrate : Bool) {n : Node} (h : n.Marked) :
    (editablePackages migrate n).Marked := by
  cases n with
  | null => exact marked_new
  | array es =>
    cases migrate with
    | true => exact marked_migrated es
    | false => exact h
  | bool b | number t | string l | object ms => exact h

theorem marked_settingsOf {entry : Node} (h : entry.Marked) :
    (Node.object (settingsOf entry)).Marked := by
  match entry with
  | .object o => exact h
  | .string ⟨c :: cs, _⟩ => exact marked_push marked_new (Node.marked_ofText (c :: cs))
  | .string ⟨[], _⟩ | .null | .bool _ | .number _ | .array _ => exact marked_new

theorem marked_pushTexts {es : Elements} (h : (Node.array es).Marked) (values : List Text) :
    (Node.array (pushTexts es values)).Marked := by
  obtain ⟨hmarked, hinner⟩ := Node.marked_array.1 h
  rw [pushTexts_eq]
  cases values with
  | nil => simpa using h
  | cons v vs =>
    refine Node.marked_array.2 ⟨fun hdirty => absurd hdirty (by simp), fun e he => ?_⟩
    rcases List.mem_append.1 he with he | he
    · exact hinner e he
    · obtain ⟨w, -, rfl⟩ := List.mem_map.1 he
      exact Node.marked_ofText w

/-! #### Packages -/

theorem marked_packagesSpot (migrate : Bool) (h : (Node.object root).Marked) :
    (packagesSpot migrate root).2.here.node.Marked := by
  rw [packagesSpot]
  split
  · rename_i s hs
    exact marked_editablePackages migrate (marked_here hs h)
  · exact marked_new

/-- Packages that are put where an edit looks for them. -/
theorem marked_putPackages (migrate changed : Bool) (h : (Node.object root).Marked) {n : Node}
    (hn : n.Marked) : (Node.object (putPackages (packagesSpot migrate root).1
      ((packagesSpot migrate root).2.setNode n) changed)).Marked := by
  obtain ⟨root', s, here, heq, hs, hroot, hfresh, hnode⟩ : ∃ (root' : Object) (s : Spot)
      (here : Member), (packagesSpot migrate root).1 = root' ∧ s.members = root'.children ∧
        (Node.object root').Marked ∧ here.fresh = s.here.fresh ∧
        (packagesSpot migrate root).2.setNode n = { s with here := { here with node := n } } := by
    rw [packagesSpot]
    split
    · rename_i s hs
      exact ⟨root, s, s.here, rfl, members_of_spot? hs, h, rfl, rfl⟩
    · exact ⟨_, ⟨root.children, Member.onOwnLine packagesKey (.object Composite.new), []⟩, _, rfl,
        rfl, marked_push h marked_new, rfl, rfl⟩
  rw [heq, hnode, putPackages]
  split
  · exact marked_withSpot hs hroot (Or.inr rfl) hn
  · exact marked_withSpot hs hroot (Or.inl ⟨hfresh, rfl⟩) hn

/-- Packages that an edit leaves where it has found them. -/
theorem marked_withPackages (migrate : Bool) (h : (Node.object root).Marked) :
    (Node.object (withSpot (packagesSpot migrate root).1 (packagesSpot migrate root).2)).Marked :=
  marked_putPackages migrate false h (marked_packagesSpot migrate h)

theorem marked_entryWithVersion {version : Text} {entry n : Node} (h : entry.Marked)
    (hn : entryWithVersion? version entry = some n) : n.Marked := by
  cases entry with
  | object o =>
    simp only [entryWithVersion?] at hn
    split at hn
    · rename_i s hs
      split at hn
      · obtain rfl := Option.some.inj hn
        exact marked_removeFirst h _
      · split at hn
        · simp at hn
        · obtain rfl := Option.some.inj hn
          exact marked_setNode hs h (Node.marked_ofText version)
    · split at hn
      · simp at hn
      · obtain rfl := Option.some.inj hn
        exact marked_push h (Node.marked_ofText version)
  | string l =>
    simp only [entryWithVersion?] at hn
    split at hn
    · simp at hn
    · obtain rfl := Option.some.inj hn
      exact Node.marked_ofText version
  | null | bool b | number t | array es =>
    obtain rfl := Option.some.inj hn
    exact Node.marked_ofText version

theorem marked_addPackage (h : (Node.object root).Marked) (v : VersionedName) :
    (Node.object (addPackage v root).2).Marked := by
  have hpackages := marked_packagesSpot false h
  refine addPackage_cases v root ?kept ?version ?name ?element
  case kept => exact marked_withPackages false h
  case version =>
    intro pkgs entry n hnode hentry hn
    rw [hnode] at hpackages
    have hmarked := marked_entryWithVersion (marked_here hentry hpackages) hn
    exact marked_putPackages false true h (marked_setNode hentry hpackages hmarked)
  case name =>
    intro pkgs hnode _
    rw [hnode] at hpackages
    exact marked_putPackages false true h (marked_push hpackages (Node.marked_ofText v.version))
  case element =>
    intro es hnode
    rw [hnode] at hpackages
    obtain ⟨-, hinner⟩ := Node.marked_array.1 hpackages
    refine marked_putPackages false true h (Node.marked_array.2
      ⟨fun hdirty => absurd hdirty (by simp [Composite.push]), fun e he => ?_⟩)
    rcases List.mem_append.1 he with he | he
    · exact hinner e he
    · obtain rfl := List.mem_singleton.1 he
      exact Node.marked_ofText v.toText

theorem marked_removePackage (h : (Node.object root).Marked) (v : VersionedName) :
    (Node.object (removePackage v root).2).Marked := by
  refine removePackage_cases v root h ?name ?element
  case name =>
    intro s pkgs hs hnode
    exact marked_setNode hs h (marked_removeFirst (hnode ▸ marked_here hs h) v.name)
  case element =>
    intro s es i hs hnode _
    have hes := Node.marked_array.1 (hnode ▸ marked_here hs h)
    exact marked_setNode hs h (Node.marked_array.2 (Composite.marked_remove hes i))

/-! #### Settings of a package -/

/-- What an edit of settings leaves is marked as edits do it. -/
def Edit.LeavesMarked (e : Edit Unit) : Prop :=
  ∀ o : Object, (Node.object o).Marked → (Node.object (e o).2).Marked

theorem marked_editSettings {e : Edit Unit} (he : e.LeavesMarked) (h : (Node.object root).Marked)
    (name : Text) : (Node.object (editSettings name e root).2).Marked := by
  have hpackages := marked_packagesSpot true h
  refine editSettings_cases name e root (marked_withPackages true h) fun hnode hentry => ?_
  rw [hnode] at hpackages
  have hsettings := he _ (marked_settingsOf (marked_here hentry hpackages))
  exact marked_putPackages true false h (marked_setNode hentry hpackages hsettings)

theorem leavesMarked_appendToSettings (name field : Text) (values : List Text) :
    (appendToSettings name field values).LeavesMarked := by
  intro o h
  have hnew : (Node.array Composite.new).Marked :=
    Node.marked_array.2 ⟨fun _ => by simp [Composite.new], by simp [Composite.new]⟩
  rw [appendToSettings]
  cases hs : spot? o field with
  | none => exact marked_push h (marked_pushTexts hnew values)
  | some s =>
    have hlist := marked_here hs h
    dsimp only
    cases hnode : s.here.node with
    | array es =>
      rw [hnode] at hlist
      exact marked_setNode hs h (marked_pushTexts hlist values)
    | null | bool b | number t | string l | object ms => exact h

theorem leavesMarked_patchSettings (mode : PatchMode) : (patchSettings mode).LeavesMarked := by
  intro o h
  have hmode : (Node.ofText mode.toText).Marked := Node.marked_ofText _
  rw [patchSettings]
  dsimp only
  split
  · rename_i s _ hs
    exact marked_removeFirst (marked_setNode hs h hmode) patchGlibcKey
  · rename_i s _ hs
    exact marked_withSpot (members_of_spot? hs) h (Or.inl ⟨rfl, rfl⟩) hmode
  · exact marked_push h hmode

theorem marked_removePatchMode (h : (Node.object root).Marked) (name : Text) :
    (Node.object (removePatchMode name root).2).Marked := by
  refine removePatchMode_cases name root h fun hs hnode hentry hsettings => ?_
  have hpackages := hnode ▸ marked_here hs h
  have hold := hsettings ▸ marked_here hentry hpackages
  refine marked_setNode hs h (marked_setNode hentry hpackages ?_)
  exact marked_removeFirst (marked_removeFirst hold patchKey) patchGlibcKey

/-- **Every request marks what it changes.** -/
theorem Request.marked_leave (r : Request) (h : (Node.object root).Marked) :
    (Node.object (r.leave root)).Marked := by
  cases r with
  | addPackage v => exact marked_addPackage h v
  | removePackage v => exact marked_removePackage h v
  | appendToList name field values =>
    rw [leave, EnvManifest.appendToList]
    split
    · exact h
    · exact marked_editSettings (leavesMarked_appendToSettings name field.key values) h name
  | setBool name field on =>
    exact marked_editSettings (fun o ho => marked_setOrPush ho field (Node.everywhere_bool.2 trivial))
      h name
  | setPatchMode name mode => exact marked_editSettings (leavesMarked_patchSettings mode) h name
  | removePatchMode name => exact marked_removePatchMode h name
  | setEnv env =>
    rw [leave, EnvManifest.setEnv]
    split
    · rename_i s hs
      exact marked_setNode hs h (marked_envObject _ env)
    · exact marked_push h (marked_envObject false env)
  | setString key value =>
    rw [leave, EnvManifest.setString]
    split
    · exact marked_removeFirst h key
    · exact marked_setOrPush h key (Node.marked_ofText value)

end Requests

/-! ### Documents -/

namespace Document

/-- No edit has changed anything in the document since it was laid out. -/
def AtRest (d : Document) : Prop :=
  (Node.object d.root).AtRest

theorem AtRest.clean {d : Document} (h : d.AtRest) : d.Clean :=
  Node.isDirty_of_atRest _ h

theorem atRest_format {d : Document} (h : (Node.object d.root).Marked) : d.format.AtRest := by
  have hrest := Value.atRest_format (v := d.toValue) h
  rwa [← toValue_format] at hrest

theorem AtRest.after {d : Document} (h : d.AtRest) (r? : Option Request) : (d.after r?).AtRest := by
  cases r? with
  | none => exact h
  | some r => exact atRest_format (r.marked_leave (Node.marked_of_atRest h))

end Document

namespace Manifest

variable {m : Manifest}

theorem atRest_of_loadOctets {b : Octets} (h : loadOctets b = .ok m) : m.document.AtRest := by
  obtain ⟨s, -, hload⟩ := loadOctets_eq_ok.1 h
  exact (Value.orderly_of_readTo (Value.parse_eq_ok.1 (load_eq_ok.1 hload).1)).2.2.1.atRest

theorem atRest_run (h : m.document.AtRest) (op : Operation) :
    (m.run op).manifest.document.AtRest := by
  rw [document_run]
  exact h.after _

/-- **Between operations a document is at rest.** -/
theorem atRest_runAll (h : m.document.AtRest) (ops : List Operation) :
    (m.runAll ops).document.AtRest := by
  induction ops generalizing m with
  | nil => exact h
  | cons op ops ih => exact ih (atRest_run h op)

end Manifest

end EnvManifest
