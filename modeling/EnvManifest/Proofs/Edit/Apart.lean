import EnvManifest.Proofs.Edit.Atomic
import EnvManifest.Proofs.Edit.Cases

/-!
# What requests are not about

A request is about one member of the root (`Request.member`), and if that is the packages, about
the entries of one name (`Request.package?`). All other members and entries keep their names and
nodes, in order (`Request.apartFrom_leave`, `PackagesEdited`). A request on packages that are
there replaces their node and does not touch the root otherwise, except that the packages may be
put on a line of their own (`putPackages`).
-/

namespace EnvManifest

/-! ### Members apart from a name -/

namespace Object

/-- The members of an object but those of a name, if one is given, with their names and nodes,
in order. -/
def apartFrom (name? : Option Text) (o : Object) : List (Literal × Node) :=
  (o.children.map fun m => (m.label.name, m.node)).filter fun p => some p.1.value ≠ name?

variable {o : Object} {name : Text} {s : Spot}

/-- Whatever is made of a member of the name is not seen. -/
theorem apartFrom_withSpot (hs : spot? o name = some s) (here : Member)
    (hhere : Member.name here = name) (dirty : Bool) :
    apartFrom (some name) { withSpot o { s with here := here } with dirty := dirty } =
      apartFrom (some name) o := by
  have hname : s.here.label.name.value = name := name_of_spot? hs
  have hhere : here.label.name.value = name := hhere
  rw [apartFrom, apartFrom, ← members_of_spot? hs]
  simp [withSpot, Spot.members, hname, hhere]

theorem apartFrom_setNode (hs : spot? o name = some s) (n : Node) :
    apartFrom (some name) (withSpot o (s.setNode n)) = apartFrom (some name) o :=
  apartFrom_withSpot hs { s.here with node := n } (name_of_spot? hs) o.dirty

theorem apartFrom_push {m : Member} (hm : Member.name m = name) :
    apartFrom (some name) (o.push m) = apartFrom (some name) o := by
  have hm : m.label.name.value = name := hm
  simp [apartFrom, hm]

theorem apartFrom_removeFirst (o : Object) (name : Text) :
    apartFrom (some name) (removeFirst o name) = apartFrom (some name) o := by
  cases hs : spot? o name with
  | none => rw [removeFirst_of_spot?_eq_none hs]
  | some s =>
    have hname : s.here.label.name.value = name := name_of_spot? hs
    have hindex : index? o name = some s.before.length := by
      rw [index?, hs]
      rfl
    have hnodes := congrArg (List.map fun p : Key × Node => (p.1.name, p.2))
      (Composite.nodes_remove o s.before.length)
    rw [← members_of_spot? hs, Spot.members,
      List.eraseIdx_append_of_length_le (Nat.le_refl _)] at hnodes
    simp only [List.map_map, Nat.sub_self, List.eraseIdx_cons_zero, List.map_append] at hnodes
    rw [removeFirst, hindex, apartFrom, apartFrom]
    refine (congrArg (List.filter _) hnodes).trans ?_
    rw [← members_of_spot? hs]
    simp [Spot.members, hname, Function.comp_def]

theorem apartFrom_setOrPush (o : Object) (name : Text) (n : Node) :
    apartFrom (some name) (setOrPush o name n) = apartFrom (some name) o := by
  rw [setOrPush]
  split
  · rename_i s hs
    exact apartFrom_setNode hs n
  · exact apartFrom_push rfl

/-- A member of another name is found among those apart. -/
theorem node_of_spot?_eq {other : Text} (hne : name ≠ other) (o : Object) :
    (spot? o name).map (·.here.node) =
      ((o.apartFrom (some other)).find? fun p => p.1.value = name).map Prod.snd := by
  rw [spot?, apartFrom]
  induction o.children with
  | nil => rfl
  | cons m ms ih =>
    rw [spotIn?, List.map_cons, List.filter_cons]
    by_cases hname : Member.name m = name
    · have hname' : m.label.name.value = name := hname
      rw [if_pos hname, if_pos (by simp [hname', hne]), List.find?_cons]
      simp [hname']
    · have hname' : m.label.name.value ≠ name := hname
      rw [if_neg hname, Option.map_map]
      refine Eq.trans ih ?_
      split
      · simp [hname']
      · rfl

/-- A member is found where it was, whatever has been made of it. -/
theorem spotIn?_members {s : Spot} (hbefore : name ∉ s.before.map Member.name)
    (hhere : Member.name s.here = name) : spotIn? name s.members = some s := by
  obtain ⟨before, here, after⟩ := s
  induction before with
  | nil =>
    rw [Spot.members, List.nil_append, spotIn?]
    exact if_pos hhere
  | cons m before ih =>
    obtain ⟨hm, hbefore⟩ : name ≠ Member.name m ∧ name ∉ before.map Member.name := by
      simpa using hbefore
    have hrest : spotIn? name (before ++ here :: after) = some ⟨before, here, after⟩ :=
      ih hbefore hhere
    rw [Spot.members, List.cons_append, spotIn?, if_neg (Ne.symm hm), hrest]
    rfl

/-- The first member of a name stays that if it gets another node. -/
theorem spot?_setNode {o : Object} {name : Text} {s : Spot} (hs : spot? o name = some s) (n : Node) :
    spot? (withSpot o (s.setNode n)) name = some (s.setNode n) := by
  have hbefore : name ∉ s.before.map Member.name := not_mem_before_of_spotIn? hs
  have hhere : Member.name s.here = name := name_of_spot? hs
  exact spotIn?_members (s := s.setNode n) hbefore hhere

end Object

open Object

/-! ### Packages -/

/-- What a request on the packages of a name leaves of the root: the root as it was, packages
that were missing, or packages in place of those that were there; if these are an object, it
has the entries that it had, apart from those of the name. -/
inductive PackagesEdited (name : Text) (root : Object) : Object → Prop
  | kept : PackagesEdited name root root
  | made (n : Node) : spot? root packagesKey = none →
    PackagesEdited name root (root.push (Member.onOwnLine packagesKey n))
  | put {s : Spot} (n : Node) (changed : Bool) : spot? root packagesKey = some s →
    (∀ pkgs, s.here.node = .object pkgs →
      ∃ pkgs', n = .object pkgs' ∧ apartFrom (some name) pkgs' = apartFrom (some name) pkgs) →
    PackagesEdited name root (putPackages root (s.setNode n) changed)

section Packages

variable {name : Text} {root : Object}

/-- Packages that are put where an edit looks for them. -/
theorem packagesEdited_packagesSpot (migrate : Bool) {n : Node} (changed : Bool)
    (hn : ∀ pkgs, (packagesSpot migrate root).2.here.node = .object pkgs →
      ∃ pkgs', n = .object pkgs' ∧ apartFrom (some name) pkgs' = apartFrom (some name) pkgs) :
    PackagesEdited name root
      (putPackages (packagesSpot migrate root).1 ((packagesSpot migrate root).2.setNode n) changed) := by
  cases hs : spot? root packagesKey with
  | none =>
    rw [packagesSpot, hs]
    -- the new member is on a line of its own already
    have hput : ∀ s : Spot, s.here.lead = ['\n'] →
        putPackages (root.push (Member.onOwnLine packagesKey (.object Composite.new))) s changed =
          withSpot (root.push (Member.onOwnLine packagesKey (.object Composite.new))) s := by
      intro s hlead
      rw [putPackages, hlead, if_neg (by simp [Text.breaksLine])]
    rw [hput _ rfl]
    exact .made n hs
  | some s =>
    have hspot : packagesSpot migrate root =
        (root, s.setNode (editablePackages migrate s.here.node)) := by
      rw [packagesSpot, hs]
    rw [hspot] at hn ⊢
    refine .put (s := s) n changed hs fun pkgs hpkgs => hn pkgs ?_
    change editablePackages migrate s.here.node = _
    rw [hpkgs]
    rfl

theorem packagesEdited_self (migrate : Bool) : PackagesEdited name root
    (withSpot (packagesSpot migrate root).1 (packagesSpot migrate root).2) :=
  packagesEdited_packagesSpot migrate false fun pkgs hpkgs => ⟨pkgs, hpkgs, rfl⟩

theorem packagesEdited_addPackage (v : VersionedName) :
    PackagesEdited v.name root (addPackage v root).2 := by
  refine addPackage_cases v root ?kept ?version ?name ?element
  case kept => exact packagesEdited_self false
  case version =>
    intro pkgs entry n hnode hentry _
    refine packagesEdited_packagesSpot false true fun pkgs' hpkgs' => ⟨_, rfl, ?_⟩
    obtain rfl := Node.object.inj (hnode.symm.trans hpkgs')
    exact apartFrom_setNode hentry n
  case name =>
    intro pkgs hnode _
    refine packagesEdited_packagesSpot false true fun pkgs' hpkgs' => ⟨_, rfl, ?_⟩
    obtain rfl := Node.object.inj (hnode.symm.trans hpkgs')
    exact apartFrom_push rfl
  case element =>
    intro es hnode
    exact packagesEdited_packagesSpot false true fun pkgs hpkgs => by simp [hnode] at hpkgs

theorem packagesEdited_editSettings (name : Text) (e : Edit Unit) :
    PackagesEdited name root (editSettings name e root).2 := by
  refine editSettings_cases name e root (packagesEdited_self true) fun hnode hentry => ?_
  refine packagesEdited_packagesSpot true false fun pkgs' hpkgs' => ⟨_, rfl, ?_⟩
  obtain rfl := Node.object.inj (hnode.symm.trans hpkgs')
  exact apartFrom_setNode hentry _

theorem packagesEdited_removePackage (v : VersionedName) :
    PackagesEdited v.name root (removePackage v root).2 := by
  refine removePackage_cases v root .kept ?name ?element
  case name =>
    intro s pkgs hs hnode
    refine .put (.object (removeFirst pkgs v.name)) false hs fun pkgs' hpkgs' => ⟨_, rfl, ?_⟩
    obtain rfl := Node.object.inj (hnode.symm.trans hpkgs')
    exact apartFrom_removeFirst pkgs v.name
  case element =>
    intro s es i hs hnode _
    exact .put _ false hs fun pkgs hpkgs => by simp [hnode] at hpkgs

theorem packagesEdited_removePatchMode (name : Text) :
    PackagesEdited name root (removePatchMode name root).2 := by
  refine removePatchMode_cases name root .kept fun hs hnode hentry _ => ?_
  refine .put _ false hs fun pkgs' hpkgs' => ⟨_, rfl, ?_⟩
  obtain rfl := Node.object.inj (hnode.symm.trans hpkgs')
  exact apartFrom_setNode hentry _

end Packages

/-! ### Requests -/

namespace Request

/-- The member of the root that a request is about. -/
def member : Request → Text
  | setEnv _ => "env".toList
  | setString key _ => key
  | addPackage _ | removePackage _ | appendToList _ _ _ | setBool _ _ _ | setPatchMode _ _
  | removePatchMode _ => packagesKey

/-- The name of the packages that a request is about, if it is about packages. -/
def package? : Request → Option Text
  | addPackage v | removePackage v => some v.name
  | appendToList name _ _ | setBool name _ _ | setPatchMode name _ | removePatchMode name =>
    some name
  | setEnv _ | setString _ _ => none

theorem member_of_package? {r : Request} {name : Text} (h : r.package? = some name) :
    r.member = packagesKey := by
  cases r <;> simp [package?, member] at h ⊢

/-- **A request on packages edits them**, and nothing else. -/
theorem packagesEdited_leave {r : Request} {name : Text} (h : r.package? = some name)
    (root : Object) : PackagesEdited name root (r.leave root) := by
  cases r with
  | addPackage v =>
    obtain rfl := Option.some.inj h
    exact packagesEdited_addPackage v
  | removePackage v =>
    obtain rfl := Option.some.inj h
    exact packagesEdited_removePackage v
  | appendToList _ field values =>
    obtain rfl := Option.some.inj h
    rw [leave, EnvManifest.appendToList]
    split
    · exact .kept
    · exact packagesEdited_editSettings _ _
  | setBool _ field on =>
    obtain rfl := Option.some.inj h
    exact packagesEdited_editSettings _ _
  | setPatchMode _ mode =>
    obtain rfl := Option.some.inj h
    exact packagesEdited_editSettings _ _
  | removePatchMode _ =>
    obtain rfl := Option.some.inj h
    exact packagesEdited_removePatchMode _
  | setEnv env => simp [package?] at h
  | setString key value => simp [package?] at h

end Request

theorem PackagesEdited.apartFrom_eq {name : Text} {root root' : Object}
    (h : PackagesEdited name root root') :
    apartFrom (some packagesKey) root' = apartFrom (some packagesKey) root := by
  cases h with
  | kept => rfl
  | made n hs => exact apartFrom_push rfl
  | @put s n changed hs _ =>
    rw [putPackages]
    split
    · exact apartFrom_withSpot hs
        { s.here with lead := '\n' :: s.here.lead, node := n, fresh := true } (name_of_spot? hs) true
    · exact apartFrom_setNode hs n

/-- **A request leaves the members that it is not about.** -/
theorem Request.apartFrom_leave (r : Request) (root : Object) :
    apartFrom (some r.member) (r.leave root) = apartFrom (some r.member) root := by
  cases h : r.package? with
  | some name =>
    rw [member_of_package? h]
    exact (packagesEdited_leave h root).apartFrom_eq
  | none =>
    cases r with
    | setEnv env =>
      rw [leave, EnvManifest.setEnv, member]
      split
      · rename_i s hs
        exact apartFrom_setNode hs _
      · exact apartFrom_push rfl
    | setString key value =>
      rw [leave, EnvManifest.setString, member]
      split
      · exact apartFrom_removeFirst root key
      · exact apartFrom_setOrPush root key _
    | addPackage v | removePackage v | appendToList name field values | setBool name field on
    | setPatchMode name mode | removePatchMode name => simp [package?] at h

/-- Packages that are put back are found there, on whatever line. -/
theorem spot?_putPackages {root : Object} {s : Spot} (hs : spot? root packagesKey = some s)
    (n : Node) (changed : Bool) :
    ∃ s', spot? (putPackages root (s.setNode n) changed) packagesKey = some s' ∧
      s'.here.node = n := by
  have hbefore := not_mem_before_of_spotIn? hs
  have hname := name_of_spot? hs
  rw [putPackages]
  split
  · exact ⟨_, spotIn?_members hbefore hname, rfl⟩
  · exact ⟨s.setNode n, spot?_setNode hs n, rfl⟩

/-- Packages that are an object stay one when they are edited, with the entries of other names. -/
theorem PackagesEdited.exists_object {name : Text} {root root' : Object}
    (h : PackagesEdited name root root') {s : Spot} (hs : spot? root packagesKey = some s)
    {pkgs : Object} (hpkgs : s.here.node = .object pkgs) :
    ∃ s' pkgs', spot? root' packagesKey = some s' ∧ s'.here.node = .object pkgs' ∧
      apartFrom (some name) pkgs' = apartFrom (some name) pkgs := by
  cases h with
  | kept => exact ⟨s, pkgs, hs, hpkgs, rfl⟩
  | made n hnone => simp [hs] at hnone
  | @put s₀ n changed hs₀ hobject =>
    obtain rfl := Option.some.inj (hs.symm.trans hs₀)
    obtain ⟨pkgs', rfl, hapart⟩ := hobject pkgs hpkgs
    obtain ⟨s', hs', hhere⟩ := spot?_putPackages hs (.object pkgs') changed
    exact ⟨s', pkgs', hs', hhere, hapart⟩

/-- **A request leaves the entries of packages that it is not about**, if the packages are an
object: those of other names if it is about packages, and all of them if not. -/
theorem Request.exists_object {r : Request} (hr : r.package? = none → r.member ≠ packagesKey)
    {root : Object} {s : Spot} (hs : spot? root packagesKey = some s) {pkgs : Object}
    (hpkgs : s.here.node = .object pkgs) :
    ∃ s' pkgs', spot? (r.leave root) packagesKey = some s' ∧ s'.here.node = .object pkgs' ∧
      apartFrom r.package? pkgs' = apartFrom r.package? pkgs := by
  cases h : r.package? with
  | some name => exact (r.packagesEdited_leave h root).exists_object hs hpkgs
  | none =>
    -- the packages are one of the members that the request is not about
    have hnode := node_of_spot?_eq (Ne.symm (hr h)) (r.leave root)
    rw [r.apartFrom_leave, ← node_of_spot?_eq (Ne.symm (hr h)), hs] at hnode
    obtain ⟨s', hs', hhere⟩ := Option.map_eq_some_iff.1 hnode
    exact ⟨s', pkgs, hs', hhere.trans hpkgs, rfl⟩

/-- Packages on a line of their own are given another node, and nothing else is changed. -/
theorem PackagesEdited.exists_setNode {name : Text} {root root' : Object}
    (h : PackagesEdited name root root') {s : Spot} (hs : spot? root packagesKey = some s)
    (hlead : s.here.lead.breaksLine = true) : ∃ n, root' = withSpot root (s.setNode n) := by
  cases h with
  | kept => exact ⟨s.here.node, (withSpot_setNode_self hs).symm⟩
  | made n hnone => simp [hs] at hnone
  | @put s₀ n changed hs₀ _ =>
    obtain rfl := Option.some.inj (hs.symm.trans hs₀)
    have hlead' : (s.setNode n).here.lead.breaksLine = true := hlead
    refine ⟨n, ?_⟩
    rw [putPackages, hlead', if_neg (by simp)]

end EnvManifest
