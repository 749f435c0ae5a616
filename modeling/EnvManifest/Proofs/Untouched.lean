import EnvManifest.Proofs.Addressing
import EnvManifest.Proofs.Edit.Apart
import EnvManifest.Proofs.Failure
import EnvManifest.Proofs.Layout.Untouched
import EnvManifest.Proofs.Reload

/-!
# What an operation leaves as it is written

An operation is about one member of the document's root (`Operation.member`), and if that is the
packages, about those of one name (`Operation.packageName?`). What it is not about is written as
before (`Document.KeepsApart`):

* the values of all other members of the root;
* if the packages are an object, its entries of all other names;
* if the packages are on a line of their own, all of the document that is not their value.

The edit of an operation does not touch the nodes of other members, and layout does not write
anew what has no mark of an edit. A manifest that was loaded has no mark in it, and operations
leave none, so this holds after any number of them (`Manifest.keepsApart_run`).
-/

namespace EnvManifest

open Object

/-! ### Members apart, as they are written -/

namespace Object

variable {o o' : Object} {name? : Option Text}

/-- The members of an object but those of a name, if one is given, each as its name and its value
are written. -/
def writtenApartFrom (name? : Option Text) (o : Object) : List (Text × Text) :=
  (o.apartFrom name?).map fun p => (p.1.raw, p.2.pack)

/-- Layout writes members apart from a name as before if they have no mark. -/
theorem writtenApartFrom_of_forall₂ (h : List.Forall₂ Member.LaysOut o.children o'.children)
    (hclean : ∀ p ∈ o.apartFrom name?, p.2.isDirty = false) :
    o'.writtenApartFrom name? = o.writtenApartFrom name? := by
  rw [apartFrom] at hclean
  rw [writtenApartFrom, writtenApartFrom, apartFrom, apartFrom]
  generalize o.children = ms at h hclean
  generalize o'.children = ms' at h
  induction h with
  | nil => rfl
  | @cons m m' ms ms' hm _ ih =>
    rw [List.map_cons, List.filter_cons] at hclean
    rw [List.map_cons, List.filter_cons, List.map_cons, List.filter_cons, hm.name]
    split
    · rename_i hname
      rw [if_pos hname] at hclean
      obtain ⟨hnode, hrest⟩ := List.forall_mem_cons.1 hclean
      rw [List.map_cons, List.map_cons, ih hrest, hm.node.pack_eq hnode]
    · rename_i hname
      rw [if_neg hname] at hclean
      exact ih hclean

/-- Members of a tree without a mark have none. -/
theorem isDirty_of_mem_apartFrom (h : (Node.object o).isDirty = false) {p : Literal × Node}
    (hp : p ∈ o.apartFrom name?) : p.2.isDirty = false := by
  obtain ⟨m, hm, rfl⟩ := List.mem_map.1 (List.mem_filter.1 hp).1
  exact Node.isDirty_of_mem h hm

end Object

/-! ### A document around a member -/

namespace Spot

/-- What is written in front of the value of a member, behind the opening bracket. -/
def front (s : Spot) : Text :=
  (s.before.map Child.written).flatMap (· ++ [',']) ++ s.here.lead ++ Label.pack s.here.label

/-- What is written behind the value of a member of an object, in front of the closing
bracket. -/
def back (s : Spot) (o : Object) : Text :=
  s.here.trail ++ (s.after.map Child.written).flatMap (',' :: ·) ++
    (if o.trailingComma then [','] else []) ++ o.closing

end Spot

section Pack

variable {κ : Type} [Label κ] {closing : Text} {comma dirty : Bool}

theorem Composite.pack_cons_eq_flatMap (c : Child κ Text) (cs : List (Child κ Text)) :
    pack ⟨c :: cs, closing, comma, dirty⟩ = c.pack ++ (cs.map Child.pack).flatMap (',' :: ·) ++
      (if comma then [','] else []) ++ closing := by
  induction cs generalizing c with
  | nil => simp [pack_singleton]
  | cons d cs ih =>
    rw [pack_cons_cons, ih]
    simp

theorem Composite.pack_append_cons (before : List (Child κ Text)) (c : Child κ Text)
    (after : List (Child κ Text)) :
    pack ⟨before ++ c :: after, closing, comma, dirty⟩ =
      (before.map Child.pack).flatMap (· ++ [',']) ++ pack ⟨c :: after, closing, comma, dirty⟩ := by
  induction before with
  | nil => rfl
  | cons b before ih =>
    obtain ⟨d, ds, hd⟩ := List.exists_cons_of_ne_nil (List.append_ne_nil_of_right_ne_nil before
      (List.cons_ne_nil c after))
    rw [hd] at ih
    rw [List.cons_append, hd, pack_cons_cons, ih]
    simp

end Pack

/-- An object is written as what is in front of a member's value, the value, and what is behind
it. -/
theorem Object.pack_of_members {o : Object} {s : Spot} (h : s.members = o.children) :
    (o.map Node.pack).pack = s.front ++ s.here.node.pack ++ s.back o := by
  obtain ⟨children, closing, comma, dirty⟩ := o
  obtain rfl : s.members = children := h
  rw [Composite.map_mk, Spot.members, List.map_append, List.map_cons, Composite.pack_append_cons,
    Composite.pack_cons_eq_flatMap, List.map_map, List.map_map]
  simp only [Spot.front, Spot.back, Child.pack, Child.lead_map, Child.label_map, Child.node_map,
    Child.trail_map, List.append_assoc]
  rfl

namespace Document

variable {d d' : Document} {name : Text}

/-- A document cut around the value of the first member of a name: what is in front, the value,
and what is behind. -/
def cutAt? (d : Document) (name : Text) : Option (Text × Node × Text) :=
  (spot? d.root name).map fun s =>
    (d.lead ++ '\x7b' :: s.front, s.here.node, s.back d.root ++ '\x7d' :: d.trail)

/-- A document that has been cut is written as its parts are. -/
theorem pack_of_cutAt? {front back : Text} {n : Node}
    (h : d.cutAt? name = some (front, n, back)) : d.pack = front ++ n.pack ++ back := by
  obtain ⟨s, hs, heq⟩ := Option.map_eq_some_iff.1 h
  simp only [Prod.mk.injEq] at heq
  obtain ⟨rfl, rfl, rfl⟩ := heq
  rw [pack, Value.pack, toValue, Node.pack_object, Object.pack_of_members (members_of_spot? hs)]
  simp

/-! ### Requests -/

/-- The packages of a document, if they are an object. -/
def packages? (d : Document) : Option Object :=
  (spot? d.root packagesKey).bind fun s => s.here.node.object?

/-- There are packages, and they start a line. -/
def PackagesOnOwnLine (d : Document) : Prop :=
  ∃ s ∈ spot? d.root packagesKey, s.here.lead.breaksLine = true

instance (d : Document) : Decidable d.PackagesOnOwnLine :=
  inferInstanceAs (Decidable (∃ s ∈ spot? d.root packagesKey, s.here.lead.breaksLine = true))

/-- What a change about one member of the root, and maybe about the packages of a name, leaves
as it was written. -/
structure KeepsApart (member : Text) (package? : Option Text) (d d' : Document) : Prop where
  members : d'.root.writtenApartFrom (some member) = d.root.writtenApartFrom (some member)
  entries : ∀ pkgs ∈ d.packages?, ∃ pkgs' ∈ d'.packages?,
    pkgs'.writtenApartFrom package? = pkgs.writtenApartFrom package?
  around : package?.isSome → d.PackagesOnOwnLine → ∃ front n n' back,
    d.cutAt? packagesKey = some (front, n, back) ∧ d.pack = front ++ n.pack ++ back ∧
    d'.cutAt? packagesKey = some (front, n', back) ∧ d'.pack = front ++ n'.pack ++ back

theorem laysOut_format (d : Document) : (Node.object d.root).LaysOut (.object d.format.root) := by
  have h := d.toValue.laysOut_format
  rwa [← toValue_format] at h

/-- The slots around the root are not touched. -/
theorem slots_of_format (d : Document) : d.format.lead = d.lead ∧ d.format.trail = d.trail := by
  have h := Value.slots_format d.toValue
  rwa [← toValue_format] at h

theorem exists_spot_of_packages? {pkgs : Object} (h : pkgs ∈ d.packages?) :
    ∃ s, spot? d.root packagesKey = some s ∧ s.here.node = .object pkgs := by
  obtain ⟨s, hs, hobject⟩ := Option.bind_eq_some_iff.1 h
  refine ⟨s, hs, ?_⟩
  cases hnode : s.here.node with
  | object o => simpa [hnode, Node.object?] using hobject
  | null | bool b | number t | string l | array es => simp [hnode, Node.object?] at hobject

/-- Members that stay put are written as before if they have no mark. -/
theorem written_of_forall₂ {ms ms' : List Member} (h : List.Forall₂ Member.StaysPut ms ms')
    (hclean : ∀ m ∈ ms, m.node.isDirty = false) :
    ms'.map Child.written = ms.map Child.written := by
  induction h with
  | nil => rfl
  | cons hm _ ih =>
    obtain ⟨hnode, hrest⟩ := List.forall_mem_cons.1 hclean
    rw [List.map_cons, List.map_cons, ih hrest, hm.written_eq hnode]

/-- **Another node for a member of an object without a mark**: after layout the document is
written as before around it. -/
theorem cutAt?_format_setNode (hclean : d.Clean) {s : Spot} (hs : spot? d.root name = some s)
    (n : Node) : ∃ front n' back, d.cutAt? name = some (front, s.here.node, back) ∧
      (format { d with root := withSpot d.root (s.setNode n) }).cutAt? name =
        some (front, n', back) := by
  have hroot : (Node.object d.root).isDirty = false := hclean
  have hdirty : d.root.dirty = false := (Bool.or_eq_false_iff.1 (Node.isDirty_object _ ▸ hroot)).1
  obtain ⟨o', ho', hput, hclosing, hcomma⟩ :=
    (laysOut_format { d with root := withSpot d.root (s.setNode n) }).object_of_not_dirty hdirty
  obtain ⟨hlead, htrail⟩ := slots_of_format { d with root := withSpot d.root (s.setNode n) }
  have hnot : name ∉ s.before.map Member.name := not_mem_before_of_spotIn? hs
  have hname : Member.name s.here = name := name_of_spot? hs
  have hspot : spotIn? name (withSpot d.root (s.setNode n)).children = some (s.setNode n) :=
    spotIn?_members hnot hname
  obtain ⟨s', hs', hbefore, hhere, hafter⟩ :=
    spotIn?_of_forall₂ (fun _ _ => Member.StaysPut.name_eq) hput hspot
  have hmem : ∀ m ∈ s.members, m.node.isDirty = false := by
    rw [members_of_spot? hs]
    exact fun m hm => Node.isDirty_of_mem hroot hm
  have hfront : s'.front = s.front := by
    have hwritten := written_of_forall₂ hbefore fun m hm => hmem m (List.mem_append_left _ hm)
    rw [Spot.front, Spot.front, hwritten, hhere.lead, hhere.label]
    rfl
  have hback : s'.back o' = s.back d.root := by
    have hwritten := written_of_forall₂ hafter fun m hm =>
      hmem m (List.mem_append_right _ (List.mem_cons_of_mem _ hm))
    rw [Spot.back, Spot.back, hwritten, hhere.trail, hclosing, hcomma]
    rfl
  obtain rfl := Node.object.inj ho'
  refine ⟨_, s'.here.node, _, by rw [cutAt?, hs]; rfl, ?_⟩
  rw [cutAt?, spot?, hs', hlead, htrail]
  change some (_, _, _) = _
  rw [hfront, hback]

/-- **A request leaves what it is not about as it was written.** -/
theorem keepsApart_after (hclean : d.Clean) {r : Request}
    (hr : r.package? = none → r.member ≠ packagesKey) :
    KeepsApart r.member r.package? d (d.after (some r)) := by
  have hroot : (Node.object d.root).isDirty = false := hclean
  obtain ⟨o', ho', hmembers⟩ := (laysOut_format { d with root := r.leave d.root }).object
  obtain rfl := Node.object.inj ho'
  refine ⟨?_, fun pkgs hpkgs => ?_, fun hsome honline => ?_⟩
  · have hleave := r.apartFrom_leave d.root
    refine (writtenApartFrom_of_forall₂ hmembers fun p hp => ?_).trans
      (congrArg (List.map _) hleave)
    rw [hleave] at hp
    exact isDirty_of_mem_apartFrom hroot hp
  · obtain ⟨s, hs, hnode⟩ := exists_spot_of_packages? hpkgs
    obtain ⟨s₁, pkgs₁, hs₁, hnode₁, hapart⟩ := r.exists_object hr hs hnode
    obtain ⟨s₂, hs₂, -, hhere, -⟩ :=
      spotIn?_of_forall₂ (fun _ _ => Member.LaysOut.name_eq) hmembers hs₁
    have hlaid := hhere.node
    rw [hnode₁] at hlaid
    obtain ⟨pkgs₂, hnode₂, hentries⟩ := hlaid.object
    refine ⟨pkgs₂, Option.bind_eq_some_iff.2 ⟨s₂, hs₂, by rw [hnode₂]; rfl⟩, ?_⟩
    -- the entries of other names are those that were there, and these have no mark
    have hpackages : (Node.object pkgs).isDirty = false := by
      rw [← hnode]
      exact Node.isDirty_of_mem hroot (mem_of_spot? hs)
    refine (writtenApartFrom_of_forall₂ hentries fun p hp => ?_).trans
      (congrArg (List.map _) hapart)
    rw [hapart] at hp
    exact isDirty_of_mem_apartFrom hpackages hp
  · obtain ⟨name, hname⟩ := Option.isSome_iff_exists.1 hsome
    obtain ⟨s, hs, hlead⟩ := honline
    obtain ⟨n, hleave⟩ := (Request.packagesEdited_leave hname d.root).exists_setNode hs hlead
    obtain ⟨front, n', back, hcut, hcut'⟩ := cutAt?_format_setNode hclean hs n
    rw [← hleave] at hcut'
    exact ⟨front, s.here.node, n', back, hcut, pack_of_cutAt? hcut, hcut', pack_of_cutAt? hcut'⟩

/-- So does doing nothing. -/
theorem keepsApart_self (d : Document) (member : Text) (package? : Option Text) :
    KeepsApart member package? d d where
  members := rfl
  entries pkgs hpkgs := ⟨pkgs, hpkgs, rfl⟩
  around _ := by
    rintro ⟨s, hs, -⟩
    obtain ⟨⟨front, n, back⟩, hcut⟩ : ∃ cut, d.cutAt? packagesKey = some cut :=
      ⟨_, Option.map_eq_some_iff.2 ⟨s, hs, rfl⟩⟩
    exact ⟨front, n, n, back, hcut, pack_of_cutAt? hcut, hcut, pack_of_cutAt? hcut⟩

end Document

/-! ### Operations -/

namespace Operation

/-- The member of the root that an operation is about. -/
def member : Operation → Text
  | setEnv _ => "env".toList
  | setString field _ => field.key
  | add _ | remove _ | addPlatforms _ _ | excludePlatforms _ _ | setOutputs _ _
  | setAllowInsecure _ _ | setPatch _ _ | setPatchGlibc _ _ | setDisablePlugin _ _ => packagesKey

/-- The name of the packages that an operation is about, if it is about packages. -/
def packageName? : Operation → Option Text
  | add package | remove package | addPlatforms package _ | excludePlatforms package _
  | setOutputs package _ | setAllowInsecure package _ | setPatch package _
  | setPatchGlibc package _ | setDisablePlugin package _ => some (VersionedName.ofText package).name
  | setEnv _ | setString _ _ => none

/-- An operation that is about no packages is about another member. -/
theorem member_ne_of_packageName? {op : Operation} (h : op.packageName? = none) :
    op.member ≠ packagesKey := by
  have henv : "env".toList ≠ packagesKey := by decide
  have hkey : ∀ field : StringField, field.key ≠ packagesKey := by
    intro field
    cases field <;> decide
  cases op with
  | setEnv env => exact henv
  | setString field value => exact hkey field
  | add package | remove package | addPlatforms package values | excludePlatforms package values
  | setOutputs package values | setAllowInsecure package values | setPatch package mode
  | setPatchGlibc package on | setDisablePlugin package on => simp [packageName?] at h

end Operation

namespace Manifest

variable {m : Manifest}

/-- A request about what an operation is about. -/
def Asks (op : Operation) (r : Request) : Prop :=
  r.member = op.member ∧ r.package? = op.packageName?

theorem package?_of_appendRequest? {package : Text} {field : ListField} {values : List Text}
    {refused : Package → Bool} {r : Request}
    (h : r ∈ m.appendRequest? package field values refused) :
    r.package? = some (VersionedName.ofText package).name := by
  rw [appendRequest?] at h
  cases hp : m.find? (VersionedName.ofText package) with
  | none => simp [hp] at h
  | some p =>
    rw [hp] at h
    dsimp only at h
    split at h
    · simp at h
    · split at h
      · simp at h
      · obtain rfl := Option.some.inj h
        exact congrArg some (name_of_find? hp)

theorem package?_of_platformsRequest? {package : Text} {field : ListField} {values : List Text}
    {refused : Package → Bool} {r : Request}
    (h : r ∈ m.platformsRequest? package field values refused) :
    r.package? = some (VersionedName.ofText package).name := by
  rw [platformsRequest?] at h
  split at h
  · simp at h
  · split at h
    · simp at h
    · exact package?_of_appendRequest? h

theorem package?_of_setPatchRequest? {package : Text} {mode : PatchMode} {r : Request}
    (h : r ∈ m.setPatchRequest? package mode) :
    r.package? = some (VersionedName.ofText package).name := by
  obtain ⟨p, hp, rfl⟩ := Option.map_eq_some_iff.1 h
  rw [← name_of_find? hp]
  cases mode <;> rfl

/-- **What an operation asks for is about what the operation is about.** -/
theorem asks_of_request? {op : Operation} {r : Request} (h : r ∈ m.request? op) : Asks op r := by
  have hpackages : ∀ {name}, op.packageName? = some name → op.member = packagesKey →
      r.package? = some name → Asks op r := fun hop hmember hr =>
    ⟨(Request.member_of_package? hr).trans hmember.symm, hr.trans hop.symm⟩
  cases op with
  | add package =>
    rw [request?] at h
    split at h
    · simp at h
    · obtain rfl := Option.some.inj h
      exact ⟨rfl, rfl⟩
  | remove package =>
    rw [request?] at h
    split at h
    · simp at h
    · obtain rfl := Option.some.inj h
      exact ⟨rfl, rfl⟩
  | addPlatforms package values => exact hpackages rfl rfl (package?_of_platformsRequest? h)
  | excludePlatforms package values => exact hpackages rfl rfl (package?_of_platformsRequest? h)
  | setOutputs package values => exact hpackages rfl rfl (package?_of_appendRequest? h)
  | setAllowInsecure package values => exact hpackages rfl rfl (package?_of_appendRequest? h)
  | setPatch package mode => exact hpackages rfl rfl (package?_of_setPatchRequest? h)
  | setPatchGlibc package on =>
    simp only [request?] at h
    generalize (if on = true then PatchMode.always else PatchMode.auto) = mode at h
    split at h
    · simp at h
    · split at h
      · simp at h
      · exact hpackages rfl rfl (package?_of_setPatchRequest? h)
  | setDisablePlugin package on =>
    rw [request?] at h
    cases hp : m.find? (VersionedName.ofText package) with
    | none => simp [hp] at h
    | some p =>
      rw [hp] at h
      dsimp only at h
      split at h
      · simp at h
      · obtain rfl := Option.some.inj h
        exact hpackages rfl rfl (congrArg some (name_of_find? hp))
  | setEnv env =>
    obtain rfl := Option.some.inj h
    exact ⟨rfl, rfl⟩
  | setString field value =>
    rw [request?] at h
    split at h
    · simp at h
    · obtain rfl := Option.some.inj h
      exact ⟨rfl, rfl⟩

/-- **An operation leaves what it is not about as it was written**, after any operations on a
manifest that was loaded. -/
theorem keepsApart_run {b : Octets} (h : loadOctets b = .ok m) (ops : List Operation)
    (op : Operation) : (m.runAll ops).document.KeepsApart op.member op.packageName?
      ((m.runAll ops).run op).manifest.document := by
  have hclean : (m.runAll ops).document.Clean := clean_runAll (clean_of_loadOctets h) ops
  rw [document_run]
  cases hr : (m.runAll ops).request? op with
  | none => exact Document.keepsApart_self _ _ _
  | some r =>
    obtain ⟨hmember, hname⟩ := asks_of_request? hr
    rw [← hmember, ← hname]
    refine Document.keepsApart_after hclean fun hnone => ?_
    rw [hmember]
    exact Operation.member_ne_of_packageName? (hname.symm.trans hnone)

/-- A package in an object on a line of its own is patched, after another one has been added. -/
theorem keepsApart_run_patched :
    ∃ m, loadOctets (Text.utf8 ("\x7b\n\"packages\": \x7b\"go\":  \"1.20\" , /* old */ ".toList ++
        "\"jq\":\x7b \x7d\x7d, // mine\n\"name\" : \"web\"\x7d".toList)) = .ok m ∧
      ∃ d op, d = (m.runAll [.add "fd@9".toList]).document ∧
        op = Operation.setPatch "go@1.20".toList .always ∧
        d.packages?.isSome ∧ d.PackagesOnOwnLine ∧
        d.KeepsApart op.member op.packageName?
          ((m.runAll [.add "fd@9".toList]).run op).manifest.document := by
  obtain ⟨m, hm, hobject, honline⟩ : ∃ m,
      loadOctets (Text.utf8 ("\x7b\n\"packages\": \x7b\"go\":  \"1.20\" , /* old */ ".toList ++
        "\"jq\":\x7b \x7d\x7d, // mine\n\"name\" : \"web\"\x7d".toList)) = .ok m ∧
      (m.runAll [.add "fd@9".toList]).document.packages?.isSome ∧
        (m.runAll [.add "fd@9".toList]).document.PackagesOnOwnLine := by
    decide +kernel
  exact ⟨m, hm, _, _, rfl, rfl, hobject, honline, keepsApart_run hm _ _⟩

end Manifest

end EnvManifest
