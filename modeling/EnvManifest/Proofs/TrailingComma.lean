import EnvManifest.Proofs.Edit.Marks
import EnvManifest.Proofs.Internal
import EnvManifest.Proofs.Layout.Ending
import EnvManifest.Proofs.Untouched

/-!
# Trailing commas when a package is added

Whether there is a comma behind the last child of an object or array is a choice of whoever wrote
it, and layout is to make it only where there was no child before. Adding a package puts in a child,
sets a node or takes a version out, and an object or array that had children and still has some
keeps one that is not fresh, and with it the choice (`Node.KeepsEnding`). The one exception is the
root if the packages are its only member and stand on the line of its bracket: they are moved to a
line of their own, as if the edit had made them (`Manifest.MovesAll`), and the comma behind them is
chosen anew. All else ends as it was written (`Manifest.endingAt?_run_add`).
-/

namespace EnvManifest

open Manifest Object

/-! ### What an edit leaves to choose -/

namespace Composite

variable {κ : Type} {c c' : Composite κ Node}

/-- A composite with children before and after an edit, or with none, has the same comma then and
leaves nothing to choose. -/
def KeepsEnding (c c' : Composite κ Node) : Prop :=
  c'.children.isEmpty = c.children.isEmpty → c'.trailingComma = c.trailingComma ∧ ¬c'.Chooses

theorem keepsEnding_of_not_dirty (hdirty : c'.dirty = false)
    (hcomma : c'.trailingComma = c.trailingComma) : c.KeepsEnding c' :=
  fun _ => ⟨hcomma, fun h => by simpa [hdirty] using h.1⟩

/-- A child that was there before is enough. -/
theorem keepsEnding_of_mem {m : Child κ Node} (hm : m ∈ c'.children) (hfresh : m.fresh = false)
    (hcomma : c'.trailingComma = c.trailingComma) : c.KeepsEnding c' :=
  fun _ => ⟨hcomma, fun h => by simpa [hfresh] using h.2 m hm⟩

namespace AtRest

theorem keepsEnding_push (h : c.AtRest) (k : Child κ Node) : c.KeepsEnding (c.push k) := by
  cases hc : c.children with
  | nil => exact fun hempty => by simp [hc] at hempty
  | cons m ms =>
    have hm : m ∈ c.children := hc ▸ List.mem_cons_self
    exact keepsEnding_of_mem (List.mem_append_left _ hm) (h.2 m hm) rfl

theorem keepsEnding_remove (h : c.AtRest) (i : Nat) : c.KeepsEnding (c.remove i) := by
  have hcomma : (c.remove i).trailingComma = c.trailingComma := by
    rw [remove]
    split <;> rfl
  cases hc : (c.remove i).children with
  | nil =>
    intro hempty
    rw [hc] at hempty
    have hnone : c.children = [] := List.isEmpty_iff.1 hempty.symm
    have hsame : c.remove i = c := by rw [remove, hnone, List.drop_nil]
    rw [hsame]
    exact keepsEnding_of_not_dirty h.1 rfl rfl
  | cons m ms =>
    have hm : m ∈ (c.remove i).children := hc ▸ List.mem_cons_self
    obtain ⟨k, hk, -, hfresh⟩ := exists_of_mem_remove hm
    exact keepsEnding_of_mem hm (hfresh.trans (h.2 k hk)) hcomma

end AtRest

end Composite

namespace Node

/-- An object or array that an edit leaves as one of its kind, with the ending that it had. -/
def KeepsEnding : Node → Node → Prop
  | .object ms, .object ms' => ms.KeepsEnding ms'
  | .array es, .array es' => es.KeepsEnding es'
  | _, _ => False

theorem keepsEnding_of_atRest {n : Node} (h : n.AtRest) : Throughout KeepsEnding n n := by
  refine h.throughout fun x hend hx => ?_
  cases x with
  | object ms | array es => exact Composite.keepsEnding_of_not_dirty hx.1 rfl
  | null | bool b | number t | string l => simp [ending?] at hend

/-- **An ending that is kept through an edit and layout.** -/
theorem KeepsEnding.exists_ending {n n₁ n' : Node} (h : KeepsEnding n n₁) (hlaid : LaysOut n₁ n')
    {e : Ending} (he : n.ending? = some e) :
    ∃ e', n'.ending? = some e' ∧ (e'.empty = e.empty → e'.comma = e.comma) := by
  obtain ⟨e₁, he₁, hkeeps⟩ : ∃ e₁, n₁.ending? = some e₁ ∧
      (e₁.empty = e.empty → e₁.comma = e.comma ∧ ¬n₁.Chooses) := by
    cases n with
    | object ms =>
      obtain rfl := Option.some.inj he
      cases n₁ with
      | object ms₁ => exact ⟨_, rfl, h⟩
      | null | bool b | number t | string l | array es₁ => exact h.elim
    | array es =>
      obtain rfl := Option.some.inj he
      cases n₁ with
      | array es₁ => exact ⟨_, rfl, h⟩
      | null | bool b | number t | string l | object ms₁ => exact h.elim
    | null | bool b | number t | string l => exact h.elim
  obtain ⟨e', he', hempty, hcomma⟩ := hlaid.exists_ending he₁
  refine ⟨e', he', fun hsame => ?_⟩
  obtain ⟨hcomma₁, hchooses⟩ := hkeeps (hempty ▸ hsame)
  exact (hcomma hchooses).trans hcomma₁

/-! ### Objects -/

variable {o : Object} {name : Text} {s : Spot}

theorem keepsEnding_of_mem_nodesOf (hrest : (Node.object o).AtRest) {x : Node}
    (hx : x ∈ nodesOf o name) : Throughout KeepsEnding x x := by
  obtain ⟨m, hm, rfl⟩ := List.mem_map.1 hx
  exact keepsEnding_of_atRest ((everywhere_object.1 hrest).2 m (List.mem_of_mem_filter hm))

/-- Members of other names, which are left as they are. -/
theorem throughoutAll_of_ne {o' : Object} {other : Text} (hrest : (Node.object o).AtRest)
    (hne : other ≠ name) (h : apartFrom (some name) o' = apartFrom (some name) o) :
    ThroughoutAll KeepsEnding (nodesOf o other) (nodesOf o' other) := by
  rw [nodesOf_eq_of_apartFrom hne h]
  simpa using throughoutAll_append (fun x hx => keepsEnding_of_mem_nodesOf hrest hx) []

/-- **The first member of a name after an edit of its node**, on whatever line. -/
theorem throughoutAll_withSpot (hs : spot? o name = some s) (hrest : (Node.object o).AtRest)
    (here : Member) (hname : Member.name here = name)
    (hnode : s.here.node.ending?.isSome → Throughout KeepsEnding s.here.node here.node)
    (dirty : Bool) (other : Text) : ThroughoutAll KeepsEnding (nodesOf o other)
      (nodesOf { withSpot o { s with here := here } with dirty := dirty } other) := by
  by_cases hother : other = name
  · subst hother
    have hbefore := not_mem_before_of_spotIn? hs
    have hold := nodesOf_members hbefore (name_of_spot? hs) (members_of_spot? hs)
    rw [hold, nodesOf_members (o := { withSpot o { s with here := here } with dirty := dirty })
      (s := { s with here := here }) hbefore hname rfl]
    refine throughoutAll_cons hnode fun x hx => ?_
    have hmem : x ∈ nodesOf o other := hold ▸ List.mem_cons_of_mem _ hx
    exact keepsEnding_of_mem_nodesOf hrest hmem
  · exact throughoutAll_of_ne hrest hother (apartFrom_withSpot hs here hname dirty)

theorem throughout_setNode (hs : spot? o name = some s) (hrest : (Node.object o).AtRest) {n : Node}
    (hn : s.here.node.ending?.isSome → Throughout KeepsEnding s.here.node n) :
    Throughout KeepsEnding (.object o) (.object (withSpot o (s.setNode n))) := by
  have hhere : o.KeepsEnding (withSpot o (s.setNode n)) :=
    Composite.keepsEnding_of_not_dirty hrest.here.1 rfl
  exact throughout_object hhere
    (throughoutAll_withSpot hs hrest { s.here with node := n } (name_of_spot? hs) hn o.dirty)

theorem throughoutAll_push (hrest : (Node.object o).AtRest) (m : Member) (name : Text) :
    ThroughoutAll KeepsEnding (nodesOf o name) (nodesOf (o.push m) name) := by
  obtain ⟨rest, heq⟩ := nodesOf_push o m name
  rw [heq]
  exact throughoutAll_append (fun x hx => keepsEnding_of_mem_nodesOf hrest hx) rest

theorem throughout_push (hrest : (Node.object o).AtRest) (m : Member) :
    Throughout KeepsEnding (.object o) (.object (o.push m)) :=
  throughout_object (Composite.AtRest.keepsEnding_push hrest.here m) (throughoutAll_push hrest m)

theorem throughout_pushElement {es : Elements} (hrest : (Node.array es).AtRest) (e : Value) :
    Throughout KeepsEnding (.array es) (.array (es.push e)) := by
  refine throughout_array (Composite.AtRest.keepsEnding_push hrest.here e) ?_
  rw [Composite.children_push, List.map_append]
  refine throughoutAll_append (fun x hx => ?_) _
  obtain ⟨e, he, rfl⟩ := List.mem_map.1 hx
  exact keepsEnding_of_atRest ((everywhere_array.1 hrest).2 e he)

/-- A member may be taken out if those of its name are neither objects nor arrays. -/
theorem throughout_removeFirst (hrest : (Node.object o).AtRest)
    (hleaf : ∀ m ∈ o.children, Member.name m = name → m.node.ending? = none) :
    Throughout KeepsEnding (.object o) (.object (removeFirst o name)) := by
  refine throughout_object ?_ fun other => ?_
  · rw [removeFirst]
    split
    · exact Composite.AtRest.keepsEnding_remove hrest.here _
    · exact Composite.keepsEnding_of_not_dirty hrest.here.1 rfl
  · by_cases hother : other = name
    · intro i x hx hend
      obtain ⟨m, hm, rfl⟩ := List.mem_map.1 (List.mem_of_getElem? hx)
      obtain ⟨hm, hname⟩ := List.mem_filter.1 hm
      rw [hleaf m hm (by simpa [hother] using hname)] at hend
      simp at hend
    · exact throughoutAll_of_ne hrest hother (apartFrom_removeFirst o name)

end Node

/-! ### Packages -/

section Packages

open Node

variable {root : Object} {v : VersionedName} {s : Spot} {n : Node}

/-- A node that is decoded as a text is neither an object nor an array. -/
theorem ending?_of_decodeText {a : Text} (h : Datum.decodeText n.datum = .ok a) :
    n.ending? = none := by
  cases n with
  | object ms => simp [Datum.decodeText] at h
  | array es => simp [Datum.decodeText] at h
  | null | bool b | number t | string l => rfl

/-- The version of an entry is one. -/
theorem ending?_version {o : Object} {t : EntryFields} (h : EntryFields.decode o = .ok t)
    {m : Member} (hm : m ∈ o.children) (hname : Member.name m = "version".toList) :
    m.node.ending? = none := by
  obtain ⟨before, after, hsplit⟩ := List.append_of_mem hm
  have hentries : o.entries =
      before.map Member.entry ++ ("version".toList, m.node.datum) :: after.map Member.entry := by
    rw [entries, hsplit, List.map_append, List.map_cons, ← hname]
    rfl
  rw [EntryFields.decode, hentries] at h
  obtain ⟨-, -, -, a, ha⟩ := Datum.exists_of_decodeMembers EntryFields.hasField_version h
  exact ending?_of_decodeText ha

/-- **An entry with another version.** -/
theorem throughout_entryWithVersion {name version : Text} {entry : Node} {p : Package}
    (hp : Package.decode name entry.datum = .ok p) (hrest : entry.AtRest)
    (hn : entryWithVersion? version entry = some n) (hend : entry.ending?.isSome) :
    Throughout KeepsEnding entry n := by
  cases entry with
  | object o =>
    rw [Node.datum_object] at hp
    obtain ⟨t, ht, -⟩ := bind_eq_ok.1 hp
    simp only [entryWithVersion?] at hn
    split at hn
    · rename_i s hs
      have hleaf : s.here.node.ending? = none :=
        ending?_version ht (mem_of_spot? hs) (name_of_spot? hs)
      split at hn
      · obtain rfl := Option.some.inj hn
        exact throughout_removeFirst hrest fun m hm => ending?_version ht hm
      · split at hn
        · simp at hn
        · obtain rfl := Option.some.inj hn
          exact throughout_setNode hs hrest fun hsome => by simp [hleaf] at hsome
    · split at hn
      · simp at hn
      · obtain rfl := Option.some.inj hn
        exact throughout_push hrest _
  | array es =>
    rw [Node.datum_array] at hp
    simp [Package.decode] at hp
  | null | bool b | number t | string l => simp [ending?] at hend

/-- **Packages with one added or with another version**, put back. -/
theorem exists_addPackage {ps : List Package} {d : Nat} (hs : spot? root packagesKey = some s)
    (hin : PackagesIn d s.here.node ps ∨ s.here.node = .null) (hrest : s.here.node.AtRest)
    (hnew : ∀ p ∈ ps, ¬isNamed v p) :
    ∃ n, (addPackage v root).2 = putPackages root (s.setNode n) true ∧
      (s.here.node.ending?.isSome → Throughout KeepsEnding s.here.node n) := by
  rw [addPackage, packagesSpot, hs]
  dsimp only [Spot.setNode]
  rcases hin with hin | hnull
  · generalize s.here.node = n at hin hrest ⊢
    cases hin with
    | @object pkgs _ hps _ =>
      dsimp only [editablePackages]
      split
      · rename_i entry hentry
        obtain ⟨ps₁, p, ps₂, -, hp, -, rfl, -, hname⟩ := Package.decodeEntries_spot hentry hps
        have hrest' : entry.here.node.AtRest :=
          (everywhere_object.1 hrest).2 entry.here (mem_of_spot? hentry)
        split
        · rename_i n hversion
          exact ⟨_, rfl, fun _ => throughout_setNode hentry hrest
            (throughout_entryWithVersion hp hrest' hversion)⟩
        -- an entry that has the version is that of a package which is listed
        · rename_i hversion
          refine absurd ?_ (hnew p (by simp))
          rw [isNamed, Bool.and_eq_true]
          exact ⟨hname, beq_iff_eq.2 (version_of_entryWithVersion_eq_none hp hversion)⟩
      · exact ⟨_, rfl, fun _ => throughout_push hrest _⟩
    | @array es _ hps _ => exact ⟨_, rfl, fun _ => throughout_pushElement hrest _⟩
  · rw [hnull]
    exact ⟨_, rfl, fun hend => by simp [ending?] at hend⟩

/-! ### The root -/

/-- The packages are all that there is in a root object, and stand on the line of its bracket. -/
def Object.JustPackages (root : Object) : Prop :=
  ∃ p, root.children = [p] ∧ Member.name p = packagesKey ∧ p.lead.breaksLine = false

theorem putPackages_of_breaksLine (hline : s.here.lead.breaksLine = true) (n : Node) :
    putPackages root (s.setNode n) true = withSpot root (s.setNode n) :=
  if_neg (by simp [Spot.setNode, hline])

theorem putPackages_of_not_breaksLine (hline : s.here.lead.breaksLine = false) (n : Node) :
    putPackages root (s.setNode n) true =
      { withSpot root { s with
          here := { s.here with lead := '\n' :: s.here.lead, node := n, fresh := true } } with
        dirty := true } :=
  if_pos (by simp [Spot.setNode, hline])

/-- Packages that are put back are found in their place. -/
theorem throughoutAll_putPackages (hs : spot? root packagesKey = some s)
    (hrest : (Node.object root).AtRest)
    (hn : s.here.node.ending?.isSome → Throughout KeepsEnding s.here.node n) (name : Text) :
    ThroughoutAll KeepsEnding (nodesOf root name)
      (nodesOf (putPackages root (s.setNode n) true) name) := by
  have hname : Member.name s.here = packagesKey := name_of_spot? hs
  cases hline : s.here.lead.breaksLine with
  | true =>
    rw [putPackages_of_breaksLine hline]
    exact throughoutAll_withSpot hs hrest { s.here with node := n } hname hn root.dirty name
  | false =>
    rw [putPackages_of_not_breaksLine hline]
    exact throughoutAll_withSpot hs hrest
      { s.here with lead := '\n' :: s.here.lead, node := n, fresh := true } hname hn true name

/-- Packages that are put back leave the root its ending if there is another member, or if they are
on a line of their own. -/
theorem keepsEnding_putPackages (hs : spot? root packagesKey = some s)
    (hrest : (Node.object root).AtRest) (hjust : ¬root.JustPackages) (n : Node) :
    root.KeepsEnding (putPackages root (s.setNode n) true) := by
  have hmembers : s.before ++ s.here :: s.after = root.children := members_of_spot? hs
  cases hline : s.here.lead.breaksLine with
  | true =>
    rw [putPackages_of_breaksLine hline]
    exact Composite.keepsEnding_of_not_dirty hrest.here.1 rfl
  | false =>
    rw [putPackages_of_not_breaksLine hline]
    obtain ⟨m, hm⟩ : ∃ m, m ∈ s.before ++ s.after := by
      refine List.exists_mem_of_ne_nil _ fun hnil => hjust ⟨s.here, ?_, name_of_spot? hs, hline⟩
      obtain ⟨hbefore, hafter⟩ := List.append_eq_nil_iff.1 hnil
      rw [← hmembers, hbefore, hafter, List.nil_append]
    have hstays : ∀ here, m ∈ s.before ++ here :: s.after := fun here =>
      ((List.sublist_cons_self here s.after).append_left s.before).subset hm
    exact Composite.keepsEnding_of_mem (hstays _) (hrest.here.2 m (hmembers ▸ hstays s.here)) rfl

/-- Packages on their own that are put back on another line are laid out as if they were new. -/
theorem settledComma_putPackages (hs : spot? root packagesKey = some s)
    (hjust : root.JustPackages) (n : Node) (standard : Bool) :
    (putPackages root (s.setNode n) true).ending.empty = false ∧
    (putPackages root (s.setNode n) true).dirty = true ∧
      ((putPackages root (s.setNode n) true).map (Node.settle standard)).settledComma standard =
        !standard := by
  obtain ⟨p, hroot, hname, hline⟩ := hjust
  obtain rfl : s = ⟨[], p, []⟩ := by
    rw [spot?, hroot, spotIn?, if_pos hname] at hs
    exact (Option.some.inj hs).symm
  rw [putPackages_of_not_breaksLine hline]
  refine ⟨rfl, rfl, ?_⟩
  simp [Composite.settledComma, Composite.isMultiline, withSpot, Spot.members, Text.breaksLine]

/-- **What adding a package leaves of a root object**, before it is laid out. -/
theorem keepsEnding_addPackage {S : Settings} {d : Nat} (h : root.Gives d S)
    (hrest : (Node.object root).AtRest) (hnew : ∀ p ∈ S.packages, ¬isNamed v p) :
    (∀ name, ThroughoutAll KeepsEnding (nodesOf root name) (nodesOf (addPackage v root).2 name)) ∧
      (¬root.JustPackages → root.KeepsEnding (addPackage v root).2) ∧
      (root.JustPackages → ∃ s n, spot? root packagesKey = some s ∧
        (addPackage v root).2 = putPackages root (s.setNode n) true) := by
  cases hs : spot? root packagesKey with
  | some s =>
    obtain ⟨n, heq, hn⟩ := exists_addPackage hs ((gives_packages h hs).1.imp_right And.left)
      ((everywhere_object.1 hrest).2 s.here (mem_of_spot? hs)) hnew
    rw [heq]
    exact ⟨throughoutAll_putPackages hs hrest hn,
      fun hjust => keepsEnding_putPackages hs hrest hjust n, fun _ => ⟨s, n, rfl, rfl⟩⟩
  | none =>
    obtain ⟨m, heq⟩ : ∃ m, (addPackage v root).2 = root.push m := by
      rw [addPackage, packagesSpot, hs]
      exact ⟨_, rfl⟩
    rw [heq]
    refine ⟨throughoutAll_push hrest m, fun _ => Composite.AtRest.keepsEnding_push hrest.here m, ?_⟩
    rintro ⟨p, hroot, hname, -⟩
    rw [spot?, hroot, spotIn?, if_pos hname] at hs
    simp at hs

end Packages

/-! ### Documents -/

namespace Document

open Node

/-- How the object or array at a place of a document ends. -/
def endingAt? (d : Document) (path : List Branch) : Option Ending :=
  ((Node.object d.root).descend? path).bind ending?

/-- A document with a package added to it that is not laid out yet. -/
def withPackage (d : Document) (v : VersionedName) : Document :=
  { d with root := (addPackage v d.root).2 }

variable {d : Document} {v : VersionedName} {S : Settings}

/-- **Below the root the endings are kept**, and at the root as well if the packages are not all
there is on the line of its bracket. -/
theorem exists_endingAt?_withPackage (h : d.Says S) (hrest : d.AtRest)
    (hnew : ∀ p ∈ S.packages, ¬isNamed v p) {path : List Branch} {e : Ending}
    (he : d.endingAt? path = some e) (hpath : path = [] → ¬d.root.JustPackages) :
    ∃ e', (d.withPackage v).format.endingAt? path = some e' ∧
      (e'.empty = e.empty → e'.comma = e.comma) := by
  obtain ⟨x, hx, he⟩ := Option.bind_eq_some_iff.1 he
  obtain ⟨hbelow, hroot, -⟩ := keepsEnding_addPackage h.gives hrest hnew
  obtain ⟨x₁, hx₁, hkeeps⟩ := exists_descend?_object path (fun hnil => hroot (hpath hnil)) hbelow hx
    (by rw [he]; rfl)
  obtain ⟨x', hx', hlaid⟩ := (laysOut_format (d.withPackage v)).descend? hx₁
  obtain ⟨e', he', hcomma⟩ := hkeeps.exists_ending hlaid he
  exact ⟨e', Option.bind_eq_some_iff.2 ⟨x', hx', he'⟩, hcomma⟩

/-- **Packages that are all there is on the line of the bracket get a comma behind them**, unless
the document is plain JSON. -/
theorem endingAt?_withPackage_nil (h : d.Says S) (hrest : d.AtRest)
    (hnew : ∀ p ∈ S.packages, ¬isNamed v p) (hjust : d.root.JustPackages) :
    (d.withPackage v).format.endingAt? [] =
      some ⟨false, !(d.withPackage v).toValue.isStandard⟩ := by
  obtain ⟨s, n, hs, heq⟩ := (keepsEnding_addPackage h.gives hrest hnew).2.2 hjust
  obtain ⟨hempty, hdirty, hcomma⟩ :=
    settledComma_putPackages hs hjust n (d.withPackage v).toValue.isStandard
  rw [← heq] at hempty hdirty hcomma
  have hmark : (d.withPackage v).toValue.node.isDirty = true := by
    refine (Node.isDirty_object (addPackage v d.root).2).trans ?_
    rw [hdirty, Bool.true_or]
  obtain ⟨step, line, hlaid⟩ := Value.laidBy_format hmark
  rw [← toValue_format] at hlaid
  have hroot := hlaid.trans (indent_settle_object _ step line (addPackage v d.root).2)
  obtain hroot := Node.object.inj hroot
  rw [endingAt?]
  change some (d.withPackage v).format.root.ending = _
  rw [hroot, Composite.ending_laid, if_pos hdirty, hcomma]
  exact congrArg (fun b => some (Ending.mk b _)) hempty

end Document

namespace Manifest

variable {b : Octets} {m : Manifest} {text : Text}

/-- Adding the package moves all that there is: the packages are the only member of the root, stand
on the line of its bracket and do not list the package. -/
def MovesAll (m : Manifest) (text : Text) : Prop :=
  m.find? (VersionedName.ofText text) = none ∧ m.document.root.JustPackages

/-- A package that is not listed is added to the document. -/
theorem document_run_add (h : loadOctets b = .ok m) (hnone : m.find? (.ofText text) = none) :
    (m.run (.add text)).result = .ok () ∧
      (m.run (.add text)).manifest.document = (m.document.withPackage (.ofText text)).format := by
  obtain ⟨source, -, hload⟩ := loadOctets_eq_ok.1 h
  have hv : VersionedName.ofText (VersionedName.ofText text).toText = .ofText text :=
    congrArg VersionedName.ofText (VersionedName.toText_ofText text)
  obtain ⟨isNew, hanswer, -⟩ := gives_addPackage (load_eq_ok.1 hload).2.1.gives hv
  rw [run, add, hnone, if_neg (by simp), edited_eq hanswer]
  exact ⟨rfl, rfl⟩

/-- **Trailing commas when a package is added.** Adding a package succeeds. Every object and array
stays in its place, and if it has children then as it had before, or none then as before, it has the
comma that it was written with. The exception is the root if the packages are all there is in it and
they have to be moved to a line of their own: then it has a trailing comma exactly if the document
with the package is not plain JSON. -/
theorem endingAt?_run_add (h : loadOctets b = .ok m) (text : Text) :
    (m.run (.add text)).result = .ok () ∧
      (∀ path e, m.document.endingAt? path = some e → ¬(path = [] ∧ m.MovesAll text) →
        ∃ e', (m.run (.add text)).manifest.document.endingAt? path = some e' ∧
          (e'.empty = e.empty → e'.comma = e.comma)) ∧
      (m.MovesAll text → (m.run (.add text)).manifest.document.endingAt? [] = some
        ⟨false, !(m.document.withPackage (.ofText text)).toValue.isStandard⟩) := by
  obtain ⟨source, -, hload⟩ := loadOctets_eq_ok.1 h
  have hsaid := (load_eq_ok.1 hload).2.1
  have hrest := atRest_of_loadOctets h
  cases hfind : m.find? (.ofText text) with
  | some p =>
    have hrun : m.run (.add text) = m.unchanged := by
      rw [run, add, hfind, if_pos (by simp)]
    rw [hrun]
    exact ⟨rfl, fun path e he _ => ⟨e, he, fun _ => rfl⟩,
      fun hmoves => absurd (hfind.symm.trans hmoves.1) (by simp)⟩
  | none =>
    have hnew : ∀ p ∈ m.toSettings.packages, ¬isNamed (.ofText text) p := List.find?_eq_none.1 hfind
    obtain ⟨hresult, hdocument⟩ := document_run_add h hfind
    rw [hdocument]
    exact ⟨hresult, fun path e he hpath => Document.exists_endingAt?_withPackage hsaid hrest hnew he
        fun hnil hjust => hpath ⟨hnil, hfind, hjust⟩,
      fun hmoves => Document.endingAt?_withPackage_nil hsaid hrest hnew hmoves.2⟩

/-- The packages are an array with a comma behind its only element, beside another member. -/
theorem endingAt?_run_add_array :
    ∃ m path e e', loadOctets (Text.utf8
        "\x7b\"packages\": [\"go@1\", /* all */], \"name\": \"web\"\x7d".toList) = .ok m ∧
      path = [.member packagesKey 0] ∧ m.document.endingAt? path = some e ∧
      ¬(path = [] ∧ m.MovesAll "jq@2".toList) ∧ (m.run (.add "jq@2".toList)).result = .ok () ∧
      (m.run (.add "jq@2".toList)).manifest.document.endingAt? path = some e' ∧
      e'.empty = e.empty ∧ e'.comma = e.comma := by
  obtain ⟨m, hm, he, hafter⟩ : ∃ m, loadOctets (Text.utf8
      "\x7b\"packages\": [\"go@1\", /* all */], \"name\": \"web\"\x7d".toList) = .ok m ∧
      m.document.endingAt? [.member packagesKey 0] = some ⟨false, true⟩ ∧
      (m.run (.add "jq@2".toList)).manifest.document.endingAt? [.member packagesKey 0] =
        some ⟨false, true⟩ := by
    decide +kernel
  have hpath : ¬([Branch.member packagesKey 0] = [] ∧ m.MovesAll "jq@2".toList) := by simp
  obtain ⟨hresult, hkept, -⟩ := endingAt?_run_add hm "jq@2".toList
  obtain ⟨e', he', hcomma⟩ := hkept _ _ he hpath
  obtain rfl : _ = e' := Option.some.inj (hafter.symm.trans he')
  exact ⟨m, _, _, _, hm, rfl, he, hpath, hresult, he', rfl, hcomma rfl⟩

/-- **The trailing comma of the root is chosen anew** when its only member is moved to a line of its
own. -/
theorem not_keeps_ending :
    ∃ m e e', loadOctets (Text.utf8 "\x7b\"packages\": \x7b\x7d\x7d // c".toList) = .ok m ∧
      (m.run (.add "go@1".toList)).result = .ok () ∧ m.document.endingAt? [] = some e ∧
      (m.run (.add "go@1".toList)).manifest.document.endingAt? [] = some e' ∧
      e.empty = false ∧ e'.empty = false ∧ e'.comma ≠ e.comma := by
  obtain ⟨m, hm, hresult, he, he'⟩ : ∃ m,
      loadOctets (Text.utf8 "\x7b\"packages\": \x7b\x7d\x7d // c".toList) = .ok m ∧
      (m.run (.add "go@1".toList)).result = .ok () ∧
      m.document.endingAt? [] = some ⟨false, false⟩ ∧
      (m.run (.add "go@1".toList)).manifest.document.endingAt? [] = some ⟨false, true⟩ := by
    decide +kernel
  exact ⟨m, _, _, hm, hresult, he, he', rfl, rfl, by decide⟩

end Manifest

end EnvManifest
