import EnvManifest.Proofs.Edit.Packages

/-!
# Packages listed in an array

An array lists packages by their versioned names, and the element that refers to a name
and version is the package of that name and version. Taking out the first such element
takes out the first such package (`Package.decodeElements_remove`), and turning the array
into an object changes nothing in the packages (`Package.decodeEntries_migrated`).
-/

namespace EnvManifest

open Manifest Object

/-! ### Versioned names -/

namespace VersionedName

theorem eq_mk_iff {v : VersionedName} {name version : Text} :
    v = ⟨name, version⟩ ↔ v.name = name ∧ v.version = version := by
  cases v
  simp

theorem append_afterLastAt {s : Text} (h : '@' ∈ s) :
    s.take (s.length - (afterLastAt s).length - 1) ++ '@' :: afterLastAt s = s := by
  have hsplit := List.takeWhile_append_dropWhile (p := (· != '@')) (l := s.reverse)
  cases hdrop : s.reverse.dropWhile (· != '@') with
  | nil =>
    rw [List.dropWhile_eq_nil_iff] at hdrop
    simpa using hdrop '@' (List.mem_reverse.2 h)
  | cons c r =>
    have hc : c = '@' := by
      have hhead := List.head?_dropWhile_not (· != '@') s.reverse
      simpa [hdrop] using hhead
    rw [hdrop, hc] at hsplit
    have hs : s = r.reverse ++ '@' :: afterLastAt s := by
      simpa [afterLastAt] using (congrArg List.reverse hsplit).symm
    have hlength := congrArg List.length hs
    rw [List.length_append, List.length_cons] at hlength
    have hnat : s.length - (afterLastAt s).length - 1 = r.reverse.length := by omega
    have htake : s.take r.reverse.length = r.reverse := by
      conv_lhs => rw [hs]
      exact List.take_left
    rw [hnat, htake]
    exact hs.symm

/-- What a text refers to is referred to by that text. -/
theorem toText_ofText (s : Text) : toText (ofText s) = s := by
  rw [ofText]
  split
  · rename_i hs
    obtain ⟨hmem, hne⟩ := Bool.and_eq_true_iff.1 hs
    rw [toText, if_neg (by simpa using hne)]
    exact append_afterLastAt (by simpa using hmem)
  · rfl

end VersionedName

/-! ### Packages in an array -/

namespace Package

/-- The package that an element of the array decodes to. -/
def decodeElement (d : Datum) : Decoded Package := do
  let s ← d.decodeText
  pure (ofVersion (VersionedName.ofText s))

/-- The packages that elements of the array decode to. -/
def decodeElements (es : List Value) : Decoded (List Package) :=
  (es.map fun e => e.node.datum).mapM decodeElement

theorem decodeList_array (es : Elements) :
    decodeList (Node.array es).datum = decodeElements es.children := by
  rw [Node.datum_array]
  rfl

theorem decodeList_object (pkgs : Object) :
    decodeList (Node.object pkgs).datum = decodeEntries pkgs.entries := by
  rw [Node.datum_object]
  rfl

theorem text?_of_decodeElement {n : Node} {p : Package} (h : decodeElement n.datum = .ok p) :
    ∃ s, n.text? = some s ∧ p = ofVersion (VersionedName.ofText s) := by
  obtain ⟨s, hs, hp⟩ := bind_eq_ok.1 h
  refine ⟨s, ?_, (Except.ok.inj hp).symm⟩
  cases n with
  | string l => exact congrArg some (Except.ok.inj hs)
  | object ms | array es => simp [Datum.decodeText] at hs
  | null | bool b | number t => simp [Node.datum, Node.denoting, Datum.decodeText] at hs

theorem decodeElements_cons {e : Value} {es : List Value} {ps : List Package} :
    decodeElements (e :: es) = .ok ps ↔ ∃ p ps', decodeElement e.node.datum = .ok p ∧
      decodeElements es = .ok ps' ∧ ps = p :: ps' :=
  mapM_cons_eq_ok

theorem decodeElement_of_mem {es : List Value} {ps : List Package}
    (h : decodeElements es = .ok ps) {e : Value} (he : e ∈ es) :
    ∃ p, decodeElement e.node.datum = .ok p := by
  induction es generalizing ps with
  | nil => simp at he
  | cons f es ih =>
    obtain ⟨p, ps, hp, hps, -⟩ := decodeElements_cons.1 h
    rcases List.mem_cons.1 he with rfl | he
    · exact ⟨p, hp⟩
    · exact ih hps he

theorem decodeElements_push {es : Elements} {ps : List Package}
    (h : decodeElements es.children = .ok ps) {e : Value} {p : Package}
    (he : decodeElement e.node.datum = .ok p) :
    decodeElements (es.push e).children = .ok (ps ++ [p]) := by
  rw [decodeElements, Composite.children_push, List.map_append]
  exact mapM_append_eq_ok.2 ⟨ps, [p], h, mapM_cons_eq_ok.2 ⟨p, [], he, rfl, rfl⟩, rfl⟩

/-- Packages of an array have nothing but a version. -/
theorem eq_ofVersion_of_decodeElements {es : List Value} {ps : List Package}
    (h : decodeElements es = .ok ps) : ∀ p ∈ ps, p = ofVersion ⟨p.name, p.version⟩ := by
  induction es generalizing ps with
  | nil =>
    obtain rfl := Except.ok.inj h
    simp
  | cons e es ih =>
    obtain ⟨p, ps, hp, hps, rfl⟩ := decodeElements_cons.1 h
    obtain ⟨s, -, rfl⟩ := text?_of_decodeElement hp
    exact List.forall_mem_cons.2 ⟨rfl, ih hps⟩

/-- Whether an element refers to a versioned name. -/
def refersTo (v : VersionedName) (e : Value) : Bool :=
  e.node.text?.map VersionedName.ofText == some v

theorem decodeElements_eraseP {es : List Value} {ps : List Package}
    (h : decodeElements es = .ok ps) (v : VersionedName) :
    decodeElements (es.eraseP (refersTo v)) = .ok (ps.eraseP (isNamed v)) := by
  induction es generalizing ps with
  | nil =>
    obtain rfl := Except.ok.inj h
    rfl
  | cons e es ih =>
    obtain ⟨p, ps, hp, hps, rfl⟩ := decodeElements_cons.1 h
    have hiff : refersTo v e = isNamed v p := by
      obtain ⟨s, hs, rfl⟩ := text?_of_decodeElement hp
      cases v
      rw [Bool.eq_iff_iff, refersTo, isNamed, hs]
      simp [ofVersion, VersionedName.eq_mk_iff]
    rw [List.eraseP_cons, List.eraseP_cons, hiff]
    cases isNamed v p with
    | true => exact hps
    | false => exact decodeElements_cons.2 ⟨p, _, hp, ih hps, rfl⟩

theorem decodeElements_congr {es es' : List Value} (h : es.map Child.node = es'.map Child.node) :
    decodeElements es = decodeElements es' := by
  have hdatum := congrArg (List.map Node.datum) h
  rw [List.map_map, List.map_map] at hdatum
  exact congrArg (List.mapM decodeElement) hdatum

/-- **Taking out an element takes out the first package of its name and version.** -/
theorem decodeElements_remove {es : Elements} {ps : List Package}
    (h : decodeElements es.children = .ok ps) {v : VersionedName} {i : Nat}
    (hi : elementIndex? v es = some i) :
    decodeElements (es.remove i).children = .ok (ps.eraseP (isNamed v)) := by
  have hnodes := congrArg (List.map Prod.snd) (Composite.nodes_remove es i)
  rw [List.map_map, List.map_map] at hnodes
  have herase : es.children.eraseP (refersTo v) = es.children.eraseIdx i := by
    rw [List.eraseP_eq_eraseIdx, show es.children.findIdx? (refersTo v) = some i from hi]
  rw [decodeElements_congr hnodes, ← herase]
  exact decodeElements_eraseP h v

theorem eraseP_eq_self_of_elementIndex? {es : Elements} {ps : List Package}
    (h : decodeElements es.children = .ok ps) {v : VersionedName}
    (hnone : elementIndex? v es = none) : ps.eraseP (isNamed v) = ps := by
  have herase : es.children.eraseP (refersTo v) = es.children := by
    rw [List.eraseP_eq_eraseIdx, show es.children.findIdx? (refersTo v) = none from hnone]
  have heraseP := decodeElements_eraseP h v
  rw [herase, h] at heraseP
  exact (Except.ok.inj heraseP).symm

/-- **An array of packages turned into an object** is read as the same packages. -/
theorem decodeEntries_migrated {es : Elements} {ps : List Package}
    (h : decodeElements es.children = .ok ps) : decodeEntries (migrated es).entries = .ok ps := by
  simp only [migrated, entries]
  generalize es.children = cs at h
  induction cs generalizing ps with
  | nil => exact h
  | cons e cs ih =>
    obtain ⟨p, ps, hp, hps, rfl⟩ := decodeElements_cons.1 h
    obtain ⟨s, hs, rfl⟩ := text?_of_decodeElement hp
    rw [List.filterMap_cons_some (by rw [migratedElement, hs]), List.map_cons]
    exact mapM_cons_eq_ok.2 ⟨_, ps, rfl, ih hps, rfl⟩

end Package

theorem fits_migrated {d : Nat} (es : Elements) : ∀ m ∈ (migrated es).children, m.Fits (Node.Fits d) := by
  intro m hm
  obtain ⟨e, -, he⟩ := List.mem_filterMap.1 hm
  rw [migratedElement] at he
  split at he
  · simp at he
  · obtain rfl := Option.some.inj he
    exact ⟨by simpa [Named.names] using isLiteral_ofText _, Node.fits_ofText _⟩

end EnvManifest
