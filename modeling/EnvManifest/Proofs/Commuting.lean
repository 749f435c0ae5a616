import EnvManifest.Proofs.Canonical
import EnvManifest.Proofs.Edit.Members
import EnvManifest.Proofs.Internal

/-!
# Settings of different packages commute

Two operations on the settings of packages of different names can be done in either order
(`Manifest.commutes_runAll`): each of them ends as it would have without the other, and in the
end the manifest says the same, in its settings and in its document. How the document is laid
out may depend on the order.

The reason is that such an operation looks at nothing but the package that is listed under its
versioned name. As long as two manifests list the same package there, the operation ends in the
same way on both (`Manifest.agree_run`) and asks the same of both documents
(`Manifest.request?_congr`); and an operation on a package of another name changes neither which
package is listed there nor what it is.
-/

namespace EnvManifest

open Manifest Object

/-! ### Operations on settings -/

namespace Operation

/-- The versioned name of the package whose settings an operation is about, if it is about
those. -/
def setting? : Operation → Option Text
  | addPlatforms package _ | excludePlatforms package _ | setOutputs package _
  | setAllowInsecure package _ | setPatch package _ | setPatchGlibc package _
  | setDisablePlugin package _ => some package
  | add _ | remove _ | setEnv _ | setString _ _ => none

theorem package?_of_setting? {op : Operation} {package : Text} (h : op.setting? = some package) :
    op.package? = some package := by
  cases op with
  | add _ | remove _ | setEnv _ | setString _ _ => simp [setting?] at h
  | _ => exact h

/-- What an operation makes of a package has the name of the package. -/
theorem name_of_mem_alter {op : Operation} {p x y : Package} (h : y ∈ op.alter p x) :
    y.name = x.name := by
  have hlist : ∀ (field : ListField) values, y ∈ alterList field values p x → y.name = x.name := by
    intro field values hy
    obtain rfl := Option.some.inj hy
    cases field <;> rfl
  cases op with
  | remove _ => simp [alter] at h
  | addPlatforms _ values | excludePlatforms _ values | setOutputs _ values
  | setAllowInsecure _ values => exact hlist _ _ h
  | setPatchGlibc _ on =>
    simp only [alter] at h
    generalize (if on = true then PatchMode.always else PatchMode.auto) = mode at h
    obtain rfl := Option.some.inj h
    split <;> rfl
  | setDisablePlugin _ on =>
    obtain rfl := Option.some.inj h
    split <;> rfl
  | setPatch _ mode | add _ | setEnv _ | setString _ _ =>
    obtain rfl := Option.some.inj h
    rfl

end Operation

namespace Manifest

variable {m m' : Manifest} {S S' : Settings} {v w : VersionedName}

/-! ### How an operation ends -/

/-- Two outcomes end in the same way and tell the user the same, unless one of them fails
internally. -/
def Agree (o o' : Outcome) : Prop :=
  ¬o.FailsInternally → ¬o'.FailsInternally → o.result = o'.result ∧ o.notice = o'.notice

theorem agree_failed (e : Error) : Agree (m.failed e) (m'.failed e) :=
  fun _ _ => ⟨rfl, rfl⟩

theorem agree_unchanged : Agree m.unchanged m'.unchanged :=
  fun _ _ => ⟨rfl, rfl⟩

/-- An edit of the document fails internally or not at all. -/
theorem ends_edited {α : Type} {e : Edit α} {next : α → Manifest → Outcome} {n : Option Notice}
    (hresult : ∀ a m, (next a m).result = .ok ()) (hnotice : ∀ a m, (next a m).notice = n)
    (h : ¬(m.edited e next).FailsInternally) :
    (m.edited e next).result = .ok () ∧ (m.edited e next).notice = n := by
  obtain ⟨a, hanswer⟩ := exists_answer_of_edited h
  rw [edited_eq hanswer]
  exact ⟨hresult a _, hnotice a _⟩

theorem agree_edited {α : Type} {e : Edit α} {next : α → Manifest → Outcome} {n : Option Notice}
    (hresult : ∀ a m, (next a m).result = .ok ()) (hnotice : ∀ a m, (next a m).notice = n) :
    Agree (m.edited e next) (m'.edited e next) := by
  intro h h'
  obtain ⟨hr, hn⟩ := ends_edited hresult hnotice h
  obtain ⟨hr', hn'⟩ := ends_edited hresult hnotice h'
  exact ⟨hr.trans hr'.symm, hn.trans hn'.symm⟩

theorem agree_appendMissing {package : Text}
    (hfind : m'.find? (.ofText package) = m.find? (.ofText package)) (field : ListField)
    (values : List Text) (refuse : Package → Option Error)
    (notice : Package → List Text → Notice) :
    Agree (m.appendMissing package field values refuse notice)
      (m'.appendMissing package field values refuse notice) := by
  rw [appendMissing, appendMissing, hfind]
  cases m.find? (.ofText package) with
  | none => exact agree_failed _
  | some p =>
    dsimp only
    cases refuse p with
    | some e => exact agree_failed e
    | none =>
      cases missingFrom (field.get p) values with
      | nil => exact agree_unchanged
      | cons w ws => exact agree_edited (fun _ _ => rfl) fun _ _ => rfl

theorem agree_appendPlatforms {package : Text}
    (hfind : m'.find? (.ofText package) = m.find? (.ofText package)) (field : ListField)
    (values : List Text) (refuse : Package → Option Error)
    (notice : Package → List Text → Notice) :
    Agree (m.appendPlatforms package field values refuse notice)
      (m'.appendPlatforms package field values refuse notice) := by
  rw [appendPlatforms, appendPlatforms]
  split
  · exact agree_unchanged
  · cases checkPlatforms values with
    | error e => exact agree_failed e
    | ok u => exact agree_appendMissing hfind field values refuse notice

theorem agree_setPatch {package : Text}
    (hfind : m'.find? (.ofText package) = m.find? (.ofText package)) (mode : PatchMode) :
    Agree (m.setPatch package mode) (m'.setPatch package mode) := by
  rw [setPatch, setPatch, hfind]
  cases m.find? (.ofText package) with
  | none => exact agree_failed _
  | some p => exact agree_edited (fun _ _ => rfl) fun _ _ => rfl

/-- **How an operation on settings ends depends on the package that is listed.** -/
theorem agree_run {op : Operation} {package : Text} (hop : op.setting? = some package)
    (hfind : m'.find? (.ofText package) = m.find? (.ofText package)) :
    Agree (m.run op) (m'.run op) := by
  cases op with
  | addPlatforms text values =>
    obtain rfl := Option.some.inj hop
    exact agree_appendPlatforms hfind _ values _ _
  | excludePlatforms text values =>
    obtain rfl := Option.some.inj hop
    exact agree_appendPlatforms hfind _ values _ _
  | setOutputs text values =>
    obtain rfl := Option.some.inj hop
    exact agree_appendMissing hfind _ values _ _
  | setAllowInsecure text values =>
    obtain rfl := Option.some.inj hop
    exact agree_appendMissing hfind _ values _ _
  | setPatch text mode =>
    obtain rfl := Option.some.inj hop
    exact agree_setPatch hfind mode
  | setPatchGlibc text on =>
    obtain rfl := Option.some.inj hop
    rw [run, run, setPatchGlibc, setPatchGlibc, hfind]
    generalize (if on = true then PatchMode.always else PatchMode.auto) = mode
    cases m.find? (.ofText text) with
    | none => exact agree_failed _
    | some p =>
      dsimp only
      split
      · exact agree_unchanged
      · exact agree_setPatch hfind mode
  | setDisablePlugin text on =>
    obtain rfl := Option.some.inj hop
    rw [run, run, setDisablePlugin, setDisablePlugin, hfind]
    cases m.find? (.ofText text) with
    | none => exact agree_failed _
    | some p =>
      dsimp only
      split
      · exact agree_unchanged
      · exact agree_edited (fun _ _ => rfl) fun _ _ => rfl
  | add _ | remove _ | setEnv _ | setString _ _ => simp [Operation.setting?] at hop

theorem result_run_congr (h : m.document.Says S) (h' : m'.document.Says S') {op : Operation}
    {package : Text} (hop : op.setting? = some package)
    (hfind : m'.find? (.ofText package) = m.find? (.ofText package)) :
    (m'.run op).result = (m.run op).result :=
  (agree_run hop hfind ((attempt_run m op).not_failsInternally h)
    ((attempt_run m' op).not_failsInternally h')).1.symm

/-! ### What an operation makes of the settings -/

/-- What an operation on the settings of a package makes of packages. -/
def tuned (m : Manifest) (v : VersionedName) (op : Operation) (ps : List Package) : List Package :=
  if (m.run op).result.isOk then alterFirst (isNamed v) (m.alteration v op.alter) ps else ps

theorem toSettings_run (h : m.document.Says S) {op : Operation} {package : Text}
    (hop : op.setting? = some package) : (m.run op).manifest.toSettings =
      { m.toSettings with packages := m.tuned (.ofText package) op m.packages } := by
  rcases alters_run h (Operation.package?_of_setting? hop) with ⟨e, he⟩ | ⟨hok, -, hsettings⟩
  · rw [tuned, he]
    rfl
  · rw [tuned, hok]
    exact hsettings

/-- What altering a package leaves is not the package of another name. -/
theorem isNamed_of_mem_alteration (hne : v.name ≠ w.name) {op : Operation} {x y : Package}
    (hx : isNamed v x = true) (hy : y ∈ m.alteration v op.alter x) : isNamed w y = false := by
  have hname : y.name = x.name := by
    cases hp : m.find? v with
    | none =>
      rw [alteration_of_find?_eq_none hp] at hy
      obtain rfl := Option.some.inj hy
      rfl
    | some p =>
      rw [alteration_of_find? hp] at hy
      exact Operation.name_of_mem_alter hy
  have hxname : x.name = v.name := beq_iff_eq.1 (hasName_of_isNamed hx)
  rw [isNamed, hname, hxname, beq_false_of_ne hne, Bool.false_and]

theorem isNamed_eq_false (hne : v.name ≠ w.name) {x : Package} (hx : isNamed v x = true) :
    isNamed w x = false := by
  have hxname : x.name = v.name := beq_iff_eq.1 (hasName_of_isNamed hx)
  rw [isNamed, hxname, beq_false_of_ne hne, Bool.false_and]

section AlterFirst

variable {q q' : Package → Bool} {g g' : Package → Option Package}

/-- A change of the first package that `q` picks, in which `q'` picks nothing. -/
def AltersBeside (q q' : Package → Bool) (g : Package → Option Package) : Prop :=
  ∀ x, q x = true → q' x = false ∧ ∀ y ∈ g x, q' y = false

theorem find?_alterFirst (h : AltersBeside q q' g) (ps : List Package) :
    (alterFirst q g ps).find? q' = ps.find? q' := by
  induction ps with
  | nil => rfl
  | cons x xs ih =>
    rw [alterFirst]
    split
    · rename_i hx
      obtain ⟨hx', hy⟩ := h x hx
      rw [List.find?_cons_of_neg (by simp [hx'])]
      cases hg : g x with
      | none => rfl
      | some y => exact List.find?_cons_of_neg (by simp [hy y hg])
    · rw [List.find?_cons, List.find?_cons, ih]

/-- The change that comes second goes past what the first one has made. -/
theorem alterFirst_comm (h : AltersBeside q q' g) (h' : AltersBeside q' q g') (ps : List Package) :
    alterFirst q g (alterFirst q' g' ps) = alterFirst q' g' (alterFirst q g ps) := by
  have hpast : ∀ {q q' : Package → Bool} {g g' : Package → Option Package},
      AltersBeside q q' g → ∀ x xs, q x = true →
        alterFirst q' g' ((g x).toList ++ xs) = (g x).toList ++ alterFirst q' g' xs := by
    intro q q' g g' h x xs hx
    cases hg : g x with
    | none => rfl
    | some y =>
      have hy : q' y = false := (h x hx).2 y hg
      exact if_neg (by simp [hy])
  induction ps with
  | nil => rfl
  | cons x xs ih =>
    cases hx : q x with
    | true =>
      have hx' : q' x = false := (h x hx).1
      simp only [alterFirst, hx, hx', if_true, Bool.false_eq_true, if_false, hpast h x xs hx]
    | false =>
      cases hx' : q' x with
      | true => simp only [alterFirst, hx, hx', if_true, Bool.false_eq_true, if_false,
          hpast h' x xs hx']
      | false => simp only [alterFirst, hx, hx', Bool.false_eq_true, if_false, ih]

end AlterFirst

theorem altersBeside_alteration (m : Manifest) (hne : v.name ≠ w.name) (op : Operation) :
    AltersBeside (isNamed v) (isNamed w) (m.alteration v op.alter) :=
  fun _ hx => ⟨isNamed_eq_false hne hx, fun _ hy => isNamed_of_mem_alteration hne hx hy⟩

theorem tuned_comm (hne : v.name ≠ w.name) (a c : Operation) (ps : List Package) :
    m.tuned v a (m.tuned w c ps) = m.tuned w c (m.tuned v a ps) := by
  simp only [tuned]
  split
  · split
    · exact alterFirst_comm (m.altersBeside_alteration hne a)
        (m.altersBeside_alteration (Ne.symm hne) c) ps
    · rfl
  · rfl

/-- An operation on settings leaves the packages of other names. -/
theorem find?_run (h : m.document.Says S) {op : Operation} {package : Text}
    (hop : op.setting? = some package) (hne : (VersionedName.ofText package).name ≠ w.name) :
    (m.run op).manifest.find? w = m.find? w := by
  have hpackages : (m.run op).manifest.packages = m.tuned (.ofText package) op m.packages :=
    congrArg Settings.packages (toSettings_run h hop)
  change (m.run op).manifest.packages.find? (isNamed w) = m.packages.find? (isNamed w)
  rw [hpackages, tuned]
  split
  · exact find?_alterFirst (m.altersBeside_alteration hne op) m.packages
  · rfl

theorem tuned_congr (h : m.document.Says S) (h' : m'.document.Says S') {op : Operation}
    {package : Text} (hop : op.setting? = some package)
    (hfind : m'.find? (.ofText package) = m.find? (.ofText package)) :
    m'.tuned (.ofText package) op = m.tuned (.ofText package) op := by
  funext ps
  rw [tuned, tuned, result_run_congr h h' hop hfind, alteration, alteration, hfind]

/-! ### What an operation asks of the document -/

/-- **What an operation on settings asks for depends on the package that is listed.** -/
theorem request?_congr {op : Operation} {package : Text} (hop : op.setting? = some package)
    (hfind : m'.find? (.ofText package) = m.find? (.ofText package)) :
    m'.request? op = m.request? op := by
  cases op with
  | addPlatforms text values | excludePlatforms text values =>
    obtain rfl := Option.some.inj hop
    simp only [request?, platformsRequest?, appendRequest?, hfind]
  | setOutputs text values | setAllowInsecure text values =>
    obtain rfl := Option.some.inj hop
    simp only [request?, appendRequest?, hfind]
  | setPatch text mode =>
    obtain rfl := Option.some.inj hop
    simp only [request?, setPatchRequest?, hfind]
  | setPatchGlibc text on =>
    obtain rfl := Option.some.inj hop
    simp only [request?, setPatchRequest?, hfind]
  | setDisablePlugin text on =>
    obtain rfl := Option.some.inj hop
    simp only [request?, hfind]
  | add _ | remove _ | setEnv _ | setString _ _ => simp [Operation.setting?] at hop

theorem tunes_of_appendRequest? {package : Text} {field : ListField} {values : List Text}
    {refused : Package → Bool} {r : Request}
    (h : r ∈ m.appendRequest? package field values refused) :
    r.Tunes (VersionedName.ofText package).name := by
  rw [appendRequest?] at h
  cases hp : m.find? (.ofText package) with
  | none => simp [hp] at h
  | some p =>
    rw [hp] at h
    dsimp only at h
    split at h
    · simp at h
    · split at h
      · simp at h
      · obtain rfl := Option.some.inj h
        rw [← name_of_find? hp]
        exact Request.tunes_appendToList _ _ _

theorem tunes_of_platformsRequest? {package : Text} {field : ListField} {values : List Text}
    {refused : Package → Bool} {r : Request}
    (h : r ∈ m.platformsRequest? package field values refused) :
    r.Tunes (VersionedName.ofText package).name := by
  rw [platformsRequest?] at h
  split at h
  · simp at h
  · split at h
    · simp at h
    · exact tunes_of_appendRequest? h

theorem tunes_of_setPatchRequest? {package : Text} {mode : PatchMode} {r : Request}
    (h : r ∈ m.setPatchRequest? package mode) : r.Tunes (VersionedName.ofText package).name := by
  obtain ⟨p, hp, rfl⟩ := Option.map_eq_some_iff.1 h
  rw [← name_of_find? hp]
  cases mode with
  | auto => exact Request.tunes_removePatchMode _
  | always | never => exact Request.tunes_setPatchMode _ _

/-- **What an operation on settings asks for is a tuning** of the package it is about. -/
theorem tunes_of_request? {op : Operation} {package : Text} (hop : op.setting? = some package)
    {r : Request} (h : r ∈ m.request? op) : r.Tunes (VersionedName.ofText package).name := by
  cases op with
  | addPlatforms text values | excludePlatforms text values =>
    obtain rfl := Option.some.inj hop
    exact tunes_of_platformsRequest? h
  | setOutputs text values | setAllowInsecure text values =>
    obtain rfl := Option.some.inj hop
    exact tunes_of_appendRequest? h
  | setPatch text mode =>
    obtain rfl := Option.some.inj hop
    exact tunes_of_setPatchRequest? h
  | setPatchGlibc text on =>
    obtain rfl := Option.some.inj hop
    simp only [request?] at h
    generalize (if on = true then PatchMode.always else PatchMode.auto) = mode at h
    split at h
    · simp at h
    · split at h
      · simp at h
      · exact tunes_of_setPatchRequest? h
  | setDisablePlugin text on =>
    obtain rfl := Option.some.inj hop
    rw [request?] at h
    cases hp : m.find? (.ofText text) with
    | none => simp [hp] at h
    | some p =>
      rw [hp] at h
      dsimp only at h
      split at h
      · simp at h
      · obtain rfl := Option.some.inj h
        rw [← name_of_find? hp]
        exact Request.tunes_setBool _ _ on
  | add _ | remove _ | setEnv _ | setString _ _ => simp [Operation.setting?] at hop

end Manifest

/-! ### Documents -/

namespace Document

/-- Laying out a document does not change its members. -/
theorem members_format (d : Document) : d.format.members = d.members := by
  have hdatum : d.format.toValue.node.datum = d.toValue.node.datum := by
    rw [toValue_format, Node.datum_eq, Value.outline_format, ← Node.datum_eq]
  rw [datum_toValue, datum_toValue] at hdatum
  exact Datum.object.inj hdatum

/-- What tunes a package does so to the members of the document. -/
theorem exists_tuning_after {name : Text} {r? : Option Request}
    (h : ∀ r ∈ r?, r.Tunes name) :
    ∃ F, Tuning name F ∧ ∀ d : Document, (d.after r?).members = F d.members := by
  cases r? with
  | none => exact ⟨_, Tuning.id name, fun _ => rfl⟩
  | some r =>
    obtain ⟨F, hF, hleave⟩ := h r rfl
    exact ⟨F, hF, fun d => (members_format _).trans (hleave d.root)⟩

theorem minimalText_congr {d d' : Document} (h : d'.members = d.members) :
    d'.toValue.minimalText = d.toValue.minimalText := by
  rw [Value.minimalText_eq_text, Value.minimalText_eq_text, datum_toValue, datum_toValue, h]

end Document

namespace Manifest

variable {m : Manifest} {S : Settings}

/-! ### Either order -/

/-- Two operations can be done in either order: each ends as it does without the other one, and
in the end the manifest and its document say the same. -/
structure Commutes (m : Manifest) (a c : Operation) : Prop where
  first : ((m.run c).manifest.run a).result = (m.run a).result
  second : ((m.run a).manifest.run c).result = (m.run c).result
  settings : ((m.run a).manifest.run c).manifest.toSettings =
    ((m.run c).manifest.run a).manifest.toSettings
  minimalText : ((m.run a).manifest.run c).manifest.document.toValue.minimalText =
    ((m.run c).manifest.run a).manifest.document.toValue.minimalText
  hash : ((m.run a).manifest.run c).manifest.hash = ((m.run c).manifest.run a).manifest.hash

theorem exists_says_run (h : m.document.Says S) (op : Operation) :
    ∃ S', (m.run op).manifest.document.Says S' :=
  exists_says_runAll h [op]

/-- **Operations on the settings of packages of different names commute.** -/
theorem commutes_of_says (h : m.document.Says S) {a c : Operation} {p q : Text}
    (ha : a.setting? = some p) (hc : c.setting? = some q)
    (hne : (VersionedName.ofText p).name ≠ (VersionedName.ofText q).name) : m.Commutes a c := by
  obtain ⟨Sa, hsa⟩ := exists_says_run h a
  obtain ⟨Sc, hsc⟩ := exists_says_run h c
  have hfinda : (m.run c).manifest.find? (.ofText p) = m.find? (.ofText p) :=
    find?_run h hc (Ne.symm hne)
  have hfindc : (m.run a).manifest.find? (.ofText q) = m.find? (.ofText q) := find?_run h ha hne
  have hsettings : ((m.run a).manifest.run c).manifest.toSettings =
      ((m.run c).manifest.run a).manifest.toSettings := by
    rw [toSettings_run hsa hc, toSettings_run hsc ha, tuned_congr h hsa hc hfindc,
      tuned_congr h hsc ha hfinda, toSettings_run h ha, toSettings_run h hc]
    dsimp only
    rw [tuned_comm hne]
  obtain ⟨F, hF, hafter⟩ :=
    Document.exists_tuning_after fun r (hr : r ∈ m.request? a) => tunes_of_request? ha hr
  obtain ⟨G, hG, hafter'⟩ :=
    Document.exists_tuning_after fun r (hr : r ∈ m.request? c) => tunes_of_request? hc hr
  have hmembers : ((m.run a).manifest.run c).manifest.document.members =
      ((m.run c).manifest.run a).manifest.document.members := by
    rw [document_run (m.run a).manifest, document_run (m.run c).manifest, document_run m,
      document_run m, request?_congr hc hfindc, request?_congr ha hfinda, hafter, hafter', hafter',
      hafter, hG.comm hF (Ne.symm hne)]
  have htext := Document.minimalText_congr hmembers
  exact ⟨result_run_congr h hsc ha hfinda, result_run_congr h hsa hc hfindc, hsettings, htext, by
    rw [hash, hash, htext]⟩

/-- **Settings of different packages commute**, after any operations on what was loaded. -/
theorem commutes_runAll {b : Octets} (h : loadOctets b = .ok m) (ops : List Operation)
    {a c : Operation} {p q : Text} (ha : a.setting? = some p) (hc : c.setting? = some q)
    (hne : (VersionedName.ofText p).name ≠ (VersionedName.ofText q).name) :
    (m.runAll ops).Commutes a c := by
  obtain ⟨s, -, hload⟩ := loadOctets_eq_ok.1 h
  obtain ⟨S, hsaid⟩ := exists_says_runAll (load_eq_ok.1 hload).2.1 ops
  exact commutes_of_says hsaid ha hc hne

/-- In an array one package is given an output, for which the array is turned into an object, and
another one loses a patch mode that it does not have. -/
theorem commutes_runAll_array :
    ∃ m, loadOctets (Text.utf8 "\x7b\"packages\": [\"go@1.20\", // old\n\"jq\"]\x7d".toList) = .ok m ∧
      ∃ a c, a = Operation.setOutputs "go@1.20".toList ["bin".toList] ∧
        c = Operation.setPatch "fd".toList .auto ∧
        (m.runAll [.add "fd".toList]).Commutes a c := by
  obtain ⟨m, hm⟩ : ∃ m, loadOctets
      (Text.utf8 "\x7b\"packages\": [\"go@1.20\", // old\n\"jq\"]\x7d".toList) = .ok m := by
    decide +kernel
  exact ⟨m, hm, _, _, rfl, rfl, commutes_runAll hm _ rfl rfl (by decide +kernel)⟩

end Manifest

end EnvManifest
