import EnvManifest.Proofs.Says

/-!
# Which package an operation is about

An operation on a listed package is given a name and a version. In the settings it is about
the first package with both. The document is searched for the name alone, since the members
of an object have no other label, and an array is turned into an object before a package of it
is edited; only a removal from an array compares versions (`Object.removes`). What the
operation makes of the package that it finds is the same on both sides, so all there is to say
about an operation is in

* `Operation.alter`: what it makes of a package;
* `Document.finds`: which packages it may find in the document.

After the operation the document says that the first package found there has been altered
(`Manifest.alters_run`). With a name that is listed more than once this need not be the
package that was altered in the settings: `Manifest.load_minimalText_of_run` says exactly when the
two agree.
-/

namespace EnvManifest

open Manifest Object

namespace Manifest

/-! ### Altering the first package -/

/-- The packages with the first one that `q` picks replaced by what `g` makes of it, or taken
out if that is nothing. -/
def alterFirst (q : Package → Bool) (g : Package → Option Package) : List Package → List Package
  | [] => []
  | x :: xs => if q x then (g x).toList ++ xs else x :: alterFirst q g xs

section AlterFirst

variable {q q' : Package → Bool} {g : Package → Option Package} {ps : List Package}

theorem alterFirst_eq_changeFirst (q : Package → Bool) (f : Package → Package) (ps : List Package) :
    alterFirst q (fun p => some (f p)) ps = changeFirst q f ps := by
  induction ps with
  | nil => rfl
  | cons x xs ih =>
    rw [alterFirst, changeFirst, ih]
    rfl

theorem alterFirst_eq_eraseP (q : Package → Bool) (ps : List Package) :
    alterFirst q (fun _ => none) ps = ps.eraseP q := by
  induction ps with
  | nil => rfl
  | cons x xs ih =>
    rw [alterFirst, List.eraseP_cons, ih]
    cases q x <;> rfl

/-- Nothing changes exactly if the package that is picked stays what it is. -/
theorem alterFirst_eq_self_iff :
    alterFirst q g ps = ps ↔ ∀ p, ps.find? q = some p → g p = some p := by
  induction ps with
  | nil => simp [alterFirst]
  | cons x xs ih =>
    rw [alterFirst, List.find?_cons]
    cases q x with
    | true =>
      cases hg : g x with
      | none => simp [hg]
      | some y => simp [hg]
    | false => simpa using ih

theorem alterFirst_some (q : Package → Bool) (ps : List Package) : alterFirst q some ps = ps :=
  alterFirst_eq_self_iff.2 fun _ _ => rfl

/-- A package that is not picked is kept. -/
theorem count_le_count_alterFirst {x : Package} (hx : q x = false) :
    ps.count x ≤ (alterFirst q g ps).count x := by
  induction ps with
  | nil => exact le_rfl
  | cons y ys ih =>
    rw [alterFirst]
    split
    · rename_i hy
      have hne : y ≠ x := by
        rintro rfl
        simp [hx] at hy
      rw [List.count_cons_of_ne hne, List.count_append]
      exact Nat.le_add_left _ _
    · rw [List.count_cons, List.count_cons]
      exact Nat.add_le_add_right ih _

/-- **Two ways to pick a package, one of them stricter, make the same change** exactly if they
pick the same package, or if both packages stay what they are. -/
theorem alterFirst_eq_iff (hstrict : ∀ x, q' x = true → q x = true) :
    alterFirst q g ps = alterFirst q' g ps ↔ ps.find? q = ps.find? q' ∨
      ∀ p, ps.find? q = some p ∨ ps.find? q' = some p → g p = some p := by
  induction ps with
  | nil => simp [alterFirst]
  | cons x xs ih =>
    rw [alterFirst, alterFirst, List.find?_cons, List.find?_cons]
    cases hq' : q' x with
    | true => simp [hstrict x hq']
    | false =>
      cases hq : q x with
      | false => simpa [hq'] using ih
      | true =>
        -- the stricter way picks another package, farther behind
        have hother : some x ≠ xs.find? q' := by
          intro h
          simp [List.find?_some h.symm] at hq'
        have hself : alterFirst q' g xs = xs ↔ ∀ p, xs.find? q' = some p → g p = some p :=
          alterFirst_eq_self_iff
        cases hg : g x with
        | none =>
          -- taken out on one side, the package is there once less than on the other
          have hcount : xs.count x ≤ (alterFirst q' g xs).count x :=
            count_le_count_alterFirst hq'
          constructor
          · intro h
            have hxs : xs = x :: alterFirst q' g xs := by simpa using h
            have hcount' := congrArg (List.count x) hxs
            rw [List.count_cons_self] at hcount'
            omega
          · rintro (h | h)
            · exact absurd h hother
            · simpa [hg] using h x (Or.inl rfl)
        | some y =>
          constructor
          · intro h
            obtain ⟨rfl, hxs⟩ : y = x ∧ xs = alterFirst q' g xs := by simpa using h
            refine Or.inr ?_
            rintro p (hp | hp)
            · obtain rfl := Option.some.inj hp
              exact hg
            · exact hself.1 hxs.symm p hp
          · rintro (h | h)
            · exact absurd h hother
            · have hy : y = x := by simpa [hg] using h x (Or.inl rfl)
              simp [hy, hself.2 fun p hp => h p (Or.inr hp)]

end AlterFirst

end Manifest

/-! ### What operations make of packages -/

/-- A package with another patch mode. -/
def Package.patched (mode : PatchMode) (p : Package) : Package :=
  { p with patchGlibc := false, patch := mode }

namespace Operation

/-- The versioned name of the listed package that an operation is about, if it is about one. -/
def package? : Operation → Option Text
  | remove package | addPlatforms package _ | excludePlatforms package _ | setOutputs package _
  | setAllowInsecure package _ | setPatch package _ | setPatchGlibc package _
  | setDisablePlugin package _ => some package
  | add _ | setEnv _ | setString _ _ => none

/-- What appending to a list makes of a package; it is asked for by what the list of the
package `p` lacks. -/
def alterList (field : ListField) (values : List Text) (p q : Package) : Option Package :=
  some (field.append (missingFrom (field.get p) values) q)

/-- What an operation makes of a package `q`, nothing if it takes it out. How much it asks
for depends on the package `p` that the settings list. -/
def alter : Operation → Package → Package → Option Package
  | remove _ => fun _ _ => none
  | addPlatforms _ values => alterList .platforms values
  | excludePlatforms _ values => alterList .excludedPlatforms values
  | setOutputs _ values => alterList .outputs values
  | setAllowInsecure _ values => alterList .allowInsecure values
  | setPatch _ mode => fun _ q => some (q.patched mode)
  | setPatchGlibc _ on => fun p q =>
    let mode : PatchMode := if on then .always else .auto
    some (if p.patch = mode ∧ !p.patchGlibc then q else q.patched mode)
  | setDisablePlugin _ on => fun p q =>
    some (if p.disablePlugin = on then q else { q with disablePlugin := on })
  | add _ | setEnv _ | setString _ _ => fun _ => some

end Operation

/-- The packages that an operation may find in a document by a name and version. -/
def Document.finds (d : Document) (v : VersionedName) : Operation → Package → Bool
  | .remove _ => d.root.removes v
  | _ => Package.hasName v.name

namespace Manifest

/-- What is made of the packages of a manifest that are found by a name and version; nothing
happens to them if none is listed with both. -/
def alteration (m : Manifest) (v : VersionedName) (alter : Package → Package → Option Package) :
    Package → Option Package :=
  match m.find? v with
  | none => some
  | some p => alter p

section Operations

variable {S : Settings} {m : Manifest} {v : VersionedName} {p : Package}
  {alter : Package → Package → Option Package}

theorem alteration_of_find? (hp : m.find? v = some p) : m.alteration v alter = alter p := by
  rw [alteration, hp]

theorem alteration_of_find?_eq_none (hnone : m.find? v = none) : m.alteration v alter = some := by
  rw [alteration, hnone]

theorem hasName_of_isNamed {q : Package} (h : isNamed v q = true) : q.hasName v.name = true :=
  (Bool.and_eq_true_iff.1 h).1

theorem name_of_find? (hp : m.find? v = some p) : p.name = v.name :=
  beq_iff_eq.1 (hasName_of_isNamed (List.find?_some hp))

/-- Whatever an operation may find in the document, what it is about is found. -/
theorem finds_of_isNamed (d : Document) (op : Operation) {q : Package} (h : isNamed v q = true) :
    d.finds v op q = true := by
  have hname := hasName_of_isNamed h
  cases op with
  | remove package =>
    rw [Document.finds, removes]
    cases (spot? d.root packagesKey).bind fun s => s.here.node.array? with
    | some es => exact h
    | none => exact hname
  | _ => exact hname

/-- What is found in the document has the name. -/
theorem hasName_of_finds (d : Document) (op : Operation) {q : Package}
    (h : d.finds v op q = true) : q.hasName v.name = true := by
  cases op with
  | remove package =>
    rw [Document.finds, removes] at h
    cases hes : (spot? d.root packagesKey).bind fun s => s.here.node.array? with
    | some es => exact hasName_of_isNamed (by simpa [hes] using h)
    | none => simpa [hes] using h
  | _ => exact h

/-- An outcome in which a package has been altered: the document, which said `S`, says so of
the first package that `pick` picks, and the settings of the first one of a name and version. -/
structure Alters (S : Settings) (m : Manifest) (v : VersionedName) (pick : Package → Bool)
    (g : Package → Option Package) (o : Outcome) : Prop where
  succeeds : o.result = .ok ()
  document : o.manifest.document.Says { S with packages := alterFirst pick g S.packages }
  settings : o.manifest.toSettings = { m.toSettings with
    packages := alterFirst (isNamed v) g m.packages }

theorem alters_unchanged (h : m.document.Says S) (pick : Package → Bool)
    {g : Package → Option Package} (hg : g = some) : Alters S m v pick g m.unchanged := by
  subst hg
  refine ⟨rfl, ?_, ?_⟩
  · rw [alterFirst_some]
    exact h
  · rw [alterFirst_some]
    rfl

/-- An edit of the document that succeeds. -/
theorem edited_eq {α : Type} {e : Edit α} {a : α} (hanswer : (e m.document.root).1 = .ok a)
    (next : α → Manifest → Outcome) : m.edited e next =
      next a { m with document := Document.format { m.document with root := (e m.document.root).2 } } := by
  rw [edited, Document.edit]
  dsimp only
  rw [hanswer]

theorem alters_remove (h : m.document.Says S) (package : Text) :
    Alters S m (.ofText package) (m.document.root.removes (.ofText package))
      (m.alteration (.ofText package) fun _ _ => none) (m.remove package) := by
  rw [remove]
  cases hp : m.find? (.ofText package) with
  | none => exact alters_unchanged h _ (alteration_of_find?_eq_none hp)
  | some p =>
    obtain ⟨hanswer, hgives⟩ := gives_removePackage h.gives (.ofText package)
    rw [if_neg (by simp), edited_eq hanswer, alteration_of_find? hp]
    refine ⟨rfl, ?_, ?_⟩
    · rw [alterFirst_eq_eraseP]
      exact Document.Says.format ⟨hgives, h.check⟩
    · rw [alterFirst_eq_eraseP]

/-- An edit of the settings of a listed package, with the same change of the package. -/
theorem alters_changePackage (h : m.document.Says S) (hp : m.find? v = some p) {e : Edit Unit}
    {f : Package → Package} (he : (e m.document.root).1 = .ok () ∧
      (e m.document.root).2.Gives 124
        { S with packages := changeFirst (Package.hasName p.name) f S.packages })
    (n : Option Notice) : Alters S m v (Package.hasName v.name) (fun q => some (f q))
      (m.edited e fun _ m => ⟨.ok (), n, m.changePackage v f⟩) := by
  obtain ⟨hanswer, hgives⟩ := he
  rw [name_of_find? hp] at hgives
  rw [edited_eq hanswer]
  refine ⟨rfl, ?_, ?_⟩
  · rw [alterFirst_eq_changeFirst]
    exact Document.Says.format ⟨hgives, h.check⟩
  · rw [alterFirst_eq_changeFirst]
    rfl

/-- An outcome of an operation that alters packages: it fails and has done nothing, or it does
what it is asked for. -/
def AltersOrFails (S : Settings) (m : Manifest) (v : VersionedName) (pick : Package → Bool)
    (alter : Package → Package → Option Package) (o : Outcome) : Prop :=
  (∃ e, o = m.failed e) ∨ Alters S m v pick (m.alteration v alter) o

/-- Appending nothing leaves every package what it is. -/
theorem alterList_of_missingFrom_eq_nil {field : ListField} {values : List Text}
    (hnil : missingFrom (field.get p) values = []) : Operation.alterList field values p = some := by
  funext q
  rw [Operation.alterList, hnil]
  cases field <;> simp [ListField.append]

theorem alters_appendMissing (h : m.document.Says S) (package : Text) (field : ListField)
    (values : List Text) (refuse : Package → Option Error)
    (notice : Package → List Text → Notice) :
    AltersOrFails S m (.ofText package) (Package.hasName (VersionedName.ofText package).name)
      (Operation.alterList field values) (m.appendMissing package field values refuse notice) := by
  rw [appendMissing]
  cases hp : m.find? (.ofText package) with
  | none => exact Or.inl ⟨_, rfl⟩
  | some p =>
    dsimp only
    cases refuse p with
    | some e => exact Or.inl ⟨e, rfl⟩
    | none =>
      refine Or.inr ?_
      rw [alteration_of_find? hp]
      dsimp only
      cases hadded : missingFrom (field.get p) values with
      | nil => exact alters_unchanged h _ (alterList_of_missingFrom_eq_nil hadded)
      | cons w ws =>
        have halter : Operation.alterList field values p =
            fun q => some (field.append (w :: ws) q) := by
          funext q
          rw [Operation.alterList, hadded]
        rw [halter]
        refine alters_changePackage h hp ?_ _
        rw [appendToList, if_neg (by simp)]
        exact gives_editSettings h.gives p.name (changes_appendToSettings p.name field _)

theorem alters_appendPlatforms (h : m.document.Says S) (package : Text) (field : ListField)
    (values : List Text) (refuse : Package → Option Error)
    (notice : Package → List Text → Notice) :
    AltersOrFails S m (.ofText package) (Package.hasName (VersionedName.ofText package).name)
      (Operation.alterList field values)
      (m.appendPlatforms package field values refuse notice) := by
  rw [appendPlatforms]
  split
  · rename_i hvalues
    obtain rfl := List.isEmpty_iff.1 hvalues
    refine Or.inr (alters_unchanged h _ ?_)
    -- nothing is asked for, so it does not matter whether the package is listed
    cases hp : m.find? (.ofText package) with
    | none => exact alteration_of_find?_eq_none hp
    | some p =>
      rw [alteration_of_find? hp]
      exact alterList_of_missingFrom_eq_nil rfl
  · split
    · exact Or.inl ⟨_, rfl⟩
    · exact alters_appendMissing h package field values refuse notice

theorem alters_setPatch (h : m.document.Says S) (package : Text) (mode : PatchMode) :
    AltersOrFails S m (.ofText package) (Package.hasName (VersionedName.ofText package).name)
      (fun _ q => some (q.patched mode)) (m.setPatch package mode) := by
  rw [setPatch]
  cases hp : m.find? (.ofText package) with
  | none => exact Or.inl ⟨_, rfl⟩
  | some p =>
    refine Or.inr ?_
    rw [alteration_of_find? hp]
    refine alters_changePackage h hp ?_ none
    -- the mode `auto` is written as no mode at all
    cases mode with
    | auto => exact gives_removePatchMode h.gives p.name
    | always => exact gives_editSettings h.gives p.name (changes_patchSettings .always)
    | never => exact gives_editSettings h.gives p.name (changes_patchSettings .never)

theorem alters_setPatchGlibc (h : m.document.Says S) (package : Text) (on : Bool) :
    AltersOrFails S m (.ofText package) (Package.hasName (VersionedName.ofText package).name)
      (Operation.setPatchGlibc package on).alter (m.setPatchGlibc package on) := by
  rw [setPatchGlibc]
  dsimp only [Operation.alter]
  generalize (if on = true then PatchMode.always else PatchMode.auto) = mode
  cases hp : m.find? (.ofText package) with
  | none => exact Or.inl ⟨_, rfl⟩
  | some p =>
    dsimp only
    split
    · rename_i hsame
      refine Or.inr (alters_unchanged h _ ?_)
      rw [alteration_of_find? hp]
      simp [hsame]
    · rename_i hother
      rcases alters_setPatch h package mode with hfails | halters
      · exact Or.inl hfails
      · refine Or.inr ?_
        rw [alteration_of_find? hp] at halters ⊢
        simpa only [if_neg hother] using halters

theorem alters_setDisablePlugin (h : m.document.Says S) (package : Text) (on : Bool) :
    AltersOrFails S m (.ofText package) (Package.hasName (VersionedName.ofText package).name)
      (Operation.setDisablePlugin package on).alter (m.setDisablePlugin package on) := by
  rw [setDisablePlugin]
  dsimp only [Operation.alter]
  cases hp : m.find? (.ofText package) with
  | none => exact Or.inl ⟨_, rfl⟩
  | some p =>
    refine Or.inr ?_
    rw [alteration_of_find? hp]
    dsimp only
    split
    · exact alters_unchanged h _ rfl
    · exact alters_changePackage h hp (gives_editSettings h.gives p.name (changes_setBool on)) none

/-- **One operation on a package** alters the first package of the settings that has the name
and version, and the first one of the document that is found by them. -/
theorem alters_run (h : m.document.Says S) {op : Operation} {package : Text}
    (hop : op.package? = some package) :
    AltersOrFails S m (.ofText package) (m.document.finds (.ofText package) op) op.alter
      (m.run op) := by
  cases op with
  | remove text =>
    obtain rfl := Option.some.inj hop
    exact Or.inr (alters_remove h text)
  | addPlatforms text values =>
    obtain rfl := Option.some.inj hop
    exact alters_appendPlatforms h text .platforms values _ _
  | excludePlatforms text values =>
    obtain rfl := Option.some.inj hop
    exact alters_appendPlatforms h text .excludedPlatforms values _ _
  | setOutputs text values =>
    obtain rfl := Option.some.inj hop
    rw [run, setOutputs]
    exact alters_appendMissing h text .outputs values _ _
  | setAllowInsecure text values =>
    obtain rfl := Option.some.inj hop
    rw [run, setAllowInsecure]
    exact alters_appendMissing h text .allowInsecure values _ _
  | setPatch text mode =>
    obtain rfl := Option.some.inj hop
    exact alters_setPatch h text mode
  | setPatchGlibc text on =>
    obtain rfl := Option.some.inj hop
    exact alters_setPatchGlibc h text on
  | setDisablePlugin text on =>
    obtain rfl := Option.some.inj hop
    exact alters_setDisablePlugin h text on
  | add _ | setEnv _ | setString _ _ => simp [Operation.package?] at hop

end Operations

/-- **Which package an operation alters.** An operation on a package that succeeds alters the
first package of the settings with the name and version, and the strict JSON text of the
document is loaded with the first package altered that is found by them in the document. The
two agree exactly if the same package is found, or if nothing about either is changed. -/
theorem load_minimalText_of_run {b : Octets} {m : Manifest} (h : loadOctets b = .ok m)
    {op : Operation} {package : Text} (hop : op.package? = some package)
    (hok : (m.run op).result = .ok ()) :
    ∃ r, load (m.run op).manifest.document.toValue.minimalText = .ok r ∧
      (m.run op).manifest.packages = alterFirst (isNamed (.ofText package))
        (m.alteration (.ofText package) op.alter) m.packages ∧
      r.packages = alterFirst (m.document.finds (.ofText package) op)
        (m.alteration (.ofText package) op.alter) m.packages ∧
      (r.packages = (m.run op).manifest.packages ↔
        m.packages.find? (m.document.finds (.ofText package) op) = m.find? (.ofText package) ∨
        ∀ p, m.packages.find? (m.document.finds (.ofText package) op) = some p ∨
          m.find? (.ofText package) = some p →
            m.alteration (.ofText package) op.alter p = some p) := by
  obtain ⟨s, -, hload⟩ := loadOctets_eq_ok.1 h
  rcases alters_run (load_eq_ok.1 hload).2.1 hop with ⟨e, he⟩ | ⟨-, hsaid, hsettings⟩
  · simp [he, failed] at hok
  · obtain ⟨r, hr, hS⟩ := exists_load_minimalText hsaid
    have hthere : r.packages = alterFirst (m.document.finds (.ofText package) op)
        (m.alteration (.ofText package) op.alter) m.packages := congrArg Settings.packages hS
    have hhere : (m.run op).manifest.packages = alterFirst (isNamed (.ofText package))
        (m.alteration (.ofText package) op.alter) m.packages := congrArg Settings.packages hsettings
    refine ⟨r, hr, hhere, hthere, ?_⟩
    rw [hthere, hhere]
    exact alterFirst_eq_iff fun _ => finds_of_isNamed m.document op

/-- Two versions of a package in an array; the first one is altered, which turns the array into
an object with a name twice. -/
theorem load_minimalText_of_run_versions :
    ∃ m, loadOctets (Text.utf8 "\x7b\"packages\": [\"go@1.20\", \"go@1.21\"]\x7d".toList) = .ok m ∧
      ∃ op r, op = Operation.addPlatforms "go@1.20".toList ["x86_64-linux".toList] ∧
        (m.run op).result = .ok () ∧
        load (m.run op).manifest.document.toValue.minimalText = .ok r ∧
        r.packages = (m.run op).manifest.packages := by
  obtain ⟨m, hm, hok, hfind⟩ : ∃ m,
      loadOctets (Text.utf8 "\x7b\"packages\": [\"go@1.20\", \"go@1.21\"]\x7d".toList) = .ok m ∧
      (m.run (.addPlatforms "go@1.20".toList ["x86_64-linux".toList])).result = .ok () ∧
      m.packages.find? (m.document.finds (.ofText "go@1.20".toList)
        (.addPlatforms "go@1.20".toList ["x86_64-linux".toList])) =
          m.find? (.ofText "go@1.20".toList) := by
    decide +kernel
  obtain ⟨r, hr, -, -, hsame⟩ := load_minimalText_of_run hm rfl hok
  exact ⟨m, hm, _, r, rfl, hok, hr, hsame.2 (Or.inl hfind)⟩

/-- The second of two versions in an array is limited to a platform; the document limits the
first one instead. -/
theorem not_altered_as_named :
    ∃ m, loadOctets (Text.utf8 "\x7b\"packages\": [\"go@1.20\", \"go@1.21\"]\x7d".toList) = .ok m ∧
      (m.run (.addPlatforms "go@1.21".toList ["x86_64-linux".toList])).result = .ok () ∧
      ∀ r, load (m.run (.addPlatforms "go@1.21".toList
          ["x86_64-linux".toList])).manifest.document.toValue.minimalText = .ok r →
        r.packages ≠
          (m.run (.addPlatforms "go@1.21".toList ["x86_64-linux".toList])).manifest.packages := by
  decide +kernel

/-- The second of two versions in an object is removed; the document loses the first one. -/
example : ∃ m, loadOctets (Text.utf8
      "\x7b\"packages\": \x7b\"go\": \"1.20\", \"go\": \"1.21\"\x7d\x7d".toList) = .ok m ∧
    (m.run (.remove "go@1.21".toList)).result = .ok () ∧
    ∀ r, load (m.run (.remove "go@1.21".toList)).manifest.document.toValue.minimalText = .ok r →
      r.packages ≠ (m.run (.remove "go@1.21".toList)).manifest.packages := by
  decide +kernel

end Manifest

end EnvManifest
