import EnvManifest.Proofs.Addressing
import EnvManifest.Proofs.Idempotence
import EnvManifest.Proofs.Listing

/-!
# The lists of a package only grow

Four operations put values into a list of a package, one for each list, and they follow one law
(`Manifest.grows_runAll`). The list gets the values asked for that it did not have, each once and
in the order in which they were first asked for (`Package.unlisted`); the document gets the same.
If there are none, nothing is touched and nothing said. Otherwise the user is told once.

What the user is told differs. Outputs and insecure packages are named if they were put in; of
platforms all that were asked for are named, those too that were there before, and as often as
they were asked for (`ListField.told`). So the notice is about what has been put in exactly if
platforms are asked for once each, and only those that the list does not have.
-/

namespace EnvManifest

open Manifest Object

/-! ### Values that a list does not have -/

/-- The values asked for that a list does not have, each once, in the order of asking. -/
def unlisted (present wanted : List Text) : List Text :=
  (wanted.filter fun w => !present.contains w).eraseDups

theorem missingFrom_eq_unlisted (present wanted : List Text) :
    missingFrom present wanted = unlisted present wanted := by
  induction wanted generalizing present with
  | nil => rfl
  | cons w rest ih =>
    rw [missingFrom, unlisted]
    split
    · rename_i hw
      rw [List.filter_cons_of_neg (by simpa using hw), ih, unlisted]
    · rename_i hw
      rw [List.filter_cons_of_pos (by simpa using hw), List.eraseDups_cons, List.filter_filter, ih,
        unlisted]
      -- what has been met once is passed over from there on
      have hpast : rest.filter (fun x => !(w :: present).contains x) =
          rest.filter fun x => (!x == w) && !present.contains x :=
        List.filter_congr fun x _ => by rw [List.contains_cons, Bool.not_or]
      rw [hpast]

theorem length_missingFrom_le (present wanted : List Text) :
    (missingFrom present wanted).length ≤ wanted.length := by
  induction wanted generalizing present with
  | nil => exact le_rfl
  | cons w rest ih =>
    rw [missingFrom]
    split
    · exact (ih present).trans (Nat.le_succ _)
    · exact Nat.succ_le_succ (ih (w :: present))

/-- Everything asked for is missing exactly if it is asked for once and not there. -/
theorem unlisted_eq_self_iff {present wanted : List Text} :
    unlisted present wanted = wanted ↔ wanted.Nodup ∧ ∀ w ∈ wanted, w ∉ present := by
  rw [← missingFrom_eq_unlisted]
  induction wanted generalizing present with
  | nil => simp [missingFrom]
  | cons w rest ih =>
    rw [missingFrom]
    split
    · rename_i hw
      refine iff_of_false (fun h => ?_) fun h => h.2 w List.mem_cons_self hw
      have hlength := congrArg List.length h
      have hle := length_missingFrom_le present rest
      rw [List.length_cons] at hlength
      omega
    · rename_i hw
      rw [List.cons.injEq, ih, List.nodup_cons, List.forall_mem_cons]
      constructor
      · rintro ⟨-, hrest, hnone⟩
        refine ⟨⟨fun hmem => hnone w hmem List.mem_cons_self, hrest⟩, hw, fun x hx => ?_⟩
        exact fun hpresent => hnone x hx (List.mem_cons_of_mem w hpresent)
      · rintro ⟨⟨hmem, hrest⟩, -, hnone⟩
        refine ⟨rfl, hrest, fun x hx hin => ?_⟩
        rcases List.mem_cons.1 hin with rfl | hpresent
        · exact hmem hx
        · exact hnone x hx hpresent

/-! ### Asking for values -/

namespace ListField

/-- The operation that asks for values to be put into a list of a package. -/
def asking (package : Text) (values : List Text) : ListField → Operation
  | platforms => .addPlatforms package values
  | excludedPlatforms => .excludePlatforms package values
  | outputs => .setOutputs package values
  | allowInsecure => .setAllowInsecure package values

/-- What the user is told of values of a list. -/
def notice (values : List Text) (package : Text) : ListField → Notice
  | platforms => .addedPlatforms values package
  | excludedPlatforms => .excludedPlatforms values package
  | outputs => .addedOutputs values package
  | allowInsecure => .allowedInsecure values package

/-- Whether the values of a list are platforms. -/
def HasPlatforms : ListField → Prop
  | platforms | excludedPlatforms => True
  | outputs | allowInsecure => False

/-- The values that the user is told of: platforms as they were asked for, other values if they
were put in. -/
def told (wanted added : List Text) : ListField → List Text
  | platforms | excludedPlatforms => wanted
  | outputs | allowInsecure => added

/-- **The user is told of what was put in** exactly if platforms were asked for once each, and
none that was there. -/
theorem told_eq_iff (field : ListField) {present wanted : List Text} :
    field.told wanted (unlisted present wanted) = unlisted present wanted ↔
      (field.HasPlatforms → wanted.Nodup ∧ ∀ w ∈ wanted, w ∉ present) := by
  rw [← unlisted_eq_self_iff]
  cases field with
  | platforms | excludedPlatforms => exact ⟨fun h _ => h.symm, fun h => (h trivial).symm⟩
  | outputs | allowInsecure => exact ⟨fun _ h => h.elim, fun _ => rfl⟩

theorem package?_asking (package : Text) (values : List Text) (field : ListField) :
    (field.asking package values).package? = some package := by
  cases field <;> rfl

theorem alter_asking (package : Text) (values : List Text) (field : ListField) :
    (field.asking package values).alter = Operation.alterList field values := by
  cases field <;> rfl

theorem finds_asking (d : Document) (v : VersionedName) (package : Text) (values : List Text)
    (field : ListField) : d.finds v (field.asking package values) = Package.hasName v.name := by
  cases field <;> rfl

end ListField

namespace Manifest

variable {m : Manifest} {package : Text} {field : ListField} {values : List Text} {p : Package}

/-! ### What is done and said -/

/-- A listed package is called by the text that it is found by. -/
theorem versionedName_of_find? (hp : m.find? (.ofText package) = some p) :
    p.versionedName = package := by
  have hreference : (⟨p.name, p.version⟩ : VersionedName) = .ofText package := reference_of_find? hp
  rw [Package.versionedName, hreference, VersionedName.toText_ofText]

/-- What is said of a request that ends well: nothing if it asks for nothing new, and nothing has
been done then; otherwise what the notice is. -/
def Tells (m : Manifest) (added : List Text) (n : Notice) (o : Outcome) : Prop :=
  (added = [] → o = m.unchanged) ∧ (added ≠ [] → o.notice = some n)

theorem tells_appendMissing (hp : m.find? (.ofText package) = some p)
    {refuse : Package → Option Error} {notice : Package → List Text → Notice}
    (hok : (m.appendMissing package field values refuse notice).result = .ok ()) :
    m.Tells (unlisted (field.get p) values) (notice p (unlisted (field.get p) values))
      (m.appendMissing package field values refuse notice) := by
  simp only [appendMissing, hp, missingFrom_eq_unlisted] at hok ⊢
  cases hrefuse : refuse p with
  | some e => simp [hrefuse, failed] at hok
  | none =>
    simp only [hrefuse] at hok ⊢
    cases hadded : unlisted (field.get p) values with
    | nil => exact ⟨fun _ => rfl, fun hne => absurd rfl hne⟩
    | cons w ws =>
      simp only [hadded] at hok ⊢
      refine ⟨fun hnil => absurd hnil (List.cons_ne_nil w ws), fun _ => ?_⟩
      obtain ⟨u, hanswer⟩ := exists_answer_of_edited (not_failsInternally_of_ok hok)
      rw [edited_eq hanswer]

theorem tells_appendPlatforms (hp : m.find? (.ofText package) = some p)
    {refuse : Package → Option Error} {notice : Package → List Text → Notice}
    (hok : (m.appendPlatforms package field values refuse notice).result = .ok ()) :
    m.Tells (unlisted (field.get p) values) (notice p (unlisted (field.get p) values))
      (m.appendPlatforms package field values refuse notice) := by
  rw [appendPlatforms] at hok ⊢
  split at hok
  · rename_i hempty
    obtain rfl := List.isEmpty_iff.1 hempty
    exact ⟨fun _ => rfl, fun hne => absurd rfl hne⟩
  · rename_i hvalues
    rw [if_neg hvalues]
    split at hok
    · simp [failed] at hok
    · exact tells_appendMissing hp hok

/-- **What the user is told of a request.** -/
theorem tells_asking (hp : m.find? (.ofText package) = some p)
    (hok : (m.run (field.asking package values)).result = .ok ()) :
    m.Tells (unlisted (field.get p) values)
      (field.notice (field.told values (unlisted (field.get p) values)) package)
      (m.run (field.asking package values)) := by
  have hname := versionedName_of_find? hp
  cases field with
  | platforms | excludedPlatforms =>
    -- the notice calls the package as it is listed
    have htells := tells_appendPlatforms hp hok
    rw [hname] at htells
    exact htells
  | outputs | allowInsecure => exact tells_appendMissing hp hok

/-! ### The law -/

/-- What comes of a request that ends well, for values of which a list of the package `p` does
not have the `added` ones and of which the user is told the `told` ones. -/
structure Grows (m : Manifest) (package : Text) (field : ListField) (p : Package)
    (added told : List Text) (o : Outcome) : Prop where
  /-- The list of the package has the values at its end. -/
  list : ∃ q, o.manifest.find? (.ofText package) = some q ∧ field.get q = field.get p ++ added
  /-- Nothing else of what the manifest says has changed. -/
  settings : o.manifest.toSettings = { m.toSettings with
    packages := changeFirst (isNamed (.ofText package)) (field.append added) m.packages }
  /-- The document says the same of the first package that has the name in it. -/
  document : ∃ r r', load m.document.toValue.minimalText = .ok r ∧
    load o.manifest.document.toValue.minimalText = .ok r' ∧
    r'.toSettings = { r.toSettings with
      packages := changeFirst (Package.hasName (VersionedName.ofText package).name)
        (field.append added) r.packages }
  nothing : added = [] → o.manifest = m ∧ o.notice = none
  something : added ≠ [] → o.notice = some (field.notice told package)

/-- A request that ends well, on a document that says something. -/
theorem grows_asking {S : Settings} (h : m.document.Says S)
    (hp : m.find? (.ofText package) = some p)
    (hok : (m.run (field.asking package values)).result = .ok ()) :
    m.Grows package field p (unlisted (field.get p) values)
      (field.told values (unlisted (field.get p) values))
      (m.run (field.asking package values)) := by
  have halteration : m.alteration (.ofText package) (field.asking package values).alter =
      fun q => some (field.append (unlisted (field.get p) values) q) := by
    funext q
    rw [alteration_of_find? hp, ListField.alter_asking, Operation.alterList,
      missingFrom_eq_unlisted]
  rcases alters_run h (field.package?_asking package values) with ⟨e, he⟩ | ⟨-, hsaid, hsettings⟩
  · simp [he, failed] at hok
  · rw [halteration, ListField.finds_asking, alterFirst_eq_changeFirst] at hsaid
    rw [halteration, alterFirst_eq_changeFirst] at hsettings
    obtain ⟨hnothing, hsomething⟩ := tells_asking hp hok
    obtain ⟨r, hr, hS⟩ := exists_load_minimalText h
    obtain ⟨r', hr', hS'⟩ := exists_load_minimalText hsaid
    have hpackages : (m.run (field.asking package values)).manifest.packages = _ :=
      congrArg Settings.packages hsettings
    have hnamed : isNamed (.ofText package)
        (field.append (unlisted (field.get p) values) p) = true := by
      rw [isNamed_append]
      exact List.find?_some hp
    refine ⟨⟨_, ?_, field.get_append _ p⟩, hsettings, ⟨r, r', hr, hr', ?_⟩, fun hnil => ?_,
      hsomething⟩
    · change (m.run (field.asking package values)).manifest.packages.find? _ = _
      rw [hpackages]
      exact find?_changeFirst hp hnamed
    · rw [hS', hS]
    · rw [hnothing hnil]
      exact ⟨rfl, rfl⟩

/-- **The lists of a package only grow**, whatever has been done to the manifest before: a request
that ends well puts the values at the end of the list that it does not have, in the settings and
in the document, and tells the user once if there are any. What is told is what has been put in
exactly if it is no matter of platforms, or of platforms that are asked for once each and were
not there. -/
theorem grows_runAll {b : Octets} (h : loadOctets b = .ok m) (ops : List Operation)
    (hp : (m.runAll ops).find? (.ofText package) = some p)
    (hok : ((m.runAll ops).run (field.asking package values)).result = .ok ()) :
    (m.runAll ops).Grows package field p (unlisted (field.get p) values)
      (field.told values (unlisted (field.get p) values))
      ((m.runAll ops).run (field.asking package values)) ∧
    (field.told values (unlisted (field.get p) values) = unlisted (field.get p) values ↔
      (field.HasPlatforms → values.Nodup ∧ ∀ w ∈ values, w ∉ field.get p)) := by
  obtain ⟨s, -, hload⟩ := loadOctets_eq_ok.1 h
  obtain ⟨S, hsaid⟩ := exists_says_runAll (load_eq_ok.1 hload).2.1 ops
  exact ⟨grows_asking hsaid hp hok, field.told_eq_iff⟩

/-- Two outputs are asked for that a package does not have, one of them twice, and one that an
earlier request has put in. -/
theorem grows_runAll_outputs :
    ∃ m p, loadOctets (Text.utf8 "\x7b\"packages\": [\"go\"]\x7d".toList) = .ok m ∧
      (m.runAll [.setOutputs "go".toList ["bin".toList]]).find? (.ofText "go".toList) = some p ∧
      (m.runAll [.setOutputs "go".toList ["bin".toList]]).Grows "go".toList .outputs p
        ["man".toList, "doc".toList] ["man".toList, "doc".toList]
        ((m.runAll [.setOutputs "go".toList ["bin".toList]]).run (.setOutputs "go".toList
          ["man".toList, "bin".toList, "doc".toList, "man".toList])) := by
  obtain ⟨m, hm, p, hp, hunlisted, hok⟩ : ∃ m,
      loadOctets (Text.utf8 "\x7b\"packages\": [\"go\"]\x7d".toList) = .ok m ∧
      ∃ p, (m.runAll [.setOutputs "go".toList ["bin".toList]]).find? (.ofText "go".toList) = some p ∧
        unlisted (ListField.outputs.get p)
          ["man".toList, "bin".toList, "doc".toList, "man".toList] =
            ["man".toList, "doc".toList] ∧
        ((m.runAll [.setOutputs "go".toList ["bin".toList]]).run (ListField.outputs.asking
          "go".toList ["man".toList, "bin".toList, "doc".toList, "man".toList])).result = .ok () := by
    decide +kernel
  have hgrows := (grows_runAll hm _ hp hok).1
  rw [hunlisted] at hgrows
  exact ⟨m, p, hm, hp, hgrows⟩

/-- Of two platforms a package has one already, which is named with the other one. -/
theorem not_told_added :
    ∃ m p, loadOctets (Text.utf8 ("\x7b\"packages\": \x7b\"go\": ".toList ++
        "\x7b\"platforms\": [\"x86_64-linux\"]\x7d\x7d\x7d".toList)) = .ok m ∧
      m.find? (.ofText "go".toList) = some p ∧
      unlisted p.platforms ["x86_64-linux".toList, "aarch64-darwin".toList] =
        ["aarch64-darwin".toList] ∧
      (m.run (.addPlatforms "go".toList
        ["x86_64-linux".toList, "aarch64-darwin".toList])).result = .ok () ∧
      (m.run (.addPlatforms "go".toList
        ["x86_64-linux".toList, "aarch64-darwin".toList])).notice.map Notice.line ≠
        some "Info: Added platform aarch64-darwin to package go\n".toList := by
  obtain ⟨m, hm, p, hp, hunlisted, hok, hline⟩ : ∃ m,
      loadOctets (Text.utf8 ("\x7b\"packages\": \x7b\"go\": ".toList ++
        "\x7b\"platforms\": [\"x86_64-linux\"]\x7d\x7d\x7d".toList)) = .ok m ∧
      ∃ p, m.find? (.ofText "go".toList) = some p ∧
        unlisted p.platforms ["x86_64-linux".toList, "aarch64-darwin".toList] =
          ["aarch64-darwin".toList] ∧
        (m.run (.addPlatforms "go".toList
          ["x86_64-linux".toList, "aarch64-darwin".toList])).result = .ok () ∧
        (m.run (.addPlatforms "go".toList
          ["x86_64-linux".toList, "aarch64-darwin".toList])).notice.map Notice.line ≠
          some "Info: Added platform aarch64-darwin to package go\n".toList := by
    decide +kernel
  exact ⟨m, p, hm, hp, hunlisted, hok, hline⟩

end Manifest

end EnvManifest
