import EnvManifest.Proofs.Edit.Elements

/-!
# What a root object gives after an edit

A root object `Gives` settings if they are decoded from its members, and nests no deeper
than a document may. Each edit of a document is read back as a function on settings,
whatever shape the packages are written in:

| edit | settings |
|---|---|
| `addPackage` | the packages are `Manifest.addedTo` |
| `removePackage` | the first package that it may take out (`removes`) is taken out |
| `editSettings` | the first package of the name is changed |
| `removePatchMode` | likewise |
| `setEnv` | the environment is set |
| `setString` | the field is set |

None of them can fail on a root object that gives any settings.
-/

namespace EnvManifest

open Datum (HasField)
open Manifest Object

/-! ### The fields of settings -/

/-- Settings with a field set to a string. -/
def StringField.write (value : Text) : StringField → Settings → Settings
  | name, S => { S with name := value }
  | description, S => { S with description := value }
  | envFrom, S => { S with envFrom := value }
  | requirement, S => { S with requirement := value }

/-- The environment of a value. -/
def Datum.decodeEnv : Datum → Decoded (Table Text) :=
  decodeOr Table.empty (decodeTable decodeText)

namespace Settings

theorem hasField_packages : HasField fields packagesKey Package.decodeList
    fun a S => { S with packages := a } where
  find := rfl
  independent _ := by
    repeat first | refine .cons_of_comm (fun _ _ => rfl) ?_ | refine .cons_self rfl ?_
    exact .nil
  set_set _ _ _ := rfl

theorem hasField_env : HasField fields "env".toList Datum.decodeEnv
    fun a S => { S with env := a } where
  find := rfl
  independent _ := by
    repeat first | refine .cons_of_comm (fun _ _ => rfl) ?_ | refine .cons_self rfl ?_
    exact .nil
  set_set _ _ _ := rfl

theorem hasField_string (field : StringField) :
    HasField fields field.key Datum.decodeOptionalText field.write where
  find := by cases field <;> rfl
  independent _ := by
    cases field
    all_goals
      repeat first | refine .cons_of_comm (fun _ _ => rfl) ?_ | refine .cons_self rfl ?_
      exact .nil
  set_set a b S := by cases field <;> rfl

end Settings

/-! ### Settings of a root object -/

/-- A root object is read as settings, and its members nest at most `d + 3` deep: so deep
goes an entry of the packages with a list in it. -/
structure Object.Gives (d : Nat) (root : Object) (S : Settings) : Prop where
  decodes : Settings.decode root.entries = .ok S
  fits : ∀ m ∈ root.children, m.Fits (Node.Fits (d + 3))

section Fields

variable {d : Nat} {root : Object} {S : Settings} {name : Text} {s : Spot} {α : Type}
  {decode : Datum → Decoded α} {set : α → Settings → Settings}

theorem gives_setNode (hf : HasField Settings.fields name decode set) (h : root.Gives d S)
    (hs : spot? root name = some s) {n : Node} {a : α} (hn : decode n.datum = .ok a)
    (hfits : n.Fits (d + 3)) : (withSpot root (s.setNode n)).Gives d (set a S) :=
  ⟨decodes_setNode hf hs h.decodes hn, fits_setNode hs h.fits hfits⟩

theorem gives_push (hf : HasField Settings.fields name decode set) (h : root.Gives d S)
    (hs : spot? root name = none) {n : Node} {a : α} (hn : decode n.datum = .ok a)
    (hfits : n.Fits (d + 3)) : Gives d (root.push (Member.onOwnLine name n)) (set a S) :=
  ⟨decodes_push hf hs h.decodes rfl hn, Composite.fits_push h.fits (fits_onOwnLine name hfits)⟩

theorem gives_spot (hf : HasField Settings.fields name decode set) (h : root.Gives d S)
    (hs : spot? root name = some s) :
    s.here.node.Fits (d + 3) ∧ ∃ a, decode s.here.node.datum = .ok a ∧ S = set a S :=
  ⟨(fits_of_spot? hs h.fits).2.1.2, decodes_spot hf hs h.decodes⟩

end Fields

variable {d : Nat} {root : Object} {S : Settings} {s : Spot}

theorem Object.Gives.with_packages (h : root.Gives d S) {ps : List Package} (hps : ps = S.packages) :
    root.Gives d { S with packages := ps } := by
  rw [hps]
  exact h

/-! ### Fields of the manifest -/

/-- **Setting a field to a string sets the field**; an empty string takes it out, which
is the same. -/
theorem gives_setString (h : root.Gives d S) (field : StringField) (value : Text) :
    (setString field.key value root).1 = .ok () ∧
      (setString field.key value root).2.Gives d (field.write value S) := by
  have hf := Settings.hasField_string field
  rw [setString]
  split
  · rename_i hempty
    obtain rfl := List.isEmpty_iff.1 hempty
    have hfirst : field.write [] Settings.empty = Settings.empty := by cases field <;> rfl
    exact ⟨rfl, decodes_removeFirst hf h.decodes hfirst, fits_removeFirst h.fits _⟩
  · exact ⟨rfl, decodes_setOrPush hf h.decodes rfl,
      fits_setOrPush h.fits _ (Node.fits_ofText value)⟩

/-- The environment that is written is read back. -/
theorem decodeEnv_envObject (ownLine : Bool) (env : Table Text) :
    Datum.decodeEnv (Node.object (envObject ownLine env)).datum = .ok env := by
  have hentries : (envObject ownLine env).entries = env.entries.map fun e => (e.1, .string e.2) := by
    rw [entries, envObject, List.map_map]
    refine List.map_congr_left fun e _ => ?_
    cases ownLine <;> rfl
  have hmapM : ∀ l : List (Text × Text), (l.map fun e => (e.1, Datum.string e.2)).mapM
      (fun m => do
        let value ← m.2.decodeText
        pure (m.1, value) : Text × Datum → Decoded (Text × Text)) = .ok l := by
    intro l
    induction l with
    | nil => rfl
    | cons e l ih => exact mapM_cons_eq_ok.2 ⟨e, l, rfl, ih, rfl⟩
  rw [Node.datum_object]
  change Datum.decodeTable Datum.decodeText (.object (envObject ownLine env).entries) = _
  rw [hentries, Datum.decodeTable, hmapM]
  exact congrArg Except.ok (Table.ofList_entries env)

theorem fits_envObject (ownLine : Bool) (env : Table Text) :
    (Node.object (envObject ownLine env)).Fits (d + 1) := by
  rw [Node.fits_object]
  intro m hm
  obtain ⟨⟨name, value⟩, -, rfl⟩ := List.mem_map.1 hm
  have hname : ∀ l ∈ [Literal.ofText name], IsLiteral l := by simpa using isLiteral_ofText name
  cases ownLine with
  | true => exact ⟨hname, Node.fits_ofText value⟩
  | false => exact ⟨hname, Node.fits_ofText value⟩

/-- **Replacing the environment sets it.** -/
theorem gives_setEnv (h : root.Gives d S) (env : Table Text) :
    (setEnv env root).1 = .ok () ∧ (setEnv env root).2.Gives d { S with env := env } := by
  have hf := Settings.hasField_env
  rw [setEnv]
  split
  · rename_i s hs
    exact ⟨rfl, gives_setNode hf h hs (decodeEnv_envObject _ env) (fits_envObject _ env)⟩
  · rename_i hs
    exact ⟨rfl, gives_push hf h hs (decodeEnv_envObject _ env) (fits_envObject _ env)⟩

/-! ### The member of the packages -/

/-- What holds the packages: an object or an array of the packages, with children that
nest at most `d` deep. -/
inductive PackagesIn (d : Nat) : Node → List Package → Prop
  | object {pkgs : Object} {ps : List Package} : Package.decodeEntries pkgs.entries = .ok ps →
    (∀ m ∈ pkgs.children, m.Fits (Node.Fits d)) → PackagesIn d (.object pkgs) ps
  | array {es : Elements} {ps : List Package} : Package.decodeElements es.children = .ok ps →
    (∀ e ∈ es.children, e.Fits (Node.Fits d)) → PackagesIn d (.array es) ps

namespace PackagesIn

theorem decodes {n : Node} {ps : List Package} (h : PackagesIn d n ps) :
    Package.decodeList n.datum = .ok ps := by
  cases h with
  | object h _ => rwa [Package.decodeList_object]
  | array h _ => rwa [Package.decodeList_array]

theorem fits {n : Node} {ps : List Package} (h : PackagesIn d n ps) : n.Fits (d + 1) := by
  cases h with
  | object _ h => exact Node.fits_object.2 h
  | array _ h => exact Node.fits_array.2 h

/-- What packages are decoded from is one of the two, or null. -/
theorem of_decodeList {n : Node} {ps : List Package} (h : Package.decodeList n.datum = .ok ps)
    (hfits : n.Fits (d + 1)) : PackagesIn d n ps ∨ n = .null ∧ ps = [] := by
  cases n with
  | null => exact Or.inr ⟨rfl, (Except.ok.inj h).symm⟩
  | object pkgs =>
    rw [Package.decodeList_object] at h
    exact Or.inl (.object h (Node.fits_object.1 hfits))
  | array es =>
    rw [Package.decodeList_array] at h
    exact Or.inl (.array h (Node.fits_array.1 hfits))
  | bool b | number t | string l => simp [Node.datum, Node.denoting, Package.decodeList] at h

theorem new : PackagesIn d (.object Composite.new) [] :=
  .object rfl (by simp [Composite.new])

theorem editable {n : Node} {ps : List Package} (h : Package.decodeList n.datum = .ok ps)
    (hfits : n.Fits (d + 1)) (migrate : Bool) :
    PackagesIn d (editablePackages migrate n) ps ∧
      (migrate = true → ∃ pkgs, editablePackages migrate n = .object pkgs) := by
  rcases of_decodeList h hfits with hn | ⟨rfl, rfl⟩
  · cases hn with
    | object h hinner => exact ⟨.object h hinner, fun _ => ⟨_, rfl⟩⟩
    | array h hinner =>
      cases migrate with
      | true => exact ⟨.object (Package.decodeEntries_migrated h) (fits_migrated _), fun _ => ⟨_, rfl⟩⟩
      | false => exact ⟨.array h hinner, by simp⟩
  · exact ⟨new, fun _ => ⟨_, rfl⟩⟩

end PackagesIn

/-- **The member of the packages**, wherever it is: it holds the packages, and whatever
is put there is read as the packages. -/
theorem gives_packagesSpot (h : root.Gives d S) (migrate : Bool) {root' : Object} {s : Spot}
    (hspot : packagesSpot migrate root = (root', s)) :
    PackagesIn (d + 2) s.here.node S.packages ∧
      (migrate = true → ∃ pkgs, s.here.node = .object pkgs) ∧
      ∀ n ps, PackagesIn (d + 2) n ps →
        (withSpot root' (s.setNode n)).Gives d { S with packages := ps } := by
  have hf := Settings.hasField_packages
  rw [packagesSpot] at hspot
  split at hspot
  · rename_i s₀ hs₀
    obtain ⟨rfl, rfl⟩ := Prod.mk.inj hspot
    obtain ⟨hfits, ps, hps, hset⟩ := gives_spot hf h hs₀
    obtain ⟨heditable, hmigrate⟩ := PackagesIn.editable hps hfits migrate
    refine ⟨?_, hmigrate, fun n ps hn => gives_setNode hf h hs₀ hn.decodes hn.fits⟩
    rw [hset]
    exact heditable
  · rename_i hs₀
    obtain ⟨rfl, rfl⟩ := Prod.mk.inj hspot
    have hunset := Datum.decodeMembers_unset (a := []) hf h.decodes
      (not_mem_of_spot?_eq_none hs₀) rfl
    refine ⟨?_, fun _ => ⟨_, rfl⟩, fun n ps hn => gives_push hf h hs₀ hn.decodes hn.fits⟩
    rw [hunset]
    exact .new

/-- Putting the packages back on another line is putting them back. -/
theorem Gives.putPackages {root' : Object} {s : Spot} (h : (withSpot root' s).Gives d S)
    (changed : Bool) : (putPackages root' s changed).Gives d S := by
  rw [EnvManifest.putPackages]
  split
  · refine ⟨?_, fun m hm => ?_⟩
    · have hdecodes := h.decodes
      rw [entries_withSpot] at hdecodes
      change Settings.decode (withSpot root' _).entries = _
      rw [entries_withSpot]
      exact hdecodes
    · rcases List.mem_append.1 hm with hm | hm
      · exact h.fits m (List.mem_append.2 (Or.inl hm))
      · rcases List.mem_cons.1 hm with rfl | hm
        · exact h.fits s.here (by simp [withSpot, Spot.members])
        · exact h.fits m (List.mem_append.2 (Or.inr (List.mem_cons_of_mem _ hm)))
  · exact h

/-! ### Adding and removing packages -/

/-- **Adding a package adds it.** -/
theorem gives_addPackage (h : root.Gives d S) {v : VersionedName}
    (hv : VersionedName.ofText v.toText = v) :
    ∃ isNew, (addPackage v root).1 = .ok isNew ∧
      (addPackage v root).2.Gives d { S with packages := addedTo v isNew S.packages } := by
  rw [addPackage]
  generalize hspot : packagesSpot false root = r
  obtain ⟨root', s⟩ := r
  obtain ⟨hin, -, hput⟩ := gives_packagesSpot h false hspot
  have hstay : (withSpot root' s).Gives d S := hput s.here.node S.packages hin
  dsimp only
  cases hn : s.here.node with
  | object pkgs =>
    rw [hn] at hin
    cases hin with
    | object hps hfits =>
      dsimp only
      split
      -- the name is listed: the entry gets the version, unless it has it
      · rename_i entry hentry
        obtain ⟨ps₁, p, ps₂, -, hp, -, hS, hfirst, hname⟩ := Package.decodeEntries_spot hentry hps
        have hany : S.packages.any (fun p => p.name == v.name) = true := by
          rw [hS]
          exact List.any_eq_true.2 ⟨p, by simp, hname⟩
        split
        · rename_i n hversion
          refine ⟨false, rfl, Gives.putPackages (hput _ _ (.object ?_ ?_)) true⟩
          · rw [addedTo, if_neg (by simp [hany])]
            exact Package.decodeEntries_setNode hentry hps fun q hq =>
              decode_entryWithVersion hq hversion
          · exact fits_setNode hentry hfits
              (fits_entryWithVersion (fits_of_spot? hentry hfits).2.1.2 hversion)
        · rename_i hversion
          have hsame : addedTo v false S.packages = S.packages := by
            rw [addedTo, if_neg (by simp [hany]), hS]
            refine (changeFirst_append hfirst hname).trans ?_
            rw [← version_of_entryWithVersion_eq_none hp hversion]
          exact ⟨false, rfl, hstay.with_packages hsame⟩
      -- the name is new
      · rename_i hentry
        refine ⟨true, rfl, Gives.putPackages (hput _ _ (.object ?_ ?_)) true⟩
        · exact Package.decodeEntries_push hps rfl
        · exact Composite.fits_push hfits (fits_onOwnLine v.name (Node.fits_ofText v.version))
  | array es =>
    rw [hn] at hin
    cases hin with
    | array hps hfits =>
      refine ⟨true, rfl, Gives.putPackages (hput _ _ (.array ?_ ?_)) true⟩
      · have helement : Package.decodeElement (.string v.toText) =
            .ok (Package.ofVersion (VersionedName.ofText v.toText)) := rfl
        rw [hv] at helement
        exact Package.decodeElements_push hps helement
      · exact Composite.fits_push hfits ⟨by simp [Named.names], Node.fits_ofText v.toText⟩
  | null | bool b | number t | string l =>
    rw [hn] at hin
    cases hin

/-- Packages that are decoded from nothing are none. -/
theorem packages_eq_nil (h : root.Gives d S) (hs : spot? root packagesKey = none) :
    S.packages = [] := by
  have hunset := Datum.decodeMembers_unset (a := []) Settings.hasField_packages h.decodes
    (not_mem_of_spot?_eq_none hs) rfl
  rw [hunset]

/-- The member of the packages as it is, and what is put there. -/
theorem gives_packages (h : root.Gives d S) (hs : spot? root packagesKey = some s) :
    (PackagesIn (d + 2) s.here.node S.packages ∨ s.here.node = .null ∧ S.packages = []) ∧
      ∀ n ps, PackagesIn (d + 2) n ps →
        (withSpot root (s.setNode n)).Gives d { S with packages := ps } := by
  have hf := Settings.hasField_packages
  obtain ⟨hfits, ps, hps, hset⟩ := gives_spot hf h hs
  refine ⟨?_, fun n ps hn => gives_setNode hf h hs hn.decodes hn.fits⟩
  rw [hset]
  exact PackagesIn.of_decodeList hps hfits

/-- The packages that a removal may take out. An array lists versions, so there it is those
of the name and version; in an object a name is all there is to go by. -/
def Object.removes (root : Object) (v : VersionedName) : Package → Bool :=
  match (spot? root packagesKey).bind fun s => s.here.node.array? with
  | some _ => isNamed v
  | none => Package.hasName v.name

/-- **Removing a package takes it out**: the first one that it may. -/
theorem gives_removePackage (h : root.Gives d S) (v : VersionedName) :
    (removePackage v root).1 = .ok () ∧ (removePackage v root).2.Gives d
      { S with packages := S.packages.eraseP (root.removes v) } := by
  rw [removePackage]
  split
  · rename_i hs
    exact ⟨rfl, h.with_packages (by rw [packages_eq_nil h hs]; rfl)⟩
  · rename_i s hs
    obtain ⟨hin, hput⟩ := gives_packages h hs
    rcases hin with hin | ⟨hnull, hempty⟩
    · cases hn : s.here.node with
      | object pkgs =>
        have hremoves : root.removes v = Package.hasName v.name := by
          simp [removes, hs, hn, Node.array?]
        rw [hn] at hin
        cases hin with
        | object hps hfits =>
          rw [hremoves]
          exact ⟨rfl, hput _ _ (.object (Package.decodeEntries_removeFirst hps v.name)
            (fits_removeFirst hfits v.name))⟩
      | array es =>
        have hremoves : root.removes v = isNamed v := by simp [removes, hs, hn, Node.array?]
        rw [hn] at hin
        cases hin with
        | array hps hfits =>
          dsimp only
          split
          · rename_i i hi
            rw [hremoves]
            exact ⟨rfl, hput _ _ (.array (Package.decodeElements_remove hps hi)
              (Composite.fits_remove hfits i))⟩
          · rename_i hnone
            refine ⟨rfl, h.with_packages ?_⟩
            rw [hremoves]
            exact Package.eraseP_eq_self_of_elementIndex? hps hnone
      | null | bool b | number t | string l =>
        rw [hn] at hin
        cases hin
    · rw [hnull]
      exact ⟨rfl, h.with_packages (by rw [hempty]; rfl)⟩

/-! ### Settings of a package -/

/-- **Editing the settings of a package changes the first package of the name.** -/
theorem gives_editSettings (h : root.Gives d S) (name : Text) {e : Edit Unit}
    {g : Package → Package} (he : e.Changes d g) :
    (editSettings name e root).1 = .ok () ∧ (editSettings name e root).2.Gives d
      { S with packages := changeFirst (Package.hasName name) g S.packages } := by
  rw [editSettings]
  generalize hspot : packagesSpot true root = r
  obtain ⟨root', s⟩ := r
  obtain ⟨hin, hobject, hput⟩ := gives_packagesSpot h true hspot
  have hstay : (withSpot root' s).Gives d S := hput s.here.node S.packages hin
  obtain ⟨pkgs, hn⟩ := hobject rfl
  rw [hn] at hin
  cases hin with
  | object hps hfits =>
    dsimp only
    rw [hn]
    dsimp only
    split
    · rename_i hentry
      have hnot := Package.hasName_eq_false_of_not_mem hps (not_mem_of_spot?_eq_none hentry)
      rw [changeFirst_of_forall_eq fun p hp hq => by simp [hnot p hp] at hq]
      exact ⟨rfl, hstay⟩
    · rename_i entry hentry
      obtain ⟨ps₁, p, ps₂, -, hp, -, -⟩ := Package.decodeEntries_spot hentry hps
      refine ⟨(decode_editedEntry he hp).1, hput _ _ (.object ?_ ?_)⟩
      · exact Package.decodeEntries_setNode hentry hps fun q hq => (decode_editedEntry he hq).2
      · exact fits_setNode hentry hfits (fits_editedEntry he (fits_of_spot? hentry hfits).2.1.2)

/-- A package without a patch mode. -/
def Package.unpatched (p : Package) : Package :=
  { p with patchGlibc := false, patch := .auto }

/-- An entry that is no object has no patch mode. -/
theorem unpatched_of_decode {name : Text} {entry : Node} {p : Package}
    (h : Package.decode name entry.datum = .ok p) (hentry : ∀ o, entry ≠ .object o) :
    p.unpatched = p := by
  cases entry with
  | null | string l =>
    obtain rfl := Except.ok.inj h
    rfl
  | object o => exact absurd rfl (hentry o)
  | array es =>
    rw [Node.datum_array] at h
    simp [Package.decode] at h
  | bool b | number t => simp [Node.datum, Node.denoting, Package.decode] at h

theorem decode_unpatchedEntry {name : Text} {o : Object} {p : Package}
    (h : Package.decode name (Node.object o).datum = .ok p) :
    Package.decode name (Node.object (removeFirst (removeFirst o patchKey) patchGlibcKey)).datum =
      .ok p.unpatched := by
  rw [Node.datum_object] at h
  obtain ⟨t, ht, hp⟩ := bind_eq_ok.1 h
  exact decode_object (decode_removePatch ht) (EntryFields.turns_withoutPatch _ _ _ hp)

/-- **Removing the patch mode of a package removes it**; in an array, and in an entry that
is no object, there is none. -/
theorem gives_removePatchMode (h : root.Gives d S) (name : Text) :
    (removePatchMode name root).1 = .ok () ∧ (removePatchMode name root).2.Gives d
      { S with packages := changeFirst (Package.hasName name) Package.unpatched S.packages } := by
  rw [removePatchMode]
  split
  · rename_i hs
    exact ⟨rfl, h.with_packages (by rw [packages_eq_nil h hs]; rfl)⟩
  · rename_i s hs
    obtain ⟨hin, hput⟩ := gives_packages h hs
    rcases hin with hin | ⟨hnull, hempty⟩
    · cases hn : s.here.node with
      | object pkgs =>
        rw [hn] at hin
        cases hin with
        | object hps hfits =>
          dsimp only
          split
          · rename_i hentry
            have hnot := Package.hasName_eq_false_of_not_mem hps (not_mem_of_spot?_eq_none hentry)
            exact ⟨rfl, h.with_packages
              (changeFirst_of_forall_eq fun p hp hq => by simp [hnot p hp] at hq)⟩
          · rename_i entry hentry
            have hentryFits := (fits_of_spot? hentry hfits).2.1.2
            -- an entry that is a version alone has no mode to take out
            split
            · rename_i settings hsettings
              rw [hsettings, Node.fits_object] at hentryFits
              refine ⟨rfl, hput _ _ (.object ?_ ?_)⟩
              · refine Package.decodeEntries_setNode hentry hps fun q hq => ?_
                rw [hsettings] at hq
                exact decode_unpatchedEntry hq
              · exact fits_setNode hentry hfits
                  (Node.fits_object.2 (fits_removeFirst (fits_removeFirst hentryFits _) _))
            · rename_i hsettings
              obtain ⟨ps₁, p, ps₂, -, hp, -, hS, hfirst, hname⟩ :=
                Package.decodeEntries_spot hentry hps
              refine ⟨rfl, h.with_packages ?_⟩
              rw [hS, changeFirst_append hfirst hname, unpatched_of_decode hp hsettings]
      | array es =>
        rw [hn] at hin
        cases hin with
        | array hps _ =>
          -- what is listed in an array has a version and nothing else
          refine ⟨rfl, h.with_packages (changeFirst_of_forall_eq fun p hp _ => ?_)⟩
          rw [Package.eq_ofVersion_of_decodeElements hps p hp]
          rfl
      | null | bool b | number t | string l =>
        rw [hn] at hin
        cases hin
    · rw [hnull]
      exact ⟨rfl, h.with_packages (by rw [hempty]; rfl)⟩

end EnvManifest
