import EnvManifest.Proofs.Internal

/-!
# Settings stay valid

What loading checks of the settings it decodes is spelled out by `Settings.Valid`
(`Settings.check_eq_ok_iff_valid`): the commit is empty or of forty octets, every script has a
name without blanks and something to run, and the version requirement is blank or can be read.
No operation touches the commit and the scripts, and a requirement is looked at before it is set.
So after any operations the settings are as valid as they were loaded, and checking a running
version never ends with a requirement that cannot be read (`Manifest.valid_runAll`).

Loading counts the octets of a commit but does not look at them. The commit is a hash of forty
hexadecimal digits exactly if it has been loaded with nothing but hexadecimal digits.
-/

namespace EnvManifest

open Manifest

/-! ### Trimmed texts -/

/-- Trimming leaves nothing of a text that is blank, and of no other one. -/
theorem Text.trim_eq_nil_iff {s : Text} : s.trim = [] ↔ s.allBlank = true := by
  have hfront : s.dropWhile isBlank = [] ↔ s.allBlank = true := by
    rw [List.dropWhile_eq_nil_iff, Text.allBlank, List.all_eq_true]
  rw [Text.trim, Text.trimEnd, Text.dropEndWhile, List.reverse_eq_nil_iff,
    List.dropWhile_eq_nil_iff, ← hfront]
  constructor
  · intro h
    -- the first character left in front is not blank
    by_contra hne
    have hhead := List.head_dropWhile_not isBlank hne
    rw [h _ (List.mem_reverse.2 (List.head_mem hne))] at hhead
    exact Bool.noConfusion hhead
  · intro h
    simp [h]

/-! ### Hashes -/

/-- Whether a character is a hexadecimal digit of either case. -/
def isHexDigit (c : Char) : Bool :=
  (hexValue? c).isSome

/-- No commit, or one that is written as forty hexadecimal digits. -/
def IsHash (commit : Text) : Prop :=
  commit = [] ∨ commit.length = 40 ∧ ∀ c ∈ commit, isHexDigit c = true

instance (commit : Text) : Decidable (IsHash commit) :=
  decidable_of_iff (commit = [] ∨ commit.length = 40 ∧ commit.all isHexDigit = true)
    (by rw [IsHash, List.all_eq_true])

/-- A hexadecimal digit is encoded as one octet. -/
theorem utf8Size_of_isHexDigit {c : Char} (h : isHexDigit c = true) : c.utf8Size = 1 := by
  have hascii : c.toNat < 0x80 := by
    by_contra hc
    rw [isHexDigit, hexValue?_eq_none (by omega)] at h
    simp at h
  have hle : c ≤ '\x7f' := Nat.le_of_lt_succ hascii
  exact Char.utf8Size_eq_one_iff.2 hle

theorem utf8Length_of_isHexDigit {s : Text} (h : ∀ c ∈ s, isHexDigit c = true) :
    Text.utf8Length s = s.length := by
  induction s with
  | nil => rfl
  | cons c s ih =>
    obtain ⟨hc, hs⟩ := List.forall_mem_cons.1 h
    have hlength : Text.utf8Length (c :: s) = c.utf8Size + Text.utf8Length s := rfl
    rw [hlength, utf8Size_of_isHexDigit hc, ih hs, List.length_cons, Nat.add_comm]

/-! ### Valid settings -/

/-- What a script has to have to be run by name. -/
structure RunnableScript (name : Text) (body : Commands) : Prop where
  named : name ≠ []
  unblank : ∀ c ∈ name, isBlank c = false
  runs : ∃ c ∈ body.script, isBlank c = false

/-- What is checked of settings when they are loaded. -/
structure Settings.Valid (S : Settings) : Prop where
  commit : S.commit = [] ∨ Text.utf8Length S.commit = commitLength
  scripts : ∀ e ∈ S.shell.scripts.entries, RunnableScript e.1 e.2
  requirement : S.requirement.allBlank = true ∨
    ∃ r, Requirement.ofText? S.requirement.trim = some r

theorem checkCommit_eq_ok_iff {commit : Text} : checkCommit commit = .ok () ↔
    commit = [] ∨ Text.utf8Length commit = commitLength := by
  rw [checkCommit]
  simp [or_iff_not_imp_left]

theorem checkScript_eq_ok_iff {name : Text} {body : Commands} :
    checkScript name body = .ok () ↔ RunnableScript name body := by
  have hchecks : checkScript name body = .ok () ↔
      name.allBlank = false ∧ name.any isBlank = false ∧ body.script.allBlank = false := by
    rw [checkScript]
    split
    · simp_all
    · split
      · simp_all
      · split <;> simp_all
  rw [hchecks]
  constructor
  · rintro ⟨hname, hblank, hbody⟩
    refine ⟨?_, by simpa using hblank, by simpa [Text.allBlank] using hbody⟩
    rintro rfl
    exact Bool.noConfusion hname
  · intro h
    refine ⟨?_, by simpa using h.unblank, by simpa [Text.allBlank] using h.runs⟩
    obtain ⟨c, rest, rfl⟩ := List.exists_cons_of_ne_nil h.named
    simp [Text.allBlank, h.unblank c List.mem_cons_self]

theorem checkScripts_eq_ok_iff {entries : List (Text × Commands)} :
    checkScripts entries = .ok () ↔ ∀ e ∈ entries, RunnableScript e.1 e.2 := by
  induction entries with
  | nil => simp [checkScripts]
  | cons e rest ih =>
    obtain ⟨name, body⟩ := e
    rw [checkScripts, bind_eq_ok, List.forall_mem_cons, ← ih, ← checkScript_eq_ok_iff]
    exact ⟨fun ⟨_, hscript, hrest⟩ => ⟨hscript, hrest⟩,
      fun ⟨hscript, hrest⟩ => ⟨(), hscript, hrest⟩⟩

theorem parseRequirement_eq_ok_iff {s : Text} : (∃ r, parseRequirement s = .ok r) ↔
    s.allBlank = true ∨ ∃ r, Requirement.ofText? s.trim = some r := by
  rw [parseRequirement, ← Text.trim_eq_nil_iff, ← List.isEmpty_iff]
  split
  · rename_i hempty
    exact ⟨fun _ => Or.inl hempty, fun _ => ⟨none, rfl⟩⟩
  · rename_i hempty
    rw [or_iff_right hempty]
    cases hr : Requirement.ofText? s.trim with
    | some r => exact ⟨fun _ => ⟨r, rfl⟩, fun _ => ⟨some r, rfl⟩⟩
    | none => simp

/-- **Loading accepts settings exactly if they are valid.** -/
theorem Settings.check_eq_ok_iff_valid {S : Settings} : S.check = .ok () ↔ S.Valid := by
  rw [check_eq_ok, checkCommit_eq_ok_iff, checkScripts_eq_ok_iff, parseRequirement_eq_ok_iff]
  exact ⟨fun ⟨hcommit, hscripts, hrequirement⟩ => ⟨hcommit, hscripts, hrequirement⟩,
    fun h => ⟨h.commit, h.scripts, h.requirement⟩⟩

/-- The requirement of valid settings can be read, whatever version is checked against it. -/
theorem Settings.Valid.checkVersion_ne {S : Settings} (h : S.Valid) (running s : Text) :
    S.checkVersion running ≠ .error (.user (.badRequirement s)) := by
  obtain ⟨r, hr⟩ := parseRequirement_eq_ok_iff.2 h.requirement
  intro herror
  rcases checkVersion_eq_error herror with hrequirement | he | he
  · simp [hr] at hrequirement
  · simp at he
  · simp at he

/-- **A valid commit is a hash** exactly if it has nothing but hexadecimal digits. -/
theorem Settings.Valid.isHash_iff {S : Settings} (h : S.Valid) :
    IsHash S.commit ↔ ∀ c ∈ S.commit, isHexDigit c = true := by
  constructor
  · rintro (hnil | ⟨-, hdigits⟩)
    · simp [hnil]
    · exact hdigits
  · intro hdigits
    exact h.commit.imp_right fun hlength =>
      ⟨(utf8Length_of_isHexDigit hdigits).symm.trans hlength, hdigits⟩

namespace Manifest

variable {m : Manifest} {S : Settings}

/-! ### Operations -/

/-- An outcome with valid settings, if they were valid before, and with the same commit, shell
and included manifests. -/
def KeepsValid (m : Manifest) (o : Outcome) : Prop :=
  m.toSettings.Valid → o.manifest.toSettings.Valid ∧ AgreeAround m.toSettings o.manifest.toSettings

theorem keepsValid_self {o : Outcome} (h : o.manifest = m) : m.KeepsValid o := by
  intro hvalid
  rw [h]
  exact ⟨hvalid, rfl, rfl, rfl⟩

theorem keepsValid_edited {α : Type} {e : Edit α} {next : α → Manifest → Outcome}
    (hnext : ∀ a d, m.KeepsValid (next a { m with document := d })) :
    m.KeepsValid (m.edited e next) := by
  rw [edited]
  dsimp only
  split
  · exact hnext _ _
  · exact fun hvalid => ⟨hvalid, rfl, rfl, rfl⟩

/-- Other packages are nothing that is checked. -/
theorem keepsValid_packages {o : Outcome} {ps : List Package}
    (h : o.manifest.toSettings = { m.toSettings with packages := ps }) : m.KeepsValid o := by
  intro hvalid
  rw [h]
  exact ⟨⟨hvalid.commit, hvalid.scripts, hvalid.requirement⟩, rfl, rfl, rfl⟩

/-- **A requirement is looked at before it is set.** -/
theorem keepsValid_setString (field : StringField) (value : Text) :
    m.KeepsValid (m.setString field value) := by
  rw [setString]
  split
  · exact keepsValid_self rfl
  · rename_i herror
    refine keepsValid_edited fun _ d hvalid => ⟨?_, by cases field <;> exact ⟨rfl, rfl, rfl⟩⟩
    have hwrite := check_write (Settings.check_eq_ok_iff_valid.2 hvalid) herror
    cases field <;> exact Settings.check_eq_ok_iff_valid.1 hwrite

theorem keepsValid_of_package? (h : m.document.Says S) {op : Operation} {package : Text}
    (hop : op.package? = some package) : m.KeepsValid (m.run op) := by
  rcases alters_run h hop with ⟨e, he⟩ | ⟨-, -, hsettings⟩
  · rw [he]
    exact keepsValid_self rfl
  · exact keepsValid_packages hsettings

/-- **An operation leaves valid settings valid.** -/
theorem keepsValid_run (h : m.document.Says S) (op : Operation) : m.KeepsValid (m.run op) := by
  cases op with
  | add package =>
    rw [run, Manifest.add]
    split
    · exact keepsValid_self rfl
    · exact keepsValid_edited fun isNew d => keepsValid_packages rfl
  | setEnv env =>
    exact keepsValid_edited fun _ d hvalid =>
      ⟨⟨hvalid.commit, hvalid.scripts, hvalid.requirement⟩, rfl, rfl, rfl⟩
  | setString field value => exact keepsValid_setString field value
  | _ => exact keepsValid_of_package? h rfl

theorem keepsValid_runAll (h : m.document.Says S) (hvalid : m.toSettings.Valid)
    (ops : List Operation) :
    (m.runAll ops).toSettings.Valid ∧ AgreeAround m.toSettings (m.runAll ops).toSettings := by
  induction ops generalizing m S with
  | nil => exact ⟨hvalid, rfl, rfl, rfl⟩
  | cons op ops ih =>
    obtain ⟨S', hsaid, -⟩ := follows_run h op
    obtain ⟨hstep, haround⟩ := keepsValid_run h op hvalid
    obtain ⟨hrun, haround'⟩ := ih hsaid hstep
    exact ⟨hrun, haround'.shell.trans haround.shell, haround'.commit.trans haround.commit,
      haround'.includes.trans haround.includes⟩

/-- **Settings stay valid**: after any operations on what was loaded the commit is empty or of
forty octets, every script has a name without blanks and something to run, and the version
requirement can be read, so that no version check fails for it. The commit is a hash exactly if
the one that was loaded has nothing but hexadecimal digits. -/
theorem valid_runAll {b : Octets} (h : loadOctets b = .ok m) (ops : List Operation) :
    (m.runAll ops).toSettings.Valid ∧
    (∀ running s, (m.runAll ops).checkVersion running ≠ .error (.user (.badRequirement s))) ∧
    (IsHash (m.runAll ops).commit ↔ ∀ c ∈ m.commit, isHexDigit c = true) := by
  obtain ⟨s, -, hload⟩ := loadOctets_eq_ok.1 h
  obtain ⟨-, hsaid, -⟩ := load_eq_ok.1 hload
  obtain ⟨hvalid, haround⟩ :=
    keepsValid_runAll hsaid (Settings.check_eq_ok_iff_valid.1 hsaid.check) ops
  refine ⟨hvalid, hvalid.checkVersion_ne, ?_⟩
  rw [hvalid.isHash_iff, haround.commit]

/-- A hash, a script and a requirement, of which the first text to replace it is refused. -/
theorem valid_runAll_hash :
    ∃ m, loadOctets (Text.utf8 ("\x7b\"nixpkgs\": \x7b\"commit\": \"".toList ++
        List.replicate 40 'a' ++ "\"\x7d, \"shell\": \x7b\"scripts\": \x7b\"test\": ".toList ++
        "[\"\", \"go test\"]\x7d\x7d, \"devbox_version\": \" >=0.9 \"\x7d".toList)) = .ok m ∧
      ∃ ops, ops = [.setString .requirement "latest".toList, .add "go".toList,
        .setString .requirement "~0.10.0".toList] ∧
      (m.runAll ops).toSettings.Valid ∧
      (∀ running s, (m.runAll ops).checkVersion running ≠ .error (.user (.badRequirement s))) ∧
      IsHash (m.runAll ops).commit := by
  obtain ⟨m, hm, hdigits⟩ : ∃ m,
      loadOctets (Text.utf8 ("\x7b\"nixpkgs\": \x7b\"commit\": \"".toList ++
        List.replicate 40 'a' ++ "\"\x7d, \"shell\": \x7b\"scripts\": \x7b\"test\": ".toList ++
        "[\"\", \"go test\"]\x7d\x7d, \"devbox_version\": \" >=0.9 \"\x7d".toList)) = .ok m ∧
      m.commit.all isHexDigit = true := by
    decide +kernel
  obtain ⟨hvalid, hversion, hhash⟩ := valid_runAll hm [.setString .requirement "latest".toList,
    .add "go".toList, .setString .requirement "~0.10.0".toList]
  exact ⟨m, hm, _, rfl, hvalid, hversion, hhash.2 (List.all_eq_true.1 hdigits)⟩

/-- Forty letters that are no hexadecimal digits are loaded as a commit, and so are twenty
characters that are encoded as two octets each. -/
theorem not_isHash_loaded :
    (∃ m, loadOctets (Text.utf8 ("\x7b\"nixpkgs\": \x7b\"commit\": \"".toList ++
      List.replicate 40 'z' ++ "\"\x7d\x7d".toList)) = .ok m ∧ ¬IsHash m.commit) ∧
    ∃ m, loadOctets (Text.utf8 ("\x7b\"nixpkgs\": \x7b\"commit\": \"".toList ++
      List.replicate 20 'é' ++ "\"\x7d\x7d".toList)) = .ok m ∧ ¬IsHash m.commit := by
  decide +kernel

end Manifest

end EnvManifest
