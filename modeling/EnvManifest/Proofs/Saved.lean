import EnvManifest.Proofs.Attempt
import EnvManifest.Proofs.Canonical
import EnvManifest.Proofs.Reload
import EnvManifest.Proofs.Walk

/-!
# Saving to the file that a manifest came from

A manifest remembers the path that it was found at and is saved there as if to any other
path: to the path itself if it has the name that manifests are kept under, and otherwise to
the file of that name in the directory at the path. A file of another name is no directory,
so a manifest that was loaded from one cannot be saved (`Manifest.save_eq_error`). One that was
loaded from a file of that name can, whatever was done to it: the file has the new text and
nothing else has changed (`Manifest.save_eq_ok`), and the manifest is found there again.
-/

namespace EnvManifest

/-! ### The file that a path stands for -/

/-- A path with the name of a manifest stands for itself. -/
theorem savedAt_of_isManifestName {q : FilePath} {name : Text} (hq : ∀ n ∈ q, n.LeadsDown)
    (hname : name.LeadsDown) (h : name = Manifest.fileName) :
    savedAt (FilePath.written (q ++ [name])) = FilePath.written (q ++ [name]) := by
  rw [savedAt, Text.cutAtName?_written hq hname]
  exact if_pos (beq_iff_eq.2 h)

/-- Any other path stands for the file of that name in the directory at the path. -/
theorem savedAt_of_not_isManifestName {q : FilePath} {name : Text} (hq : ∀ n ∈ q, n.LeadsDown)
    (hname : name.LeadsDown) (h : name ≠ Manifest.fileName) :
    savedAt (FilePath.written (q ++ [name])) =
      FilePath.written (q ++ [name] ++ [Manifest.fileName]) := by
  rw [savedAt, Text.cutAtName?_written hq hname]
  exact (if_neg (beq_iff_eq.not.2 h)).trans (FilePath.inDirectory_written hname _)

namespace Manifest

theorem leadsDown_fileName : fileName.LeadsDown where
  noSlash := by decide
  notStays := by decide
  notUp := by decide

variable {m : Manifest} {s : Store} {p : FilePath} {path : Text}

/-! ### Where a manifest is kept -/

/-- A manifest from a file is the one in its octets, kept there. -/
theorem exists_read_of_loadFrom (h : loadFrom s path = .ok m) :
    ∃ p content, s.read path = .ok (p, content) ∧ m.file = some p ∧
      ∃ m₀, loadOctets content = .ok m₀ ∧ m₀.document = m.document := by
  rw [loadFrom] at h
  split at h
  · simp at h
  · rename_i p content hread
    obtain ⟨m₀, hm₀, hm⟩ := bind_eq_ok.1 h
    obtain rfl := Except.ok.inj hm
    exact ⟨p, content, hread, rfl, m₀, hm₀, rfl⟩

/-- What is put into the file at a path is loaded from there. -/
theorem loadFrom_put {content : Octets} (h : s.read path = .ok (p, content)) (content' : Octets) :
    loadFrom (s.put p (.file content')) path =
      (loadOctets content').map ({ · with file := some p }) := by
  rw [loadFrom, Store.read_put h]
  dsimp only
  cases loadOctets content' <;> rfl

theorem file_edited {α : Type} {e : Edit α} {next : α → Manifest → Outcome}
    (hnext : ∀ a m', (next a m').manifest.file = m'.file) :
    (m.edited e next).manifest.file = m.file := by
  rw [edited]
  dsimp only
  split
  · exact hnext _ _
  · rfl

/-- **An operation leaves a manifest where it is kept.** -/
theorem Attempt.file_eq {o : Outcome} (ho : m.Attempt o) : o.manifest.file = m.file := by
  cases ho with
  | failed _ | unchanged => rfl
  | add _ | remove _ | append _ _ _ _ | setPatch _ _ | setDisablePlugin _ _ | setEnv _ =>
    exact file_edited fun _ _ => rfl
  | setString field value => exact file_edited fun _ _ => by cases field <;> rfl

theorem file_runAll (m : Manifest) (ops : List Operation) : (m.runAll ops).file = m.file := by
  induction ops generalizing m with
  | nil => rfl
  | cons op ops ih => exact (ih _).trans (attempt_run m op).file_eq

/-! ### Saving -/

/-- Two manifests whose documents have the same value say the same. -/
theorem same_of_datum_eq {a b : Manifest}
    (h : a.document.toValue.node.datum = b.document.toValue.node.datum) : a.same b = true := by
  rw [same, hash, hash, Value.minimalText_eq_text, Value.minimalText_eq_text, h]
  exact beq_self_eq_true _

/-- **A manifest is saved to the file that it came from**, if that has the name that manifests
are kept under. -/
theorem save_eq_ok {q : FilePath} {content : Octets} (hfile : m.file = some (q ++ [fileName]))
    (hreaches : s.Reaches (q ++ [fileName]))
    (hcontent : s.find? (q ++ [fileName]) = some (.file content)) :
    m.save s = .ok (s.put (q ++ [fileName]) (.file m.octets)) := by
  have hq : s.Reaches q := hreaches.of_prefix (List.prefix_append q _)
  have hdirectory : s.find? q = some .directory :=
    hreaches.directories q (List.prefix_append q _) (by simp)
  rw [save, hfile]
  dsimp only
  rw [saveTo, savedAt_of_isManifestName hq.names leadsDown_fileName rfl,
    Store.replace_written hq leadsDown_fileName, Store.checkDirectory_eq_ok.2 hdirectory,
    Store.checkTarget, hcontent]
  rfl

/-- **A manifest from a file of another name is not saved**: a directory is looked for where
the file is. -/
theorem save_eq_error {content : Octets} {name : Text} {q : FilePath}
    (hfile : m.file = some (q ++ [name])) (hreaches : s.Reaches (q ++ [name]))
    (hcontent : s.find? (q ++ [name]) = some (.file content)) (hname : name ≠ fileName) :
    m.save s = .error (.file .notADirectory) := by
  have hq : s.Reaches q := hreaches.of_prefix (List.prefix_append q _)
  have hdown : name.LeadsDown := hreaches.names name (by simp)
  rw [save, hfile]
  dsimp only
  rw [saveTo, savedAt_of_not_isManifestName hq.names hdown hname,
    Store.replace_written hreaches leadsDown_fileName, Store.checkDirectory, hcontent]
  rfl

/-- What is saved after clear operations on a manifest with the document of a loaded one is
loaded again. -/
theorem reloads_of_loaded {b : Octets} {m₀ : Manifest} (h : loadOctets b = .ok m₀)
    (hdocument : m₀.document = m.document) {ops : List Operation} (hclear : m.ClearRun ops) :
    (m.runAll ops).Reloads := by
  obtain ⟨t, -, hload⟩ := loadOctets_eq_ok.1 h
  obtain ⟨hparse, hsaid, -⟩ := load_eq_ok.1 hload
  rw [hdocument] at hparse hsaid
  obtain ⟨S, hsaid'⟩ := exists_says_runAll hsaid ops
  exact reloads_of_sound (sound_runAll (Document.sound_of_parse hparse) hsaid hclear) hsaid'

/-- A manifest that was loaded from a path and operated on has been saved to the file `p` that
it came from: that file has been replaced and nothing else, and it is loaded from the path again,
as the same manifest if the operations were clear of comments. -/
structure SavedBack (s : Store) (path : Text) (m : Manifest) (ops : List Operation) (p : FilePath)
    (s' : Store) : Prop where
  saves : (m.runAll ops).save s = .ok s'
  file : s'.find? p = some (.file (m.runAll ops).octets)
  others : ∀ q, q ≠ p → s'.find? q = s.find? q
  loads : loadFrom s' path = (loadOctets (m.runAll ops).octets).map ({ · with file := some p })
  same : m.ClearRun ops → ∃ r, loadFrom s' path = .ok r ∧ r.same (m.runAll ops) = true

/-- **A manifest is saved to where it was loaded from**, after any operations, if that file has
the name that manifests are kept under. From a file of another name a manifest is loaded as well,
but saving it fails. -/
theorem save_runAll (h : loadFrom s path = .ok m) (ops : List Operation) :
    ∃ p, m.file = some p ∧
      (p.getLast? = some fileName → ∃ s', SavedBack s path m ops p s') ∧
      (p.getLast? ≠ some fileName → (m.runAll ops).save s = .error (.file .notADirectory)) := by
  obtain ⟨p, content, hread, hfile, m₀, hload, hdocument⟩ := exists_read_of_loadFrom h
  have hreaches := Store.reaches_of_read hread
  obtain ⟨-, hcontent⟩ := Store.read_eq_ok.1 hread
  have hkept : (m.runAll ops).file = some p := (file_runAll m ops).trans hfile
  obtain rfl | ⟨q, name, rfl⟩ := List.eq_nil_or_concat' p
  · simp at hcontent
  have hne : q ++ [name] ≠ [] := List.concat_ne_nil name q
  refine ⟨q ++ [name], hfile, ?_⟩
  rw [List.getLast?_concat, ne_eq, Option.some.injEq]
  refine ⟨fun hname => ?_, save_eq_error hkept hreaches hcontent⟩
  subst hname
  refine ⟨s.put (q ++ [fileName]) (.file (m.runAll ops).octets), {
    saves := save_eq_ok hkept hreaches hcontent
    file := by rw [Store.find?_put hne, if_pos rfl]
    others := fun r hr => by rw [Store.find?_put hne, if_neg hr]
    loads := loadFrom_put hread _
    same := fun hclear => ?_ }⟩
  obtain ⟨r, hr, hdatum⟩ := reloads_of_loaded hload hdocument hclear
  refine ⟨{ r with file := some (q ++ [fileName]) }, ?_, same_of_datum_eq hdatum⟩
  rw [loadFrom_put hread, hr]
  rfl

/-- A manifest in a directory, at a path that takes a detour, to which a package is added. -/
theorem save_runAll_detour :
    ∃ s m p, s = (Store.empty.put ["web".toList] .directory).put ["web".toList, fileName]
        (.file (Text.utf8 "\x7b\"packages\": [] // none\n\x7d".toList)) ∧
      loadFrom s "/web/./../web//devbox.json".toList = .ok m ∧ m.file = some p ∧
      (p.getLast? = some fileName → ∃ s', SavedBack s "/web/./../web//devbox.json".toList m
        [.add "go@1.20".toList] p s') ∧
      (p.getLast? ≠ some fileName →
        (m.runAll [.add "go@1.20".toList]).save s = .error (.file .notADirectory)) := by
  obtain ⟨m, hm⟩ : ∃ m,
      loadFrom ((Store.empty.put ["web".toList] .directory).put ["web".toList, fileName]
        (.file (Text.utf8 "\x7b\"packages\": [] // none\n\x7d".toList)))
        "/web/./../web//devbox.json".toList = .ok m := by
    decide +kernel
  obtain ⟨p, hp⟩ := save_runAll hm [.add "go@1.20".toList]
  exact ⟨_, m, p, rfl, hm, hp⟩

/-- A manifest that was loaded from a file of another name is not saved. -/
theorem not_saved_web :
    ∃ s, s = Store.empty.put ["web.json".toList] (.file (Text.utf8 "\x7b\x7d".toList)) ∧
      ∃ m, loadFrom s "/web.json".toList = .ok m ∧ m.save s = .error (.file .notADirectory) :=
  ⟨_, rfl, by decide +kernel⟩

end Manifest

end EnvManifest
