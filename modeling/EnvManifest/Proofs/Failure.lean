import EnvManifest.Proofs.Edit.Atomic
import EnvManifest.Proofs.Lockstep

/-!
# Failing changes nothing

An edit that fails leaves the root that it was given (`Request.atomic_toEdit`), but the
document is laid out whether an edit failed or not. This changes nothing either: laying out
leaves no mark of an edit anywhere (`Value.isDirty_format`), and a document without a mark
is not touched. So a failing edit leaves the document that was there, and a failing
operation the manifest (`Manifest.unchanged_of_failure`).
-/

namespace EnvManifest

/-! ### No marks are left -/

theorem Composite.dirty_indent {κ ν : Type} [Label κ] (line step : Text)
    (c : Composite κ (Text → ν)) : (c.indent step line).dirty = false := by
  rw [indent]
  split
  · rfl
  · rename_i hdirty
    simpa using hdirty

namespace Node

/-- **What is indented is at rest.** -/
theorem atRest_indent (step : Text) (n : Node) (line : Text) (hline : Spaces line) :
    (indent step n line).AtRest := by
  -- the pass takes the mark of every node, and those of the children that it goes through
  refine Everywhere.indent (P := fun _ => True) (fun n line hline _ => ?_) n
    (.of_forall (fun _ => trivial) n) line hline
  have hfresh : ∀ {κ : Type} [Label κ] {c : Composite κ (Text → Node)},
      (c.indent step line).AtRest := fun {_ _ c} =>
    ⟨Composite.dirty_indent line step c, fun m hm => by
      obtain ⟨k, -, line', -, rfl⟩ := Composite.exists_of_mem_indentChildren hline hm
      rfl⟩
  cases n with
  | object ms =>
    rw [indent_object]
    exact hfresh
  | array es =>
    rw [indent_array]
    exact hfresh
  | null | bool b | number t | string l => exact trivial

end Node

/-- **Laying out a document leaves no mark of an edit.** -/
theorem Value.isDirty_format (v : Value) : v.format.node.isDirty = false := by
  rw [format]
  split
  · exact Node.isDirty_of_atRest _ (Node.atRest_indent _ _ _ v.spaces_line)
  · rename_i hdirty
    simpa using hdirty

namespace Document

/-- No edit has left a mark in the document. -/
def Clean (d : Document) : Prop :=
  d.toValue.node.isDirty = false

theorem clean_format (d : Document) : d.format.Clean := by
  rw [Clean, toValue_format]
  exact Value.isDirty_format _

/-- A document without a mark is laid out already. -/
theorem Clean.format_eq {d : Document} (h : d.Clean) : d.format = d := by
  rw [format, Value.format_of_not_isDirty h, ofValue?_toValue]

theorem clean_of_parse {s : Text} {d : Document} (h : Document.parse s = .ok d) : d.Clean := by
  obtain ⟨-, -, hnode, -, -⟩ := Value.orderly_of_readTo (Value.parse_eq_ok.1 (parse_eq_ok.1 h))
  exact Node.isDirty_of_atRest _ hnode.atRest

theorem parseOctets_eq_ok {b : Octets} {d : Document} : parseOctets b = .ok d ↔
    ∃ s, Text.ofUtf8 b = .ok s ∧ Document.parse s = .ok d := by
  rw [parseOctets]
  cases Text.ofUtf8 b <;> simp

end Document

/-! ### Edits of a document -/

namespace Document

variable {α : Type} {d : Document}

/-- Whatever an edit does, no mark of it is left. -/
theorem clean_edit (e : Edit α) (d : Document) : (d.edit e).2.Clean :=
  clean_format _

/-- **An edit that fails leaves the document that was there.** -/
theorem edit_eq_of_error (hclean : d.Clean) {e : Edit α} (he : e.Atomic) {i : InternalError}
    (h : (d.edit e).1 = .error i) : d.edit e = (.error i, d) := by
  -- the root is as it was, and laying out a document without a mark changes nothing
  have hroot : (e d.root).2 = d.root := he d.root i h
  have hdocument : format { d with root := (e d.root).2 } = d := by
    rw [hroot]
    exact hclean.format_eq
  exact Prod.ext h hdocument

/-- The document after requests in a row, whether they succeed or fail. -/
def afterAll (d : Document) (rs : List Request) : Document :=
  rs.foldl (fun d r => (d.edit r.toEdit).2) d

theorem Clean.afterAll (h : d.Clean) (rs : List Request) : (d.afterAll rs).Clean := by
  induction rs generalizing d with
  | nil => exact h
  | cons r rs ih => exact ih (clean_edit r.toEdit d)

end Document

/-! ### Operations -/

namespace Manifest

variable {m : Manifest}

/-- If an operation fails, it leaves the manifest that was there and tells the user nothing. -/
def FailsWhole (m : Manifest) (o : Outcome) : Prop :=
  ∀ e : Error, o.result = .error e → o = m.failed e

theorem failsWhole_failed (m : Manifest) (e : Error) : m.FailsWhole (m.failed e) := by
  intro e' h
  obtain rfl : e = e' := Except.error.inj h
  rfl

theorem failsWhole_unchanged (m : Manifest) : m.FailsWhole m.unchanged := by
  intro e h
  simp [unchanged] at h

/-- A failing edit of the document fails the operation, and nothing has been done yet. -/
theorem failsWhole_edited {α : Type} (hclean : m.document.Clean) {e : Edit α} (he : e.Atomic)
    {next : α → Manifest → Outcome} (hnext : ∀ a m, (next a m).result = .ok ()) :
    m.FailsWhole (m.edited e next) := by
  intro err h
  rw [edited] at h ⊢
  dsimp only at h ⊢
  cases hanswer : (m.document.edit e).1 with
  | ok a => simp [hanswer, hnext] at h
  | error i =>
    rw [hanswer] at h
    obtain rfl : Error.internal i = err := Except.error.inj h
    rw [Document.edit_eq_of_error hclean he hanswer]

theorem failsWhole_appendMissing (hclean : m.document.Clean) (package : Text) (field : ListField)
    (values : List Text) (refuse : Package → Option Error)
    (notice : Package → List Text → Notice) :
    m.FailsWhole (m.appendMissing package field values refuse notice) := by
  rw [appendMissing]
  split
  · exact failsWhole_failed m _
  · split
    · exact failsWhole_failed m _
    · split
      · exact failsWhole_unchanged m
      · exact failsWhole_edited hclean (atomic_appendToList _ field _) fun _ _ => rfl

theorem failsWhole_appendPlatforms (hclean : m.document.Clean) (package : Text)
    (field : ListField) (values : List Text) (refuse : Package → Option Error)
    (notice : Package → List Text → Notice) :
    m.FailsWhole (m.appendPlatforms package field values refuse notice) := by
  rw [appendPlatforms]
  split
  · exact failsWhole_unchanged m
  · split
    · exact failsWhole_failed m _
    · exact failsWhole_appendMissing hclean package field values refuse notice

theorem failsWhole_setPatch (hclean : m.document.Clean) (package : Text) (mode : PatchMode) :
    m.FailsWhole (m.setPatch package mode) := by
  rw [setPatch]
  split
  · exact failsWhole_failed m _
  · rename_i p _
    have hedit : (patchEdit p.name mode).Atomic := by
      cases mode with
      | auto => exact atomic_of_ok (answer_removePatchMode p.name)
      | always | never => exact atomic_setPatchMode p.name _
    exact failsWhole_edited hclean hedit fun _ _ => rfl

/-- **An operation that fails has done nothing.** -/
theorem failsWhole_run (hclean : m.document.Clean) (op : Operation) : m.FailsWhole (m.run op) := by
  cases op with
  | add package =>
    simp only [run, add]
    split
    · exact failsWhole_unchanged m
    · exact failsWhole_edited hclean (atomic_addPackage _) fun _ _ => rfl
  | remove package =>
    simp only [run, remove]
    split
    · exact failsWhole_unchanged m
    · exact failsWhole_edited hclean (atomic_removePackage _) fun _ _ => rfl
  | addPlatforms package values => exact failsWhole_appendPlatforms hclean package _ values _ _
  | excludePlatforms package values => exact failsWhole_appendPlatforms hclean package _ values _ _
  | setOutputs package values => exact failsWhole_appendMissing hclean package _ values _ _
  | setAllowInsecure package values => exact failsWhole_appendMissing hclean package _ values _ _
  | setPatch package mode => exact failsWhole_setPatch hclean package mode
  | setPatchGlibc package on =>
    simp only [run, setPatchGlibc]
    generalize (if on then PatchMode.always else PatchMode.auto) = mode
    split
    · exact failsWhole_failed m _
    · split
      · exact failsWhole_unchanged m
      · exact failsWhole_setPatch hclean package _
  | setDisablePlugin package on =>
    simp only [run, setDisablePlugin]
    split
    · exact failsWhole_failed m _
    · split
      · exact failsWhole_unchanged m
      · exact failsWhole_edited hclean (atomic_setBool _ _ on) fun _ _ => rfl
  | setEnv env =>
    exact failsWhole_edited hclean (atomic_of_ok (answer_setEnv env)) fun _ _ => rfl
  | setString field value =>
    simp only [run, setString]
    split
    · exact failsWhole_failed m _
    · exact failsWhole_edited hclean (atomic_of_ok (answer_setString field.key value)) fun _ _ => rfl

/-- An operation leaves no mark in the document. -/
theorem clean_run (hclean : m.document.Clean) (op : Operation) :
    (m.run op).manifest.document.Clean := by
  rw [document_run]
  cases m.request? op with
  | none => exact hclean
  | some r => exact Document.clean_format _

theorem clean_runAll (hclean : m.document.Clean) (ops : List Operation) :
    (m.runAll ops).document.Clean := by
  induction ops generalizing m with
  | nil => exact hclean
  | cons op ops ih => exact ih (clean_run hclean op)

theorem clean_of_loadOctets {b : Octets} (h : loadOctets b = .ok m) : m.document.Clean := by
  obtain ⟨s, -, hload⟩ := loadOctets_eq_ok.1 h
  exact Document.clean_of_parse (Document.parse_eq_ok.2 (load_eq_ok.1 hload).1)

/-- **Failing changes nothing.** An edit of a document that was read, and edited any number of
times since, leaves the document if it fails; and an operation on a manifest that was loaded,
and operated on any number of times since, leaves the manifest if it fails, and tells the user
nothing. -/
theorem unchanged_of_failure :
    (∀ {b : Octets} {d : Document}, Document.parseOctets b = .ok d →
      ∀ (rs : List Request) (r : Request) {i : InternalError},
        ((d.afterAll rs).edit r.toEdit).1 = .error i →
          ((d.afterAll rs).edit r.toEdit).2 = d.afterAll rs ∧
          ((d.afterAll rs).edit r.toEdit).2.pack = (d.afterAll rs).pack) ∧
    (∀ {b : Octets} {m : Manifest}, loadOctets b = .ok m →
      ∀ (ops : List Operation) (op : Operation) {e : Error},
        ((m.runAll ops).run op).result = .error e →
          ((m.runAll ops).run op).manifest = m.runAll ops ∧
          ((m.runAll ops).run op).manifest.octets = (m.runAll ops).octets ∧
          ((m.runAll ops).run op).manifest.hash = (m.runAll ops).hash ∧
          ((m.runAll ops).run op).manifest.toSettings = (m.runAll ops).toSettings ∧
          ((m.runAll ops).run op).notice = none) := by
  constructor
  · intro b d hparse rs r i hfails
    obtain ⟨s, -, hs⟩ := Document.parseOctets_eq_ok.1 hparse
    have hclean : (d.afterAll rs).Clean := (Document.clean_of_parse hs).afterAll rs
    have hedit := Document.edit_eq_of_error hclean r.atomic_toEdit hfails
    exact ⟨congrArg Prod.snd hedit, congrArg (fun r => r.2.pack) hedit⟩
  · intro b m hload ops op e hfails
    have hclean : (m.runAll ops).document.Clean := clean_runAll (clean_of_loadOctets hload) ops
    have houtcome := failsWhole_run hclean op e hfails
    rw [houtcome]
    exact ⟨rfl, rfl, rfl, rfl, rfl⟩

/-- A document with a list that is none, and a manifest that lacks the version asked for. -/
theorem unchanged_of_failure_outputs :
    (∃ d i, Document.parseOctets (Text.utf8
        "\x7b\"packages\": \x7b\"go\": \x7b\"outputs\": 1\x7d\x7d\x7d".toList) = .ok d ∧
      ∃ rs r, rs = [Request.setEnv Table.empty] ∧
        r = Request.appendToList "go".toList .outputs ["out".toList] ∧
        ((d.afterAll rs).edit r.toEdit).1 = .error i ∧
        ((d.afterAll rs).edit r.toEdit).2.pack = (d.afterAll rs).pack) ∧
    (∃ m e, loadOctets (Text.utf8 "\x7b\"packages\": [\"go@1.20\"]\x7d".toList) = .ok m ∧
      ∃ ops op, ops = [Operation.add "jq".toList] ∧
        op = Operation.setOutputs "go@1.21".toList ["out".toList] ∧
        ((m.runAll ops).run op).result = .error e ∧
        ((m.runAll ops).run op).manifest = m.runAll ops) := by
  constructor
  · obtain ⟨d, hparse, i, hfails⟩ : ∃ d, Document.parseOctets (Text.utf8
        "\x7b\"packages\": \x7b\"go\": \x7b\"outputs\": 1\x7d\x7d\x7d".toList) = .ok d ∧
        ∃ i, ((d.afterAll [.setEnv Table.empty]).edit
          (Request.appendToList "go".toList .outputs ["out".toList]).toEdit).1 = .error i := by
      decide +kernel
    exact ⟨d, i, hparse, _, _, rfl, rfl, hfails, (unchanged_of_failure.1 hparse _ _ hfails).2⟩
  · obtain ⟨m, hload, e, hfails⟩ : ∃ m,
        loadOctets (Text.utf8 "\x7b\"packages\": [\"go@1.20\"]\x7d".toList) = .ok m ∧
        ∃ e, ((m.runAll [.add "jq".toList]).run
          (.setOutputs "go@1.21".toList ["out".toList])).result = .error e := by
      decide +kernel
    exact ⟨m, e, hload, _, _, rfl, rfl, hfails, (unchanged_of_failure.2 hload _ _ hfails).1⟩

end Manifest

end EnvManifest
