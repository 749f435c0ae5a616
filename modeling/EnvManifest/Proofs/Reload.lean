import EnvManifest.Proofs.Edit.Leave
import EnvManifest.Proofs.Lockstep
import EnvManifest.Proofs.Reading.Untabbed

/-!
# A manifest that was edited is loaded again

What is saved of a manifest is its document. This file is about when the saved text is
loaded as the value that the document has (`Manifest.Reloads`). A document that was read is
`Sound`: its slots can be read back, and no edit has touched it. What an operation asks of
the document, if it is clear of comments, leaves a sound document again, laid out as it is
(`Document.Sound.after`). So it is after operations in a row that are clear all the way
(`Manifest.ClearRun`), and a sound document is loaded again (`Manifest.reloads_runAll`).

Not every run is clear, and of one that is not the text may have lost what was put in
(`Manifest.not_reloads_setEnv`), or not be a document at all.
-/

namespace EnvManifest

/-! ### Sound documents -/

namespace Document

/-- A document as a parser and layout leave it. -/
structure Sound (d : Document) : Prop where
  lead : Gap d.lead
  root : Node.Everywhere Node.LaidOut (.object d.root)
  trail : Whole d.trail

theorem sound_iff {d : Document} : d.Sound ↔
    Gap d.toValue.lead ∧ Node.Everywhere Node.LaidOut d.toValue.node ∧ Whole d.toValue.trail :=
  ⟨fun h => ⟨h.lead, h.root, h.trail⟩, fun h => ⟨h.1, h.2.1, h.2.2⟩⟩

/-- A document that was read is sound. -/
theorem sound_of_parse {s : Text} {d : Document} (h : Value.parse s = .ok d.toValue) :
    d.Sound := by
  obtain ⟨-, hlead, hnode, htrail, -⟩ := Value.orderly_of_readTo (Value.parse_eq_ok.1 h)
  exact sound_iff.2 ⟨hlead, hnode.legible.and hnode.atRest, htrail⟩

/-- **A clear request leaves a sound document.** -/
theorem Sound.after {d : Document} (h : d.Sound) {S : Settings} (hsaid : d.Says S)
    {r? : Option Request} (hclear : ∀ r ∈ r?, r.Clear d.root) : (d.after r?).Sound := by
  cases r? with
  | none => exact h
  | some r =>
    have hpliant := r.pliant_leave h.root hsaid.gives.listed (hclear r rfl)
    have hlaid := Value.everywhere_format (v := toValue { d with root := r.leave d.root })
      (hpliant _)
    obtain ⟨hlead, htrail⟩ := Value.slots_format (toValue { d with root := r.leave d.root })
    rw [Document.after, sound_iff, toValue_format, hlead, htrail]
    exact ⟨h.lead, hlaid, h.trail⟩

/-- **A sound document is saved as a document** of the grammar. -/
theorem Sound.isDocument {d : Document} (h : d.Sound) (hfits : d.toValue.node.Fits maxDepth) :
    IsDocument d.toValue.node.outline (Manifest.untabbed d.pack) :=
  (Value.isDocument_pack h.lead hfits (h.root.mono fun _ hn => hn.1) h.trail).untabbed

end Document

namespace Manifest

/-! ### Runs that are clear -/

/-- Whatever operations in a row ask of the document is clear of comments. -/
def ClearRun : Manifest → List Operation → Prop
  | _, [] => True
  | m, op :: ops => (∀ r ∈ m.request? op, r.Clear m.document.root) ∧ ClearRun (m.run op).manifest ops

instance decidableClearRun : (m : Manifest) → (ops : List Operation) → Decidable (m.ClearRun ops)
  | _, [] => inferInstanceAs (Decidable True)
  | m, op :: ops =>
    have := decidableClearRun (m.run op).manifest ops
    inferInstanceAs (Decidable
      ((∀ r ∈ m.request? op, r.Clear m.document.root) ∧ ClearRun (m.run op).manifest ops))

/-- **A clear operation keeps the document sound.** -/
theorem sound_run {m : Manifest} (h : m.document.Sound) {S : Settings}
    (hsaid : m.document.Says S) {op : Operation}
    (hclear : ∀ r ∈ m.request? op, r.Clear m.document.root) :
    (m.run op).manifest.document.Sound := by
  rw [document_run]
  exact h.after hsaid hclear

theorem sound_runAll {m : Manifest} (h : m.document.Sound) {S : Settings}
    (hsaid : m.document.Says S) {ops : List Operation} (hclear : m.ClearRun ops) :
    (m.runAll ops).document.Sound := by
  induction ops generalizing m S with
  | nil => exact h
  | cons op ops ih =>
    obtain ⟨hop, hops⟩ := hclear
    obtain ⟨S', hsaid', -⟩ := follows_run hsaid op
    exact ih (sound_run h hsaid hop) hsaid' hops

/-! ### Loading what was saved -/

/-- The saved text is loaded with the value of the document. -/
def Reloads (m : Manifest) : Prop :=
  ∃ r, loadOctets m.octets = .ok r ∧ r.document.toValue.node.datum = m.document.toValue.node.datum

/-- It is if the document can be read back. -/
theorem reloads_of_parse {m : Manifest} {S : Settings} (hsaid : m.document.Says S) {v : Value}
    (hparse : Value.parse m.text = .ok v)
    (houtline : v.node.outline = m.document.toValue.node.outline) : m.Reloads := by
  have hdatum : v.node.datum = m.document.toValue.node.datum := by
    rw [Node.datum_eq, houtline, ← Node.datum_eq]
  obtain ⟨r, hr, -, hvalue⟩ := exists_load hsaid hparse hdatum
  refine ⟨r, loadOctets_eq_ok.2 ⟨m.text, Text.ofUtf8_utf8 _, hr⟩, ?_⟩
  rw [hvalue, hdatum]

theorem reloads_of_sound {m : Manifest} {S : Settings} (h : m.document.Sound)
    (hsaid : m.document.Says S) : m.Reloads := by
  obtain ⟨-, hfits, -⟩ := Document.says_iff.1 hsaid
  obtain ⟨v, hparse, houtline⟩ := Value.exists_parse_of_isDocument (h.isDocument hfits)
  exact reloads_of_parse hsaid hparse houtline

/-- **An edited manifest is loaded again** with the value of its document, after any
operations that are clear of comments all the way. -/
theorem reloads_runAll {b : Octets} {m : Manifest} {ops : List Operation}
    (h : loadOctets b = .ok m) (hclear : m.ClearRun ops) : (m.runAll ops).Reloads := by
  obtain ⟨s, -, hload⟩ := loadOctets_eq_ok.1 h
  obtain ⟨hparse, hsaid, -⟩ := load_eq_ok.1 hload
  obtain ⟨S, hsaid'⟩ := exists_says_runAll hsaid ops
  exact reloads_of_sound (sound_runAll (Document.sound_of_parse hparse) hsaid hclear) hsaid'

/-- An array of packages with comments of both kinds: it becomes an object, a package goes
and another one is put behind a comment. -/
theorem reloads_runAll_array :
    ∃ m, loadOctets (Text.utf8
      "\x7b\"packages\": [\"go@1.20\", // old\n\"jq\" /* new */]\x7d".toList) = .ok m ∧
      ∃ ops : List Operation, ops = [.addPlatforms "go@1.20".toList ["x86_64-linux".toList],
        .remove "go@1.20".toList, .add "fd@9".toList] ∧ m.ClearRun ops ∧ (m.runAll ops).Reloads := by
  obtain ⟨m, hm, hclear⟩ : ∃ m, loadOctets (Text.utf8
      "\x7b\"packages\": [\"go@1.20\", // old\n\"jq\" /* new */]\x7d".toList) = .ok m ∧
      m.ClearRun [.addPlatforms "go@1.20".toList ["x86_64-linux".toList],
        .remove "go@1.20".toList, .add "fd@9".toList] := by
    decide +kernel
  exact ⟨m, hm, _, rfl, hclear, reloads_runAll hm hclear⟩

/-- What is saved is not loaded with the names that the members of the document have. -/
def LosesNames (m : Manifest) : Prop :=
  ∀ r, loadOctets m.octets = .ok r →
    r.document.members.map Prod.fst ≠ m.document.members.map Prod.fst

instance (m : Manifest) : Decidable m.LosesNames :=
  inferInstanceAs (Decidable (∀ r, loadOctets m.octets = .ok r → r.document.members.map _ ≠ _))

theorem LosesNames.not_reloads {m : Manifest} (h : m.LosesNames) : ¬m.Reloads := by
  rintro ⟨r, hr, hdatum⟩
  rw [Document.datum_toValue, Document.datum_toValue, Datum.object.injEq] at hdatum
  exact h r hr (by rw [hdatum])

/-- An environment is put into the block comment behind the last member: the text is loaded
without it. -/
theorem not_reloads_setEnv :
    ∃ m, loadOctets (Text.utf8 "\x7b\"name\": \"web\" /* about\n the name */\x7d".toList) = .ok m ∧
      ¬(m.runAll [.setEnv (.ofList [("PORT".toList, "80".toList)])]).Reloads := by
  obtain ⟨m, hm, hnames⟩ : ∃ m,
      loadOctets (Text.utf8 "\x7b\"name\": \"web\" /* about\n the name */\x7d".toList) = .ok m ∧
      (m.runAll [.setEnv (.ofList [("PORT".toList, "80".toList)])]).LosesNames := by
    decide +kernel
  exact ⟨m, hm, hnames.not_reloads⟩

/-- The comment on the line of the package in front of the one removed is kept, and swallows
the brackets behind it. -/
example : ∃ m, loadOctets (Text.utf8
      "\x7b\"packages\": \x7b\"go\": \"1\", // old\n\"jq\": \"2\"\x7d\x7d".toList) = .ok m ∧
    (m.runAll [.remove "jq@2".toList]).LosesNames := by
  decide +kernel

end Manifest

end EnvManifest
