import EnvManifest.Proofs.Reload
import EnvManifest.Proofs.Strict.Edit
import EnvManifest.Proofs.Strict.Reading

/-!
# Manifests in strict JSON

A manifest that is written in strict JSON stays in strict JSON, whatever operations are run on
it (`Manifest.isJson_runAll`). The tree that is read is plain, every operation leaves a plain
tree, and what is saved of a plain tree is strict JSON. It is loaded again with the value of the
document: in strict JSON there is no comment that an edit could write into.
-/

namespace EnvManifest

/-- Octets that are strict JSON. -/
def IsJsonOctets (b : Octets) : Prop :=
  ∃ s o, Text.ofUtf8 b = .ok s ∧ IsJson Spaces o s

/-- **A request leaves a plain document** of a plain document. -/
theorem Document.plain_after {d : Document} (h : d.toValue.Plain) (r? : Option Request) :
    (d.after r?).toValue.Plain := by
  cases r? with
  | none => exact h
  | some r =>
    rw [Document.after, Document.toValue_format]
    refine Value.Plain.format ⟨h.lead, ?_, h.trail⟩
    exact Node.plain_object.2 (r.plainTree_leave (Node.plain_object.1 h.node))

namespace Manifest

variable {m : Manifest}

/-- An operation leaves a plain document. -/
theorem plain_run (h : m.document.toValue.Plain) (op : Operation) :
    (m.run op).manifest.document.toValue.Plain := by
  rw [document_run]
  exact Document.plain_after h _

theorem plain_runAll (h : m.document.toValue.Plain) (ops : List Operation) :
    (m.runAll ops).document.toValue.Plain := by
  induction ops generalizing m with
  | nil => exact h
  | cons op ops ih => exact ih (plain_run h op)

/-- What is saved of a plain document is strict JSON, and is loaded again. -/
theorem isJson_octets_of_plain {S : Settings} (h : m.document.toValue.Plain)
    (hsaid : m.document.Says S) : IsJsonOctets m.octets ∧ m.Reloads := by
  obtain ⟨-, hfits, -⟩ := Document.says_iff.1 hsaid
  obtain ⟨v, hparse, hplain, houtline⟩ := Value.exists_plain_untabbed h hfits
  have hparse : Value.parse m.text = .ok v := hparse
  obtain ⟨o, hjson⟩ := (Value.plain_iff_isJson hparse).1 hplain
  exact ⟨⟨m.text, o, Text.ofUtf8_utf8 _, hjson⟩, reloads_of_parse hsaid hparse houtline⟩

/-- **A manifest in strict JSON stays in strict JSON** through any operations in a row, and
what is saved of it is loaded with the value of its document. -/
theorem isJson_runAll {b : Octets} (h : loadOctets b = .ok m) (hjson : IsJsonOctets b)
    (ops : List Operation) : IsJsonOctets (m.runAll ops).octets ∧ (m.runAll ops).Reloads := by
  obtain ⟨s, hs, hload⟩ := loadOctets_eq_ok.1 h
  obtain ⟨hparse, hsaid, -⟩ := load_eq_ok.1 hload
  obtain ⟨s', o, hs', hjson⟩ := hjson
  rw [hs] at hs'
  obtain rfl : s = s' := Except.ok.inj hs'
  have hplain : m.document.toValue.Plain := (Value.plain_iff_isJson hparse).2 ⟨o, hjson⟩
  -- plain because it was read off strict JSON, loaded because it says something
  obtain ⟨S, hsaid'⟩ := exists_says_runAll hsaid ops
  exact isJson_octets_of_plain (plain_runAll hplain ops) hsaid'

/-- An array of packages in strict JSON, with tabs: it becomes an object on several lines, a
package goes, and an environment is put in. -/
theorem isJson_runAll_tabs :
    ∃ m, loadOctets (Text.utf8 "\x7b\n\t\"packages\": [\"go@1.20\", \"jq\"]\n\x7d".toList) = .ok m ∧
      ∃ ops : List Operation, ops = [.addPlatforms "go@1.20".toList ["x86_64-linux".toList],
        .remove "jq".toList, .setEnv (.ofList [("URL".toList, "a//b".toList)])] ∧
      IsJsonOctets (m.runAll ops).octets ∧ (m.runAll ops).Reloads := by
  obtain ⟨m, hm, hink⟩ : ∃ m,
      load "\x7b\n\t\"packages\": [\"go@1.20\", \"jq\"]\n\x7d".toList = .ok m ∧
      ink "\x7b\n\t\"packages\": [\"go@1.20\", \"jq\"]\n\x7d".toList =
        ink m.document.toValue.node.outline.text := by
    decide +kernel
  have hparse := (load_eq_ok.1 hm).1
  obtain ⟨o, hjson⟩ := (Value.plain_iff_isJson hparse).1 (Value.plain_of_ink hparse hink)
  have hload := loadOctets_eq_ok.2 ⟨_, Text.ofUtf8_utf8 _, hm⟩
  exact ⟨m, hload, _, rfl, isJson_runAll hload ⟨_, o, Text.ofUtf8_utf8 _, hjson⟩ _⟩

end Manifest

end EnvManifest
