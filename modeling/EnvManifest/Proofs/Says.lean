import EnvManifest.Manifest.Operation
import EnvManifest.Proofs.Edit.Root
import EnvManifest.Proofs.Layout.View
import EnvManifest.Proofs.Standard

/-!
# What a document says

A document `Says` settings if they are decoded from it and valid. A document that is loaded
says the settings of the manifest that it is loaded as (`Manifest.load_eq_ok`), laying out
changes nothing about what it says, and its strict JSON text is loaded with the settings
that it says (`Manifest.exists_load_minimalText`).
-/

namespace EnvManifest

open Manifest Object

/-! ### What a document says -/

/-- A document is read as settings, and they are valid. -/
structure Document.Says (d : Document) (S : Settings) : Prop where
  gives : d.root.Gives 124 S
  check : S.check = .ok ()

namespace Document

theorem says_iff {d : Document} {S : Settings} :
    d.Says S ↔ Settings.decode d.members = .ok S ∧ d.toValue.node.Fits maxDepth ∧
      S.check = .ok () := by
  constructor
  · rintro ⟨⟨hdecodes, hfits⟩, hcheck⟩
    exact ⟨hdecodes, Node.fits_object.2 hfits, hcheck⟩
  · rintro ⟨hdecodes, hfits, hcheck⟩
    exact ⟨⟨hdecodes, Node.fits_object.1 hfits⟩, hcheck⟩

/-- What a document says is seen in its value. -/
theorem Says.of_datum_eq {d d' : Document} {S : Settings} (h : d.Says S)
    (hdatum : d'.toValue.node.datum = d.toValue.node.datum)
    (hfits : d'.toValue.node.Fits maxDepth) : d'.Says S := by
  obtain ⟨hdecodes, -, hcheck⟩ := says_iff.1 h
  rw [datum_toValue, datum_toValue] at hdatum
  have hmembers : d'.members = d.members := Datum.object.inj hdatum
  exact says_iff.2 ⟨by rw [hmembers, hdecodes], hfits, hcheck⟩

/-- Packages that are decoded have entries that are. -/
theorem Says.decode_of_mem {d : Document} {S : Settings} (h : d.Says S)
    {pkgs : List (Text × Datum)} (hpkgs : (packagesKey, .object pkgs) ∈ d.members)
    {entry : Text × Datum} (hentry : entry ∈ pkgs) :
    ∃ p ∈ S.packages, Package.decode entry.1 entry.2 = .ok p := by
  obtain ⟨hdecode, -, -⟩ := says_iff.1 h
  obtain ⟨ps, hps, hset⟩ := Datum.decodeMembers_of_mem Settings.hasField_packages hdecode hpkgs
  rw [hset]
  exact exists_mem_of_mapM hps hentry

/-- Laying out a document does not change what it says. -/
theorem Says.format {d : Document} {S : Settings} (h : d.Says S) : d.format.Says S := by
  refine h.of_datum_eq ?_ ?_
  · rw [toValue_format, Node.datum_eq, Value.outline_format, ← Node.datum_eq]
  · rw [toValue_format, Value.fits_format]
    exact (says_iff.1 h).2.1

end Document

namespace Manifest

theorem ofDocument_eq_ok {d : Document} {m : Manifest} : ofDocument d = .ok m ↔
    m.document = d ∧ m.file = none ∧ Settings.decode d.members = .ok m.toSettings ∧
      m.toSettings.check = .ok () := by
  rw [ofDocument]
  cases hdecode : Settings.decode d.members with
  | error e => simp [throw, throwThe, MonadExceptOf.throw]
  | ok S =>
    dsimp only
    rw [bind_eq_ok]
    constructor
    · rintro ⟨⟨⟩, hcheck, hm⟩
      obtain rfl := Except.ok.inj hm
      exact ⟨rfl, rfl, rfl, hcheck⟩
    · rintro ⟨rfl, hfile, hS, hcheck⟩
      obtain rfl := Except.ok.inj hS
      refine ⟨(), hcheck, congrArg Except.ok ?_⟩
      rw [← hfile]

end Manifest

/-! ### Loading -/

theorem Document.ofValue?_eq_some {v : Value} {d : Document} (h : ofValue? v = some d)
    (hfresh : v.fresh = false) : d.toValue = v := by
  obtain ⟨lead, ⟨⟩, n, trail, fresh⟩ := v
  cases n with
  | object root =>
    obtain rfl := Option.some.inj h
    obtain rfl : fresh = false := hfresh
    rfl
  | null | bool b | number t | string l | array es => simp [ofValue?] at h

/-- The document of a text is the value of the text. -/
theorem Document.parse_eq_ok {s : Text} {d : Document} :
    Document.parse s = .ok d ↔ Value.parse s = .ok d.toValue := by
  constructor
  · intro h
    rw [parse] at h
    split at h
    · simp at h
    · rename_i v hv
      split at h
      · rename_i d' hd
        obtain rfl := Except.ok.inj h
        have hfresh := (Value.orderly_of_readTo (Value.parse_eq_ok.1 hv)).2.2.2.2
        rw [hv, ofValue?_eq_some hd hfresh]
      · simp at h
  · intro h
    rw [parse, h]
    simp only [ofValue?_toValue]

namespace Manifest

theorem load_eq_ok {s : Text} {m : Manifest} : load s = .ok m ↔
    Value.parse s = .ok m.document.toValue ∧ m.document.Says m.toSettings ∧ m.file = none := by
  rw [load, bind_eq_ok]
  constructor
  · rintro ⟨d, hd, hm⟩
    obtain ⟨rfl, hfile, hdecode, hcheck⟩ := ofDocument_eq_ok.1 hm
    have hparse := Document.parse_eq_ok.1 hd
    have horderly := (Value.orderly_of_readTo (Value.parse_eq_ok.1 hparse)).2.2.1
    exact ⟨hparse, Document.says_iff.2 ⟨hdecode, horderly.fits, hcheck⟩, hfile⟩
  · rintro ⟨hparse, hsaid, hfile⟩
    obtain ⟨hdecode, -, hcheck⟩ := Document.says_iff.1 hsaid
    exact ⟨m.document, Document.parse_eq_ok.2 hparse,
      ofDocument_eq_ok.2 ⟨rfl, hfile, hdecode, hcheck⟩⟩

theorem loadOctets_eq_ok {b : Octets} {m : Manifest} :
    loadOctets b = .ok m ↔ ∃ s, Text.ofUtf8 b = .ok s ∧ load s = .ok m := by
  rw [loadOctets, Document.parseOctets]
  cases Text.ofUtf8 b with
  | ok s => simp [load]
  | error n => simp [bind, Except.bind]

theorem exists_object_of_datum {n : Node} {ms : List (Text × Datum)}
    (h : n.datum = .object ms) : ∃ root, n = .object root := by
  cases n with
  | object root => exact ⟨root, rfl⟩
  | array es => simp at h
  | null | bool b | number t | string l => simp [Node.datum, Node.denoting] at h

/-- A text with the value of a document that says settings is loaded with these settings. -/
theorem exists_load {d : Document} {S : Settings} (h : d.Says S) {s : Text} {v : Value}
    (hparse : Value.parse s = .ok v) (hdatum : v.node.datum = d.toValue.node.datum) :
    ∃ r, load s = .ok r ∧ r.toSettings = S ∧ r.document.toValue = v := by
  obtain ⟨-, -, hnode, -, hfresh⟩ := Value.orderly_of_readTo (Value.parse_eq_ok.1 hparse)
  obtain ⟨root, hroot⟩ : ∃ root, v.node = .object root := by
    rw [Document.datum_toValue] at hdatum
    exact exists_object_of_datum hdatum
  obtain ⟨d', hd'⟩ : ∃ d', Document.ofValue? v = some d' := ⟨_, by rw [Document.ofValue?, hroot]⟩
  obtain rfl := Document.ofValue?_eq_some hd' hfresh
  exact ⟨⟨S, d', none⟩, load_eq_ok.2 ⟨hparse, h.of_datum_eq hdatum hnode.fits, rfl⟩, rfl, rfl⟩

/-- The strict JSON text of a document that says settings is read as these settings. -/
theorem exists_load_minimalText {d : Document} {S : Settings} (h : d.Says S) :
    ∃ r, load d.toValue.minimalText = .ok r ∧ r.toSettings = S := by
  obtain ⟨-, hfits, -⟩ := Document.says_iff.1 h
  obtain ⟨v, hparse, hdatum⟩ := Value.exists_parse_minimalText hfits
  obtain ⟨r, hr, hS, -⟩ := exists_load h hparse hdatum
  exact ⟨r, hr, hS⟩

end Manifest

end EnvManifest
