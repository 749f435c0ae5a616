import EnvManifest.Proofs.Comments.Text
import EnvManifest.Proofs.Untouched

/-!
# What is saved is the document

A manifest is saved with two spaces for every tab, wherever the tab stands. That a document stays
the document that it is (`IsDocument.untabbed`) leaves open what becomes of its comments. A tab can
be among those, and it neither begins a comment nor ends one: the comments of a text without tabs
are the comments of the text, without tabs (`Text.comments_untabbed`).

So whenever what is written of a document can be read, what is saved of it can be read too, with the
same values and the same comments (`Value.parse_untabbed`), and saving what was read there
writes the same text again. This is so after any edits (`Document.exists_parse_untabbed`): the
document need not be read as the tree that it was edited to.
-/

namespace EnvManifest

open Manifest (untabbed)

/-! ### Texts without tabs -/

theorem tab_not_mem_untabbed (s : Text) : '\t' ∉ untabbed s := by
  rw [untabbed, List.mem_flatMap]
  rintro ⟨c, -, hc⟩
  split at hc
  · simp at hc
  · rename_i hne
    exact hne (List.mem_singleton.1 hc).symm

theorem untabbed_untabbed (s : Text) : untabbed (untabbed s) = untabbed s :=
  untabbed_eq_self (tab_not_mem_untabbed s)

theorem mem_of_mem_untabbed {s : Text} {c : Char} (hc : c ≠ ' ') (h : c ∈ untabbed s) : c ∈ s := by
  obtain ⟨d, hd, hmem⟩ := List.mem_flatMap.1 h
  split at hmem
  · simp [hc] at hmem
  · rwa [List.mem_singleton.1 hmem]

/-- What begins with a character that is no space began with it before. -/
theorem exists_of_untabbed_eq_cons {s t : Text} {c : Char} (hc : c ≠ ' ')
    (h : untabbed s = c :: t) : ∃ r, s = c :: r := by
  cases s with
  | nil => simp [untabbed] at h
  | cons d r =>
    by_cases hd : d = '\t'
    · subst hd
      exact absurd (List.cons.inj h).1.symm hc
    · rw [untabbed_cons_of_ne hd] at h
      exact ⟨r, by rw [(List.cons.inj h).1]⟩

/-- A tab in front is two spaces. -/
theorem untabbed_tab (s : Text) : untabbed ('\t' :: s) = ' ' :: ' ' :: untabbed s := rfl

namespace Text

/-! ### Comments without tabs -/

theorem cutAtNewline_untabbed (s : Text) :
    cutAtNewline (untabbed s) = (untabbed (cutAtNewline s).1, untabbed (cutAtNewline s).2) := by
  by_cases hs : '\n' ∈ s
  · obtain ⟨body, r, rfl, hbody⟩ := List.eq_append_cons_of_mem hs
    have hbody' : '\n' ∉ untabbed body := fun hmem => hbody (mem_of_mem_untabbed (by decide) hmem)
    rw [untabbed_append, untabbed_cons_of_ne (by decide), cutAtNewline_append_newline hbody,
      cutAtNewline_append_newline hbody', untabbed_cons_of_ne (by decide)]
  · have hs' : '\n' ∉ untabbed s := fun hmem => hs (mem_of_mem_untabbed (by decide) hmem)
    rw [cutAtNewline_of_not_mem hs, cutAtNewline_of_not_mem hs']
    rfl

theorem cutAtClose_cons {c : Char} {s : Text} (h : ∀ r, c = '*' → s = '/' :: r → False) :
    cutAtClose (c :: s) = (cutAtClose s).map fun cut => (c :: cut.1, cut.2) := by
  rw [cutAtClose]
  exact h

theorem cutAtClose_untabbed (s : Text) :
    cutAtClose (untabbed s) = (cutAtClose s).map fun cut => (untabbed cut.1, untabbed cut.2) := by
  fun_induction cutAtClose s with
  | case1 rest => rfl
  | case2 c rest hclose ih =>
    by_cases hc : c = '\t'
    · subst hc
      rw [untabbed_tab, cutAtClose_cons (by simp), cutAtClose_cons (by simp), ih]
      simp only [Option.map_map, Function.comp_def, untabbed_tab]
    · have hclose' : ∀ r, c = '*' → untabbed rest = '/' :: r → False := by
        intro r hstar hr
        obtain ⟨r', rfl⟩ := exists_of_untabbed_eq_cons (by decide) hr
        exact hclose r' hstar rfl
      rw [untabbed_cons_of_ne hc, cutAtClose_cons hclose', ih]
      simp only [Option.map_map, Function.comp_def, untabbed_cons_of_ne hc]
  | case3 => rfl

theorem afterQuote_untabbed (s : Text) : afterQuote (untabbed s) = untabbed (afterQuote s) := by
  fun_induction afterQuote s with
  | case1 => rfl
  | case2 rest => rfl
  | case3 c rest ih =>
    rw [untabbed_cons_of_ne (by decide)]
    by_cases hc : c = '\t'
    · -- a space is escaped in place of the tab, and another one is behind it
      rw [hc, untabbed_tab, afterQuote, afterQuote_cons (by decide) (by decide), ih]
    · rw [untabbed_cons_of_ne hc, afterQuote, ih]
  | case4 c rest hquote hslash ih =>
    by_cases hc : c = '\t'
    · rw [hc, untabbed_tab, afterQuote_cons (by decide) (by decide),
        afterQuote_cons (by decide) (by decide), ih]
    · rw [untabbed_cons_of_ne hc, afterQuote, ih]
      · exact hquote
      · -- a backslash at the end of the text escapes nothing
        intro d r hc' hr
        cases rest with
        | nil => simp [untabbed] at hr
        | cons e rest => exact hslash e rest hc' rfl

/-- **A tab neither begins a comment nor ends one.** -/
theorem comments_untabbed (s : Text) : comments (untabbed s) = (comments s).map untabbed := by
  fun_induction comments s with
  | case1 => rw [show untabbed [] = [] from rfl, comments_nil, List.map_nil]
  | case2 rest ih =>
    rw [untabbed_cons_of_ne (by decide), comments, afterQuote_untabbed, ih]
  | case3 rest cut ih =>
    rw [untabbed_cons_of_ne (by decide), untabbed_cons_of_ne (by decide), comments,
      cutAtNewline_untabbed, ih]
    rfl
  | case4 rest body after hcut ih =>
    have hcut' := cutAtClose_untabbed rest
    rw [hcut] at hcut'
    rw [untabbed_cons_of_ne (by decide), untabbed_cons_of_ne (by decide), comments_block hcut', ih]
    rfl
  | case5 rest hcut =>
    have hcut' := cutAtClose_untabbed rest
    rw [hcut] at hcut'
    rw [untabbed_cons_of_ne (by decide), untabbed_cons_of_ne (by decide), comments]
    split
    · rename_i h
      simp [hcut'] at h
    · rfl
  | case6 c rest hquote hline hblock ih =>
    by_cases hc : c = '\t'
    · rw [hc, untabbed_tab, comments_cons (by decide) (by decide),
        comments_cons (by decide) (by decide), ih]
    · rw [untabbed_cons_of_ne hc, comments, ih]
      · exact hquote
      · intro r hc' hr
        obtain ⟨r', hr'⟩ := exists_of_untabbed_eq_cons (by decide) hr
        exact hline r' hc' hr'
      · intro r hc' hr
        obtain ⟨r', hr'⟩ := exists_of_untabbed_eq_cons (by decide) hr
        exact hblock r' hc' hr'

end Text

open Text (comments)

/-! ### Values -/

namespace Value

/-- **A text that is read is read without tabs too**, as the same values and with the same
comments, and is written again without tabs as it is. -/
theorem parse_untabbed {s : Text} {v : Value} (h : parse s = .ok v) :
    ∃ w, parse (untabbed s) = .ok w ∧ w.node.outline = v.node.outline ∧
      w.node.datum = v.node.datum ∧ comments (untabbed s) = (comments s).map untabbed ∧
      untabbed w.pack = untabbed s := by
  obtain ⟨w, hw, houtline⟩ := exists_parse_of_isDocument (isDocument_of_parse h).untabbed
  have hdatum : w.node.datum = v.node.datum := by
    rw [Node.datum_eq, houtline, ← Node.datum_eq]
  refine ⟨w, hw, houtline, hdatum, Text.comments_untabbed s, ?_⟩
  rw [pack_of_parse hw, untabbed_untabbed]

end Value

/-! ### Documents -/

namespace Document

/-- Edits leave the slots around the root. -/
theorem lead_afterAll (d : Document) (rs : List Request) : (d.afterAll rs).lead = d.lead := by
  induction rs generalizing d with
  | nil => rfl
  | cons r rs ih => exact (ih _).trans (slots_of_format _).1

/-- Behind a brace an object is read, if anything is. -/
theorem exists_object_of_run {d : Nat} {t rest : Text} {n : Node}
    (h : (Parser.node (d + 1)).run ('\x7b' :: t) = .ok (n, rest)) : ∃ root, n = .object root := by
  rw [Parser.node, Parser.nodeAround, Parser.run_bind, Parser.run_peek] at h
  simp only [List.head?_cons] at h
  obtain ⟨⟨⟩, s₁, -, h⟩ := Parser.run_bind_eq_ok.1 h
  obtain ⟨root, s₂, -, hpure⟩ := Parser.run_bind_eq_ok.1 h
  exact ⟨root, (Prod.mk.inj (Except.ok.inj hpure)).1.symm⟩

/-- What is written of a document is read as an object, if it is read at all. -/
theorem exists_object_of_parse_pack {d : Document} (hlead : Gap d.lead) {v : Value}
    (h : Value.parse d.pack = .ok v) : ∃ root, v.node = .object root := by
  obtain ⟨s₁, s₂, hslot, hnode, -, -⟩ := Value.run_of_readTo (Value.parse_eq_ok.1 h)
  obtain ⟨t, ht⟩ : ∃ t, d.pack = d.lead ++ '\x7b' :: t := by
    simp [pack, Value.pack, toValue, Node.pack_object]
  have hbrace : Parser.slot.run d.pack = .ok (d.lead, '\x7b' :: t) := by
    rw [ht]
    exact Parser.run_slot_of_gap hlead (tokenStart_cons.2 (by decide))
  rw [hbrace] at hslot
  obtain ⟨-, rfl⟩ := Prod.mk.inj (Except.ok.inj hslot)
  exact exists_object_of_run hnode

end Document

/-! ### Manifests -/

namespace Manifest

/-- What is loaded from a text is saved as the text without tabs. -/
theorem text_of_load {s : Text} {r : Manifest} (h : load s = .ok r) : r.text = untabbed s :=
  congrArg untabbed (Value.pack_of_parse (load_eq_ok.1 h).1)

/-- **A text that is read is loaded without tabs as the settings that it is loaded as.** -/
theorem exists_load_untabbed_iff {s : Text} {v : Value} (h : Value.parse s = .ok v)
    (S : Settings) : (∃ r, load (untabbed s) = .ok r ∧ r.toSettings = S) ↔
      ∃ r, load s = .ok r ∧ r.toSettings = S := by
  obtain ⟨w, hw, -, hdatum, -⟩ := Value.parse_untabbed h
  constructor
  · rintro ⟨r, hr, rfl⟩
    obtain ⟨hparse, hsaid, -⟩ := load_eq_ok.1 hr
    obtain rfl : r.document.toValue = w := Except.ok.inj (hparse.symm.trans hw)
    obtain ⟨r', hr', hS, -⟩ := exists_load hsaid h hdatum.symm
    exact ⟨r', hr', hS⟩
  · rintro ⟨r, hr, rfl⟩
    obtain ⟨hparse, hsaid, -⟩ := load_eq_ok.1 hr
    obtain rfl : r.document.toValue = v := Except.ok.inj (hparse.symm.trans h)
    obtain ⟨r', hr', hS, -⟩ := exists_load hsaid hw hdatum
    exact ⟨r', hr', hS⟩

end Manifest

/-- **Saving without tabs never changes the document.** If what is written of a document can be
read, after any edits of a document that was read, then what is saved of it is read as a document
too, with the same values and with the same comments, but for the tabs in these; and of that
document the same text is saved again. In the same way the octets that a manifest is saved as, after
any operations, are loaded whenever what is written of its document is, as the same settings; so
they are if it is written as what it says. And a manifest loaded from them is saved as the same
octets. -/
theorem Document.exists_parse_untabbed :
    (∀ {s : Text} {d : Document}, Document.parse s = .ok d → ∀ (rs : List Request) {v : Value},
      Value.parse (d.afterAll rs).pack = .ok v →
        ∃ d', Document.parse (untabbed (d.afterAll rs).pack) = .ok d' ∧
          d'.toValue.node.outline = v.node.outline ∧ d'.toValue.node.datum = v.node.datum ∧
          comments (untabbed (d.afterAll rs).pack) =
            (comments (d.afterAll rs).pack).map untabbed ∧
          untabbed d'.pack = untabbed (d.afterAll rs).pack) ∧
    (∀ {b : Octets} {m : Manifest}, Manifest.loadOctets b = .ok m →
      ∀ (ops : List Operation) {v : Value}, Value.parse (m.runAll ops).document.pack = .ok v →
        (∀ S, (∃ r, Manifest.loadOctets (m.runAll ops).octets = .ok r ∧ r.toSettings = S) ↔
          ∃ r, Manifest.load (m.runAll ops).document.pack = .ok r ∧ r.toSettings = S) ∧
        (v.node.datum = (m.runAll ops).document.toValue.node.datum →
          ∃ r, Manifest.loadOctets (m.runAll ops).octets = .ok r) ∧
        ∀ r, Manifest.loadOctets (m.runAll ops).octets = .ok r →
          r.octets = (m.runAll ops).octets) := by
  constructor
  · intro s d h rs v hv
    obtain ⟨-, hlead, -⟩ := Value.orderly_of_readTo (Value.parse_eq_ok.1 (parse_eq_ok.1 h))
    obtain ⟨root, hroot⟩ := exists_object_of_parse_pack (lead_afterAll d rs ▸ hlead) hv
    obtain ⟨w, hw, houtline, hdatum, hcomments, hpack⟩ := Value.parse_untabbed hv
    obtain ⟨root', hroot'⟩ := Node.exists_object_of_outline (hroot ▸ houtline)
    obtain ⟨-, -, -, -, hfresh⟩ := Value.orderly_of_readTo (Value.parse_eq_ok.1 hw)
    obtain ⟨d', hd'⟩ : ∃ d', ofValue? w = some d' := ⟨_, by rw [ofValue?, hroot']⟩
    obtain rfl := ofValue?_eq_some hd' hfresh
    exact ⟨d', parse_eq_ok.2 hw, houtline, hdatum, hcomments, hpack⟩
  · intro b m h ops v hv
    have hloads : ∀ {r}, Manifest.loadOctets (m.runAll ops).octets = .ok r ↔
        Manifest.load (untabbed (m.runAll ops).document.pack) = .ok r := by
      intro r
      rw [Manifest.loadOctets_eq_ok, Manifest.octets, Text.ofUtf8_utf8]
      simp [Manifest.text]
    have hiff := Manifest.exists_load_untabbed_iff hv
    simp only [hloads]
    refine ⟨hiff, fun hdatum => ?_, fun r hr => ?_⟩
    · obtain ⟨s, -, hload⟩ := Manifest.loadOctets_eq_ok.1 h
      obtain ⟨S, hsaid⟩ := Manifest.exists_says_runAll (Manifest.load_eq_ok.1 hload).2.1 ops
      obtain ⟨r, hr, hS, -⟩ := Manifest.exists_load hsaid hv hdatum
      obtain ⟨r', hr', -⟩ := (hiff S).2 ⟨r, hr, hS⟩
      exact ⟨r', hr'⟩
    · rw [Manifest.octets, Manifest.text_of_load hr, untabbed_untabbed]
      rfl

/-- Tabs between tokens, in a line comment and in a block comment, and an escaped one in a literal;
an environment is set, or a package is added. -/
theorem Document.exists_parse_untabbed_tabs :
    ∃ m, Manifest.loadOctets (Text.utf8
        "\x7b\t\"name\": \"a\\tb\", // c\td\n\"packages\": [\"go\"\t/*\te */]\x7d".toList) = .ok m ∧
      ∃ rs ops, rs = [Request.setEnv (.ofList [("PORT".toList, "8\t0".toList)])] ∧
        ops = [Operation.add "jq".toList] ∧
        (∃ d', Document.parse (untabbed (m.document.afterAll rs).pack) = .ok d' ∧
          comments (untabbed (m.document.afterAll rs).pack) =
            (comments (m.document.afterAll rs).pack).map untabbed ∧
          untabbed d'.pack = untabbed (m.document.afterAll rs).pack) ∧
        ∀ r, Manifest.loadOctets (m.runAll ops).octets = .ok r →
          r.octets = (m.runAll ops).octets := by
  obtain ⟨m, hm, ⟨v, hv⟩, w, hw⟩ : ∃ m, Manifest.loadOctets (Text.utf8
      "\x7b\t\"name\": \"a\\tb\", // c\td\n\"packages\": [\"go\"\t/*\te */]\x7d".toList) = .ok m ∧
      (∃ v, Value.parse (m.document.afterAll
        [.setEnv (.ofList [("PORT".toList, "8\t0".toList)])]).pack = .ok v) ∧
      ∃ w, Value.parse (m.runAll [.add "jq".toList]).document.pack = .ok w := by
    decide +kernel
  obtain ⟨s, -, hload⟩ := Manifest.loadOctets_eq_ok.1 hm
  have hparse := Document.parse_eq_ok.2 (Manifest.load_eq_ok.1 hload).1
  obtain ⟨d', hd', -, -, hcomments, hpack⟩ := Document.exists_parse_untabbed.1 hparse _ hv
  obtain ⟨-, -, hagain⟩ := Document.exists_parse_untabbed.2 hm _ hw
  exact ⟨m, hm, _, _, rfl, rfl, ⟨d', hd', hcomments, hpack⟩, hagain⟩

end EnvManifest
