import EnvManifest.Proofs.Gap.Basic
import Mathlib.Data.List.TakeWhile

/-!
# Reading gaps

A parser that succeeds has passed over a front of its input and left the rest, and
what is proved of it comes in pairs: what the front looks like when it succeeds, and
on which fronts it does. For a slot the fronts are the gaps
(`Parser.gap_of_run_slot`, `Parser.run_slot_of_gap`); they are passed over as far as
they go, so that what is left begins a token (`TokenStart`). At the end of the input
a slot may be a text that is only `Whole`.
-/

namespace EnvManifest

namespace Parser

variable {α β : Type}

/-! ### Sequences -/

/-- A sequence succeeds if both of its parts do. -/
theorem run_bind_eq_ok {p : Parser α} {f : α → Parser β} {s rest : Text} {b : β} :
    (p >>= f).run s = .ok (b, rest) ↔
      ∃ a s₁, p.run s = .ok (a, s₁) ∧ (f a).run s₁ = .ok (b, rest) := by
  rw [run_bind]
  constructor
  · intro h
    split at h
    · exact ⟨_, _, ‹_›, h⟩
    · simp at h
  · rintro ⟨a, s₁, hp, hf⟩
    rw [hp]
    exact hf

/-- A sequence goes on where its first part stops. -/
theorem run_bind_of_eq {p : Parser α} {s s₁ : Text} {a : α} (h : p.run s = .ok (a, s₁))
    (f : α → Parser β) : (p >>= f).run s = (f a).run s₁ := by
  rw [run_bind, h]

theorem consumed_append_self (t rest : Text) : consumed (t ++ rest) rest = t := by
  simp [consumed]

/-- The spelling of what was read is the front of the input. -/
theorem run_spelled_eq_ok {p : Parser α} {s rest t : Text} {a : α} :
    p.spelled.run s = .ok ((a, t), rest) ↔ p.run s = .ok (a, rest) ∧ t ++ rest = s := by
  constructor
  · intro h
    simp only [spelled] at h
    split at h
    · rename_i a' rest' hp
      obtain ⟨⟨rfl, rfl⟩, rfl⟩ := by simpa using h
      exact ⟨hp, consumed_append (p.suffix_of_run hp)⟩
    · simp at h
  · rintro ⟨hp, rfl⟩
    simp only [spelled, hp, consumed_append_self]

theorem run_lexeme_eq_ok {p : Parser Unit} {s rest t : Text} :
    (lexeme p).run s = .ok (t, rest) ↔ p.run s = .ok ((), rest) ∧ t ++ rest = s := by
  rw [lexeme, run_bind_eq_ok]
  constructor
  · rintro ⟨⟨u, t'⟩, s₁, hp, hpure⟩
    obtain ⟨rfl, rfl⟩ := by simpa using hpure
    exact run_spelled_eq_ok.1 hp
  · intro h
    exact ⟨((), t), rest, run_spelled_eq_ok.2 h, rfl⟩

end Parser

/-! ### The front of a slot -/

/-- A text that no gap goes on into: it is empty, or begins with a character that is
neither blank nor a slash. -/
def TokenStart (s : Text) : Prop :=
  ∀ c, s.head? = some c → isWhite c = false ∧ c ≠ '/'

theorem tokenStart_nil : TokenStart [] := by
  simp [TokenStart]

theorem tokenStart_cons {c : Char} {s : Text} :
    TokenStart (c :: s) ↔ isWhite c = false ∧ c ≠ '/' := by
  simp [TokenStart]

theorem ne_newline_of_not_mem {s : Text} (h : '\n' ∉ s) : ∀ c ∈ s, (c != '\n') = true := by
  intro c hc
  simp only [bne_iff_ne, ne_eq]
  rintro rfl
  exact h hc

theorem cutAtNewline_append_newline {body : Text} (h : '\n' ∉ body) (s : Text) :
    Text.cutAtNewline (body ++ '\n' :: s) = (body, '\n' :: s) := by
  have hbody := ne_newline_of_not_mem h
  simp [Text.cutAtNewline, List.takeWhile_append_of_pos hbody, List.dropWhile_append_of_pos hbody]

theorem cutAtNewline_of_not_mem {s : Text} (h : '\n' ∉ s) : Text.cutAtNewline s = (s, []) := by
  have hs := ne_newline_of_not_mem h
  rw [Text.cutAtNewline, List.takeWhile_eq_self_iff.2 hs, List.dropWhile_eq_nil_iff.2 hs]

theorem passSlot_cons_of_ne {c : Char} (h : c ≠ '/') (s : Text) :
    passSlot (c :: s) = if isWhite c then passSlot s else .ok ((), c :: s) := by
  rw [← isSpacing_eq, passSlot] <;> simp [h]

theorem passSlot_of_tokenStart {s : Text} (h : TokenStart s) : passSlot s = .ok ((), s) := by
  cases s with
  | nil => rw [passSlot]
  | cons c s =>
    obtain ⟨hblank, hslash⟩ := tokenStart_cons.1 h
    rw [passSlot_cons_of_ne hslash, hblank]
    rfl

/-- A gap is passed over. -/
theorem passSlot_gap_append {g : Text} (h : Gap g) (rest : Text) :
    passSlot (g ++ rest) = passSlot rest := by
  induction h with
  | nil => rfl
  | @blank c s hc _ ih =>
    have hne : c ≠ '/' := by
      rintro rfl
      simp [isWhite] at hc
    rw [List.cons_append, passSlot_cons_of_ne hne, if_pos hc, ih]
  | @line body s hbody _ ih =>
    rw [List.cons_append, List.cons_append, passSlot, List.append_assoc, List.cons_append,
      cutAtNewline_append_newline hbody, passSlot_cons_of_ne (by decide), if_pos (by decide), ih]
  | @block body s hbody _ ih =>
    have hcut := cutAtClose_append hbody (s ++ rest)
    rw [List.cons_append, List.cons_append, List.append_assoc, List.cons_append, List.cons_append,
      passSlot]
    split
    · rename_i h'
      rw [hcut] at h'
      obtain ⟨-, rfl⟩ := by simpa using h'
      exact ih
    · rename_i h'
      rw [hcut] at h'
      simp at h'

/-- A line comment that is never ended runs up to the end of the input. -/
theorem passSlot_line_of_not_mem {body : Text} (h : '\n' ∉ body) :
    passSlot ('/' :: '/' :: body) = .ok ((), []) := by
  rw [passSlot, cutAtNewline_of_not_mem h, passSlot]

/-- A whole text is a gap, or a gap and a line comment. -/
theorem Whole.cases {s : Text} (h : Whole s) :
    Gap s ∨ ∃ g body, s = g ++ '/' :: '/' :: body ∧ Gap g ∧ '\n' ∉ body := by
  rw [Whole] at h
  generalize ht : s ++ ['\n'] = t at h
  induction h generalizing s with
  | nil => simp at ht
  | @blank c t hc _ ih =>
    cases s with
    | nil => exact Or.inl .nil
    | cons d s =>
      obtain ⟨rfl, htail⟩ := List.cons.inj (show d :: (s ++ ['\n']) = c :: t from ht)
      rcases ih htail with hs | ⟨g, body, rfl, hg, hbody⟩
      · exact Or.inl (.blank hc hs)
      · exact Or.inr ⟨d :: g, body, rfl, .blank hc hg, hbody⟩
  | @line body t hbody _ ih =>
    -- the newline that was put behind the text ends the comment, or stands behind it
    rcases List.eq_nil_or_concat t with rfl | ⟨t, c, rfl⟩
    · have hs : s = '/' :: '/' :: body :=
        List.append_cancel_right (show s ++ ['\n'] = '/' :: '/' :: body ++ ['\n'] by simp [ht])
      exact Or.inr ⟨[], body, hs, .nil, hbody⟩
    · obtain ⟨rfl, hc⟩ : s = '/' :: '/' :: (body ++ '\n' :: t) ∧ ['\n'] = [c] :=
        List.append_inj' (by simp [ht]) rfl
      rcases ih (s := t) (by simp [hc]) with hs | ⟨g, b, rfl, hg, hb⟩
      · exact Or.inl (.line hbody hs)
      · exact Or.inr ⟨'/' :: '/' :: (body ++ '\n' :: g), b, by simp, .line hbody hg, hb⟩
  | @block body t hbody _ ih =>
    -- a block comment does not end in a newline
    rcases List.eq_nil_or_concat t with rfl | ⟨t, c, rfl⟩
    · have hlast : (s ++ ['\n']).getLast? = ('/' :: '*' :: (body ++ ['*']) ++ ['/']).getLast? := by
        simp [ht]
      rw [List.getLast?_concat, List.getLast?_concat] at hlast
      simp at hlast
    · obtain ⟨rfl, hc⟩ : s = '/' :: '*' :: (body ++ '*' :: '/' :: t) ∧ ['\n'] = [c] :=
        List.append_inj' (by simp [ht]) rfl
      rcases ih (s := t) (by simp [hc]) with hs | ⟨g, b, rfl, hg, hb⟩
      · exact Or.inl (.block hbody hs)
      · exact Or.inr ⟨'/' :: '*' :: (body ++ '*' :: '/' :: g), b, by simp, .block hbody hg, hb⟩

/-- A comment in front of a newline takes a reader to where the newline does. -/
theorem scan_lineComment {body : Text} (h : '\n' ∉ body) (s : Text) :
    scan .between ('/' :: '/' :: (body ++ '\n' :: s)) = scan .between ('\n' :: s) :=
  scan_line_append h s

/-- A block comment cut off at its closing mark leaves a reader where it was. -/
theorem scan_blockComment {s cut rest : Text} (h : cutAtClose s = some (cut, rest)) (t : Text) :
    scan .between ('/' :: '*' :: (cut ++ t)) = scan .between t := by
  obtain ⟨body, rfl, hbody, -⟩ := body_of_cutAtClose h
  rw [List.append_assoc]
  exact scan_block_of_cutAtClose (cutAtClose_append hbody t)

/-- A line comment leaves a reader where what follows it does, or it ends the input. -/
theorem scan_lineComment_cut {s g rest : Text} (hg : g ++ rest = (Text.cutAtNewline s).2)
    (hrest : rest.head? ≠ some '\n') :
    scan .between ('/' :: '/' :: ((Text.cutAtNewline s).1 ++ g)) = scan .between g ∨
      '\n' ∉ s ∧ g = [] ∧ rest = [] := by
  by_cases hs : '\n' ∈ s
  · -- the newline behind the comment is the first character of `g`
    obtain ⟨body, r, rfl, hbody⟩ := List.eq_append_cons_of_mem hs
    rw [cutAtNewline_append_newline hbody] at hg ⊢
    cases g with
    | nil => simp [show rest = '\n' :: r from hg] at hrest
    | cons c g =>
      obtain ⟨rfl, -⟩ := List.cons.inj hg
      exact Or.inl (scan_lineComment hbody g)
  · rw [cutAtNewline_of_not_mem hs] at hg
    exact Or.inr ⟨hs, List.append_eq_nil_iff.1 hg⟩

/-- What is passed over is a gap in front of a token, or all of the input. -/
theorem gap_of_passSlot {s rest : Text} (h : passSlot s = .ok ((), rest)) :
    ∃ g, g ++ rest = s ∧ (Gap g ∧ TokenStart rest ∨ Whole g ∧ rest = []) := by
  fun_induction passSlot s generalizing rest with
  | case1 s ih =>
    obtain ⟨g, hg, hrest⟩ := ih h
    refine ⟨'/' :: '/' :: ((Text.cutAtNewline s).1 ++ g), ?_, ?_⟩
    · simp [hg, Text.cutAtNewline_append]
    · have hnewline : rest.head? ≠ some '\n' := by
        rcases hrest with ⟨-, htoken⟩ | ⟨-, rfl⟩
        · exact fun hhead => absurd (htoken _ hhead).1 (by decide)
        · simp
      rcases scan_lineComment_cut hg hnewline with hscan | ⟨hs, rfl, rfl⟩
      · simpa [gap_iff_scan, whole_iff_scan, hscan] using hrest
      · refine Or.inr ⟨(whole_iff_scan _).2 (Or.inr ?_), rfl⟩
        rw [cutAtNewline_of_not_mem hs, List.append_nil]
        exact scan_line_of_not_mem hs
  | case2 s body after hcut ih =>
    obtain ⟨g, hg, hrest⟩ := ih h
    refine ⟨'/' :: '*' :: (body ++ g), ?_, ?_⟩
    · simp [hg, append_of_cutAtClose hcut]
    · simpa [gap_iff_scan, whole_iff_scan, scan_blockComment hcut] using hrest
  | case3 => simp at h
  | case4 => simp at h
  | case5 c s _ _ _ hc ih =>
    rw [isSpacing_eq] at hc
    obtain ⟨g, hg, hrest⟩ := ih h
    refine ⟨c :: g, by simp [hg], hrest.imp ?_ ?_⟩
    · exact fun hgap => ⟨.blank hc hgap.1, hgap.2⟩
    · exact fun hwhole => ⟨Gap.blank hc hwhole.1, hwhole.2⟩
  | case6 c s _ _ hne hc =>
    rw [isSpacing_eq] at hc
    obtain rfl := by simpa using h
    exact ⟨[], rfl, Or.inl ⟨.nil, tokenStart_cons.2 ⟨by simpa using hc, fun h => hne h⟩⟩⟩
  | case7 =>
    obtain rfl := by simpa using h
    exact ⟨[], rfl, Or.inl ⟨.nil, tokenStart_nil⟩⟩

/-! ### Slots -/

namespace Parser

/-- **A gap in front of a token is read as a slot.** -/
theorem run_slot_of_gap {g rest : Text} (hg : Gap g) (hrest : TokenStart rest) :
    slot.run (g ++ rest) = .ok (g, rest) := by
  refine run_lexeme_eq_ok.2 ⟨?_, rfl⟩
  change passSlot _ = _
  rw [passSlot_gap_append hg, passSlot_of_tokenStart hrest]

/-- A whole text at the end of the input is read as a slot. -/
theorem run_slot_of_whole {g : Text} (hg : Whole g) : slot.run g = .ok (g, []) := by
  refine run_lexeme_eq_ok.2 ⟨?_, List.append_nil g⟩
  change passSlot _ = _
  rcases hg.cases with hg | ⟨g, body, rfl, hg, hbody⟩
  · have h := passSlot_gap_append hg []
    rwa [List.append_nil, passSlot_of_tokenStart tokenStart_nil] at h
  · rw [passSlot_gap_append hg, passSlot_line_of_not_mem hbody]

/-- **What is read as a slot** is a gap in front of a token, or all of the input. -/
theorem gap_of_run_slot {s g rest : Text} (h : slot.run s = .ok (g, rest)) :
    g ++ rest = s ∧ (Gap g ∧ TokenStart rest ∨ Whole g ∧ rest = []) := by
  obtain ⟨hpass, happ⟩ := run_lexeme_eq_ok.1 h
  obtain ⟨g', happ', hg'⟩ := gap_of_passSlot hpass
  obtain rfl : g' = g := List.append_cancel_right (happ'.trans happ.symm)
  exact ⟨happ, hg'⟩

/-- A slot that leaves something is a gap. -/
theorem gap_of_run_slot_of_ne_nil {s g rest : Text} (h : slot.run s = .ok (g, rest))
    (hrest : rest ≠ []) : Gap g ∧ TokenStart rest :=
  (gap_of_run_slot h).2.resolve_right fun hnil => hrest hnil.2

end Parser

end EnvManifest
