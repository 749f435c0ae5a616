import EnvManifest.Proofs.Gap.Trivia

/-!
# The line of the token in front

When a child is taken out, the comment on the line of the token in front of it stays, and is
glued to the slot behind the child. What is kept need not be a gap: it may end in a line comment,
whose newline is not kept. But it is whole (`whole_sameLine`).
-/

namespace EnvManifest

variable {s t : Text}

/-! ### Where the line ends -/

/-- A text up to the first newline among its trivia, which are counted from `n`. -/
def cutLine (n : Nat) (ts : List (Nat × Trivia)) (s : Text) : Text :=
  match ts.find? fun p => p.2 == .newline with
  | some (k, _) => s.take (k - n)
  | none => s

/-- Trivia are counted upwards. -/
theorem le_of_mem_triviaFrom {n : Nat} {p : Nat × Trivia} (h : p ∈ triviaFrom n s) : n ≤ p.1 := by
  fun_induction triviaFrom n s with
  | case1 n => simp at h
  | case2 n rest ih =>
    rcases List.mem_cons.1 h with rfl | h
    · exact le_rfl
    · exact le_of_lt (ih h)
  | case3 n rest cut ih =>
    rcases List.mem_cons.1 h with rfl | h
    · exact le_rfl
    · exact le_trans (by omega) (ih h)
  | case4 n rest body after hcut ih =>
    rcases List.mem_cons.1 h with rfl | h
    · exact le_rfl
    · exact le_trans (by omega) (ih h)
  | case5 n rest hcut =>
    rw [List.mem_singleton.1 h]
  | case6 n c rest _ _ _ ih => exact le_of_lt (ih h)

/-- What holds no newline is kept in front of what comes behind it. -/
theorem cutLine_append {n k : Nat} {ts us : List (Nat × Trivia)} (hk : k = n + s.length)
    (hts : ∀ p ∈ ts, p.2 ≠ .newline) (hus : ∀ p ∈ us, k ≤ p.1) :
    cutLine n (ts ++ us) (s ++ t) = s ++ cutLine k us t := by
  have hnone : ts.find? (fun p => p.2 == .newline) = none :=
    List.find?_eq_none.2 fun p hp => by simpa using hts p hp
  rw [cutLine, cutLine, List.find?_append, hnone, Option.none_or]
  split
  · rename_i j _ hj
    have hle : k ≤ j := hus _ (List.mem_of_find?_eq_some hj)
    rw [List.take_append, List.take_of_length_le (by omega), show j - n - s.length = j - k by omega]
  · rfl

/-- A text that begins with a block comment goes on behind it. -/
theorem exists_cut_of_whole (h : Whole ('/' :: '*' :: s)) :
    ∃ cut rest, cutAtClose s = some (cut, rest) ∧ Whole rest := by
  have hblock : scan .block s = some .between ∨ scan .block s = some .line :=
    (whole_iff_scan _).1 h
  cases hcut : cutAtClose s with
  | none => rcases scan_block_of_cutAtClose_none hcut with hs | hs <;> simp [hs] at hblock
  | some p =>
    obtain ⟨cut, rest⟩ := p
    rw [scan_block_of_cutAtClose hcut, ← whole_iff_scan] at hblock
    exact ⟨cut, rest, rfl, hblock⟩

/-- A text that begins with no comment goes on behind a blank. -/
theorem Whole.of_cons {c : Char} (h : Whole (c :: s)) (hslash : ∀ r, c = '/' → s = '/' :: r → False)
    (hstar : ∀ r, c = '/' → s = '*' :: r → False) : isWhite c = true ∧ Whole s := by
  have hc : isWhite c = true := by
    rcases (whole_iff_scan _).1 h with hs | hs
    · exact isWhite_of_scan hs (Or.inl rfl) hslash hstar
    · exact isWhite_of_scan hs (Or.inr rfl) hslash hstar
  rw [whole_iff_scan, scan_between_blank hc, ← whole_iff_scan] at h
  exact ⟨hc, h⟩

/-- **A line is cut off as a whole text.** -/
theorem whole_cutLine (n : Nat) (h : Whole s) : Whole (cutLine n (triviaFrom n s) s) := by
  fun_induction triviaFrom n s with
  | case1 n => exact Gap.nil.whole
  | case2 n rest ih => simpa [cutLine] using Gap.nil.whole
  | case3 n rest cut ih =>
    have hline :
        cutLine (n + 2 + cut.1.length) (triviaFrom (n + 2 + cut.1.length) cut.2) cut.2 = [] := by
      rcases cutAtNewline_snd rest with hnil | ⟨r, hr⟩
      · simp [cut, hnil, triviaFrom, cutLine]
      · simp [cut, hr, triviaFrom, cutLine]
    have hrest : '/' :: '/' :: rest = ('/' :: '/' :: cut.1) ++ cut.2 := by
      simp [cut, Text.cutAtNewline_append]
    rw [hrest, ← List.singleton_append, cutLine_append (by simp; omega) (by simp)
      fun p hp => le_of_mem_triviaFrom hp, hline, List.append_nil, whole_iff_scan]
    exact Or.inr (scan_line_of_not_mem (not_mem_cutAtNewline rest))
  | case4 n rest body after hcut ih =>
    obtain ⟨cut, rest', hcut', hrest'⟩ := exists_cut_of_whole h
    obtain ⟨rfl, rfl⟩ : body = cut ∧ after = rest' := by simpa [hcut] using hcut'
    have hrest : '/' :: '*' :: rest = ('/' :: '*' :: body) ++ after := by
      simp [append_of_cutAtClose hcut]
    have hgap : Gap ('/' :: '*' :: body) := by
      rw [gap_iff_scan]
      simpa using scan_blockComment hcut []
    rw [hrest, ← List.singleton_append, cutLine_append (by simp; omega) (by simp)
      fun p hp => le_of_mem_triviaFrom hp]
    exact hgap.append_whole (ih hrest')
  | case5 n rest hcut =>
    obtain ⟨cut, rest', hcut', -⟩ := exists_cut_of_whole h
    simp [hcut] at hcut'
  | case6 n c rest hnewline hslash hstar ih =>
    obtain ⟨hc, hrest⟩ := h.of_cons hslash hstar
    rw [← List.singleton_append (x := c), ← List.nil_append (triviaFrom _ _),
      cutLine_append (by simp) (by simp) fun p hp => le_of_mem_triviaFrom hp]
    exact (Gap.blank hc .nil).append_whole (ih hrest)

/-- **The comment on the line of the token in front is whole**. -/
theorem whole_sameLine (h : Whole s) : Whole (sameLine s) := by
  have hcut := whole_cutLine 0 h
  rw [sameLine, locatedTrivia]
  split
  · exact Gap.nil.whole
  · rename_i n t rest hts
    split
    · rw [hts, cutLine] at hcut
      exact hcut
    · exact Gap.nil.whole

end EnvManifest
