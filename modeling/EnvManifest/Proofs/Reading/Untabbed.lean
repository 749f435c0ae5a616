import EnvManifest.Manifest.Basic
import EnvManifest.Proofs.Reading.Number

/-!
# Saving without tabs

A manifest is saved with two spaces for every tab. A tab can stand in a gap only: a
literal has none, since control characters are written as escapes, and neither does any
other token (`IsLeaf.tab_not_mem`). And to the reader of a gap a tab is two spaces
(`scan_untabbed`), be it between tokens or in a comment. So a document without tabs is
the document it was (`IsDocument.untabbed`).
-/

namespace EnvManifest

open Manifest (untabbed)

/-! ### Tabs in gaps -/

theorem untabbed_append (s t : Text) : untabbed (s ++ t) = untabbed s ++ untabbed t :=
  List.flatMap_append

theorem untabbed_cons (c : Char) (s : Text) :
    untabbed (c :: s) = (if c = '\t' then [' ', ' '] else [c]) ++ untabbed s :=
  List.flatMap_cons

theorem untabbed_cons_of_ne {c : Char} (h : c ≠ '\t') (s : Text) :
    untabbed (c :: s) = c :: untabbed s := by
  rw [untabbed_cons, if_neg h]
  rfl

theorem untabbed_eq_self {s : Text} (h : '\t' ∉ s) : untabbed s = s := by
  induction s with
  | nil => rfl
  | cons c s ih =>
    obtain ⟨hc, hs⟩ : '\t' ≠ c ∧ '\t' ∉ s := by simpa using h
    rw [untabbed_cons_of_ne hc.symm, ih hs]

/-- To the reader of a gap a tab is two spaces. -/
theorem Lexing.next_tab (q : Lexing) : q.next '\t' = (q.next ' ').bind fun r => r.next ' ' := by
  cases q <;> rfl

theorem scan_untabbed (q : Lexing) (s : Text) : scan q (untabbed s) = scan q s := by
  induction s generalizing q with
  | nil => rfl
  | cons c s ih =>
    by_cases hc : c = '\t'
    · subst hc
      have htwo : untabbed ('\t' :: s) = ' ' :: ' ' :: untabbed s := rfl
      rw [htwo, scan_cons, scan_cons, Lexing.next_tab, Option.bind_assoc]
      simp only [scan_cons, ih]
    · rw [untabbed_cons_of_ne hc, scan_cons, scan_cons]
      simp only [ih]

theorem Gap.untabbed {s : Text} (h : Gap s) : Gap (untabbed s) := by
  rw [gap_iff_scan, scan_untabbed]
  exact h.scan_eq

theorem Whole.untabbed {s : Text} (h : Whole s) : Whole (untabbed s) := by
  rw [whole_iff_scan, scan_untabbed]
  exact (whole_iff_scan s).1 h

/-! ### No tabs in tokens -/

theorem IsUnit.tab_not_mem {t : Text} {u : Nat} (h : IsUnit t u) : '\t' ∉ t := by
  obtain ⟨ha, hb, hc, hd⟩ := h
  have hne {c : Char} {x : Nat} (hx : hexValue? c = some x) : '\t' ≠ c :=
    (ne_of_hexValue? hx rfl).symm
  simp [hne ha, hne hb, hne hc, hne hd]

theorem Spells.tab_not_mem {s v : Text} (h : Spells s v) : '\t' ∉ s := by
  induction h with
  | nil => simp
  | plain hcontrol hquote hslash _ ih =>
    refine List.not_mem_cons_of_ne_of_not_mem ?_ ih
    rintro rfl
    simp at hcontrol
  | short hescape _ ih =>
    refine List.not_mem_cons_of_ne_of_not_mem (by decide) ?_
    refine List.not_mem_cons_of_ne_of_not_mem ?_ ih
    rintro rfl
    simp [escapes, List.lookup_cons] at hescape
  | unit hunit _ _ ih => simp [hunit.tab_not_mem, ih]
  | pair hhigh _ hlow _ _ ih => simp [hhigh.tab_not_mem, hlow.tab_not_mem, ih]

theorem IsLiteral.tab_not_mem {l : Literal} (h : IsLiteral l) : '\t' ∉ l.raw := by
  obtain ⟨body, hraw, hspells⟩ := h
  rw [hraw]
  simp [hspells.tab_not_mem]

/-- There is no tab in a token. -/
theorem IsLeaf.tab_not_mem {o : Outline} {t : Text} (h : IsLeaf o t) : '\t' ∉ t := by
  cases h with
  | null | true | false => decide
  | number h => exact h.not_mem (by decide) (by decide)
  | string h => exact h.tab_not_mem

/-! ### Tabs in documents -/

section Inner

variable {inner : Outline → Text → Prop}

theorem IsElement.untabbed {o : Outline} {t : Text} (h : IsElement inner o t)
    (hinner : ∀ o t, inner o t → inner o (untabbed t)) : IsElement inner o (untabbed t) := by
  obtain ⟨hlead, hvalue, htrail⟩ := h
  rw [untabbed_append, untabbed_append]
  exact .mk hlead.untabbed (hinner _ _ hvalue) htrail.untabbed

theorem IsMember.untabbed {m : Literal × Outline} {t : Text} (h : IsMember inner m t)
    (hinner : ∀ o t, inner o t → inner o (untabbed t)) : IsMember inner m (untabbed t) := by
  obtain ⟨hlead, hname, hbefore, hafter, hvalue, htrail⟩ := h
  rw [untabbed_append, untabbed_append, untabbed_append, untabbed_cons_of_ne (by decide),
    untabbed_append, untabbed_append, untabbed_eq_self hname.tab_not_mem]
  exact .mk hlead.untabbed hname hbefore.untabbed hafter.untabbed (hinner _ _ hvalue)
    htrail.untabbed

variable {α : Type} {P : α → Text → Prop} {as : List α} {t : Text}

theorem Listed.untabbed (h : Listed P as t) (hP : ∀ a t, P a t → P a (untabbed t)) :
    Listed P as (untabbed t) := by
  induction h with
  | last h => exact .last (hP _ _ h)
  | trailing h hgap =>
    rw [untabbed_append, untabbed_cons_of_ne (by decide)]
    exact .trailing (hP _ _ h) hgap.untabbed
  | cons h _ ih =>
    rw [untabbed_append, untabbed_cons_of_ne (by decide)]
    exact .cons (hP _ _ h) ih

theorem Bracketed.untabbed (h : Bracketed P as t) (hP : ∀ a t, P a t → P a (untabbed t)) :
    Bracketed P as (untabbed t) := by
  cases h with
  | empty hgap => exact .empty hgap.untabbed
  | listed h => exact .listed (h.untabbed hP)

theorem IsComposite.untabbed {o : Outline} (h : IsComposite inner o t)
    (hinner : ∀ o t, inner o t → inner o (untabbed t)) : IsComposite inner o (untabbed t) := by
  cases h with
  | object h =>
    rw [untabbed_cons_of_ne (by decide), untabbed_append]
    exact .object (h.untabbed fun _ _ hm => hm.untabbed hinner)
  | array h =>
    rw [untabbed_cons_of_ne (by decide), untabbed_append]
    exact .array (h.untabbed fun _ _ he => he.untabbed hinner)

end Inner

theorem IsLeaf.untabbed {o : Outline} {t : Text} (h : IsLeaf o t) : IsLeaf o (untabbed t) := by
  rw [untabbed_eq_self h.tab_not_mem]
  exact h

theorem IsValue.untabbed {d : Nat} {o : Outline} {t : Text} (h : IsValue d o t) :
    IsValue d o (untabbed t) := by
  induction d generalizing o t with
  | zero => exact IsLeaf.untabbed h
  | succ d ih =>
    rcases h with hleaf | hcomposite
    · exact Or.inl hleaf.untabbed
    · exact Or.inr (hcomposite.untabbed fun _ _ hv => ih hv)

/-- **A document saved without tabs is the document that it was.** -/
theorem IsDocument.untabbed {o : Outline} {s : Text} (h : IsDocument o s) :
    IsDocument o (untabbed s) := by
  obtain ⟨lead, u, trail, rfl, hlead, hvalue, htrail⟩ := h
  exact ⟨_, _, _, by rw [untabbed_append, untabbed_append], hlead.untabbed, hvalue.untabbed,
    htrail.untabbed⟩

end EnvManifest
