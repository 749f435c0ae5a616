import EnvManifest.Proofs.Grammar
import EnvManifest.Proofs.Layout.Slot

/-!
# The grammar of strict JSON

Strict JSON has no comments and no comma behind a last child. `IsJson blank o s` says that
the text `s` is derived with the outline `o`, `blank` being what may stand between two
tokens: spaces of any kind in JSON as it is written by hand (`Spaces`), and nothing at all in
its compact form (`Nothing`). The tokens are those of documents, and nesting has no bound.

Such a text is a document of the wider grammar, but for the bound on nesting
(`Strict.IsValue.loose`).
-/

namespace EnvManifest

/-! ### What stands between two tokens -/

/-- Nothing stands there. -/
def Nothing (s : Text) : Prop :=
  s = []

/-- What may stand between two tokens of strict JSON: some of the gaps, which can be glued. -/
structure Blanks (blank : Text → Prop) : Prop where
  append : ∀ {s t : Text}, blank s → blank t → blank (s ++ t)
  spaces : ∀ {s : Text}, blank s → Spaces s

theorem blanks_spaces : Blanks Spaces :=
  ⟨fun hs ht => hs.append ht, fun hs => hs⟩

theorem blanks_nothing : Blanks Nothing := by
  refine ⟨fun {s t} hs ht => ?_, fun {s} hs => ?_⟩
  · rw [Nothing] at hs ht ⊢
    rw [hs, ht]
    rfl
  · rw [Nothing] at hs
    subst hs
    intro c hc
    exact absurd hc List.not_mem_nil

/-! ### Derivations -/

namespace Strict

variable (blank : Text → Prop)

/-- An element with its blanks, `inner` being what its value may be. -/
inductive IsElement (inner : Outline → Text → Prop) : Outline → Text → Prop
  | mk {o : Outline} {g₁ u g₂ : Text} : blank g₁ → inner o u → blank g₂ →
      IsElement inner o (g₁ ++ (u ++ g₂))

/-- A member with its blanks, `inner` being what its value may be. -/
inductive IsMember (inner : Outline → Text → Prop) : Literal × Outline → Text → Prop
  | mk {l : Literal} {o : Outline} {g₁ g₂ g₃ u g₄ : Text} : blank g₁ → IsLiteral l → blank g₂ →
      blank g₃ → inner o u → blank g₄ →
      IsMember inner (l, o) (g₁ ++ (l.raw ++ (g₂ ++ ':' :: (g₃ ++ (u ++ g₄)))))

/-- What is listed between two brackets: at least one thing, and a comma between any two. -/
inductive Listed {α : Type} (P : α → Text → Prop) : List α → Text → Prop
  | last {a : α} {s : Text} : P a s → Listed P [a] s
  | cons {a : α} {as : List α} {s t : Text} : P a s → Listed P as t →
      Listed P (a :: as) (s ++ ',' :: t)

/-- What stands between two brackets: blanks or a list. -/
inductive Bracketed {α : Type} (P : α → Text → Prop) : List α → Text → Prop
  | empty {g : Text} : blank g → Bracketed P [] g
  | listed {as : List α} {s : Text} : Listed P as s → Bracketed P as s

/-- An object or an array, `inner` being what the values in it may be. -/
inductive IsComposite (inner : Outline → Text → Prop) : Outline → Text → Prop
  | object {ms : List (Literal × Outline)} {s : Text} :
      Bracketed blank (IsMember blank inner) ms s →
      IsComposite inner (.object ms) ('\x7b' :: (s ++ ['\x7d']))
  | array {es : List Outline} {s : Text} : Bracketed blank (IsElement blank inner) es s →
      IsComposite inner (.array es) ('[' :: (s ++ [']']))

/-- A value in which objects and arrays nest up to `d` deep. -/
def IsValue : (d : Nat) → Outline → Text → Prop
  | 0, o, s => IsLeaf o s
  | d + 1, o, s => IsLeaf o s ∨ IsComposite blank (IsValue d) o s

end Strict

/-- **Strict JSON**: a value between two blanks, nested as deep as it may be. -/
def IsJson (blank : Text → Prop) (o : Outline) (s : Text) : Prop :=
  ∃ d g₁ u g₂, s = g₁ ++ (u ++ g₂) ∧ blank g₁ ∧ Strict.IsValue blank d o u ∧ blank g₂

/-! ### Strict JSON is a document -/

namespace Strict

variable {blank : Text → Prop} {inner inner' : Outline → Text → Prop}

theorem IsElement.loose (hblank : Blanks blank) (hinner : ∀ o s, inner o s → inner' o s)
    {o : Outline} {s : Text} (h : IsElement blank inner o s) : EnvManifest.IsElement inner' o s := by
  obtain ⟨hlead, hvalue, htrail⟩ := h
  exact .mk (hblank.spaces hlead).gap (hinner _ _ hvalue) (hblank.spaces htrail).gap

theorem IsMember.loose (hblank : Blanks blank) (hinner : ∀ o s, inner o s → inner' o s)
    {m : Literal × Outline} {s : Text} (h : IsMember blank inner m s) :
    EnvManifest.IsMember inner' m s := by
  obtain ⟨hlead, hname, hbefore, hafter, hvalue, htrail⟩ := h
  exact .mk (hblank.spaces hlead).gap hname (hblank.spaces hbefore).gap
    (hblank.spaces hafter).gap (hinner _ _ hvalue) (hblank.spaces htrail).gap

theorem Listed.loose {α : Type} {P Q : α → Text → Prop} (hPQ : ∀ a s, P a s → Q a s)
    {as : List α} {s : Text} (h : Listed P as s) : EnvManifest.Listed Q as s := by
  induction h with
  | last ha => exact .last (hPQ _ _ ha)
  | cons ha _ ih => exact .cons (hPQ _ _ ha) ih

theorem Bracketed.loose (hblank : Blanks blank) {α : Type} {P Q : α → Text → Prop}
    (hPQ : ∀ a s, P a s → Q a s) {as : List α} {s : Text} (h : Bracketed blank P as s) :
    EnvManifest.Bracketed Q as s := by
  cases h with
  | empty hg => exact .empty (hblank.spaces hg).gap
  | listed h => exact .listed (h.loose hPQ)

theorem IsComposite.loose (hblank : Blanks blank) (hinner : ∀ o s, inner o s → inner' o s)
    {o : Outline} {s : Text} (h : IsComposite blank inner o s) :
    EnvManifest.IsComposite inner' o s := by
  cases h with
  | object h => exact .object (h.loose hblank fun _ _ hm => hm.loose hblank hinner)
  | array h => exact .array (h.loose hblank fun _ _ he => he.loose hblank hinner)

/-- **A strict value is a value**, which may be nested deeper than it is. -/
theorem IsValue.loose (hblank : Blanks blank) {d e : Nat} (hde : d ≤ e) {o : Outline} {s : Text}
    (h : IsValue blank d o s) : EnvManifest.IsValue e o s := by
  induction d generalizing e o s with
  | zero =>
    cases e with
    | zero => exact h
    | succ e => exact Or.inl h
  | succ d ih =>
    obtain ⟨e, rfl⟩ : ∃ k, e = k + 1 := ⟨e - 1, by omega⟩
    rcases h with h | h
    · exact Or.inl h
    · exact Or.inr (h.loose hblank fun _ _ hv => ih (by omega) hv)

end Strict

end EnvManifest
