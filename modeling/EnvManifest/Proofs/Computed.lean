import Mathlib.Logic.Basic

/-!
# Answers that are computed

Whether a computation has an answer, and whether something holds of it, is settled by
computing: there is one answer to look at, or none. With that a statement that some fixed
input is of a kind, such as that it is loaded as a manifest in which a name is not found, is
decided as it stands, and needs no test of its own beside it.
-/

namespace EnvManifest

variable {ε α : Type}

section Ok

variable (x : Except ε α)

instance decidableExistsOk : Decidable (∃ a, x = .ok a) :=
  match x with
  | .ok a => isTrue ⟨a, rfl⟩
  | .error _ => isFalse (by simp)

instance decidableExistsError : Decidable (∃ e, x = .error e) :=
  match x with
  | .ok _ => isFalse (by simp)
  | .error e => isTrue ⟨e, rfl⟩

instance decidableEqOk [DecidableEq α] (a : α) : Decidable (x = .ok a) :=
  match x with
  | .ok b => decidable_of_iff (b = a) (by simp)
  | .error _ => isFalse (by simp)

instance decidableEqError [DecidableEq ε] (e : ε) : Decidable (x = .error e) :=
  match x with
  | .ok _ => isFalse (by simp)
  | .error f => decidable_of_iff (f = e) (by simp)

variable (P : α → Prop) [DecidablePred P]

instance decidableExistsOkAnd : Decidable (∃ a, x = .ok a ∧ P a) :=
  match x with
  | .ok a => decidable_of_iff (P a) (by simp)
  | .error _ => isFalse (by simp)

instance decidableForallOk : Decidable (∀ a, x = .ok a → P a) :=
  match x with
  | .ok a => decidable_of_iff (P a) (by simp)
  | .error _ => isTrue (by simp)

end Ok

instance decidableExistsErrorAnd (x : Except ε α) (P : ε → Prop) [DecidablePred P] :
    Decidable (∃ e, x = .error e ∧ P e) :=
  match x with
  | .ok _ => isFalse (by simp)
  | .error e => decidable_of_iff (P e) (by simp)

instance decidableExistsSome (x : Option α) : Decidable (∃ a, x = some a) :=
  decidable_of_iff (x.isSome = true) Option.isSome_iff_exists

instance decidableExistsSomeAnd (x : Option α) (P : α → Prop) [DecidablePred P] :
    Decidable (∃ a, x = some a ∧ P a) :=
  match x with
  | some a => decidable_of_iff (P a) (by simp)
  | none => isFalse (by simp)

end EnvManifest
