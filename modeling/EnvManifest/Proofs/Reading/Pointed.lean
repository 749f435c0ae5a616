import EnvManifest.Document.Parser
import EnvManifest.Proofs.Reading.Completion

/-!
# Faults that point at a character

A fault has a cause and what was left of the input. Some causes speak of a character, and the
message that is made of the two quotes the first one that is left. So wherever a parser stops for
such a cause, it has to stop in front of a character, and if the cause is a slash, in front of a
slash (`Fault.Pointed`). That it does is proved for one parser after the other, from the sequence on
(`Parser.pointed_bind`) up to documents (`Value.pointed_readTo`).
-/

namespace EnvManifest

/-! ### Faults that point at a character -/

/-- A fault whose cause is a character has one: it stands first in what is left. A slash that opens
no comment is left itself. -/
def Fault.Pointed (f : Fault) : Prop :=
  match f.cause with
  | .slash => f.rest.head? = some '/'
  | .trailing | .controlInString | .badEscape => f.rest ≠ []
  | _ => True

/-- The fault of an answer, if it is one, has the character that it speaks of. -/
def Pointed {α : Type} (x : Except Fault α) : Prop :=
  ∀ f, x = .error f → f.Pointed

variable {α β : Type}

theorem pointed_ok (a : α) : Pointed (.ok a : Except Fault α) := by
  intro f h
  simp at h

theorem pointed_error {f : Fault} (h : f.Pointed) : Pointed (.error f : Except Fault α) := by
  intro g hg
  exact Except.error.inj hg ▸ h

theorem Fault.pointed_of_head?_eq_slash {f : Fault} (h : f.rest.head? = some '/') : f.Pointed := by
  have hne : f.rest ≠ [] := by
    intro hnil
    simp [hnil] at h
  rw [Fault.Pointed]
  split
  · exact h
  · exact hne
  · exact hne
  · exact hne
  · trivial

namespace Parser

/-! ### Sequences -/

theorem pointed_bind {p : Parser α} {f : α → Parser β} (hp : ∀ s, Pointed (p.run s))
    (hf : ∀ a s, Pointed ((f a).run s)) (s : Text) : Pointed ((p >>= f).run s) := by
  rw [run_bind]
  split
  · exact hf _ _
  · rename_i e h
    exact pointed_error (hp s e h)

theorem pointed_pure (a : α) (s : Text) : Pointed ((pure a : Parser α).run s) :=
  pointed_ok _

theorem pointed_peek (s : Text) : Pointed (peek.run s) :=
  pointed_ok _

theorem pointed_skip (s : Text) : Pointed (skip.run s) :=
  pointed_ok _

/-- To stop at something unexpected is to say what is left, or that nothing is. -/
theorem pointed_unexpected (e : Expectation) (s : Text) :
    Pointed ((stop (.unexpected e) : Parser α).run s) :=
  pointed_error trivial

theorem pointed_spelled {p : Parser α} (hp : ∀ s, Pointed (p.run s)) (s : Text) :
    Pointed (p.spelled.run s) := by
  simp only [spelled]
  split
  · exact pointed_ok _
  · rename_i e h
    exact pointed_error (hp s e h)

theorem pointed_lexeme {p : Parser Unit} (hp : ∀ s, Pointed (p.run s)) (s : Text) :
    Pointed (p.lexeme.run s) :=
  pointed_bind (pointed_spelled hp) (fun _ => pointed_pure _) s

/-! ### Slots, words and numbers -/

theorem pointed_slot (s : Text) : Pointed (slot.run s) := by
  refine pointed_lexeme (fun s f h => ?_) s
  obtain ⟨-, -, -, hhead⟩ := gap_of_passSlot_error h
  exact Fault.pointed_of_head?_eq_slash hhead

theorem pointed_word (w s : Text) : Pointed ((word w).run s) := by
  simp only [word]
  split
  · exact pointed_ok _
  · exact pointed_error trivial

theorem pointed_digits (e : Expectation) (s : Text) : Pointed ((digits e).run s) := by
  intro f h
  rw [run_digits_error h]
  trivial

theorem pointed_minus (s : Text) : Pointed (minus.run s) := by
  refine pointed_bind pointed_peek (fun c => ?_) s
  split
  · exact pointed_skip
  · exact pointed_pure ()

theorem pointed_integer (s : Text) : Pointed (integer.run s) := by
  refine pointed_bind pointed_peek (fun c => ?_) s
  split
  · exact pointed_skip
  · exact pointed_digits .integer

theorem pointed_fraction (s : Text) : Pointed (fraction.run s) := by
  refine pointed_bind pointed_peek (fun c => ?_) s
  split
  · exact pointed_bind pointed_skip fun _ => pointed_digits .fraction
  · exact pointed_pure ()

theorem pointed_sign (s : Text) : Pointed (sign.run s) := by
  refine pointed_bind pointed_peek (fun c => ?_) s
  split
  · exact pointed_skip
  · exact pointed_pure ()

theorem pointed_exponent (s : Text) : Pointed (exponent.run s) := by
  refine pointed_bind pointed_peek (fun c => ?_) s
  split
  · exact pointed_bind pointed_skip fun _ =>
      pointed_bind pointed_sign fun _ => pointed_digits .exponent
  · exact pointed_pure ()

theorem pointed_number (s : Text) : Pointed (number.run s) :=
  pointed_lexeme (pointed_bind pointed_minus fun _ => pointed_bind pointed_integer fun _ =>
    pointed_bind pointed_fraction fun _ => pointed_exponent) s

/-! ### Literals -/

theorem pointed_readUnit (s : Text) : Pointed (readUnit s) := by
  fun_cases readUnit s with
  | case1 => exact pointed_ok _
  | case2 => exact pointed_error trivial
  | case3 => exact pointed_error trivial

theorem pointed_readLowSurrogate (s : Text) : Pointed (readLowSurrogate s) := by
  fun_cases readLowSurrogate s with
  | case1 => exact pointed_ok _
  | case2 => exact pointed_ok _
  | case3 rest e h => exact pointed_error (pointed_readUnit rest e h)
  | case4 => exact pointed_ok _

theorem pointed_unicodeEscape (s : Text) : Pointed (unicodeEscape.run s) := by
  refine pointed_bind pointed_readUnit (fun high => ?_) s
  split
  · refine pointed_bind pointed_readLowSurrogate fun low => ?_
    cases low with
    | some low => exact pointed_pure _
    | none => exact pointed_pure _
  · exact pointed_pure _

/-- An escape is bad only if there is a character to escape. -/
theorem pointed_escape (s : Text) : Pointed (escape.run s) := by
  rw [escape, run_bind, run_peek]
  cases s with
  | nil => exact pointed_error trivial
  | cons c s =>
    simp only [List.head?_cons]
    split
    · exact pointed_bind pointed_skip (fun _ => pointed_pure _) _
    · split
      · exact pointed_bind pointed_skip (fun _ => pointed_unicodeEscape) _
      · exact pointed_error (List.cons_ne_nil c s)

theorem pointed_readBody (s : Text) : Pointed (readBody s) := by
  fun_induction readBody s with
  | case1 => exact pointed_error trivial
  | case2 => exact pointed_ok _
  | case3 => exact pointed_ok _
  | case4 rest c after h e heq ih => exact pointed_error (ih e heq)
  | case5 rest e h => exact pointed_error (pointed_escape rest e h)
  | case6 c rest => exact pointed_error (List.cons_ne_nil c rest)
  | case7 => exact pointed_ok _
  | case8 c rest _ _ _ e heq ih => exact pointed_error (ih e heq)

theorem pointed_literal (s : Text) : Pointed (literal.run s) :=
  pointed_bind (pointed_spelled (pointed_bind pointed_skip fun _ => pointed_readBody))
    (fun _ => pointed_pure _) s

/-! ### Objects and arrays -/

theorem pointed_key (s : Text) : Pointed (key.run s) := by
  refine pointed_bind pointed_peek (fun c => ?_) s
  split
  · refine pointed_bind pointed_literal fun name => pointed_bind pointed_slot fun before =>
      pointed_bind pointed_peek fun d => ?_
    split
    · exact pointed_bind pointed_skip fun _ => pointed_bind pointed_slot fun _ => pointed_pure _
    · exact pointed_unexpected .colon
  · exact pointed_unexpected .key

variable {κ : Type} {i : Inside κ} {node : Parser Node}

theorem pointed_child (hlabel : ∀ s, Pointed (i.label.run s)) (hnode : ∀ s, Pointed (node.run s))
    (lead s : Text) : Pointed ((i.child node lead).run s) :=
  pointed_bind hlabel (fun _ => pointed_bind hnode fun _ => pointed_bind pointed_slot fun _ =>
    pointed_pure _) s

theorem pointed_children (hlabel : ∀ s, Pointed (i.label.run s))
    (hnode : ∀ s, Pointed (node.run s)) (s : Text) : Pointed ((children i node).run s) := by
  suffices h : ∀ first, Pointed (readChildren i node first s) from h true
  intro first
  fun_induction readChildren i node first s with
  | case1 first s e hl => exact pointed_error (pointed_slot s e hl)
  | case2 => exact pointed_ok _
  | case3 first s lead s₁ hl _ e hc =>
    exact pointed_error (pointed_child hlabel hnode lead s₁ e hc)
  | case4 => exact pointed_error trivial
  | case5 => exact pointed_ok _
  | case6 first s lead s₁ hl _ c s₂ e heq hc ih => exact pointed_error (ih e heq)
  | case7 => exact pointed_ok _
  | case8 => exact pointed_error trivial

theorem pointed_nodeAround {inner : Option (Parser Node)}
    (hinner : ∀ p ∈ inner, ∀ s, Pointed (p.run s)) (s : Text) :
    Pointed ((nodeAround inner).run s) := by
  refine pointed_bind pointed_peek (fun c => ?_) s
  split
  · split
    · rename_i p
      exact pointed_bind pointed_skip fun _ =>
        pointed_bind (pointed_children (i := insideObject) pointed_key (hinner p rfl)) fun _ =>
          pointed_pure _
    · exact fun s => pointed_error trivial
  · split
    · rename_i p
      exact pointed_bind pointed_skip fun _ =>
        pointed_bind (pointed_children (i := insideArray) (pointed_pure ()) (hinner p rfl))
          fun _ => pointed_pure _
    · exact fun s => pointed_error trivial
  · exact pointed_bind pointed_literal fun _ => pointed_pure _
  · exact pointed_bind (pointed_word _) fun _ => pointed_pure _
  · exact pointed_bind (pointed_word _) fun _ => pointed_pure _
  · exact pointed_bind (pointed_word _) fun _ => pointed_pure _
  · split
    · exact pointed_bind pointed_number fun _ => pointed_pure _
    · exact pointed_unexpected .value
  · exact pointed_unexpected .value

theorem pointed_node (d : Nat) : ∀ s, Pointed ((Parser.node d).run s) := by
  induction d with
  | zero => exact pointed_nodeAround (by simp)
  | succ d ih =>
    refine pointed_nodeAround fun p hp => ?_
    obtain rfl := Option.mem_some_iff.1 hp
    exact ih

theorem pointed_value (d : Nat) (s : Text) : Pointed ((value d).run s) :=
  pointed_bind pointed_slot (fun _ => pointed_bind (pointed_node d) fun _ =>
    pointed_bind pointed_slot fun _ => pointed_pure _) s

end Parser

/-- **Every fault has the character that it speaks of.** -/
theorem Value.pointed_readTo (d : Nat) (s : Text) : Pointed (readTo d s) := by
  rw [readTo]
  split
  · exact pointed_ok _
  · rename_i v rest hne hrun
    exact pointed_error hne
  · rename_i e h
    exact pointed_error (Parser.pointed_value d s e h)

end EnvManifest
