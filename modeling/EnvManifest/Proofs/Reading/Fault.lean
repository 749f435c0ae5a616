import EnvManifest.Proofs.Reading.Complete
import EnvManifest.Proofs.Reading.Completion
import Mathlib.Data.List.DropRight

/-!
# Where a malformed document was still good

A syntax error points at a place in the document. In front of that place there is nothing that is
wrong by itself: it can be completed to a document that is accepted (`Value.exists_parse_of_error`).
This holds at every exit of the parser, in the middle of a literal and at the depth limit too, since
a node is completed within the depth that it may have (`Parser.completes_node`): where an object or
an array would be too deep, a leaf may stand.

The loop over children is completed case by case (`completable_readChildren`): what is in front of a
child is completed with a bracket, and what is in front of a comma or a bracket is a child.
-/

namespace EnvManifest

/-! ### What stands between brackets -/

section Children

variable {κ α : Type} {i : Inside κ} {node : Parser Node} {P : α → Text → Prop}

/-- The texts that something stands for. -/
def texts (P : α → Text → Prop) : Language Char :=
  {t | ∃ a, P a t}

/-- What is listed between brackets, with the bracket that closes it. -/
def closed (P : α → Text → Prop) (close : Char) : Language Char :=
  {t | ∃ as s, t = s ++ [close] ∧ Bracketed P as s}

variable {close : Char}

theorem mem_closed_of_gap : ∀ t ∈ gaps * {[close]}, t ∈ closed P close := by
  rintro _ ⟨g, hg, _, rfl, rfl⟩
  exact ⟨[], g, rfl, .empty hg⟩

theorem mem_closed_of_text : ∀ t ∈ texts P * {[close]}, t ∈ closed P close := by
  rintro _ ⟨t, ⟨a, ha⟩, _, rfl, rfl⟩
  exact ⟨[a], t, rfl, .listed (.last ha)⟩

theorem mem_closed_of_comma :
    ∀ t ∈ texts P * ({[',']} * closed P close), t ∈ closed P close := by
  rintro _ ⟨t, ⟨a, ha⟩, _, ⟨_, rfl, _, ⟨as, s, rfl, hs⟩, rfl⟩, rfl⟩
  cases hs with
  | empty hg => exact ⟨[a], t ++ ',' :: s, by simp, .listed (.trailing ha hg)⟩
  | listed hs => exact ⟨a :: as, t ++ ',' :: s, by simp, .listed (.cons ha hs)⟩

/-- **What is read between two brackets can be completed**, if a child can be. -/
theorem completable_readChildren {C : Language Char}
    (hchild : ∀ lead s, Completable C s ((i.child node lead).run s))
    (hC : ∀ t ∈ gaps * C, t ∈ texts P) (first : Bool) (s : Text) :
    Completable (closed P i.close) s (readChildren i node first s) := by
  have hclose : [i.close] ∈ ({[i.close]} : Language Char) := Set.mem_singleton _
  -- a child with the slot in front of it
  have hone {s s₁ lead} {x : Except Fault (Child κ Node × Text)}
      (hl : Parser.slot.run s = .ok (lead, s₁)) (hc : (i.child node lead).run s₁ = x) :
      Completable (texts P) s x := by
    have hslot := Parser.completable_slot s
    rw [hl] at hslot
    exact (hslot.append (hc ▸ hchild lead s₁)).mono hC
  -- and with a comma and more children behind it
  have hmore {s s₁ s₂ lead c} {x : Except Fault (Composite κ Node × Text)}
      (hl : Parser.slot.run s = .ok (lead, s₁))
      (hc : (i.child node lead).run s₁ = .ok (c, ',' :: s₂))
      (hx : Completable (closed P i.close) s₂ x) : Completable (closed P i.close) s x := by
    have hrest := (Parser.completable_skip ',' s₂).append hx
    exact ((hone hl hc).append hrest).mono mem_closed_of_comma
  fun_induction readChildren i node first s with
  | case1 first s e hl =>
    have hslot := Parser.completable_slot s
    rw [hl] at hslot
    exact (hslot.behind hclose).mono mem_closed_of_gap
  | case2 first s lead s₁ hl hhead =>
    obtain ⟨rest, rfl⟩ := List.head?_eq_some_iff.1 hhead
    have hslot := Parser.completable_slot s
    rw [hl] at hslot
    exact (hslot.append (Parser.completable_skip i.close rest)).mono mem_closed_of_gap
  | case3 first s lead s₁ hl _ e hc =>
    exact ((hone hl hc).behind hclose).mono mem_closed_of_text
  | case4 first s lead s₁ hl _ c hc =>
    exact (hone hl hc).stop hclose |>.mono mem_closed_of_text
  | case5 first s lead s₁ hl _ c s₂ rest left heq hc ih =>
    rw [heq] at ih
    exact hmore hl hc ih
  | case6 first s lead s₁ hl _ c s₂ e heq hc ih =>
    rw [heq] at ih
    exact hmore hl hc ih
  | case7 first s lead s₁ hl _ c s₂ hc _ =>
    exact ((hone hl hc).append (Parser.completable_skip i.close s₂)).mono mem_closed_of_text
  | case8 first s lead s₁ hl _ c d s₂ hc _ _ =>
    exact (hone hl hc).stop hclose |>.mono mem_closed_of_text

/-- A child is completed if its label and its node are. -/
theorem completable_child {K V : Language Char} {t : Text}
    (hlabel : ∀ s, Completable K s (i.label.run s)) (hnode : ∀ s, Completable V s (node.run s))
    (ht : t ∈ V) (lead s : Text) : Completable (K * (V * gaps)) s ((i.child node lead).run s) := by
  have hgap := Language.append_mem_mul ht nil_mem_gaps
  refine Parser.completable_bind (hlabel s) hgap fun k s _ => ?_
  refine Parser.completable_bind (hnode s) nil_mem_gaps fun n s _ => ?_
  exact Parser.completable_bind_pure (Parser.completable_slot s) _

end Children

namespace Parser

/-! ### Members and elements -/

/-- The language of names with their colons. -/
def keys : Language Char :=
  literals * (gaps * ({[':']} * gaps))

theorem completable_key (s : Text) : Completable keys s (key.run s) := by
  have hliteral : Literal.spell [] ∈ literals := ⟨_, isLiteral_ofText [], rfl⟩
  have hcolon := Language.append_mem_mul (Set.mem_singleton [':']) nil_mem_gaps
  have hbefore := Language.append_mem_mul nil_mem_gaps hcolon
  rw [key, run_bind, run_peek]
  simp only
  split
  · rename_i hquote
    obtain ⟨s, rfl⟩ := List.head?_eq_some_iff.1 hquote
    refine completable_bind (completable_literal s) hbefore fun name s _ => ?_
    refine completable_bind (completable_slot s) hcolon fun before s _ => ?_
    rw [run_bind, run_peek]
    simp only
    split
    · rename_i hhead
      obtain ⟨s, rfl⟩ := List.head?_eq_some_iff.1 hhead
      refine completable_bind (completable_skip ':' s) nil_mem_gaps fun _ s _ => ?_
      exact completable_bind_pure (completable_slot s) _
    · exact completable_error hcolon _ s
  · exact completable_error (Language.append_mem_mul hliteral hbefore) _ s

/-! ### Nodes -/

/-- The answers of a parser of nodes can be completed to what `P` derives, and `P` derives
something. -/
structure Completes (p : Parser Node) (P : Outline → Text → Prop) : Prop where
  run : ∀ s, Completable (texts P) s (p.run s)
  inhabited : ∃ o t, P o t

variable {p : Parser Node} {P : Outline → Text → Prop}

theorem Completes.object (h : p.Completes P) (s : Text) :
    Completable (closed (IsMember P) '\x7d') s ((children insideObject p).run s) := by
  obtain ⟨o, t, ht⟩ := h.inhabited
  refine completable_readChildren (i := insideObject)
    (completable_child completable_key h.run ⟨o, ht⟩) ?_ true s
  rintro _ ⟨g₁, h₁, _, ⟨_, ⟨_, ⟨l, hl, rfl⟩, _, ⟨g₂, h₂, _, ⟨_, rfl, g₃, h₃, rfl⟩, rfl⟩, rfl⟩, _,
    ⟨u, ⟨o, hu⟩, g₄, h₄, rfl⟩, rfl⟩, rfl⟩
  exact ⟨(l, o), by simpa using IsMember.mk h₁ hl h₂ h₃ hu h₄⟩

theorem Completes.array (h : p.Completes P) (s : Text) :
    Completable (closed (IsElement P) ']') s ((children insideArray p).run s) := by
  obtain ⟨o, t, ht⟩ := h.inhabited
  refine completable_readChildren (i := insideArray)
    (completable_child (completable_pure ()) h.run ⟨o, ht⟩) ?_ true s
  rintro _ ⟨g₁, h₁, _, ⟨_, rfl, _, ⟨u, ⟨o, hu⟩, g₂, h₂, rfl⟩, rfl⟩, rfl⟩
  change ∃ o, IsElement P o (g₁ ++ (u ++ g₂))
  exact ⟨o, .mk h₁ hu h₂⟩

/-- Behind an opening bracket, children and their closing bracket are completed. -/
theorem completable_composite {κ α : Type} {i : Inside κ} {A : α → Text → Prop}
    (hchildren : ∀ s, Completable (closed A i.close) s ((children i p).run s)) {V : Language Char}
    {opening : Char} (hV : ∀ as t, Bracketed A as t → opening :: (t ++ [i.close]) ∈ V)
    (make : Composite κ Node → Node) (s : Text) :
    Completable V (opening :: s)
      ((skip >>= fun _ => children i p >>= fun c => pure (make c)).run (opening :: s)) := by
  have hempty : [i.close] ∈ closed A i.close := ⟨[], [], rfl, .empty .nil⟩
  refine (completable_bind (completable_skip opening s) hempty fun _ s _ =>
    completable_bind_pure (hchildren s) make).mono ?_
  rintro _ ⟨_, rfl, _, ⟨as, t, rfl, has⟩, rfl⟩
  exact hV as t has

/-- **One layer of nodes can be completed** if the nodes in it can be, to leaves and to the
composites of what is read in it. -/
theorem completable_nodeAround {inner : Option (Parser Node)} {V : Language Char}
    (hleaf : ∀ o t, IsLeaf o t → t ∈ V)
    (hinner : ∀ p ∈ inner, ∃ P, p.Completes P ∧ ∀ o t, IsComposite P o t → t ∈ V) (s : Text) :
    Completable V s ((nodeAround inner).run s) := by
  have hnull := hleaf _ _ .null
  have hword (w : Text) (n : Node) (hw : w ∈ V) (s : Text) :
      Completable V s ((word w >>= fun _ => pure n).run s) :=
    (completable_bind_pure (completable_word w s) fun _ => n).mono fun t ht => ht ▸ hw
  unfold nodeAround
  rw [run_bind, run_peek]
  simp only
  split
  · -- an object, unless it is too deep
    rename_i hhead
    split
    · rename_i p
      obtain ⟨P, hp, hcomposite⟩ := hinner p rfl
      obtain ⟨s, rfl⟩ := List.head?_eq_some_iff.1 hhead
      exact completable_composite hp.object (fun _ _ hms => hcomposite _ _ (.object hms)) _ s
    · exact completable_error hnull _ s
  · -- an array, unless it is too deep
    rename_i hhead
    split
    · rename_i p
      obtain ⟨P, hp, hcomposite⟩ := hinner p rfl
      obtain ⟨s, rfl⟩ := List.head?_eq_some_iff.1 hhead
      exact completable_composite hp.array (fun _ _ hes => hcomposite _ _ (.array hes)) _ s
    · exact completable_error hnull _ s
  · rename_i hhead
    obtain ⟨s, rfl⟩ := List.head?_eq_some_iff.1 hhead
    refine (completable_bind_pure (completable_literal s) _).mono ?_
    rintro _ ⟨l, hl, rfl⟩
    exact hleaf _ _ (.string hl)
  · exact hword _ _ (hleaf _ _ .true) s
  · exact hword _ _ (hleaf _ _ .false) s
  · exact hword _ _ hnull s
  · split
    · exact (completable_bind_pure (completable_number s) _).mono fun t ht => hleaf _ _ (.number ht)
    · exact completable_error hnull _ s
  · exact completable_error hnull _ s

/-- **A node can be completed**, within the depth that it may have. -/
theorem completes_node (d : Nat) : (node d).Completes (IsValue d) := by
  induction d with
  | zero =>
    refine ⟨completable_nodeAround (fun o t ht => ⟨o, ht⟩) (by simp), _, _, IsLeaf.null⟩
  | succ d ih =>
    refine ⟨completable_nodeAround (fun o t ht => ⟨o, Or.inl ht⟩) ?_, _, _, Or.inl IsLeaf.null⟩
    intro p hp
    obtain rfl := Option.mem_some_iff.1 hp
    exact ⟨IsValue d, ih, fun o t ht => ⟨o, Or.inr ht⟩⟩

end Parser

/-! ### Documents -/

/-- **Where a document stops being good, it can still be completed.** -/
theorem exists_isDocument_of_readTo {s : Text} {f : Fault}
    (h : Value.readTo maxDepth s = .error f) :
    ∃ front ext o, front ++ f.rest = s ∧ IsDocument o (front ++ ext) := by
  have hvalue : Completable (gaps * (texts (IsValue maxDepth) * gaps)) s
      ((Parser.value maxDepth).run s) := by
    obtain ⟨hnode, o, t, ht⟩ := Parser.completes_node maxDepth
    have hmem : t ∈ texts (IsValue maxDepth) := ⟨o, ht⟩
    refine Parser.completable_bind (Parser.completable_slot s)
      (Language.append_mem_mul hmem nil_mem_gaps) fun lead s _ => ?_
    refine Parser.completable_bind (hnode s) nil_mem_gaps fun n s _ => ?_
    exact Parser.completable_bind_pure (Parser.completable_slot s) _
  have hdocument : ∀ t ∈ gaps * (texts (IsValue maxDepth) * gaps), ∃ o, IsDocument o t := by
    rintro _ ⟨g₁, h₁, _, ⟨u, ⟨o, hu⟩, g₂, h₂, rfl⟩, rfl⟩
    exact ⟨o, g₁, u, g₂, rfl, h₁, hu, Gap.whole h₂⟩
  simp only [Value.readTo] at h
  split at h <;> rename_i hrun <;> rw [hrun] at hvalue
  · simp at h
  · -- something is left behind a document
    obtain rfl := Except.error.inj h
    obtain ⟨front, ext, happ, hmem, -⟩ := hvalue
    obtain ⟨o, ho⟩ := hdocument _ hmem
    exact ⟨front, ext, o, happ, ho⟩
  · obtain rfl := Except.error.inj h
    obtain ⟨front, ext, happ, hmem⟩ := hvalue
    obtain ⟨o, ho⟩ := hdocument _ hmem
    exact ⟨front, ext, o, happ, ho⟩

/-! ### Places -/

/-- A place is that behind a text: as many octets are in front of it, and the line and the column
of the next character are counted from one. -/
structure Position.Behind (p : Position) (front : Text) : Prop where
  offset : p.offset = (Text.utf8 front).length
  line : p.line = 1 + front.count '\n'
  column : ∃ lines last, front = lines ++ last ∧ '\n' ∉ last ∧
    (lines = [] ∨ lines.getLast? = some '\n') ∧ p.column = 1 + last.length

theorem Position.behind_after (front : Text) : (Position.after front).Behind front := by
  refine ⟨(Text.length_utf8 front).symm, Nat.add_comm _ _,
    front.rdropWhile (· != '\n'), front.rtakeWhile (· != '\n'), ?_, ?_, ?_, ?_⟩
  · exact List.rdropWhile_append_rtakeWhile.symm
  · intro hmem
    simpa using List.mem_rtakeWhile_imp hmem
  · by_cases hlines : front.rdropWhile (· != '\n') = []
    · exact Or.inl hlines
    · have hlast := List.rdropWhile_last_not _ _ hlines
      rw [List.getLast?_eq_getLast_of_ne_nil hlines]
      exact Or.inr (by simpa using hlast)
  · simp [Position.after, countSince, List.rtakeWhile, Nat.add_comm, bne]

namespace Value

/-- **A syntax error points at a place up to which the document was still good**: in front of it
stands a part of the document that can be completed to a document that is accepted, and offset,
line and column are counted on that part. -/
theorem exists_parse_of_error {s : Text} {e : SyntaxError} (h : parse s = .error e) :
    e.position.offset ≤ (Text.utf8 s).length ∧
      ∃ front rest, s = front ++ rest ∧ e.position.Behind front ∧
        ∃ ext v, parse (front ++ ext) = .ok v := by
  simp only [parse, read] at h
  split at h
  · simp at h
  · rename_i f hread
    obtain rfl := Except.error.inj h
    obtain ⟨front, ext, o, rfl, hdocument⟩ := exists_isDocument_of_readTo hread
    obtain ⟨v, hv, -⟩ := exists_parse_of_isDocument hdocument
    have hbehind : ((f.report (front ++ f.rest)).position).Behind front := by
      rw [Fault.report, Position.of, Parser.consumed_append_self]
      exact Position.behind_after front
    refine ⟨?_, front, f.rest, rfl, hbehind, ext, v, hv⟩
    rw [hbehind.offset, Text.utf8_append, List.length_append]
    exact Nat.le_add_right _ _

/-- The second half of a pair whose digits are cut off, behind a character of two octets. -/
theorem exists_parse_of_error_halved :
    ∃ e, parse "// a\n\x7b\"é\": [\"\\ud83d\\ude0".toList = .error e ∧
      e.position.offset ≤ (Text.utf8 "// a\n\x7b\"é\": [\"\\ud83d\\ude0".toList).length ∧
      ∃ front rest, "// a\n\x7b\"é\": [\"\\ud83d\\ude0".toList = front ++ rest ∧
        e.position.Behind front ∧ ∃ ext v, parse (front ++ ext) = .ok v := by
  obtain ⟨e, he⟩ : ∃ e, parse "// a\n\x7b\"é\": [\"\\ud83d\\ude0".toList = .error e := by
    decide +kernel
  exact ⟨e, he, exists_parse_of_error he⟩

end Value

end EnvManifest
