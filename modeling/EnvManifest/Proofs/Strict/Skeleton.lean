import EnvManifest.Proofs.Comments.Text
import EnvManifest.Proofs.Reading.Number
import EnvManifest.Proofs.Strict.Grammar

/-!
# Strict JSON as it is seen in the text

Strict JSON is a document without comments and without a comma behind a last child. This file says
that of the text itself, with no tree and no derivation. `Text.comments` lists the comments of a
text; its `Text.skeleton` is what is left without them, without blanks and without what is between
quotes, so that a trailing comma is a comma that stands next to a closing bracket there
(`Text.hasTrailingComma`).

Both are found from left to right, and the parts of a document contribute to them one after the
other (`Text.Parts`). A derivation of a document is therefore one of strict JSON if nothing among
its parts forbids it (`IsValue.ifPlain`), and strict JSON has neither comments nor a comma in front
of a bracket (`Strict.IsValue.clean`). Together they say which documents are strict JSON
(`IsDocument.isJson_iff`).
-/

namespace EnvManifest

namespace Text

/-! ### Skeletons -/

/-- A text without its blanks, its comments and what is between quotes. -/
def skeleton (s : Text) : Text :=
  match s with
  | [] => []
  | '"' :: rest => '"' :: skeleton (afterQuote rest)
  | '/' :: '/' :: rest => skeleton (cutAtNewline rest).2
  | '/' :: '*' :: rest =>
    match _h : cutAtClose rest with
    | some (_, after) => skeleton after
    | none => []
  | c :: rest => if isWhite c then skeleton rest else c :: skeleton rest
termination_by s.length
decreasing_by
  · exact Nat.lt_succ_of_le (length_afterQuote_le rest)
  · have hlength := congrArg List.length (cutAtNewline_append rest)
    simp only [List.length_append] at hlength
    simp only [List.length_cons]
    omega
  · have hlength := congrArg List.length (append_of_cutAtClose _h)
    simp only [List.length_append] at hlength
    simp only [List.length_cons]
    omega
  · simp
  · simp

/-- Whether a comma stands next to a closing bracket. -/
def commaCloses (k : Text) : Bool :=
  hasPair ',' ']' k || hasPair ',' '\x7d' k

/-- Whether there is nothing but blanks and comments between a comma and a closing bracket behind
it, somewhere outside of literals and comments. -/
def hasTrailingComma (s : Text) : Bool :=
  commaCloses s.skeleton

variable {s t k l : Text}

@[simp]
theorem skeleton_nil : skeleton [] = [] := by
  rw [skeleton]

theorem skeleton_cons {c : Char} (hquote : c ≠ '"') (hslash : c ≠ '/') (s : Text) :
    skeleton (c :: s) = if isWhite c then skeleton s else c :: skeleton s := by
  rw [skeleton] <;> simp [hquote, hslash]

theorem skeleton_line {body : Text} (h : '\n' ∉ body) (t : Text) :
    skeleton ('/' :: '/' :: (body ++ '\n' :: t)) = skeleton t := by
  rw [skeleton, cutAtNewline_append_newline h, skeleton_cons (by decide) (by decide),
    if_pos (by decide)]

theorem skeleton_block {cut rest : Text} (h : cutAtClose s = some (cut, rest)) :
    skeleton ('/' :: '*' :: s) = skeleton rest := by
  rw [skeleton]
  split
  · rename_i h'
    obtain ⟨rfl, rfl⟩ := Prod.mk.inj (Option.some.inj (h'.symm.trans h))
    rfl
  · rename_i h'
    rw [h] at h'
    simp at h'

/-! ### A comma next to a bracket -/

theorem hasPair_append (a b : Char) (s t : Text) :
    hasPair a b (s ++ t) =
      (hasPair a b s || hasPair a b t || (s.getLast? == some a && t.head? == some b)) := by
  induction s with
  | nil => simp [hasPair]
  | cons c s ih =>
    cases s with
    | nil =>
      cases t with
      | nil => simp [hasPair]
      | cons d t => simp [hasPair, Bool.or_comm]
    | cons d s =>
      have hlast : (c :: d :: s).getLast? = (d :: s).getLast? := by simp
      rw [List.cons_append, List.cons_append, hasPair, ← List.cons_append, ih, hlast, hasPair]
      simp only [Bool.or_assoc]

/-- What has no comma next to a bracket has none in either part. -/
theorem commaCloses_append (h : commaCloses (s ++ t) = false) :
    commaCloses s = false ∧ commaCloses t = false := by
  simp only [commaCloses, hasPair_append, Bool.or_eq_false_iff] at h ⊢
  exact ⟨⟨h.1.1.1, h.2.1.1⟩, h.1.1.2, h.2.1.2⟩

/-- A skeleton that fits between two commas or brackets: there is something in it, no comma in it
stands next to a closing bracket, and none can come to stand there. -/
structure Tight (k : Text) : Prop where
  ne_nil : k ≠ []
  inside : commaCloses k = false
  head : ∀ c ∈ k.head?, c ∉ [']', '\x7d']
  last : k.getLast? ≠ some ','

theorem commaCloses_append_eq_false (hs : commaCloses s = false) (ht : commaCloses t = false)
    (h : s.getLast? ≠ some ',' ∨ ∀ c ∈ t.head?, c ∉ [']', '\x7d']) :
    commaCloses (s ++ t) = false := by
  have hbetween : ∀ b ∈ [']', '\x7d'], (s.getLast? == some ',' && t.head? == some b) = false := by
    intro b hb
    rw [Bool.and_eq_false_iff, beq_eq_false_iff_ne, beq_eq_false_iff_ne]
    exact h.imp id fun hhead hb' => hhead b hb' hb
  simp only [commaCloses, Bool.or_eq_false_iff] at hs ht
  simp only [commaCloses, hasPair_append, hs, ht, hbetween ']' (by simp),
    hbetween '\x7d' (by simp)]
  rfl

theorem commaCloses_singleton (c : Char) : commaCloses [c] = false := rfl

/-- A token has no comma and no bracket in it. -/
theorem tight_token (hne : k ≠ []) (h : ∀ c ∈ k, c ∉ [',', ']', '\x7d']) : Tight k := by
  have hcomma : ',' ∉ k := fun hmem => h ',' hmem (by simp)
  have hpair : ∀ b, hasPair ',' b k = false := by
    intro b
    induction k with
    | nil => rfl
    | cons c k ih =>
      obtain ⟨hc, hk⟩ := List.ne_and_not_mem_of_not_mem_cons hcomma
      cases k with
      | nil => rfl
      | cons d k =>
        rw [hasPair, ih (by simp) (fun e he => h e (List.mem_cons_of_mem c he)) hk]
        simp [hc.symm]
  refine ⟨hne, by rw [commaCloses, hpair, hpair]; rfl, fun c hc hclose => ?_, fun hlast => ?_⟩
  · exact h c (List.mem_of_mem_head? hc) (List.mem_cons_of_mem _ hclose)
  · exact hcomma (List.mem_of_getLast? hlast)

theorem Tight.cons {c : Char} (hc : c ∉ [',', ']', '\x7d']) (h : Tight k) : Tight (c :: k) := by
  have hne : c ≠ ',' := by
    rintro rfl
    simp at hc
  refine ⟨by simp, ?_, ?_, ?_⟩
  · exact commaCloses_append_eq_false (s := [c]) (commaCloses_singleton c) h.inside
      (Or.inl (by simpa using hne))
  · intro d hd hclose
    obtain rfl : c = d := by simpa using hd
    exact hc (List.mem_cons_of_mem _ hclose)
  · rw [List.getLast?_cons_of_ne_nil h.ne_nil]
    exact h.last

/-- Two of them with a comma between. -/
theorem Tight.comma (hk : Tight k) (hl : Tight l) : Tight (k ++ ',' :: l) := by
  refine ⟨by simp, ?_, ?_, ?_⟩
  · refine commaCloses_append_eq_false hk.inside ?_ (Or.inl hk.last)
    exact commaCloses_append_eq_false (s := [',']) rfl hl.inside (Or.inr hl.head)
  · intro c hc
    rw [List.head?_append_of_ne_nil _ hk.ne_nil] at hc
    exact hk.head c hc
  · rw [List.getLast?_append_of_ne_nil _ (by simp), List.getLast?_cons_of_ne_nil hl.ne_nil]
    exact hl.last

/-- Brackets with nothing between them, or with what fits. -/
theorem Tight.enclosed {a b : Char} (ha : a ∈ ['[', '\x7b']) (hb : b ∈ [']', '\x7d'])
    (h : k = [] ∨ Tight k) : Tight (a :: (k ++ [b])) := by
  have ha' : a ≠ ',' ∧ a ∉ [']', '\x7d'] := by
    simp only [List.mem_cons, List.not_mem_nil, or_false] at ha
    rcases ha with rfl | rfl <;> decide
  have hb' : b ≠ ',' := by
    rintro rfl
    simp at hb
  have hinside : commaCloses (k ++ [b]) = false := by
    rcases h with rfl | h
    · exact commaCloses_singleton b
    · exact commaCloses_append_eq_false h.inside (commaCloses_singleton b) (Or.inl h.last)
  refine ⟨by simp, ?_, ?_, ?_⟩
  · exact commaCloses_append_eq_false (s := [a]) (commaCloses_singleton a) hinside
      (Or.inl (by simpa using ha'.1))
  · intro c hc
    obtain rfl : a = c := by simpa using hc
    exact ha'.2
  · rw [← List.cons_append, List.getLast?_concat]
    simpa using hb'

/-! ### What the parts of a text contribute -/

/-- The text contributes these comments and this skeleton to a text that it is the front of. -/
structure Parts (s : Text) (cs : List Text) (k : Text) : Prop where
  comments : ∀ t, comments (s ++ t) = cs ++ comments t
  skeleton : ∀ t, skeleton (s ++ t) = k ++ skeleton t

namespace Parts

variable {cs ds : List Text}

theorem append (hs : Parts s cs k) (ht : Parts t ds l) : Parts (s ++ t) (cs ++ ds) (k ++ l) where
  comments r := by rw [List.append_assoc, hs.comments, ht.comments, List.append_assoc]
  skeleton r := by rw [List.append_assoc, hs.skeleton, ht.skeleton, List.append_assoc]

theorem comments_eq (h : Parts s cs k) : Text.comments s = cs := by
  have hall := h.comments []
  rwa [List.append_nil, comments_nil, List.append_nil] at hall

theorem skeleton_eq (h : Parts s cs k) : Text.skeleton s = k := by
  have hall := h.skeleton []
  rwa [List.append_nil, skeleton_nil, List.append_nil] at hall

end Parts

/-- A token without quotes contributes itself. -/
theorem parts_token (h : ∀ c ∈ s, c ≠ '"' ∧ c ≠ '/' ∧ isWhite c = false) : Parts s [] s where
  comments t := comments_token (fun c hc => ⟨(h c hc).1, (h c hc).2.1⟩) t
  skeleton t := by
    induction s with
    | nil => rfl
    | cons c s ih =>
      obtain ⟨⟨hquote, hslash, hc⟩, hs⟩ := List.forall_mem_cons.1 h
      rw [List.cons_append, skeleton_cons hquote hslash, if_neg (by simp [hc]), ih hs]
      rfl

/-- The marks between the values of a document. -/
def marks : List Char :=
  [',', ':', '[', ']', '\x7b', '\x7d']

theorem mem_marks_of_opening {c : Char} (h : c ∈ ['[', '\x7b']) : c ∈ marks := by
  simp only [List.mem_cons, List.not_mem_nil, or_false] at h
  rcases h with rfl | rfl <;> simp [marks]

theorem mem_marks_of_closing {c : Char} (h : c ∈ [']', '\x7d']) : c ∈ marks := by
  simp only [List.mem_cons, List.not_mem_nil, or_false] at h
  rcases h with rfl | rfl <;> simp [marks]

/-- A mark contributes itself. -/
theorem parts_mark {c : Char} (h : c ∈ marks) : Parts [c] [] [c] := by
  refine parts_token (List.forall_mem_singleton.2 ?_)
  simp only [marks, List.mem_cons, List.not_mem_nil, or_false] at h
  rcases h with rfl | rfl | rfl | rfl | rfl | rfl <;> decide

end Text

open Text

/-- A gap contributes its comments. -/
theorem Gap.parts {g : Text} (h : Gap g) : Parts g (comments g) [] where
  comments := h.comments_append
  skeleton t := by
    induction h with
    | nil => rfl
    | @blank c s hc _ ih =>
      obtain ⟨hquote, hslash⟩ := ne_of_isWhite hc
      rw [List.cons_append, skeleton_cons hquote hslash, if_pos hc, ih]
    | @line body s hbody _ ih =>
      have hsplit : '/' :: '/' :: (body ++ '\n' :: s) ++ t =
          '/' :: '/' :: (body ++ '\n' :: (s ++ t)) := by
        simp
      rw [hsplit, skeleton_line hbody, ih]
    | @block body s hbody _ ih =>
      have hsplit : '/' :: '*' :: (body ++ '*' :: '/' :: s) ++ t =
          '/' :: '*' :: (body ++ '*' :: '/' :: (s ++ t)) := by
        simp
      rw [hsplit, skeleton_block (cutAtClose_append hbody _), ih]

/-- A literal contributes its quote. -/
theorem IsLiteral.parts {l : Literal} (h : IsLiteral l) : Parts l.raw [] ['"'] where
  comments := comments_literal h
  skeleton t := by
    obtain ⟨body, hraw, hspells⟩ := h
    rw [hraw, List.cons_append, List.append_assoc, List.singleton_append, skeleton,
      afterQuote_of_spells hspells]
    rfl

/-- A gap without comments is blank. -/
theorem Gap.spaces {g : Text} (h : Gap g) (hcomments : comments g = []) : Spaces g := by
  induction h with
  | nil => exact fun c hc => absurd hc List.not_mem_nil
  | blank hc _ ih =>
    obtain ⟨hquote, hslash⟩ := ne_of_isWhite hc
    rw [comments_cons hquote hslash] at hcomments
    exact List.forall_mem_cons.2 ⟨hc, ih hcomments⟩
  | line hbody _ _ => simp [comments_line hbody] at hcomments
  | block hbody _ _ => simp [comments_block (cutAtClose_append hbody _)] at hcomments

theorem Whole.spaces {g : Text} (h : Whole g) (hcomments : comments g = []) : Spaces g := by
  rcases h.cases with hgap | ⟨g, body, rfl, hg, hbody⟩
  · exact hgap.spaces hcomments
  · simp [hg.comments_append, comments_line_end hbody] at hcomments

/-- A leaf contributes what fits between commas and brackets. -/
theorem IsLeaf.parts {o : Outline} {s : Text} (h : IsLeaf o s) : ∃ k, Parts s [] k ∧ Tight k := by
  cases h with
  | null | true | false =>
    exact ⟨_, parts_token (by simp [isWhite]), tight_token (by simp) (by simp)⟩
  | number h =>
    refine ⟨s, parts_token fun c hc => ?_, tight_token ?_ fun c hc hmark => ?_⟩
    · refine ⟨?_, ?_, Bool.eq_false_iff.2 fun hwhite => ?_⟩
      · rintro rfl
        exact h.not_mem (by decide) (by decide) hc
      · rintro rfl
        exact h.not_mem (by decide) (by decide) hc
      · rcases isWhite_iff.1 hwhite with rfl | rfl | rfl | rfl <;>
          exact h.not_mem (by decide) (by decide) hc
    · obtain ⟨-, hint, -, -⟩ := h
      obtain ⟨c, t, rfl, -⟩ := hint.head
      simp
    · simp only [List.mem_cons, List.not_mem_nil, or_false] at hmark
      rcases hmark with rfl | rfl | rfl <;> exact h.not_mem (by decide) (by decide) hc
  | string h => exact ⟨['"'], h.parts, tight_token (by simp) (by simp)⟩

/-! ### Documents that are strict JSON -/

/-- A text is made of parts, and if there is no comment and no comma next to a bracket among them,
`P` holds. -/
def IfPlain (s : Text) (P : Prop) : Prop :=
  ∃ cs k, Parts s cs k ∧ (cs = [] → commaCloses k = false → P)

namespace IfPlain

variable {s t : Text} {P Q : Prop}

theorem append (hs : IfPlain s P) (ht : IfPlain t Q) : IfPlain (s ++ t) (P ∧ Q) := by
  obtain ⟨cs, k, hs, hP⟩ := hs
  obtain ⟨ds, l, ht, hQ⟩ := ht
  refine ⟨cs ++ ds, k ++ l, hs.append ht, fun hnone hpair => ?_⟩
  obtain ⟨hcs, hds⟩ := List.append_eq_nil_iff.1 hnone
  obtain ⟨hk, hl⟩ := commaCloses_append hpair
  exact ⟨hP hcs hk, hQ hds hl⟩

theorem mono (h : IfPlain s P) (hPQ : P → Q) : IfPlain s Q := by
  obtain ⟨cs, k, hs, hP⟩ := h
  exact ⟨cs, k, hs, fun hcs hk => hPQ (hP hcs hk)⟩

end IfPlain

theorem Gap.ifPlain {g : Text} (h : Gap g) : IfPlain g (Spaces g) :=
  ⟨_, _, h.parts, fun hcs _ => h.spaces hcs⟩

theorem ifPlain_mark {c : Char} (h : c ∈ marks) : IfPlain [c] True :=
  ⟨_, _, parts_mark h, fun _ _ => trivial⟩

section Inner

variable {inner inner' : Outline → Text → Prop}

theorem IsElement.ifPlain (hinner : ∀ o s, inner o s → IfPlain s (inner' o s)) {o : Outline}
    {s : Text} (h : IsElement inner o s) : IfPlain s (Strict.IsElement Spaces inner' o s) := by
  obtain ⟨hlead, hvalue, htrail⟩ := h
  refine (hlead.ifPlain.append ((hinner _ _ hvalue).append htrail.ifPlain)).mono ?_
  rintro ⟨hlead, hvalue, htrail⟩
  exact .mk hlead hvalue htrail

theorem IsMember.ifPlain (hinner : ∀ o s, inner o s → IfPlain s (inner' o s))
    {m : Literal × Outline} {s : Text} (h : IsMember inner m s) :
    IfPlain s (Strict.IsMember Spaces inner' m s) := by
  obtain ⟨hlead, hname, hbefore, hafter, hvalue, htrail⟩ := h
  have hraw : IfPlain _ True := ⟨_, _, hname.parts, fun _ _ => trivial⟩
  have hcolon : IfPlain [':'] True := ifPlain_mark (by simp [marks])
  refine (hlead.ifPlain.append (hraw.append (hbefore.ifPlain.append
    (hcolon.append (hafter.ifPlain.append ((hinner _ _ hvalue).append htrail.ifPlain)))))).mono ?_
  rintro ⟨hlead, -, hbefore, -, hafter, hvalue, htrail⟩
  exact .mk hlead hname hbefore hafter hvalue htrail

variable {α : Type} {P Q : α → Text → Prop} {close : Char}

/-- A closing bracket behind a list shows whether the list has a trailing comma. -/
theorem Listed.ifPlain (hPQ : ∀ a s, P a s → IfPlain s (Q a s)) (hclose : close ∈ [']', '\x7d'])
    {as : List α} {s : Text} (h : Listed P as s) :
    IfPlain (s ++ [close]) (Strict.Listed Q as s) := by
  have hbracket : IfPlain [close] True := ifPlain_mark (mem_marks_of_closing hclose)
  have hcomma : IfPlain [','] True := ifPlain_mark (by simp [marks])
  induction h with
  | last ha => exact ((hPQ _ _ ha).append hbracket).mono fun hall => .last hall.1
  | @trailing a s g ha hgap =>
    obtain ⟨cs, k, hparts, -⟩ := hPQ _ _ ha
    have hcomma' : Parts [','] [] [','] := parts_mark (by simp [marks])
    have hall := hparts.append (hcomma'.append
      (hgap.parts.append (parts_mark (mem_marks_of_closing hclose))))
    have hsplit : s ++ ',' :: g ++ [close] = s ++ ([','] ++ (g ++ [close])) := by simp
    refine ⟨_, _, hsplit ▸ hall, fun _ hpair => ?_⟩
    -- the comma and the bracket stand side by side
    have hlast := (commaCloses_append hpair).2
    simp only [List.mem_cons, List.not_mem_nil, or_false] at hclose
    rcases hclose with rfl | rfl <;> simp [commaCloses, hasPair] at hlast
  | @cons a as s t ha _ ih =>
    have hall := (hPQ _ _ ha).append (hcomma.append ih)
    have hsplit : s ++ ',' :: t ++ [close] = s ++ ([','] ++ (t ++ [close])) := by simp
    rw [hsplit]
    exact hall.mono fun hall => .cons hall.1 hall.2.2

theorem Bracketed.ifPlain (hPQ : ∀ a s, P a s → IfPlain s (Q a s))
    (hclose : close ∈ [']', '\x7d']) {as : List α} {s : Text} (h : Bracketed P as s) :
    IfPlain (s ++ [close]) (Strict.Bracketed Spaces Q as s) := by
  cases h with
  | empty hgap =>
    exact (hgap.ifPlain.append (ifPlain_mark (mem_marks_of_closing hclose))).mono fun hall =>
      .empty hall.1
  | listed h => exact (h.ifPlain hPQ hclose).mono .listed

theorem IsComposite.ifPlain (hinner : ∀ o s, inner o s → IfPlain s (inner' o s)) {o : Outline}
    {s : Text} (h : IsComposite inner o s) : IfPlain s (Strict.IsComposite Spaces inner' o s) := by
  cases h with
  | object h =>
    have hopen : IfPlain ['\x7b'] True := ifPlain_mark (by simp [marks])
    have hbody := h.ifPlain (fun _ _ hm => hm.ifPlain hinner)
      (show '\x7d' ∈ [']', '\x7d'] by decide)
    exact (hopen.append hbody).mono fun hall => .object hall.2
  | array h =>
    have hopen : IfPlain ['['] True := ifPlain_mark (by simp [marks])
    have hbody := h.ifPlain (fun _ _ he => he.ifPlain hinner)
      (show ']' ∈ [']', '\x7d'] by decide)
    exact (hopen.append hbody).mono fun hall => .array hall.2

end Inner

/-- **A value is strict JSON if there is no comment and no trailing comma in it.** -/
theorem IsValue.ifPlain {d : Nat} {o : Outline} {s : Text} (h : IsValue d o s) :
    IfPlain s (Strict.IsValue Spaces d o s) := by
  have leaf : ∀ {o : Outline} {s : Text} {P : Prop}, IsLeaf o s → P → IfPlain s P := by
    intro o s P hleaf hP
    obtain ⟨k, hparts, -⟩ := hleaf.parts
    exact ⟨[], k, hparts, fun _ _ => hP⟩
  induction d generalizing o s with
  | zero => exact leaf h h
  | succ d ih =>
    rcases h with hleaf | hcomposite
    · exact leaf hleaf (Or.inl hleaf)
    · exact (hcomposite.ifPlain fun _ _ hv => ih hv).mono Or.inr

/-! ### Strict JSON -/

namespace Strict

/-- A text contributes no comment, and what fits between commas and brackets. -/
def Clean (s : Text) : Prop :=
  ∃ k, Parts s [] k ∧ Tight k

theorem parts_spaces {g : Text} (h : Spaces g) : Parts g [] [] := by
  have hparts := h.gap.parts
  have hnone : comments g = [] := by
    have hall := comments_blanks h []
    rwa [List.append_nil, comments_nil] at hall
  rwa [hnone] at hparts

variable {inner : Outline → Text → Prop}

theorem IsElement.clean (hinner : ∀ o s, inner o s → Clean s) {o : Outline} {s : Text}
    (h : IsElement Spaces inner o s) : Clean s := by
  obtain ⟨hlead, hvalue, htrail⟩ := h
  obtain ⟨k, hparts, htight⟩ := hinner _ _ hvalue
  refine ⟨k, ?_, htight⟩
  simpa using (parts_spaces hlead).append (hparts.append (parts_spaces htrail))

theorem IsMember.clean (hinner : ∀ o s, inner o s → Clean s) {m : Literal × Outline} {s : Text}
    (h : IsMember Spaces inner m s) : Clean s := by
  obtain ⟨hlead, hname, hbefore, hafter, hvalue, htrail⟩ := h
  obtain ⟨k, hparts, htight⟩ := hinner _ _ hvalue
  refine ⟨'"' :: ':' :: k, ?_, (htight.cons (by simp)).cons (by simp)⟩
  have hcolon : Parts [':'] [] [':'] := parts_mark (by simp [marks])
  simpa using (parts_spaces hlead).append (hname.parts.append ((parts_spaces hbefore).append
    (hcolon.append ((parts_spaces hafter).append (hparts.append (parts_spaces htrail))))))

theorem Listed.clean {α : Type} {P : α → Text → Prop} (hP : ∀ a s, P a s → Clean s)
    {as : List α} {s : Text} (h : Listed P as s) : Clean s := by
  induction h with
  | last ha => exact hP _ _ ha
  | cons ha _ ih =>
    obtain ⟨k, hk, htight⟩ := hP _ _ ha
    obtain ⟨l, hl, htight'⟩ := ih
    have hcomma : Parts [','] [] [','] := parts_mark (by simp [marks])
    exact ⟨k ++ ',' :: l, hk.append (hcomma.append hl), htight.comma htight'⟩

theorem Bracketed.clean {α : Type} {P : α → Text → Prop} (hP : ∀ a s, P a s → Clean s)
    {as : List α} {s : Text} (h : Bracketed Spaces P as s) {a b : Char} (ha : a ∈ ['[', '\x7b'])
    (hb : b ∈ [']', '\x7d']) : Clean (a :: (s ++ [b])) := by
  obtain ⟨k, hk, htight⟩ : ∃ k, Parts s [] k ∧ (k = [] ∨ Tight k) := by
    cases h with
    | empty hgap => exact ⟨[], parts_spaces hgap, Or.inl rfl⟩
    | listed h =>
      obtain ⟨k, hk, htight⟩ := h.clean hP
      exact ⟨k, hk, Or.inr htight⟩
  have hopen : Parts [a] [] [a] := parts_mark (mem_marks_of_opening ha)
  have hclose : Parts [b] [] [b] := parts_mark (mem_marks_of_closing hb)
  exact ⟨a :: (k ++ [b]), hopen.append (hk.append hclose), Tight.enclosed ha hb htight⟩

theorem IsComposite.clean (hinner : ∀ o s, inner o s → Clean s) {o : Outline} {s : Text}
    (h : IsComposite Spaces inner o s) : Clean s := by
  cases h with
  | object h => exact h.clean (fun _ _ hm => hm.clean hinner) (by decide) (by decide)
  | array h => exact h.clean (fun _ _ he => he.clean hinner) (by decide) (by decide)

/-- **There is no comment and no trailing comma in strict JSON.** -/
theorem IsValue.clean {d : Nat} {o : Outline} {s : Text} (h : IsValue Spaces d o s) : Clean s := by
  induction d generalizing o s with
  | zero => exact IsLeaf.parts h
  | succ d ih =>
    rcases h with hleaf | hcomposite
    · exact hleaf.parts
    · exact hcomposite.clean fun _ _ hv => ih hv

end Strict

/-! ### Documents -/

/-- **A document is strict JSON exactly if its text has no comment outside of literals and no
comma in front of a closing bracket.** -/
theorem IsDocument.isJson_iff {o : Outline} {s : Text} (h : IsDocument o s) :
    (∃ o', IsJson Spaces o' s) ↔ comments s = [] ∧ hasTrailingComma s = false := by
  constructor
  · rintro ⟨o', d, g₁, u, g₂, rfl, hlead, hvalue, htrail⟩
    obtain ⟨k, hparts, htight⟩ := hvalue.clean
    have hall := (Strict.parts_spaces hlead).append
      (hparts.append (Strict.parts_spaces htrail))
    refine ⟨by simpa using hall.comments_eq, ?_⟩
    rw [hasTrailingComma, hall.skeleton_eq]
    simpa using htight.inside
  · obtain ⟨g₁, u, g₂, rfl, hlead, hvalue, htrail⟩ := h
    obtain ⟨cs, k, hparts, hstrict⟩ := hvalue.ifPlain
    rintro ⟨hnone, hpair⟩
    rw [hlead.parts.comments, hparts.comments, List.append_eq_nil_iff,
      List.append_eq_nil_iff] at hnone
    rw [hasTrailingComma, hlead.parts.skeleton, hparts.skeleton] at hpair
    obtain ⟨hg₁, rfl, hg₂⟩ := hnone
    obtain ⟨hk, -⟩ := commaCloses_append (commaCloses_append hpair).2
    exact ⟨o, maxDepth, g₁, u, g₂, rfl, hlead.spaces hg₁, hstrict rfl hk, htrail.spaces hg₂⟩

/-- The comma stands behind the element, whatever is between it and the bracket. -/
example : hasTrailingComma "[\"a,]\", 1 /* , */, // end\n]".toList = true := by decide +kernel

end EnvManifest
