import EnvManifest.Proofs.Comments.Cut
import EnvManifest.Proofs.Edit.Path
import EnvManifest.Proofs.Failure
import EnvManifest.Proofs.Layout.Untouched

/-!
# A new child on one line

Layout writes anew what an edit has marked, and in an object or array on one line that is the child
that was put at its end: the others have no mark. But what is in front of the first child is
written anew all the same, unless there is a comment, as far from its bracket as the closing
bracket seems to be from the last child (`Standing.padded`); and behind a last child without a
comma that distance is none, since what is in front of a closing bracket on the same line belongs
to the child. So exactly what is in front of the first child may be lost
(`Value.standing_format_push`), as the space in `{ "a": 1 }` is (`Value.not_keeps_standing`).

A child that breaks a line itself puts all of them on lines of their own, and then it is what is
in front of each child that is written anew (`Standing.onLines`).
-/

namespace EnvManifest

/-! ### Children as they stand in the text -/

/-- The text of a child, slot by slot. -/
structure Standing where
  lead : Text
  label : Text
  slots : List Text
  value : Text
  trail : Text
deriving DecidableEq

/-- A child as it stands in the text. -/
def Child.standing {κ : Type} [Label κ] (c : Child κ Node) : Standing :=
  ⟨c.lead, Label.pack c.label, Label.slots c.label, c.node.pack, c.trail⟩

namespace Standing

/-- The children with the first one as far from its bracket as `pad`, unless a comment is there. -/
def padded (pad : Text) : List Standing → List Standing
  | [] => []
  | s :: ss => { s with lead := if hasComment s.lead then s.lead else pad } :: ss

/-- The children on lines of their own. -/
def onLines (indent : Text) : List Standing → List Standing
  | [] => []
  | s :: ss => { s with lead := ownLine s.lead true indent } ::
      ss.map fun s => { s with lead := ownLine s.lead false indent }

/-- Only the first child can change, and it does if it stands further from its bracket or nearer
to it. -/
theorem isPrefix_padded_iff {pad : Text} {ss : List Standing} {added : Standing} :
    ss <+: padded pad ss ++ [added] ↔
      ∀ s ∈ ss.head?, hasComment s.lead = true ∨ s.lead = pad := by
  cases ss with
  | nil => simp
  | cons s ss =>
    have hprefix : ss <+: ss ++ [added] := List.prefix_append ss [added]
    simp only [padded, List.cons_append, List.cons_prefix_cons, hprefix, and_true, List.head?_cons,
      Option.mem_some_iff, forall_eq']
    cases hcomment : hasComment s.lead with
    | true => simp
    | false =>
      obtain ⟨lead, label, slots, value, trail⟩ := s
      simp

end Standing

/-! ### One composite -/

namespace Composite

variable {κ : Type} [Label κ]

/-- How far from the last child a closing bracket seems to be: a comment is no distance. -/
def pad {ν : Type} (c : Composite κ ν) : Text :=
  if hasComment c.closing then [] else c.closing

/-- A composite that was read, on one line: no child has a mark, no line comment is behind one,
and nothing breaks the line. -/
structure OneLine (c : Composite κ Node) : Prop where
  placed : ∀ m ∈ c.children, m.fresh = false
  clean : ∀ m ∈ c.children, m.node.isDirty = false
  behind : ∀ m ∈ c.children, endsInLineComment m.trail = false
  around : ∀ m ∈ c.children, m.lead.breaksLine = false ∧ m.trail.breaksLine = false ∧
    m.node.breaksLine = false
  closing : c.closing.breaksLine = false

/-- The slots behind the children that are read on one line are gaps. -/
theorem Cut.gap_trail {ν : Type} {c : Composite κ ν} (h : c.Cut) (hclosing : '\n' ∉ c.closing) :
    ∀ m ∈ c.children, Gap m.trail := by
  obtain ⟨cs, closing, comma, dirty⟩ := c
  have hbehind := h.behind
  clear h
  dsimp only at hbehind hclosing ⊢
  induction cs with
  | nil => simp
  | cons c cs ih =>
    cases cs with
    | nil =>
      refine List.forall_mem_singleton.2 ?_
      cases comma with
      | true => exact hbehind.1
      | false =>
        have hcut : CutBehind c.trail closing := hbehind
        rcases hcut.rest with ⟨-, htrail⟩ | hnewline
        · exact htrail
        · exact absurd (List.mem_of_head? hnewline) hclosing
    | cons d cs => exact List.forall_mem_cons.2 ⟨hbehind.1, ih hbehind.2⟩

/-- What was read on one line. -/
theorem Cut.oneLine {c : Composite κ Node} (h : c.Cut) (hrest : c.AtRest)
    (hclean : ∀ m ∈ c.children, m.node.isDirty = false)
    (hline : (c.map Node.breaksLine).breaksLine = false) : c.OneLine := by
  obtain ⟨hclosing, hchildren⟩ := by
    simpa [Composite.breaksLine, Child.breaksLine] using hline
  have htrail := h.gap_trail (by simpa [Text.breaksLine] using hclosing)
  exact ⟨hrest.2, hclean, fun m hm => (htrail m hm).endsInLineComment_eq_false,
    fun m hm => ⟨(hchildren m hm).1.1.1, (hchildren m hm).1.2, (hchildren m hm).2⟩, hclosing⟩

section Settle

variable {ν : Type} {comma : Bool} {closing : Text} {cs : List (Child κ ν)}

omit [Label κ] in
/-- Without line comments behind the first children nothing is moved there. -/
theorem shiftComments_append (h : ∀ m ∈ cs, endsInLineComment m.trail = false)
    (ks : List (Child κ ν)) : shiftComments comma closing [] (cs ++ ks) =
      (cs ++ (shiftComments comma closing [] ks).1, (shiftComments comma closing [] ks).2) := by
  induction cs with
  | nil => rfl
  | cons c cs ih =>
    obtain ⟨hc, hcs⟩ := List.forall_mem_cons.1 h
    simp [shiftComments, hc, ih hcs]

omit [Label κ] in
/-- Without line comments behind children nothing is moved. -/
theorem shiftComments_eq (h : ∀ m ∈ cs, endsInLineComment m.trail = false) :
    shiftComments comma closing [] cs = (cs, closing) := by
  conv_lhs => rw [← List.append_nil cs, shiftComments_append h]
  rw [shiftComments, List.append_nil, List.nil_append]

/-- A child that was there before is not tidied. -/
theorem map_tidy_eq (h : ∀ m ∈ cs, m.fresh = false) : cs.map tidy = cs := by
  have htidy : ∀ m ∈ cs, tidy m = id m := fun m hm => by simp [tidy, h m hm]
  rw [List.map_congr_left htidy, List.map_id]

omit [Label κ] in
theorem map_placeNext_eq (between : Text) (h : ∀ m ∈ cs, m.fresh = false) :
    cs.map (placeNext between) = cs := by
  have hplace : ∀ m ∈ cs, placeNext between m = id m := fun m hm => by
    obtain ⟨lead, label, node, trail, fresh⟩ := m
    obtain rfl : fresh = false := h _ hm
    rfl
  rw [List.map_congr_left hplace, List.map_id]

/-- The children with the first one as far from its bracket as `pad`, unless a comment is there. -/
def padded (pad : Text) : List (Child κ ν) → List (Child κ ν)
  | [] => []
  | m :: ms => { m with lead := if hasComment m.lead then m.lead else pad } :: ms

omit [Label κ] in
/-- **Children that were there before stay where they are on one line**, but for the first. -/
theorem exists_placeInline (h : ∀ m ∈ cs, m.fresh = false) (pad : Text) (k : Child κ ν) :
    ∃ added, placeInline pad (cs ++ [k]) = padded pad cs ++ [added] := by
  cases cs with
  | nil => exact ⟨placeFirst pad k, rfl⟩
  | cons m ms =>
    obtain ⟨hm, hms⟩ := List.forall_mem_cons.1 h
    refine ⟨placeNext (separator (m :: (ms ++ [k]))) k, ?_⟩
    have hfirst : placeFirst pad m =
        { m with lead := if hasComment m.lead then m.lead else pad } := by
      obtain ⟨lead, label, node, trail, fresh⟩ := m
      obtain rfl : fresh = false := hm
      cases hcomment : hasComment lead <;> simp [placeFirst, hcomment]
    rw [List.cons_append, placeInline, List.map_append, map_placeNext_eq _ hms, hfirst]
    rfl

end Settle

variable {c : Composite κ Node} {k : Child κ Node}

/-- **A composite on one line with a child put at its end** goes on several lines if the child
breaks the line. -/
theorem OneLine.settle_push (h : c.OneLine) (hlead : k.lead = []) (htrail : k.trail = [])
    (standard : Bool) : ∃ comma added,
      (c.push k).settle standard =
        if k.node.breaksLine then ⟨c.children ++ [added], c.closing, comma, true⟩
        else ⟨padded c.pad c.children ++ [added], c.closing, comma, false⟩ := by
  have hmultiline : (c.push k).isMultiline = k.node.breaksLine := by
    have hany : c.children.any (fun m =>
        m.lead.breaksLine || m.trail.breaksLine || m.node.breaksLine) = false := by
      rw [List.any_eq_false]
      intro m hm
      obtain ⟨hlead, htrail, hnode⟩ := h.around m hm
      simp [hlead, htrail, hnode]
    have hnil : Text.breaksLine [] = false := rfl
    simp [isMultiline, push, List.any_append, hany, h.closing, hlead, htrail, hnil]
  have hends : ∀ m ∈ (c.push k).children, endsInLineComment m.trail = false := by
    intro m hm
    rcases List.mem_append.1 hm with hm | hm
    · exact h.behind m hm
    · rw [List.mem_singleton.1 hm, htrail]
      exact Gap.nil.endsInLineComment_eq_false
  rw [settle, hmultiline, shiftComments_eq hends]
  dsimp only
  rw [children_push, List.map_append, map_tidy_eq h.placed, List.map_singleton]
  split
  · exact ⟨_, _, rfl⟩
  · obtain ⟨added, hadded⟩ := exists_placeInline h.placed c.pad (tidy k)
    refine ⟨(c.push k).settledComma standard, added, ?_⟩
    rw [← hadded]
    simp only [push, h.closing, Bool.false_eq_true, if_false]
    rfl

/-! ### Indenting -/

omit [Label κ] in
theorem mem_padded {ν : Type} {pad : Text} {cs : List (Child κ ν)} {m : Child κ ν}
    (hm : m ∈ padded pad cs) : ∃ m' ∈ cs, m.node = m'.node := by
  cases cs with
  | nil => simp [padded] at hm
  | cons c cs =>
    rcases List.mem_cons.1 hm with rfl | hm
    · exact ⟨c, List.mem_cons_self, rfl⟩
    · exact ⟨m, List.mem_cons_of_mem c hm, rfl⟩

theorem map_standing_padded {pad : Text} {cs : List (Child κ Node)} :
    (padded pad cs).map Child.standing = Standing.padded pad (cs.map Child.standing) := by
  cases cs <;> rfl

/-- Indenting children leaves those that no edit has marked as they stand. -/
theorem exists_indentChildren {cs : List (Child κ Node)} (h : ∀ m ∈ cs, m.node.isDirty = false)
    (k : Child κ Node) (step current : Text) : ∃ added,
      (indentChildren current ((cs ++ [k]).map (Child.map (Node.indent step)))).map Child.standing =
        cs.map Child.standing ++ [added] := by
  induction cs generalizing current with
  | nil => exact ⟨_, rfl⟩
  | cons c cs ih =>
    obtain ⟨hc, hcs⟩ := List.forall_mem_cons.1 h
    obtain ⟨added, hadded⟩ := ih hcs ((c.map (Node.indent step)).lineIndent?.getD current)
    refine ⟨added, ?_⟩
    rw [List.cons_append, List.map_cons, indentChildren, List.map_cons, hadded, List.map_cons,
      List.cons_append]
    congr 1
    simp [Child.standing, Node.pack_indent_of_not_isDirty step c.node hc]

/-- The children on lines of their own. -/
def ownLines {ν : Type} (indent : Text) : List (Child κ ν) → List (Child κ ν)
  | [] => []
  | m :: ms => { m with lead := ownLine m.lead true indent } ::
      ms.map fun m => { m with lead := ownLine m.lead false indent }

omit [Label κ] in
theorem mem_ownLines {ν : Type} {indent : Text} {cs : List (Child κ ν)} {m : Child κ ν}
    (hm : m ∈ ownLines indent cs) : ∃ m' ∈ cs, m.node = m'.node := by
  cases cs with
  | nil => simp [ownLines] at hm
  | cons c cs =>
    rcases List.mem_cons.1 hm with rfl | hm
    · exact ⟨c, List.mem_cons_self, rfl⟩
    · obtain ⟨m', hm', rfl⟩ := List.mem_map.1 hm
      exact ⟨m', List.mem_cons_of_mem c hm', rfl⟩

theorem map_standing_ownLines {indent : Text} {cs : List (Child κ Node)} :
    (ownLines indent cs).map Child.standing = Standing.onLines indent (cs.map Child.standing) := by
  cases cs with
  | nil => rfl
  | cons c cs => simp [ownLines, Standing.onLines, Child.standing, Function.comp_def]

omit [Label κ] in
theorem onLine_map {μ ν : Type} (f : μ → ν) (indent : Text) (first : Bool) (c : Child κ μ) :
    onLine indent first (c.map f) = (onLine indent first c).map f := by
  rw [onLine, onLine, apply_ite (Child.map f)]
  rfl

omit [Label κ] in
/-- **Children that share a line are put on lines of their own**, whatever becomes of the nodes. -/
theorem exists_breakLines {μ ν : Type} {f : μ → ν} {cs : List (Child κ μ)}
    (h : ∀ m ∈ cs, m.lead.breaksLine = false) (k : Child κ μ) (closing line step : Text)
    (comma : Bool) : ∃ indent added, (breakLines line step
      ⟨(cs ++ [k]).map (Child.map f), closing, comma, true⟩).children =
        (ownLines indent cs ++ [added]).map (Child.map f) := by
  have hline : ∀ indent first, ∀ m ∈ cs,
      onLine indent first m = { m with lead := ownLine m.lead first indent } :=
    fun indent first m hm => by simp [onLine, h m hm]
  refine ⟨childIndent line step ((cs ++ [k]).map (Child.map f)), ?_⟩
  rw [breakLines]
  generalize childIndent line step ((cs ++ [k]).map (Child.map f)) = indent
  cases cs with
  | nil => exact ⟨onLine indent true k, congrArg (fun c => [c]) (onLine_map f indent true k)⟩
  | cons m ms =>
    refine ⟨onLine indent false k, ?_⟩
    have hms : (ms.map (Child.map f)).map (onLine indent false) =
        (ms.map fun m => { m with lead := ownLine m.lead false indent }).map (Child.map f) := by
      rw [List.map_map, List.map_map]
      refine List.map_congr_left fun c hc => ?_
      rw [Function.comp_apply, onLine_map, hline indent false c (List.mem_cons_of_mem m hc)]
      rfl
    simp only [List.cons_append, List.map_cons, List.map_append, List.map_nil, ownLines]
    rw [hms, onLine_map, onLine_map, hline indent true m List.mem_cons_self]

omit [Label κ] in
/-- Children without a mark are settled before another one is put at their end. -/
theorem map_settle_push {c : Composite κ Node} (h : ∀ m ∈ c.children, m.node.isDirty = false)
    (k : Child κ Node) (standard : Bool) :
    (c.push k).map (Node.settle standard) = c.push (k.map (Node.settle standard)) := by
  have hc : c.map (Node.settle standard) = c :=
    map_of_forall_eq fun m hm => Node.settle_of_not_isDirty standard m.node (h m hm)
  conv_rhs => rw [← hc]
  simp [map, push]

/-- **A child put at the end of a composite on one line**: on one line the other children stand as
they did, but for what is in front of the first; on several lines what is in front of each of
them is written anew, and nothing else. -/
theorem OneLine.standing_push (h : c.OneLine) (hlead : k.lead = []) (htrail : k.trail = [])
    (standard : Bool) (step line : Text) :
    ∃ added, if (k.node.settle standard).breaksLine then
        ∃ indent, ((c.push k).laid standard step line).children.map Child.standing =
          Standing.onLines indent (c.children.map Child.standing) ++ [added]
      else ((c.push k).laid standard step line).children.map Child.standing =
        Standing.padded c.pad (c.children.map Child.standing) ++ [added] := by
  obtain ⟨comma, k', hsettle⟩ :=
    OneLine.settle_push (k := k.map (Node.settle standard)) h hlead htrail standard
  rw [laid, if_pos (show (c.push k).dirty = true from rfl), map_settle_push h.clean, hsettle,
    Child.node_map]
  by_cases hbreaks : (k.node.settle standard).breaksLine = true
  · obtain ⟨indent, k₁, hlines⟩ := exists_breakLines (f := Node.indent step)
      (fun m hm => (h.around m hm).1) k' c.closing line step comma
    have hclean : ∀ m ∈ ownLines indent c.children, m.node.isDirty = false := fun m hm => by
      obtain ⟨m', hm', hnode⟩ := mem_ownLines hm
      rw [hnode]
      exact h.clean m' hm'
    obtain ⟨added, hadded⟩ := exists_indentChildren hclean k₁ step line
    refine ⟨added, ?_⟩
    rw [if_pos hbreaks, if_pos hbreaks]
    refine ⟨indent, ?_⟩
    rw [← map_standing_ownLines, ← hadded, ← hlines]
    rfl
  · have hclean : ∀ m ∈ padded c.pad c.children, m.node.isDirty = false := fun m hm => by
      obtain ⟨m', hm', hnode⟩ := mem_padded hm
      rw [hnode]
      exact h.clean m' hm'
    obtain ⟨added, hadded⟩ := exists_indentChildren hclean k' step line
    refine ⟨added, ?_⟩
    rw [if_neg hbreaks, if_neg hbreaks, ← map_standing_padded, ← hadded]
    rfl

end Composite

/-! ### Nodes -/

namespace Node

/-- The children of an object or array as they stand in the text. -/
def standing : Node → List Standing
  | .object ms => ms.children.map Child.standing
  | .array es => es.children.map Child.standing
  | _ => []

/-- How far from the last child the closing bracket seems to be. -/
def pad : Node → Text
  | .object ms => ms.pad
  | .array es => es.pad
  | _ => []

end Node

/-! ### What is written on one line -/

theorem Text.subset_join {sep t : Text} {parts : List Text} (h : t ∈ parts) :
    t ⊆ Text.join sep parts := by
  induction parts with
  | nil => simp at h
  | cons u parts ih =>
    cases parts with
    | nil =>
      obtain rfl := List.mem_singleton.1 h
      simp [Text.join]
    | cons v parts =>
      rw [Text.join, List.intercalate_cons_cons]
      rcases List.mem_cons.1 h with rfl | h
      · exact List.subset_append_of_subset_left _ (List.subset_append_left _ _)
      · exact List.subset_append_of_subset_right _ (ih h)

namespace Composite

variable {κ : Type} [Label κ]

/-- **What is written without a newline has no slot with one**, if the slots of a label are
written. -/
theorem breaksLine_eq_false {c : Composite κ Node}
    (hlabel : ∀ k : κ, ∀ t ∈ Label.slots k, t ⊆ Label.pack k)
    (h : '\n' ∉ (c.map Node.pack).pack)
    (ih : ∀ m ∈ c.children, '\n' ∉ m.node.pack → m.node.breaksLine = false) :
    (c.map Node.breaksLine).breaksLine = false := by
  rw [pack, List.mem_append, List.mem_append, not_or, not_or] at h
  obtain ⟨⟨hchildren, -⟩, hclosing⟩ := h
  have hchild : ∀ m ∈ c.children, Child.breaksLine (m.map Node.breaksLine) = false := by
    intro m hm
    have hpack : '\n' ∉ (m.map Node.pack).pack := fun hmem => by
      refine hchildren (Text.subset_join (List.mem_map.2 ⟨m.map Node.pack, ?_, rfl⟩) hmem)
      exact List.mem_map_of_mem hm
    simp only [Child.pack, Child.lead_map, Child.label_map, Child.node_map, Child.trail_map,
      List.mem_append, not_or] at hpack
    obtain ⟨⟨⟨hlead, hpacked⟩, hnode⟩, htrail⟩ := hpack
    have hslots : (Label.slots m.label).any Text.breaksLine = false := by
      rw [List.any_eq_false]
      intro t ht
      simpa [Text.breaksLine] using fun hmem => hpacked (hlabel m.label t ht hmem)
    simp [Child.breaksLine, Text.breaksLine, hlead, hslots, htrail, ih m hm hnode]
  rw [breaksLine, children_map, List.any_map, Bool.or_eq_false_iff, List.any_eq_false]
  exact ⟨by simpa [Text.breaksLine] using hclosing, fun m hm => by simpa using hchild m hm⟩

end Composite

namespace Node

theorem breaksLine_eq_false : ∀ n : Node, '\n' ∉ n.pack → n.breaksLine = false := by
  refine induction {
    null := fun _ => rfl
    bool := fun _ _ => rfl
    number := fun _ _ => rfl
    string := fun _ _ => rfl
    object := fun ms ih h => ?_
    array := fun es ih h => ?_ }
  · rw [breaksLine_object]
    refine Composite.breaksLine_eq_false (fun k t ht => ?_) (fun hmem => h ?_) ih
    · rcases List.mem_pair.1 ht with rfl | rfl
      · exact fun c hc => by simp [Label.pack, hc]
      · exact fun c hc => by simp [Label.pack, hc]
    · simp [hmem]
  · rw [breaksLine_array]
    refine Composite.breaksLine_eq_false (fun k t ht => ?_) (fun hmem => h ?_) ih
    · exact absurd ht List.not_mem_nil
    · simp [hmem]

end Node

/-! ### Putting a child at the end -/

/-- An object or array with a child put at its end that has nothing around it. -/
inductive Node.Pushed (n : Node) : Node → Node → Prop
  | object (ms : Object) (k : Member) : k.lead = [] → k.node = n → k.trail = [] →
    Pushed n (.object ms) (.object (ms.push k))
  | array (es : Elements) (k : Value) : k.lead = [] → k.node = n → k.trail = [] →
    Pushed n (.array es) (.array (es.push k))

namespace Node.Pushed

variable {n m m' : Node}

theorem isDirty (h : Pushed n m m') : m'.isDirty = true := by
  cases h with
  | object ms k => simp [Composite.push]
  | array es k => simp [Composite.push]

/-- **The other children of an object or array on one line**, once it is laid out. -/
theorem standing (h : Pushed n m m') (hcut : Everywhere CutHere m) (hrest : m.AtRest)
    (hline : m.breaksLine = false) {standard : Bool} {step : Text} {laid : Node}
    (hlaid : LaidBy standard step m' laid) :
    ∃ added, if (n.settle standard).breaksLine then
        ∃ indent, laid.standing = Standing.onLines indent m.standing ++ [added]
      else laid.standing = Standing.padded m.pad m.standing ++ [added] := by
  obtain ⟨line, rfl⟩ := hlaid
  cases h with
  | object ms k hlead hnode htrail =>
    subst hnode
    rw [breaksLine_object] at hline
    have hone : ms.OneLine := Composite.Cut.oneLine hcut.here hrest.here (fun m hm =>
      isDirty_of_atRest _ ((everywhere_object.1 hrest).2 m hm)) hline
    rw [indent_settle_object]
    exact hone.standing_push hlead htrail standard step line
  | array es k hlead hnode htrail =>
    subst hnode
    rw [breaksLine_array] at hline
    have hone : es.OneLine := Composite.Cut.oneLine hcut.here hrest.here (fun e he =>
      isDirty_of_atRest _ ((everywhere_array.1 hrest).2 e he)) hline
    rw [indent_settle_array]
    exact hone.standing_push hlead htrail standard step line

end Node.Pushed

theorem Around.isDirty_of_at? {path : List PathItem} {a b : Around} (h : at? path a = some b)
    (hb : b.node.isDirty = true) : a.node.isDirty = true := by
  induction path generalizing a with
  | nil =>
    obtain rfl := Option.some.inj h
    exact hb
  | cons item path ih =>
    obtain ⟨a', hinner, h⟩ := exists_of_at?_cons h
    by_contra hclean
    rw [Bool.not_eq_true, Node.isDirty_eq_false_iff_inner] at hclean
    exact Bool.false_ne_true ((hclean.2 a'.node hinner).symm.trans (ih h))

/-! ### Documents -/

namespace Value

/-- **Layout leads a path to what it makes of the node there**, in a document with a mark. -/
theorem exists_at?_format {v : Value} {path : List PathItem} {b : Around}
    (h : v.at? path = some b) (hb : b.node.isDirty = true) : ∃ b' step,
      v.format.at? path = some b' ∧ Node.LaidBy v.isStandard step b.node b'.node := by
  obtain ⟨step, hlaid⟩ := laidBy_format (Around.isDirty_of_at? h hb)
  have hroot : Node.LaidBy v.isStandard step (Around.ofValue v).node
      (Around.ofValue v.format).node := hlaid
  have hobject : ∀ o n, Node.LaidBy v.isStandard step (.object o) n → ∃ o', n = .object o' ∧
      List.Forall₂ (fun m m' => Member.name m' = Member.name m ∧
        Node.LaidBy v.isStandard step m.node m'.node) o.children o'.children := fun o n hn => by
    obtain ⟨o', ho', hmembers⟩ := hn.object
    exact ⟨o', ho', hmembers.imp fun m m' hm => ⟨congrArg Literal.value hm.1, hm.2⟩⟩
  obtain ⟨b', hb', hlaid⟩ := Around.at?_of_forall₂ hobject (fun es n hn => hn.array) h hroot
  exact ⟨b', step, hb', hlaid⟩

/-- Both ways to put a fresh child at the end of what a path leads to. -/
theorem exists_pushed {v w : Value} {path : List PathItem} {a : Around} {name : Text} {n : Node}
    (ha : v.at? path = some a)
    (hpush : v.pushMember? path false name (new n) = some w ∨
      v.pushElement? path false (new n) = some w) :
    ∃ m, Node.Pushed n a.node m ∧ w.at? path = some { a with node := m } := by
  have hupdate : ∀ f : Node → Option Node, (∀ m m', f m = some m' → Node.Pushed n m m') →
      v.updateNode? path f = some w →
        ∃ m, Node.Pushed n a.node m ∧ w.at? path = some { a with node := m } := by
    intro f hf hw
    rw [updateNode?_eq] at hw
    obtain ⟨n', hn', rfl⟩ := Option.map_eq_some_iff.1 hw
    obtain ⟨m, hm, hat⟩ := Around.at?_updateAt? ha hn'
    exact ⟨m, hf _ _ hm, hat⟩
  rcases hpush with hpush | hpush
  · refine hupdate _ (fun m m' hm => ?_) hpush
    split at hm
    · obtain rfl := Option.some.inj hm
      exact .object _ _ rfl rfl rfl
    · simp at hm
  · refine hupdate _ (fun m m' hm => ?_) hpush
    split at hm
    · obtain rfl := Option.some.inj hm
      exact .array _ _ rfl rfl rfl
    · simp at hm

/-- **What becomes of the children on one line.** In an object or array that is written without a
newline, a child with empty slots is put at the end and the document is laid out. If the child
stays on one line, the others stand as they did, but for what is in front of the first: they all
do exactly if that is a comment or as much as the closing bracket is from the last child. If the
child breaks the line, what is in front of each is written anew, and nothing else. -/
theorem standing_format_push {s name : Text} {v w : Value} {path : List PathItem} {a : Around}
    {n : Node} (h : parse s = .ok v) (ha : v.at? path = some a) (hline : '\n' ∉ a.node.pack)
    (hpush : v.pushMember? path false name (new n) = some w ∨
      v.pushElement? path false (new n) = some w) :
    ∃ a' added, w.format.at? path = some a' ∧
      if (n.settle w.isStandard).breaksLine then
        ∃ indent, a'.node.standing = Standing.onLines indent a.node.standing ++ [added]
      else
        a'.node.standing = Standing.padded a.node.pad a.node.standing ++ [added] ∧
          (a.node.standing <+: a'.node.standing ↔
            ∀ c ∈ a.node.standing.head?, hasComment c.lead = true ∨ c.lead = a.node.pad) := by
  have hread := parse_eq_ok.1 h
  obtain ⟨-, -, horderly, -, -⟩ := orderly_of_readTo hread
  obtain ⟨s₁, s₂, -, hnode, -, -⟩ := run_of_readTo hread
  obtain ⟨m, hpushed, hat⟩ := exists_pushed ha hpush
  obtain ⟨a', step, ha', hlaid⟩ := exists_at?_format hat hpushed.isDirty
  obtain ⟨added, hstanding⟩ := hpushed.standing
    (Around.everywhere_at? ha (Parser.cut_of_run_node hnode))
    (Around.everywhere_at? ha horderly.atRest) (Node.breaksLine_eq_false a.node hline) hlaid
  refine ⟨a', added, ha', ?_⟩
  split at hstanding
  · rwa [if_pos ‹_›]
  · rw [if_neg ‹_›, hstanding]
    exact ⟨rfl, Standing.isPrefix_padded_iff⟩

/-- A member put at the end of an object inside another one, with a comment in front of the first
member and a trailing comma. -/
theorem standing_format_push_nested :
    ∃ v w a,
      parse "\x7b\n  \"o\": \x7b /* a */ \"a\": 1, \x7d\n\x7d".toList = .ok v ∧
      v.at? [.key "o".toList] = some a ∧ '\n' ∉ a.node.pack ∧
      (v.pushMember? [.key "o".toList] false "b".toList (new .null) = some w ∨
        v.pushElement? [.key "o".toList] false (new .null) = some w) ∧
      ∃ a' added, w.format.at? [.key "o".toList] = some a' ∧
        if (Node.null.settle w.isStandard).breaksLine then
          ∃ indent, a'.node.standing = Standing.onLines indent a.node.standing ++ [added]
        else
          a'.node.standing = Standing.padded a.node.pad a.node.standing ++ [added] ∧
            (a.node.standing <+: a'.node.standing ↔
              ∀ c ∈ a.node.standing.head?, hasComment c.lead = true ∨ c.lead = a.node.pad) := by
  obtain ⟨v, hv, a, ha, hline, w, hw⟩ : ∃ v,
      parse "\x7b\n  \"o\": \x7b /* a */ \"a\": 1, \x7d\n\x7d".toList = .ok v ∧
      ∃ a, v.at? [.key "o".toList] = some a ∧ '\n' ∉ a.node.pack ∧
        ∃ w, v.pushMember? [.key "o".toList] false "b".toList (new .null) = some w := by
    decide +kernel
  exact ⟨v, w, a, hv, ha, hline, Or.inl hw, standing_format_push hv ha hline (Or.inl hw)⟩

/-- **The space in front of the first member is lost**: the other members do not stand as they
did. -/
theorem not_keeps_standing :
    ∃ v w a a', parse "\x7b \"a\": 1 \x7d".toList = .ok v ∧ v.at? [] = some a ∧
      '\n' ∉ a.node.pack ∧ v.pushMember? [] false "b".toList (new .null) = some w ∧
      w.format.at? [] = some a' ∧ ¬a.node.standing <+: a'.node.standing := by
  obtain ⟨v, hv, a, ha, hline, w, hw, a', ha', hstanding⟩ : ∃ v,
      parse "\x7b \"a\": 1 \x7d".toList = .ok v ∧
      ∃ a, v.at? [] = some a ∧ '\n' ∉ a.node.pack ∧
        ∃ w, v.pushMember? [] false "b".toList (new .null) = some w ∧
          ∃ a', w.format.at? [] = some a' ∧ ¬a.node.standing <+: a'.node.standing := by
    decide +kernel
  exact ⟨v, w, a, a', hv, ha, hline, hw, ha', hstanding⟩

end Value

end EnvManifest
