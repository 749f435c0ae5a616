import EnvManifest.Proofs.Edit.Marks
import EnvManifest.Proofs.Layout.OneLine
import EnvManifest.Proofs.Untouched

/-!
# Replacing the environment again

An environment is replaced by an object that is built anew, and whether its variables go on
lines of their own is read off the environment that was there. So replacing it by the same one
again rebuilds what the first run has laid out, and that comes out the same
(`Document.after_setEnv_setEnv`):

* what was put on several lines breaks a line afterwards, and what was put on one line does not
  (`Node.LaysOut.breaksLine_envObject`), so the same object is built again;
* the document around it is at rest, so layout leaves it alone (`Document.format_setNode`), and the
  first run started from the same text around the environment as the second one.

An environment that was missing is put on one line first, and there the object is laid out to the
same members whatever is around it (`Node.LaysOut.eq_envLine`).
-/

namespace EnvManifest

open Object

/-! ### Trees at rest -/

namespace Composite

variable {κ : Type} [Label κ]

/-- A composite at rest is not indented anew. -/
theorem indent_of_atRest {step : Text} {c : Composite κ Node} (h : c.AtRest)
    (hinner : ∀ m ∈ c.children, ∀ line, Node.indent step m.node line = m.node) (line : Text) :
    (c.map (Node.indent step)).indent step line = c := by
  obtain ⟨cs, closing, comma, dirty⟩ := c
  obtain ⟨hdirty, hfresh⟩ := h
  obtain rfl : dirty = false := hdirty
  exact congrArg (Composite.mk · closing comma false) (indentChildren_map_eq hfresh hinner line)

end Composite

namespace Node

/-- A tree at rest is not indented anew. -/
theorem indent_of_atRest (step : Text) : ∀ n : Node, n.AtRest → ∀ line, indent step n line = n := by
  refine induction {
    null := fun _ _ => rfl
    bool := fun _ _ _ => rfl
    number := fun _ _ _ => rfl
    string := fun _ _ _ => rfl
    object := fun ms ih h line => ?_
    array := fun es ih h line => ?_ }
  · obtain ⟨hhere, hinner⟩ := everywhere_object.1 h
    rw [indent_object, Composite.indent_of_atRest hhere fun m hm => ih m hm (hinner m hm)]
  · obtain ⟨hhere, hinner⟩ := everywhere_array.1 h
    rw [indent_array, Composite.indent_of_atRest hhere fun e he => ih e he (hinner e he)]

/-- **Layout leaves a tree at rest as it is.** -/
theorem LaysOut.eq_of_atRest {n n' : Node} (h : n.LaysOut n') (hrest : n.AtRest) : n' = n := by
  obtain rfl | ⟨standard, step, line, rfl⟩ := h
  · rfl
  · rw [settle_of_not_isDirty standard n (isDirty_of_atRest n hrest), indent_of_atRest step n hrest]

end Node

/-- A member that stays put is the same up to its node. -/
theorem Member.StaysPut.eq_with_node {m m' : Member} (h : StaysPut m m')
    (hfresh : m'.fresh = m.fresh) : m' = { m with node := m'.node } := by
  obtain ⟨lead, label, node, trail, fresh⟩ := m
  obtain ⟨lead', label', node', trail', fresh'⟩ := m'
  obtain ⟨hlead, hlabel, htrail, -⟩ := h
  obtain rfl : lead' = lead := hlead
  obtain rfl : label' = label := hlabel
  obtain rfl : trail' = trail := htrail
  obtain rfl : fresh' = fresh := hfresh
  rfl

/-- Members at rest that stay put, and are at rest afterwards, are the same. -/
theorem Member.eq_of_staysPut {ms ms' : List Member} (h : List.Forall₂ StaysPut ms ms')
    (hms : ∀ m ∈ ms, m.fresh = false ∧ m.node.AtRest) (hms' : ∀ m ∈ ms', m.fresh = false) :
    ms' = ms := by
  induction h with
  | nil => rfl
  | cons hm _ ih =>
    obtain ⟨⟨hfresh, hnode⟩, hms⟩ := List.forall_mem_cons.1 hms
    obtain ⟨hfresh', hms'⟩ := List.forall_mem_cons.1 hms'
    rw [hm.eq_with_node (hfresh'.trans hfresh.symm), hm.node.eq_of_atRest hnode, ih hms hms']

/-! ### Another node for a member of a document at rest -/

namespace Document

variable {d : Document} {name : Text} {s : Spot}

/-- The nodes of a document at rest are at rest. -/
theorem AtRest.children (h : d.AtRest) : ∀ m ∈ d.root.children, m.fresh = false ∧ m.node.AtRest := by
  obtain ⟨hhere, hinner⟩ := Node.everywhere_object.1 h
  exact fun m hm => ⟨hhere.2 m hm, hinner m hm⟩

/-- **In a document at rest nothing is laid out but the node that is new.** -/
theorem format_setNode (h : d.AtRest) (hs : spot? d.root name = some s) {n : Node} (hn : n.Marked) :
    ∃ n', n.LaysOut n' ∧ format { d with root := withSpot d.root (s.setNode n) } =
      { d with root := withSpot d.root (s.setNode n') } := by
  have hdirty : d.root.dirty = false := (Node.everywhere_object.1 h).1.1
  have hmarked : (Node.object (withSpot d.root (s.setNode n))).Marked :=
    marked_setNode hs (Node.marked_of_atRest h) hn
  have hrest := atRest_format (d := { d with root := withSpot d.root (s.setNode n) }) hmarked
  obtain ⟨o', ho', hput, hclosing, hcomma⟩ :=
    (laysOut_format { d with root := withSpot d.root (s.setNode n) }).object_of_not_dirty hdirty
  obtain ⟨hlead, htrail⟩ := slots_of_format { d with root := withSpot d.root (s.setNode n) }
  generalize format { d with root := withSpot d.root (s.setNode n) } = d' at hrest ho' hlead htrail ⊢
  obtain ⟨lead', root', trail'⟩ := d'
  obtain rfl : lead' = d.lead := hlead
  obtain rfl : trail' = d.trail := htrail
  obtain rfl : root' = o' := Node.object.inj ho'
  have hmem : ∀ m ∈ s.members, m.fresh = false ∧ m.node.AtRest := by
    rw [members_of_spot? hs]
    exact h.children
  obtain ⟨s', hs', hbefore, hhere, hafter⟩ :=
    spotIn?_of_forall₂ (fun _ _ => Member.StaysPut.name_eq) hput (spot?_setNode hs n)
  have hplaced : ∀ m ∈ s'.members, m.fresh = false := by
    rw [members_of_spotIn? hs']
    exact fun m hm => (hrest.children m hm).1
  -- the members on both sides are at rest before and after, and stay put in between
  have hbefore' : s'.before = s.before :=
    Member.eq_of_staysPut hbefore (fun m hm => hmem m (List.mem_append_left _ hm))
      fun m hm => hplaced m (List.mem_append_left _ hm)
  have hafter' : s'.after = s.after :=
    Member.eq_of_staysPut hafter
      (fun m hm => hmem m (List.mem_append_right _ (List.mem_cons_of_mem _ hm)))
      fun m hm => hplaced m (List.mem_append_right _ (List.mem_cons_of_mem _ hm))
  have hhere' : s'.here = { s.here with node := s'.here.node } :=
    hhere.eq_with_node ((hplaced s'.here (by simp [Spot.members])).trans
      (hmem s.here (by simp [Spot.members])).1.symm)
  refine ⟨s'.here.node, hhere.node, ?_⟩
  have hroot : root' = withSpot d.root (s.setNode s'.here.node) := by
    have hmembers : root'.children = (s.setNode s'.here.node).members := by
      rw [← members_of_spotIn? hs', Spot.members, hbefore', hafter', hhere']
      rfl
    obtain ⟨cs, closing, comma, dirty⟩ := root'
    obtain rfl : closing = d.root.closing := hclosing
    obtain rfl : comma = d.root.trailingComma := hcomma
    obtain rfl : dirty = false := (Node.everywhere_object.1 hrest).1.1
    rw [withSpot, ← hmembers, hdirty]
  rw [hroot]

end Document

/-! ### The object of an environment -/

/-- A variable on the line of its environment. -/
def envMember (lead : Text) (p : Text × Text) : Member :=
  ⟨lead, ⟨Literal.ofText p.1, [], [' ']⟩, Node.ofText p.2, [], false⟩

/-- An environment on one line. -/
def envLine (env : Table Text) : Object :=
  ⟨match env.entries with
    | [] => []
    | p :: ps => envMember [] p :: ps.map (envMember [' ']), [], false, false⟩

/-- The variables of a new environment are strings. -/
theorem node_of_mem_envObject {ownLine : Bool} {env : Table Text} {m : Member}
    (h : m ∈ (envObject ownLine env).children) :
    ∃ t, m.node = Node.ofText t ∧ m.trail = [] ∧ m.fresh = true ∧
      m.lead.breaksLine = ownLine := by
  obtain ⟨p, -, rfl⟩ := List.mem_map.1 h
  cases ownLine <;> exact ⟨p.2, rfl, rfl, rfl, rfl⟩

theorem isMultiline_envObject (ownLine : Bool) {env : Table Text} (henv : env.entries ≠ []) :
    (envObject ownLine env).isMultiline = ownLine := by
  have hany : ((envObject ownLine env).children.any fun k =>
      k.lead.breaksLine || k.trail.breaksLine || k.node.breaksLine) = ownLine := by
    have hchild : ∀ m ∈ (envObject ownLine env).children,
        (m.lead.breaksLine || m.trail.breaksLine || m.node.breaksLine) = ownLine := by
      intro m hm
      obtain ⟨t, hnode, htrail, -, hlead⟩ := node_of_mem_envObject hm
      rw [hlead, htrail, hnode]
      cases ownLine <;> rfl
    cases ownLine with
    | true =>
      obtain ⟨m, hm⟩ : ∃ m, m ∈ (envObject true env).children :=
        List.exists_mem_of_ne_nil _ (by simpa [envObject] using henv)
      exact List.any_eq_true.2 ⟨m, hm, hchild m hm⟩
    | false => exact List.any_eq_false.2 fun m hm => by simp [hchild m hm]
  rw [Composite.isMultiline, hany]
  cases ownLine <;> simp [envObject, Text.breaksLine, henv]

theorem inline_nil (empty left right : Text) : inline [] empty left right = some empty :=
  inline_of_hasComment_eq_false (by rfl)

/-- A new variable with nothing but a space behind the colon. -/
theorem tidy_new (p : Text × Text) : Composite.tidy (Member.new p.1 (Node.ofText p.2)) =
    ⟨[], ⟨Literal.ofText p.1, [], [' ']⟩, Node.ofText p.2, [], true⟩ := by
  simp [Composite.tidy, Member.new, Label.mapSlots, inline_nil]

/-- New children are a space apart. -/
theorem separator_of_fresh {κ ν : Type} {cs : List (Child κ ν)} (h : ∀ m ∈ cs, m.fresh = true) :
    Composite.separator cs = [' '] := by
  have hnone : cs.tail.find? (fun c => !c.fresh && !hasComment c.lead) = none :=
    List.find?_eq_none.2 fun m hm => by simp [h m (List.mem_of_mem_tail hm)]
  rw [Composite.separator, hnone]

/-- The variables of a new environment on one line. -/
theorem placeInline_envObject (env : Table Text) :
    Composite.placeInline [] ((envObject false env).children.map Composite.tidy) =
      (envLine env).children := by
  have htidy : (envObject false env).children.map Composite.tidy = env.entries.map fun p =>
      ⟨[], ⟨Literal.ofText p.1, [], [' ']⟩, Node.ofText p.2, [], true⟩ := by
    rw [envObject, List.map_map]
    exact List.map_congr_left fun p _ => tidy_new p
  rw [htidy, envLine]
  cases env.entries with
  | nil => rfl
  | cons p ps =>
    rw [List.map_cons, Composite.placeInline, separator_of_fresh]
    · simp [Composite.placeFirst, Composite.placeNext, envMember, inline_nil, hasComment,
        Text.hasPair]
    · refine List.forall_mem_cons.2 ⟨rfl, fun m hm => ?_⟩
      obtain ⟨q, -, rfl⟩ := List.mem_map.1 hm
      rfl

/-- On one line an environment is laid out to the same object, whatever document it is in. -/
theorem settle_envObject (standard : Bool) (env : Table Text) :
    Node.settle standard (.object (envObject false env)) = .object (envLine env) := by
  have hmultiline : (envObject false env).isMultiline = false := by
    by_cases henv : env.entries = []
    · simp [Composite.isMultiline, envObject, henv, hasComment, Text.hasPair]
    · exact isMultiline_envObject false henv
  have hcomma : (envObject false env).settledComma standard = false := by
    rw [Composite.settledComma, if_pos, hmultiline]
    · rfl
    · exact List.all_eq_true.2 fun m hm => (node_of_mem_envObject hm).choose_spec.2.2.1
  have hnodes : (envObject false env).map (Node.settle standard) = envObject false env :=
    Composite.map_of_forall_eq fun m hm => by
      obtain ⟨t, hnode, -⟩ := node_of_mem_envObject hm
      rw [hnode]
      rfl
  have hshift : Composite.shiftComments false [] [] (envObject false env).children =
      ((envObject false env).children, []) :=
    Composite.shiftComments_eq fun m hm => by
      obtain ⟨t, -, htrail, -⟩ := node_of_mem_envObject hm
      rw [htrail]
      exact Gap.nil.endsInLineComment_eq_false
  rw [Node.settle_object, if_pos (by rfl), hnodes, Composite.settle, hmultiline, hcomma]
  dsimp only
  rw [show (envObject false env).closing = [] from rfl, hshift]
  exact congrArg (fun cs => Node.object ⟨cs, [], false, false⟩) (placeInline_envObject env)

theorem exists_of_mem_envLine {env : Table Text} {m : Member} (h : m ∈ (envLine env).children) :
    ∃ lead p, m = envMember lead p ∧ lead.breaksLine = false := by
  rw [envLine] at h
  dsimp only at h
  split at h
  · simp at h
  · rename_i p ps _
    rcases List.mem_cons.1 h with rfl | h
    · exact ⟨[], p, rfl, rfl⟩
    · obtain ⟨q, -, rfl⟩ := List.mem_map.1 h
      exact ⟨[' '], q, rfl, rfl⟩

theorem breaksLine_envLine (env : Table Text) : (Node.object (envLine env)).breaksLine = false := by
  rw [Node.breaksLine_object, Composite.breaksLine, Composite.children_map, List.any_map,
    Bool.or_eq_false_iff, List.any_eq_false]
  refine ⟨rfl, fun m hm => ?_⟩
  obtain ⟨lead, p, rfl, hlead⟩ := exists_of_mem_envLine hm
  have hbreaks : Child.breaksLine ((envMember lead p).map Node.breaksLine) = false := by
    simp only [Child.breaksLine, Child.lead_map, envMember, hlead]
    rfl
  simpa using hbreaks

theorem atRest_envLine (env : Table Text) : (Node.object (envLine env)).AtRest := by
  refine Node.everywhere_object.2 ⟨⟨rfl, fun m hm => ?_⟩, fun m hm => ?_⟩
  · obtain ⟨lead, p, rfl, -⟩ := exists_of_mem_envLine hm
    rfl
  · obtain ⟨lead, p, rfl, -⟩ := exists_of_mem_envLine hm
    exact Node.everywhere_string.2 trivial

/-! ### A new environment after layout -/

/-- What is indented on several lines breaks a line. -/
theorem Node.breaksLine_indent_of_dirty {o : Object} (h : o.dirty = true) (step line : Text) :
    (indent step (.object o) line).breaksLine = true := by
  have hclosing : ((o.map (indent step)).indent step line).closing.breaksLine = true := by
    rw [Composite.indent, Composite.dirty_map, h]
    simp only [if_true, Composite.breakLines]
    split
    · assumption
    · simp [closingLine, Text.breaksLine]
  rw [indent_object, breaksLine_object, Composite.breaksLine, Composite.closing_map, hclosing,
    Bool.true_or]

namespace Node

variable {env : Table Text} {n : Node}

/-- **An environment on one line has one form after layout.** -/
theorem LaysOut.eq_envLine (h : (Node.object (envObject false env)).LaysOut n) (hrest : n.AtRest) :
    n = .object (envLine env) := by
  obtain rfl | ⟨standard, step, line, rfl⟩ := h
  · exact absurd (everywhere_object.1 hrest).1.1 (by simp [envObject])
  · rw [settle_envObject, indent_of_atRest step _ (atRest_envLine env)]

/-- **An environment breaks a line after layout** if it was put on lines of its own and has a
variable, and not otherwise. -/
theorem LaysOut.breaksLine_envObject {ownLine : Bool} (henv : env.entries ≠ [])
    (h : (Node.object (envObject ownLine env)).LaysOut n) (hrest : n.AtRest) :
    n.breaksLine = ownLine := by
  cases ownLine with
  | false => rw [h.eq_envLine hrest, breaksLine_envLine]
  | true =>
    obtain rfl | ⟨standard, step, line, rfl⟩ := h
    · exact absurd (everywhere_object.1 hrest).1.1 (by simp [envObject])
    · have hnodes : (envObject true env).map (settle standard) = envObject true env :=
        Composite.map_of_forall_eq fun m hm => by
          obtain ⟨t, hnode, -⟩ := node_of_mem_envObject hm
          rw [hnode]
          rfl
      rw [settle_object, if_pos (by rfl), hnodes]
      refine breaksLine_indent_of_dirty ?_ step line
      rw [Composite.settle, isMultiline_envObject true henv]
      rfl

end Node

/-- An environment without variables is the same object on one line or several. -/
theorem envObject_congr {ownLine ownLine' : Bool} {env : Table Text}
    (h : env.entries ≠ [] → ownLine = ownLine') : envObject ownLine env = envObject ownLine' env := by
  by_cases henv : env.entries = []
  · rw [envObject, envObject, henv]
    rfl
  · rw [h henv]

/-! ### Replacing the environment again -/

namespace Document

variable {d : Document} {env : Table Text} {s : Spot}

/-- An environment that is there is replaced where it is. -/
theorem exists_after_setEnv (h : d.AtRest) (hs : spot? d.root "env".toList = some s)
    (env : Table Text) :
    ∃ n, (Node.object (envObject s.here.node.breaksLine env)).LaysOut n ∧ n.AtRest ∧
      d.after (some (.setEnv env)) = { d with root := withSpot d.root (s.setNode n) } := by
  obtain ⟨n, hn, hd⟩ := format_setNode h hs (marked_envObject s.here.node.breaksLine env)
  have hafter : d.after (some (.setEnv env)) = { d with root := withSpot d.root (s.setNode n) } := by
    rw [after, Request.leave, EnvManifest.setEnv, hs]
    exact hd
  refine ⟨n, hn, ?_, hafter⟩
  have hrest : (d.after (some (.setEnv env))).AtRest := h.after _
  rw [hafter] at hrest
  exact (hrest.children (s.setNode n).here (by simp [withSpot, Spot.members])).2

/-- An environment that is missing is put on one line. -/
theorem exists_spot?_after_setEnv (h : d.AtRest) (hs : spot? d.root "env".toList = none)
    (env : Table Text) :
    ∃ s, spot? (d.after (some (.setEnv env))).root "env".toList = some s ∧
      s.here.node = .object (envLine env) := by
  have hrest : (d.after (some (.setEnv env))).AtRest := h.after _
  obtain ⟨o', ho', hmembers⟩ :=
    (laysOut_format { d with root := (Request.setEnv env).leave d.root }).object
  obtain rfl := Node.object.inj ho'
  have hspot : spot? ((Request.setEnv env).leave d.root) "env".toList =
      some ⟨d.root.children, Member.onOwnLine "env".toList (.object (envObject false env)), []⟩ := by
    rw [Request.leave, EnvManifest.setEnv, hs]
    exact spotIn?_members (s := ⟨d.root.children, _, []⟩) (not_mem_of_spotIn?_eq_none hs) rfl
  obtain ⟨s, hs₁, -, hhere, -⟩ :=
    spotIn?_of_forall₂ (fun _ _ => Member.LaysOut.name_eq) hmembers hspot
  exact ⟨s, hs₁, hhere.node.eq_envLine (hrest.children s.here (mem_of_spot? hs₁)).2⟩

/-- **Replacing the environment by the same one again changes nothing.** -/
theorem after_setEnv_setEnv (h : d.AtRest) (env : Table Text) :
    (d.after (some (.setEnv env))).after (some (.setEnv env)) = d.after (some (.setEnv env)) := by
  cases hs : spot? d.root "env".toList with
  | some s =>
    obtain ⟨n, hn, hrest, hafter⟩ := exists_after_setEnv h hs env
    -- the environment found by the second run asks for the object of the first one
    have hsame : envObject n.breaksLine env = envObject s.here.node.breaksLine env :=
      envObject_congr fun henv => hn.breaksLine_envObject henv hrest
    have hagain : (Request.setEnv env).leave (withSpot d.root (s.setNode n)) =
        (Request.setEnv env).leave d.root := by
      rw [Request.leave, Request.leave, EnvManifest.setEnv, EnvManifest.setEnv, spot?_setNode hs n, hs]
      exact congrArg (fun o => withSpot d.root (s.setNode (.object o))) hsame
    rw [hafter, after, hagain]
    exact hafter
  | none =>
    obtain ⟨s, hs₁, hnode⟩ := exists_spot?_after_setEnv h hs env
    have hrest : (d.after (some (.setEnv env))).AtRest := h.after _
    generalize d.after (some (.setEnv env)) = d₁ at hrest hs₁ ⊢
    obtain ⟨n, hn, hnrest, hafter⟩ := exists_after_setEnv hrest hs₁ env
    rw [hnode, breaksLine_envLine] at hn
    rw [hafter, hn.eq_envLine hnrest, ← hnode, withSpot_setNode_self hs₁]

end Document

end EnvManifest
