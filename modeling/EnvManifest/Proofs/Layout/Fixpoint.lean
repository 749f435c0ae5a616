import EnvManifest.Proofs.Layout.Steady

/-!
# Layout is a fixpoint

A document that is laid out as a whole, with every object and array marked (`Value.markAll`), comes
out the same if it is read again and laid out as a whole once more: reading leads back to the very
tree that was written, and layout to the same tree again (`Value.format_markAll_of_parse`).

Both follow from what layout leaves of a tree that was read. Every composite in it is steady
(`Node.steady_indent_settle`), and a steady tree is read back as it is and laid out as it is
(`Node.Steady.indent_settle`). How far the document is indented, and by which step, does not
matter the second time, since every line that begins in it has begun before.
-/

namespace EnvManifest

/-! ### Whole trees -/

namespace Node

/-- Marking, kind by kind. -/
def marking : Algebra Node where
  null := .null
  bool := .bool
  number := .number
  string := .string
  object ms := (Node.object ms).markDirty
  array es := (Node.array es).markDirty

/-- The node with the mark of an edit on every object and array in it. -/
def markAll (n : Node) : Node :=
  fold marking n

@[simp]
theorem markAll_object (ms : Object) :
    markAll (.object ms) = .object { ms.map markAll with dirty := true } := by
  rw [markAll, fold_object]
  rfl

@[simp]
theorem markAll_array (es : Elements) :
    markAll (.array es) = .array { es.map markAll with dirty := true } := by
  rw [markAll, fold_array]
  rfl

/-- What layout has no part in is not changed by marks either. -/
theorem fold_markAll {α : Type} {f : Algebra α} (hf : f.LayoutFree) :
    ∀ n : Node, fold f n.markAll = fold f n := by
  refine induction {
    null := rfl
    bool := fun _ => rfl
    number := fun _ => rfl
    string := fun _ => rfl
    object := fun ms ih => ?_
    array := fun es ih => ?_ }
  · rw [markAll_object, fold_object, fold_object]
    exact hf.object (Composite.view_map_map ih)
  · rw [markAll_array, fold_array, fold_array]
    exact hf.array (Composite.view_map_map ih)

/-- A node that is not dirty with all its marks is a leaf. -/
theorem markAll_of_not_isDirty {n : Node} (h : n.markAll.isDirty = false) (standard : Bool)
    (step line : Text) : indent step (settle standard n.markAll) line = n.markAll := by
  cases n with
  | object ms => simp at h
  | array es => simp at h
  | null | bool b | number t | string l => rfl

/-- An object or array that was read is settled, with all its marks, by arranging it. -/
theorem settle_markAll_object {o : Object} (h : o.AsRead) (standard : Bool) :
    settle standard (markAll (.object o)) =
      .object (o.map fun n => settle standard n.markAll).arranged := by
  rw [markAll_object, settle_object, if_pos rfl,
    ← Composite.settle_of_asRead (Composite.asRead_map.2 h) standard]
  exact congrArg (fun cs => Node.object
    (Composite.settle standard ⟨cs, o.closing, o.trailingComma, true⟩)) List.map_map

theorem settle_markAll_array {es : Elements} (h : es.AsRead) (standard : Bool) :
    settle standard (markAll (.array es)) =
      .array (es.map fun n => settle standard n.markAll).arranged := by
  rw [markAll_array, settle_array, if_pos rfl,
    ← Composite.settle_of_asRead (Composite.asRead_map.2 h) standard]
  exact congrArg (fun cs => Node.array
    (Composite.settle standard ⟨cs, es.closing, es.trailingComma, true⟩)) List.map_map

/-- What is between the brackets of a node is left as it is by layout and by reading. -/
def SteadyHere : Node → Prop
  | .object ms => ms.Steady
  | .array es => es.Steady
  | _ => True

/-- A tree is left as it is by layout and by reading. -/
def Steady (n : Node) : Prop :=
  Everywhere SteadyHere n

theorem Steady.asRead {n : Node} (h : n.Steady) : n.AsRead :=
  h.mono fun n hn => match n with
    | .object _ | .array _ => Composite.Steady.read hn
    | .null | .bool _ | .number _ | .string _ => trivial

/-- The nodes in a node with all its marks are the nodes in it with all theirs. -/
theorem exists_of_mem_inner_markAll {n k : Node} (hk : k ∈ n.markAll.inner) :
    ∃ k' ∈ n.inner, k = k'.markAll := by
  cases n with
  | object ms =>
    rw [markAll_object] at hk
    obtain ⟨m, hm, rfl⟩ := List.mem_map.1 hk
    obtain ⟨m', hm', rfl⟩ := List.mem_map.1 hm
    exact ⟨m'.node, List.mem_map_of_mem hm', rfl⟩
  | array es =>
    rw [markAll_array] at hk
    obtain ⟨e, he, rfl⟩ := List.mem_map.1 hk
    obtain ⟨e', he', rfl⟩ := List.mem_map.1 he
    exact ⟨e'.node, List.mem_map_of_mem he', rfl⟩
  | null | bool b | number t | string l => exact absurd hk List.not_mem_nil

/-- Layout of one node leaves it steady, if it does not change which nodes in it break the
line. -/
theorem steadyHere_indent_settle {standard : Bool} {step line : Text} (hstep : Spaces step)
    (hline : Spaces line) {n : Node} (hread : n.AsReadHere)
    (hinner : ∀ k ∈ n.inner, ∀ line, Spaces line →
      (indent step (settle standard k.markAll) line).breaksLine =
        (settle standard k.markAll).breaksLine) :
    (indent step (settle standard n.markAll) line).SteadyHere ∧
      (indent step (settle standard n.markAll) line).breaksLine =
        (settle standard n.markAll).breaksLine := by
  cases n with
  | object ms =>
    rw [settle_markAll_object hread, indent_object, breaksLine_object, breaksLine_object]
    refine Composite.steady_arrangedAt (Composite.asRead_map.2 hread) hstep hline fun k hk => ?_
    obtain ⟨m, hm, rfl⟩ := List.mem_map.1 hk
    exact hinner m.node (List.mem_map_of_mem hm)
  | array es =>
    rw [settle_markAll_array hread, indent_array, breaksLine_array, breaksLine_array]
    refine Composite.steady_arrangedAt (Composite.asRead_map.2 hread) hstep hline fun k hk => ?_
    obtain ⟨e, he, rfl⟩ := List.mem_map.1 hk
    exact hinner e.node (List.mem_map_of_mem he)
  | null | bool b | number t | string l => exact ⟨trivial, rfl⟩

/-- **Layout of what was read leaves it steady**, with all its marks. -/
theorem steady_indent_settle {standard : Bool} {step : Text} (hstep : Spaces step) (n : Node)
    (h : n.AsRead) : ∀ line, Spaces line →
      (indent step (settle standard n.markAll) line).Steady ∧
        (indent step (settle standard n.markAll) line).breaksLine =
          (settle standard n.markAll).breaksLine := by
  induction h with
  | mk hhere _ ih =>
    intro line hline
    obtain ⟨hsteady, hbreaks⟩ := steadyHere_indent_settle hstep hline hhere
      fun k hk line' hline' => (ih k hk line' hline').2
    refine ⟨.mk hsteady fun k hk => ?_, hbreaks⟩
    -- a node in it went through all three passes
    obtain ⟨k₁, hk₁, line', hline', rfl⟩ := exists_of_mem_inner_indent hline hk
    obtain ⟨k₂, hk₂, rfl⟩ := exists_of_mem_inner_settle hk₁
    obtain ⟨k₃, hk₃, rfl⟩ := exists_of_mem_inner_markAll hk₂
    exact (ih k₃ hk₃ line' hline').1

/-- **A steady tree is laid out as it was**, with all its marks. -/
theorem Steady.indent_settle {standard : Bool} {step : Text} : ∀ n : Node, n.Steady →
    (settle standard n.markAll).breaksLine = n.breaksLine ∧
      ∀ line, indent step (settle standard n.markAll) line = n := by
  refine induction {
    null := fun _ => ⟨rfl, fun _ => rfl⟩
    bool := fun _ _ => ⟨rfl, fun _ => rfl⟩
    number := fun _ _ => ⟨rfl, fun _ => rfl⟩
    string := fun _ _ => ⟨rfl, fun _ => rfl⟩
    object := fun ms ih h => ?_
    array := fun es ih h => ?_ }
  · obtain ⟨hhere, hinner⟩ := everywhere_object.1 h
    have hstay := fun line => Composite.Steady.arrangedAt_map hhere step line
      (f := fun n => settle standard n.markAll)
      (fun m hm => (ih m hm (hinner m hm)).1) fun m hm => (ih m hm (hinner m hm)).2
    rw [settle_markAll_object (Composite.Steady.read hhere), breaksLine_object, breaksLine_object]
    refine ⟨(hstay []).2, fun line => ?_⟩
    rw [indent_object]
    exact congrArg Node.object (hstay line).1
  · obtain ⟨hhere, hinner⟩ := everywhere_array.1 h
    have hstay := fun line => Composite.Steady.arrangedAt_map hhere step line
      (f := fun n => settle standard n.markAll)
      (fun e he => (ih e he (hinner e he)).1) fun e he => (ih e he (hinner e he)).2
    rw [settle_markAll_array (Composite.Steady.read hhere), breaksLine_array, breaksLine_array]
    refine ⟨(hstay []).2, fun line => ?_⟩
    rw [indent_array]
    exact congrArg Node.array (hstay line).1

end Node

/-! ### Documents -/

namespace Value

/-- The document with the mark of an edit on every object and array in it. -/
def markAll (v : Value) : Value :=
  { v with node := v.node.markAll }

/-- A document with all its marks is settled and indented. -/
theorem exists_format_markAll (v : Value) : ∃ step line, Spaces step ∧ Spaces line ∧
    v.markAll.format = { v with
      node := Node.indent step (Node.settle v.markAll.isStandard v.node.markAll) line } := by
  refine ⟨_, _, v.markAll.spaces_step, v.markAll.spaces_line, ?_⟩
  rw [format]
  split
  · rfl
  · rename_i hclean
    rw [Bool.not_eq_true] at hclean
    rw [Node.markAll_of_not_isDirty hclean]
    rfl

/-- **Layout of a whole document that was read** is read back as it is, and is laid out as it
is. -/
theorem format_markAll_of_parse {s : Text} {v : Value} (h : parse s = .ok v) :
    parse v.markAll.format.pack = .ok v.markAll.format ∧
      v.markAll.format.markAll.format = v.markAll.format := by
  obtain ⟨-, hlead, horderly, htrail, hfresh⟩ := orderly_of_readTo (parse_eq_ok.1 h)
  have hfits : v.markAll.format.node.Fits maxDepth := by
    refine v.markAll.fits_format.2 ?_
    rw [Node.Fits, markAll, Node.fold_markAll Node.layoutFree_fitting]
    exact horderly.fits
  obtain ⟨step, line, hstep, hline, hformat⟩ := v.exists_format_markAll
  have hsteady : (Node.indent step (Node.settle v.markAll.isStandard v.node.markAll) line).Steady :=
    (Node.steady_indent_settle hstep v.node (asRead_of_parse h) line hline).1
  rw [hformat] at hfits ⊢
  refine ⟨parse_pack hlead hfits hsteady.asRead htrail hfresh, ?_⟩
  generalize Node.indent step (Node.settle v.markAll.isStandard v.node.markAll) line = n at hsteady
  obtain ⟨step', line', -, -, hagain⟩ := exists_format_markAll { v with node := n }
  rw [hagain, (Node.Steady.indent_settle n hsteady).2]

/-- **Layout of a whole document is a fixpoint**: it is accepted, and laid out as a whole again
after it was read it is the same text. -/
theorem exists_parse_format_markAll {s : Text} {v : Value} (h : parse s = .ok v) :
    ∃ w, parse v.markAll.format.pack = .ok w ∧
      w.markAll.format.pack = v.markAll.format.pack := by
  obtain ⟨hparse, hformat⟩ := format_markAll_of_parse h
  exact ⟨v.markAll.format, hparse, congrArg pack hformat⟩

/-- A document with a comment cut in two, comments on the line of a bracket and a composite that
goes on several lines because of what is in it. -/
theorem exists_parse_format_markAll_commented :
    ∃ v, parse "[ /* a */ \x7b\"b\": [1 /* c\n */]\x7d, // d\n\x7b \"e\": 2 \x7d]".toList = .ok v ∧
      ∃ w, parse v.markAll.format.pack = .ok w ∧
        w.markAll.format.pack = v.markAll.format.pack := by
  obtain ⟨v, hv⟩ : ∃ v,
      parse "[ /* a */ \x7b\"b\": [1 /* c\n */]\x7d, // d\n\x7b \"e\": 2 \x7d]".toList = .ok v := by
    decide +kernel
  exact ⟨v, hv, exists_parse_format_markAll hv⟩

end Value

end EnvManifest
