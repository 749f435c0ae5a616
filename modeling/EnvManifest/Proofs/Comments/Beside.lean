import EnvManifest.Proofs.Comments.Behind
import EnvManifest.Proofs.Migration

/-!
# Comments beside the packages

A comment behind the value of an entry, on the same line, is about that entry, whether it is in
front of the comma or behind it. Adding a package puts an entry at the end, and what is behind the
entries in front of it is laid out again. All but the last of them keep the comments beside them,
and the last one does under the condition of its composite (`Node.KeepsLine`): a comment behind a
trailing comma ends up beside the new entry (`Manifest.besides_run_add`).
-/

namespace EnvManifest

open Text Object

/-! ### The packages -/

namespace Node

/-- Each entry of an object or array as it is written, with what is behind it. -/
def behinds : Node → List (Text × Text)
  | .object ms => ms.behinds
  | .array es => es.behinds
  | _ => []

/-- The slot in front of the closing bracket. -/
def closing : Node → Text
  | .object ms => ms.closing
  | .array es => es.closing
  | _ => []

/-- The comments beside the last entry, if there is one, are in front of its comma, and none of
them is cut in two. -/
def KeepsLine : Node → Prop
  | .object ms => ms.KeepsLine
  | .array es => es.KeepsLine
  | _ => True

/-- Packages of some shape with one put at their end. -/
inductive Listed (v : VersionedName) : Node → Node → Prop
  | null : Listed v .null
      (.object (Composite.new.push (Member.onOwnLine v.name (Node.ofText v.version))))
  | object {pkgs : Object} : Object.spot? pkgs v.name = none → Listed v (.object pkgs)
      (.object (pkgs.push (Member.onOwnLine v.name (Node.ofText v.version))))
  | array (es : Elements) : Listed v (.array es)
      (.array (es.push
        { Value.ofText v.toText with lead := if es.children.isEmpty then [] else ['\n'] }))

namespace Listed

variable {v : VersionedName} {n n₁ n' : Node}

theorem isDirty (h : Listed v n n₁) : n₁.isDirty = true := by
  cases h with
  | null | object _ | array es => simp [Composite.push]

/-- **What is beside the packages** when one is put at their end and they are laid out. -/
theorem exists_grown (h : Listed v n n₁) (hcut : Everywhere CutHere n) (hrest : n.AtRest)
    {standard : Bool} {step : Text} (hlaid : LaidBy standard step n₁ n') :
    ∃ olds new, Grown n.behinds n'.behinds n.closing n.KeepsLine olds new := by
  obtain ⟨line, rfl⟩ := hlaid
  cases h with
  | null =>
    rw [indent_settle_object]
    have hkeeps : (Composite.new : Object).KeepsLine = True := by
      simp [Composite.KeepsLine, Composite.new]
    have hgrown := Composite.exists_grown_push (c := (Composite.new : Object))
      (k := Member.onOwnLine v.name (Node.ofText v.version)) ⟨by simp [Composite.new], .nil⟩
      (by simp [Composite.new]) (by simp [Composite.new]) (fun _ => rfl) rfl standard step line
    rw [hkeeps] at hgrown
    exact hgrown
  | @object pkgs _ =>
    rw [indent_settle_object]
    have hclean : ∀ m ∈ pkgs.children, m.node.isDirty = false := fun m hm =>
      isDirty_of_atRest _ ((everywhere_object.1 hrest).2 m hm)
    exact Composite.exists_grown_push hcut.here hrest.here.2 hclean (fun _ => rfl) rfl standard step
      line
  | array es =>
    rw [indent_settle_array]
    have hclean : ∀ e ∈ es.children, e.node.isDirty = false := fun e he =>
      isDirty_of_atRest _ ((everywhere_array.1 hrest).2 e he)
    exact Composite.exists_grown_push hcut.here hrest.here.2 hclean (fun hne => by simp [hne]) rfl
      standard step line

end Listed

end Node

namespace Object

/-- **A package that is not listed is put at the end.** -/
theorem exists_listed_addPackage {root : Object} {s : Spot} {v : VersionedName}
    {ps : List Package} {d : Nat} (hs : spot? root packagesKey = some s)
    (hin : PackagesIn d s.here.node ps ∨ s.here.node = .null) (hname : ∀ p ∈ ps, p.name ≠ v.name) :
    ∃ n, Node.Listed v s.here.node n ∧
      addPackage v root = (.ok true, putPackages root (s.setNode n) true) := by
  rw [addPackage, packagesSpot, hs]
  dsimp only [Spot.setNode]
  rcases hin with hin | hnull
  · generalize s.here.node = n at hin ⊢
    cases hin with
    | @object pkgs _ hps _ =>
      have hnone : spot? pkgs v.name = none := by
        refine spot?_eq_none fun m hm hmname => ?_
        have hmem : v.name ∈ ps.map Package.name := by
          rw [Package.names_of_decodeEntries hps, entries, map_fst_entry]
          exact List.mem_map.2 ⟨m, hm, hmname⟩
        obtain ⟨p, hp, hpname⟩ := List.mem_map.1 hmem
        exact hname p hp hpname
      have heditable : editablePackages false (.object pkgs) = .object pkgs := rfl
      refine ⟨_, .object hnone, ?_⟩
      rw [heditable]
      dsimp only
      rw [hnone]
    | array hps _ => exact ⟨_, .array _, rfl⟩
  · rw [hnull]
    exact ⟨_, .null, rfl⟩

end Object

namespace Document

/-- **Layout leaves the packages of a document in their place.** -/
theorem exists_packages?_format {d : Document} {n : Node} (h : packages? d.root = some n)
    (hn : n.isDirty = true) : ∃ n' step, packages? d.format.root = some n' ∧
      Node.LaidBy d.toValue.isStandard step n n' := by
  obtain ⟨s, hs, rfl⟩ := packages?_eq_some.1 h
  have hdirty : d.toValue.node.isDirty = true := by
    refine (Node.isDirty_object d.root).trans ?_
    rw [List.any_eq_true.2 ⟨s.here, mem_of_spot? hs, hn⟩, Bool.or_true]
  obtain ⟨step, hlaid⟩ := Value.laidBy_format hdirty
  rw [← toValue_format] at hlaid
  obtain ⟨root, hroot, hmembers⟩ := Node.LaidBy.object (o := d.root) hlaid
  obtain rfl : d.format.root = root := Node.object.inj hroot
  obtain ⟨s', hs', -, hhere, -⟩ :=
    spotIn?_of_forall₂ (fun m m' hm => congrArg Literal.value hm.1) hmembers hs
  exact ⟨s'.here.node, step, packages?_eq_some.2 ⟨s', hs', rfl⟩, hhere.2⟩

end Document

namespace Manifest

/-- **What is beside the packages when one is added** that is not listed. Adding it succeeds, and
the entries that there were keep the comments beside them, but for the last one: it keeps them
exactly if they are in front of its comma, or it has none, and no block comment among them is cut
in two. Then the new entry begins another line. A comment behind a trailing comma ends up beside
the new entry. -/
theorem besides_run_add {b : Octets} {m : Manifest} {text : Text} {n : Node}
    (h : loadOctets b = .ok m) (hn : packages? m.document.root = some n)
    (hname : ∀ p ∈ m.packages, p.name ≠ (VersionedName.ofText text).name) :
    (m.run (.add text)).result = .ok () ∧ ∃ n' olds new,
      packages? (m.run (.add text)).manifest.document.root = some n' ∧
      Grown n.behinds n'.behinds n.closing n.KeepsLine olds new := by
  obtain ⟨source, -, hload⟩ := loadOctets_eq_ok.1 h
  obtain ⟨hparse, hsaid, -⟩ := load_eq_ok.1 hload
  have hread := Value.parse_eq_ok.1 hparse
  obtain ⟨s₁, s₂, -, hnode, -, -⟩ := Value.run_of_readTo hread
  obtain ⟨s, hs, rfl⟩ := packages?_eq_some.1 hn
  have hcut : Node.Everywhere Node.CutHere s.here.node :=
    (Node.everywhere_object.1 (Parser.cut_of_run_node hnode)).2 s.here (mem_of_spot? hs)
  have hrest : s.here.node.AtRest :=
    (Node.everywhere_object.1 (Value.orderly_of_readTo hread).2.2.1.atRest).2 s.here
      (mem_of_spot? hs)
  obtain ⟨n, hlisted, hadd⟩ := exists_listed_addPackage hs
    ((gives_packages hsaid.gives hs).1.imp_right And.left) hname
  obtain ⟨s', hs', hhere⟩ := spot?_putPackages hs n true
  obtain ⟨n', step, hn', hlaid⟩ := Document.exists_packages?_format
    (d := { m.document with root := putPackages m.document.root (s.setNode n) true })
    (packages?_eq_some.2 ⟨s', hs', hhere⟩) hlisted.isDirty
  obtain ⟨olds, new, hgrown⟩ := hlisted.exists_grown hcut hrest hlaid
  have hfind : (m.find? (VersionedName.ofText text)).isSome = false := by
    rw [Option.isSome_eq_false_iff, Option.isNone_iff_eq_none, find?, List.find?_eq_none]
    intro p hp
    simp [hname p hp]
  have hrun : m.run (.add text) = ⟨.ok (), none, { m with
      document := Document.format
        { m.document with root := putPackages m.document.root (s.setNode n) true }
      packages := addedTo (VersionedName.ofText text) true m.packages }⟩ := by
    rw [run, add]
    dsimp only
    rw [hfind, if_neg (by simp), edited_eq (congrArg Prod.fst hadd), hadd]
  rw [hrun]
  exact ⟨rfl, n', olds, new, hn', hgrown⟩

/-- A block comment in front of a comma, a line comment behind it, and one without a comma. -/
theorem besides_run_add_commented :
    ∃ m n,
      loadOctets (utf8
        "\x7b\"packages\": [\n  \"go@1\" /* a */, // b\n  \"e\" // c\n]\x7d".toList) = .ok m ∧
      packages? m.document.root = some n ∧
      (∀ p ∈ m.packages, p.name ≠ (VersionedName.ofText "jq@2".toList).name) ∧
      (m.run (.add "jq@2".toList)).result = .ok () ∧ ∃ n' olds new,
        packages? (m.run (.add "jq@2".toList)).manifest.document.root = some n' ∧
        Grown n.behinds n'.behinds n.closing n.KeepsLine olds new := by
  obtain ⟨m, hm, n, hn, hnames⟩ : ∃ m, loadOctets (utf8
      "\x7b\"packages\": [\n  \"go@1\" /* a */, // b\n  \"e\" // c\n]\x7d".toList) = .ok m ∧
      ∃ n, packages? m.document.root = some n ∧
        ∀ p ∈ m.packages, p.name ≠ (VersionedName.ofText "jq@2".toList).name := by
    decide +kernel
  exact ⟨m, n, hm, hn, hnames, besides_run_add hm hn hnames⟩

/-- **A comment behind a trailing comma does not stay** with the entry that it is about. -/
theorem not_keeps_besides :
    ∃ m n n',
      loadOctets (utf8 "\x7b\"packages\": \x7b\n  \"go\": \"1\", // x\n\x7d\x7d".toList) = .ok m ∧
      packages? m.document.root = some n ∧
      (∀ p ∈ m.packages, p.name ≠ (VersionedName.ofText "jq@2".toList).name) ∧
      packages? (m.run (.add "jq@2".toList)).manifest.document.root = some n' ∧
      ¬besides n.behinds <+: besides n'.behinds := by
  obtain ⟨m, hm, n, hn, hnames, n', hn', hbesides⟩ : ∃ m, loadOctets (utf8
      "\x7b\"packages\": \x7b\n  \"go\": \"1\", // x\n\x7d\x7d".toList) = .ok m ∧
      ∃ n, packages? m.document.root = some n ∧
        (∀ p ∈ m.packages, p.name ≠ (VersionedName.ofText "jq@2".toList).name) ∧
        ∃ n', packages? (m.run (.add "jq@2".toList)).manifest.document.root = some n' ∧
          ¬besides n.behinds <+: besides n'.behinds := by
    decide +kernel
  exact ⟨m, n, n', hm, hn, hnames, hn', hbesides⟩

/-- A block comment that is cut in two does not stay either. -/
example : ∃ m, loadOctets (utf8
      "\x7b\"packages\": \x7b\"go\": \"1\" /* a\n b */\x7d\x7d".toList) = .ok m ∧
    ∃ n, packages? m.document.root = some n ∧
      ∃ n', packages? (m.run (.add "jq@2".toList)).manifest.document.root = some n' ∧
        ¬besides n.behinds <+: besides n'.behinds := by
  decide +kernel

end Manifest

end EnvManifest
