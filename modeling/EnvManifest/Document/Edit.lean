import EnvManifest.Document.Pack
import EnvManifest.Document.Trivia

/-!
# Editing composites

The edits that a composite knows: taking a child out, and singling out the first
member of a name to replace or rename it. Taking out a child leaves a comment behind
that stood on the line of the child in front of it: it was about that child.

A `Spot` is a member singled out among its siblings. Putting the members of a spot
back gives the object again (`Object.members_of_spot?`), whatever has been done to
the member in between.
-/

namespace EnvManifest

/-! ### Taking a child out -/

/-- The composite without the child at place `i`. The comment that shares a line with
what is in front of the child goes to the slot behind. -/
def Composite.remove {κ ν : Type} (c : Composite κ ν) (i : Nat) : Composite κ ν :=
  match c.children.drop i with
  | [] => c
  | [removed] =>
    ⟨c.children.take i, sameLine removed.lead ++ c.closing, c.trailingComma, true⟩
  | removed :: next :: rest =>
    ⟨c.children.take i ++ { next with lead := sameLine removed.lead ++ next.lead } :: rest,
      c.closing, c.trailingComma, true⟩

/-- Taking out a child takes out the child at that place, nodes and labels apart from
it being left as they were. -/
theorem Composite.nodes_remove {κ ν : Type} (c : Composite κ ν) (i : Nat) :
    (c.remove i).children.map (fun k => (k.label, k.node)) =
      (c.children.eraseIdx i).map (fun k => (k.label, k.node)) := by
  rw [List.eraseIdx_eq_take_drop_succ]
  have hdrop : c.children.drop (i + 1) = (c.children.drop i).drop 1 := by
    rw [List.drop_drop]
  rw [remove, hdrop]
  match h : c.children.drop i with
  | [] =>
    have hlen : c.children.length ≤ i := List.drop_eq_nil_iff.1 h
    simp [List.take_of_length_le hlen]
  | [_] => simp
  | _ :: _ :: _ => simp

/-! ### Members by name -/

/-- A member singled out among its siblings. -/
structure Spot where
  before : List Member
  here : Member
  after : List Member

namespace Spot

/-- The members of the object, in order. -/
def members (s : Spot) : List Member :=
  s.before ++ s.here :: s.after

/-- The spot with another node. -/
def setNode (s : Spot) (n : Node) : Spot :=
  { s with here := { s.here with node := n } }

end Spot

/-- The first of some members that has a name. -/
def spotIn? (name : Text) : List Member → Option Spot
  | [] => none
  | m :: ms =>
    if Member.name m = name then some ⟨[], m, ms⟩
    else (spotIn? name ms).map fun s => { s with before := m :: s.before }

theorem members_of_spotIn? {name : Text} {ms : List Member} {s : Spot}
    (h : spotIn? name ms = some s) : s.members = ms := by
  induction ms generalizing s with
  | nil => simp [spotIn?] at h
  | cons m ms ih =>
    simp only [spotIn?] at h
    split at h
    · obtain rfl := Option.some.inj h
      rfl
    · obtain ⟨t, ht, rfl⟩ := Option.map_eq_some_iff.1 h
      have := ih ht
      simp only [Spot.members] at this ⊢
      simp [this]

theorem name_of_spotIn? {name : Text} {ms : List Member} {s : Spot}
    (h : spotIn? name ms = some s) : Member.name s.here = name := by
  induction ms generalizing s with
  | nil => simp [spotIn?] at h
  | cons m ms ih =>
    simp only [spotIn?] at h
    split at h
    · rename_i hm
      obtain rfl := Option.some.inj h
      exact hm
    · obtain ⟨t, ht, rfl⟩ := Option.map_eq_some_iff.1 h
      have hname := ih ht
      exact hname

namespace Object

/-- The first member of a name. -/
def spot? (o : Object) (name : Text) : Option Spot :=
  spotIn? name o.children

/-- The object with the members of a spot. -/
def withSpot (o : Object) (s : Spot) : Object :=
  { o with children := s.members }

theorem members_of_spot? {o : Object} {name : Text} {s : Spot} (h : spot? o name = some s) :
    s.members = o.children :=
  members_of_spotIn? h

/-- The place of the first member of a name. -/
def index? (o : Object) (name : Text) : Option Nat :=
  (spot? o name).map fun s => s.before.length

/-- The object without the first member of a name. -/
def removeFirst (o : Object) (name : Text) : Object :=
  match index? o name with
  | some i => o.remove i
  | none => o

/-- The object with the first member of a name set to a node, or with a new member on
a line of its own. -/
def setOrPush (o : Object) (name : Text) (n : Node) : Object :=
  match spot? o name with
  | some s => withSpot o (s.setNode n)
  | none => o.push (Member.onOwnLine name n)

end Object

end EnvManifest
