import EnvManifest.Text.Utf8

/-!
# Stores

Manifests are kept in files. A `Store` says what there is at each path: a directory, a
file with its octets, or nothing. A path is the list of the names that lead to it from
the top directory, which is always there.

What one path holds does not bear on another: `Store.find?_put` is all there is to say
about putting an item.
-/

namespace EnvManifest

/-- The names that lead from the top directory to a file or directory. -/
abbrev FilePath := List Text

/-- What there can be at a path. -/
inductive Item where
  | directory
  | file (content : Octets)
deriving DecidableEq

/-- Files and directories at their paths. -/
structure Store where
  /-- The items below the top directory. -/
  items : List (FilePath × Item)

namespace Store

/-- A store with nothing but the top directory. -/
def empty : Store :=
  ⟨[]⟩

/-- What there is at a path. -/
def find? (s : Store) (p : FilePath) : Option Item :=
  if p = [] then some .directory else s.items.lookup p

/-- The store with an item at a path, in place of what was there. -/
def put (s : Store) (p : FilePath) (x : Item) : Store :=
  ⟨(p, x) :: s.items.filter fun e => e.1 != p⟩

@[simp]
theorem find?_top (s : Store) : s.find? [] = some .directory := rfl

@[simp]
theorem find?_empty {p : FilePath} (h : p ≠ []) : empty.find? p = none := by
  simp [find?, empty, h]

/-- Dropping the entries of one key leaves every other key what it had. -/
theorem lookup_filter_ne {p q : FilePath} (h : q ≠ p) (items : List (FilePath × Item)) :
    (items.filter fun e => e.1 != p).lookup q = items.lookup q := by
  induction items with
  | nil => rfl
  | cons e rest ih =>
    obtain ⟨k, x⟩ := e
    by_cases hk : k = p
    · subst hk
      simpa [List.lookup_cons, beq_eq_false_iff_ne.2 h] using ih
    · simp [List.lookup_cons, hk, ih]

/-- **Putting an item changes what is at its path and nothing else.** -/
theorem find?_put {s : Store} {p : FilePath} (hp : p ≠ []) (x : Item) (q : FilePath) :
    (s.put p x).find? q = if q = p then some x else s.find? q := by
  by_cases hq : q = p
  · subst hq
    simp [find?, put, hp]
  · by_cases ht : q = []
    · subst ht
      simp [hq]
    · simp [find?, put, hq, ht, List.lookup_cons, beq_eq_false_iff_ne.2 hq, lookup_filter_ne hq]

end Store

end EnvManifest
