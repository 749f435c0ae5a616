import EnvManifest.Text.Basic

/-!
# Patch modes

When the binaries of a package are patched: by default where a problem is known,
always, or never. A mode is written as one word.
-/

namespace EnvManifest

/-- When the binaries of a package are patched. -/
inductive PatchMode where
  /-- Where a problem with the package is known. -/
  | auto
  | always
  | never
deriving DecidableEq

namespace PatchMode

/-- The word for a mode. -/
def toText : PatchMode → Text
  | auto => "auto".toList
  | always => "always".toList
  | never => "never".toList

/-- The mode that a word stands for. -/
def ofText? (s : Text) : Option PatchMode :=
  if s = auto.toText then some auto
  else if s = always.toText then some always
  else if s = never.toText then some never
  else none

/-- A word stands for a mode exactly if it is the word for it. -/
theorem ofText?_eq_some_iff {s : Text} {m : PatchMode} : ofText? s = some m ↔ s = m.toText := by
  constructor
  · intro h
    simp only [ofText?] at h
    split at h
    · rename_i hs
      exact Option.some.inj h ▸ hs
    · split at h
      · rename_i hs
        exact Option.some.inj h ▸ hs
      · split at h
        · rename_i hs
          exact Option.some.inj h ▸ hs
        · simp at h
  · rintro rfl
    cases m <;> decide

end PatchMode

end EnvManifest
