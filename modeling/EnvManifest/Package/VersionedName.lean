import EnvManifest.Text.Basic

/-!
# Versioned names

A package is referred to by its name, with the version behind an `@` if one is
meant. Names may contain an `@` themselves, so the version is what follows the last
one; with nothing behind the last `@`, the whole text is a name without a version.
-/

namespace EnvManifest

/-- A package name and a version, which is empty if none is meant. -/
structure VersionedName where
  name : Text
  version : Text
deriving DecidableEq

namespace VersionedName

/-- The part behind the last `@`; the whole text if there is none. -/
def afterLastAt (s : Text) : Text :=
  (s.reverse.takeWhile (· != '@')).reverse

/-- The name and version that a text refers to. -/
def ofText (s : Text) : VersionedName :=
  let version := afterLastAt s
  if s.contains '@' && !version.isEmpty then ⟨s.take (s.length - version.length - 1), version⟩
  else ⟨s, []⟩

/-- The text that refers to a name and version. -/
def toText (v : VersionedName) : Text :=
  if v.version.isEmpty then v.name else v.name ++ '@' :: v.version

example : ofText "emacsPackages.@@latest".toList =
    ⟨"emacsPackages.@".toList, "latest".toList⟩ := by decide +kernel

example : ofText "emacsPackages.@".toList = ⟨"emacsPackages.@".toList, []⟩ := by decide +kernel

end VersionedName

end EnvManifest
