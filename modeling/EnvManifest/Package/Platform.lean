import EnvManifest.Text.Basic

/-!
# Platforms

A package may be limited to some platforms. A platform is written `arch-os`, and
there are six of them.
-/

namespace EnvManifest

/-- The platforms that there are, in order. -/
def supportedPlatforms : List Text :=
  ["aarch64-darwin".toList, "aarch64-linux".toList, "armv7l-linux".toList, "i686-linux".toList,
    "x86_64-darwin".toList, "x86_64-linux".toList]

/-- The first of some texts that is no platform. -/
def firstUnsupported? (platforms : List Text) : Option Text :=
  platforms.find? fun p => !supportedPlatforms.contains p

/-- There is none exactly if all of them are platforms. -/
theorem firstUnsupported?_eq_none_iff {platforms : List Text} :
    firstUnsupported? platforms = none ↔ ∀ p ∈ platforms, p ∈ supportedPlatforms := by
  simp [firstUnsupported?]

end EnvManifest
