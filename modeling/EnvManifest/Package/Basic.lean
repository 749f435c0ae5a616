import EnvManifest.Package.PatchMode
import EnvManifest.Package.VersionedName

/-!
# Packages

A package of a manifest, with the settings that its entry can carry. The lists are
sets that keep the order in which their members were asked for: `missingFrom` is
what a request adds to one.
-/

namespace EnvManifest

/-- A package and its settings. -/
structure Package where
  name : Text
  version : Text
  disablePlugin : Bool
  /-- The platforms that the package is limited to, if any. -/
  platforms : List Text
  /-- The platforms that the package is kept off. -/
  excludedPlatforms : List Text
  /-- The older form of the patch mode `always`. -/
  patchGlibc : Bool
  patch : PatchMode
  /-- The outputs to install; none means the default one. -/
  outputs : List Text
  /-- What is allowed although it is known to be insecure. -/
  allowInsecure : List Text
deriving DecidableEq

namespace Package

/-- A package with nothing set but its version. -/
def ofVersion (v : VersionedName) : Package :=
  ⟨v.name, v.version, false, [], [], false, .auto, [], []⟩

/-- The name that a package is listed under. -/
def versionedName (p : Package) : Text :=
  VersionedName.toText ⟨p.name, p.version⟩

/-- **Whether a package is enabled on a platform**: it is one of those the package is
limited to or, if it is limited to none, not one of those it is kept off. -/
def isEnabledOn (p : Package) (platform : Text) : Bool :=
  if p.platforms.isEmpty then !p.excludedPlatforms.contains platform
  else p.platforms.contains platform

end Package

/-- The members of `wanted` that are not in `present`, each once and in order. -/
def missingFrom (present : List Text) : (wanted : List Text) → List Text
  | [] => []
  | w :: rest =>
    if w ∈ present then missingFrom present rest else w :: missingFrom (w :: present) rest

end EnvManifest
