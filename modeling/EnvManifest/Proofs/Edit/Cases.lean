import EnvManifest.Manifest.PackageEdit

/-!
# What edits of packages can leave

An edit of packages looks for them first, and what it leaves of the root depends on what it has
found. Here this is said once for each of them, case by case and with what has been found in the
case (`addPackage_cases`, `removePackage_cases`, `editSettings_cases`, `removePatchMode_cases`).
What is proved of everything that an edit can leave is proved for these cases.
-/

namespace EnvManifest

open Object

/-- Adding a package leaves the packages where it has found them, gives another version to a
package that is listed, or lists it: under its name, or as an element. -/
@[elab_as_elim]
theorem addPackage_cases {motive : Object → Prop} (v : VersionedName) (root : Object)
    (kept : motive (withSpot (packagesSpot false root).1 (packagesSpot false root).2))
    (version : ∀ {pkgs entry n}, (packagesSpot false root).2.here.node = .object pkgs →
      spot? pkgs v.name = some entry → entryWithVersion? v.version entry.here.node = some n →
      motive (putPackages (packagesSpot false root).1 ((packagesSpot false root).2.setNode
        (.object (withSpot pkgs (entry.setNode n)))) true))
    (name : ∀ {pkgs}, (packagesSpot false root).2.here.node = .object pkgs →
      spot? pkgs v.name = none →
      motive (putPackages (packagesSpot false root).1 ((packagesSpot false root).2.setNode
        (.object (pkgs.push (Member.onOwnLine v.name (Node.ofText v.version))))) true))
    (element : ∀ {es : Elements}, (packagesSpot false root).2.here.node = .array es →
      motive (putPackages (packagesSpot false root).1 ((packagesSpot false root).2.setNode
        (.array (es.push { Value.ofText v.toText with
          lead := if es.children.isEmpty then [] else ['\n'] }))) true)) :
    motive (addPackage v root).2 := by
  rw [addPackage]
  dsimp only
  cases hnode : (packagesSpot false root).2.here.node with
  | object pkgs =>
    dsimp only
    cases hentry : spot? pkgs v.name with
    | none => exact name hnode hentry
    | some entry =>
      dsimp only
      cases hn : entryWithVersion? v.version entry.here.node with
      | none => exact kept
      | some n => exact version hnode hentry hn
  | array es => exact element hnode
  | null | bool b | number t | string l => exact kept

/-- Removing a package leaves the root as it was, or takes out an entry of the name or an element
that refers to the package. -/
@[elab_as_elim]
theorem removePackage_cases {motive : Object → Prop} (v : VersionedName) (root : Object)
    (kept : motive root)
    (name : ∀ {s pkgs}, spot? root packagesKey = some s → s.here.node = .object pkgs →
      motive (withSpot root (s.setNode (.object (removeFirst pkgs v.name)))))
    (element : ∀ {s} {es : Elements} {i}, spot? root packagesKey = some s →
      s.here.node = .array es → elementIndex? v es = some i →
      motive (withSpot root (s.setNode (.array (es.remove i))))) :
    motive (removePackage v root).2 := by
  rw [removePackage]
  cases hs : spot? root packagesKey with
  | none => exact kept
  | some s =>
    dsimp only
    cases hnode : s.here.node with
    | object pkgs => exact name hs hnode
    | array es =>
      dsimp only
      cases hi : elementIndex? v es with
      | none => exact kept
      | some i => exact element hs hnode hi
    | null | bool b | number t | string l => exact kept

/-- Editing the settings of a package leaves the packages where they were found, or puts other
settings into an entry of the name. -/
@[elab_as_elim]
theorem editSettings_cases {motive : Object → Prop} (name : Text) (e : Edit Unit) (root : Object)
    (kept : motive (withSpot (packagesSpot true root).1 (packagesSpot true root).2))
    (settings : ∀ {pkgs entry}, (packagesSpot true root).2.here.node = .object pkgs →
      spot? pkgs name = some entry →
      motive (withSpot (packagesSpot true root).1 ((packagesSpot true root).2.setNode
        (.object (withSpot pkgs (entry.setNode (.object (e (settingsOf entry.here.node)).2))))))) :
    motive (editSettings name e root).2 := by
  rw [editSettings]
  dsimp only
  cases hnode : (packagesSpot true root).2.here.node with
  | object pkgs =>
    dsimp only
    cases hentry : spot? pkgs name with
    | none => exact kept
    | some entry => exact settings hnode hentry
  | null | bool b | number t | string l | array es => exact kept

/-- Removing the patch mode of a package leaves the root as it was, or takes the mode out of
settings that were there. -/
@[elab_as_elim]
theorem removePatchMode_cases {motive : Object → Prop} (name : Text) (root : Object)
    (kept : motive root)
    (settings : ∀ {s pkgs entry settings}, spot? root packagesKey = some s →
      s.here.node = .object pkgs → spot? pkgs name = some entry →
      entry.here.node = .object settings →
      motive (withSpot root (s.setNode (.object (withSpot pkgs (entry.setNode
        (.object (removeFirst (removeFirst settings patchKey) patchGlibcKey)))))))) :
    motive (removePatchMode name root).2 := by
  rw [removePatchMode]
  cases hs : spot? root packagesKey with
  | none => exact kept
  | some s =>
    dsimp only
    cases hnode : s.here.node with
    | object pkgs =>
      dsimp only
      cases hentry : spot? pkgs name with
      | none => exact kept
      | some entry =>
        dsimp only
        cases hsettings : entry.here.node with
        | object o => exact settings hs hnode hentry hsettings
        | null | bool b | number t | string l | array es => exact kept
    | null | bool b | number t | string l | array es => exact kept

end EnvManifest
