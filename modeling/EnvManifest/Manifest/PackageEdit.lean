import EnvManifest.Manifest.Document
import EnvManifest.Package.Basic
import EnvManifest.Text.Blank

/-!
# Editing the packages of a document

The packages of a manifest are written in one of several shapes, and every edit has to
cope with all of them:

| packages | an entry |
|---|---|
| missing, or null | – |
| an array of versioned names | a string |
| an object of entries by name | a version, null, or an object of settings |

An entry of the array can hold nothing but a version. An edit that sets anything else
first turns the array into an object (`migrated`), each element becoming a member with
its comments, and then the entry it is about into an object (`settingsOf`). Adding and
removing leave the shape as it is.
-/

namespace EnvManifest

/-- The name of the member that holds the packages. -/
def packagesKey : Text := "packages".toList

/-! ### Shapes -/

/-- The member that an element of the array becomes: its comments go in front of the
name, and a comment behind it stays behind. An element that is no string is left
out. -/
def migratedElement (e : Value) : Option Member :=
  match e.node.text? with
  | none => none
  | some text =>
    let v := VersionedName.ofText text
    let comment := Text.trim e.lead
    let lead := if comment.isEmpty then ['\n'] else '\n' :: comment ++ ['\n']
    let trail := if hasComment e.trail then e.trail else []
    some ⟨lead, ⟨Literal.ofText v.name, [], []⟩, Node.ofText v.version, trail, true⟩

/-- The object that an array of packages becomes. -/
def migrated (es : Elements) : Object :=
  ⟨es.children.filterMap migratedElement, es.closing, false, true⟩

/-- The packages in a shape that can be edited: null becomes an empty object, and an
array becomes an object if `migrate` says so. -/
def editablePackages (migrate : Bool) : Node → Node
  | .null => .object Composite.new
  | .array es => if migrate then .object (migrated es) else .array es
  | n => n

/-- The member that holds the packages, in a shape that can be edited; it is put at the
end of the root if it is missing. -/
def packagesSpot (migrate : Bool) (root : Object) : Object × Spot :=
  match Object.spot? root packagesKey with
  | some s => (root, s.setNode (editablePackages migrate s.here.node))
  | none =>
    let m := Member.onOwnLine packagesKey (.object Composite.new)
    (root.push m, ⟨root.children, m, []⟩)

/-- The settings of an entry: those of an object as they are, those of a version
alone as an object of its own. -/
def settingsOf (entry : Node) : Object :=
  match entry with
  | .object o => o
  | n =>
    match n.text? with
    | some (c :: cs) =>
      Composite.new.push (Member.onOwnLine "version".toList (Node.ofText (c :: cs)))
    | _ => Composite.new

/-! ### Adding and removing -/

/-- The entry with another version, if that changes anything. -/
def entryWithVersion? (version : Text) : Node → Option Node
  | .string l => if l.value = version then none else some (Node.ofText version)
  | .object o =>
    match Object.spot? o "version".toList with
    | some s =>
      if version.isEmpty then some (.object (Object.removeFirst o "version".toList))
      else if s.here.node.text? = some version then none
      else some (.object (Object.withSpot o (s.setNode (Node.ofText version))))
    | none =>
      if version.isEmpty then none
      else some (.object (o.push (Member.onOwnLine "version".toList (Node.ofText version))))
  | _ => some (Node.ofText version)

/-- The root with the packages put back; if they were changed, their member has to
start a line of its own. -/
def putPackages (root : Object) (s : Spot) (changed : Bool) : Object :=
  if changed && !s.here.lead.breaksLine then
    let here : Member := { s.here with lead := '\n' :: s.here.lead, fresh := true }
    { Object.withSpot root { s with here := here } with dirty := true }
  else Object.withSpot root s

/-- **Adding a package.** An object lists a name once, so a listed package gets the
version instead; the array may list several versions. Answers whether there is an
entry more. -/
def addPackage (v : VersionedName) : Edit Bool := fun root =>
  let (root, s) := packagesSpot false root
  match s.here.node with
  | .object pkgs =>
    match Object.spot? pkgs v.name with
    | some entry =>
      match entryWithVersion? v.version entry.here.node with
      | some n =>
        let pkgs := Object.withSpot pkgs (entry.setNode n)
        (.ok false, putPackages root (s.setNode (.object pkgs)) true)
      | none => (.ok false, Object.withSpot root s)
    | none =>
      let pkgs := pkgs.push (Member.onOwnLine v.name (Node.ofText v.version))
      (.ok true, putPackages root (s.setNode (.object pkgs)) true)
  | .array es =>
    let e := Value.ofText v.toText
    let lead := if es.children.isEmpty then [] else ['\n']
    let es := es.push { e with lead := lead }
    (.ok true, putPackages root (s.setNode (.array es)) true)
  | n => (.error (.packagesKind n.kindName), Object.withSpot root s)

/-- The place of the first element that refers to a versioned name. -/
def elementIndex? (v : VersionedName) (es : Elements) : Option Nat :=
  es.children.findIdx? fun e => e.node.text?.map VersionedName.ofText == some v

/-- **Removing a package.** In the array the version has to be the one given. -/
def removePackage (v : VersionedName) : Edit Unit := fun root =>
  match Object.spot? root packagesKey with
  | none => (.ok (), root)
  | some s =>
    match s.here.node with
    | .object pkgs =>
      (.ok (), Object.withSpot root (s.setNode (.object (Object.removeFirst pkgs v.name))))
    | .array es =>
      match elementIndex? v es with
      | some i => (.ok (), Object.withSpot root (s.setNode (.array (es.remove i))))
      | none => (.ok (), root)
    | .null => (.ok (), root)
    | n => (.error (.packagesKind n.kindName), root)

/-! ### Settings of a package -/

/-- An edit of the settings of a package; nothing happens to the settings if the
package is not listed. -/
def editSettings (name : Text) (e : Edit Unit) : Edit Unit := fun root =>
  let (root, s) := packagesSpot true root
  match s.here.node with
  | .object pkgs =>
    match Object.spot? pkgs name with
    | none => (.ok (), Object.withSpot root s)
    | some entry =>
      let (answer, settings) := e (settingsOf entry.here.node)
      let pkgs := Object.withSpot pkgs (entry.setNode (.object settings))
      (answer, Object.withSpot root (s.setNode (.object pkgs)))
  | n => (.error (.packagesKind n.kindName), Object.withSpot root s)

/-- Values put at the end of a list. -/
def pushTexts (es : Elements) (values : List Text) : Elements :=
  values.foldl (fun es v => es.push (Value.ofText v)) es

/-- Values put at the end of a list of settings, which is made if it is missing. -/
def appendToSettings (name field : Text) (values : List Text) : Edit Unit := fun settings =>
  match Object.spot? settings field with
  | none =>
    let es := pushTexts Composite.new values
    (.ok (), settings.push (Member.onOwnLine field (.array es)))
  | some s =>
    match s.here.node with
    | .array es => (.ok (), Object.withSpot settings (s.setNode (.array (pushTexts es values))))
    | _ => (.error (.notAnArray field name), settings)

/-- **Appending to a list of a package.** Without values nothing is touched. -/
def appendToList (name field : Text) (values : List Text) : Edit Unit :=
  if values.isEmpty then fun root => (.ok (), root)
  else editSettings name (appendToSettings name field values)

/-- **Setting a boolean of a package.** -/
def setBool (name field : Text) (value : Bool) : Edit Unit :=
  editSettings name fun settings => (.ok (), Object.setOrPush settings field (.bool value))

/-- The name of the field that holds the patch mode. -/
def patchKey : Text := "patch".toList

/-- The name of the older field for it. -/
def patchGlibcKey : Text := "patch_glibc".toList

/-- The settings of a package with a patch mode. The older field goes; if it was the only
one, it is renamed and stays where it is. -/
def patchSettings (mode : PatchMode) : Edit Unit := fun settings =>
  let n := Node.ofText mode.toText
  match Object.spot? settings patchKey, Object.spot? settings patchGlibcKey with
  | some s, _ =>
    (.ok (), Object.removeFirst (Object.withSpot settings (s.setNode n)) patchGlibcKey)
  | none, some s =>
    let label : Key := { s.here.label with name := Literal.ofText patchKey }
    (.ok (), Object.withSpot settings { s with here := { s.here with label := label, node := n } })
  | none, none => (.ok (), settings.push (Member.onOwnLine patchKey n))

/-- **Setting the patch mode of a package.** -/
def setPatchMode (name : Text) (mode : PatchMode) : Edit Unit :=
  editSettings name (patchSettings mode)

/-- **Removing the patch mode of a package**, in both forms. The packages keep their
shape. -/
def removePatchMode (name : Text) : Edit Unit := fun root =>
  match Object.spot? root packagesKey with
  | none => (.ok (), root)
  | some s =>
    match s.here.node with
    | .object pkgs =>
      match Object.spot? pkgs name with
      | none => (.ok (), root)
      | some entry =>
        match entry.here.node with
        | .object settings =>
          let settings := Object.removeFirst (Object.removeFirst settings patchKey) patchGlibcKey
          let pkgs := Object.withSpot pkgs (entry.setNode (.object settings))
          (.ok (), Object.withSpot root (s.setNode (.object pkgs)))
        | _ => (.ok (), root)
    | _ => (.ok (), root)

end EnvManifest
