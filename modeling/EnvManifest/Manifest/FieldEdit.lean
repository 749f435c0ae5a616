import EnvManifest.Manifest.Document
import EnvManifest.Text.Table

/-!
# Editing the fields of a document

The environment of a manifest is replaced as a whole, its variables in the order of
their names; if the old one took more than one line, every variable of the new one
starts a line. A field with a string is set, put at the end, or taken out when it is
set to nothing.
-/

namespace EnvManifest

/-- The object of an environment; `ownLine` puts each variable on a line of its
own. -/
def envObject (ownLine : Bool) (env : Table Text) : Object :=
  ⟨env.entries.map fun (name, value) =>
      (if ownLine then Member.onOwnLine else Member.new) name (Node.ofText value),
    [], false, true⟩

/-- **Replacing the environment.** -/
def setEnv (env : Table Text) : Edit Unit := fun root =>
  match Object.spot? root "env".toList with
  | some s =>
    let ownLine := s.here.node.breaksLine
    (.ok (), Object.withSpot root (s.setNode (.object (envObject ownLine env))))
  | none => (.ok (), root.push (Member.onOwnLine "env".toList (.object (envObject false env))))

/-- **Setting a field to a string**, or taking it out if the string is empty. -/
def setString (key value : Text) : Edit Unit := fun root =>
  if value.isEmpty then (.ok (), Object.removeFirst root key)
  else (.ok (), Object.setOrPush root key (Node.ofText value))

end EnvManifest
