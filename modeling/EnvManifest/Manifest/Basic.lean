import EnvManifest.Manifest.Settings
import EnvManifest.Manifest.Document
import EnvManifest.Document.Path
import EnvManifest.Store.Basic
import EnvManifest.Sha256

/-!
# Manifests

A manifest is a document together with the settings decoded from it, and the file it
came from if it came from one. It is loaded from a text in three steps, each of which
can fail: the document is parsed, its value is decoded, the settings are checked.

What is saved is the document, with tabs written as two spaces. What is hashed is the
minimal text, so two manifests have the same hash when their documents have the same
value, and manifests are compared by it.
-/

namespace EnvManifest

/-- A document, what it says, and where it is kept. -/
structure Manifest extends Settings where
  document : Document
  file : Option FilePath

/-- A script and the comment above its name. -/
structure Script where
  commands : Commands
  comment : Text
deriving DecidableEq

namespace Manifest

/-- The name of a manifest's file. -/
def fileName : Text := "devbox.json".toList

/-! ### Loading -/

/-- The manifest of a document. -/
def ofDocument (d : Document) : Except Error Manifest := do
  match Settings.decode d.members with
  | .error e => throw (.decode e)
  | .ok s => do
    s.check
    pure ⟨s, d, none⟩

/-- **The manifest of a text.** -/
def load (s : Text) : Except Error Manifest := do
  let d ← Document.parse s
  ofDocument d

/-- The manifest of octets. -/
def loadOctets (b : Octets) : Except Error Manifest := do
  let d ← Document.parseOctets b
  ofDocument d

/-! ### Writing -/

/-- A text with two spaces for every tab. -/
def untabbed (s : Text) : Text :=
  s.flatMap fun c => if c = '\t' then [' ', ' '] else [c]

/-- **The text that a manifest is saved as.** -/
def text (m : Manifest) : Text :=
  untabbed m.document.pack

/-- The octets that a manifest is saved as. -/
def octets (m : Manifest) : Octets :=
  Text.utf8 m.text

/-- The digest of what the document says. -/
def hash (m : Manifest) : Text :=
  Sha256.hex (Text.utf8 m.document.toValue.minimalText)

/-- Whether two manifests say the same. -/
def same (a b : Manifest) : Bool :=
  a.hash == b.hash

/-! ### Looking up -/

/-- The first package with a name and version. -/
def find? (m : Manifest) (v : VersionedName) : Option Package :=
  m.packages.find? fun p => p.name == v.name && p.version == v.version

/-- The names that the packages are listed under. -/
def versionedNames (m : Manifest) : List Text :=
  m.packages.map Package.versionedName

/-- The scripts, each with the comment right above its name. -/
def scripts (m : Manifest) : Table Script :=
  m.shell.scripts.mapEntries fun name commands =>
    ⟨commands, m.document.toValue.commentAt [.key "shell".toList, .key "scripts".toList, .key name]⟩

/-! ### The manifest of a new project -/

/-- What the shell of a new project says when it starts. -/
def welcome : Text :=
  "echo 'Welcome to devbox!' > /dev/null".toList

/-- The document of a new project. -/
def initialText : Text :=
  "\x7b\n  \"$schema\": \"https://raw.githubusercontent.com/jetify-com/devbox/main/".toList ++
  ".schema/devbox.schema.json\",\n  \"packages\": [],\n  \"shell\": \x7b\n".toList ++
  "    \"init_hook\": [\n      ".toList ++ Literal.spell welcome ++ "\n    ],\n".toList ++
  "    \"scripts\": \x7b\n      \"test\": [\n".toList ++
  "        \"echo \\\"Error: no test specified\\\" && exit 1\"\n".toList ++
  "      ]\n    \x7d\n  \x7d\n\x7d\n".toList

/-- The manifest of a new project. -/
def initial : Except Error Manifest :=
  load initialText

end Manifest

/-- Whether a file name is that of a manifest. -/
def isManifestName (name : Text) : Bool :=
  name == Manifest.fileName

end EnvManifest
