import EnvManifest.Commands
import EnvManifest.Package.Entry
import EnvManifest.Error
import EnvManifest.Version.Requirement

/-!
# Settings

What a manifest says, decoded from the value of its document: names and texts, the
packages, the environment, the shell commands and scripts, a pinned commit and the
manifests that it includes. A field that is null or missing reads as empty.

Settings are valid if the commit is a whole one, every script has a name without
blanks and something to run, and the version requirement can be read
(`Settings.check`).
-/

namespace EnvManifest

/-- Commands run when a shell starts, and commands that can be run by name. -/
structure Shell where
  initHook : Commands
  scripts : Table Commands
deriving DecidableEq

/-- What a manifest says. -/
structure Settings where
  name : Text
  description : Text
  /-- The requirement on the version of the tool that reads the manifest. -/
  requirement : Text
  packages : List Package
  env : Table Text
  /-- Where more of the environment comes from. -/
  envFrom : Text
  shell : Shell
  /-- The commit that packages without a version are taken from. -/
  commit : Text
  /-- Other manifests: paths, addresses or names. -/
  includes : List Text
deriving DecidableEq

/-- A shell that runs nothing. -/
def Shell.empty : Shell :=
  ⟨Commands.empty, Table.empty⟩

/-- Settings that say nothing. -/
def Settings.empty : Settings :=
  ⟨[], [], [], [], Table.empty, [], Shell.empty, [], []⟩

/-! ### Reading -/

/-- The fields of a shell. -/
def Shell.fields : List (Datum.Field Shell) :=
  [.of "init_hook" Commands.decode fun a s => { s with initHook := a },
    .of "scripts" (Datum.decodeOr Table.empty (Datum.decodeTable Commands.decode))
      fun a s => { s with scripts := a }]

/-- The shell of a value. -/
def Shell.decode : Datum → Decoded Shell :=
  Datum.decodeRecord "ShellConfig" Shell.fields Shell.empty

/-- A string that may be null. -/
def Datum.decodeOptionalText : Datum → Decoded Text :=
  decodeOr [] decodeText

/-- The pinned commit of a value. -/
def Datum.decodeCommit : Datum → Decoded Text :=
  decodeRecord "NixpkgsConfig" [.of "commit" decodeOptionalText fun a _ => a] []

/-- The fields of a manifest. -/
def Settings.fields : List (Datum.Field Settings) :=
  [.of "name" Datum.decodeOptionalText fun a s => { s with name := a },
    .of "description" Datum.decodeOptionalText fun a s => { s with description := a },
    .of "devbox_version" Datum.decodeOptionalText fun a s => { s with requirement := a },
    .of "packages" Package.decodeList fun a s => { s with packages := a },
    .of "env" (Datum.decodeOr Table.empty (Datum.decodeTable Datum.decodeText))
      fun a s => { s with env := a },
    .of "env_from" Datum.decodeOptionalText fun a s => { s with envFrom := a },
    .of "shell" (Datum.decodeOr Shell.empty Shell.decode) fun a s => { s with shell := a },
    .of "nixpkgs" (Datum.decodeOr [] Datum.decodeCommit) fun a s => { s with commit := a },
    .of "include" (Datum.decodeOr [] Datum.decodeTexts) fun a s => { s with includes := a }]

/-- The settings that the members of a document's root give. -/
def Settings.decode (members : List (Text × Datum)) : Decoded Settings :=
  Datum.decodeMembers Settings.fields [] members Settings.empty

/-! ### Checking -/

/-- The length of a whole commit, in octets. -/
def commitLength : Nat := 40

/-- Checks that a commit is a whole one, if there is any. -/
def checkCommit (commit : Text) : Except Error Unit :=
  let n := Text.utf8Length commit
  if commit.isEmpty ∨ n = commitLength then .ok () else .error (.user (.commitLength n))

/-- Checks one script: its name and its commands. -/
def checkScript (name : Text) (body : Commands) : Except Error Unit :=
  if name.allBlank then .error (.user .emptyScriptName)
  else if name.any isBlank then .error (.user (.blankInScriptName name))
  else if body.script.allBlank then .error (.user (.emptyScript name))
  else .ok ()

/-- Checks scripts in order. -/
def checkScripts : List (Text × Commands) → Except Error Unit
  | [] => .ok ()
  | (name, body) :: rest => do
    checkScript name body
    checkScripts rest

/-- The requirement that a text states: a blank text states none. -/
def parseRequirement (s : Text) : Except Error (Option Requirement) :=
  let trimmed := s.trim
  if trimmed.isEmpty then .ok none
  else match Requirement.ofText? trimmed with
    | some r => .ok (some r)
    | none => .error (.user (.badRequirement trimmed))

/-- **Checks settings that were decoded.** -/
def Settings.check (s : Settings) : Except Error Unit := do
  checkCommit s.commit
  checkScripts s.shell.scripts.entries
  let _ ← parseRequirement s.requirement
  pure ()

/-- **Checks a running version against the requirement of the settings.** -/
def Settings.checkVersion (s : Settings) (running : Text) : Except Error Unit := do
  match ← parseRequirement s.requirement with
  | none => pure ()
  | some r =>
    match Version.ofText? running.trim with
    | none => throw (.user (.badRunningVersion running))
    | some v =>
      if r.isMetBy v then pure () else throw (.user (.versionMismatch s.requirement running))

end EnvManifest
