import EnvManifest.Decode
import EnvManifest.Document.Fault
import EnvManifest.Package.PatchMode
import EnvManifest.Package.Platform

/-!
# Errors

Everything that can go wrong with a manifest, as causes, and the wording of each in
one place. An error is either the user's to mend (a malformed document, a value that
is not allowed, a package that is not listed) or not: a file that cannot be read or
written, a document whose values have the wrong types, a state that the library does
not bring about itself.
-/

namespace EnvManifest

/-! ### Causes -/

/-- Why a file could not be read or written. -/
inductive FileError where
  | notFound
  | isADirectory
  | notADirectory
deriving DecidableEq

/-- What the user has to mend, besides the grammar of the document. -/
inductive UserError where
  /-- The document is a value of another kind than an object. -/
  | rootKind (kind : Text)
  | badPatchMode (word : Text)
  | unsupportedPlatform (platform : Text)
  /-- Platforms are asked for although some are excluded already. -/
  | alreadyExcluding (package : Text)
  /-- Platforms are to be excluded although the package is limited to some already. -/
  | alreadyLimited (package : Text)
  | commitLength (octets : Nat)
  | emptyScriptName
  | blankInScriptName (script : Text)
  | emptyScript (script : Text)
  | badRequirement (requirement : Text)
  | badRunningVersion (version : Text)
  | versionMismatch (requirement version : Text)
deriving DecidableEq

/-- A state that the library does not bring about itself. -/
inductive InternalError where
  /-- The packages are neither an array nor an object. -/
  | packagesKind (kind : Text)
  /-- A list of a package is no array. -/
  | notAnArray (field package : Text)
  | noFile
deriving DecidableEq

/-- What can go wrong. -/
inductive Error where
  | malformed (e : SyntaxError)
  | file (e : FileError)
  | decode (e : DecodeError)
  | user (e : UserError)
  | packageNotFound (package : Text)
  | internal (e : InternalError)
deriving DecidableEq

/-! ### Wording -/

/-- The message of an error of the user. -/
def UserError.message : UserError → Text
  | rootKind kind => "devbox.json must contain a JSON object, found ".toList ++ kind
  | badPatchMode word => badPatchModeMessage word
  | unsupportedPlatform platform =>
    "Unsupported platform: ".toList ++ platform ++ ". Valid platforms are: ".toList ++
      Text.join ", ".toList supportedPlatforms
  | alreadyExcluding package =>
    "cannot add any platform for package ".toList ++ package ++
      " because it already has \x60excluded_platforms\x60 defined. ".toList ++
      "Please delete the \x60excluded_platforms\x60 for this package ".toList ++
      "from devbox.json and retry.".toList
  | alreadyLimited package =>
    "cannot exclude any platform for package ".toList ++ package ++
      " because it already has \x60platforms\x60 defined. ".toList ++
      "Please delete the \x60platforms\x60 for this package from devbox.json and re-try.".toList
  | commitLength octets =>
    "Expected nixpkgs.commit to be of length 40 but it has length ".toList ++ Text.ofNat octets
  | emptyScriptName => "cannot have script with empty name in devbox.json".toList
  | blankInScriptName script =>
    "cannot have script name with whitespace in devbox.json: ".toList ++ script
  | emptyScript script => "cannot have an empty script body in devbox.json: ".toList ++ script
  | badRequirement requirement =>
    "Invalid devbox_version constraint in config: ".toList ++ requirement
  | badRunningVersion version => "Invalid current devbox version: ".toList ++ version
  | versionMismatch requirement version =>
    "Devbox version mismatch: project requires version ".toList ++ requirement ++
      " but your running version is ".toList ++ version

/-- The message of an internal error. -/
def InternalError.message : InternalError → Text
  | packagesKind kind => "packages field must be an object or array, got ".toList ++ kind
  | notAnArray field package => field ++ " of package ".toList ++ package ++ " must be an array".toList
  | noFile => "config was not loaded from a file".toList

/-- The message of a file error. -/
def FileError.message : FileError → Text
  | notFound => "file not found".toList
  | isADirectory => "is a directory".toList
  | notADirectory => "not a directory".toList

namespace Error

/-- The message of an error. -/
def message : Error → Text
  | malformed e => e.message
  | file e => "IO error: ".toList ++ e.message
  | decode e => "invalid devbox.json: ".toList ++ e.message
  | user e => e.message
  | packageNotFound package => "package ".toList ++ package ++ " not found".toList
  | internal e => "internal error: ".toList ++ e.message

/-- Whether an error is the user's to mend. -/
def isUserError : Error → Bool
  | malformed _ => true
  | user _ => true
  | packageNotFound _ => true
  | _ => false

end Error

/-! ### Checks of small texts -/

/-- The patch mode that a word stands for. -/
def PatchMode.parse (word : Text) : Except Error PatchMode :=
  match PatchMode.ofText? word with
  | some m => .ok m
  | none => .error (.user (.badPatchMode word))

/-- Checks that all of some texts are platforms. -/
def checkPlatforms (platforms : List Text) : Except Error Unit :=
  match firstUnsupported? platforms with
  | none => .ok ()
  | some p => .error (.user (.unsupportedPlatform p))

end EnvManifest
