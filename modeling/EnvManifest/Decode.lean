import EnvManifest.Document.Datum
import EnvManifest.Number.Spelling
import EnvManifest.Text.Quoted
import EnvManifest.Text.Table

/-!
# Decoding values

Settings are decoded from the value of a document, in the order of the document, and
the first field that does not fit is reported (`DecodeError`). A value of the wrong
kind is reported with what was found and what was expected; a number is only looked
at if it is in the wrong place, and then has to be within the range of a double.

A record is decoded from the members of an object by `decodeMembers`: unknown names
are passed over unread, and a known name that comes again is an error before its
value is looked at. `decodeInOrder` decodes a record from an array of its fields.
-/

namespace EnvManifest

/-! ### Errors -/

/-- What was found where something else was expected. -/
inductive Found where
  | null
  | bool (b : Bool)
  | number (n : Number)
  | string (s : Text)
  | sequence
  | map
deriving DecidableEq

/-- Why the value of a document is no value of the settings. -/
inductive DecodeError where
  | invalidType (found : Found) (expected : Text)
  | duplicateField (name : Text)
  | numberOutOfRange
  /-- An array has more elements than the record has fields. -/
  | tooMany
  | badPatchMode (word : Text)
deriving DecidableEq

/-- The words for what was found. -/
def Found.words : Found → Text
  | null => "null".toList
  | bool b => "boolean ".toList ++ '\x60' :: (if b then "true".toList else "false".toList) ++ ['\x60']
  | number (.integer n) =>
    "integer ".toList ++ '\x60' :: (if n < 0 then ['-'] else []) ++ Text.ofNat n.natAbs ++ ['\x60']
  | number (.real negative x) =>
    "floating point ".toList ++ '\x60' :: (if negative then ['-'] else []) ++ x.text ++ ['\x60']
  | string s => "string ".toList ++ quoteText s
  | sequence => "sequence".toList
  | map => "map".toList

/-- The message for a word that is no patch mode. -/
def badPatchModeMessage (word : Text) : Text :=
  "invalid patch mode ".toList ++ quoteText word ++ " (must be auto, always or never)".toList

/-- The message of an error. -/
def DecodeError.message : DecodeError → Text
  | invalidType found expected =>
    "invalid type: ".toList ++ found.words ++ ", expected ".toList ++ expected
  | duplicateField name => "duplicate field ".toList ++ '\x60' :: name ++ ['\x60']
  | numberOutOfRange => "number out of range".toList
  | tooMany => "trailing characters".toList
  | badPatchMode word => badPatchModeMessage word

/-- The result of decoding. -/
abbrev Decoded (α : Type) := Except DecodeError α

namespace Datum

/-! ### Leaves -/

/-- The error for a value in a place where `expected` should be. -/
def unexpected (d : Datum) (expected : Text) : DecodeError :=
  match d with
  | null => .invalidType .null expected
  | bool b => .invalidType (.bool b) expected
  | number t =>
    match Number.ofSpelling t with
    | some n => .invalidType (.number n) expected
    | none => .numberOutOfRange
  | string s => .invalidType (.string s) expected
  | object _ => .invalidType .map expected
  | array _ => .invalidType .sequence expected

/-- A string. -/
def decodeText : Datum → Decoded Text
  | string s => .ok s
  | d => .error (d.unexpected "a string".toList)

/-- A boolean. -/
def decodeBool : Datum → Decoded Bool
  | bool b => .ok b
  | d => .error (d.unexpected "a boolean".toList)

/-- An array of strings. -/
def decodeTexts : Datum → Decoded (List Text)
  | array ds => ds.mapM decodeText
  | d => .error (d.unexpected "a sequence".toList)

/-- An object whose values `decode` decodes; of a repeated key the last value
counts. -/
def decodeTable {α : Type} (decode : Datum → Decoded α) : Datum → Decoded (Table α)
  | object members => do
    let entries ← members.mapM fun m => do
      let value ← decode m.2
      pure (m.1, value)
    pure (Table.ofList entries)
  | d => .error (d.unexpected "a map".toList)

/-- A value that may be null. -/
def decodeOption {α : Type} (decode : Datum → Decoded α) : Datum → Decoded (Option α)
  | null => .ok none
  | d => do
    let a ← decode d
    pure (some a)

/-- A value for which null stands for `default`. -/
def decodeOr {α : Type} (default : α) (decode : Datum → Decoded α) : Datum → Decoded α
  | null => .ok default
  | d => decode d

/-! ### Records -/

/-- A field of a record of type `σ`: its name and how its value is put into the
record. -/
structure Field (σ : Type) where
  name : Text
  put : Datum → σ → Decoded σ

/-- A field whose value `decode` decodes and `set` puts into the record. -/
def Field.of {σ α : Type} (name : String) (decode : Datum → Decoded α) (set : α → σ → σ) :
    Field σ where
  name := name.toList
  put d s := do
    let a ← decode d
    pure (set a s)

/-- A record with the fields that the members of an object name; `seen` are the
names that were met before. -/
def decodeMembers {σ : Type} (fields : List (Field σ)) :
    (seen : List Text) → List (Text × Datum) → σ → Decoded σ
  | _, [], s => .ok s
  | seen, (name, d) :: rest, s =>
    match fields.find? (fun f => f.name == name) with
    | none => decodeMembers fields seen rest s
    | some f =>
      if name ∈ seen then .error (.duplicateField name)
      else do
        let s' ← f.put d s
        decodeMembers fields (name :: seen) rest s'

/-- A record with its fields in order, the missing ones left as they are. -/
def decodeInOrder {σ : Type} : List (Field σ) → List Datum → σ → Decoded σ
  | _, [], s => .ok s
  | [], _ :: _, _ => .error .tooMany
  | f :: fields, d :: rest, s => do
    let s' ← f.put d s
    decodeInOrder fields rest s'

/-- A record from an object or from an array of its fields. -/
def decodeRecord {σ : Type} (name : String) (fields : List (Field σ)) (s : σ) :
    Datum → Decoded σ
  | object members => decodeMembers fields [] members s
  | array elements => decodeInOrder fields elements s
  | d => .error (d.unexpected ("struct ".toList ++ name.toList))

end Datum

end EnvManifest
