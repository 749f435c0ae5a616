import EnvManifest.Decode
import EnvManifest.Text.Blank

/-!
# Shell commands

Commands are written as one string or as an array of strings, and are written back
the way they were. A script is appended line by line: newlines, carriage returns and
spaces in front of it and blanks behind it are dropped, every line loses the blanks
at its end, and the tabs that the first line begins with are taken off every line
that begins with as many.
-/

namespace EnvManifest

/-- How commands are written. -/
inductive CommandFormat where
  /-- As an array with a command in each element. -/
  | array
  /-- As one string, with newlines between the commands. -/
  | string
deriving DecidableEq

/-- The word for a format. -/
def CommandFormat.toText : CommandFormat → Text
  | array => "array".toList
  | string => "string".toList

/-- Shell commands and how they are written. -/
structure Commands where
  format : CommandFormat
  lines : List Text
deriving DecidableEq

namespace Commands

/-- No commands. -/
def empty : Commands :=
  ⟨.array, []⟩

/-- The commands as one script. -/
def script (c : Commands) : Text :=
  Text.join ['\n'] c.lines

/-! ### Appending a script -/

/-- A script without the newlines, carriage returns and spaces in front of it and the
blanks behind it. -/
def trimScript (script : Text) : Text :=
  Text.trimEnd (script.dropWhile fun c => c == '\r' || c == '\n' || c == ' ')

/-- The lines of a script as commands. -/
def linesOf (script : Text) : List Text :=
  let trimmed := trimScript script
  if trimmed.isEmpty then []
  else
    let tabs := trimmed.takeWhile (· == '\t')
    (Text.lines trimmed).map fun line =>
      let line := Text.trimEnd line
      (Text.without? tabs line).getD line

/-- The commands with those of a script behind them. -/
def append (c : Commands) (script : Text) : Commands :=
  { c with lines := c.lines ++ linesOf script }

/-! ### In a document -/

/-- The commands of a value. -/
def decode : Datum → Decoded Commands
  | .string s => .ok ⟨.string, [s]⟩
  | .array elements => do
    let lines ← elements.mapM Datum.decodeText
    pure ⟨.array, lines⟩
  | .null => .ok empty
  | d => .error (d.unexpected "a string, an array of strings or null".toList)

/-- The value that commands are written as. -/
def toNode (c : Commands) : Node :=
  match c.format with
  | .array => Node.ofTexts c.lines
  | .string => Node.ofText c.script

end Commands

end EnvManifest
