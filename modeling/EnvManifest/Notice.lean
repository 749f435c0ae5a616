import EnvManifest.Text.Basic

/-!
# Notices

An edit that adds to a list of a package tells the user in one line what it did. The
line starts with a label, which is coloured where the output shows colours.
-/

namespace EnvManifest

/-- The label of a notice, plain or in yellow. -/
def noticeLabel (colored : Bool) : Text :=
  if colored then "\x1b[33mInfo:\x1b[0m".toList else "Info:".toList

/-- A message behind the label. -/
def noticeLine (colored : Bool) (message : Text) : Text :=
  noticeLabel colored ++ ' ' :: message

/-- What an edit tells the user: the values that were named and the package. -/
inductive Notice where
  | addedPlatforms (values : List Text) (package : Text)
  | excludedPlatforms (values : List Text) (package : Text)
  | addedOutputs (values : List Text) (package : Text)
  | allowedInsecure (values : List Text) (package : Text)
deriving DecidableEq

namespace Notice

/-- Values in a message. -/
def listed (values : List Text) : Text :=
  Text.join ", ".toList values

/-- The message of a notice, with the newline at its end. -/
def message : Notice → Text
  | addedPlatforms values package =>
    "Added platform ".toList ++ listed values ++ " to package ".toList ++ package ++ ['\n']
  | excludedPlatforms values package =>
    "Excluded platform ".toList ++ listed values ++ " for package ".toList ++ package ++ ['\n']
  | addedOutputs values package =>
    "Added outputs ".toList ++ listed values ++ " to package ".toList ++ package ++ ['\n']
  | allowedInsecure values package =>
    "Allowed insecure ".toList ++ listed values ++ " for package ".toList ++ package ++ ['\n']

/-- The line that is written for a notice, without colours. -/
def line (n : Notice) : Text :=
  noticeLine false n.message

end Notice

end EnvManifest
