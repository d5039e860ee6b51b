/-!
# Settings

The limits within which tags are read, and what becomes of tags with unknown ids.
-/

namespace TagFormat

/-- What becomes of a tag with a free id that is not registered. -/
inductive UnknownPolicy where
  /-- It is refused. -/
  | strict
  /-- Its bytes are kept. -/
  | permissive
deriving DecidableEq, Repr

/-- The limits of a reader. -/
structure Settings where
  /-- The greatest payload size that a header may declare. -/
  maxTagSize : UInt64 := 512 * 1024 * 1024
  /-- How deep tags may be nested; a tag that is not inside another has depth one. -/
  maxDepth : UInt32 := 128
  unknown : UnknownPolicy := .strict
deriving DecidableEq, Repr

/-- The name of a policy in settings. -/
def UnknownPolicy.name : UnknownPolicy → String
  | strict => "strict"
  | permissive => "permissive"

/-- The policy with a given name. -/
def UnknownPolicy.ofName? (name : String) : Option UnknownPolicy :=
  [strict, permissive].find? fun policy => policy.name == name

/-- The policy in a description. -/
def UnknownPolicy.label : UnknownPolicy → String
  | strict => "Strict"
  | permissive => "Permissive"

/-- A description of settings. -/
def Settings.text (s : Settings) : String :=
  "CodecConfig \x7b max_tag_size: " ++ toString s.maxTagSize ++
    ", max_depth: " ++ toString s.maxDepth ++
    ", unknown_tags: " ++ s.unknown.label ++ " \x7d"

end TagFormat
