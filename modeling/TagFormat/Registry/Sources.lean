import TagFormat.Registry.Settings

/-!
# Sources of settings

Settings come from the environment or from a document. The environment holds text, which is taken
for a truth value, an integer, or another number if it reads as one. A document has types of its
own, and each member must have the right one.
-/

namespace TagFormat.Settings

/-! ### The environment -/

/-- What the text of a variable reads as. -/
inductive Scanned where
  | bool (b : Bool)
  | integer (n : Int)
  | real (x : Float)
  | text (s : String)

/-- The sign of a number and what follows it. -/
def splitSign : List Char → Bool × List Char
  | '-' :: cs => (true, cs)
  | '+' :: cs => (false, cs)
  | cs => (false, cs)

/-- The number that decimal digits spell. -/
def ofDigits (cs : List Char) : Nat :=
  cs.foldl (fun n c => 10 * n + (c.toNat - '0'.toNat)) 0

/-- A run of digits, at least one, and nothing else. -/
def digits? (cs : List Char) : Option Nat :=
  if !cs.isEmpty && cs.all Char.isDigit then some (ofDigits cs) else none

/-- A 64-bit integer with a sign or without. -/
def integer? (s : String) : Option Int :=
  let (negative, cs) := splitSign s.toList
  (digits? cs).bind fun n =>
    let value := if negative then -(n : Int) else n
    if Int64.minValue.toInt ≤ value ∧ value ≤ Int64.maxValue.toInt then some value else none

/-- The power of ten after the digits, if there is one. -/
def exponent? : List Char → Option Int
  | [] => some 0
  | c :: cs =>
    if c = 'e' ∨ c = 'E' then
      let (negative, cs) := splitSign cs
      (digits? cs).map fun n => if negative then -(n : Int) else n
    else none

/-- The number nearest to `mantissa * 10 ^ exponent`. -/
def nearest (mantissa : Nat) (exponent : Int) : Float :=
  -- beyond these powers of ten nothing but zero and infinity is near
  let reach : Int := 400 + (Nat.toDigits 10 mantissa).length
  let exponent := max (-reach) (min reach exponent)
  if exponent < 0 then Float.ofScientific mantissa true (-exponent).toNat
  else Float.ofScientific mantissa false exponent.toNat

/-- A number with digits before or after a point, and perhaps a power of ten; or a word for what is
no finite number. -/
def real? (s : String) : Option Float :=
  let (negative, cs) := splitSign s.toList
  let word := String.ofList (cs.map Char.toLower)
  let magnitude : Option Float :=
    if word = "inf" ∨ word = "infinity" then some (1.0 / 0.0)
    else if word = "nan" then some (0.0 / 0.0)
    else
      let whole := cs.takeWhile Char.isDigit
      let rest := cs.dropWhile Char.isDigit
      let (part, rest) :=
        match rest with
        | '.' :: rest => (rest.takeWhile Char.isDigit, rest.dropWhile Char.isDigit)
        | rest => ([], rest)
      if whole.isEmpty && part.isEmpty then none
      else (exponent? rest).map fun e => nearest (ofDigits (whole ++ part)) (e - part.length)
  magnitude.map fun x => if negative then -x else x

/-- What a text reads as: a truth value in upper or lower case, an integer, another number, or
nothing but text. -/
def scan (s : String) : Scanned :=
  if s.toLower = "true" then .bool true
  else if s.toLower = "false" then .bool false
  else
    match integer? s, real? s with
    | some n, _ => .integer n
    | none, some x => .real x
    | none, none => .text s

/-- The words for a switch, in upper or lower case. -/
def switch? (s : String) : Option Bool :=
  if s.toLower = "on" ∨ s.toLower = "yes" then some true
  else if s.toLower = "off" ∨ s.toLower = "no" then some false
  else none

/-- A natural number of 64 bits. A truth value or a switch counts as zero or one. An integer below
zero is refused, but a number that is not written as an integer goes to the nearest natural number
in range, a half away from zero, and one that is no number to zero. -/
def natural? : Scanned → Option Nat
  | .bool b => some b.toNat
  | .integer n => if 0 ≤ n then some n.toNat else none
  | .real x => some x.round.toUInt64.toNat
  | .text s => (switch? s).map Bool.toNat

/-- The name under which the environment holds a setting. -/
def variableName (name : String) : String :=
  "tagwire_" ++ name

/-- The lower case of a letter. Of the characters beyond ASCII only the Kelvin sign has the lower
case of one within. -/
def lowerCase (c : Char) : Char :=
  if c = '\u212a' then 'k' else c.toLower

/-- The variable for a setting. The case of names does not matter, and of several variables with
one name the last counts. -/
def setting? (env : List (String × String)) (name : String) : Option Scanned :=
  let found := env.filter fun entry => entry.1.map lowerCase == variableName name
  found.getLast?.map fun entry => scan entry.2

/-- The settings in the environment, with defaults for those that are not there. -/
def ofEnvironment? (env : List (String × String)) : Option Settings := do
  let defaults : Settings := {}
  let maxTagSize ←
    match setting? env "max_tag_size" with
    | none => some defaults.maxTagSize
    | some v => (natural? v).map UInt64.ofNat
  let maxDepth ←
    match setting? env "max_depth" with
    | none => some defaults.maxDepth
    | some v => (natural? v).bind fun n => if n < UInt32.size then some (UInt32.ofNat n) else none
  let unknown ←
    match setting? env "unknown_tags" with
    | none => some defaults.unknown
    | some (.text s) => UnknownPolicy.ofName? s
    | some _ => none
  return { maxTagSize, maxDepth, unknown }

/-! ### Documents -/

/-- A document. -/
inductive Document where
  | null
  | bool (b : Bool)
  | integer (n : Int)
  /-- A number that is not written as an integer. -/
  | real
  | text (s : String)
  | list (items : List Document)
  | members (entries : List (String × Document))
deriving Inhabited

namespace Document

/-- A natural number below a bound. -/
def natural? (bound : Nat) : Document → Option Nat
  | integer n => if 0 ≤ n ∧ n < bound then some n.toNat else none
  | _ => none

/-- A policy by its name, or as the only member of a document, without a value. -/
def policy? : Document → Option UnknownPolicy
  | text s => UnknownPolicy.ofName? s
  | members [(name, null)] => UnknownPolicy.ofName? name
  | _ => none

end Document

/-- Reads a setting where it is there, and keeps the default where it is not. -/
def orDefault {α : Type} (default : α) (read : Document → Option α) : Option Document → Option α
  | none => some default
  | some document => read document

/-- The settings from what is there of them. -/
def ofParts? (maxTagSize maxDepth unknown : Option Document) : Option Settings := do
  let defaults : Settings := {}
  return {
    maxTagSize := ← orDefault defaults.maxTagSize
      (fun d => (d.natural? UInt64.size).map UInt64.ofNat) maxTagSize
    maxDepth := ← orDefault defaults.maxDepth
      (fun d => (d.natural? UInt32.size).map UInt32.ofNat) maxDepth
    unknown := ← orDefault defaults.unknown Document.policy? unknown }

/-- The settings in a document: members by name, of which others are passed over, or a list in the
order of the fields, which may be short. -/
def ofDocument? : Document → Option Settings
  | .members entries =>
    ofParts? (entries.lookup "max_tag_size") (entries.lookup "max_depth")
      (entries.lookup "unknown_tags")
  | .list items =>
    if items.length ≤ 3 then ofParts? items[0]? items[1]? items[2]? else none
  | _ => none

/-- The document of settings. -/
def toDocument (s : Settings) : Document :=
  .members [
    ("max_tag_size", .integer s.maxTagSize.toNat),
    ("max_depth", .integer s.maxDepth.toNat),
    ("unknown_tags", .text s.unknown.name)]

end TagFormat.Settings
