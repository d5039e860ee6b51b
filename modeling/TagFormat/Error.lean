import TagFormat.Text.Quoted

/-!
# Errors

Everything that can go wrong while tags are read or written, one constructor per cause, and the
words for it. `what` names the item that was being handled; sizes and counts are numbers of bytes
or elements.
-/

namespace TagFormat

/-- The kinds of failure that a source or a sink reports, and those that errors are filed under. A
call that is interrupted has not failed: it is made again. -/
inductive IoKind where
  | brokenPipe
  | unexpectedEof
  | invalidData
  | timedOut
  | writeZero
  | invalidInput
  | unsupported
  /-- A kind that no error is filed under. -/
  | other (name : String)
deriving DecidableEq, Repr

/-- A failure of a source or a sink, with its own words. -/
structure IoFailure where
  kind : IoKind
  text : String
deriving DecidableEq, Repr

/-- Bytes or values that break a rule of the format. -/
inductive FormatError where
  /-- A payload of fixed size was declared with another size. -/
  | sizeMismatch (what : String) (expected declared : Nat)
  /-- The declared size is below the least size of the payload. -/
  | tooShort (what : String) (minimum declared : Nat)
  /-- A frame was left before its end. -/
  | trailingBytes (what : String) (remaining : Nat)
  /-- More elements are claimed than bytes are left for them. -/
  | countOverrun (what : String) (count available : Nat)
  /-- A payload needs more bytes than its frame has. -/
  | overrun (what : String) (declared : Nat)
  | badUtf8 (reason : String)
  | unsupportedVersion (what : String) (version : Nat)
  /-- The payload cannot find its own end. -/
  | sizeRequired (what : String)
  | duplicateKey (what key : String)
  | tooDeep (limit : Nat)
  /-- A slot is empty. -/
  | missingValue (what : String)
  /-- A payload does not have the size that its id implies. -/
  | implicitSizeMismatch (id expected actual : Nat)
deriving DecidableEq, Repr

/-- Why reading or writing failed. -/
inductive TagError where
  | io (failure : IoFailure)
  | invalidVarint (bodyLength : Nat) (reason : String)
  /-- A number does not fit into the type named `target`. -/
  | varintOverflow (target : String)
  | unexpectedEnd (expected got : Nat)
  | shortWrite (expected written : Nat)
  | unsupportedId (id : Nat)
  | unexpectedId (expected actual : Nat)
  | format (error : FormatError)
  | tooLarge (size limit : Nat)
deriving DecidableEq, Repr

/-- The name of the rule that was broken. -/
def FormatError.name : FormatError → String
  | sizeMismatch .. => "SizeMismatch"
  | tooShort .. => "TooShort"
  | trailingBytes .. => "TrailingBytes"
  | countOverrun .. => "CountOverrun"
  | overrun .. => "Overrun"
  | badUtf8 .. => "BadUtf8"
  | unsupportedVersion .. => "UnsupportedVersion"
  | sizeRequired .. => "SizeRequired"
  | duplicateKey .. => "DuplicateKey"
  | tooDeep .. => "TooDeep"
  | missingValue .. => "MissingValue"
  | implicitSizeMismatch .. => "ImplicitSizeMismatch"

/-- The name of the cause; for a broken rule, with the name of the rule. -/
def TagError.name : TagError → String
  | io .. => "Io"
  | invalidVarint .. => "InvalidVarint"
  | varintOverflow .. => "VarintOverflow"
  | unexpectedEnd .. => "UnexpectedEndOfStream"
  | shortWrite .. => "ShortWrite"
  | unsupportedId .. => "UnsupportedTagId"
  | unexpectedId .. => "UnexpectedTagId"
  | format error => "BadTagFormat." ++ error.name
  | tooLarge .. => "TagTooLarge"

/-- The rule that was broken, in words. -/
def FormatError.message : FormatError → String
  | sizeMismatch what expected declared =>
    s!"{what}: declared size {declared} does not match expected {expected}"
  | tooShort what minimum declared =>
    s!"{what}: declared size {declared} is below the minimum of {minimum}"
  | trailingBytes what remaining => s!"{what}: {remaining} unconsumed bytes left"
  | countOverrun what count available =>
    s!"{what}: {count} elements claimed but only {available} bytes remain"
  | overrun what declared =>
    s!"{what}: payload runs past its declared size of {declared} bytes"
  | badUtf8 reason => s!"invalid UTF-8 string: {reason}"
  | unsupportedVersion what version => s!"{what}: unsupported version {version}"
  | sizeRequired what => s!"{what} requires an explicit size"
  | duplicateKey what key => what ++ ": duplicate key " ++ Text.Quoted.encode key
  | tooDeep limit => s!"tag nesting exceeds the limit of {limit} levels"
  | missingValue what => s!"{what} holds no value"
  | implicitSizeMismatch id expected actual =>
    s!"implicit tag {id}: payload size {actual} does not match fixed size {expected}"

/-- The error in words. -/
def TagError.message : TagError → String
  | io failure => "I/O error: " ++ failure.text
  | invalidVarint bodyLength reason => s!"Invalid varint: {reason} (body length {bodyLength})"
  | varintOverflow target => s!"Varint value does not fit into {target}"
  | unexpectedEnd expected got =>
    s!"Unexpected end of stream (expected {expected} bytes, got {got})"
  | shortWrite expected written => s!"Short write (expected {expected} bytes, written {written})"
  | unsupportedId id => s!"Unsupported tag id {id}"
  | unexpectedId expected actual => s!"Unexpected tag id {actual} (expected {expected})"
  | format error => "Bad tag format: " ++ error.message
  | tooLarge size limit => s!"Tag size {size} exceeds limit {limit} bytes"

end TagFormat
