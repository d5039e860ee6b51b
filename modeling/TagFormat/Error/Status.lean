import TagFormat.Error

/-!
# Status codes

Each error has a numbered status, a short list of labels for counters, the number of bytes that
were moved before it arose, and a view as a plain I/O failure.
-/

namespace TagFormat

/-- The status of an error. -/
inductive StatusCode where
  | io
  | unexpectedEof
  | shortWrite
  | invalidFrame
  | unsupportedVersion
  | invalidUtf8
  | invalidInteger
  | sizeLimit
  | integerOverflow
  | unsupportedTag
  | unexpectedTag
deriving DecidableEq, Repr

namespace StatusCode

/-- Every status, by ascending number. -/
def all : List StatusCode :=
  [io, unexpectedEof, shortWrite, invalidFrame, unsupportedVersion, invalidUtf8, invalidInteger,
    sizeLimit, integerOverflow, unsupportedTag, unexpectedTag]

/-- The number of a status: the 6000s are about streams, the 8000s about the format. -/
def code : StatusCode → Nat
  | io => 6000
  | unexpectedEof => 6007
  | shortWrite => 6008
  | invalidFrame => 8000
  | unsupportedVersion => 8002
  | invalidUtf8 => 8004
  | invalidInteger => 8005
  | sizeLimit => 8007
  | integerOverflow => 8012
  | unsupportedTag => 8013
  | unexpectedTag => 8014

/-- The name of a status. -/
def name : StatusCode → String
  | io => "Io"
  | unexpectedEof => "UnexpectedEof"
  | shortWrite => "ShortWrite"
  | invalidFrame => "InvalidFrame"
  | unsupportedVersion => "UnsupportedVersion"
  | invalidUtf8 => "InvalidUtf8"
  | invalidInteger => "InvalidInteger"
  | sizeLimit => "SizeLimit"
  | integerOverflow => "IntegerOverflow"
  | unsupportedTag => "UnsupportedTag"
  | unexpectedTag => "UnexpectedTag"

/-- The status with a given number. -/
def ofCode? (n : Nat) : Option StatusCode :=
  all.find? fun status => status.code == n

/-- Whether the status is about the format. -/
def isProtocol (status : StatusCode) : Bool :=
  8000 ≤ status.code && status.code ≤ 8999

/-- Whether the status is about a stream. -/
def isIo (status : StatusCode) : Bool :=
  6000 ≤ status.code && status.code ≤ 6999

instance : ToString StatusCode where
  toString status := s!"{status.name} ({status.code})"

/-- The labels that every error carries: the name of its type and its status. -/
def labels (status : StatusCode) (typeName : String) : List (String × String) :=
  [("error_type", typeName), ("status_code", toString status)]

theorem ofCode?_code (status : StatusCode) : ofCode? status.code = some status := by
  cases status <;> decide

end StatusCode

/-- The status of a broken rule. -/
def FormatError.status : FormatError → StatusCode
  | unsupportedVersion .. => .unsupportedVersion
  | badUtf8 .. => .invalidUtf8
  | _ => .invalidFrame

namespace TagError

/-- The status of an error. -/
def status : TagError → StatusCode
  | io _ => .io
  | invalidVarint .. => .invalidInteger
  | varintOverflow _ => .integerOverflow
  | unexpectedEnd .. => .unexpectedEof
  | shortWrite .. => .shortWrite
  | unsupportedId _ => .unsupportedTag
  | unexpectedId .. => .unexpectedTag
  | format error => error.status
  | tooLarge .. => .sizeLimit

/-- What an error is about: a stream, the format, or neither. -/
def category (error : TagError) : String :=
  if error.status.isIo then "io" else if error.status.isProtocol then "format" else "other"

/-- The labels of an error, in order: those of every error, the category, and the id or the size
that gave offence. -/
def labels (error : TagError) : List (String × String) :=
  error.status.labels "TagError" ++ [("category", error.category)] ++
    match error with
    | unsupportedId id => [("tag_id", toString id)]
    | unexpectedId _ actual => [("tag_id", toString actual)]
    | tooLarge size _ => [("tag_size", toString size)]
    | _ => []

/-- The number of bytes moved before a stream came to its end. -/
def transferred : TagError → Option Nat
  | unexpectedEnd _ got => some got
  | shortWrite _ written => some written
  | _ => none

/-- The broken rule, if the error is about the format. -/
def broken? : TagError → Option FormatError
  | format error => some error
  | _ => none

/-- The error as a plain I/O failure; one that came from a stream is handed back as it was. -/
def toIo : TagError → IoFailure
  | io failure => failure
  | error => { kind := kind error, text := error.message }
where
  /-- The kind under which an error is filed. -/
  kind : TagError → IoKind
    | unexpectedEnd .. => .unexpectedEof
    | shortWrite .. => .writeZero
    | tooLarge .. => .invalidInput
    | unsupportedId _ => .unsupported
    | _ => .invalidData

end TagError

end TagFormat
