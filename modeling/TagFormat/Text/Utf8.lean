import TagFormat.BigEndian

/-!
# UTF-8

Text as bytes, and bytes as text. `decode` accepts exactly the well-formed byte sequences: no
surrogates, no overlong forms, nothing above `U+10FFFF`. When it refuses, it tells where the longest
valid part ends and how many bytes belong to the sequence that broke off there, or that the input
ends inside a sequence that was valid so far.
-/

namespace TagFormat.Utf8

/-- Why bytes are not UTF-8. -/
inductive Fault where
  /-- `length` bytes from `index` on start no character. -/
  | invalid (index length : Nat)
  /-- The bytes end inside the character that starts at `index`. -/
  | incomplete (index : Nat)
deriving DecidableEq, Repr

/-- The fault in words. -/
def Fault.reason : Fault → String
  | invalid index length => s!"invalid utf-8 sequence of {length} bytes from index {index}"
  | incomplete index => s!"incomplete utf-8 byte sequence from index {index}"

/-- The bytes of a text. -/
def encode (s : String) : Bytes :=
  s.toList.flatMap String.utf8EncodeChar

/-- A byte that continues a character. -/
def isContinuation (b : UInt8) : Bool :=
  0x80 ≤ b && b < 0xC0

/-- Whether `second` may follow `lead` in a sequence of three bytes: neither overlong nor a
surrogate. -/
def isSecondOfThree (lead second : UInt8) : Bool :=
  isContinuation second && (lead != 0xE0 || 0xA0 ≤ second) && (lead != 0xED || second < 0xA0)

/-- Whether `second` may follow `lead` in a sequence of four bytes: neither overlong nor above the
last code point. -/
def isSecondOfFour (lead second : UInt8) : Bool :=
  isContinuation second && (lead != 0xF0 || 0x90 ≤ second) && (lead != 0xF4 || second < 0x90)

/-- The code point that the low bits of the bytes spell, six bits for each byte after the first. -/
def join (lead : Nat) (rest : List UInt8) : Char :=
  Char.ofNat (rest.foldl (fun n b => 64 * n + b.toNat % 64) lead)

/-- The characters that the bytes spell; `index` is the place of the first of them. -/
def decodeFrom (index : Nat) : Bytes → Except Fault (List Char)
  | [] => .ok []
  | b₀ :: rest =>
    if b₀ < 0x80 then (decodeFrom (index + 1) rest).map (join b₀.toNat [] :: ·)
    else if b₀ < 0xC2 then .error (.invalid index 1)
    else if b₀ < 0xE0 then
      match rest with
      | [] => .error (.incomplete index)
      | b₁ :: rest =>
        if isContinuation b₁ then
          (decodeFrom (index + 2) rest).map (join (b₀.toNat % 32) [b₁] :: ·)
        else .error (.invalid index 1)
    else if b₀ < 0xF0 then
      match rest with
      | [] => .error (.incomplete index)
      | b₁ :: rest =>
        if isSecondOfThree b₀ b₁ then
          match rest with
          | [] => .error (.incomplete index)
          | b₂ :: rest =>
            if isContinuation b₂ then
              (decodeFrom (index + 3) rest).map (join (b₀.toNat % 16) [b₁, b₂] :: ·)
            else .error (.invalid index 2)
        else .error (.invalid index 1)
    else if b₀ < 0xF5 then
      match rest with
      | [] => .error (.incomplete index)
      | b₁ :: rest =>
        if isSecondOfFour b₀ b₁ then
          match rest with
          | [] => .error (.incomplete index)
          | b₂ :: rest =>
            if isContinuation b₂ then
              match rest with
              | [] => .error (.incomplete index)
              | b₃ :: rest =>
                if isContinuation b₃ then
                  (decodeFrom (index + 4) rest).map (join (b₀.toNat % 8) [b₁, b₂, b₃] :: ·)
                else .error (.invalid index 3)
            else .error (.invalid index 2)
        else .error (.invalid index 1)
    else .error (.invalid index 1)

/-- The text that the bytes spell. -/
def decode (bytes : Bytes) : Except Fault String :=
  (decodeFrom 0 bytes).map String.ofList

end TagFormat.Utf8
