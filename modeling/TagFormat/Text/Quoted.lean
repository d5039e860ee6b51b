import TagFormat.Text.Hidden

/-!
# Quoted text

Text between double quotes, with a backslash before a double quote or a backslash, a letter for
the tab, the line ends and the null character, and the number in braces for every other character
that has no glyph of its own. A single quote stands as it is.
-/

namespace TagFormat.Text.Quoted

/-- The hexadecimal digits of a number, most significant first. -/
def hex (n : Nat) : List Char := Nat.toDigits 16 n

/-- How one character stands between the quotes. -/
def encodeChar (c : Char) : List Char :=
  if c = '"' then ['\\', '"']
  else if c = '\\' then ['\\', '\\']
  else if c = '\t' then ['\\', 't']
  else if c = '\r' then ['\\', 'r']
  else if c = '\n' then ['\\', 'n']
  else if c = '\x00' then ['\\', '0']
  else if isHidden c then ['\\', 'u', '\x7b'] ++ hex c.toNat ++ ['\x7d']
  else [c]

/-- The text in double quotes. -/
def encode (s : String) : String :=
  String.ofList ('"' :: s.toList.flatMap encodeChar ++ ['"'])

example : encode "a\"b\n" = "\"a\\\"b\\n\"" := by decide

end TagFormat.Text.Quoted
