import Dissection.Text.Printable

/-!
# Quoted text

Text between quotation marks. A mark or a backslash inside it stands behind a backslash, five
controls have a letter, and other characters without a glyph are shown by their number.
-/

namespace Dissection.Text.Quoted

/-- The number of a character in lower-case hexadecimal digits, in braces behind a letter. -/
def byNumber (c : Char) : List Char :=
  "\\u\x7b".toList ++ Nat.toDigits 16 c.toNat ++ ['\x7d']

def escape (c : Char) : List Char :=
  if c = '"' then ['\\', '"']
  else if c = '\\' then ['\\', '\\']
  else if c = '\n' then ['\\', 'n']
  else if c = '\r' then ['\\', 'r']
  else if c = '\t' then ['\\', 't']
  else if c = '\x00' then ['\\', '0']
  else if isPrintable c then [c]
  else byNumber c

def quote (text : String) : String := .ofList (['"'] ++ text.toList.flatMap escape ++ ['"'])

end Dissection.Text.Quoted
