import Fern.Text.Printable

/-!
# Quoted text

A text shown inside a message or a tree stands between quotes, with everything that could not be
read back spelled out. The quotes are single unless the text holds a single quote and no double
one. A backslash, the quote in use and the three common line controls get a backslash form; any
other character that is not printable is given by its code point in two, four or eight hexadecimal
digits, whichever is the first to hold it.
-/

namespace Fern.Text

/-- The digits of a number in base sixteen, padded with zeros to a width. -/
def hex (width n : Nat) : List Char := (Nat.toDigits 16 n).leftpad width '0'

/-- The quote that encloses a text. -/
def quoteFor (text : List Char) : Char :=
  if text.contains '\'' && !text.contains '"' then '"' else '\''

/-- One character as it stands between the quotes. -/
def quotedChar (quote c : Char) : List Char :=
  if c = quote || c = '\\' then ['\\', c]
  else if c = '\n' then ['\\', 'n']
  else if c = '\r' then ['\\', 'r']
  else if c = '\t' then ['\\', 't']
  else if isPrintable c then [c]
  else if c.toNat < 0x100 then '\\' :: 'x' :: hex 2 c.toNat
  else if c.toNat < 0x10000 then '\\' :: 'u' :: hex 4 c.toNat
  else '\\' :: 'U' :: hex 8 c.toNat

/-- A text between its quotes. -/
def quotedChars (text : List Char) : List Char :=
  let quote := quoteFor text
  quote :: (text.flatMap (quotedChar quote) ++ [quote])

def quoted (text : String) : String := String.ofList (quotedChars text.toList)

end Fern.Text
