/-
  TillLang.Text.Inspect — texts as messages and logs show them.

  A shown text stands between single quotes, or between double quotes when it holds a
  single quote and no double quote. Backslashes, the quote in use, line breaks, carriage
  returns and tabs are escaped, and a character without a visible form is shown by its
  code point in two, four or eight hexadecimal digits, whichever is the first to fit.
-/

import TillLang.Text.Printable

namespace TillLang.Text

/-- The lowest `width` hexadecimal digits of a number, highest first. -/
def hexDigits : Nat → Nat → List Char
  | 0, _ => []
  | width + 1, n => hexDigits width (n / 16) ++ [Nat.digitChar (n % 16)]

/-- A character shown by its code point. -/
def inspectCode (n : Nat) : List Char :=
  if n < 0x100 then ['\\', 'x'] ++ hexDigits 2 n
  else if n < 0x10000 then ['\\', 'u'] ++ hexDigits 4 n
  else ['\\', 'U'] ++ hexDigits 8 n

def inspectChar (quote c : Char) : List Char :=
  if c = quote || c = '\\' then ['\\', c]
  else if c = '\n' then ['\\', 'n']
  else if c = '\r' then ['\\', 'r']
  else if c = '\t' then ['\\', 't']
  else if isPrintable c then [c]
  else inspectCode c.toNat

def inspectQuote (text : List Char) : Char :=
  if text.contains '\'' && !text.contains '"' then '"' else '\''

def inspectChars (text : List Char) : List Char :=
  let quote := inspectQuote text
  quote :: (text.flatMap (inspectChar quote) ++ [quote])

/-- A text as messages show it. -/
def inspect (text : String) : String := String.ofList (inspectChars text.toList)

end TillLang.Text
