import TypeForge.Text.NonPrinting
import TypeForge.Text.Combining

/-!
# Quoted text for listings and messages

A quoted text stands on one line whatever it holds: the quote, the backslash, line
breaks and everything that does not print or would combine with its neighbour is
written as an escape.
-/

namespace TypeForge.Text

/-- A character by its code point in hexadecimal digits, between braces. -/
def codePoint (c : Char) : List Char :=
  ['\\', 'u', '\x7b'] ++ Nat.toDigits 16 c.toNat ++ ['\x7d']

/-- One character as it is written between two `quote` characters.  The other kind of
quote needs no escape. -/
def escaped (quote c : Char) : List Char :=
  if c = quote ∨ c = '\\' then ['\\', c]
  else if c = '\x00' then ['\\', '0']
  else if c = '\t' then ['\\', 't']
  else if c = '\n' then ['\\', 'n']
  else if c = '\r' then ['\\', 'r']
  else if isCombining c || isNonPrinting c then codePoint c
  else [c]

/-- Text between two `quote` characters. -/
def quotedWith (quote : Char) (cs : List Char) : List Char :=
  [quote] ++ cs.flatMap (escaped quote) ++ [quote]

/-- A string between double quotes. -/
def quoted (s : String) : String := String.ofList (quotedWith '\x22' s.toList)

/-- A character between single quotes. -/
def quotedChar (c : Char) : String := String.ofList (quotedWith '\x27' [c])

end TypeForge.Text
