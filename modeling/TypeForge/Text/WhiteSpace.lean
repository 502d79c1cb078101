import TypeForge.Text.CharClass

/-!
# White space

The Unicode property White_Space.  Zero width spaces (U+200B, U+FEFF), the
Mongolian vowel separator (U+180E) and the information separators (U+001C to
U+001F) do not have it.
-/

namespace TypeForge.Text

/-- The code points with the Unicode property White_Space. -/
def whiteSpace : Ranges :=
  [(0x9, 0xd), (0x20, 0x20), (0x85, 0x85), (0xa0, 0xa0), (0x1680, 0x1680), (0x2000, 0x200a),
   (0x2028, 0x2029), (0x202f, 0x202f), (0x205f, 0x205f), (0x3000, 0x3000)]

/-- Whether a character separates tokens without being part of one. -/
def isWhiteSpace (c : Char) : Bool := whiteSpace.has c

end TypeForge.Text
