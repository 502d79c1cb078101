import TypeForge.Text.Quoted

/-!
# Text for terminals

A terminal acts on some characters instead of showing them, so a text from outside could
move the cursor or change colours.  In a text for a terminal these characters are written
as escapes and all others stand for themselves, tabs and line breaks among them.
-/

namespace TypeForge.Text

/-- Whether a terminal acts on an ASCII character: bell, backspace, form feed, escape and
delete. -/
def isSteering (c : Char) : Bool :=
  c == '\x07' || c == '\x08' || c == '\x0c' || c == '\x1b' || c == '\x7f'

/-- Whether a character is one of the controls U+0080 to U+009F, which stand for escape
sequences. -/
def isC1Control (c : Char) : Bool := 0x80 ≤ c.toNat && c.toNat ≤ 0x9f

/-- An ASCII character by its code in two hexadecimal digits. -/
def asciiCode (c : Char) : List Char :=
  ['\\', 'x', Nat.digitChar (c.toNat / 16), Nat.digitChar (c.toNat % 16)]

/-- One character as it is sent to a terminal. -/
def terminalChar (c : Char) : List Char :=
  if isSteering c then asciiCode c
  else if isC1Control c then codePoint c
  else [c]

/-- A text as it is sent to a terminal. -/
def forTerminal (s : String) : String := String.ofList (s.toList.flatMap terminalChar)

end TypeForge.Text
