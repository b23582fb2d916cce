import WireCodec.Text.DisplayTable
import WireCodec.Text.Hex

/-!
Names in double quotes, for messages. Quotes, backslashes and every character that would not be
seen by itself are escaped, so the quoted name stays on one line and ends where it seems to end.
-/

namespace WireCodec.Quoted

/-- Whether a character is seen by itself: it shows something, and not on the one before it. -/
def isVisible (c : Char) : Bool :=
  !DisplayTable.extending.contains c && !DisplayTable.unprintable.contains c

/-- How one character stands inside the quotes. -/
def escape (c : Char) : List Char :=
  if c = '"' then ['\\', '"']
  else if c = '\\' then ['\\', '\\']
  else if c = Char.ofNat 0 then ['\\', '0']
  else if c = '\t' then ['\\', 't']
  else if c = '\n' then ['\\', 'n']
  else if c = '\r' then ['\\', 'r']
  else if isVisible c then [c]
  else "\\u\x7b".toList ++ (Hex.text .lower 1 c.toNat).toList ++ "\x7d".toList

/-- The name in double quotes. -/
def text (name : String) : String :=
  String.ofList ('"' :: name.toList.flatMap escape ++ ['"'])

end WireCodec.Quoted
