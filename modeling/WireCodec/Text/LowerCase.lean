import WireCodec.Text.CaseTable

/-!
Full lower-casing of text. Every character is mapped on its own, with two exceptions: the capital I
with a dot becomes two characters, and a capital sigma becomes the final form at the end of a word.
-/

namespace WireCodec.LowerCase

/-- Whether a character is a letter with a case. -/
def isCased (c : Char) : Bool := CaseTable.cased.contains c

/-- Whether a character is passed over when a word's end is looked for. -/
def isIgnorable (c : Char) : Bool := CaseTable.ignorable.contains c

/-- The lower-case form of one character by itself. -/
def ofChar (c : Char) : List Char :=
  if c.toNat < 0x80 then [c.toLower]
  else if c.toNat = 0x130 then ['i', Char.ofNat 0x307]
  else
    match CaseTable.lower.find? fun (first, last, step, _) =>
        first ≤ c.toNat && c.toNat ≤ last && (c.toNat - first) % step == 0 with
    | some (_, _, _, delta) => [Char.ofNat (c.toNat + delta).toNat]
    | none => [c]

/-- Whether the first character that counts has a case. -/
def startsCased (cs : List Char) : Bool :=
  match cs.dropWhile isIgnorable with
  | c :: _ => isCased c
  | [] => false

/-- The lower-case form of the characters after those of `before`, which is in reverse. A sigma is
final when a cased letter comes before it and none after it. -/
def ofCharsAfter (before : List Char) : List Char → List Char
  | [] => []
  | c :: rest =>
    (if c.toNat = 0x3A3 then
      [Char.ofNat (if startsCased before && !startsCased rest then 0x3C2 else 0x3C3)]
    else ofChar c) ++ ofCharsAfter (c :: before) rest

/-- The lower-case form of a text. -/
def ofChars (cs : List Char) : List Char := ofCharsAfter [] cs

end WireCodec.LowerCase
