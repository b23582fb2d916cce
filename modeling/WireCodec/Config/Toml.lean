import WireCodec.Config
import WireCodec.Error
import WireCodec.Text.Numeral

/-!
Settings from a TOML text. A setting is a whole number under a key of its own at the top of the
document, so that a text which gives settings has only blank lines, comments and lines of the form
`key = number`; whatever else TOML knows (tables, dotted keys, values of other kinds) is no setting
and is refused.
-/

namespace WireCodec

/-- The key of a setting in a text. -/
def Setting.key : Setting → String
  | .maxArrayLength => "max-array-length"
  | .maxNestingDepth => "max-nesting-depth"
  | .initialBufferCapacity => "initial-buffer-capacity"
  | .encodeChunkSize => "encode-chunk-size"

namespace Toml

/-- Whether a character may stand around keys and values. -/
def isBlank (c : Char) : Bool := c == ' ' || c == '\t'

/-- The characters after the blanks. -/
def skipBlanks (cs : List Char) : List Char := cs.dropWhile isBlank

/-- Whether a character may stand in a comment: any but the control characters of ASCII. -/
def isCommentChar (c : Char) : Bool := c == '\t' || (0x20 ≤ c.toNat && c.toNat != 0x7F)

/-- Whether nothing follows but blanks and a comment. -/
def endsHere (cs : List Char) : Bool :=
  match skipBlanks cs with
  | [] => true
  | '#' :: comment => comment.all isCommentChar
  | _ => false

/-- Whether a character may stand in a key without quotes. -/
def isBareChar (c : Char) : Bool := c.isAlphanum || c == '-' || c == '_'

/-- The character of an escape in hexadecimal digits. -/
def escaped? (digits : List Char) : Option Char := do
  let n ← Numeral.number? 16 digits
  if n.isValidChar then some (Char.ofNat n) else none

/-- What a key in double quotes says, and what follows it. Of the escapes only those by number can
denote a character of a setting's key. -/
def quotedKey? : List Char → Option (List Char × List Char)
  | [] => none
  | '"' :: rest => some ([], rest)
  | '\\' :: 'u' :: a :: b :: c :: d :: rest => do
    let char ← escaped? [a, b, c, d]
    let (key, rest) ← quotedKey? rest
    return (char :: key, rest)
  | '\\' :: 'U' :: a :: b :: c :: d :: e :: f :: g :: h :: rest => do
    let char ← escaped? [a, b, c, d, e, f, g, h]
    let (key, rest) ← quotedKey? rest
    return (char :: key, rest)
  | '\\' :: _ => none
  | c :: rest => do
    let (key, rest) ← quotedKey? rest
    return (c :: key, rest)

/-- What a key says, and what follows it. -/
def key? : List Char → Option (List Char × List Char)
  | '"' :: rest => quotedKey? rest
  | '\'' :: rest =>
    match rest.dropWhile (· != '\'') with
    | [] => none
    | _ :: after => some (rest.takeWhile (· != '\''), after)
  | cs => some (cs.takeWhile isBareChar, cs.dropWhile isBareChar)

/-- A number in decimal digits, without leading zeros. -/
def decimal? : List Char → Option Nat
  | '0' :: _ :: _ => none
  | cs => Numeral.grouped? 10 cs

/-- A number in decimal digits with or without a sign, or in digits of another base after the mark
of the base. Of the negative numbers only zero is a setting. -/
def number? : List Char → Option Nat
  | '0' :: 'x' :: cs => Numeral.grouped? 16 cs
  | '0' :: 'o' :: cs => Numeral.grouped? 8 cs
  | '0' :: 'b' :: cs => Numeral.grouped? 2 cs
  | '+' :: cs => decimal? cs
  | '-' :: cs => (decimal? cs).filter (· = 0)
  | cs => decimal? cs

/-- Whether a character can belong to a number. -/
def isNumberChar (c : Char) : Bool := isBareChar c || c == '+'

/-- What a line gives: a setting and its number, or nothing if the line is blank. Numbers are those
of 64 bits with a sign. -/
def line? (cs : List Char) : Option (Option (Setting × Nat)) :=
  if endsHere cs then some none
  else do
    let (key, rest) ← key? (skipBlanks cs)
    let setting ← Setting.all.find? (·.key.toList == key)
    match skipBlanks rest with
    | '=' :: value =>
      let value := skipBlanks value
      let n ← (number? (value.takeWhile isNumberChar)).filter (· < 1 <<< 63)
      if endsHere (value.dropWhile isNumberChar) then some (some (setting, n)) else none
    | _ => none

/-- The lines of a text, each ended by a line feed which a carriage return may precede; the last
one ends with the text. -/
def lines : List Char → List (List Char)
  | [] => [[]]
  | '\n' :: cs => [] :: lines cs
  | '\r' :: '\n' :: cs => [] :: lines cs
  | c :: cs =>
    match lines cs with
    | [] => [[c]]
    | line :: more => (c :: line) :: more

/-- What lines give. No setting is given twice. -/
def changes? : List (List Char) → Option (List (Setting × Nat))
  | [] => some []
  | line :: more => do
    let change ← line? line
    let changes ← changes? more
    match change with
    | none => return changes
    | some (setting, n) =>
      if changes.any (·.1 == setting) then none else return (setting, n) :: changes

/-- The text without the mark of its byte order, which it may begin with. -/
def withoutMark : List Char → List Char
  | c :: cs => if c.toNat = 0xFEFF then cs else c :: cs
  | [] => []

end Toml

namespace Config

/-- The settings that a text gives. -/
def ofToml (text : String) : Except Error Config :=
  match Toml.changes? (Toml.lines (Toml.withoutMark text.toList)) with
  | some changes => ofChanges changes
  | none => .error .malformedConfig

/-- The settings that a file gives, by the text that could be read from it. -/
def ofFile : Option String → Except Error Config
  | some text => ofToml text
  | none => .error .unreadableConfig

end Config

end WireCodec
