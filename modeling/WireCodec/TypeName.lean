import WireCodec.Text.LowerCase
import WireCodec.Text.Utf16

/-!
Names of types. Every node computes a type's numeric id from the name alone, so ids need no
agreement; names that differ only in letter case are one type.
-/

namespace WireCodec.TypeName

/-- The numeric id of a type name: the hash with multiplier 31 of the UTF-16 units of the
lower-cased name, in 32-bit arithmetic. -/
def id (name : String) : Int32 :=
  (Utf16.encode (LowerCase.ofChars name.toList)).foldl
    (fun h u => h * 31 + Int32.ofNat u.toNat) 0

/-- A name with its ASCII letters in lower case. -/
def asciiFold (name : String) : List Char := name.toList.map Char.toLower

/-- Whether two names are equal but for the case of ASCII letters. -/
def same (a b : String) : Bool := asciiFold a == asciiFold b

end WireCodec.TypeName
