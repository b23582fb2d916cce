import WireCodec.Bytes.Encode

/-!
The settings of the codec and the ranges they have to keep. Settings come from defaults that
single values override, from a text or from environment variables; each way ends in
`Settings.build`.
-/

namespace WireCodec

/-- The largest unit that is written or read as a whole: a presence byte and an id. A buffer with
this much room always lets a message go on. -/
def maxAtomicUnit : Nat := 17

/-- Settings before their ranges are checked. -/
structure Settings where
  /-- the largest number of elements of an array, and of bytes of a payload -/
  maxArrayLength : Nat := 16777216
  /-- the largest depth of nested values, and of nested messages -/
  maxNestingDepth : Nat := 64
  /-- the room that an output begins with -/
  initialBufferCapacity : Nat := 256
  /-- the room by which an encoder's destination grows -/
  encodeChunkSize : Nat := 8192
  deriving DecidableEq

/-- The settings of a codec, all in range. -/
structure Config extends Settings where
  arrayLength_pos : 0 < maxArrayLength := by decide
  arrayLength_le : maxArrayLength ≤ Encode.maxLength := by decide
  nestingDepth_pos : 0 < maxNestingDepth := by decide
  chunkSize_le : maxAtomicUnit ≤ encodeChunkSize := by decide
  deriving DecidableEq

namespace Settings

/-- The value of a setting. -/
def get (s : Settings) : Setting → Nat
  | .maxArrayLength => s.maxArrayLength
  | .maxNestingDepth => s.maxNestingDepth
  | .initialBufferCapacity => s.initialBufferCapacity
  | .encodeChunkSize => s.encodeChunkSize

/-- The settings with one of them changed. -/
def set (s : Settings) : Setting → Nat → Settings
  | .maxArrayLength, n => { s with maxArrayLength := n }
  | .maxNestingDepth, n => { s with maxNestingDepth := n }
  | .initialBufferCapacity, n => { s with initialBufferCapacity := n }
  | .encodeChunkSize, n => { s with encodeChunkSize := n }

/-- The settings with some of them changed, later changes over earlier ones. -/
def setAll (s : Settings) (changes : List (Setting × Nat)) : Settings :=
  changes.foldl (fun s (setting, n) => s.set setting n) s

/-- Checks the ranges, in this order. -/
def build (s : Settings) : Except Error Config :=
  if h₁ : 0 < s.maxArrayLength ∧ s.maxArrayLength ≤ Encode.maxLength then
    if h₂ : 0 < s.maxNestingDepth then
      if h₃ : maxAtomicUnit ≤ s.encodeChunkSize then .ok ⟨s, h₁.1, h₁.2, h₂, h₃⟩
      else .error (.settingRange .encodeChunkSize)
    else .error (.settingRange .maxNestingDepth)
  else .error (.settingRange .maxArrayLength)

end Settings

namespace Config

/-- The default settings. -/
def default : Config := {}

instance : Inhabited Config := ⟨default⟩

/-- The default settings with some of them changed. -/
def ofChanges (changes : List (Setting × Nat)) : Except Error Config :=
  (({} : Settings).setAll changes).build

end Config

end WireCodec
