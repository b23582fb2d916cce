import WireCodec.Config
import WireCodec.Error
import WireCodec.Text.Blank
import WireCodec.Text.Numeral

/-!
Settings from environment variables. A variable that is not set leaves the default of its setting.
-/

namespace WireCodec

/-- The variable that holds a setting. -/
def Setting.variable : Setting → String
  | .maxArrayLength => "GRIDWIRE_MAX_ARRAY_LENGTH"
  | .maxNestingDepth => "GRIDWIRE_MAX_NESTING_DEPTH"
  | .initialBufferCapacity => "GRIDWIRE_INITIAL_BUFFER_CAPACITY"
  | .encodeChunkSize => "GRIDWIRE_ENCODE_CHUNK_SIZE"

namespace Config

/-- The number below 2⁶⁴ that a variable holds, in decimal digits which a plus sign may precede
and white space surround. -/
def variableNumber (text : String) : Except Numeral.Fault Nat :=
  Numeral.word (1 <<< 64) (Blank.trim text.toList)

/-- What the variables change, setting by setting. -/
def environmentChanges (environment : String → Option String) :
    List Setting → Except Error (List (Setting × Nat))
  | [] => .ok []
  | s :: settings =>
    match environment s.variable with
    | none => environmentChanges environment settings
    | some text =>
      match variableNumber text with
      | .error fault => .error (.variableValue s.variable fault)
      | .ok n => ((s, n) :: ·) <$> environmentChanges environment settings

/-- The settings that environment variables give. -/
def ofEnvironment (environment : String → Option String) : Except Error Config :=
  environmentChanges environment Setting.all >>= ofChanges

end Config

end WireCodec
