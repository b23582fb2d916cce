import WireCodec.Object.Tag
import WireCodec.Text.Hex
import WireCodec.Text.Numeral
import WireCodec.Text.Quoted
import WireCodec.Text.Utf8

/-!
Everything that can go wrong, by cause. `Error.kind` sorts the causes into the classes callers
branch on, and `Error.message` words them. Running out of buffer room or of input while framing a
message is no error; `Error.isIncomplete` singles out the one error that only means that a
standalone buffer ended early.
-/

namespace WireCodec

/-- The classes of errors. -/
inductive ErrorKind where
  | unknownType
  | unknownTag
  | typeMismatch
  | unresolved
  | truncated
  | serialization
  | protocol
  | configuration
  | io
  deriving DecidableEq, Repr

/-- What a required field or element lacked when its null form arrived. -/
inductive Required where
  | array | byteArray | text | uuid | bitSet | gridId | map
  | textElement | gridIdElement | messageElement
  deriving DecidableEq, Repr

/-- The settings of the codec that a check can refuse. -/
inductive Setting where
  | maxArrayLength | maxNestingDepth | initialBufferCapacity | encodeChunkSize
  deriving DecidableEq, Repr

/-- A cause of failure. -/
inductive Error where
  /-- a host type without a fixed form that nobody registered -/
  | unboundType (name : String)
  /-- a tag byte that no reader handles -/
  | unknownTag (tag : UInt8)
  /-- an integer form requested as something that is neither of its two signs -/
  | neitherSign (tag : Tag)
  /-- a value of another kind than the requested type -/
  | unexpectedKind (expected found : String)
  /-- a structured object of another type than the requested one -/
  | otherObject (found expected : Int32)
  /-- an enum constant of another type than the requested one -/
  | otherEnum (found expected : String)
  /-- a UTF-16 unit that is half of a pair, requested as a character -/
  | halfPair (unit : Nat)
  /-- a type id that this node does not know -/
  | unregisteredId (id : Int32)
  /-- an ordinal that no constant has -/
  | noConstant (ordinal : Int32) (type : String)
  /-- a standalone input that ended early -/
  | truncated (needed available : Nat)
  /-- a byte that begins no group of modified UTF-8 -/
  | leadByte (byte : UInt8) (offset : Nat)
  /-- a byte that does not continue a group of modified UTF-8 -/
  | continuationByte (byte : UInt8) (offset : Nat)
  /-- a group of modified UTF-8 that ends early -/
  | groupCutShort
  /-- UTF-16 text with an unpaired surrogate -/
  | unpairedText
  /-- a negative length of encoded content -/
  | negativeLength (length : Int)
  /-- a length of encoded content above the configured limit -/
  | lengthOverLimit (length limit : Nat)
  /-- a negative length of text -/
  | negativeTextLength (length : Int)
  /-- more bytes than a 32-bit length can tell -/
  | bytesOverLength (length : Nat)
  /-- more elements than a 32-bit count can tell -/
  | elementsOverCount (length : Nat)
  /-- an element of another kind than its array -/
  | elementTag (found : UInt8) (array : Tag)
  /-- a decimal without magnitude bytes -/
  | emptyMagnitude
  /-- a decimal whose magnitude leaves 128 bits at some byte -/
  | magnitudeOverflowAt (length index : Nat)
  /-- a decimal with a scale below zero -/
  | negativeScale (scale : Int)
  /-- a decimal whose magnitude needs the 128th bit -/
  | magnitudeOverflow
  /-- a decimal with more than 96 bits or a scale above 28; its message leaves out what the library
  of decimals says about it -/
  | decimalRange
  /-- an instant outside the calendar, or with a fraction of a second or more -/
  | timestampRange (seconds nanoseconds : Int)
  /-- a byte that names no flavor of collections -/
  | collectionFlavor (flavor : Int)
  /-- a byte that names no flavor of maps -/
  | mapFlavor (flavor : Int)
  /-- a character that one UTF-16 unit cannot hold -/
  | supplementaryCharacter (code : Nat)
  /-- a payload that is no value of the requested type, with what its codec says about it -/
  | malformedPayload (cause : String)
  /-- a host value that has no payload form, with what its codec says about it -/
  | noPayloadForm (cause : String)
  /-- more bytes or elements in a field than a 32-bit length tells -/
  | prefixOverflow (length : Nat)
  /-- a negative length of a field -/
  | negativeFieldLength (length : Int)
  /-- a length of a field above the configured limit -/
  | fieldLengthOverLimit (length limit : Nat)
  /-- text of a field that is not UTF-8 -/
  | malformedFieldText (fault : Utf8.Fault)
  /-- a UTF-16 unit of a field that is half of a pair -/
  | unpairedUnit (unit : Nat)
  /-- values nested too deep -/
  | valueNesting (levels : Nat)
  /-- messages nested too deep -/
  | messageNesting (levels : Nat)
  /-- a field that became shorter while it was being written -/
  | fieldChanged
  /-- resumption state that does not belong to the field being read -/
  | unexpectedProgress
  /-- a presence byte that is neither 0 nor 1 -/
  | presenceMarker (byte : UInt8)
  /-- the null form in a field or element that has none -/
  | nullRequired (what : Required)
  /-- the null message among the messages of a collection -/
  | nullMessageElement
  /-- a nested message of another type than the field's -/
  | otherMessage (expected found : UInt8)
  /-- a message type that no factory creates -/
  | noFactory (type : UInt8)
  /-- the null message where a message begins -/
  | nullRoot
  /-- a message that would never be finished in buffers of this size -/
  | noProgress (type : UInt8) (room : Nat)
  /-- a setting outside its range -/
  | settingRange (setting : Setting)
  /-- a configuration text that could not be understood -/
  | malformedConfig
  /-- a configuration file that could not be read -/
  | unreadableConfig
  /-- an environment variable that is no number -/
  | variableValue (name : String) (fault : Numeral.Fault)
  /-- a host type registered under a blank name -/
  | blankTypeName
  /-- a host type registered although its form is fixed -/
  | fixedShape (name : String)
  /-- a type name whose id is the reserved one -/
  | reservedTypeId (name : String)
  /-- a type name whose id another name holds -/
  | typeIdTaken (id : Int32) (name holder : String)
  /-- the null message's type byte given to a factory -/
  | reservedMessageType
  deriving DecidableEq, Repr

namespace Error

/-- The class of a cause. -/
def kind : Error → ErrorKind
  | unboundType _ => .unknownType
  | unknownTag _ => .unknownTag
  | neitherSign _ | unexpectedKind _ _ | otherObject _ _ | otherEnum _ _ | halfPair _ =>
    .typeMismatch
  | unregisteredId _ | noConstant _ _ => .unresolved
  | truncated _ _ => .truncated
  | leadByte _ _ | continuationByte _ _ | groupCutShort | unpairedText | negativeLength _
  | lengthOverLimit _ _ | negativeTextLength _ | bytesOverLength _ | elementsOverCount _
  | elementTag _ _ | emptyMagnitude | magnitudeOverflowAt _ _ | negativeScale _
  | magnitudeOverflow | decimalRange | timestampRange _ _ | collectionFlavor _ | mapFlavor _
  | supplementaryCharacter _ | malformedPayload _ | noPayloadForm _ | prefixOverflow _
  | negativeFieldLength _ | fieldLengthOverLimit _ _ | malformedFieldText _ | unpairedUnit _ =>
    .serialization
  | valueNesting _ | messageNesting _ | fieldChanged | unexpectedProgress | presenceMarker _
  | nullRequired _ | nullMessageElement | otherMessage _ _ | noFactory _ | nullRoot
  | noProgress _ _ => .protocol
  | settingRange _ | malformedConfig | unreadableConfig | variableValue _ _ | blankTypeName
  | fixedShape _ | reservedTypeId _ | typeIdTaken _ _ _ | reservedMessageType => .configuration

/-- Whether the error only means that the input ended early. -/
def isIncomplete : Error → Bool
  | truncated _ _ => true
  | _ => false

end Error

/-- What a null form was found in place of. -/
def Required.description : Required → String
  | .array => "array"
  | .byteArray => "byte array"
  | .text => "string"
  | .uuid => "uuid"
  | .bitSet => "bit set"
  | .gridId => "grid id"
  | .map => "map"
  | .textElement => "string element"
  | .gridIdElement => "grid id element"
  | .messageElement => "message element"

/-- The name of a setting. -/
def Setting.name : Setting → String
  | .maxArrayLength => "max_array_length"
  | .maxNestingDepth => "max_nesting_depth"
  | .initialBufferCapacity => "initial_buffer_capacity"
  | .encodeChunkSize => "encode_chunk_size"

/-- All settings, in the order in which they are checked. -/
def Setting.all : List Setting :=
  [.maxArrayLength, .maxNestingDepth, .initialBufferCapacity, .encodeChunkSize]

/-- The range that a setting has to keep. -/
def Setting.range : Setting → String
  | .maxArrayLength => "between 1 and 2147483647"
  | .maxNestingDepth => "at least 1"
  | .initialBufferCapacity => "a number"
  | .encodeChunkSize => "at least 17 bytes"

/-- The name of a class. -/
def ErrorKind.name : ErrorKind → String
  | .unknownType => "UnknownType"
  | .unknownTag => "UnknownTag"
  | .typeMismatch => "TypeMismatch"
  | .unresolved => "Unresolved"
  | .truncated => "Truncated"
  | .serialization => "Serialization"
  | .protocol => "Protocol"
  | .configuration => "Configuration"
  | .io => "Io"

/-- How the messages of a class begin. -/
def ErrorKind.heading : ErrorKind → String
  | .unknownType => "unknown type: "
  | .unknownTag => "unknown wire tag: "
  | .typeMismatch => "type mismatch: "
  | .unresolved => "unresolved type: "
  | .truncated => "truncated input: "
  | .serialization => "serialization error: "
  | .protocol => "protocol error: "
  | .configuration => "configuration error: "
  | .io => "I/O error: "

namespace Error

/-- Two upper-case hexadecimal digits of a byte, marked as such. -/
private def byteText (b : UInt8) : String := s!"0x{Hex.text .upper 2 b.toNat}"

/-- What a cause says after the heading of its class. -/
def detail : Error → String
  | unboundType name => s!"{name} has no wire binding"
  | unknownTag tag => toString tag
  | neitherSign tag => s!"{tag.name} can only be read as its signed or unsigned form"
  | unexpectedKind expected found => s!"expected {expected}, found {found}"
  | otherObject found expected => s!"structured object has type id {found}, expected {expected}"
  | otherEnum found expected => s!"enum of type {found} requested as {expected}"
  | halfPair unit => s!"UTF-16 unit 0x{Hex.text .upper 4 unit} is not a character on its own"
  | unregisteredId id => s!"type id {id} is not registered"
  | noConstant ordinal type => s!"ordinal {ordinal} is not a constant of {type}"
  | truncated needed available => s!"need {needed} bytes, have {available}"
  | leadByte byte offset => s!"invalid modified UTF-8 lead byte {byteText byte} at offset {offset}"
  | continuationByte byte offset =>
    s!"invalid modified UTF-8 continuation byte {byteText byte} at offset {offset}"
  | groupCutShort => "modified UTF-8 sequence cut short"
  | unpairedText => "invalid UTF-16 text: invalid utf-16: lone surrogate found"
  | negativeLength length => s!"invalid length: {length}"
  | lengthOverLimit length limit => s!"length {length} exceeds limit {limit}"
  | negativeTextLength length => s!"invalid string length: {length}"
  | bytesOverLength length => s!"{length} bytes do not fit in a 32-bit length"
  | elementsOverCount length => s!"length {length} does not fit in a 32-bit count"
  | elementTag found array => s!"unexpected tag {Tag.nameOfByte found} in {array.name} array"
  | emptyMagnitude => "decimal magnitude is empty"
  | magnitudeOverflowAt length index =>
    s!"decimal magnitude of {length} bytes overflows at byte {index}"
  | negativeScale scale => s!"negative decimal scale {scale} is not supported"
  | magnitudeOverflow => "decimal magnitude overflows"
  | decimalRange => "decimal out of range"
  | timestampRange seconds nanoseconds =>
    s!"timestamp out of range: {seconds}s {nanoseconds}ns"
  | collectionFlavor flavor => s!"unknown collection flavor: {flavor}"
  | mapFlavor flavor => s!"unknown map flavor: {flavor}"
  | supplementaryCharacter code =>
    s!"character U+{Hex.text .upper 4 code} is outside the basic multilingual plane"
  | malformedPayload cause => s!"bincode deserialize failed: {cause}"
  | noPayloadForm cause => s!"bincode serialize failed: {cause}"
  | prefixOverflow length => s!"length {length} does not fit in a 32-bit prefix"
  | negativeFieldLength length => s!"negative length {length}"
  | fieldLengthOverLimit length limit => s!"length {length} exceeds the limit of {limit}"
  | malformedFieldText fault => s!"invalid UTF-8 in string field: {fault.text}"
  | unpairedUnit unit => s!"unpaired surrogate 0x{Hex.text .upper 4 unit}"
  | valueNesting levels => s!"value nesting exceeds {levels} levels"
  | messageNesting levels => s!"message nesting exceeds {levels} levels"
  | fieldChanged => "field value changed while it was being written"
  | unexpectedProgress => "unexpected progress state for field"
  | presenceMarker byte => s!"invalid presence marker {byteText byte}"
  | nullRequired what => s!"null {what.description} in a required field"
  | nullMessageElement => "null element in message collection"
  | otherMessage expected found => s!"expected message type {expected} but found {found}"
  | noFactory type => s!"no factory for message type {type}"
  | nullRoot => "null message marker at top level"
  | noProgress type room => s!"no progress encoding message type {type} into {room} bytes"
  | settingRange setting => s!"{setting.name} must be {setting.range}"
  | malformedConfig => "failed to parse TOML config"
  | unreadableConfig => "failed to read TOML config file"
  | variableValue name fault => s!"invalid value for {name}: {fault.text}"
  | blankTypeName => "host type name must not be empty"
  | fixedShape name => s!"{name} already has a fixed wire shape"
  | reservedTypeId name => s!"type name {Quoted.text name} hashes to the reserved id 0"
  | typeIdTaken id name holder =>
    s!"type id {id} of {Quoted.text name} collides with {Quoted.text holder}"
  | reservedMessageType => "message type 0xFF is reserved for null messages"

/-- The error as a reader sees it. -/
def message (e : Error) : String := e.kind.heading ++ e.detail

end Error

end WireCodec
