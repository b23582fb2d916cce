import WireCodec.Bytes.Encode

/-!
Appending to an output step by step. What was appended before a step that fails is still there
after it; `Appender.guarded` takes it off again.
-/

namespace WireCodec

/-- A step that appends to an output, and may fail. -/
abbrev Appender := EStateM Error Output

namespace Appender

/-- The result of a computation, or its error. -/
def lift {α : Type} : Except Error α → Appender α
  | .ok x => return x
  | .error e => throw e

/-- Appends bytes. -/
def bytes (bs : Bytes) : Appender Unit := modify (·.append bs)

/-- Appends a byte. -/
def byte (b : UInt8) : Appender Unit := bytes [b]

/-- Appends a 32-bit integer. -/
def int32 (x : Int32) : Appender Unit := bytes (Encode.int32 x)

/-- Appends a 64-bit word. -/
def int64 (x : BitVec 64) : Appender Unit := bytes (Encode.int64 x)

/-- Appends a value of a fixed-width kind. -/
def primitive (k : Primitive) (x : k.Val) : Appender Unit := bytes (k.encode x)

/-- Appends the number of elements that follow. -/
def count (n : Nat) : Appender Unit := do bytes (← lift (Encode.count n))

/-- Appends the number of bytes that follow. -/
def byteLength (n : Nat) : Appender Unit := do bytes (← lift (Encode.byteLength n))

/-- Appends a text: the length of its bytes, then the bytes. -/
def text (s : String) : Appender Unit := do
  let bs := ModifiedUtf8.encode s
  byteLength bs.length
  bytes bs

/-- Appends a character as one UTF-16 unit. -/
def char (c : Char) : Appender Unit := do bytes (← lift (Encode.char c))

/-- Appends a reference to a type: its id, or zero and its name where it has one. -/
def type (id : Int32) : Option String → Appender Unit
  | some name => do
    int32 0
    text name
  | none => int32 id

/-- Appends what the steps append, or nothing if one of them fails. -/
def guarded {α : Type} (steps : Appender α) : Appender α := do
  let start := (← get).size
  try steps
  catch e =>
    modify (·.truncate start)
    throw e

end Appender

end WireCodec
