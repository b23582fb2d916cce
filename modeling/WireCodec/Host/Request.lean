import WireCodec.Host.HostType

/-!
What a caller asks of a decode. The request goes down into the input with the reader: it chooses
the sign of integers, and names the type that a structured object must be of.
-/

namespace WireCodec

/-- What a caller wants. -/
inductive Request where
  /-- whatever the input carries, with integers in signed form -/
  | any
  /-- a value of this type -/
  | exact (t : HostType)
  /-- a sequence whose elements are requested so -/
  | elements (element : Request)
  /-- a map, or a pair, whose keys and values are requested so -/
  | entries (key value : Request)
  deriving DecidableEq

namespace Request

/-- The request for the elements of a sequence. -/
def element : Request → Request
  | elements r => r
  | _ => any

/-- The request for the keys of a map. -/
def key : Request → Request
  | entries k _ => k
  | _ => any

/-- The request for the values of a map. -/
def value : Request → Request
  | entries _ v => v
  | _ => any

/-- The sign that the request wants an integer of this width in, if it is one for integers of this
width at all. -/
def sign? (w : Width) : Request → Option Sign
  | any => some .signed
  | exact (.primitive (.int w' s)) => if w = w' then some s else none
  | _ => none

/-- The sign that the request wants the elements of an array of integers in. -/
def arraySign? (w : Width) : Request → Option Sign
  | any => some .signed
  | exact (.list (.primitive (.int w' s))) => if w = w' then some s else none
  | elements any => some .signed
  | elements (exact (.primitive (.int w' s))) => if w = w' then some s else none
  | _ => none

/-- The kind of values in which the request wants a fixed-width form. -/
def primitive (r : Request) : Form → Except Error Primitive
  | .bool => .ok .bool
  | .unit => .ok .unit
  | .int w =>
    match r.sign? w with
    | some s => .ok (.int w s)
    | none => .error (.neitherSign (.one (.int w)))
  | .float => .ok .float
  | .double => .ok .double

/-- The kind of elements in which the request wants an array of a fixed-width form. -/
def primitiveArray (r : Request) : Form → Except Error Primitive
  | .bool => .ok .bool
  | .unit => .ok .unit
  | .int w =>
    match r.arraySign? w with
    | some s => .ok (.int w s)
    | none => .error (.neitherSign (.array (.int w)))
  | .float => .ok .float
  | .double => .ok .double

end Request

/-- The request for the values of a host type. -/
def HostType.request : HostType → Request
  | primitive k => .exact (.primitive k)
  | char => .exact .char
  | scalar s => .exact (.scalar s)
  | unit => .any
  | value => .any
  | object => .exact .object
  | option t => t.request
  | list t => .elements t.request
  | deque t => .elements t.request
  | set _ k => .elements (.exact k.hostType)
  | map _ k t => .entries (.exact k.hostType) t.request
  | pair a b => .entries a.request b.request
  | enumeration name e => .exact (.enumeration name e)
  | record name content => .exact (.record name content)
  | choice arms => .exact (.choice arms)

end WireCodec
