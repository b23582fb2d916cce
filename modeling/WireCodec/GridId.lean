import WireCodec.Uuid

/-!
Grid ids: unique across the nodes of a grid, made of the id of the node that generated one and a
counter local to that node.
-/

namespace WireCodec

/-- An id unique across the grid. -/
structure GridId where
  node : Uuid
  counter : Int64
  deriving DecidableEq, Repr, Inhabited

namespace GridId

/-- The text of an id: the counter's bits in hexadecimal, then the node. -/
def text (g : GridId) : String :=
  Hex.text .lower 1 g.counter.toUInt64.toNat ++ "-" ++ g.node.text

/-- Ids are ordered by node, and by counter within a node. -/
def compare (a b : GridId) : Ordering :=
  (Uuid.compare a.node b.node).then (Ord.compare a.counter.toInt b.counter.toInt)

end GridId

end WireCodec
