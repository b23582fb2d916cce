/-!
Instants in UTC: seconds from the epoch and nanoseconds within the second. A second that ends a
minute may be a leap second, whose nanoseconds run on to twice their usual number.
-/

namespace WireCodec

namespace Timestamp

/-- The first second of the calendar. -/
def firstSecond : Int := -8334601228800

/-- The last second of the calendar. -/
def lastSecond : Int := 8210266876799

/-- The instants that there are. -/
def Valid (seconds : Int) (nanoseconds : Nat) : Prop :=
  firstSecond ≤ seconds ∧ seconds ≤ lastSecond ∧
    (nanoseconds < 1000000000 ∨ (nanoseconds < 2000000000 ∧ seconds % 60 = 59))

instance (seconds : Int) (nanoseconds : Nat) : Decidable (Valid seconds nanoseconds) :=
  inferInstanceAs (Decidable (_ ∧ _))

end Timestamp

/-- An instant. -/
structure Timestamp where
  seconds : Int
  nanoseconds : Nat
  valid : Timestamp.Valid seconds nanoseconds
  deriving DecidableEq

namespace Timestamp

/-- The epoch. -/
def epoch : Timestamp := ⟨0, 0, by decide⟩

instance : Inhabited Timestamp := ⟨epoch⟩

/-- The instant, if there is one with these parts. -/
def of? (seconds : Int) (nanoseconds : Nat) : Option Timestamp :=
  if h : Valid seconds nanoseconds then some ⟨seconds, nanoseconds, h⟩ else none

/-- The instant that these parts stand for on the wire, where no second is a leap second. -/
def ofWire? (seconds nanoseconds : Int) : Option Timestamp :=
  if 0 ≤ nanoseconds ∧ nanoseconds < 1000000000 then of? seconds nanoseconds.toNat else none

end Timestamp

end WireCodec
