import WireCodec.Text.Hex

/-!
Whole numbers in digits, in bases up to sixteen; and those of machine words, with the reason why
characters are none.
-/

namespace WireCodec.Numeral

/-- The value of a character as a digit of a base. -/
def digit? (base : Nat) (c : Char) : Option Nat := (Hex.value? c).filter (· < base)

/-- The number that one or more digits denote. -/
def number? (base : Nat) (cs : List Char) : Option Nat :=
  if cs.isEmpty then none
  else cs.foldlM (fun n c => (digit? base c).map (n * base + ·)) 0

/-- Digits without the single underscores that may stand between two of them. -/
def ungrouped? (base : Nat) : List Char → Option (List Char)
  | [] => none
  | c :: cs =>
    if (digit? base c).isNone then none
    else
      match cs with
      | [] => some [c]
      | '_' :: cs => (ungrouped? base cs).map (c :: ·)
      | cs => (ungrouped? base cs).map (c :: ·)

/-- The number that digits denote, with single underscores between them. -/
def grouped? (base : Nat) (cs : List Char) : Option Nat := ungrouped? base cs >>= number? base

/-- Why characters are no number of a machine word. -/
inductive Fault where
  /-- there are none -/
  | empty
  /-- one of them is no digit -/
  | digit
  /-- the number does not fit -/
  | overflow
  deriving DecidableEq, Repr

/-- What a fault is called in messages. -/
def Fault.text : Fault → String
  | empty => "cannot parse integer from empty string"
  | digit => "invalid digit found in string"
  | overflow => "number too large to fit in target type"

/-- A number with one more decimal digit, below a bound. -/
def pushDigit (bound n : Nat) (c : Char) : Except Fault Nat :=
  match digit? 10 c with
  | some d => if n * 10 + d < bound then .ok (n * 10 + d) else .error .overflow
  | none => .error .digit

/-- The number below a bound that decimal digits denote, which a plus sign may precede. Of several
faults, the first one counts. -/
def word (bound : Nat) : List Char → Except Fault Nat
  | [] => .error .empty
  | ['+'] => .error .digit
  | '+' :: cs | cs => cs.foldlM (pushDigit bound) 0

end WireCodec.Numeral
