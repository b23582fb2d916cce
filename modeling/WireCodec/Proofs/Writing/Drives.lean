import WireCodec.Proofs.Writing.Segments

/-!
# Segments in limited room

What writing segments into limited room comes to under one marshaller (`Segment.Drives`): it writes
whole segments, and the beginning of a byte string, until room runs out or a segment fails. What is
written and what is left are what there was to be written (`Drives.under_eq`), and the first of the
segments left is never a value: a value that is reached is encoded there and then (`Drives.begun`).
-/

namespace WireCodec

namespace Segment

variable {f g : Nat → Marshaller} {m : Marshaller} {as bs segments : List Segment} {k l : Nat}

/-- How writing segments into a buffer ends. -/
inductive Outcome where
  | done
  | failed (e : Error)
  /-- for want of room, with these segments left -/
  | stopped (left : List Segment)

/-- How it ends if more segments follow. -/
def Outcome.before (more : List Segment) : Outcome → Outcome
  | stopped left => stopped (left ++ more)
  | o => o

/-- What is still to be written, or the error that ends it. -/
def Outcome.left : Outcome → List Segment
  | done => []
  | failed e => [.failed e]
  | stopped left => left

/-- What is written of segments into so much room under a marshaller, and how that ends. A value
that is reached is encoded. -/
inductive Drives (m : Marshaller) : List Segment → Nat → Bytes → Outcome → Prop
  | done {room} : Drives m [] room [] .done
  | whole {bs rest room out o} (hroom : bs.length ≤ room)
      (h : Drives m rest (room - bs.length) out o) : Drives m (whole bs :: rest) room (bs ++ out) o
  | wholeStopped {bs rest room} (hroom : room < bs.length) :
      Drives m (whole bs :: rest) room [] (.stopped (whole bs :: rest))
  | stream {bs rest room out o} (hroom : bs.length ≤ room)
      (h : Drives m rest (room - bs.length) out o) : Drives m (stream bs :: rest) room (bs ++ out) o
  | streamStopped {bs rest room} (hroom : room < bs.length) :
      Drives m (stream bs :: rest) room (bs.take room) (.stopped (stream (bs.drop room) :: rest))
  | value {encoded rest room out o} (h : Drives m (staged (encoded m) ++ rest) room out o) :
      Drives m (value encoded :: rest) room out o
  | failed {e rest room} : Drives m (failed e :: rest) room [] (.failed e)
  | waiting {rest room} : Drives m (waiting :: rest) room [] (.stopped (waiting :: rest))

/-- The first segment is known, and is no byte string of which nothing is left. -/
inductive Begun : List Segment → Prop
  | whole {bs rest} (h : bs ≠ []) : Begun (whole bs :: rest)
  | stream {bs rest} (h : bs ≠ []) : Begun (stream bs :: rest)
  | waiting {rest} : Begun (waiting :: rest)

/-- A message begins with its type byte. -/
theorem begun_ofMessage (config : Config) (levels : Nat) (msg : Message) :
    Begun (ofMessage config levels msg) := by
  cases levels <;> exact .whole (List.cons_ne_nil _ _)

theorem Begun.ne_nil_bytes (h : Begun segments) (hready : .waiting ∉ segments) :
    (under f k segments).bytes ≠ [] := by
  cases h with
  | whole h | stream h => simp [h]
  | waiting => simp at hready

/-- A segment that is begun is not asked of the marshaller in force at its offset. -/
theorem Begun.under_congr (h : Begun segments) (hf : ∀ i, 0 < i → f (k + i) = g (l + i)) :
    under f k segments = under g l segments := by
  cases h with
  | @whole bs rest h | @stream bs rest h =>
    have hpos := List.length_pos_iff.mpr h
    have hrest : under f (k + bs.length) rest = under g (l + bs.length) rest :=
      Segment.under_congr (fun i => by rw [Nat.add_assoc, Nat.add_assoc, hf _ (by omega)]) rest
    rw [under, under, hrest]
  | waiting => rfl

namespace Drives

variable {room : Nat} {out out' : Bytes} {o : Outcome} {left : List Segment}

theorem trans (h : Drives m as room out .done) (h' : Drives m bs (room - out.length) out' o) :
    Drives m (as ++ bs) room (out ++ out') o := by
  generalize ho : Outcome.done = o₁ at h
  induction h with
  | done => exact h'
  | @whole bytes rest room out o₁ hroom h ih =>
    rw [List.length_append, Nat.sub_add_eq] at h'
    rw [List.append_assoc]
    exact .whole hroom (ih h' ho)
  | @stream bytes rest room out o₁ hroom h ih =>
    rw [List.length_append, Nat.sub_add_eq] at h'
    rw [List.append_assoc]
    exact .stream hroom (ih h' ho)
  | value h ih =>
    have hrest := ih h' ho
    rw [List.append_assoc] at hrest
    exact .value hrest
  | _ => cases ho

theorem before (h : Drives m as room out o) (ho : o ≠ .done) (more : List Segment) :
    Drives m (as ++ more) room out (o.before more) := by
  induction h with
  | done => exact absurd rfl ho
  | whole hroom h ih => exact .whole hroom (ih ho)
  | wholeStopped hroom => exact .wholeStopped hroom
  | stream hroom h ih => exact .stream hroom (ih ho)
  | streamStopped hroom => exact .streamStopped hroom
  | value h ih =>
    have hrest := ih ho
    rw [List.append_assoc] at hrest
    exact .value hrest
  | failed => exact .failed
  | waiting => exact .waiting

theorem length_le (h : Drives m segments room out o) : out.length ≤ room := by
  induction h with
  | done | wholeStopped _ | failed | waiting => exact Nat.zero_le _
  | whole hroom _ ih | stream hroom _ ih =>
    rw [List.length_append]
    omega
  | streamStopped hroom => exact List.length_take_le _ _
  | value _ ih => exact ih

theorem begun (h : Drives m segments room out (.stopped left)) : Begun left := by
  generalize ho : Outcome.stopped left = o at h
  induction h with
  | whole _ _ ih | stream _ _ ih | value _ ih => exact ih ho
  | wholeStopped hroom =>
    cases ho
    exact .whole (List.ne_nil_of_length_pos (by omega))
  | streamStopped hroom =>
    cases ho
    exact .stream (List.ne_nil_of_length_pos (by rw [List.length_drop]; omega))
  | waiting =>
    cases ho
    exact .waiting
  | done | failed => cases ho

/-- What is written is what the segments stand for, up to what is still to be written. -/
theorem under_eq (h : Drives m segments room out o) (hf : ∀ i ≤ out.length, f (k + i) = m) :
    (under f k segments).bytes = out ++ (under f (k + out.length) o.left).bytes ∧
      (under f k segments).failure = (under f (k + out.length) o.left).failure := by
  induction h generalizing k with
  | done => exact ⟨rfl, rfl⟩
  | @whole bs rest room out o hroom h ih | @stream bs rest room out o hroom h ih =>
    rw [List.length_append] at hf
    have hrest (i : Nat) (hi : i ≤ out.length) : f (k + bs.length + i) = m := by
      rw [Nat.add_assoc]
      exact hf _ (Nat.add_le_add_left hi _)
    obtain ⟨hbytes, hfailure⟩ := ih hrest
    rw [Nat.add_assoc, ← List.length_append] at hbytes hfailure
    simp [hbytes, hfailure]
  | wholeStopped hroom => exact ⟨rfl, rfl⟩
  | @streamStopped bs rest room hroom =>
    have hend : k + (bs.take room).length + (bs.drop room).length = k + bs.length := by
      rw [List.length_take, List.length_drop]
      omega
    rw [Outcome.left, bytes_under_stream, bytes_under_stream, failure_under_stream,
      failure_under_stream, hend, ← List.append_assoc, List.take_append_drop]
    exact ⟨rfl, rfl⟩
  | value h ih =>
    have hstart : f k = m := hf 0 (Nat.zero_le _)
    rw [under_value _ hstart]
    exact ih hf
  | failed => exact ⟨rfl, rfl⟩
  | waiting => exact ⟨rfl, rfl⟩

/-- A wait is still ahead exactly if it was. -/
theorem waiting_mem_left (h : Drives m segments room out o) (ho : ∀ e, o ≠ .failed e) :
    .waiting ∈ o.left ↔ .waiting ∈ segments := by
  induction h with
  | whole _ _ ih | stream _ _ ih => simpa using ih ho
  | value _ ih => simpa [waiting_notMem_staged] using ih ho
  | failed => exact absurd rfl (ho _)
  | streamStopped hroom => simp [Outcome.left]
  | done | wholeStopped _ | waiting => exact .rfl

/-- Writing stops only where there is less room than is needed. -/
theorem exceeds (h : Drives m segments room out (.stopped left)) (hready : .waiting ∉ segments)
    (k : Nat) : room < (under (fun _ => m) k segments).bytes.length := by
  generalize ho : Outcome.stopped left = o at h
  induction h generalizing k with
  | @whole bs _ _ _ _ _ _ ih | @stream bs _ _ _ _ _ _ ih =>
    simp only [List.mem_cons, not_or] at hready
    have hrest := ih hready.2 (k + bs.length) ho
    simp only [bytes_under_whole, bytes_under_stream, List.length_append]
    omega
  | wholeStopped hroom | streamStopped hroom =>
    simp only [bytes_under_whole, bytes_under_stream, List.length_append]
    omega
  | value _ ih =>
    rw [under_value _ rfl]
    exact ih (by simpa [waiting_notMem_staged] using hready) k ho
  | waiting => simp at hready
  | done | failed => cases ho

end Drives

end Segment

theorem Message.begun_segments (config : Config) (msg : Message) :
    Segment.Begun (msg.segments config) :=
  Segment.begun_ofMessage config _ msg

end WireCodec
