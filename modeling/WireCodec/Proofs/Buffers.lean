import WireCodec.Buffer
import WireCodec.Proofs.Writing.Steps

/-!
# Buffers

Whatever is written into a buffer fills it with some bytes at its position (`Buffer.Filled`), which
goes past them, and all other bytes are as they were. Filling is composed as the bytes are, and the
cursor that knows only the room ahead does the same (`Buffer.putAll?_cursor`,
`Buffer.putPartial_cursor`).
-/

namespace WireCodec

namespace Buffer

variable {b b' b'' : Buffer} {as bs : Bytes}

/-- The buffer after bytes that fit: they stand where the position was, the bytes before and behind
them are as they were, and the position is past them. -/
structure Filled (b : Buffer) (bs : Bytes) (b' : Buffer) : Prop where
  bytes : b'.bytes = b.bytes.take b.position ++ bs ++ b.bytes.drop (b.position + bs.length)
  position : b'.position = b.position + bs.length

theorem length_written (b : Buffer) : b.written.length = b.position :=
  List.length_take_of_le b.inside

namespace Filled

theorem refl (b : Buffer) : b.Filled [] b :=
  ⟨by rw [List.append_nil, List.length_nil, Nat.add_zero, List.take_append_drop], rfl⟩

theorem written (h : b.Filled bs b') : b'.written = b.written ++ bs := by
  have hlength : (b.written ++ bs).length = b'.position := by
    rw [List.length_append, length_written, h.position]
  rw [Buffer.written, h.bytes, ← hlength]
  exact List.take_left

theorem trans (h : b.Filled as b') (h' : b'.Filled bs b'') : b.Filled (as ++ bs) b'' := by
  have htake : b'.bytes.take b'.position = b.bytes.take b.position ++ as := h.written
  have hlength : (b.bytes.take b.position ++ as).length = b'.position := by
    rw [← htake]
    exact b'.length_written
  refine ⟨?_, ?_⟩
  · rw [h'.bytes, htake, h.bytes, ← List.drop_drop, List.drop_left' hlength, List.drop_drop,
      List.length_append, ← List.append_assoc, Nat.add_assoc]
  · rw [h'.position, h.position, List.length_append, Nat.add_assoc]

theorem unique (h : b.Filled bs b') (h' : b.Filled bs b'') : b' = b'' := by
  obtain ⟨bytes', position', inside'⟩ := b'
  obtain ⟨bytes'', position'', inside''⟩ := b''
  cases h.bytes.trans h'.bytes.symm
  cases h.position.trans h'.position.symm
  rfl

theorem length_eq (h : b.Filled bs b') (hfits : bs.length ≤ b.remaining) :
    b'.bytes.length = b.bytes.length := by
  have hinside := b.inside
  rw [remaining] at hfits
  simp only [h.bytes, List.length_append, List.length_take, List.length_drop]
  omega

theorem remaining_eq (h : b.Filled bs b') (hfits : bs.length ≤ b.remaining) :
    b'.remaining = b.remaining - bs.length := by
  rw [remaining, remaining, h.length_eq hfits, h.position, Nat.sub_add_eq]

/-- Once a buffer is filled from its start, only the end of what it held before is left. -/
theorem bytes_eq (h : b.Filled bs b') (hstart : b.position = 0) :
    b'.bytes = bs ++ b.bytes.drop b'.position := by
  rw [h.bytes, h.position, hstart, List.take_zero, List.nil_append]

end Filled

/-! ## All or nothing -/

theorem putAll_of_le (h : bs.length ≤ b.remaining) :
    ∃ b', b.putAll bs = (true, b') ∧ b.Filled bs b' :=
  ⟨_, dif_pos h, rfl, rfl⟩

theorem putAll_of_lt (h : b.remaining < bs.length) : b.putAll bs = (false, b) :=
  dif_neg (Nat.not_le.mpr h)

theorem putAll_cases (b : Buffer) (bs : Bytes) :
    (b.remaining < bs.length ∧ b.putAll bs = (false, b)) ∨
      (bs.length ≤ b.remaining ∧ ∃ b', b.putAll bs = (true, b') ∧ b.Filled bs b') :=
  (Nat.lt_or_ge b.remaining bs.length).imp (fun h => ⟨h, putAll_of_lt h⟩)
    fun h => ⟨h, putAll_of_le h⟩

/-! ## As much as fits -/

theorem putPartial_le_remaining (b : Buffer) (bs : Bytes) : (b.putPartial bs).1 ≤ b.remaining :=
  Nat.min_le_right _ _

theorem length_take_putPartial (b : Buffer) (bs : Bytes) :
    (bs.take (b.putPartial bs).1).length = (b.putPartial bs).1 :=
  List.length_take_of_le (Nat.min_le_left _ _)

theorem filled_putPartial (b : Buffer) (bs : Bytes) :
    b.Filled (bs.take (b.putPartial bs).1) (b.putPartial bs).2 := by
  have hlength := b.length_take_putPartial bs
  exact ⟨by rw [hlength]; rfl, by rw [hlength]; rfl⟩

/-- A buffer that does not accept all of the bytes is full. -/
theorem remaining_putPartial (h : (b.putPartial bs).1 ≠ bs.length) :
    (b.putPartial bs).2.remaining = 0 := by
  have hfits := b.putPartial_le_remaining bs
  have hmin : (b.putPartial bs).1 = min bs.length b.remaining := rfl
  rw [(b.filled_putPartial bs).remaining_eq (by rwa [length_take_putPartial]),
    length_take_putPartial]
  omega

/-! ## The room ahead -/

theorem remaining_cursor (b : Buffer) : b.cursor.remaining = b.remaining := by
  rw [WriteCursor.remaining, WriteCursor.size_written, remaining, ← b.length_written]
  rfl

/-- The cursor of a buffer that was filled has written as much. -/
theorem Filled.cursor_eq (h : b.Filled (bs.take b.remaining) b') :
    b.cursor.putPartial bs = b'.cursor := by
  refine WriteCursor.eq_of (h.length_eq (List.length_take_le _ _)).symm ?_
  rw [WriteCursor.written_putPartial, remaining_cursor]
  exact h.written.symm

/-- A cursor that only knows how many bytes lie ahead does the same. -/
theorem putAll?_cursor (b : Buffer) (bs : Bytes) : b.cursor.putAll? bs =
    if (b.putAll bs).1 then some (b.putAll bs).2.cursor else none := by
  rw [WriteCursor.putAll?_eq, remaining_cursor]
  obtain ⟨hover, hput⟩ | ⟨hfits, b', hput, hfilled⟩ := b.putAll_cases bs
  · rw [hput, if_neg (Nat.not_le.mpr hover)]
    rfl
  · rw [← List.take_of_length_le hfits] at hfilled
    rw [hput, if_pos hfits, if_pos rfl, hfilled.cursor_eq]

theorem putPartial_cursor (b : Buffer) (bs : Bytes) :
    b.cursor.putPartial bs = (b.putPartial bs).2.cursor := by
  have htake : bs.take b.remaining = bs.take (b.putPartial bs).1 := by
    rw [List.take_eq_take_min, Nat.min_comm]
    rfl
  have hfilled := b.filled_putPartial bs
  rw [← htake] at hfilled
  exact hfilled.cursor_eq

end Buffer

end WireCodec
