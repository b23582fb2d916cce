import Mathlib.Data.Nat.Basic
import WireCodec.Frame.Delivery
import WireCodec.Proofs.Writing.Messages

/-!
What is written of a message does not depend on the buffers it is written into: each buffer holds
the next bytes of what one large buffer would hold.
-/

namespace WireCodec

open Write

/-- Writes a message, as deep as the configuration lets it nest. -/
def Write.writeMessage (m : Marshaller) (msg : Message) : Write Unit :=
  putMessage m (m.config.maxNestingDepth - 1) msg

theorem Write.resumable_writeMessage (m : Marshaller) {msg : Message} (h : msg.Steady) :
    Resumable (fun w => w.stack.above) (writeMessage m msg) :=
  resumable_putMessage m _ h

theorem WriteCursor.ofCapacity_extend (capacity room : Nat) :
    (ofCapacity capacity).extend [] room = ofCapacity (capacity + room) :=
  eq_of rfl rfl

theorem WriteCursor.written_putPartial_ofCapacity {capacity : Nat} {bs : Bytes}
    (h : bs.length ≤ capacity) : ((ofCapacity capacity).putPartial bs).written.toList = bs := by
  have hroom : bs.length ≤ (ofCapacity capacity).remaining := h
  rw [written_putPartial, List.take_of_length_le hroom]
  rfl

/-- The end of a routine that did not stop for want of room: it is done, or it has failed. -/
def Write.ends : Option Error → Writer → EStateM.Result (Stop Error) Writer Unit
  | none, w => .ok () w
  | some e, w => .error (.failed e) w

namespace Write

variable {p : Write Unit} {failure failure' : Option Error} {w w' : Writer}

theorem ends_or_suspended (p : Write Unit) (w : Writer) :
    (∃ failure w', p w = ends failure w') ∨ ∃ w', p w = .error .suspended w' := by
  cases hp : p w with
  | ok u w' => exact .inl ⟨none, w', rfl⟩
  | error stop w' =>
    cases stop with
    | suspended => exact .inr ⟨w', rfl⟩
    | failed e => exact .inl ⟨some e, w', rfl⟩

theorem ends_inj (h : ends failure w = ends failure' w') : failure = failure' ∧ w = w' := by
  cases failure <;> cases failure' <;> cases h <;> exact ⟨rfl, rfl⟩

theorem ends_ne_suspended : ends failure w ≠ .error .suspended w' := by
  cases failure <;> intro h <;> cases h

theorem ends_extend (h : Extends p) (hp : p w = ends failure w') (before : Bytes) (room : Nat) :
    p (w.extend before room) = ends failure (w'.extend before room) := by
  cases failure with
  | none => exact ok_extend h hp before room
  | some e => exact failed_extend h hp before room

theorem ends_of_extend (h : Extends p) {before : Bytes}
    (hp : p (w.extend before 0) = ends failure w') :
    ∃ w₀, p w = ends failure w₀ ∧ w' = w₀.extend before 0 := by
  rcases ends_or_suspended p w with ⟨failure₀, w₀, hw⟩ | ⟨w₀, hw⟩
  · have he := ends_extend h hw before 0
    rw [hp] at he
    obtain ⟨rfl, rfl⟩ := ends_inj he
    exact ⟨w₀, hw, rfl⟩
  · rw [suspended_extend h hw before] at hp
    exact absurd hp.symm ends_ne_suspended

end Write

namespace WriteSession

variable {m : Marshaller} {msg : Message} {s : WriteSession} {failure : Option Error}
  {left : Bytes}

/-- What a call reports that has written the last of some bytes. -/
def report : Option Error → Bytes → Except Error (Bytes × Bool)
  | none, bs => .ok (bs, true)
  | some e, _ => .error e

theorem encode_of_ends {capacity : Nat} {w : Writer}
    (h : writeMessage m msg ⟨s.stack, .ofCapacity capacity⟩ = ends failure w) :
    s.encode m msg capacity = (report failure w.cursor.written.toList, reset ⟨w.stack, true⟩) := by
  rw [writeMessage] at h
  rw [encode, write, h]
  cases failure <;> rfl

theorem encode_of_suspended {capacity : Nat} {w : Writer}
    (h : writeMessage m msg ⟨s.stack, .ofCapacity capacity⟩ = .error .suspended w) :
    s.encode m msg capacity = (.ok (w.cursor.written.toList, false), ⟨w.stack, true⟩) := by
  rw [writeMessage] at h
  rw [encode, write, h]

theorem ends_of_encode {capacity : Nat} (h : (s.encode m msg capacity).1 = .ok (left, true)) :
    ∃ w, writeMessage m msg ⟨s.stack, .ofCapacity capacity⟩ = ends none w ∧
      w.cursor.written.toList = left := by
  rcases ends_or_suspended (writeMessage m msg) ⟨s.stack, .ofCapacity capacity⟩ with
    ⟨failure, w, hp⟩ | ⟨w, hp⟩
  · rw [encode_of_ends hp] at h
    cases failure <;> cases h
    exact ⟨w, hp, rfl⟩
  · rw [encode_of_suspended hp] at h
    cases h

/-- A session has these bytes left to write of a message, and then succeeds or fails: so it does in
some buffer that is large enough for them. -/
def Owes (m : Marshaller) (msg : Message) (s : WriteSession) (failure : Option Error)
    (left : Bytes) : Prop :=
  ∃ capacity w, writeMessage m msg ⟨s.stack, .ofCapacity capacity⟩ = ends failure w ∧
    w.cursor.written.toList = left

/-- A buffer that is partly filled is a buffer behind what was written into it. -/
theorem extend_rest (w : Writer) (room : Nat) : w.extend [] room =
    Writer.extend ⟨w.stack, .ofCapacity (w.cursor.remaining + room)⟩ w.cursor.written.toList 0 := by
  have hfits := w.cursor.fits
  have hcursor : w.cursor.extend [] room =
      (WriteCursor.ofCapacity (w.cursor.remaining + room)).extend w.cursor.written.toList 0 := by
    refine WriteCursor.eq_of ?_ (by simp [WriteCursor.ofCapacity])
    change w.cursor.capacity + 0 + room = w.cursor.remaining + room + _ + 0
    rw [WriteCursor.remaining, ← WriteCursor.size_written]
    omega
  rw [Writer.extend, hcursor]
  rfl

/-- What a call does to a session that has bytes left to write: it writes all of them and reports
how that ends, or it writes some of them and leaves the others. -/
theorem Owes.encode (hm : msg.Steady) (h : Owes m msg s failure left) (capacity : Nat) :
    (∃ stack, s.encode m msg capacity = (report failure left, reset ⟨stack, true⟩)) ∨
    (∃ out rest s', s.encode m msg capacity = (.ok (out, false), s') ∧ left = out ++ rest ∧
      (failure = none → rest ≠ []) ∧ Owes m msg s' failure rest) := by
  obtain ⟨room, w, hrun, rfl⟩ := h
  have hres := resumable_writeMessage m hm
  have hext := hres.extension
  have hbig := ends_extend hext hrun [] capacity
  have hsame : Writer.extend ⟨s.stack, .ofCapacity room⟩ [] capacity =
      Writer.extend ⟨s.stack, .ofCapacity capacity⟩ [] room := by
    rw [Writer.extend, Writer.extend, WriteCursor.ofCapacity_extend,
      WriteCursor.ofCapacity_extend, Nat.add_comm]
  rw [hsame] at hbig
  rcases ends_or_suspended (writeMessage m msg) ⟨s.stack, .ofCapacity capacity⟩ with
    ⟨failure₁, w₁, hp⟩ | ⟨w₁, hp⟩
  · have hbig₁ := ends_extend hext hp [] room
    rw [hbig] at hbig₁
    obtain ⟨rfl, hw⟩ := ends_inj hbig₁
    have hwritten : w.cursor.written.toList = w₁.cursor.written.toList := by
      simpa using congrArg (fun w => w.cursor.written.toList) hw
    exact .inl ⟨w₁.stack, by rw [encode_of_ends hp, hwritten]⟩
  · have hresume := resume_extend hres.resumption hp room
    rw [hbig, extend_rest w₁ room] at hresume
    obtain ⟨w₂, hrest, hw⟩ := ends_of_extend hext hresume.symm
    have hwritten : w.cursor.written.toList =
        w₁.cursor.written.toList ++ w₂.cursor.written.toList := by
      simpa using congrArg (fun w => w.cursor.written.toList) hw
    refine .inr ⟨_, w₂.cursor.written.toList, _, encode_of_suspended hp, hwritten,
      fun hnone hnil => ?_, _, w₂, hrest, rfl⟩
    subst hnone
    have hexceeds : capacity < (w.extend [] capacity).cursor.written.size :=
      exceeds_extend hext hp hbig
    have hcapacity : w₁.cursor.capacity = capacity := (suspended_precedes hext hp).1
    have hfits := w₁.cursor.fits
    rw [Writer.extend_cursor, WriteCursor.size_extend, WriteCursor.size_written, hwritten, hnil,
      List.append_nil, ← WriteCursor.size_written, List.length_nil] at hexceeds
    omega

/-- However much room each call has, the calls together write the bytes that are left, from the
first one on, and the last call reports that they are all written exactly if they are. -/
theorem Owes.encodeOver (hm : msg.Steady) (h : Owes m msg s none left) (hleft : left ≠ [])
    (capacities : List Nat) :
    let run := encodeOver m msg capacities s
    ∃ finished, run.2.1 = .ok finished ∧ run.1.flatten <+: left ∧
      (finished = true ↔ run.1.flatten = left) := by
  induction capacities generalizing s left with
  | nil => exact ⟨false, rfl, List.nil_prefix, by simpa [WriteSession.encodeOver] using hleft.symm⟩
  | cons capacity capacities ih =>
    rcases h.encode hm capacity with ⟨stack, hrun⟩ | ⟨out, rest, s', hrun, rfl, hrest, howes⟩
    · refine ⟨true, ?_⟩
      simp [WriteSession.encodeOver, hrun, report]
    · obtain ⟨finished, hresult, hprefix, hdone⟩ := ih howes (hrest rfl)
      refine ⟨finished, ?_⟩
      simp [WriteSession.encodeOver, hrun, hresult, hprefix, hdone]

/-- A message begins with its type byte, so that nothing of it fits where there is no room. -/
theorem writeMessage_without_room (m : Marshaller) (msg : Message) :
    ∃ w, writeMessage m msg ⟨WriteSession.new.stack, .ofCapacity 0⟩ = .error .suspended w := by
  rw [writeMessage]
  cases m.config.maxNestingDepth - 1 with
  | zero => exact ⟨_, rfl⟩
  | succ levels => exact ⟨_, rfl⟩

/-- A message that fits into one large buffer is written into any buffers as the same bytes: after
each call what was written is the beginning of them, and the call reports that the message is
finished exactly when it is all of them. -/
theorem encodeOver_of_encode (hm : msg.Steady) {capacity : Nat} {whole : Bytes}
    (h : (WriteSession.new.encode m msg capacity).1 = .ok (whole, true))
    (capacities : List Nat) :
    let run := WriteSession.encodeOver m msg capacities .new
    ∃ finished, run.2.1 = .ok finished ∧ run.1.flatten <+: whole ∧
      (finished = true ↔ run.1.flatten = whole) := by
  obtain ⟨w, hrun, rfl⟩ := ends_of_encode h
  obtain ⟨w₀, hstop⟩ := writeMessage_without_room m msg
  have hfull : writeMessage m msg (Writer.extend ⟨new.stack, .ofCapacity 0⟩ [] capacity) =
      .ok () w := by
    rw [Writer.extend, WriteCursor.ofCapacity_extend, Nat.zero_add, hrun]
    rfl
  have hlength : 0 < w.cursor.written.size :=
    exceeds_extend (resumable_writeMessage m hm).extension hstop hfull
  refine Owes.encodeOver hm ⟨capacity, w, hrun, rfl⟩ (fun hnil => ?_) capacities
  rw [WriteCursor.size_written, hnil] at hlength
  cases hlength

/-- A byte string and a message nested in a message, with no room, with little and with enough. -/
theorem encodeOver_bytes_and_nested :
    let inner : Message := .mk 2 [.bytes (some [5])]
    let msg : Message := .mk 1 [.bytes (some [7, 8, 9]), .message (some inner)]
    (new.encode default msg 64).1 = .ok ([1, 3, 0, 0, 0, 7, 8, 9, 2, 1, 0, 0, 0, 5], true) ∧
      let run := WriteSession.encodeOver default msg [0, 1, 6, 0, 5, 64] .new
      ∃ finished, run.2.1 = .ok finished ∧
        run.1.flatten <+: [1, 3, 0, 0, 0, 7, 8, 9, 2, 1, 0, 0, 0, 5] ∧
        (finished = true ↔ run.1.flatten = [1, 3, 0, 0, 0, 7, 8, 9, 2, 1, 0, 0, 0, 5]) := by
  intro inner msg
  have hwhole : (new.encode default msg 64).1 =
      .ok ([1, 3, 0, 0, 0, 7, 8, 9, 2, 1, 0, 0, 0, 5], true) := by decide +kernel
  have hinner : inner.Steady := .mk (by simp) (by simp [Field.messages])
  have hmsg : msg.Steady := .mk (by simp) (by simpa [Field.messages] using hinner)
  exact ⟨hwhole, encodeOver_of_encode hmsg hwhole _⟩

end WriteSession

end WireCodec
