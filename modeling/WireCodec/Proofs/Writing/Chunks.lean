import WireCodec.Frame.Codec
import WireCodec.Proofs.Writing.Advances
import WireCodec.Proofs.Writing.Scripts

/-!
A codec appends a message to its destination chunk by chunk. What it has appended when it succeeds
is the emission of the message. When it fails only the chunk that failed is dropped, so that the
destination is as it was exactly if the message fails within its first chunk.
-/

namespace WireCodec

open Write

/-! ## Sessions between messages -/

/-- A session that is not in the middle of a message. -/
structure WriteSession.Idle (s : WriteSession) : Prop where
  current : s.stack.current = default
  cleared : s.stack.Cleared

namespace WriteSession

variable {m : Marshaller} {msg : Message} {s : WriteSession}

theorem idle_new : WriteSession.new.Idle := ⟨rfl, FrameStack.cleared_empty⟩

theorem idle_reset (s : WriteSession) : s.reset.Idle := ⟨rfl, FrameStack.cleared_reset s.stack⟩

/-- In a buffer that is large enough, an idle session writes the emission of a message. -/
theorem Idle.writeMessage (hs : s.Idle) (hm : msg.Plain) {capacity : Nat}
    (h : (m.emission msg).bytes.length ≤ capacity) :
    ∃ w, Write.writeMessage m msg ⟨s.stack, .ofCapacity capacity⟩ =
        ends (m.emission msg).failure w ∧
      w.cursor.written.toList = (m.emission msg).bytes := by
  have hroom : (m.emission msg).bytes.length ≤ (WriteCursor.ofCapacity capacity).remaining := h
  have hrun := writes_writeMessage m.config hm.steady s.stack.above s.stack
    ⟨rfl, hs.current, hs.cleared⟩ 1 m rfl (.ofCapacity capacity)
  obtain ⟨w, hrun, hcursor⟩ := hrun.whole (hm.standsFor m) hroom
  exact ⟨w, hrun, by rw [hcursor]; exact WriteCursor.written_putPartial_ofCapacity h⟩

/-- An idle session has all of a message left to write. -/
theorem Idle.owes (hs : s.Idle) (hm : msg.Plain) :
    Owes m msg s (m.emission msg).failure (m.emission msg).bytes :=
  ⟨_, hs.writeMessage hm (Nat.le_refl _)⟩

/-- A buffer with room for a type byte that does not take all of a message takes some of it. -/
theorem Idle.written (hs : s.Idle) {capacity : Nat} (hpos : 1 ≤ capacity) {w : Writer}
    (h : Write.writeMessage m msg ⟨s.stack, .ofCapacity capacity⟩ = .error .suspended w) :
    w.cursor.written.toList ≠ [] := by
  have hheader : headerWritten ⟨s.stack, .ofCapacity capacity⟩ = false := by
    rw [headerWritten, hs.current]
    rfl
  obtain ⟨bs, hbs⟩ := written_writeMessage hheader hpos h
  rw [hbs]
  simp

/-- An idle session fails in a buffer exactly if it reaches the error there. -/
theorem Idle.length_le (hs : s.Idle) (hm : msg.Plain) {capacity : Nat} {e : Error} {w : Writer}
    (h : Write.writeMessage m msg ⟨s.stack, .ofCapacity capacity⟩ = ends (some e) w) :
    (m.emission msg).bytes.length ≤ capacity := by
  have hbig := ends_extend (resumable_writeMessage m hm.steady).extension h []
    (m.emission msg).bytes.length
  obtain ⟨w', hrun, hwritten⟩ := hs.writeMessage (m := m) hm
    (Nat.le_add_left (m.emission msg).bytes.length capacity)
  rw [Writer.extend, WriteCursor.ofCapacity_extend, hrun] at hbig
  obtain ⟨-, rfl⟩ := ends_inj hbig
  have hcapacity : w.cursor.capacity = capacity := ((advances_putMessage m _ msg).error h).1
  have hfits := w.cursor.fits
  have hsize : w.cursor.written.size = (m.emission msg).bytes.length := by
    rw [← hwritten, WriteCursor.size_written]
    simp
  omega

end WriteSession

theorem Output.toList_append (o : Output) (bs : Bytes) :
    (o.append bs).bytes.toList = o.bytes.toList ++ bs := by
  simp [append]

theorem Output.append_append (o : Output) (as bs : Bytes) :
    (o.append as).append bs = o.append (as ++ bs) := by
  rw [append, append, append]
  exact congrArg Output.mk (Array.ext' (by simp))

theorem Output.append_eq_self {o : Output} {bs : Bytes} : o.append bs = o ↔ bs = [] := by
  refine ⟨fun h => ?_, fun h => by rw [h]; simp [append]⟩
  have h := congrArg (fun o => o.bytes.toList) h
  simpa only [toList_append, List.append_right_eq_self] using h

namespace MessageCodec

open WriteSession (Owes report encode_of_ends encode_of_suspended)

variable {m : Marshaller} {msg : Message} {s s' : WriteSession} {out out' : Output} {e : Error}
  {failure : Option Error} {left : Bytes} {chunks : Nat}

/-- What a codec comes to with the chunk that ends a message. -/
def close (failure : Option Error) (left : Bytes) (s : WriteSession) (out : Output) :
    Except Error Unit × WriteSession × Output :=
  match failure with
  | none => (.ok (), s, out.append left)
  | some e => (.error e, s, out)

theorem encodeChunks_of_report
    (h : s.encode m msg m.config.encodeChunkSize = (report failure left, s')) :
    encodeChunks m msg (chunks + 1) s out = close failure left s' out := by
  rw [encodeChunks, h]
  cases failure <;> rfl

theorem encodeChunks_of_nil
    (h : s.encode m msg m.config.encodeChunkSize = (.ok ([], false), s')) :
    encodeChunks m msg (chunks + 1) s out =
      (.error (.noProgress msg.type m.config.encodeChunkSize), s'.reset, out) := by
  rw [encodeChunks, h]

theorem encodeChunks_of_cons {bs : Bytes} (hbs : bs ≠ [])
    (h : s.encode m msg m.config.encodeChunkSize = (.ok (bs, false), s')) :
    encodeChunks m msg (chunks + 1) s out = encodeChunks m msg chunks s' (out.append bs) := by
  cases bs with
  | nil => exact absurd rfl hbs
  | cons b bs => rw [encodeChunks, h]

/-- However it ends, a codec has only appended to its destination, and is ready for the next
message. -/
theorem encodeChunks_appends (m : Marshaller) (msg : Message) (chunks : Nat) (s : WriteSession)
    (out : Output) : (encodeChunks m msg chunks s out).2.1.Idle ∧
      ∃ kept, (encodeChunks m msg chunks s out).2.2 = out.append kept := by
  induction chunks generalizing s out with
  | zero => exact ⟨WriteSession.idle_reset s, [], (Output.append_eq_self.mpr rfl).symm⟩
  | succ chunks ih =>
    rcases ends_or_suspended (writeMessage m msg) ⟨s.stack, .ofCapacity m.config.encodeChunkSize⟩
      with ⟨failure, w, hp⟩ | ⟨w, hp⟩
    · rw [encodeChunks_of_report (encode_of_ends hp)]
      cases failure with
      | none => exact ⟨WriteSession.idle_reset _, _, rfl⟩
      | some e => exact ⟨WriteSession.idle_reset _, [], (Output.append_eq_self.mpr rfl).symm⟩
    · by_cases hbs : w.cursor.written.toList = []
      · rw [encodeChunks_of_nil (by rw [encode_of_suspended hp, hbs])]
        exact ⟨WriteSession.idle_reset _, [], (Output.append_eq_self.mpr rfl).symm⟩
      · rw [encodeChunks_of_cons hbs (encode_of_suspended hp)]
        obtain ⟨hidle, kept, hkept⟩ := ih ⟨w.stack, true⟩ (out.append w.cursor.written.toList)
        exact ⟨hidle, _, hkept.trans (Output.append_append _ _ _)⟩

/-- A codec that has bytes left to write of a message appends all of them if it succeeds, which it
does only if nothing fails, and some of them if it does not. -/
theorem encodeChunks_of_owes (hm : msg.Steady) (h : Owes m msg s failure left) (chunks : Nat)
    (out : Output) :
    ((encodeChunks m msg chunks s out).1 = .ok () →
        failure = none ∧ (encodeChunks m msg chunks s out).2.2 = out.append left) ∧
      ∃ kept, (encodeChunks m msg chunks s out).2.2 = out.append kept ∧ kept <+: left := by
  have hnothing : out = out.append [] := (Output.append_eq_self.mpr rfl).symm
  induction chunks generalizing s out left with
  | zero => exact ⟨nofun, [], hnothing, List.nil_prefix⟩
  | succ chunks ih =>
    rcases h.encode hm m.config.encodeChunkSize with
      ⟨stack, hrun⟩ | ⟨bs, rest, s₁, hrun, rfl, -, howes⟩
    · rw [encodeChunks_of_report hrun]
      cases failure with
      | none => exact ⟨fun _ => ⟨rfl, rfl⟩, left, rfl, List.prefix_refl _⟩
      | some e => exact ⟨nofun, [], hnothing, List.nil_prefix⟩
    · by_cases hbs : bs = []
      · subst hbs
        rw [encodeChunks_of_nil hrun]
        exact ⟨nofun, [], hnothing, List.nil_prefix⟩
      · rw [encodeChunks_of_cons hbs hrun]
        obtain ⟨hok, kept, hkept, hprefix⟩ := ih howes (out.append bs)
          (Output.append_eq_self.mpr rfl).symm
        refine ⟨fun h => ⟨(hok h).1, (hok h).2.trans (Output.append_append _ _ _)⟩, bs ++ kept,
          hkept.trans (Output.append_append _ _ _), ?_⟩
        exact (List.prefix_append_right_inj bs).mpr hprefix

/-- A codec that fails leaves its destination as it was exactly if its first chunk fails. -/
theorem encodeChunks_error (hs : s.Idle)
    (h : (encodeChunks m msg (chunks + 1) s out).1 = .error e) :
    (encodeChunks m msg (chunks + 1) s out).2.2 = out ↔
      (s.encode m msg m.config.encodeChunkSize).1 = .error e := by
  have hsize : 1 ≤ m.config.encodeChunkSize := Nat.le_trans (by decide) m.config.chunkSize_le
  rcases ends_or_suspended (writeMessage m msg) ⟨s.stack, .ofCapacity m.config.encodeChunkSize⟩
    with ⟨failure, w, hp⟩ | ⟨w, hp⟩
  · rw [encodeChunks_of_report (encode_of_ends hp)] at h ⊢
    rw [encode_of_ends hp]
    cases failure with
    | none => cases h
    | some e' =>
      cases h
      exact ⟨fun _ => rfl, fun _ => rfl⟩
  · have hbs := hs.written hsize hp
    rw [encodeChunks_of_cons hbs (encode_of_suspended hp), encode_of_suspended hp]
    obtain ⟨-, kept, hkept⟩ := encodeChunks_appends m msg chunks ⟨w.stack, true⟩
      (out.append w.cursor.written.toList)
    rw [hkept, Output.append_append, Output.append_eq_self, List.append_eq_nil_iff]
    exact ⟨fun h => absurd h.1 hbs, nofun⟩

/-- A message fails in its first chunk exactly if what comes before the error fits into it. -/
theorem encodeChunks_error_length (hs : s.Idle) (hm : msg.Plain)
    (h : (encodeChunks m msg (chunks + 1) s out).1 = .error e) :
    (s.encode m msg m.config.encodeChunkSize).1 = .error e ↔
      (m.emission msg).bytes.length ≤ m.config.encodeChunkSize := by
  constructor
  · intro hfirst
    rcases ends_or_suspended (writeMessage m msg) ⟨s.stack, .ofCapacity m.config.encodeChunkSize⟩
      with ⟨_ | e', w, hp⟩ | ⟨w, hp⟩
    · rw [encode_of_ends hp] at hfirst
      cases hfirst
    · exact hs.length_le hm hp
    · rw [encode_of_suspended hp] at hfirst
      cases hfirst
  · intro hlength
    obtain ⟨w, hp, -⟩ := hs.writeMessage hm hlength
    rw [encodeChunks_of_report (encode_of_ends hp)] at h
    rw [encode_of_ends hp]
    cases hf : (m.emission msg).failure with
    | none => rw [hf] at h; cases h
    | some e' => rw [hf] at h; cases h; rfl

theorem encode_parts {c c' : MessageCodec} {result : Except Error Unit}
    (h : c.encode m msg out = (result, c', out')) :
    let run := encodeChunks m msg ((m.emission msg).bytes.length + 1) c.writer out
    run.1 = result ∧ run.2.1 = c'.writer ∧ run.2.2 = out' := by
  cases h
  exact ⟨rfl, rfl, rfl⟩

/-- The codecs that calls lead to. -/
inductive Reached : MessageCodec → Prop
  | new : Reached .new
  | encode {c : MessageCodec} (h : Reached c) (m : Marshaller) (msg : Message) (out : Output) :
    Reached (c.encode m msg out).2.1
  | decode {c : MessageCodec} (h : Reached c) (ctx : ReadContext) (source : Bytes) :
    Reached (c.decode ctx source).2.1

theorem writer_decode (c : MessageCodec) (ctx : ReadContext) (source : Bytes) :
    (c.decode ctx source).2.1.writer = c.writer := by
  rw [decode]
  rcases c.reader.decode ctx source with ⟨_ | ⟨n, msg⟩, reader⟩ <;> rfl

theorem Reached.idle {c : MessageCodec} (h : c.Reached) : c.writer.Idle := by
  induction h with
  | new => exact WriteSession.idle_new
  | @encode c h m msg out ih =>
    exact (encodeChunks_appends m msg ((m.emission msg).bytes.length + 1) c.writer out).1
  | decode h ctx source ih => rw [writer_decode]; exact ih

/-- What a failing call leaves behind, whatever the codec has done before: the chunks before the
one that fails stay in the destination, which is as it was exactly if the first chunk fails. Where
no field makes a session wait, what is left is the beginning of the message, and nothing is left
exactly if what comes before the error fits into one chunk. -/
theorem encode_of_error {c c' : MessageCodec} (hc : c.Reached)
    (h : c.encode m msg out = (.error e, c', out')) :
    ∃ kept, out' = out.append kept ∧
      (out' = out ↔ (c.writer.encode m msg m.config.encodeChunkSize).1 = .error e) ∧
      (msg.Plain → kept <+: (m.emission msg).bytes ∧
        (out' = out ↔ (m.emission msg).bytes.length ≤ m.config.encodeChunkSize)) := by
  obtain ⟨-, kept, hkept⟩ := encodeChunks_appends m msg ((m.emission msg).bytes.length + 1)
    c.writer out
  obtain ⟨herror, -, hout⟩ := encode_parts h
  have hfirst := encodeChunks_error hc.idle herror
  rw [hout] at hkept hfirst
  refine ⟨kept, hkept, hfirst, fun hm => ⟨?_, ?_⟩⟩
  · obtain ⟨-, kept', hkept', hprefix⟩ := encodeChunks_of_owes hm.steady (hc.idle.owes (m := m) hm)
      ((m.emission msg).bytes.length + 1) out
    rw [hout, hkept] at hkept'
    have hsame : kept = kept' := by
      have hbytes := congrArg (fun o => o.bytes.toList) hkept'
      simpa only [Output.toList_append, List.append_cancel_left_eq] using hbytes
    rwa [hsame]
  · exact hfirst.trans (encodeChunks_error_length hc.idle hm herror)

/-- A value of a type that is not registered, behind a byte string that fills the first chunk: the
first chunk stays. -/
theorem encode_of_error_past_first_chunk :
    let m := Marshaller.ofConfig { encodeChunkSize := 17 } .empty
    let msg : Message := .mk 40 [.bytes (some (List.replicate 20 7)), .object (.option .value) none]
    let e : Error := .unboundType "type-erased value"
    let out : Output := ⟨#[9]⟩
    (MessageCodec.new.encode m msg out).1 = .error e ∧
      (MessageCodec.new.encode m msg out).2.2 ≠ out ∧
      ∃ kept, (MessageCodec.new.encode m msg out).2.2 = out.append kept ∧
        ((MessageCodec.new.encode m msg out).2.2 = out ↔
          (WriteSession.new.encode m msg 17).1 = .error e) ∧
        (msg.Plain → kept <+: (m.emission msg).bytes ∧
          ((MessageCodec.new.encode m msg out).2.2 = out ↔
            (m.emission msg).bytes.length ≤ 17)) := by
  intro m msg e out
  have herror : (MessageCodec.new.encode m msg out).1 = .error e := by decide +kernel
  have hrun : MessageCodec.new.encode m msg out = (.error e,
      (MessageCodec.new.encode m msg out).2.1, (MessageCodec.new.encode m msg out).2.2) := by
    rw [← herror]
  have hlength : ¬ (m.emission msg).bytes.length ≤ 17 := by decide +kernel
  obtain ⟨kept, hkept, hfirst, hplain⟩ := encode_of_error .new hrun
  have hmsg : msg.Plain := by
    refine .mk (List.forall_mem_cons.mpr ⟨⟨by simp, by simp⟩, ?_⟩) (by simp [Field.messages])
    exact List.forall_mem_singleton.mpr ⟨by simp, by simp⟩
  exact ⟨herror, fun h => hlength ((hplain hmsg).2.mp h), kept, hkept, hfirst, hplain⟩

end MessageCodec

end WireCodec
