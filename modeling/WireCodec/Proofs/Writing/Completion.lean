import WireCodec.Proofs.Writing.Chunks
import WireCodec.Proofs.Writing.Failures
import WireCodec.Proofs.Writing.Progress

/-!
A codec gets to the end of every message, however small its chunks are, and appends what a session
writes into one buffer that is large enough.
-/

namespace WireCodec

/-- What an idle session reports of a message in a buffer that is large enough. -/
theorem WriteSession.Idle.report_emission {m : Marshaller} {msg : Message} {s : WriteSession}
    (hs : s.Idle) (hm : msg.Plain) {capacity : Nat}
    (h : (m.emission msg).bytes.length ≤ capacity) :
    (s.encode m msg capacity).1 = report (m.emission msg).failure (m.emission msg).bytes := by
  obtain ⟨w, hrun, hwritten⟩ := hs.writeMessage hm h
  rw [encode_of_ends hrun, hwritten]

/-- What an idle session writes to its end is the emission of the message. -/
theorem WriteSession.Idle.emission_of_encode {m : Marshaller} {msg : Message} {s : WriteSession}
    (hs : s.Idle) (hm : msg.Plain) {capacity : Nat} {bs : Bytes}
    (h : (s.encode m msg capacity).1 = .ok (bs, true)) :
    (m.emission msg).failure = none ∧ (m.emission msg).bytes = bs := by
  rcases (hs.owes (m := m) hm).encode hm.steady capacity with
    ⟨stack, hrun⟩ | ⟨out, rest, s', hrun, -⟩
  · rw [hrun] at h
    cases hfailure : (m.emission msg).failure <;> rw [hfailure] at h <;> cases h
    exact ⟨rfl, rfl⟩
  · rw [hrun] at h
    cases h

/-- Neither a value nor the nesting of messages is refused for want of progress. -/
theorem Emission.Ends.ne_noProgress {limit : Nat} {e : Error} (h : Ends limit e) (type : UInt8)
    (room : Nat) : e ≠ .noProgress type room := by
  rintro rfl
  rcases h with (h | h) | h <;> cases h

namespace MessageCodec

open WriteSession (Owes report idle_new)

/-- What appending what is left of a message comes to, for however many chunks it takes. -/
inductive Appends (m : Marshaller) (msg : Message) :
    WriteSession → Output → Except Error Unit × WriteSession × Output → Prop
  | failed {s s' out e} (h : s.encode m msg m.config.encodeChunkSize = (.error e, s')) :
    Appends m msg s out (.error e, s', out)
  | finished {s s' out bs} (h : s.encode m msg m.config.encodeChunkSize = (.ok (bs, true), s')) :
    Appends m msg s out (.ok (), s', out.append bs)
  | stalled {s s' out} (h : s.encode m msg m.config.encodeChunkSize = (.ok ([], false), s')) :
    Appends m msg s out (.error (.noProgress msg.type m.config.encodeChunkSize), s'.reset, out)
  | next {s s' out bs run} (h : s.encode m msg m.config.encodeChunkSize = (.ok (bs, false), s'))
    (hbs : bs ≠ []) (rest : Appends m msg s' (out.append bs) run) : Appends m msg s out run

variable {m : Marshaller} {msg : Message} {s s' : WriteSession} {out : Output}
  {failure : Option Error} {left : Bytes} {chunks : Nat}

theorem appends_of_report
    (h : s.encode m msg m.config.encodeChunkSize = (report failure left, s')) :
    Appends m msg s out (close failure left s' out) := by
  cases failure with
  | none => exact .finished h
  | some e => exact .failed h

/-- Every chunk but the last one takes at least one byte of what is left, so that the chunks do not
run out before the message does. -/
theorem appends_encodeChunks (hm : msg.Plain) (h : Owes m msg s failure left)
    (hchunks : left.length < chunks) (out : Output) :
    Appends m msg s out (encodeChunks m msg chunks s out) ∧
      (encodeChunks m msg chunks s out).1 = (close failure left s out).1 := by
  induction chunks generalizing s out left with
  | zero => exact absurd hchunks (Nat.not_lt_zero _)
  | succ chunks ih =>
    rcases h.encode hm.steady m.config.encodeChunkSize with
      ⟨stack, hrun⟩ | ⟨bs, rest, s₁, hrun, rfl, -, howes⟩
    · rw [encodeChunks_of_report hrun]
      exact ⟨appends_of_report hrun, by cases failure <;> rfl⟩
    · have hbs : bs ≠ [] := WriteSession.ne_nil_of_encode hm.ready (by rw [hrun])
      have hrest : rest.length < chunks := by
        have := List.length_pos_iff.mpr hbs
        rw [List.length_append] at hchunks
        omega
      rw [encodeChunks_of_cons hbs hrun]
      obtain ⟨happends, hresult⟩ := ih howes hrest (out.append bs)
      exact ⟨.next hrun hbs happends, hresult.trans (by cases failure <;> rfl)⟩

/-- A call ends as the emission of its message does. -/
theorem encode_emission {c c' : MessageCodec} {result : Except Error Unit} {out' : Output}
    (hc : c.Reached) (hm : msg.Plain) (h : c.encode m msg out = (result, c', out')) :
    Appends m msg c.writer out (result, c'.writer, out') ∧
      match (m.emission msg).failure with
      | none => result = .ok () ∧ out' = out.append (m.emission msg).bytes
      | some e => result = .error e := by
  obtain ⟨hresult, hwriter, hout⟩ := encode_parts h
  have howes := hc.idle.owes (m := m) hm
  obtain ⟨happends, hclose⟩ := appends_encodeChunks hm howes (Nat.lt_succ_self _) out
  obtain ⟨hsuccess, -⟩ := encodeChunks_of_owes hm.steady howes
    ((m.emission msg).bytes.length + 1) out
  rw [hresult, hout] at hsuccess
  have hclose := hresult.symm.trans hclose
  refine ⟨?_, ?_⟩
  · simp only [← hresult, ← hwriter, ← hout]
    exact happends
  · cases hfailure : (m.emission msg).failure with
    | none =>
      rw [hfailure] at hclose
      exact ⟨hclose, (hsuccess hclose).2⟩
    | some e =>
      rw [hfailure] at hclose
      exact hclose

/-- Appending a message chunk by chunk comes to an end, and to the same end as writing it into one
buffer that is large enough: whatever the codec has done before, it succeeds or fails as that call
does, with the same error, and never for want of progress. What it appends behind what was there is
then what that call writes. A field that is never ready would stall it, and one that tells of the
room that it finds is written differently in buffers of other sizes; a plain message has neither. -/
theorem encode_eq_whole {c : MessageCodec} (hc : c.Reached) (m : Marshaller) {msg : Message}
    (hm : msg.Plain) (out : Output) :
    let run := c.encode m msg out
    Appends m msg c.writer out (run.1, run.2.1.writer, run.2.2) ∧
      (∀ type room, run.1 ≠ .error (.noProgress type room)) ∧
      ∀ capacity, (m.emission msg).bytes.length ≤ capacity →
        let whole := (WriteSession.new.encode m msg capacity).1
        (run.1 = .ok () ↔ ∃ bs, whole = .ok (bs, true)) ∧
          (∀ bs, whole = .ok (bs, true) → run.2.2 = out.append bs) ∧
          ∀ e, run.1 = .error e ↔ whole = .error e := by
  generalize hrun : c.encode m msg out = run
  obtain ⟨result, c', out'⟩ := run
  obtain ⟨happends, hend⟩ := encode_emission hc hm hrun
  cases hfailure : (m.emission msg).failure with
  | none =>
    rw [hfailure] at hend
    obtain ⟨rfl, rfl⟩ := hend
    refine ⟨happends, nofun, fun capacity hcapacity => ?_⟩
    rw [idle_new.report_emission hm hcapacity, hfailure]
    refine ⟨⟨fun _ => ⟨_, rfl⟩, fun _ => rfl⟩, fun bs hbs => ?_, fun e => ⟨nofun, nofun⟩⟩
    cases hbs
    rfl
  | some e =>
    rw [hfailure] at hend
    obtain rfl : result = .error e := hend
    refine ⟨happends, fun type room herror => ?_, fun capacity hcapacity => ?_⟩
    · have hends := m.failsWith_emission msg e hfailure
      exact hends.ne_noProgress type room (Except.error.inj herror)
    · rw [idle_new.report_emission hm hcapacity, hfailure]
      exact ⟨⟨nofun, nofun⟩, nofun, fun e' => by simp only [report, Except.error.injEq]⟩

/-- A byte string that takes two chunks. -/
theorem encode_eq_whole_two_chunks :
    let m := Marshaller.ofConfig { encodeChunkSize := 17 } .empty
    let msg : Message := .mk 40 [.bytes (some (List.replicate 20 7))]
    let out : Output := ⟨#[9]⟩
    let whole : Bytes := 40 :: 20 :: 0 :: 0 :: 0 :: List.replicate 20 7
    (m.emission msg).bytes.length ≤ 64 ∧
      (WriteSession.new.encode m msg 64).1 = .ok (whole, true) ∧
      (MessageCodec.new.encode m msg out).1 = .ok () ∧
      (MessageCodec.new.encode m msg out).2.2 = out.append whole := by
  intro m msg out whole
  have hmsg : msg.Plain :=
    .mk (List.forall_mem_singleton.mpr ⟨by simp, by simp⟩) (by simp [Field.messages])
  have hlength : (m.emission msg).bytes.length ≤ 64 := by decide +kernel
  have hwhole : (WriteSession.new.encode m msg 64).1 = .ok (whole, true) := by decide +kernel
  obtain ⟨-, -, hequal⟩ := encode_eq_whole .new m hmsg out
  obtain ⟨hiff, hout, -⟩ := hequal 64 hlength
  exact ⟨hlength, hwhole, hiff.mpr ⟨whole, hwhole⟩, hout whole hwhole⟩

-- A field that is never ready stalls a codec.
example : (MessageCodec.new.encode default (.mk 40 [.stuck]) .empty).1 =
    .error (.noProgress 40 (default : Marshaller).config.encodeChunkSize) := by
  decide +kernel

end MessageCodec

end WireCodec
