import WireCodec.Proofs.Writing.Registrations

/-!
# Fields over buffers

What a routine writes into a sequence of buffers (`Write.fill`) is told by its script. Routines with
one script fill all buffers alike, in whatever message they are (`Write.fill_eq`), so that a nested
message is the same bytes wherever a field, a list or a map holds it.
-/

namespace WireCodec

namespace Segment

variable {m : Marshaller} {segments : List Segment} {room : Nat} {out out' : Bytes}
  {o o' : Outcome}

/-- What is written into so much room, and how that ends, is determined by the segments. -/
theorem Drives.unique (h : Drives m segments room out o) (h' : Drives m segments room out' o') :
    out = out' ∧ o = o' := by
  induction h generalizing out' o' with
  | done =>
    cases h'
    exact ⟨rfl, rfl⟩
  | whole hroom _ ih =>
    cases h' with
    | whole _ h' =>
      obtain ⟨rfl, rfl⟩ := ih h'
      exact ⟨rfl, rfl⟩
    | wholeStopped hless => exact absurd hroom (Nat.not_le.mpr hless)
  | wholeStopped hless =>
    cases h' with
    | whole hroom _ => exact absurd hroom (Nat.not_le.mpr hless)
    | wholeStopped _ => exact ⟨rfl, rfl⟩
  | stream hroom _ ih =>
    cases h' with
    | stream _ h' =>
      obtain ⟨rfl, rfl⟩ := ih h'
      exact ⟨rfl, rfl⟩
    | streamStopped hless => exact absurd hroom (Nat.not_le.mpr hless)
  | streamStopped hless =>
    cases h' with
    | stream hroom _ => exact absurd hroom (Nat.not_le.mpr hless)
    | streamStopped _ => exact ⟨rfl, rfl⟩
  | value _ ih =>
    cases h' with
    | value h' => exact ih h'
  | failed =>
    cases h'
    exact ⟨rfl, rfl⟩
  | waiting =>
    cases h'
    exact ⟨rfl, rfl⟩

/-- What buffers hold, and how filling them ends, where a call has written this into the first one
and ended so. -/
def Outcome.fills (out : Bytes) (rest : List Bytes × Except Error Bool) :
    Outcome → List Bytes × Except Error Bool
  | done => ([out], .ok true)
  | failed e => ([out], .error e)
  | stopped _ => (out :: rest.1, rest.2)

/-- Something is still to come of segments: bytes, an error or a wait. -/
def Ahead (m : Marshaller) (segments : List Segment) : Prop :=
  ¬ ((emission m segments).failure = none ∧ (emission m segments).bytes = [] ∧
    .waiting ∉ segments)

/-- The segments of a message nested in one that may have messages nested in it to a depth of
`levels`. -/
def ofNested (config : Config) : (levels : Nat) → Message → List Segment
  | 0, _ => [.failed (.messageNesting config.maxNestingDepth)]
  | levels + 1, msg => ofMessage config levels msg

end Segment

/-- The call that reaches an error has written what stands before it. -/
theorem WriteSession.Delivers.of_reached {m : Marshaller} {segments : List Segment} {room : Nat}
    {out : Bytes} {e : Error} (h : Segment.Drives m segments room out (.failed e)) :
    Delivers segments (Segment.emission m segments) out (.error e) := by
  obtain ⟨hbytes, hfailure⟩ := h.under_eq (f := fun _ => m) (k := 0) fun _ _ => rfl
  have hout : (Segment.emission m segments).bytes = out := hbytes.trans (List.append_nil out)
  refine ⟨hout ▸ List.prefix_rfl, fun b hb => ?_, fun e' he => ?_⟩
  · cases hb
  · cases he
    exact hfailure

namespace Write

open Segment

/-- Takes a routine with buffers of these capacities one after the other, until it ends. Gives what
each buffer holds, and whether the routine is done. -/
def fill (p : Write Unit) : List Nat → FrameStack WriteFrame → List Bytes × Except Error Bool
  | [], _ => ([], .ok false)
  | capacity :: capacities, s =>
    match p ⟨s, .ofCapacity capacity⟩ with
    | .ok _ w => ([w.cursor.written.toList], .ok true)
    | .error (.failed e) w => ([w.cursor.written.toList], .error e)
    | .error .suspended w =>
      let (chunks, result) := fill p capacities w.stack
      (w.cursor.written.toList :: chunks, result)

variable {m : Marshaller} {p q : Marshaller → Write Unit} {s t : FrameStack WriteFrame}
  {leave leave' : FrameStack WriteFrame → Prop}
  {follow : FrameStack WriteFrame → List Segment → Prop} {segments : List Segment}
  {capacity : Nat} {capacities : List Nat}

theorem fill_of_goes (h : Goes leave follow m (p m) ⟨s, .ofCapacity capacity⟩ segments)
    (capacities : List Nat) :
    ∃ out o stack, Drives m segments capacity out o ∧ o.Leaves leave follow stack ∧
      fill (p m) (capacity :: capacities) s = o.fills out (fill (p m) capacities stack) := by
  obtain ⟨out, o, stack, hdrives, hrun, hleaves⟩ := h
  have hroom : out.length ≤ capacity := hdrives.length_le
  refine ⟨out, o, stack, hdrives, hleaves, ?_⟩
  rw [fill, hrun]
  cases o with
  | done | failed e | stopped left =>
    simp only [Outcome.result, Outcome.fills, WriteCursor.written_putPartial_ofCapacity hroom]

/-- Routines that go on with the same segments fill buffers alike. -/
theorem fill_eq (h : Follows m.config p leave capacities.length s segments)
    (h' : Follows m.config q leave' capacities.length t segments) :
    fill (p m) capacities s = fill (q m) capacities t := by
  induction capacities generalizing s t segments with
  | nil => rfl
  | cons capacity capacities ih =>
    obtain ⟨out, o, stack, hdrives, hleaves, hfill⟩ :=
      fill_of_goes (h m rfl (.ofCapacity capacity)) capacities
    obtain ⟨out', o', stack', hdrives', hleaves', hfill'⟩ :=
      fill_of_goes (h' m rfl (.ofCapacity capacity)) capacities
    obtain ⟨rfl, rfl⟩ := hdrives.unique hdrives'
    rw [hfill, hfill']
    cases o with
    | done | failed e => rfl
    | stopped left => rw [ih hleaves hleaves']

/-- Buffers hold what the segments stand for, up to what is left of them. -/
theorem delivers_fill (hahead : Ahead m segments)
    (h : Follows m.config p leave capacities.length s segments) :
    WriteSession.Delivers segments (emission m segments) (fill (p m) capacities s).1.flatten
      (fill (p m) capacities s).2 := by
  induction capacities generalizing s segments with
  | nil =>
    refine ⟨List.nil_prefix, fun b hb => ?_, fun e he => ?_⟩
    · cases hb
      exact iff_of_false (by simp) hahead
    · cases he
  | cons capacity capacities ih =>
    obtain ⟨out, o, stack, hdrives, hleaves, hfill⟩ :=
      fill_of_goes (h m rfl (.ofCapacity capacity)) capacities
    rw [hfill]
    cases o with
    | done =>
      rw [Outcome.fills, List.flatten_singleton]
      exact .of_done hdrives
    | failed e =>
      rw [Outcome.fills, List.flatten_singleton]
      exact .of_reached hdrives
    | stopped left =>
      rw [Outcome.fills, List.flatten_cons]
      have hnext := ih (fun h => hdrives.begun.ne_nil_bytes h.2.2 h.2.1) hleaves
      exact hnext.after hdrives (fun _ _ => rfl) fun _ _ => rfl

/-! ## Messages one level down -/

/-- Writes a message nested in one that may have messages nested in it to a depth of `levels`. -/
def below (m : Marshaller) : (levels : Nat) → Message → Write Unit
  | 0, _ => fail (.messageNesting m.config.maxNestingDepth)
  | levels + 1, msg => descend (putMessage m levels msg)

theorem putMessage_eq (m : Marshaller) (levels : Nat) (msg : Message) :
    putMessage m levels msg = putBody (below m levels) m msg := by
  cases levels <;> rfl

theorem nests_below (config : Config) (levels : Nat) {msg : Message} (h : msg.Steady) :
    Nests config (fun m => below m levels) (ofNested config levels) msg := by
  cases levels with
  | zero => exact ⟨fun _ => .of_settled (.fail _), fun f => .fail (fun m hm => by rw [hm]) f f⟩
  | succ levels =>
    refine ⟨fun m => outer_of_descend (resumable_putMessage m levels h), ?_⟩
    exact writes_descend (fun m => (resumable_putMessage m levels h).frame)
      (writes_putMessage config levels h)

/-- A message is not written before its type byte, or the error in its place, is. -/
theorem ahead_message (m : Marshaller) (levels : Nat) (x : Option Message) :
    Ahead m (ofField (ofNested m.config levels) (.message x)) := by
  rintro ⟨hfailure, hbytes, hready⟩
  cases x with
  | none =>
    rw [ofField, emission, bytes_under_whole] at hbytes
    cases hbytes
  | some msg =>
    cases levels with
    | zero => cases hfailure
    | succ levels => exact (begun_ofMessage m.config levels msg).ne_nil_bytes hready hbytes

/-- A message, or none, begins with its type byte, or that of the null message. -/
theorem head?_message {t : UInt8} {x : Option Message} (hx : ∀ msg ∈ x, msg.type = t)
    (m : Marshaller) (levels : Nat) {b : UInt8}
    (hb : b ∈ (emission m (ofField (ofNested m.config levels) (.message x))).bytes.head?) :
    b ∈ [Message.nullType, t] := by
  cases x with
  | none =>
    rw [ofField, emission, bytes_under_whole] at hb
    cases hb
    exact List.mem_cons_self
  | some msg =>
    have htype := hx msg rfl
    cases levels with
    | zero => cases hb
    | succ levels =>
      have hbody : ∃ rest, ofMessage m.config levels msg = .whole [msg.type] :: rest := by
        cases levels <;> exact ⟨_, rfl⟩
      obtain ⟨rest, hrest⟩ := hbody
      rw [ofField, ofNested, hrest, emission, bytes_under_whole] at hb
      cases hb
      rw [htype]
      exact List.mem_cons_of_mem _ List.mem_cons_self

/-- A field that holds a message, or none, is filled alike in whatever message it is, with what its
script stands for, which begins with the type byte or that of the null message. -/
theorem fill_message (m : Marshaller) (levels : Nat) {x : Option Message}
    (hx : ∀ msg ∈ x, msg.Steady) {above above' : List WriteFrame} {n n' : Nat}
    (hs : s.At above (bodyFrame n)) (ht : t.At above' (bodyFrame n')) (capacities : List Nat) :
    let segments := ofField (ofNested m.config levels) (.message x)
    let run := fill (putField (below m levels) m (.message x)) capacities
    run s = run t ∧
      WriteSession.Delivers segments (emission m segments) (run s).1.flatten (run s).2 ∧
      ∀ type, (∀ msg ∈ x, msg.type = type) →
        ∀ b ∈ (run s).1.flatten.head?, b ∈ [Message.nullType, type] := by
  intro segments run
  have hnested (msg : Message) (hmsg : msg ∈ (Field.message x).messages) : msg.Steady := by
    cases x with
    | none => cases hmsg
    | some inner => exact hx msg (List.mem_singleton.mp hmsg ▸ rfl)
  have hwrites (n : Nat) : ∃ progress, Writes m.config (bodyFrame n)
      (fun m => putField (below m levels) m (.message x)) segments ⟨n, true, progress⟩ :=
    writes_putField (fun _ h => by cases h) fun msg hmsg =>
      nests_below m.config levels (hnested msg hmsg)
  obtain ⟨progress, hrun⟩ := hwrites n
  obtain ⟨progress', hrun'⟩ := hwrites n'
  have hdelivers := delivers_fill (ahead_message m levels x)
    (hrun above s hs capacities.length)
  refine ⟨fill_eq (hrun above s hs _) (hrun' above' t ht _), hdelivers, fun type htype b hb => ?_⟩
  obtain ⟨rest, hrest⟩ := hdelivers.written
  refine head?_message htype m levels ?_
  rw [← hrest, List.head?_append, hb]
  rfl

end Write

end WireCodec
