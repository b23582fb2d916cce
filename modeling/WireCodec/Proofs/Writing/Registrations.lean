import WireCodec.Proofs.Registration.Cache
import WireCodec.Proofs.Writing.Chunks

/-!
# Registrations while a message is in flight

Between two calls that write the same message, anything may be asked of the marshaller, and types
may be registered on it. A value that is partly written by then goes on as it began: its length and
its bytes come from the registrations in force when it was first reached, and the message comes out
as its script of segments says if each value is encoded as of the offset where it begins
(`WriteSession.values_encoded_when_reached`).
-/

namespace WireCodec

namespace Marshaller

variable {m m' : Marshaller}

theorem config_install {t : HostType} {b : Binding} (h : m.install t b = .ok m') :
    m'.config = m.config := by
  obtain ⟨-, rfl⟩ := install_eq_ok.mp h
  rfl

theorem config_publish (m : Marshaller) (t : HostType) : (m.publish t).config = m.config := by
  rw [publish]
  split <;> rfl

theorem config_settle {r : Except Error Marshaller} (h : ∀ m', r = .ok m' → m'.config = m.config) :
    (m.settle r).2.config = m.config := by
  cases r with
  | ok m' => exact h m' rfl
  | error e => rfl

/-- Nothing that is asked of a marshaller changes its limits. -/
theorem config_act (m : Marshaller) (a : Action) : (m.act a).2.config = m.config := by
  cases a with
  | registerEnum name e =>
    refine config_settle fun m' h => ?_
    obtain ⟨m₁, hone, hlist⟩ := registerEnum_eq_ok h
    exact (config_install hlist).trans (config_install hone)
  | registerObject t name => exact config_settle fun m' h => config_install (registerObject_eq_ok h)
  | registerType name kind =>
    refine config_settle fun m' h => ?_
    obtain ⟨_, -, rfl⟩ := Encode.map_eq_ok.mp h
    rfl
  | tagFor t | writerFor t => exact config_publish m t
  | marshal t x =>
    simp only [act]
    split
    · rfl
    · exact config_publish m t

theorem config_afterActions (m : Marshaller) (actions : List Action) :
    (afterCalls act m actions).config = m.config :=
  List.foldlRecOn (motive := fun m' => m'.config = m.config) actions _ rfl
    fun m' h a _ => (config_act m' a).trans h

/-- The marshaller in force at an offset of what calls have written: that of the call that gets
there. Behind all of it, the last one is in force. -/
def inForce (m : Marshaller) : List (Marshaller × Bytes) → Nat → Marshaller
  | [], _ => m
  | (m', bs) :: calls, offset =>
    if offset ≤ bs.length then m' else inForce m' calls (offset - bs.length)

theorem inForce_of_le {bs : Bytes} {calls : List (Marshaller × Bytes)} {offset : Nat}
    (h : offset ≤ bs.length) : m.inForce ((m', bs) :: calls) offset = m' := if_pos h

theorem inForce_add {bs : Bytes} {calls : List (Marshaller × Bytes)} {offset : Nat}
    (h : 0 < offset) :
    m.inForce ((m', bs) :: calls) (bs.length + offset) = m'.inForce calls offset := by
  rw [inForce, if_neg (by omega), Nat.add_sub_cancel_left]

theorem inForce_last (bs : Bytes) : m.inForce [(m', bs)] = fun _ => m' := by
  funext offset
  rw [inForce, inForce, ite_self]

end Marshaller

namespace WriteSession

open Write

/-- Writes a message over calls, each of them with a buffer of its own and after what is asked of
the marshaller before it, until the message is finished or fails. Gives the marshaller and the bytes
of each call. -/
def encodeAmid (msg : Message) : List (List Marshaller.Action × Nat) → Marshaller → WriteSession →
    List (Marshaller × Bytes) × Except Error Bool × WriteSession
  | [], _, s => ([], .ok false, s)
  | (actions, capacity) :: calls, m, s =>
    let m := afterCalls Marshaller.act m actions
    match s.encode m msg capacity with
    | (.error e, s) => ([(m, [])], .error e, s)
    | (.ok (bs, true), s) => ([(m, bs)], .ok true, s)
    | (.ok (bs, false), s) =>
      let (written, r, s) := encodeAmid msg calls m s
      ((m, bs) :: written, r, s)

/-- Calls that had segments to write, which stand for all this, have written so much of it and ended
so. -/
structure Delivers (segments : List Segment) (whole : Emission) (out : Bytes)
    (result : Except Error Bool) : Prop where
  written : out <+: whole.bytes
  finished : ∀ b, result = .ok b →
    (b = true ↔ whole.failure = none ∧ whole.bytes = out ∧ Segment.waiting ∉ segments)
  failed : ∀ e, result = .error e → whole.failure = some e

/-- What a call reports that ends so, having written these bytes and left this stack. -/
def reportOf (out : Bytes) (stack : FrameStack WriteFrame) :
    Segment.Outcome → Except Error (Bytes × Bool) × WriteSession
  | .done => (.ok (out, true), reset ⟨stack, true⟩)
  | .failed e => (.error e, reset ⟨stack, true⟩)
  | .stopped _ => (.ok (out, false), ⟨stack, true⟩)

variable {config : Config} {msg : Message} {m : Marshaller} {s : WriteSession}
  {segments left : List Segment} {out out' : Bytes}
  {result : Except Error Bool} {leave : FrameStack WriteFrame → Prop}
  {follow : FrameStack WriteFrame → List Segment → Prop} {room : Nat}

/-- A call of a session that has segments to write. -/
theorem encode_of_goes {capacity : Nat}
    (h : Goes leave follow m (writeMessage m msg) ⟨s.stack, .ofCapacity capacity⟩ segments) :
    ∃ out o stack, Segment.Drives m segments capacity out o ∧
      s.encode m msg capacity = reportOf out stack o ∧ o.Leaves leave follow stack := by
  obtain ⟨out, o, stack, hdrives, hrun, hleaves⟩ := h
  have hroom : out.length ≤ capacity := hdrives.length_le
  let w : Writer := ⟨stack, (WriteCursor.ofCapacity capacity).putPartial out⟩
  refine ⟨out, o, stack, hdrives, ?_, hleaves⟩
  cases o with
  | done =>
    have hends : writeMessage m msg ⟨s.stack, .ofCapacity capacity⟩ = ends none w := hrun
    rw [encode_of_ends hends, WriteCursor.written_putPartial_ofCapacity hroom]
    rfl
  | failed e =>
    have hends : writeMessage m msg ⟨s.stack, .ofCapacity capacity⟩ = ends (some e) w := hrun
    exact encode_of_ends hends
  | stopped left =>
    rw [encode_of_suspended hrun, WriteCursor.written_putPartial_ofCapacity hroom]
    rfl

/-- The call that writes the last of some segments. -/
theorem Delivers.of_done (h : Segment.Drives m segments room out .done) :
    Delivers segments (Segment.emission m segments) out (.ok true) := by
  obtain ⟨hbytes, hfailure⟩ := h.under_eq (f := fun _ => m) (k := 0) fun _ _ => rfl
  have hout : (Segment.emission m segments).bytes = out := hbytes.trans (List.append_nil out)
  have hready : Segment.waiting ∉ segments := by
    simpa [Segment.Outcome.left] using h.waiting_mem_left
  refine ⟨hout ▸ List.prefix_rfl, fun b hb => ?_, fun e he => ?_⟩
  · cases hb
    exact ⟨fun _ => ⟨hfailure, hout, hready⟩, fun _ => rfl⟩
  · cases he

theorem Delivers.of_failed {e : Error} (h : Segment.Drives m segments room out (.failed e)) :
    Delivers segments (Segment.emission m segments) [] (.error e) := by
  have hfailure := (h.under_eq (f := fun _ => m) (k := 0) fun _ _ => rfl).2
  refine ⟨List.nil_prefix, fun b hb => ?_, fun e' he => ?_⟩
  · cases hb
  · cases he
    exact hfailure

/-- A call that leaves segments, and then the calls that write them. -/
theorem Delivers.after {f g : Nat → Marshaller}
    (h : Delivers left (Segment.under g 0 left) out' result)
    (hdrives : Segment.Drives m segments room out (.stopped left))
    (hf : ∀ i ≤ out.length, f i = m) (hg : ∀ i, 0 < i → f (out.length + i) = g i) :
    Delivers segments (Segment.under f 0 segments) (out ++ out') result := by
  obtain ⟨hbytes, hfailure⟩ := hdrives.under_eq (f := f) (k := 0) fun i hi => by
    rw [Nat.zero_add, hf i hi]
  have hrest : Segment.under f (0 + out.length) left = Segment.under g 0 left :=
    hdrives.begun.under_congr fun i hi => by rw [Nat.zero_add, Nat.zero_add, hg i hi]
  rw [Segment.Outcome.left, hrest] at hbytes hfailure
  have hwaiting : Segment.waiting ∈ left ↔ Segment.waiting ∈ segments :=
    hdrives.waiting_mem_left (by simp)
  refine ⟨?_, fun b hb => ?_, fun e he => hfailure.trans (h.failed e he)⟩
  · rw [hbytes]
    exact (List.prefix_append_right_inj out).mpr h.written
  · rw [h.finished b hb, hfailure, hbytes, hwaiting, List.append_cancel_left_eq]

/-- From a stack from which a message is written on as segments, calls write what these stand for
with the marshallers in force. -/
theorem delivers_encodeAmid (calls : List (List Marshaller.Action × Nat)) (hm : m.config = config)
    (hbegun : Segment.Begun segments)
    (h : Follows config (fun m => writeMessage m msg) leave calls.length s.stack segments) :
    let run := s.encodeAmid msg calls m
    Delivers segments (Segment.under (m.inForce run.1) 0 segments) (run.1.flatMap Prod.snd)
      run.2.1 := by
  induction calls generalizing m s segments with
  | nil =>
    refine ⟨List.nil_prefix, fun b hb => ?_, fun e he => ?_⟩
    · cases hb
      refine iff_of_false (by simp) fun h => ?_
      exact hbegun.ne_nil_bytes h.2.2 h.2.1
    · cases he
  | cons call calls ih =>
    obtain ⟨actions, capacity⟩ := call
    have hm' := (Marshaller.config_afterActions m actions).trans hm
    obtain ⟨out, o, stack, hdrives, hencode, hleaves⟩ :=
      encode_of_goes (h _ hm' (.ofCapacity capacity))
    cases o with
    | done =>
      simp only [encodeAmid, hencode, reportOf, Marshaller.inForce_last, List.flatMap_singleton]
      exact .of_done hdrives
    | failed e =>
      simp only [encodeAmid, hencode, reportOf, Marshaller.inForce_last, List.flatMap_singleton]
      exact .of_failed hdrives
    | stopped left =>
      simp only [encodeAmid, hencode, reportOf, List.flatMap_cons]
      exact (ih (s := ⟨stack, true⟩) hm' hdrives.begun hleaves).after hdrives
        (fun i hi => Marshaller.inForce_of_le hi) fun i hi => Marshaller.inForce_add hi

/-- Whatever is registered between the calls that write a message, and however much room each of
them has, they write what the segments of the message stand for if each value is encoded under the
registrations of the call that got to where it begins, its length and its bytes alike. The message
is finished exactly when all of this is written, and fails only as this does. With the same
registrations throughout, it is the emission of the message. -/
theorem values_encoded_when_reached (hs : s.Idle) (hmsg : msg.Steady) (m : Marshaller)
    (calls : List (List Marshaller.Action × Nat)) :
    let segments := msg.segments m.config
    let run := s.encodeAmid msg calls m
    let whole := Segment.under (m.inForce run.1) 0 segments
    let out := run.1.flatMap Prod.snd
    out <+: whole.bytes ∧
    (∀ finished, run.2.1 = .ok finished →
      (finished = true ↔ whole.failure = none ∧ whole.bytes = out ∧ .waiting ∉ segments)) ∧
    (∀ e, run.2.1 = .error e → whole.failure = some e) ∧
    (msg.Plain → ∀ m' : Marshaller, m'.config = m.config →
      .waiting ∉ segments ∧ Segment.under (fun _ => m') 0 segments = m'.emission msg) := by
  intro segments run whole out
  have hfollows := writes_writeMessage m.config hmsg s.stack.above s.stack
    ⟨rfl, hs.current, hs.cleared⟩ calls.length
  obtain ⟨hwritten, hfinished, hfailed⟩ :=
    delivers_encodeAmid calls rfl (msg.begun_segments m.config) hfollows
  refine ⟨hwritten, hfinished, hfailed, fun hplain m' hm' => ?_⟩
  obtain ⟨hready, hemission⟩ := hplain.standsFor m'
  rw [hm'] at hready hemission
  exact ⟨hready, hemission⟩

/-- An enum is a constant under its name when its field is first reached, in a call that has no room
for its length. It goes on so when the name has got an id, and when the enum has become an object,
which the second field of the type then is. -/
theorem values_encoded_when_reached_three_forms :
    let e : HostEnum := ⟨"Color", [("RED", 0), ("BLUE", 7)]⟩
    let color := HostType.enumeration "Color" e
    let blue : color.Val := ⟨1, by decide⟩
    let inner : Message := .mk 2 [.value (.primitive .bool true), .object color blue]
    let msg : Message := .mk 1 [.object color blue, .message (some inner)]
    let m := Marshaller.ofConfig .default .empty
    let run := new.encodeAmid msg [([.registerEnum "Color" e], 4),
      ([.registerType "Color" .enum], 10), ([.registerObject color "Shade"], 64)] m
    let whole := Segment.under (m.inForce run.1) 0 (msg.segments m.config)
    new.Idle ∧ msg.Plain ∧ run.2.1 = .ok true ∧ run.1.map Prod.snd = [[1],
        [18, 0, 0, 0, 28, 0, 0, 0, 0, 5],
        [0, 0, 0, 67, 111, 108, 111, 114, 7, 0, 0, 0, 2, 2, 0, 0, 0, 8, 1, 23, 0, 0, 0,
          103, 0, 0, 0, 0, 0, 5, 0, 0, 0, 83, 104, 97, 100, 101, 4, 0, 0, 0, 1, 0, 0, 0]] ∧
      whole.failure = none ∧ whole.bytes = run.1.flatMap Prod.snd ∧
      Segment.under (fun _ => m) 0 (msg.segments m.config) = m.emission msg := by
  intro e color blue inner msg m run whole
  have hplain (v : Field) (hv : v ∈ inner.fields ∨ v ∈ msg.fields) : v.Plain := by
    constructor
    · rintro rfl
      simp [inner, msg, Message.fields] at hv
    · rintro readings rfl
      simp [inner, msg, Message.fields] at hv
  have hinner : inner.Plain := .mk (fun v hv => hplain v (.inl hv)) (by simp [Field.messages])
  have hmsg : msg.Plain :=
    .mk (fun v hv => hplain v (.inr hv)) (by simpa [Field.messages] using hinner)
  have hrun : run.2.1 = .ok true := by decide +kernel
  obtain ⟨-, hfinished, -, hemission⟩ := values_encoded_when_reached idle_new hmsg.steady m
    [([.registerEnum "Color" e], 4), ([.registerType "Color" .enum], 10),
      ([.registerObject color "Shade"], 64)]
  obtain ⟨hfailure, hbytes, -⟩ := (hfinished true hrun).mp rfl
  exact ⟨idle_new, hmsg, hrun, by decide +kernel, hfailure, hbytes, (hemission hmsg m rfl).2⟩

end WriteSession

end WireCodec
