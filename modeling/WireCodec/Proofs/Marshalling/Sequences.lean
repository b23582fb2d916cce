import Mathlib.Data.List.Forall2
import WireCodec.Proofs.Marshalling.Appending
import WireCodec.Proofs.RoundTrip.Delimited

/-!
# Calls one after the other

Whatever the calls before it did, a call that appends a value to an output appends the whole
encoding of it or leaves the output alone, and so does a call that writes into a buffer. So what is
there after any number of calls is what was there before and the encodings of the calls that
succeeded, one after the other; and as what comes back takes all of its bytes, reading goes from
each value to the next.
-/

namespace WireCodec

open Decode

namespace Marshaller

/-- A value of a host type, on the marshaller that writes it or has read it. -/
structure Transfer where
  marshaller : Marshaller
  type : HostType
  value : type.Val

namespace Transfer

/-- The bytes of a value that is written. -/
def encoding (s : Transfer) : Except Error Bytes := s.marshaller.marshal s.type s.value

/-- What a value is read for. -/
def target (r : Transfer) : Marshaller × HostType := (r.marshaller, r.type)

/-- A value that was read, with its type. -/
def result (r : Transfer) : (t : HostType) × t.Val := ⟨r.type, r.value⟩

/-- Whether a value is written into a buffer, and the buffer after that. -/
def intoBuffer (s : Transfer) (b : Buffer) : Bool × Buffer :=
  match s.marshaller.encodeInto b s.type s.value with
  | (.ok fits, b) => (fits, b)
  | (.error _, b) => (false, b)

/-- A value is read back from its own bytes. -/
structure Returns (s r : Transfer) : Prop where
  read : ∃ bs, s.encoding = .ok bs ∧ r.marshaller.unmarshal r.type bs = .ok r.value
  back : HostType.ComesBack s.type s.value r.type r.value

end Transfer

/-- The ways to append a value to an output. -/
inductive Entry : HostType → Type where
  | typed (t : HostType) : Entry t
  | erased (t : HostType) : Entry t
  | dynamic : Entry .value

/-- Appends a value in one of these ways. -/
def Entry.append (m : Marshaller) : {t : HostType} → Entry t → t.Val → Appender Unit
  | _, typed t, x => m.marshalInto t x
  | _, erased t, x => m.marshalErasedInto t x
  | _, dynamic, v => m.marshalValueInto v

/-- A call that appends a value to an output. -/
structure Call extends Transfer where
  entry : Entry type

/-- Whether a call succeeds, and the output after it. -/
def Call.onOutput (c : Call) (o : Output) : Bool × Output :=
  match c.entry.append c.marshaller c.value o with
  | .ok () o => (true, o)
  | .error _ o => (false, o)

/-- Makes calls one after the other, whatever became of those before them: those that succeeded, and
the state after all of them. -/
def run {κ σ : Type} (call : κ → σ → Bool × σ) : List κ → σ → List κ × σ
  | [], s => ([], s)
  | c :: cs, s =>
    let (succeeded, s) := call c s
    let (done, s) := run call cs s
    (if succeeded then c :: done else done, s)

/-- Reads a value of each of these types, each on the marshaller that comes with it. -/
def readEach : List (Marshaller × HostType) → Decode (List ((t : HostType) × t.Val))
  | [] => return []
  | (m, t) :: targets => do
    let x ← m.read t
    let xs ← readEach targets
    return ⟨t, x⟩ :: xs

/-! ## A single call -/

variable {m m' : Marshaller} {t : HostType} {x : t.Val} {o : Output} {b : Buffer} {bs : Bytes}
  {e : Error}

theorem exists_marshalAs_eq_error (name : String) (h : m.marshal t x = .error e) :
    ∃ e', m.marshalAs name t x = .error e' := by
  cases h' : m.marshalAs name t x with
  | error e' => exact ⟨e', rfl⟩
  | ok bs => cases h.symm.trans (marshalAs_eq_ok_iff.mp h')

theorem Entry.append_eq (m : Marshaller) (entry : Entry t) (x : t.Val) : ∃ name,
    entry.append m x = Appender.whole (m.marshalAs name t x) := by
  cases entry with
  | typed => exact ⟨_, m.appendAs_eq _ t x⟩
  | erased => exact ⟨_, m.appendAs_eq _ t x⟩
  | dynamic => exact ⟨"", m.marshalValueInto_eq x⟩

/-- An encoding is appended as a whole. -/
theorem Entry.append_of_ok (entry : Entry t) (h : m.marshal t x = .ok bs) (o : Output) :
    entry.append m x o = .ok () (o.append bs) := by
  obtain ⟨name, happend⟩ := entry.append_eq m x
  rw [happend, marshalAs_eq_ok_iff.mp h]
  rfl

/-- Where there is no encoding, nothing is appended. -/
theorem Entry.append_of_error (entry : Entry t) (h : m.marshal t x = .error e) (o : Output) :
    ∃ e', entry.append m x o = .error e' o := by
  obtain ⟨name, happend⟩ := entry.append_eq m x
  obtain ⟨e', he'⟩ := exists_marshalAs_eq_error name h
  rw [happend, he']
  exact ⟨e', rfl⟩

theorem encodeInto_of_ok (h : m.marshal t x = .ok bs) (b : Buffer) :
    m.encodeInto b t x = (.ok (b.putAll bs).1, (b.putAll bs).2) := by
  rw [encodeInto_eq, marshalErased, marshalAs_eq_ok_iff.mp h]

theorem encodeInto_of_error (h : m.marshal t x = .error e) (b : Buffer) :
    ∃ e', m.encodeInto b t x = (.error e', b) := by
  obtain ⟨e', he'⟩ := exists_marshalAs_eq_error "type-erased value" h
  exact ⟨e', by rw [encodeInto_eq, marshalErased, he']⟩

/-! ## Many calls -/

variable {κ σ : Type} {call : κ → σ → Bool × σ} {encoding : κ → Except Error Bytes}
  {content : σ → Bytes}

theorem run_of_true {c : κ} {calls : List κ} {s s' : σ} (h : call c s = (true, s')) :
    run call (c :: calls) s = (c :: (run call calls s').1, (run call calls s').2) := by
  rw [run, h]
  rfl

theorem run_of_false {c : κ} {calls : List κ} {s s' : σ} (h : call c s = (false, s')) :
    run call (c :: calls) s = run call calls s' := by
  rw [run, h]
  rfl

/-- A call puts an encoding behind the content of a state, or else leaves the state alone. -/
def Puts (encoding : κ → Except Error Bytes) (content : σ → Bytes) (call : κ → σ → Bool × σ) :
    Prop :=
  ∀ c s, call c s = (false, s) ∨ ∃ bs s', call c s = (true, s') ∧ encoding c = .ok bs ∧
    content s' = content s ++ bs

/-- After any number of calls the content is what it was, followed by the encodings of the calls
that succeeded. -/
theorem Puts.content_run (h : Puts encoding content call) (calls : List κ) (s : σ) :
    ∃ bs, Encode.each encoding (run call calls s).1 = .ok bs ∧
      content (run call calls s).2 = content s ++ bs := by
  induction calls generalizing s with
  | nil => exact ⟨[], rfl, (List.append_nil _).symm⟩
  | cons c calls ih =>
    obtain hfalse | ⟨first, s', htrue, hfirst, hcontent⟩ := h c s
    · rw [run_of_false hfalse]
      exact ih s
    · obtain ⟨bs, hbs, hrest⟩ := ih s'
      rw [run_of_true htrue]
      refine ⟨first ++ bs, ?_, ?_⟩
      · rw [Encode.each, hfirst, hbs]
        rfl
      · rw [hrest, hcontent, List.append_assoc]

theorem Call.onOutput_of_ok {c : Call} (h : c.encoding = .ok bs) (o : Output) :
    c.onOutput o = (true, o.append bs) := by
  rw [onOutput, c.entry.append_of_ok h o]

theorem Call.onOutput_of_error {c : Call} (h : c.encoding = .error e) (o : Output) :
    c.onOutput o = (false, o) := by
  obtain ⟨e', he'⟩ := c.entry.append_of_error h o
  rw [onOutput, he']

theorem puts_onOutput : Puts (fun c => c.encoding) (fun o => o.bytes.toList) Call.onOutput := by
  intro c o
  cases h : c.encoding with
  | ok bs => exact .inr ⟨bs, _, Call.onOutput_of_ok h o, h, Output.toList_append o bs⟩
  | error e => exact .inl (Call.onOutput_of_error h o)

/-- No call depends on what the output holds. -/
theorem done_onOutput (calls : List Call) (o : Output) :
    (run Call.onOutput calls o).1 = calls.filter fun c => c.encoding.isOk := by
  induction calls generalizing o with
  | nil => rfl
  | cons c calls ih =>
    cases h : c.encoding with
    | ok bs =>
      rw [run_of_true (Call.onOutput_of_ok h o), ih, List.filter_cons_of_pos (by rw [h]; rfl)]
    | error e =>
      rw [run_of_false (Call.onOutput_of_error h o), ih, List.filter_cons_of_neg (by rw [h]; nofun)]

theorem puts_intoBuffer : Puts Transfer.encoding Buffer.written Transfer.intoBuffer := by
  intro s b
  cases h : s.encoding with
  | ok bs =>
    have hinto : s.intoBuffer b = b.putAll bs := by
      rw [Transfer.intoBuffer, encodeInto_of_ok h]
    obtain ⟨-, hput⟩ | ⟨-, b', hput, hfilled⟩ := b.putAll_cases bs
    · exact .inl (hinto.trans hput)
    · exact .inr ⟨bs, b', hinto.trans hput, rfl, hfilled.written⟩
  | error e =>
    obtain ⟨e', he'⟩ := encodeInto_of_error h b
    exact .inl (by rw [Transfer.intoBuffer, he'])

/-! ## Reading from one value to the next -/

/-- Values that each come back from their own bytes are read one after the other. -/
theorem reads_readEach {sent received : List Transfer} {bs : Bytes}
    (hreached : ∀ s ∈ sent, s.marshaller.Reached)
    (hback : List.Forall₂ Transfer.Returns sent received)
    (h : Encode.each Transfer.encoding sent = .ok bs) :
    Reads (readEach (received.map Transfer.target)) bs (received.map Transfer.result) := by
  induction hback generalizing bs with
  | nil =>
    cases h
    exact .pure _
  | @cons s r sent received hs hrest ih =>
    rw [List.forall_mem_cons] at hreached
    simp only [Encode.each, Encode.bind_eq_ok, Encode.pure_eq_ok] at h
    obtain ⟨first, hfirst, rest, hbs, rfl⟩ := h
    obtain ⟨⟨own, hown, hread⟩, hcomes⟩ := hs
    cases hown.symm.trans hfirst
    exact (hreached.1.reads_of_unmarshal hfirst hread hcomes).bind
      ((ih hreached.2 hbs).bind_pure _)

/-- A call appends exactly the bytes that the value is marshalled as, or it fails and the output is
as it was, whichever way is taken and however deep in the value the failure is. A buffer takes all
of these bytes at its position, and keeps all others, or else it stays as it was. So after any calls
there is what was there before and the encodings of the calls that succeeded, one after the other.
Values that come back from their own bytes are then read one after the other, and what follows them
is left. -/
theorem marshalInto_all_or_nothing :
    (∀ {m : Marshaller} {t : HostType} (entry : Entry t) (x : t.Val) (o : Output),
      (∀ bs, m.marshal t x = .ok bs → entry.append m x o = .ok () (o.append bs)) ∧
      ∀ e, m.marshal t x = .error e → ∃ e', entry.append m x o = .error e' o) ∧
    (∀ {m : Marshaller} {t : HostType} (x : t.Val) (b : Buffer),
      (∀ bs, m.marshal t x = .ok bs →
        (bs.length ≤ b.remaining → ∃ b', m.encodeInto b t x = (.ok true, b') ∧ b.Filled bs b') ∧
        (b.remaining < bs.length → m.encodeInto b t x = (.ok false, b))) ∧
      ∀ e, m.marshal t x = .error e → ∃ e', m.encodeInto b t x = (.error e', b)) ∧
    (∀ (calls : List Call) (o : Output), ∃ bs,
      (run Call.onOutput calls o).1 = (calls.filter fun c => c.encoding.isOk) ∧
      Encode.each Transfer.encoding ((run Call.onOutput calls o).1.map Call.toTransfer) = .ok bs ∧
      (run Call.onOutput calls o).2 = o.append bs) ∧
    (∀ (sent : List Transfer) (b : Buffer), ∃ bs,
      Encode.each Transfer.encoding (run Transfer.intoBuffer sent b).1 = .ok bs ∧
      (run Transfer.intoBuffer sent b).2.written = b.written ++ bs) ∧
    ∀ {sent received : List Transfer} {bs : Bytes}, (∀ s ∈ sent, s.marshaller.Reached) →
      List.Forall₂ Transfer.Returns sent received → Encode.each Transfer.encoding sent = .ok bs →
      ∀ more, (readEach (received.map Transfer.target)).runOn (bs ++ more) =
        .ok (received.map Transfer.result, more) := by
  refine ⟨fun entry x o => ⟨fun bs h => entry.append_of_ok h o,
    fun e h => entry.append_of_error h o⟩, fun x b => ⟨fun bs h => ⟨?_, ?_⟩,
    fun e h => encodeInto_of_error h b⟩, ?_, puts_intoBuffer.content_run, ?_⟩
  · intro hfits
    obtain ⟨b', hput, hfilled⟩ := Buffer.putAll_of_le hfits
    exact ⟨b', by rw [encodeInto_of_ok h, hput], hfilled⟩
  · intro hover
    rw [encodeInto_of_ok h, Buffer.putAll_of_lt hover]
  · intro calls o
    obtain ⟨bs, hbs, hcontent⟩ := puts_onOutput.content_run calls o
    refine ⟨bs, done_onOutput calls o, by rw [Encode.each_map]; exact hbs, ?_⟩
    exact congrArg Output.mk (Array.ext' (hcontent.trans (Output.toList_append o bs).symm))
  · intro sent received bs hreached hback h more
    exact reads_readEach hreached hback h more

/-- Behind two bytes, of a text, a list whose second character takes two units, and a pair, the list
leaves nothing; what follows the pair is left. A buffer of nine bytes has room for the text behind
its first byte, but not for the pair. -/
theorem marshalInto_all_or_nothing_of_long_character :
    let m := ofConfig .default .empty
    let note : Transfer := ⟨m, .scalar .text, "hi"⟩
    let chars : Transfer := ⟨m, .list .char, ['a', '😀']⟩
    let pair : Transfer := ⟨m, .pair .value .value,
      (.int32 7, .collection .arrayList [.text "x", .null])⟩
    let calls : List Call := [⟨note, .typed _⟩, ⟨chars, .erased _⟩, ⟨pair, .erased _⟩]
    let o : Output := ⟨#[1, 2]⟩
    let b : Buffer := ⟨List.replicate 9 255, 1, by decide⟩
    let noteBytes : Bytes := [9, 2, 0, 0, 0, 104, 105]
    let pairBytes : Bytes := [26, 3, 7, 0, 0, 0, 24, 2, 0, 0, 0, 1, 9, 1, 0, 0, 0, 120, 101]
    note.encoding = .ok noteBytes ∧ pair.encoding = .ok pairBytes ∧
      (∃ e, (Entry.erased chars.type).append m chars.value o = .error e o) ∧
      (run Call.onOutput calls o).2 = o.append (noteBytes ++ pairBytes) ∧
      (∃ b', m.encodeInto b note.type note.value = (.ok true, b') ∧ b.Filled noteBytes b') ∧
      m.encodeInto b pair.type pair.value = (.ok false, b) ∧
      (∃ e, m.encodeInto b chars.type chars.value = (.error e, b)) ∧
      (readEach [note.target, pair.target]).runOn (noteBytes ++ pairBytes ++ [5]) =
        .ok ([note.result, pair.result], [5]) := by
  intro m note chars pair calls o b noteBytes pairBytes
  obtain ⟨hcall, hbuffer, hcalls, -, hread⟩ := marshalInto_all_or_nothing
  have hnote : note.encoding = .ok noteBytes :=
    (rfl : m.marshal (.scalar .text) "hi" = .ok noteBytes)
  have hpair : pair.encoding = .ok pairBytes := (rfl : m.marshal pair.type pair.value = _)
  have hchars : chars.encoding = .error (.supplementaryCharacter 0x1F600) :=
    (rfl : m.marshal (.list .char) ['a', '😀'] = _)
  have hdone : calls.filter (fun c => c.encoding.isOk) =
      [⟨note, .typed (.scalar .text)⟩, ⟨pair, .erased (.pair .value .value)⟩] := by
    simp only [calls, List.filter, hnote, hpair, hchars]
    rfl
  have hboth : Encode.each Transfer.encoding [note, pair] = .ok (noteBytes ++ pairBytes) := by
    simp only [Encode.each, hnote, hpair]
    rfl
  have hm : m.Reached := .ofConfig .default .empty
  have hback : List.Forall₂ Transfer.Returns [note, pair] [note, pair] :=
    .cons ⟨⟨_, hnote, rfl⟩, .same rfl⟩ (.cons ⟨⟨_, hpair, rfl⟩, .same rfl⟩ .nil)
  refine ⟨hnote, hpair, ?_, ?_, ?_, ?_, ?_, ?_⟩
  · exact (hcall (.erased (.list .char)) ['a', '😀'] o).2 _ hchars
  · obtain ⟨bs, hrun, hbs, hout⟩ := hcalls calls o
    rw [hrun, hdone] at hbs
    cases hbs.symm.trans hboth
    exact hout
  · exact ((hbuffer _ b).1 _ hnote).1 (by decide)
  · exact ((hbuffer _ b).1 _ hpair).2 (by decide)
  · exact (hbuffer _ b).2 _ hchars
  · exact hread (by simp [note, pair, hm]) hback hboth [5]

end Marshaller

end WireCodec
