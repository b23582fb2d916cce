import Mathlib.Algebra.Ring.Nat
import WireCodec.Frame.Delivery
import WireCodec.Proofs.Reading.Messages

/-!
What comes of a stream of bytes does not depend on how it is cut into chunks. Draining a session
is a relation (`Drains`) between the bytes that are there and the messages that come out of them,
and draining twice, the second time with more bytes, is draining once with all of them.
-/

namespace WireCodec

open Read

/-- A session in which no message with probes is in flight. -/
structure ReadSession.Steady (s : ReadSession) : Prop where
  stack : s.stack.All ReadFrame.Steady
  current : ∀ schema, s.current = some schema → schema.Steady

namespace ReadSession

theorem steady_reset (s : ReadSession) : s.reset.Steady :=
  ⟨.reset ReadFrame.steady_default, nofun⟩

theorem steady_new : ReadSession.new.Steady := steady_reset .new

/-- What a call comes to when reading a message of a known type has ended so. -/
def deliver (schema : Schema) : EStateM.Result (Stop Error) Reader Message →
    Except Error (Nat × Option Message) × ReadSession
  | .ok msg r => (.ok (r.cursor.position, some msg), reset ⟨r.stack, none⟩)
  | .error .suspended r => (.ok (r.cursor.position, none), ⟨r.stack, some schema⟩)
  | .error (.failed e) r => (.error e, reset ⟨r.stack, none⟩)

/-- What a call comes to when bytes were consumed before it. -/
def after (n : Nat) : Except Error (Nat × Option Message) × ReadSession →
    Except Error (Nat × Option Message) × ReadSession
  | (.ok (k, msg), s) => (.ok (n + k, msg), s)
  | (.error e, s) => (.error e, s)

variable {ctx : ReadContext} {s s' : ReadSession} {bs : Bytes} {n : Nat} {msg : Message}

/-- The message of a type, as deep as the configuration lets it nest. -/
def readMessage (ctx : ReadContext) (schema : Schema) : Read Message :=
  root ctx (ctx.marshaller.config.maxNestingDepth - 1) schema

theorem resumable_readMessage (hctx : ctx.Steady) {schema : Schema} (h : schema.Steady) :
    Resumable (fun r => r.stack.above) (readMessage ctx schema) :=
  resumable_root hctx _ h

theorem decode_of_read {schema : Schema} {cursor : ReadCursor}
    (h : s.read ctx (.ofBytes bs) = s.resume ctx schema cursor) :
    s.decode ctx bs = deliver schema (readMessage ctx schema ⟨s.stack, cursor⟩) := by
  rw [decode, h, resume, ← readMessage]
  rcases readMessage ctx schema ⟨s.stack, cursor⟩ with ⟨m, r⟩ | ⟨_ | e, r⟩ <;> rfl

/-- What a call does with the bytes that are there and with any after them: it reads a message of
a known type from some place on, it refuses them, or there are none. -/
inductive Begins (ctx : ReadContext) (s : ReadSession) (bs : Bytes) : Prop
  | reads (schema : Schema) (r : Reader) (known : schema.Steady) (steady : r.Steady)
    (precedes : (ReadCursor.ofBytes bs).Precedes r.cursor)
    (passed : s.active = true ∨ 1 ≤ r.cursor.position)
    (run : ∀ more, s.decode ctx (bs ++ more) =
      deliver schema (readMessage ctx schema (r.extend 0 more)))
  | refuses (e : Error) (run : ∀ more, s.decode ctx (bs ++ more) = (.error e, s))
  | idle (empty : bs = []) (run : s.decode ctx [] = (.ok (0, none), s))

theorem begins (hctx : ctx.Steady) (hs : s.Steady) (bs : Bytes) : Begins ctx s bs := by
  cases hc : s.current with
  | some schema =>
    refine .reads schema ⟨s.stack, .ofBytes bs⟩ (hs.current schema hc) hs.stack (.refl _) (.inl ?_)
      fun more => ?_
    · rw [active, hc]
      rfl
    · refine decode_of_read ?_
      rw [read, hc]
      rfl
  | none =>
    cases bs with
    | nil =>
      refine .idle rfl ?_
      rw [decode, read, hc]
      rfl
    | cons type rest =>
      by_cases hnull : type = Message.nullType
      · refine .refuses .nullRoot fun more => ?_
        rw [decode, read, hc]
        simp only [start, ReadCursor.ofBytes, List.cons_append, if_pos hnull]
      · cases hf : ctx.factories.find? type with
        | none =>
          refine .refuses (.noFactory type) fun more => ?_
          rw [decode, read, hc]
          simp only [start, ReadCursor.ofBytes, List.cons_append, if_neg hnull, hf]
        | some schema =>
          refine .reads schema ⟨s.stack, ⟨1, rest⟩⟩ (find?_steady hctx hf) hs.stack
            ⟨[type], rfl, rfl⟩ (.inr (Nat.le_refl 1)) fun more => ?_
          refine decode_of_read ?_
          rw [read, hc]
          simp only [start, ReadCursor.ofBytes, List.cons_append, if_neg hnull, hf]
          simp [ReadCursor.advance, ReadCursor.extend]

theorem run_nil {schema : Schema} {r : Reader} (h : ∀ more, s.decode ctx (bs ++ more) =
    deliver schema (readMessage ctx schema (r.extend 0 more))) :
    s.decode ctx bs = deliver schema (readMessage ctx schema r) := by
  simpa only [List.append_nil, Reader.extend_zero_nil] using h []

theorem after_zero (x : Except Error (Nat × Option Message) × ReadSession) : after 0 x = x := by
  obtain ⟨_ | ⟨k, msg⟩, s⟩ := x
  · rfl
  · rw [after, Nat.zero_add]

/-- From a later position on, a message only consumes more. -/
theorem deliver_extend (hctx : ctx.Steady) {schema : Schema} (h : schema.Steady) {r : Reader}
    (hr : r.Steady) (n : Nat) : deliver schema (readMessage ctx schema (r.extend n [])) =
      after n (deliver schema (readMessage ctx schema r)) := by
  have hext := (resumable_readMessage hctx h).extension
  cases hread : readMessage ctx schema r with
  | ok m r' =>
    rw [(ok_extend hext hr hread).2 n []]
    simp only [deliver, after, Reader.extend, ReadCursor.extend, Nat.add_comm n]
  | error stop r' =>
    cases stop with
    | suspended =>
      rw [(suspended_extend hext hr hread).2 n]
      simp only [deliver, after, Reader.extend, ReadCursor.extend, Nat.add_comm n]
    | failed e =>
      rw [failed_extend hext hr hread n []]
      rfl

/-- A call that fails also fails with more bytes. -/
theorem decode_failed (hctx : ctx.Steady) (hs : s.Steady) {e : Error}
    (h : s.decode ctx bs = (.error e, s')) (more : Bytes) :
    s.decode ctx (bs ++ more) = (.error e, s') := by
  cases begins hctx hs bs with
  | reads schema r hschema hr hc hpassed hrun =>
    rw [run_nil hrun] at h
    rw [hrun more, ← h]
    cases hread : readMessage ctx schema r with
    | ok m r' => rw [hread] at h; cases h
    | error stop r' =>
      cases stop with
      | suspended => rw [hread] at h; cases h
      | failed e' =>
        rw [failed_extend (resumable_readMessage hctx hschema).extension hr hread 0 more]
        rfl
  | refuses e' hrun =>
    have h₀ := hrun []
    rw [List.append_nil, h] at h₀
    rw [hrun, h₀]
  | idle hempty hrun =>
    rw [hempty, hrun] at h
    cases h

/-- A call that gives a message gives it also with more bytes. -/
theorem decode_message (hctx : ctx.Steady) (hs : s.Steady)
    (h : s.decode ctx bs = (.ok (n, some msg), s')) :
    s'.Steady ∧ s'.active = false ∧ n ≤ bs.length ∧ (s.active = true ∨ 1 ≤ n) ∧
      ∀ more, s.decode ctx (bs ++ more) = (.ok (n, some msg), s') := by
  cases begins hctx hs bs with
  | reads schema r hschema hr hc hpassed hrun =>
    rw [run_nil hrun] at h
    cases hread : readMessage ctx schema r with
    | error stop r' => cases stop <;> rw [hread] at h <;> cases h
    | ok m r' =>
      have hext := (resumable_readMessage hctx hschema).extension
      obtain ⟨hr', he⟩ := ok_extend hext hr hread
      have hc' := ok_precedes hext hr hread
      have hpos : r.cursor.position ≤ r'.cursor.position := by
        obtain ⟨taken, -, hpos⟩ := hc'
        omega
      rw [hread] at h
      cases h
      refine ⟨steady_reset _, rfl, (ReadCursor.precedes_ofBytes (hc.trans hc')).1,
        hpassed.imp_right fun h => Nat.le_trans h hpos, fun more => ?_⟩
      rw [hrun more, he 0 more]
      rfl
  | refuses e hrun =>
    have h₀ := hrun []
    rw [List.append_nil, h] at h₀
    cases h₀
  | idle hempty hrun =>
    rw [hempty, hrun] at h
    cases h

/-- A call that waits for bytes: the next call goes on where it stopped. -/
theorem decode_waiting (hctx : ctx.Steady) (hs : s.Steady)
    (h : s.decode ctx bs = (.ok (n, none), s')) :
    s'.Steady ∧ n ≤ bs.length ∧
      ∀ more, s.decode ctx (bs ++ more) = after n (s'.decode ctx (bs.drop n ++ more)) := by
  cases begins hctx hs bs with
  | reads schema r hschema hr hc hpassed hrun =>
    rw [run_nil hrun] at h
    cases hread : readMessage ctx schema r with
    | ok m r' => rw [hread] at h; cases h
    | error stop r' =>
      cases stop with
      | failed e => rw [hread] at h; cases h
      | suspended =>
        have hres := resumable_readMessage hctx hschema
        obtain ⟨hr', -⟩ := suspended_extend hres.extension hr hread
        obtain ⟨hle, hrest⟩ := ReadCursor.precedes_ofBytes
          (hc.trans (suspended_precedes hres.extension hr hread))
        rw [hread] at h
        cases h
        refine ⟨⟨hr', fun s' h' => ?_⟩, hle, fun more => ?_⟩
        · cases h'
          exact hschema
        · have hmore : r'.extend 0 more =
              Reader.extend ⟨r'.stack, .ofBytes (r'.cursor.rest ++ more)⟩
                r'.cursor.position [] := by
            simp [Reader.extend, ReadCursor.extend, ReadCursor.ofBytes]
          rw [hrun more, resume_extend hres.resumption hr hread more, hmore, ← hrest,
            decode_of_read rfl]
          have hr₁ : Reader.Steady ⟨r'.stack, .ofBytes (r'.cursor.rest ++ more)⟩ := hr'
          exact deliver_extend hctx hschema hr₁ _
  | refuses e hrun =>
    have h₀ := hrun []
    rw [List.append_nil, h] at h₀
    cases h₀
  | idle hempty hrun =>
    rw [hempty, hrun] at h
    cases h
    subst hempty
    exact ⟨hs, Nat.le_refl 0, fun more => (after_zero _).symm⟩

end ReadSession

/-! ## Draining -/

/-- How draining a session ends: with an error, or with the session waiting for bytes after those
it has consumed. -/
inductive Ending where
  | failed (e : Error)
  | waiting (consumed : Nat) (s : ReadSession) (rest : Bytes)

/-- The ending when bytes were consumed before. -/
def Ending.after (n : Nat) : Ending → Ending
  | failed e => failed e
  | waiting consumed s rest => waiting (n + consumed) s rest

theorem Ending.after_after (n k : Nat) (e : Ending) : (e.after k).after n = e.after (n + k) := by
  cases e with
  | failed e => rfl
  | waiting => simp only [after, Nat.add_assoc]

/-- Calling a session until it gives no message: the messages that come out of the bytes, and how
it ends. -/
inductive Drains (ctx : ReadContext) : ReadSession → Bytes → List Message → Ending → Prop
  | failed {s s' bs e} (h : s.decode ctx bs = (.error e, s')) : Drains ctx s bs [] (.failed e)
  | waiting {s s' bs n} (h : s.decode ctx bs = (.ok (n, none), s')) :
    Drains ctx s bs [] (.waiting n s' (bs.drop n))
  | message {s s' bs n msg msgs ending} (h : s.decode ctx bs = (.ok (n, some msg), s'))
    (rest : Drains ctx s' (bs.drop n) msgs ending) :
    Drains ctx s bs (msg :: msgs) (ending.after n)

namespace Drains

variable {ctx : ReadContext} {s s' : ReadSession} {bs rest : Bytes} {msgs msgs' : List Message}
  {ending ending' : Ending} {n : Nat}

theorem nil (ctx : ReadContext) (h : s.active = false) : Drains ctx s [] [] (.waiting 0 s []) := by
  have hd : s.decode ctx [] = (.ok (0, none), s) := by
    obtain ⟨stack, _ | schema⟩ := s
    · rfl
    · cases h
  exact .waiting hd

theorem deterministic (h : Drains ctx s bs msgs ending) (h' : Drains ctx s bs msgs' ending') :
    msgs = msgs' ∧ ending = ending' := by
  induction h generalizing msgs' ending' with
  | failed h =>
    cases h' with
    | failed h' => rw [h] at h'; cases h'; exact ⟨rfl, rfl⟩
    | waiting h' => rw [h] at h'; cases h'
    | message h' => rw [h] at h'; cases h'
  | waiting h =>
    cases h' with
    | failed h' => rw [h] at h'; cases h'
    | waiting h' => rw [h] at h'; cases h'; exact ⟨rfl, rfl⟩
    | message h' => rw [h] at h'; cases h'
  | message h _ ih =>
    cases h' with
    | failed h' => rw [h] at h'; cases h'
    | waiting h' => rw [h] at h'; cases h'
    | message h' hrest' =>
      rw [h] at h'
      cases h'
      obtain ⟨rfl, rfl⟩ := ih hrest'
      exact ⟨rfl, rfl⟩

theorem steady (hctx : ctx.Steady) (hs : s.Steady) (h : Drains ctx s bs msgs (.waiting n s' rest)) :
    s'.Steady := by
  generalize hw : Ending.waiting n s' rest = ending at h
  induction h generalizing n with
  | failed => cases hw
  | waiting h => cases hw; exact (ReadSession.decode_waiting hctx hs h).1
  | @message _ _ _ _ _ _ ending h _ ih =>
    cases ending with
    | failed e => cases hw
    | waiting k t rest' =>
      cases hw
      exact ih (ReadSession.decode_message hctx hs h).1 rfl

/-- What failed fails with more bytes. -/
theorem append_failed (hctx : ctx.Steady) (hs : s.Steady) {e : Error}
    (h : Drains ctx s bs msgs (.failed e)) (more : Bytes) :
    Drains ctx s (bs ++ more) msgs (.failed e) := by
  generalize hf : Ending.failed e = ending at h ⊢
  induction h with
  | failed h => exact .failed (ReadSession.decode_failed hctx hs h more)
  | waiting => cases hf
  | @message _ _ _ _ _ _ ending h _ ih =>
    obtain ⟨hs', -, hle, -, hmore⟩ := ReadSession.decode_message hctx hs h
    cases ending with
    | waiting => cases hf
    | failed e' =>
      have hrest := ih hs' hf
      rw [← List.drop_append_of_le_length hle] at hrest
      exact .message (hmore more) hrest

/-- A session that consumed bytes and waits goes on with those that follow them. -/
theorem append_waiting (hctx : ctx.Steady) (hs : s.Steady) {more : Bytes}
    (h : s.decode ctx bs = (.ok (n, none), s'))
    (h' : Drains ctx s' (bs.drop n ++ more) msgs' ending') :
    Drains ctx s (bs ++ more) msgs' (ending'.after n) := by
  obtain ⟨-, hle, hmore⟩ := ReadSession.decode_waiting hctx hs h
  have hmore := hmore more
  have hdrop (k : Nat) : (bs.drop n ++ more).drop k = (bs ++ more).drop (n + k) := by
    rw [← List.drop_append_of_le_length hle, List.drop_drop]
  cases h' with
  | failed h' =>
    rw [h'] at hmore
    exact .failed hmore
  | waiting h' =>
    rw [h'] at hmore
    rw [hdrop]
    exact .waiting hmore
  | @message _ _ _ _ _ _ ending h' hrest =>
    rw [h'] at hmore
    rw [hdrop] at hrest
    rw [Ending.after_after]
    exact .message hmore hrest

/-- Draining, and draining again with more bytes, is draining all of them. -/
theorem append (hctx : ctx.Steady) (hs : s.Steady) {more : Bytes}
    (h : Drains ctx s bs msgs (.waiting n s' rest))
    (h' : Drains ctx s' (rest ++ more) msgs' ending') :
    Drains ctx s (bs ++ more) (msgs ++ msgs') (ending'.after n) := by
  generalize hw : Ending.waiting n s' rest = ending at h
  induction h generalizing n with
  | failed => cases hw
  | waiting h =>
    cases hw
    exact append_waiting hctx hs h h'
  | @message _ _ _ _ _ _ ending h _ ih =>
    obtain ⟨hs', -, hle, -, hmore⟩ := ReadSession.decode_message hctx hs h
    cases ending with
    | failed => cases hw
    | waiting k t rest' =>
      cases hw
      have hrest := ih hs' rfl
      rw [← List.drop_append_of_le_length hle] at hrest
      rw [← Ending.after_after]
      exact .message (hmore more) hrest

end Drains

/-! ## Feeding -/

/-- What a feed has come to after draining: more messages, and an error or what the session has
consumed and left. -/
def Feed.Reaches (f g : Feed) (msgs : List Message) : Ending → Prop
  | .failed e => g.messages = f.messages ++ msgs ∧ g.failure = some e
  | .waiting n s rest => g.messages = f.messages ++ msgs ∧ g.failure = f.failure ∧
      g.consumed.sum = f.consumed.sum + n ∧ g.session = s ∧ g.pending = rest

namespace Feed

variable {ctx : ReadContext} {f : Feed} {chunk : Bytes}

/-- What is drained later adds to what was drained before. -/
theorem Reaches.after {f g h : Feed} {msgs msgs' : List Message} {n : Nat} {s : ReadSession}
    {rest : Bytes} {ending : Ending} (hf : f.Reaches g msgs (.waiting n s rest))
    (hg : g.Reaches h msgs' ending) : f.Reaches h (msgs ++ msgs') (ending.after n) := by
  obtain ⟨hmsgs, hfailure, hconsumed, -, -⟩ := hf
  cases ending with
  | failed e =>
    obtain ⟨hmsgs', hfailure'⟩ := hg
    exact ⟨by rw [hmsgs', hmsgs, List.append_assoc], hfailure'⟩
  | waiting k t rest' =>
    obtain ⟨hmsgs', hfailure', hconsumed', hsession, hpending⟩ := hg
    refine ⟨?_, hfailure'.trans hfailure, ?_, hsession, hpending⟩
    · rw [hmsgs', hmsgs, List.append_assoc]
    · rw [hconsumed', hconsumed, Nat.add_assoc]

/-- A call that gives a message consumes a byte, unless the message was in flight, so that fewer
calls are left to make. -/
theorem fewer_calls {bs : Bytes} {active : Bool} {n calls : Nat} (hle : n ≤ bs.length)
    (hstep : active = true ∨ 1 ≤ n) (hcalls : bs.length + active.toNat ≤ calls + 1)
    (hrest : bs.drop n ≠ []) : (bs.drop n).length ≤ calls ∧ 0 < calls := by
  have hpositive : 0 < (bs.drop n).length := List.length_pos_iff.mpr hrest
  rw [List.length_drop] at hpositive ⊢
  rcases hstep with rfl | hn
  · rw [Bool.toNat_true] at hcalls
    omega
  · omega

/-- There are enough calls: each but the first consumes a byte. -/
theorem drain_drains (hctx : ctx.Steady) {calls : Nat} (hs : f.session.Steady)
    (hcalls : f.pending.length + f.session.active.toNat ≤ calls) (hpos : 0 < calls) :
    ∃ msgs ending, Drains ctx f.session f.pending msgs ending ∧
      f.Reaches (drain ctx calls f) msgs ending := by
  induction calls generalizing f with
  | zero => cases hpos
  | succ calls ih =>
    rcases hd : f.session.decode ctx f.pending with ⟨e | ⟨n, _ | m⟩, s'⟩
    · refine ⟨[], .failed e, .failed hd, ?_⟩
      simp [drain, hd, Reaches]
    · refine ⟨[], _, .waiting hd, ?_⟩
      simp [drain, hd, Reaches]
    · obtain ⟨hs', hidle, hle, hstep, -⟩ := ReadSession.decode_message hctx hs hd
      by_cases hrest : f.pending.drop n = []
      · have hend := Drains.nil ctx hidle
        rw [← hrest] at hend
        refine ⟨[m], _, .message hd hend, ?_⟩
        simp [drain, hd, Reaches, Ending.after, hrest]
      · let g : Feed := { f with
          session := s', messages := f.messages ++ [m], consumed := f.consumed ++ [n]
          pending := f.pending.drop n }
        obtain ⟨hfewer, hcalls'⟩ := fewer_calls hle hstep hcalls hrest
        have hshorter : (f.pending.drop n).length + s'.active.toNat ≤ calls := by
          rw [hidle]
          exact hfewer
        obtain ⟨msgs, ending, hdrains, hreaches⟩ := ih (f := g) hs' hshorter hcalls'
        have hrun : drain ctx (calls + 1) f = drain ctx calls g := by
          simp [drain, hd, g, hrest]
        have hfirst : f.Reaches g [m] (.waiting n s' (f.pending.drop n)) := by
          simp [Reaches, g]
        exact ⟨m :: msgs, _, .message hd hdrains, hrun ▸ hfirst.after hreaches⟩

theorem exists_drains {s : ReadSession} (hctx : ctx.Steady) (hs : s.Steady) (bs : Bytes) :
    ∃ msgs ending, Drains ctx s bs msgs ending := by
  have hactive : s.active.toNat ≤ 1 := Bool.toNat_le _
  obtain ⟨msgs, ending, hdrains, -⟩ := drain_drains (f := { start s with pending := bs }) hctx hs
    (Nat.add_le_add_left hactive _) (Nat.succ_pos _)
  exact ⟨msgs, ending, hdrains⟩

/-- What a feed has come to depends on the bytes alone: it is what draining all of them at once
comes to. -/
def Received (ctx : ReadContext) (s : ReadSession) (f : Feed) (bs : Bytes) : Prop :=
  ∃ msgs ending, Drains ctx s bs msgs ending ∧ (start s).Reaches f msgs ending

variable {s : ReadSession}

theorem Received.nothing (ctx : ReadContext) (hs : s.active = false) :
    Received ctx s (start s) [] :=
  ⟨[], _, .nil ctx hs, rfl, rfl, rfl, rfl, rfl⟩

theorem Received.append (hctx : ctx.Steady) (hs : s.Steady) {bs : Bytes} (h : Received ctx s f bs)
    (chunk : Bytes) : Received ctx s (push ctx f chunk) (bs ++ chunk) := by
  obtain ⟨msgs, ending, hdrains, hreaches⟩ := h
  cases ending with
  | failed e =>
    have hpush : push ctx f chunk = f := if_pos (by rw [hreaches.2]; rfl)
    rw [hpush]
    exact ⟨msgs, _, hdrains.append_failed hctx hs chunk, hreaches⟩
  | waiting n t rest =>
    obtain ⟨-, hfailure, -, hsession, hpending⟩ := id hreaches
    have hpush : push ctx f chunk =
        drain ctx ((f.pending ++ chunk).length + 1) { f with pending := f.pending ++ chunk } :=
      if_neg (by rw [hfailure]; nofun)
    have ht : f.session.Steady := hsession ▸ hdrains.steady hctx hs
    have hactive : f.session.active.toNat ≤ 1 := Bool.toNat_le _
    obtain ⟨msgs', ending', hdrains', hreaches'⟩ :=
      drain_drains (f := { f with pending := f.pending ++ chunk }) hctx ht
        (Nat.add_le_add_left hactive _) (Nat.succ_pos _)
    rw [hpush]
    rw [hsession, hpending] at hdrains'
    exact ⟨msgs ++ msgs', _, hdrains.append hctx hs hdrains', hreaches.after hreaches'⟩

theorem Received.appendAll (hctx : ctx.Steady) (hs : s.Steady) {bs : Bytes}
    (h : Received ctx s f bs) (chunks : List Bytes) :
    Received ctx s (pushAll ctx f chunks) (bs ++ chunks.flatten) := by
  induction chunks generalizing f bs with
  | nil => simpa [pushAll] using h
  | cons chunk chunks ih =>
    have hpush := ih (h.append hctx hs chunk)
    simpa [pushAll] using hpush

/-- Feeding in chunks comes to what draining all bytes at once comes to. -/
theorem reaches_pushAll (hctx : ctx.Steady) (hs : s.Steady) (hidle : s.active = false)
    {chunks : List Bytes} {msgs : List Message} {ending : Ending}
    (h : Drains ctx s chunks.flatten msgs ending) :
    (start s).Reaches (pushAll ctx (start s) chunks) msgs ending := by
  obtain ⟨msgs', ending', hdrains, hreaches⟩ :=
    (Received.nothing ctx hidle).appendAll hctx hs chunks
  obtain ⟨rfl, rfl⟩ := hdrains.deterministic h
  exact hreaches

theorem received_start (ctx : ReadContext) : Received ctx .new (start .new) [] := .nothing ctx rfl

theorem received_pushAll (hctx : ctx.Steady) {bs : Bytes} (h : Received ctx .new f bs)
    (chunks : List Bytes) : Received ctx .new (pushAll ctx f chunks) (bs ++ chunks.flatten) :=
  h.appendAll hctx ReadSession.steady_new chunks

/-- What comes of a stream of bytes, well formed or not, does not depend on how it is cut: the
messages, the first error, and, without an error, the number of bytes consumed, the message in
flight and the bytes left. -/
theorem pushAll_of_flatten_eq (hctx : ctx.Steady) {xs ys : List Bytes}
    (h : xs.flatten = ys.flatten) :
    let f := pushAll ctx (start .new) xs
    let g := pushAll ctx (start .new) ys
    f.messages = g.messages ∧ f.failure = g.failure ∧
      (f.failure = none →
        f.consumed.sum = g.consumed.sum ∧ f.session = g.session ∧ f.pending = g.pending) := by
  obtain ⟨msgs, ending, hf, hreaches⟩ := received_pushAll hctx (received_start ctx) xs
  obtain ⟨msgs', ending', hg, hreaches'⟩ := received_pushAll hctx (received_start ctx) ys
  rw [h] at hf
  obtain ⟨rfl, rfl⟩ := hf.deterministic hg
  cases ending with
  | failed e =>
    obtain ⟨hmsgs, hfailure⟩ := hreaches
    obtain ⟨hmsgs', hfailure'⟩ := hreaches'
    refine ⟨hmsgs.trans hmsgs'.symm, hfailure.trans hfailure'.symm, fun hnone => ?_⟩
    rw [hfailure] at hnone
    cases hnone
  | waiting n s rest =>
    obtain ⟨hmsgs, hfailure, hconsumed, hsession, hpending⟩ := hreaches
    obtain ⟨hmsgs', hfailure', hconsumed', hsession', hpending'⟩ := hreaches'
    exact ⟨hmsgs.trans hmsgs'.symm, hfailure.trans hfailure'.symm, fun _ =>
      ⟨hconsumed.trans hconsumed'.symm, hsession.trans hsession'.symm,
        hpending.trans hpending'.symm⟩⟩

/-- A message with a byte string and then an unknown type, in three chunks and in one. -/
theorem pushAll_of_bytes_then_unknown :
    let ctx : ReadContext := ⟨default, fun _ => [.bytes false], ⟨[⟨1, [.bytes false]⟩]⟩⟩
    let f := pushAll ctx (start .new) [[1, 2, 0], [0, 0, 104], [105, 7]]
    let g := pushAll ctx (start .new) [[1, 2, 0, 0, 0, 104, 105, 7]]
    (f.messages = g.messages ∧ f.failure = g.failure ∧
      (f.failure = none →
        f.consumed.sum = g.consumed.sum ∧ f.session = g.session ∧ f.pending = g.pending)) ∧
      g.failure = some (.noFactory 7) := by
  refine ⟨pushAll_of_flatten_eq ⟨fun type => ?_, fun s hs => ?_⟩ (by decide), by rfl⟩
  · simp [Schema.Steady, Catalog.schema]
  · simp_all [Schema.Steady]

end Feed

end WireCodec
