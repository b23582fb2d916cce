import WireCodec.Proofs.Reading.Feeding
import WireCodec.Proofs.RoundTrip.Messages
import WireCodec.Proofs.Writing.Chunks

/-!
Two ends of a connection: what one codec appends for messages, another one takes apart into the
same messages, however the bytes are cut on their way. The emissions of the messages drain into the
messages (`ReadSession.Idle.drains`), and draining does not depend on the cuts.
-/

namespace WireCodec

open Read

variable {m : Marshaller} {ctx : ReadContext} {msg : Message} {msgs msgs' : List Message}

/-! ## Messages one after the other -/

/-- A message of a type that a reader knows. -/
def Message.Known (m : Marshaller) (ctx : ReadContext) (msg : Message) : Prop :=
  ∃ s, ctx.Knows none msg.type s ∧ msg.Fits m ctx s

theorem Message.Known.plain (h : msg.Known m ctx) : msg.Plain := by
  obtain ⟨s, -, hfits⟩ := h
  exact hfits.plain

/-- All bytes of messages. -/
def Marshaller.stream (m : Marshaller) (msgs : List Message) : Bytes :=
  msgs.flatMap fun msg => (m.emission msg).bytes

/-- A session that is not in the middle of a message. -/
structure ReadSession.Idle (s : ReadSession) : Prop where
  current : s.stack.current = default
  cleared : s.stack.Cleared
  inactive : s.current = none

namespace ReadSession

variable {s : ReadSession}

theorem idle_new : ReadSession.new.Idle := ⟨rfl, FrameStack.cleared_empty, rfl⟩

theorem idle_reset (s : ReadSession) : s.reset.Idle :=
  ⟨rfl, FrameStack.cleared_reset s.stack, rfl⟩

theorem Idle.active_eq (h : s.Idle) : s.active = false := by
  rw [active, h.inactive]
  rfl

/-- An idle session that finds the type byte of a known type reads a message of that type. -/
theorem Idle.decode_of_knows (hs : s.Idle) {type : UInt8} {schema : Schema}
    (h : ctx.Knows none type schema) (bs : Bytes) :
    s.decode ctx (type :: bs) = deliver schema (readMessage ctx schema ⟨s.stack, ⟨1, bs⟩⟩) := by
  obtain ⟨hnull, hknown⟩ := h
  refine decode_of_read ?_
  simp only [read, hs.inactive, start, ReadCursor.ofBytes, if_neg hnull, hknown]
  rfl

/-- An idle session takes a message from the front of its emission. -/
theorem Idle.decode (hs : s.Idle) (hconfig : m.config = ctx.marshaller.config)
    (hmsg : msg.Known m ctx) (hok : (m.emission msg).failure = none) (more : Bytes) :
    ∃ s', s'.Idle ∧ s.decode ctx ((m.emission msg).bytes ++ more) =
      (.ok ((m.emission msg).bytes.length, some msg.received), s') := by
  obtain ⟨schema, hknown, hfits⟩ := hmsg
  obtain ⟨bs, g, hbytes, htakes⟩ := takes_root _ hfits hok
  rw [hconfig] at htakes
  obtain ⟨r, hrun, hpass⟩ := htakes ⟨s.stack, ⟨1, bs ++ more⟩⟩ more hs.current hs.cleared rfl
  have hbytes : (m.emission msg).bytes = msg.type :: bs := hbytes
  refine ⟨_, idle_reset ⟨r.stack, none⟩, ?_⟩
  rw [hbytes, List.cons_append, hs.decode_of_knows hknown, readMessage, hrun, deliver,
    hpass.cursor, List.length_cons, Nat.add_comm 1]

/-- Messages that are written one after the other are drained one after the other. -/
theorem Idle.drains (hs : s.Idle) (hconfig : m.config = ctx.marshaller.config)
    (hmsgs : ∀ msg ∈ msgs, msg.Known m ctx)
    (hok : ∀ msg ∈ msgs, (m.emission msg).failure = none) :
    ∃ n s', s'.Idle ∧ Drains ctx s (m.stream msgs) (msgs.map Message.received)
      (.waiting n s' []) := by
  induction msgs generalizing s with
  | nil =>
    exact ⟨0, s, hs, .nil ctx hs.active_eq⟩
  | cons msg msgs ih =>
    obtain ⟨hmsg, hmsgs⟩ := List.forall_mem_cons.mp hmsgs
    obtain ⟨hfirst, hok⟩ := List.forall_mem_cons.mp hok
    obtain ⟨s₁, hidle, hdecode⟩ := hs.decode hconfig hmsg hfirst (m.stream msgs)
    obtain ⟨n, s', hidle', hrest⟩ := ih hidle hmsgs hok
    have hdrop : ((m.emission msg).bytes ++ m.stream msgs).drop (m.emission msg).bytes.length =
        m.stream msgs := List.drop_left
    rw [← hdrop] at hrest
    exact ⟨_, s', hidle', .message hdecode hrest⟩

end ReadSession

namespace MessageCodec

variable {c c' : MessageCodec} {out out' : Output}

/-- Appends messages one after the other, up to the first that fails. -/
def encodeAll (m : Marshaller) : List Message → MessageCodec → Output →
    Except Error Unit × MessageCodec × Output
  | [], c, out => (.ok (), c, out)
  | msg :: msgs, c, out =>
    match c.encode m msg out with
    | (.error e, c, out) => (.error e, c, out)
    | (.ok (), c, out) => encodeAll m msgs c out

/-- A codec that succeeds with a message has appended the emission of the message, which does not
fail, and is ready for the next one. -/
theorem encode_ok (hc : c.writer.Idle) (hmsg : msg.Plain)
    (h : c.encode m msg out = (.ok (), c', out')) :
    (m.emission msg).failure = none ∧ out' = out.append (m.emission msg).bytes ∧
      c'.writer.Idle := by
  obtain ⟨hok, hwriter, hout⟩ := encode_parts h
  obtain ⟨happends, -⟩ := encodeChunks_of_owes hmsg.steady (hc.owes (m := m) hmsg) _ out
  obtain ⟨hidle, -⟩ := encodeChunks_appends m msg ((m.emission msg).bytes.length + 1) c.writer out
  obtain ⟨hfailure, happended⟩ := happends hok
  exact ⟨hfailure, hout.symm.trans happended, hwriter ▸ hidle⟩

theorem encodeAll_ok (hc : c.writer.Idle) (hmsgs : ∀ msg ∈ msgs, msg.Plain)
    (h : encodeAll m msgs c out = (.ok (), c', out')) :
    (∀ msg ∈ msgs, (m.emission msg).failure = none) ∧ out' = out.append (m.stream msgs) := by
  induction msgs generalizing c out with
  | nil =>
    cases h
    exact ⟨nofun, (Output.append_eq_self.mpr rfl).symm⟩
  | cons msg msgs ih =>
    obtain ⟨hmsg, hmsgs⟩ := List.forall_mem_cons.mp hmsgs
    rw [encodeAll] at h
    split at h
    · cases h
    · next c₁ out₁ hfirst =>
      obtain ⟨hfailure, hout, hidle⟩ := encode_ok hc hmsg hfirst
      obtain ⟨hfailures, hout'⟩ := ih hidle hmsgs h
      refine ⟨List.forall_mem_cons.mpr ⟨hfailure, hfailures⟩, ?_⟩
      rw [hout', hout, Output.append_append]
      rfl

/-! ## Feeding a codec -/

/-- Calling a codec until it gives no message: the messages that it gives, and the bytes that it
leaves. -/
inductive Decodes (ctx : ReadContext) :
    MessageCodec → Bytes → List Message → MessageCodec → Bytes → Prop
  | stop {c c' source left} (h : c.decode ctx source = (.ok none, c', left)) :
    Decodes ctx c source [] c' left
  | more {c c' c'' source rest left msg msgs}
    (h : c.decode ctx source = (.ok (some msg), c', rest))
    (h' : Decodes ctx c' rest msgs c'' left) :
    Decodes ctx c source (msg :: msgs) c'' left

/-- Feeding a codec chunks, each of them appended to what it has left. -/
inductive Feeds (ctx : ReadContext) :
    MessageCodec → Bytes → List Bytes → List Message → MessageCodec → Bytes → Prop
  | nil {c left} : Feeds ctx c left [] [] c left
  | cons {c c' c'' left left' left'' chunk chunks msgs msgs'}
    (h : Decodes ctx c (left ++ chunk) msgs c' left')
    (h' : Feeds ctx c' left' chunks msgs' c'' left'') :
    Feeds ctx c left (chunk :: chunks) (msgs ++ msgs') c'' left''

variable {s s' t : ReadSession} {bs left rest : Bytes} {n k : Nat}

theorem decodes_of_drains (writer : WriteSession)
    (h : Drains ctx s bs msgs (.waiting n s' rest)) :
    Decodes ctx ⟨writer, s⟩ bs msgs ⟨writer, s'⟩ rest := by
  generalize hw : Ending.waiting n s' rest = ending at h
  induction h generalizing n with
  | failed => cases hw
  | waiting h =>
    cases hw
    exact .stop (by rw [decode, h])
  | @message _ _ _ _ _ _ ending h _ ih =>
    cases ending with
    | failed => cases hw
    | waiting k t rest' =>
      cases hw
      exact .more (by rw [decode, h]) (ih rfl)

/-- What is fed in chunks after some bytes is what all bytes drain into. -/
theorem feeds_of_drains (writer : WriteSession) (hctx : ctx.Steady) (ht : t.Steady)
    {chunks : List Bytes}
    (h : Drains ctx t bs msgs (.waiting n s left))
    (hall : Drains ctx t (bs ++ chunks.flatten) msgs' (.waiting k s' rest)) :
    ∃ later, msgs' = msgs ++ later ∧
      Feeds ctx ⟨writer, s⟩ left chunks later ⟨writer, s'⟩ rest := by
  induction chunks generalizing bs msgs n s left with
  | nil =>
    rw [List.flatten_nil, List.append_nil] at hall
    obtain ⟨hmsgs, hending⟩ := hall.deterministic h
    cases hending
    exact ⟨[], by rw [hmsgs, List.append_nil], .nil⟩
  | cons chunk chunks ih =>
    rw [List.flatten_cons, ← List.append_assoc] at hall
    obtain ⟨more, ending, hmore⟩ := Feed.exists_drains hctx (h.steady hctx ht) (left ++ chunk)
    have hnext := h.append hctx ht hmore
    cases ending with
    | failed e =>
      -- An error stays whatever follows, but draining all bytes ends without one.
      have hfails := hnext.append_failed hctx ht chunks.flatten
      cases (hall.deterministic hfails).2
    | waiting j s₁ left₁ =>
      obtain ⟨later, hlater, hfeeds⟩ := ih hnext hall
      exact ⟨more ++ later, by rw [hlater, List.append_assoc],
        .cons (decodes_of_drains writer hmore) hfeeds⟩

/-- What a codec appends for messages comes out of another codec as the same messages, in order,
however the bytes are cut: no call fails, no byte is left, and no message is left in flight. The
messages arrive with the integers of dynamic values in signed form, and with the default in each
field that is skipped, at any depth. -/
theorem feeds_of_encodeAll (hctx : ctx.Steady) (hconfig : m.config = ctx.marshaller.config)
    (hc : c.Reached) (hmsgs : ∀ msg ∈ msgs, msg.Known m ctx)
    (h : encodeAll m msgs c out = (.ok (), c', out')) {chunks : List Bytes}
    (hcut : out'.bytes.toList = out.bytes.toList ++ chunks.flatten) :
    ∃ d, Feeds ctx .new [] chunks (msgs.map Message.received) d [] ∧ d.decoding = false ∧
      ∀ msg ∈ msgs.map Message.received, msg.Renewed := by
  obtain ⟨hok, rfl⟩ := encodeAll_ok hc.idle (fun msg hmsg => (hmsgs msg hmsg).plain) h
  rw [Output.toList_append, List.append_cancel_left_eq] at hcut
  obtain ⟨n, s, hidle, hdrains⟩ := ReadSession.idle_new.drains hconfig hmsgs hok
  rw [hcut] at hdrains
  obtain ⟨later, hlater, hfeeds⟩ := feeds_of_drains .new hctx ReadSession.steady_new (.nil ctx rfl)
    hdrains
  refine ⟨⟨.new, s⟩, hlater ▸ hfeeds, ?_, fun received hreceived => ?_⟩
  · rw [decoding, ReadSession.active, hidle.inactive]
    rfl
  · obtain ⟨msg, -, rfl⟩ := List.mem_map.mp hreceived
    exact msg.renewed_received

/-- Messages of two types, with a message, a list of messages, a skipped number, a map and a dynamic
value in one of them, in two chunks: the skipped number arrives as zero and the number in the value
as a signed one. -/
theorem feeds_of_encodeAll_two_messages :
    let v : Value := .primitive (.int .w16 .unsigned) 40000
    let number (n : BitVec 32) : Field := .primitive (.int .w32 .unsigned) n
    let catalog : Catalog := fun type => if type = 2 then [.char] else
      [.bytes false, .message (some 2), .list (.message none) .refused, .skipped (number 0),
        .map .text (.primitive .bool) .kept, .value]
    let ctx : ReadContext := ⟨.ofConfig {} .empty, catalog, ⟨[catalog.schema 1, catalog.schema 2]⟩⟩
    let inner (c : Char) : Message := .mk 2 [.char c]
    let first : Message := .mk 1 [.bytes (some [7, 8]), .message (some (inner 'a')),
      .list (some [.message (inner 'b'), .message (inner 'c')]), .skipped (number 0) (number 5),
      .map (some [(.text "k", .primitive .bool true)]), .value v]
    let run := encodeAll ctx.marshaller [first, inner 'd'] .new .empty
    run.1 = .ok () ∧ first.received.fields[3]? = some (.skipped (number 0) (number 0)) ∧
      ∃ d, Feeds ctx .new [] [run.2.2.bytes.toList.take 9, run.2.2.bytes.toList.drop 9]
        [first.received, inner 'd'] d [] ∧ d.decoding = false ∧
        ∀ msg ∈ [first.received, inner 'd'], msg.Renewed := by
  intro v number catalog ctx inner first run
  have hok : run.1 = .ok () := by decide +kernel
  have hrun : run = (.ok (), run.2.1, run.2.2) := by rw [← hok]
  have hctx : ctx.Steady := by
    have hcatalog (type : UInt8) : (catalog.schema type).Steady := by
      change FieldKind.probe ∉ catalog type
      simp only [catalog]
      split <;> simp
    exact ⟨hcatalog, List.forall_mem_cons.mpr ⟨hcatalog 1, List.forall_mem_singleton.mpr
      (hcatalog 2)⟩⟩
  have hinner (c : Char) : (inner c).Fits ctx.marshaller ctx (catalog.schema 2) :=
    .mk rfl (List.forall_mem_singleton.mpr (.char c))
  have hknown : ctx.Knows none 2 (catalog.schema 2) := ⟨by decide, rfl⟩
  have hvalue : ∀ bs, ctx.marshaller.marshalValue v = .ok bs →
      bs.length ≤ ctx.limit ∧ ctx.marshaller.unmarshalValue bs = .ok v.signed := by
    have hbytes : ctx.marshaller.marshalValue v = .ok [2, 64, 156] := by decide +kernel
    intro bs hbs
    rw [hbytes] at hbs
    cases hbs
    exact ⟨by decide, rfl⟩
  have hlist : ∀ x ∈ [Item.message (inner 'b'), .message (inner 'c')],
      x.Fits ctx (Message.Fits ctx.marshaller ctx) (.message none) := by
    refine List.forall_mem_cons.mpr ⟨?_, List.forall_mem_singleton.mpr ?_⟩
    · exact .message hknown (hinner 'b')
    · exact .message hknown (hinner 'c')
  have hfirst : first.Fits ctx.marshaller ctx (catalog.schema 1) := by
    have hbytes : ∀ bs : Bytes, some [7, 8] = some bs → bs.length ≤ ctx.limit := by
      intro bs hbs
      cases hbs
      decide
    have hkey : (Item.text "k").Fits ctx (Message.Fits ctx.marshaller ctx) .text :=
      .text (by decide)
    have hmap : Field.Fits ctx.marshaller ctx (Message.Fits ctx.marshaller ctx)
        (.map .text (.primitive .bool) .kept)
        (.map (some [(.text "k", .primitive .bool true)])) :=
      .map (by decide) (List.forall_mem_singleton.mpr hkey)
        (List.forall_mem_singleton.mpr (.primitive .bool true)) (List.pairwise_singleton _ _)
    refine .mk rfl (List.forall_mem_cons.mpr ⟨.bytes nofun hbytes, ?_⟩)
    refine List.forall_mem_cons.mpr ⟨.message ⟨by decide, rfl, rfl⟩ (hinner 'a'), ?_⟩
    refine List.forall_mem_cons.mpr ⟨.list (by decide) hlist, ?_⟩
    refine List.forall_mem_cons.mpr ⟨.skipped (number 0) (number 5), ?_⟩
    exact List.forall_mem_cons.mpr ⟨hmap, List.forall_mem_singleton.mpr (.value hvalue)⟩
  have hmsgs : ∀ msg ∈ [first, inner 'd'], msg.Known ctx.marshaller ctx := by
    refine List.forall_mem_cons.mpr ⟨?_, List.forall_mem_singleton.mpr ?_⟩
    · exact ⟨_, ⟨by decide, rfl⟩, hfirst⟩
    · exact ⟨_, hknown, hinner 'd'⟩
  have hcut : run.2.2.bytes.toList = Output.empty.bytes.toList ++
      [run.2.2.bytes.toList.take 9, run.2.2.bytes.toList.drop 9].flatten := by
    rw [List.flatten_cons, List.flatten_singleton, List.take_append_drop]
    exact (List.nil_append _).symm
  exact ⟨hok, rfl, feeds_of_encodeAll hctx rfl .new hmsgs hrun hcut⟩

end MessageCodec

end WireCodec
