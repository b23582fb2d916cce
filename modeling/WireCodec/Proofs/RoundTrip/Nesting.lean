import WireCodec.Proofs.RoundTrip.Connection
import WireCodec.Proofs.Writing.Completion

/-!
# How deep messages nest

Writer and reader draw the same line: a message of as many levels as are allowed is written, and
read back, and one of a level more is refused at both ends, the reader refusing it at the type byte
of the first message that is nested too deep.
-/

namespace WireCodec

open Emission

variable {m : Marshaller} {deep : Config} {msg : Message}

/-! ## Emissions under another limit -/

theorem Config.levels_add_one (config : Config) :
    config.maxNestingDepth - 1 + 1 = config.maxNestingDepth :=
  Nat.sub_add_cancel config.nestingDepth_pos

namespace Marshaller

theorem emission_eq_layered (m : Marshaller) (config : Config) (msg : Message) :
    { m with config }.emission msg =
      layered m (fun _ => failed (.messageNesting config.maxNestingDepth))
        (config.maxNestingDepth - 1) msg := by
  rw [emission, ofMessage_eq, layered_config]

section

variable (hok : ({ m with config := deep }.emission msg).failure = none) {last : Message → Emission}
  {levels : Nat}

include hok

/-- A message of no more levels than allowed is written in the same way whatever is allowed. -/
theorem layered_of_height_le (h : msg.height ≤ levels + 1) :
    layered m last levels msg = { m with config := deep }.emission msg := by
  rw [emission_eq_layered] at hok ⊢
  exact layered_eq h (height_le_of_layered (fun _ h => by cases h) hok)

/-- A message of more levels than allowed is cut off. -/
theorem layered_of_lt_height {e : Error} (h : levels + 1 < msg.height)
    (hlast : ∀ inner levels last', Cuts e (last inner) (layered m last' levels inner))
    (hfails : ∀ inner, (last inner).failure ≠ none) :
    (layered m last levels msg).failure = some e ∧
      (layered m last levels msg).bytes <+: ({ m with config := deep }.emission msg).bytes := by
  rw [emission_eq_layered] at hok ⊢
  exact Emission.layered_of_lt_height (fun inner levels => hlast inner levels _) hfails
    (fun _ h => by cases h) hok h

theorem emission_of_height_le (h : msg.height ≤ m.config.maxNestingDepth) :
    m.emission msg = { m with config := deep }.emission msg := by
  rw [m.emission_eq_layered m.config]
  exact layered_of_height_le hok (by rwa [m.config.levels_add_one])

theorem emission_of_lt_height (h : m.config.maxNestingDepth < msg.height) :
    (m.emission msg).failure = some (.messageNesting m.config.maxNestingDepth) ∧
      (m.emission msg).bytes <+: ({ m with config := deep }.emission msg).bytes := by
  rw [m.emission_eq_layered m.config]
  exact layered_of_lt_height hok (by rwa [m.config.levels_add_one])
    (fun _ _ _ => failed_cuts _ _) fun _ h => by cases h

end

end Marshaller

/-! ## Writing -/

/-- How the call ends that writes the last of a message. -/
def WriteSession.lastCall : Option Error → Except Error Bool
  | none => .ok true
  | some e => .error e

namespace WriteSession

variable {s : WriteSession} {failure : Option Error} {left : Bytes}

/-- Calls that write what is left of a message come to the end of it if there are enough of them. -/
theorem encodeOver_ends (hm : msg.Plain) (h : Owes m msg s failure left)
    (capacities : List Nat) : let result := (encodeOver m msg capacities s).2.1
    (result = .ok false ∨ result = lastCall failure) ∧
      ((∀ room ∈ capacities, maxAtomicUnit ≤ room) → left.length < capacities.length →
        result = lastCall failure) := by
  induction capacities generalizing s left with
  | nil => exact ⟨.inl rfl, fun _ hlength => absurd hlength (Nat.not_lt_zero _)⟩
  | cons capacity capacities ih =>
    rcases h.encode hm.steady capacity with
      ⟨stack, hrun⟩ | ⟨out, rest, s', hrun, rfl, -, howes⟩
    · have hresult : (encodeOver m msg (capacity :: capacities) s).2.1 = lastCall failure := by
        cases failure <;> simp only [encodeOver, hrun, report, lastCall]
      exact ⟨.inr hresult, fun _ _ => hresult⟩
    · obtain ⟨hends, hfinishes⟩ := ih howes
      have hresult : (encodeOver m msg (capacity :: capacities) s).2.1 =
          (encodeOver m msg capacities s').2.1 := by
        simp only [encodeOver, hrun]
      rw [hresult]
      refine ⟨hends, fun hroom hlength => ?_⟩
      obtain ⟨hfirst, hroom⟩ := List.forall_mem_cons.mp hroom
      have hprogress : capacity < out.length + maxAtomicUnit :=
        capacity_lt_of_encode (s := s) (m := m) hm.ready (by rw [hrun])
      refine hfinishes hroom ?_
      rw [List.length_append, List.length_cons] at hlength
      omega

/-- In one buffer and over several ones, an idle session ends as the emission of its message. -/
theorem Idle.ends (hs : s.Idle) (hm : msg.Plain) (hfailure : (m.emission msg).failure = failure)
    {n : Nat} (hlength : (m.emission msg).bytes.length ≤ n) :
    (∀ room, n ≤ room → (s.encode m msg room).1 = report failure (m.emission msg).bytes) ∧
      ∀ capacities, let result := (WriteSession.encodeOver m msg capacities s).2.1
        (result = .ok false ∨ result = lastCall failure) ∧
          ((∀ room ∈ capacities, maxAtomicUnit ≤ room) → n < capacities.length →
            result = lastCall failure) := by
  refine ⟨fun room hroom => ?_, fun capacities => ?_⟩
  · rw [hs.report_emission hm (Nat.le_trans hlength hroom), hfailure]
  · have howes := hs.owes (m := m) hm
    rw [hfailure] at howes
    obtain ⟨hends, hfinishes⟩ := encodeOver_ends hm howes capacities
    exact ⟨hends, fun hroom hmany => hfinishes hroom (Nat.lt_of_le_of_lt hlength hmany)⟩

end WriteSession

/-! ## Reading -/

namespace ReadSession

variable {ctx : ReadContext} {s : ReadSession}

/-- An idle session refuses a message of more levels than allowed. -/
theorem Idle.decode_of_lt_height (hs : s.Idle) (hconfig : m.config = ctx.marshaller.config)
    (hmsg : msg.Known m ctx) (hok : ({ m with config := deep }.emission msg).failure = none)
    (h : m.config.maxNestingDepth < msg.height) :
    ∃ s', s.decode ctx ({ m with config := deep }.emission msg).bytes =
      (.error (.messageNesting m.config.maxNestingDepth), s') := by
  -- The reader fails at the type byte where the message is cut off, and does not look behind it.
  obtain ⟨schema, hknown, hfits⟩ := hmsg
  obtain ⟨e, g, hlayered, hundoes⟩ := Read.undoes_root (m.config.maxNestingDepth - 1) hfits
  rw [← hconfig] at hlayered hundoes
  obtain ⟨hfailure, more, hbytes⟩ := Marshaller.layered_of_lt_height hok
    (by rwa [m.config.levels_add_one]) (fun inner levels _ => cutOff_cuts _ inner levels)
    fun _ h => by cases h
  rw [hlayered] at hfailure hbytes
  rw [failure_andThen rfl] at hfailure
  rw [bytes_andThen rfl, bytes_whole] at hbytes
  obtain ⟨r, hrun⟩ := hundoes.refuses hfailure ⟨s.stack, ⟨1, e.bytes ++ more⟩⟩ more hs.current
    hs.cleared rfl
  refine ⟨reset ⟨r.stack, none⟩, ?_⟩
  rw [← hbytes, List.append_assoc, List.singleton_append, hs.decode_of_knows hknown, readMessage,
    ← hconfig, hrun, deliver]

/-- What comes of a message that is fed to an idle session. -/
theorem Idle.feed_of_height_le (hs : s.Idle) (hsteady : s.Steady) (hctx : ctx.Steady)
    (hconfig : m.config = ctx.marshaller.config) (hmsg : msg.Known m ctx)
    (hok : (m.emission msg).failure = none) {chunks : List Bytes}
    (hchunks : chunks.flatten = (m.emission msg).bytes) :
    let f := Feed.pushAll ctx (.start s) chunks
    f.messages = [msg.received] ∧ f.failure = none ∧ f.pending = [] ∧ f.session.active = false := by
  obtain ⟨n, s', hidle, hdrains⟩ := hs.drains hconfig (List.forall_mem_singleton.mpr hmsg)
    (List.forall_mem_singleton.mpr hok)
  rw [Marshaller.stream, List.flatMap_singleton, ← hchunks] at hdrains
  obtain ⟨hmsgs, hfailure, -, hsession, hpending⟩ :=
    Feed.reaches_pushAll hctx hsteady hs.active_eq hdrains
  exact ⟨hmsgs, hfailure, hpending, hsession ▸ hidle.active_eq⟩

theorem Idle.feed_of_lt_height (hs : s.Idle) (hsteady : s.Steady) (hctx : ctx.Steady)
    (hconfig : m.config = ctx.marshaller.config) (hmsg : msg.Known m ctx)
    (hok : ({ m with config := deep }.emission msg).failure = none) {chunks : List Bytes}
    (hchunks : chunks.flatten = ({ m with config := deep }.emission msg).bytes)
    (h : m.config.maxNestingDepth < msg.height) :
    let f := Feed.pushAll ctx (.start s) chunks
    f.messages = [] ∧ f.failure = some (.messageNesting m.config.maxNestingDepth) := by
  obtain ⟨s', hdecode⟩ := hs.decode_of_lt_height hconfig hmsg hok h
  rw [← hchunks] at hdecode
  exact Feed.reaches_pushAll hctx hsteady hs.active_eq (.failed hdecode)

end ReadSession

/-- Writer and reader agree on how deep messages nest. A message that can be written where more is
allowed, with these bytes, is written as the same bytes where as many levels are allowed as it has,
and fails for its nesting where fewer are: in one buffer, and over buffers of any sizes, unless
these end before the message does. A reader that knows the types of the message takes it from these
bytes where as many levels are allowed, and fails for the nesting where fewer are, however the bytes
are cut. So does every session between messages, whatever was made of it before. The message arrives
with the integers of dynamic values in signed form. A field that is never ready would keep both
waiting, and one that tells of the room that it finds has no bytes of its own; a plain message has
neither. -/
theorem nesting_limit {capacity : Nat} {whole : Bytes} (hmsg : msg.Plain)
    (h : (WriteSession.new.encode { m with config := deep } msg capacity).1 = .ok (whole, true)) :
    let limit := m.config.maxNestingDepth
    (∀ s : WriteSession,
      (∀ room, whole.length ≤ room → (s.reset.encode m msg room).1 =
        if msg.height ≤ limit then .ok (whole, true) else .error (.messageNesting limit)) ∧
      ∀ capacities, let result := (WriteSession.encodeOver m msg capacities s.reset).2.1
        let ending := if msg.height ≤ limit then .ok true else .error (.messageNesting limit)
        (result = .ok false ∨ result = ending) ∧
          ((∀ room ∈ capacities, maxAtomicUnit ≤ room) → whole.length < capacities.length →
            result = ending)) ∧
    ∀ ctx : ReadContext, ctx.Steady → m.config = ctx.marshaller.config → msg.Known m ctx →
      ∀ (s : ReadSession) (chunks : List Bytes), chunks.flatten = whole →
        let f := Feed.pushAll ctx (.start s.reset) chunks
        if msg.height ≤ limit then f.messages = [msg.received] ∧ f.failure = none ∧
          f.pending = [] ∧ f.session.active = false
        else f.messages = [] ∧ f.failure = some (.messageNesting limit) := by
  intro limit
  obtain ⟨hok, rfl⟩ := WriteSession.idle_new.emission_of_encode hmsg h
  by_cases hheight : msg.height ≤ limit
  · have hsame := Marshaller.emission_of_height_le hok hheight
    rw [← hsame] at hok ⊢
    simp only [if_pos hheight]
    refine ⟨fun s => (WriteSession.idle_reset s).ends hmsg hok (Nat.le_refl _), ?_⟩
    intro ctx hctx hconfig hknown s chunks hchunks
    have hsteady := ReadSession.steady_reset s
    exact (ReadSession.idle_reset s).feed_of_height_le hsteady hctx hconfig hknown hok hchunks
  · have hdeep := Nat.lt_of_not_le hheight
    obtain ⟨hfailure, hprefix⟩ := Marshaller.emission_of_lt_height hok hdeep
    simp only [if_neg hheight]
    refine ⟨fun s => (WriteSession.idle_reset s).ends hmsg hfailure hprefix.length_le, ?_⟩
    intro ctx hctx hconfig hknown s chunks hchunks
    have hsteady := ReadSession.steady_reset s
    exact (ReadSession.idle_reset s).feed_of_lt_height hsteady hctx hconfig hknown hok hchunks hdeep

/-- A message in a map in a message in a message, where three and where two levels are allowed. -/
theorem nesting_limit_three_levels :
    let catalog : Catalog := fun type => if type = 40 then [.message (some 41)]
      else if type = 41 then [.map .text (.message none) .kept] else [.bytes false]
    let ctx (config : Config) : ReadContext :=
      ⟨.ofConfig config .empty, catalog, ⟨[catalog.schema 40, catalog.schema 42]⟩⟩
    let three : Config := { maxNestingDepth := 3 }
    let two : Config := { maxNestingDepth := 2 }
    let innermost : Message := .mk 42 [.bytes (some [7])]
    let inner : Message := .mk 41 [.map (some [(.text "k", .message innermost)])]
    let msg : Message := .mk 40 [.message (some inner)]
    let whole : Bytes := [40, 41, 1, 0, 0, 0, 1, 0, 0, 0, 107, 42, 1, 0, 0, 0, 7]
    let chunks := [whole.take 3, whole.drop 3]
    (WriteSession.new.encode (ctx {}).marshaller msg 64).1 = .ok (whole, true) ∧
      (WriteSession.new.encode (ctx three).marshaller msg 64).1 = .ok (whole, true) ∧
      (Feed.pushAll (ctx three) (.start .new) chunks).messages = [msg] ∧
      (WriteSession.new.encode (ctx two).marshaller msg 64).1 = .error (.messageNesting 2) ∧
      (Feed.pushAll (ctx two) (.start .new) chunks).messages = [] ∧
      (Feed.pushAll (ctx two) (.start .new) chunks).failure = some (.messageNesting 2) := by
  intro catalog ctx three two innermost inner msg whole chunks
  have hwhole : (WriteSession.new.encode (ctx {}).marshaller msg 64).1 = .ok (whole, true) := by
    decide +kernel
  have hctx (config : Config) : (ctx config).Steady := by
    have hcatalog (type : UInt8) : (catalog.schema type).Steady := by
      change FieldKind.probe ∉ catalog type
      simp only [catalog]
      split
      · simp
      · split <;> simp
    exact ⟨hcatalog, List.forall_mem_cons.mpr ⟨hcatalog 40, List.forall_mem_singleton.mpr
      (hcatalog 42)⟩⟩
  have hknown (config : Config) : msg.Known (ctx config).marshaller (ctx config) := by
    have hinnermost : innermost.Fits (ctx config).marshaller (ctx config) (catalog.schema 42) := by
      refine .mk rfl (List.forall_mem_singleton.mpr (.bytes nofun ?_))
      rintro _ ⟨⟩
      exact config.arrayLength_pos
    have hinner : inner.Fits (ctx config).marshaller (ctx config) (catalog.schema 41) := by
      refine .mk rfl (List.forall_mem_singleton.mpr (.map config.arrayLength_pos ?_ ?_
        (List.pairwise_singleton _ _)))
      · exact List.forall_mem_singleton.mpr (.text config.arrayLength_pos)
      · exact List.forall_mem_singleton.mpr (.message ⟨by decide, rfl⟩ hinnermost)
    refine ⟨catalog.schema 40, ⟨by decide, rfl⟩, .mk rfl (List.forall_mem_singleton.mpr ?_)⟩
    exact .message ⟨by decide, rfl, rfl⟩ hinner
  have hmsg := (hknown three).plain
  have hchunks : chunks.flatten = whole := by decide
  obtain ⟨hwrite, hread⟩ := nesting_limit (m := (ctx three).marshaller) hmsg hwhole
  obtain ⟨hwrite', hread'⟩ := nesting_limit (m := (ctx two).marshaller) hmsg hwhole
  have hthree := hread (ctx three) (hctx three) rfl (hknown three) .new chunks hchunks
  have htwo := hread' (ctx two) (hctx two) rfl (hknown two) .new chunks hchunks
  exact ⟨hwhole, (hwrite .new).1 64 (by decide), hthree.1, (hwrite' .new).1 64 (by decide), htwo.1,
    htwo.2⟩

end WireCodec
