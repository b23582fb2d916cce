import WireCodec.Proofs.Reading.Feeding
import WireCodec.Proofs.Sessions
import WireCodec.Proofs.Writing.Progress

/-!
# Waiting for one unit

A reader stops only where not all of the next unit is there. So a call that gives no message leaves
less of its bytes than the largest unit takes, and no more than that is ever held back between
calls. It is the same with the room that a writer leaves. Fields that are never ready are left out.
-/

namespace WireCodec

/-- A type of messages whose fields can all be read once their bytes are there. -/
def Schema.Ready (s : Schema) : Prop := FieldKind.stuck ∉ s.fields

/-- Every type of messages that a reader can meet is ready. -/
def ReadContext.Ready (ctx : ReadContext) : Prop := ∀ s, ctx.Declared s → s.Ready

/-- A frame in which no message is set aside that is not ready. -/
def ReadFrame.Ready (f : ReadFrame) : Prop := ∀ s, f.progress.parked = some (.message s) → s.Ready

theorem ReadFrame.ready_default : (default : ReadFrame).Ready := nofun

/-- All messages that a reader has set aside are ready. -/
def Reader.Ready (r : Reader) : Prop := r.stack.All ReadFrame.Ready

/-- A reader passes over bytes, and what it has set aside then is ready. -/
structure Reader.LeadsTo (r r' : Reader) : Prop where
  ready : r'.Ready
  precedes : r.cursor.Precedes r'.cursor

theorem Reader.LeadsTo.refl {r : Reader} (h : r.Ready) : r.LeadsTo r := ⟨h, .refl r.cursor⟩

theorem Reader.LeadsTo.trans {r r' r'' : Reader} (h : r.LeadsTo r') (h' : r'.LeadsTo r'') :
    r.LeadsTo r'' :=
  ⟨h'.ready, h.precedes.trans h'.precedes⟩

theorem Reader.LeadsTo.modify {r r' : Reader} {g : ReadFrame → ReadFrame} (h : r.LeadsTo r')
    (hg : r'.stack.current.Ready → (g r'.stack.current).Ready) :
    r.LeadsTo { r' with stack := r'.stack.modify g } :=
  ⟨h.ready.modify hg, h.precedes⟩

namespace Read

open Step

variable {α β : Type} {ctx : ReadContext} {nested : Schema → Read Message}

/-- A reader has passed over bytes; and if it has stopped, fewer are left than the largest unit
takes. -/
def Consumed (r : Reader) : EStateM.Result (Stop Error) Reader α → Prop
  | .ok _ r' => r.LeadsTo r'
  | .error .suspended r' => r.LeadsTo r' ∧ r'.cursor.remaining < maxAtomicUnit
  | .error (.failed _) _ => True

/-- Where a routine stops, fewer bytes are left than the largest unit takes. -/
def Consumes (p : Read α) : Prop := ∀ r : Reader, r.Ready → Consumed r (p r)

theorem Consumed.after {r r' : Reader} {x : EStateM.Result (Stop Error) Reader α}
    (h : r.LeadsTo r') (hx : Consumed r' x) : Consumed r x := by
  rcases x with ⟨x, r''⟩ | ⟨_ | e, r''⟩
  · exact h.trans hx
  · exact ⟨h.trans hx.1, hx.2⟩
  · trivial

namespace Consumes

variable {p : Read α}

theorem pure (x : α) : Consumes (Pure.pure x : Read α) := fun _ hr => .refl hr

theorem fail (e : Error) : Consumes (Read.fail e : Read α) := fun _ _ => trivial

theorem bind {q : α → Read β} (hp : Consumes p) (hq : ∀ x, Consumes (q x)) :
    Consumes (p >>= q) := by
  intro r hr
  have h := hp r hr
  rw [bind_apply]
  rcases hrun : p r with ⟨x, r'⟩ | ⟨_ | e, r'⟩ <;> rw [hrun] at h
  · exact .after h (hq x r' h.ready)
  · exact h
  · trivial

theorem get {q : Reader → Read β} (hq : ∀ r, Consumes (q r)) :
    Consumes (MonadState.get >>= q) :=
  fun r hr => hq r r hr

theorem modifyFrame {g : ReadFrame → ReadFrame} (hg : ∀ f, f.Ready → (g f).Ready) :
    Consumes (Read.modifyFrame g) :=
  fun r hr => (Reader.LeadsTo.refl hr).modify (hg r.stack.current)

/-- A unit is taken as soon as all of it is there. -/
theorem take {n : Nat} (h : n ≤ maxAtomicUnit) : Consumes (advance (·.takeExact? n)) := by
  intro r hr
  rw [advance_apply]
  cases htake : r.cursor.takeExact? n with
  | some y => exact ⟨hr, ReadCursor.takeExact?_precedes htake⟩
  | none => exact ⟨.refl hr, Nat.lt_of_lt_of_le (ReadCursor.takeExact?_eq_none_iff.mp htake) h⟩

theorem sequential : Sequential Consumes where
  pure := .pure
  fail _ := .fail _
  bind := .bind
  take := .take

end Consumes

/-! ## Fields -/

/-- A byte string that is not all there leaves nothing. -/
theorem consumes_gather : Consumes gather := by
  intro r hr
  have hgathered : r.LeadsTo (r.gathered r.missing) :=
    ⟨⟨hr.above, hr.current, hr.below⟩, ReadCursor.takePartial_precedes r.cursor r.missing⟩
  rw [gather_apply]
  split
  case isTrue hshort =>
    refine ⟨hgathered, ?_⟩
    change (r.cursor.rest.drop r.missing).length < maxAtomicUnit
    rw [List.length_drop, Nat.sub_eq_zero_of_le (Nat.le_of_lt hshort)]
    decide
  case isFalse => exact ⟨⟨hr.above, hr.current, hr.below⟩, hgathered.precedes⟩

theorem consumes_bytes (limit : Nat) : Consumes (bytes limit) := by
  intro r hr
  cases hhead : r.stack.current.progress.headDone with
  | true =>
    rw [bytes_of_headDone limit hhead]
    exact consumes_gather r hr
  | false =>
    rw [bytes_of_not_headDone limit (by rw [hhead]; decide)]
    refine Consumes.bind (Consumes.sequential.length limit) ?_ r hr
    rintro (_ | n)
    · exact .pure none
    · intro r hr
      have hheaded : r.LeadsTo (r.headed n) := ⟨⟨hr.above, hr.current, hr.below⟩, .refl r.cursor⟩
      exact .after hheaded (consumes_gather (r.headed n) hheaded.ready)

theorem consumes_nullableUuid : Consumes nullableUuid := by
  intro r hr
  have hunit : Consumes (do
      let unit ← advance (·.takeExact? maxAtomicUnit)
      return some (Layout.ofUuid (unit.drop 1))) :=
    .bind (.take (Nat.le_refl maxAtomicUnit)) fun _ => .pure _
  rw [nullableUuid_apply]
  split
  · next hempty =>
    refine ⟨.refl hr, ?_⟩
    rw [ReadCursor.remaining, hempty]
    decide
  · next marker rest hrest =>
    split
    · exact ⟨hr, [marker], by simp [hrest, ReadCursor.advance], by simp [hrest, ReadCursor.advance]⟩
    · split
      · exact hunit r hr
      · trivial

theorem consumes_takeParked {q : Option Parked → Read α} (hnone : Consumes (q none))
    (hnode : ∀ u, Consumes (q (some (.node u))))
    (hmessage : ∀ s, s.Ready → Consumes (q (some (.message s)))) : Consumes (takeParked >>= q) := by
  intro r hr
  have hunpark : r.LeadsTo r.unpark := .modify (.refl hr) fun _ => nofun
  rw [takeParked_bind]
  refine .after hunpark ?_
  cases hparked : r.stack.current.progress.parked with
  | none => exact hnone _ hunpark.ready
  | some parked =>
    cases parked with
    | node u => exact hnode u _ hunpark.ready
    | message s => exact hmessage s (hr.current s hparked) _ hunpark.ready

theorem consumes_counter (u : Uuid) : Consumes (counter u) := by
  intro r hr
  have hsize : (Primitive.int .w64 .signed).size ≤ maxAtomicUnit := Primitive.size_le _
  have hpark : r.LeadsTo (r.park (.node u)) :=
    .modify (.refl hr) fun _ _ hparked => by cases hparked
  rw [counter_apply]
  cases htake : r.cursor.take? (.int .w64 .signed) with
  | some y => exact ⟨hr, ReadCursor.take?_precedes htake⟩
  | none =>
    rw [ReadCursor.take?, Option.map_eq_none_iff] at htake
    exact ⟨hpark, Nat.lt_of_lt_of_le (ReadCursor.takeExact?_eq_none_iff.mp htake) hsize⟩

theorem compositional_consumes : Compositional Schema.Ready Consumes where
  toSequential := Consumes.sequential
  progress hq r hr := hq r.stack.current.progress r hr
  modifyProgress hg := .modifyFrame fun f hf s hs => hf s ((hg f.progress).parked ▸ hs)
  bytes := consumes_bytes
  nullableUuid := consumes_nullableUuid
  takeParked := consumes_takeParked
  counter := consumes_counter
  probe _ _ hr := .refl hr

theorem consumes_held (t : HostType) (f : t.Val → Field) {absent : Read Field}
    (habsent : Consumes absent) : Consumes (held ctx t f absent) := by
  refine (consumes_bytes _).bind fun bs => ?_
  cases bs with
  | none => exact habsent
  | some bs =>
    dsimp only
    cases ctx.marshaller.unmarshal t bs with
    | ok x => exact .pure (f x)
    | error e => exact .fail e

/-! ## Messages -/

theorem consumes_fields (hctx : ctx.Ready) (hn : ∀ s, s.Ready → Consumes (nested s))
    {kinds : List FieldKind} (hkinds : ∀ kind ∈ kinds, kind ≠ .stuck) :
    Consumes (fields ctx nested kinds) := by
  induction kinds with
  | nil => exact .pure ()
  | cons kind kinds ih =>
    obtain ⟨hkind, hkinds⟩ := List.forall_mem_cons.mp hkinds
    have hfield : Consumes (field ctx nested kind) :=
      compositional_consumes.field hctx hn (fun t f _ _ => consumes_held t f)
        fun hstuck => absurd hstuck hkind
    exact hfield.bind fun f => .bind (.modifyFrame fun _ _ => nofun) fun _ => ih hkinds

theorem consumes_body (hctx : ctx.Ready) (hn : ∀ s, s.Ready → Consumes (nested s)) {s : Schema}
    (hs : s.Ready) : Consumes (body ctx nested s) := by
  have hkinds (n : Nat) : ∀ kind ∈ s.sent.drop n, kind ≠ .stuck := by
    rintro kind hkind rfl
    exact hs (Schema.mem_fields_of_mem_sent (List.mem_of_mem_drop hkind))
  exact .get fun _ => (consumes_fields hctx hn (hkinds _)).bind fun _ => .get fun _ => .pure _

/-- Where a message one level down stops, it is set aside on this level. -/
theorem consumes_descend {read : Schema → Read Message} {s : Schema} (hs : s.Ready)
    (h : Consumes (read s)) : Consumes (descend read s) := by
  intro r hr
  have hdown := h r.down (hr.descend ReadFrame.ready_default)
  have hup {r' : Reader} (h : r.down.LeadsTo r') (finished : Bool) : r.LeadsTo (r'.up finished) :=
    ⟨h.ready.ascend ReadFrame.ready_default finished, h.precedes⟩
  rw [descend_apply]
  rcases hrun : read s r.down with ⟨m, r'⟩ | ⟨_ | e, r'⟩ <;> rw [hrun] at hdown
  · exact hup hdown true
  · refine ⟨(hup hdown.1 false).modify fun _ => ?_, hdown.2⟩
    rintro _ ⟨⟩
    exact hs
  · trivial

theorem consumes_root (hctx : ctx.Ready) (levels : Nat) {s : Schema} (hs : s.Ready) :
    Consumes (root ctx levels s) := by
  induction levels generalizing s with
  | zero => exact consumes_body hctx (fun _ _ => .fail _) hs
  | succ levels ih => exact consumes_body hctx (fun s hs => consumes_descend hs (ih hs)) hs

end Read

/-! ## Calls -/

namespace ReadSession

/-- All messages that a session has in flight or has set aside are ready. -/
structure Ready (s : ReadSession) : Prop where
  stack : s.stack.All ReadFrame.Ready
  current : ∀ schema, s.current = some schema → schema.Ready

/-- A call of a reader that meets ready messages only. -/
def Call.Ready : Call → Prop
  | .decode ctx _ => ctx.Ready
  | .read ctx _ => ctx.Ready
  | .reset => True

/-- What a call from a place has come to: either an error, or a place further on, from which fewer
bytes than the largest unit are left if there is no message. -/
structure Leaves (cursor : ReadCursor)
    (x : Except Error (Option Message) × ReadSession × ReadCursor) : Prop where
  ready : x.2.1.Ready
  precedes : ∀ msg, x.1 = .ok msg → cursor.Precedes x.2.2
  idle : ∀ msg, x.1 = .ok (some msg) → x.2.1.active = false
  left : x.1 = .ok none → x.2.2.remaining < maxAtomicUnit

variable {s : ReadSession} {ctx : ReadContext} {cursor : ReadCursor} {bs : Bytes} {n : Nat}

theorem Leaves.of_error (hs : s.Ready) (e : Error) (left : ReadCursor) :
    Leaves cursor (.error e, s, left) where
  ready := hs
  precedes _ h := by cases h
  idle _ h := by cases h
  left h := by cases h

theorem Leaves.of_none {left : ReadCursor} (hs : s.Ready) (h : cursor.Precedes left)
    (hleft : left.remaining < maxAtomicUnit) : Leaves cursor (.ok none, s, left) where
  ready := hs
  precedes _ _ := h
  idle _ h := by cases h
  left _ := hleft

theorem Leaves.of_message {left : ReadCursor} (hs : s.Ready) (h : cursor.Precedes left)
    (hidle : s.active = false) (msg : Message) : Leaves cursor (.ok (some msg), s, left) where
  ready := hs
  precedes _ _ := h
  idle _ _ := hidle
  left h := by cases h

theorem ready_reset (s : ReadSession) : s.reset.Ready := ⟨.reset ReadFrame.ready_default, nofun⟩

theorem ready_new : ReadSession.new.Ready := ready_reset .new

theorem Ready.resume (hs : s.Ready) (hctx : ctx.Ready) {schema : Schema} (h : schema.Ready)
    (cursor : ReadCursor) : Leaves cursor (s.resume ctx schema cursor) := by
  have hrun := Read.consumes_root hctx (ctx.marshaller.config.maxNestingDepth - 1) h
    ⟨s.stack, cursor⟩ hs.stack
  rw [ReadSession.resume]
  generalize Read.root ctx (ctx.marshaller.config.maxNestingDepth - 1) schema ⟨s.stack, cursor⟩ = x
    at hrun ⊢
  rcases x with ⟨msg, r⟩ | ⟨_ | e, r⟩
  · exact .of_message (ready_reset _) hrun.precedes rfl msg
  · refine .of_none ⟨hrun.1.ready, ?_⟩ hrun.1.precedes hrun.2
    rintro _ ⟨⟩
    exact h
  · exact .of_error (ready_reset _) e r.cursor

/-- The type byte of a message comes first, and its type is ready. -/
theorem start_eq_some (hctx : ctx.Ready) {schema : Schema} {cursor' : ReadCursor}
    (h : start ctx cursor = .ok (some (schema, cursor'))) :
    schema.Ready ∧ cursor.Precedes cursor' ∧ cursor'.position = cursor.position + 1 := by
  refine ⟨hctx schema (declared_of_start h), ?_⟩
  rw [start] at h
  split at h
  · cases h
  · next type rest hrest =>
    have hone : min 1 cursor.rest.length = 1 := by simp [hrest]
    split at h
    · cases h
    · split at h <;> cases h
      exact ⟨⟨[type], by simp [hrest, ReadCursor.advance], by simp [hone, ReadCursor.advance]⟩,
        by simp [hone, ReadCursor.advance]⟩

theorem start_eq_none (h : start ctx cursor = .ok none) : cursor.rest = [] := by
  rw [start] at h
  split at h
  · assumption
  · split at h
    · cases h
    · split at h <;> cases h

theorem Ready.read (hs : s.Ready) (hctx : ctx.Ready) (cursor : ReadCursor) :
    Leaves cursor (s.read ctx cursor) ∧ (s.active = true ∨ ∀ msg,
      (s.read ctx cursor).1 = .ok (some msg) →
        cursor.position + 1 ≤ (s.read ctx cursor).2.2.position) := by
  rw [ReadSession.read, active]
  cases hcurrent : s.current with
  | some schema => exact ⟨hs.resume hctx (hs.current schema hcurrent) cursor, .inl rfl⟩
  | none =>
    cases hstart : start ctx cursor with
    | error e => exact ⟨.of_error hs e (cursor.advance 1), .inr fun _ h => by cases h⟩
    | ok begun =>
      cases begun with
      | none =>
        have hleft : cursor.remaining < maxAtomicUnit := by
          rw [ReadCursor.remaining, start_eq_none hstart]
          decide
        exact ⟨.of_none hs (.refl cursor) hleft, .inr fun _ h => by cases h⟩
      | some begun =>
        obtain ⟨hschema, hone, hposition⟩ := start_eq_some hctx hstart
        have hrest := hs.resume hctx hschema begun.2
        refine ⟨⟨hrest.ready, fun msg h => hone.trans (hrest.precedes msg h), hrest.idle,
          hrest.left⟩, .inr fun msg h => ?_⟩
        obtain ⟨taken, -, hlater⟩ := hrest.precedes _ h
        exact hposition ▸ hlater ▸ Nat.le_add_right _ _

theorem Ready.call (hs : s.Ready) {c : Call} (hc : c.Ready) : (s.call c).2.Ready := by
  cases c with
  | decode ctx bs =>
    rw [ReadSession.call, decode_eq]
    exact (hs.read hc (.ofBytes bs)).1.ready
  | read ctx cursor => exact (hs.read hc cursor).1.ready
  | reset => exact ready_reset s

theorem ready_afterCalls {calls : List Call} (h : ∀ c ∈ calls, c.Ready) :
    (afterCalls call .new calls).Ready :=
  List.foldlRecOn (motive := Ready) calls _ ready_new fun _ hs c hc => hs.call (h c hc)

/-- A call that gives no message leaves fewer bytes than the largest unit takes. -/
theorem Ready.decode_none (hs : s.Ready) (hctx : ctx.Ready)
    (h : (s.decode ctx bs).1 = .ok (n, none)) :
    n ≤ bs.length ∧ bs.length - n < maxAtomicUnit := by
  obtain ⟨hread, -⟩ := hs.read hctx (.ofBytes bs)
  rw [decode_eq] at h
  rcases hresult : (s.read ctx (.ofBytes bs)).1 with e | msg <;> rw [hresult] at h <;> cases h
  obtain ⟨hle, hrest⟩ := ReadCursor.precedes_ofBytes (hread.precedes none hresult)
  have hleft := hread.left hresult
  rw [ReadCursor.remaining, hrest, List.length_drop] at hleft
  exact ⟨hle, hleft⟩

/-- A call that gives a message has consumed a byte of it, now or before. -/
theorem Ready.decode_some (hs : s.Ready) (hctx : ctx.Ready) {msg : Message}
    (h : (s.decode ctx bs).1 = .ok (n, some msg)) :
    (s.decode ctx bs).2.active = false ∧ n ≤ bs.length ∧ (s.active = true ∨ 1 ≤ n) := by
  obtain ⟨hread, hfirst⟩ := hs.read hctx (.ofBytes bs)
  rw [decode_eq] at h ⊢
  rcases hresult : (s.read ctx (.ofBytes bs)).1 with e | msg <;> rw [hresult] at h <;> cases h
  refine ⟨hread.idle msg hresult, (ReadCursor.precedes_ofBytes (hread.precedes _ hresult)).1, ?_⟩
  exact hfirst.imp_right fun hfirst => Nat.le_of_add_left_le (hfirst msg hresult)

end ReadSession

/-! ## Feeding -/

namespace Feed

variable {ctx : ReadContext} {f : Feed}

/-- Less is held back than the largest unit takes, of a stream that has not failed. -/
structure Short (f : Feed) : Prop where
  ready : f.session.Ready
  pending : f.failure = none → f.pending.length < maxAtomicUnit

theorem short_drain (hctx : ctx.Ready) {calls : Nat} (hs : f.session.Ready)
    (hcalls : f.pending.length + f.session.active.toNat ≤ calls) (hpos : 0 < calls) :
    (drain ctx calls f).Short := by
  induction calls generalizing f with
  | zero => cases hpos
  | succ calls ih =>
    have hnext : (f.session.decode ctx f.pending).2.Ready :=
      hs.call (c := .decode ctx f.pending) hctx
    rcases hd : f.session.decode ctx f.pending with ⟨e | ⟨n, _ | m⟩, s⟩ <;> rw [hd] at hnext
    · simp only [drain, hd]
      exact ⟨hnext, fun h => by cases h⟩
    · obtain ⟨-, hleft⟩ := hs.decode_none hctx (congrArg Prod.fst hd)
      simp only [drain, hd]
      exact ⟨hnext, fun _ => List.length_drop (i := n) ▸ hleft⟩
    · obtain ⟨hidle, hle, hfirst⟩ := hs.decode_some hctx (congrArg Prod.fst hd)
      rw [hd] at hidle
      simp only [drain, hd]
      split
      · next hempty =>
        refine ⟨hnext, fun _ => ?_⟩
        change (f.pending.drop n).length < maxAtomicUnit
        rw [List.isEmpty_iff.mp hempty]
        decide
      · next hrest =>
        rw [List.isEmpty_iff] at hrest
        obtain ⟨hfewer, hcalls'⟩ := fewer_calls hle hfirst hcalls hrest
        have hshorter : (f.pending.drop n).length + s.active.toNat ≤ calls := by
          rw [hidle]
          exact hfewer
        exact ih hnext hshorter hcalls'

theorem Short.push (hctx : ctx.Ready) (hf : f.Short) (chunk : Bytes) :
    (push ctx f chunk).Short := by
  rw [Feed.push]
  split
  · exact hf
  · exact short_drain hctx hf.ready (Nat.add_le_add_left (Bool.toNat_le _) _) (Nat.succ_pos _)

theorem short_pushAll (hctx : ctx.Ready) (chunks : List Bytes) :
    (pushAll ctx (start .new) chunks).Short :=
  List.foldlRecOn (motive := Short) chunks _ ⟨ReadSession.ready_new, fun _ => by decide⟩
    fun _ hf chunk _ => hf.push hctx chunk

end Feed

/-- Sessions stop only for want of one unit. A call that leaves a message unfinished, in whatever
state it found the session, leaves less room than the largest unit takes, so it writes something
where there is that much room. A call that gives no message, whatever calls came before it, leaves
fewer bytes than that, and so a stream is never held back any further. -/
theorem sessions_wait_for_one_unit :
    (∀ (s : WriteSession) (m : Marshaller) (msg : Message) (capacity : Nat) (bs : Bytes),
      msg.Ready → (s.encode m msg capacity).1 = .ok (bs, false) →
        capacity - bs.length < maxAtomicUnit ∧ (maxAtomicUnit ≤ capacity → bs ≠ [])) ∧
    (∀ (calls : List ReadSession.Call) (ctx : ReadContext) (bs : Bytes) (n : Nat),
      (∀ c ∈ calls, c.Ready) → ctx.Ready →
      ((afterCalls ReadSession.call .new calls).decode ctx bs).1 = .ok (n, none) →
        n ≤ bs.length ∧ bs.length - n < maxAtomicUnit) ∧
    ∀ (ctx : ReadContext) (chunks : List Bytes), ctx.Ready →
      let f := Feed.pushAll ctx (.start .new) chunks
      f.failure = none → f.pending.length < maxAtomicUnit := by
  refine ⟨?_, ?_, ?_⟩
  · intro s m msg capacity bs hmsg h
    have hroom := WriteSession.capacity_lt_of_encode hmsg h
    have hsome (hcapacity : maxAtomicUnit ≤ capacity) : bs ≠ [] := by
      rintro rfl
      exact Nat.not_lt_of_le hcapacity (by simpa using hroom)
    have hpos : 0 < maxAtomicUnit := by decide
    exact ⟨by omega, hsome⟩
  · intro calls ctx bs n hcalls hctx h
    exact (ReadSession.ready_afterCalls hcalls).decode_none hctx h
  · intro ctx chunks hctx
    exact (Feed.short_pushAll hctx chunks).pending

/-- An id takes seventeen bytes: one more than there is room for, or than have arrived. -/
theorem sessions_wait_for_one_unit_id :
    let m := Marshaller.ofConfig {} .empty
    let ctx : ReadContext := ⟨m, fun _ => [], ⟨[⟨40, [.uuid false]⟩]⟩⟩
    let msg : Message := .mk 40 [.uuid (some .nil)]
    let arrived : Bytes := 40 :: 1 :: List.replicate 15 0
    let f := Feed.pushAll ctx (.start .new) [[40, 1, 0], List.replicate 14 0]
    msg.Ready ∧ (WriteSession.new.encode m msg 17).1 = .ok ([40], false) ∧
      17 - [40].length < maxAtomicUnit ∧ ctx.Ready ∧
      (ReadSession.new.decode ctx arrived).1 = .ok (1, none) ∧
      arrived.length - 1 < maxAtomicUnit ∧
      f.failure = none ∧ f.pending.length < maxAtomicUnit := by
  intro m ctx msg arrived f
  have hmsg : msg.Ready :=
    .mk (List.forall_mem_singleton.mpr nofun) (List.forall_mem_singleton.mpr nofun)
  have hctx : ctx.Ready := by
    rintro schema (hschema | ⟨type, rfl⟩)
    · cases List.mem_singleton.mp hschema
      change FieldKind.stuck ∉ [FieldKind.uuid false]
      simp
    · exact List.not_mem_nil
  have hwrite : (WriteSession.new.encode m msg 17).1 = .ok ([40], false) := by decide +kernel
  have hread : (ReadSession.new.decode ctx arrived).1 = .ok (1, none) := by rfl
  have hfeed : f.failure = none := by rfl
  obtain ⟨hwriter, hreader, hfeeding⟩ := sessions_wait_for_one_unit
  exact ⟨hmsg, hwrite, (hwriter .new m msg 17 [40] hmsg hwrite).1, hctx, hread,
    (hreader [] ctx arrived 1 nofun hctx hread).2, hfeed, hfeeding ctx _ hctx hfeed⟩

end WireCodec
