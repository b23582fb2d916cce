import Mathlib.Data.ENat.Basic
import WireCodec.Proofs.Reading.Composition
import WireCodec.Proofs.Twins

/-!
# Readers that cannot be told apart

Reading does the same whatever is pooled below the frames in use (`respects_root`). It leaves each
level where it found it, counts no more fields on a level than the type of a message has, or than
were counted before, and never has more of a byte string than the length in front of it says, so
that the number of bytes that are missing is exact.
-/

namespace WireCodec

variable {limit : ℕ∞}

/-- A type of messages with up to so many fields that are read. -/
def Schema.Narrow (limit : ℕ∞) (s : Schema) : Prop := s.sent.length ≤ limit

/-- Every type of messages that a reader can meet has up to so many fields. -/
def ReadContext.Narrow (limit : ℕ∞) (ctx : ReadContext) : Prop :=
  ∀ s, ctx.Declared s → s.Narrow limit

theorem ReadContext.narrow_top (ctx : ReadContext) : ctx.Narrow ⊤ := fun _ _ => le_top

/-- There are no more bytes of a byte string than its length, and none before it is known. The
message that is set aside, if one is, has up to so many fields. -/
structure ReadProgress.Sound (limit : ℕ∞) (p : ReadProgress) : Prop where
  gathered : p.gathered.size ≤ p.length
  ungathered : p.headDone = false → p.gathered = #[]
  parked : ∀ s, p.parked = some (.message s) → s.Narrow limit

/-- A frame in which up to so many fields are counted. -/
structure ReadFrame.Sound (limit : ℕ∞) (f : ReadFrame) : Prop where
  counted : f.fields.length ≤ limit
  progress : f.progress.Sound limit

theorem ReadProgress.sound_default (limit : ℕ∞) : (default : ReadProgress).Sound limit :=
  ⟨Nat.le_refl 0, fun _ => rfl, nofun⟩

theorem ReadFrame.sound_default (limit : ℕ∞) : (default : ReadFrame).Sound limit :=
  ⟨bot_le (a := limit), ReadProgress.sound_default limit⟩

namespace Read

open Step

/-- Readers at the same place of the same bytes, with frames that are twins. -/
structure Twins (limit : ℕ∞) (above : List ReadFrame) (r r' : Reader) : Prop where
  stack : r.stack.Twins (ReadFrame.Sound limit) above r'.stack
  cursor : r.cursor = r'.cursor

/-- Twins with these fields read. -/
def TwinsAt (limit : ℕ∞) (above : List ReadFrame) (fs : List Field) (r r' : Reader) : Prop :=
  Twins limit above r r' ∧ r.stack.current.fields = fs

variable {α β : Type} {above : List ReadFrame} {fs : List Field} {r r' : Reader}
  {ctx : ReadContext} {nested : Schema → Read Message}

theorem Twins.progress (h : Twins limit above r r') :
    r.stack.current.progress = r'.stack.current.progress :=
  congrArg ReadFrame.progress h.stack.current

theorem Twins.sound (h : Twins limit above r r') : r.stack.current.progress.Sound limit :=
  h.stack.all.current.progress

theorem Twins.modify {g : ReadFrame → ReadFrame} (h : Twins limit above r r')
    (hg : (g r.stack.current).Sound limit) :
    Twins limit above { r with stack := r.stack.modify g }
      { r' with stack := r'.stack.modify g } :=
  ⟨h.stack.modify fun _ => hg, h.cursor⟩

theorem TwinsAt.modify {g : ReadProgress → ReadProgress} (h : TwinsAt limit above fs r r')
    (hg : (g r.stack.current.progress).Sound limit) : TwinsAt limit above fs
      { r with stack := r.stack.modify fun f => { f with progress := g f.progress } }
      { r' with stack := r'.stack.modify fun f => { f with progress := g f.progress } } :=
  ⟨h.1.modify ⟨h.1.stack.all.current.counted, hg⟩, h.2⟩

theorem TwinsAt.unpark (h : TwinsAt limit above fs r r') :
    TwinsAt limit above fs r.unpark r'.unpark :=
  h.modify (g := fun p => { p with parked := none })
    ⟨h.1.sound.gathered, h.1.sound.ungathered, nofun⟩

theorem TwinsAt.park (h : TwinsAt limit above fs r r') {x : Parked}
    (hx : ∀ s, x = .message s → s.Narrow limit) :
    TwinsAt limit above fs (r.park x) (r'.park x) :=
  h.modify (g := fun p => { p with parked := some x })
    ⟨h.1.sound.gathered, h.1.sound.ungathered, fun s hs => hx s (Option.some.inj hs)⟩

theorem TwinsAt.headed (h : TwinsAt limit above fs r r')
    (hempty : r.stack.current.progress.gathered = #[]) (n : Nat) :
    TwinsAt limit above fs (r.headed n) (r'.headed n) :=
  h.modify (g := fun p => { p with headDone := true, length := n })
    ⟨hempty.symm ▸ Nat.zero_le n, nofun, h.1.sound.parked⟩

theorem TwinsAt.emptied (h : TwinsAt limit above fs r r') :
    TwinsAt limit above fs r.emptied r'.emptied :=
  h.modify (g := fun p => { p with headDone := false, length := 0, gathered := #[] })
    ⟨Nat.le_refl 0, fun _ => rfl, h.1.sound.parked⟩

theorem TwinsAt.withCursor (h : TwinsAt limit above fs r r') (cursor : ReadCursor) :
    TwinsAt limit above fs { r with cursor } { r' with cursor } :=
  ⟨⟨h.1.stack, rfl⟩, h.2⟩

/-! ## Fields -/

theorem respects_advance (step : ReadCursor → Option (α × ReadCursor)) :
    Respects (TwinsAt limit above fs) (advance step) := by
  intro r r' h
  rw [advance_apply, advance_apply, h.1.cursor]
  split
  · exact .ok _ (h.withCursor _)
  · exact .error _ h

theorem sequential_respects : Sequential (Respects (TwinsAt limit above fs)) where
  pure := .pure
  fail _ := .throw _
  bind := .bind
  take _ := respects_advance _

/-- Past its length, a byte string takes no more bytes than it misses. -/
theorem TwinsAt.gathered (h : TwinsAt limit above fs r r')
    (hhead : r.stack.current.progress.headDone = true) :
    TwinsAt limit above fs (r.gathered r.missing) (r'.gathered r.missing) := by
  have hsize : (r.stack.current.progress.gathered ++ r.cursor.rest.take r.missing).size ≤
      r.stack.current.progress.length := by
    have := h.1.sound.gathered
    rw [← Array.length_toList, Array.toList_appendList, List.length_append, List.length_take,
      Array.length_toList, Reader.missing]
    omega
  rw [Reader.gathered, Reader.gathered, ← h.1.cursor]
  refine (h.withCursor (r.cursor.takePartial r.missing).2).modify
    (g := fun p => { p with gathered := p.gathered ++ r.cursor.rest.take r.missing })
    ⟨hsize, fun hunmarked => ?_, h.1.sound.parked⟩
  exact absurd (hhead.symm.trans hunmarked) (by decide)

theorem alike_gather (h : TwinsAt limit above fs r r')
    (hhead : r.stack.current.progress.headDone = true) :
    Alike (TwinsAt limit above fs) (gather r) (gather r') := by
  have hmissing : r.missing = r'.missing := by rw [Reader.missing, h.1.progress, Reader.missing]
  rw [gather_apply, gather_apply, ← h.1.progress, ← hmissing, ← h.1.cursor]
  split
  · exact .error _ (h.gathered hhead)
  · exact .ok _ (h.gathered hhead).emptied

theorem respects_bytes (bound : Nat) : Respects (TwinsAt limit above fs) (bytes bound) := by
  intro r r' h
  cases hhead : r.stack.current.progress.headDone with
  | true =>
    rw [bytes_of_headDone bound hhead, bytes_of_headDone bound (h.1.progress ▸ hhead)]
    exact alike_gather h hhead
  | false =>
    have hunmarked : ¬ r.stack.current.progress.headDone = true := by rw [hhead]; decide
    have hlength : Respects (TwinsAt limit above fs) (length bound) :=
      sequential_respects.length bound
    have hkeeps := (resumable_length bound).frame.comp fun s => s.current.progress.headDone
    rw [bytes_of_not_headDone bound hunmarked,
      bytes_of_not_headDone bound (h.1.progress ▸ hunmarked)]
    refine (hlength.keeping hkeeps false r r' ⟨h, hhead⟩).bind ?_ fun _ _ h => h.1
    rintro (_ | n) v v' ⟨hv, hhead⟩
    · exact .ok none hv
    · exact alike_gather (hv.headed (hv.1.sound.ungathered hhead) n) rfl

theorem respects_nullableUuid : Respects (TwinsAt limit above fs) nullableUuid := by
  intro r r' h
  have hunit : Respects (TwinsAt limit above fs) (do
      let unit ← advance (·.takeExact? maxAtomicUnit)
      return some (Layout.ofUuid (unit.drop 1))) := (respects_advance _).bind fun _ => .pure _
  rw [nullableUuid_apply, nullableUuid_apply, ← h.1.cursor]
  split
  · exact .error _ h
  · split
    · exact .ok none (h.withCursor _)
    · split
      · exact hunit r r' h
      · exact .error _ h

theorem respects_takeParked {q : Option Parked → Read α}
    (hnone : Respects (TwinsAt limit above fs) (q none))
    (hnode : ∀ u, Respects (TwinsAt limit above fs) (q (some (.node u))))
    (hmessage : ∀ s, s.Narrow limit → Respects (TwinsAt limit above fs) (q (some (.message s)))) :
    Respects (TwinsAt limit above fs) (takeParked >>= q) := by
  intro r r' h
  rw [takeParked_bind, takeParked_bind, ← h.1.progress]
  cases hp : r.stack.current.progress.parked with
  | none => exact hnone _ _ h.unpark
  | some parked =>
    cases parked with
    | node u => exact hnode u _ _ h.unpark
    | message s => exact hmessage s (h.1.sound.parked s hp) _ _ h.unpark

theorem respects_counter (u : Uuid) : Respects (TwinsAt limit above fs) (counter u) := by
  intro r r' h
  rw [counter_apply, counter_apply, ← h.1.cursor]
  split
  · exact .ok _ (h.withCursor _)
  · exact .error _ (h.park nofun)

theorem Twins.sameItem {g : ReadProgress → ReadProgress} (hg : ∀ p, (g p).SameItem p)
    (h : Twins limit above r r') : (g r.stack.current.progress).Sound limit where
  gathered := by
    rw [(hg _).gathered, (hg _).length]
    exact h.sound.gathered
  ungathered := by
    rw [(hg _).headDone, (hg _).gathered]
    exact h.sound.ungathered
  parked := by
    rw [(hg _).parked]
    exact h.sound.parked

/-- A field is read alike by twins, and is not counted yet. -/
theorem compositional_respects :
    Compositional (Schema.Narrow limit) (Respects (TwinsAt limit above fs)) where
  toSequential := sequential_respects
  progress hq r r' h := by
    rw [progress_bind, progress_bind, h.1.progress]
    exact hq _ r r' h
  modifyProgress hg _ _ h := .ok () (h.modify (h.1.sameItem hg))
  bytes := respects_bytes
  nullableUuid := respects_nullableUuid
  takeParked := respects_takeParked
  counter := respects_counter
  probe f r r' h := by
    have hdepth : r.stack.depth = r'.stack.depth := congrArg List.length h.1.stack.above
    rw [get_bind, get_bind, hdepth, h.1.cursor]
    exact .ok _ h

theorem respects_held (t : HostType) (f : t.Val → Field) {absent : Read Field}
    (habsent : Respects (TwinsAt limit above fs) absent) :
    Respects (TwinsAt limit above fs) (held ctx t f absent) := by
  refine (respects_bytes _).bind fun bs => ?_
  cases bs with
  | none => exact habsent
  | some bs =>
    dsimp only
    cases ctx.marshaller.unmarshal t bs with
    | ok x => exact .pure (f x)
    | error e => exact .throw _

/-- Reading messages of narrow types on the level below. -/
def RespectsNested (limit : ℕ∞) (above : List ReadFrame) (fs : List Field)
    (nested : Schema → Read Message) : Prop :=
  ∀ s, s.Narrow limit → Respects (TwinsAt limit above fs) (nested s)

theorem respects_field (hctx : ctx.Narrow limit) (hn : RespectsNested limit above fs nested)
    (kind : FieldKind) : Respects (TwinsAt limit above fs) (field ctx nested kind) :=
  compositional_respects.field hctx hn (fun t f _ _ => respects_held t f) fun _ => .throw _

/-! ## Messages -/

/-- The fields from some place on are counted one by one, up to the last one at most. -/
theorem alike_forEach_fieldStep (hctx : ctx.Narrow limit) {kinds : List FieldKind}
    (hn : ∀ fs, RespectsNested limit above fs nested)
    (hcount : (fs.length + kinds.length : Nat) ≤ limit) (hr : TwinsAt limit above fs r r') :
    Alike (Twins limit above) (forEach (fieldStep ctx nested) kinds r)
      (forEach (fieldStep ctx nested) kinds r') := by
  induction kinds generalizing fs r r' with
  | nil => exact .ok () hr.1
  | cons kind kinds ih =>
    have hlength (f : Field) : (fs ++ [f]).length + kinds.length =
        fs.length + (kind :: kinds).length := by
      rw [List.length_append, List.length_cons, List.length_cons, List.length_nil]
      omega
    have hnext (f : Field) : (((fs ++ [f]).length : Nat) : ℕ∞) ≤ limit :=
      le_trans (Nat.cast_le.mpr (hlength f ▸ Nat.le_add_right _ kinds.length)) hcount
    have hsteps (r : Reader) : forEach (fieldStep ctx nested) (kind :: kinds) r = (do
        let f ← field ctx nested kind
        modifyFrame fun frame => { fields := frame.fields ++ [f], progress := default }
        forEach (fieldStep ctx nested) kinds) r := by
      rw [forEach, fieldStep, bind_assoc]
    rw [hsteps, hsteps]
    refine (respects_field hctx (hn fs) kind r r' hr).bind ?_ fun _ _ hr => hr.1
    rintro f v v' ⟨hv, rfl⟩
    exact ih (hlength f ▸ hcount)
      ⟨hv.modify ⟨hnext f, ReadProgress.sound_default limit⟩, rfl⟩

theorem respects_body (hctx : ctx.Narrow limit) (hn : ∀ fs, RespectsNested limit above fs nested)
    {s : Schema} (hs : s.Narrow limit) : Respects (Twins limit above) (body ctx nested s) := by
  have hfinish : Respects (Twins limit above) (finishBody s) := by
    intro r r' h
    rw [finishBody, get_bind, get_bind, h.stack.current]
    exact .ok _ h
  rw [body_eq]
  refine .bind (fun r r' h => ?_) fun _ => hfinish
  have hfrom (r : Reader) : forEachFrom (fun r => r.stack.current.fields.length)
      (fieldStep ctx nested) s.sent r =
      forEach (fieldStep ctx nested) (s.sent.drop r.stack.current.fields.length) r := rfl
  rw [hfrom, hfrom, ← h.stack.current]
  refine alike_forEach_fieldStep hctx hn ?_ ⟨h, rfl⟩
  have hbound := h.stack.all.current.counted
  rw [List.length_drop]
  rcases Nat.le_total r.stack.current.fields.length s.sent.length with hle | hle
  · exact (Nat.add_sub_cancel' hle).symm ▸ hs
  · exact (Nat.sub_eq_zero_of_le hle).symm ▸ hbound

/-- A message one level down leaves the level above it alone, but for what it sets aside there. -/
theorem respects_descend {read : Schema → Read Message} {s : Schema} (hs : s.Narrow limit)
    (h : ∀ f, Respects (Twins limit (f :: above)) (read s)) :
    Respects (TwinsAt limit above fs) (descend read s) := by
  rintro r r' ⟨hr, rfl⟩
  have hdown : Twins limit (r.stack.current :: above) r.down r'.down :=
    ⟨hr.stack.descend (ReadFrame.sound_default limit), hr.cursor⟩
  have hup {v v' : Reader} (hv : Twins limit (r.stack.current :: above) v v') (finished : Bool) :
      TwinsAt limit above r.stack.current.fields (v.up finished) (v'.up finished) := by
    obtain ⟨hstack, hcurrent⟩ := hv.stack.ascend (ReadFrame.sound_default limit) finished
    exact ⟨⟨hstack, hv.cursor⟩, congrArg ReadFrame.fields hcurrent⟩
  have hrun := h r.stack.current r.down r'.down hdown
  rw [descend_apply, descend_apply]
  generalize read s r.down = x at hrun
  generalize read s r'.down = y at hrun
  cases hrun with
  | ok m hv => exact .ok m (hup hv true)
  | error stop hv =>
    have hv := hup hv false
    cases stop with
    | failed e => exact .error _ hv
    | suspended =>
      refine .error _ (hv.park ?_)
      rintro _ ⟨⟩
      exact hs

theorem respects_root (hctx : ctx.Narrow limit) (levels : Nat) {s : Schema}
    (hs : s.Narrow limit) : Respects (Twins limit above) (root ctx levels s) := by
  induction levels generalizing s above with
  | zero => exact respects_body hctx (fun _ _ _ => .throw _) hs
  | succ levels ih =>
    exact respects_body hctx (fun _ inner hinner => respects_descend hinner fun _ => ih hinner) hs

end Read

end WireCodec
