import WireCodec.Proofs.Reading.Messages
import WireCodec.Proofs.Units

/-!
# What holds of all reading within a level

A property of routines that holds of the few they are made of, and that composing routines keeps,
holds of reading any field, if it holds of reading the messages in it. What becomes of the byte
string of a value or an object field is left to each property: there the object codec may fail in
ways of its own. So is a field that is never ready.
-/

namespace WireCodec

/-- The types of messages that a reader can meet. -/
def ReadContext.Declared (ctx : ReadContext) (s : Schema) : Prop :=
  s ∈ ctx.factories.schemas ∨ ∃ type, ctx.catalog.schema type = s

/-- A field is taken from a byte string of its own, as a value of a host type. -/
inductive FieldKind.Holds : FieldKind → HostType → Prop
  | value : Holds .value .value
  | object (t : HostType) : Holds (.object t) t

/-- Equally far in the item in flight, whatever list or map is around it. -/
structure ReadProgress.SameItem (p q : ReadProgress) : Prop where
  headDone : p.headDone = q.headDone
  length : p.length = q.length
  gathered : p.gathered = q.gathered
  parked : p.parked = q.parked

theorem ReadCursor.Precedes.suffix {c c' : ReadCursor} (h : c.Precedes c') :
    c'.rest <:+ c.rest := by
  obtain ⟨bs, hrest, -⟩ := h
  exact ⟨bs, hrest.symm⟩

theorem Layout.isIncomplete_checkLength {limit : Nat} {n : Int} {e : Error}
    (h : checkLength limit n = .error e) : e.isIncomplete = false := by
  rw [checkLength] at h
  split at h
  · cases h
    rfl
  · split at h <;> cases h
    rfl

/-- What is missing of an absent value is not input. -/
theorem HostType.isIncomplete_ofValue_null {payloads : PayloadCodec} {t : HostType} {e : Error}
    (h : t.ofValue payloads .null = .error e) : e.isIncomplete = false := by
  cases t <;> cases h <;> rfl

namespace Read

variable {α β : Type}

/-- Takes a field from a byte string of its own, or from elsewhere where there is none. -/
def held (ctx : ReadContext) (t : HostType) (f : t.Val → Field) (absent : Read Field) :
    Read Field := do
  match ← bytes ctx.marshaller.config.maxArrayLength with
  | some bs => f <$> lift (ctx.marshaller.unmarshal t bs)
  | none => absent

/-- A value of fixed width is taken as a unit. -/
theorem primitive_eq (k : Primitive) :
    Read.primitive k = k.decode <$> advance (·.takeExact? k.size) := by
  funext r
  rw [Read.primitive, map_eq_pure_bind, Step.bind_apply, advance_apply, advance_apply,
    ReadCursor.take?]
  cases r.cursor.takeExact? k.size <;> rfl

/-- A property of routines that composing keeps, and that holds of those that take a unit at once
or not at all. -/
structure Sequential (P : ∀ {α : Type}, Read α → Prop) : Prop where
  pure {α : Type} (x : α) : P (Pure.pure x : Read α)
  fail {α : Type} {e : Error} (he : e.isIncomplete = false) : P (Read.fail e : Read α)
  bind {α β : Type} {p : Read α} {q : α → Read β} (hp : P p) (hq : ∀ x, P (q x)) : P (p >>= q)
  take {n : Nat} (h : n ≤ maxAtomicUnit) : P (Read.advance (·.takeExact? n))

/-- Such a property that holds as well of the routines that can stop in the middle. The messages
that are set aside are of types that are `Known`. -/
structure Compositional (Known : Schema → Prop) (P : ∀ {α : Type}, Read α → Prop) : Prop
    extends Sequential P where
  progress {α : Type} {q : ReadProgress → Read α} (hq : ∀ p, P (q p)) : P (Read.progress >>= q)
  modifyProgress {g : ReadProgress → ReadProgress} (hg : ∀ p, (g p).SameItem p) :
    P (Read.modifyProgress g)
  bytes (limit : Nat) : P (Read.bytes limit)
  nullableUuid : P Read.nullableUuid
  takeParked {α : Type} {q : Option Parked → Read α} (hnone : P (q none))
    (hnode : ∀ u, P (q (some (.node u)))) (hmessage : ∀ s, Known s → P (q (some (.message s)))) :
    P (Read.takeParked >>= q)
  counter (u : Uuid) : P (Read.counter u)
  /-- to tell where it is -/
  probe {α : Type} (f : Nat → Nat → α) : P (do
    let r ← get
    return f r.stack.depth r.cursor.remaining)

/-! ## Routines in one step -/

namespace Sequential

variable {P : ∀ {α : Type}, Read α → Prop} (h : Sequential P)

include h

theorem map (f : α → β) {p : Read α} (hp : P p) : P (f <$> p) := by
  rw [map_eq_pure_bind]
  exact h.bind hp fun x => h.pure (f x)

theorem lift {x : Except Error α} (hx : ∀ e, x = .error e → e.isIncomplete = false) :
    P (Read.lift x) := by
  cases x with
  | ok x => exact h.pure x
  | error e => exact h.fail (hx e rfl)

theorem primitive (k : Primitive) : P (Read.primitive k) := by
  rw [primitive_eq]
  exact h.map k.decode (h.take k.size_le)

theorem byte : P Read.byte := h.bind (h.primitive _) fun _ => h.pure _

theorem length (limit : Nat) : P (Read.length limit) := by
  refine h.bind (h.primitive (.int .w32 .signed)) fun x => ?_
  split
  · exact h.pure none
  · exact h.map some (h.lift fun e => Layout.isIncomplete_checkLength)

theorem char : P Read.char := by
  refine h.bind (h.primitive .unit) fun u => ?_
  split
  · exact h.pure _
  · exact h.fail rfl

theorem uuid : P Read.uuid :=
  h.bind (h.take (by decide)) fun _ => h.pure _

theorem required (what : Required) (x : Option α) : P (Read.required what x) := by
  cases x with
  | some x => exact h.pure x
  | none => exact h.fail rfl

theorem optional (what : Required) (isOptional : Bool) (x : Option α) :
    P (Read.optional what isOptional x) := by
  rw [Read.optional]
  split
  · exact h.pure x
  · exact h.map some (h.required what x)

theorem absence (what : Required) (a : Absence) (xs : Option (List α)) :
    P (Read.absence what a xs) := by
  cases a with
  | refused => exact h.map some (h.required what xs)
  | kept => exact h.pure xs
  | emptied => exact h.pure _

end Sequential

namespace Compositional

variable {Known : Schema → Prop} {P : ∀ {α : Type}, Read α → Prop} {ctx : ReadContext}
  {nested : Schema → Read Message} (h : Compositional Known P)

include h

/-! ## Routines that can stop in the middle -/

theorem text (limit : Nat) : P (Read.text limit) := by
  refine h.bind (h.bytes limit) fun bs => ?_
  cases bs with
  | none => exact h.pure none
  | some bs =>
    dsimp only
    split
    · exact h.pure _
    · exact h.fail rfl

theorem grid : P Read.grid := by
  refine h.takeParked (h.bind h.nullableUuid fun u => ?_) h.counter fun s _ => h.fail rfl
  cases u with
  | none => exact h.pure none
  | some u => exact h.counter u

/-! ## Lists and maps -/

theorem pushItem (kind : ItemKind) (x : Item) : P (Read.pushItem kind x) := by
  refine h.progress fun p => ?_
  split
  · exact h.modifyProgress fun p => ⟨rfl, rfl, rfl, rfl⟩
  · exact h.fail rfl

theorem pushEntry (key value : ItemKind) (k v : Item) : P (Read.pushEntry key value k v) := by
  refine h.progress fun p => ?_
  split
  · exact h.modifyProgress fun p => ⟨rfl, rfl, rfl, rfl⟩
  · exact h.fail rfl

theorem takeKey (kind : ItemKind) : P (Read.takeKey kind) := by
  refine h.progress fun p => h.bind (h.modifyProgress ?_) fun _ => ?_
  · exact fun p => ⟨rfl, rfl, rfl, rfl⟩
  · split
    · split
      · exact h.pure _
      · exact h.fail rfl
    · exact h.fail rfl

theorem storeEntry (key value : ItemKind) (v : Item) : P (Read.storeEntry key value v) :=
  h.bind (h.takeKey key) fun k => h.pushEntry key value k v

theorem finishItems (kind : ItemKind) : P (Read.finishItems kind) := by
  refine h.progress fun p => h.bind (h.modifyProgress ?_) fun _ => ?_
  · exact fun _ => ⟨rfl, rfl, rfl, rfl⟩
  · split
    · exact h.pure _
    · exact h.fail rfl

theorem finishEntries (key value : ItemKind) : P (Read.finishEntries key value) := by
  refine h.progress fun p => h.bind (h.modifyProgress ?_) fun _ => ?_
  · exact fun _ => ⟨rfl, rfl, rfl, rfl⟩
  · split
    · exact h.pure _
    · exact h.fail rfl

theorem counting {lead : Read Unit} (hlead : P lead) : P (Read.counting lead) :=
  h.bind hlead fun _ => h.modifyProgress fun _ => ⟨rfl, rfl, rfl, rfl⟩

theorem repeated {step : Read Unit} (hstep : P step) (n : Nat) : P (Read.repeated step n) := by
  induction n with
  | zero => exact h.pure ()
  | succ n ih => exact h.bind hstep fun _ => ih

theorem container {limit : Nat} {empty : Container} {step : Read Unit} {finish : Read β}
    (hstep : P step) (hfinish : P finish) : P (Read.container limit empty step finish) := by
  have hremainder : P (remainder step finish) :=
    h.progress fun p => h.bind (h.repeated hstep _) fun _ => h.map some hfinish
  rw [container_eq]
  refine h.progress fun p => ?_
  split
  · exact hremainder
  · refine h.bind (h.length limit) fun n => ?_
    cases n with
    | none => exact h.pure none
    | some n =>
      refine h.bind (h.modifyProgress ?_) fun _ => hremainder
      exact fun _ => ⟨rfl, rfl, rfl, rfl⟩

/-! ## Messages and fields -/

variable (hctx : ∀ s, ctx.Declared s → Known s)

include hctx

theorem schemaFor {wanted : Option UInt8} {type : UInt8} {q : Schema → Read α}
    (hq : ∀ s, Known s → P (q s)) : P (Read.schemaFor ctx wanted type >>= q) := by
  cases wanted with
  | some t =>
    by_cases ht : t = type
    · simp only [Read.schemaFor, if_pos ht, pure_bind]
      exact hq _ (hctx _ (.inr ⟨t, rfl⟩))
    · simp only [Read.schemaFor, if_neg ht]
      exact h.fail rfl
  | none =>
    cases hf : ctx.factories.find? type with
    | some s =>
      simp only [Read.schemaFor, hf, pure_bind]
      exact hq s (hctx s (.inl (List.mem_of_find?_eq_some hf)))
    | none =>
      simp only [Read.schemaFor, hf]
      exact h.fail rfl

variable (hn : ∀ s, Known s → P (nested s))

include hn

theorem message (wanted : Option UInt8) : P (Read.message ctx nested wanted) := by
  refine h.takeParked (h.bind h.byte fun type => ?_) (fun u => h.fail rfl) fun s hs => ?_
  · split
    · exact h.pure none
    · exact h.schemaFor hctx fun s hs => h.map some (hn s hs)
  · dsimp only
    split
    · exact h.map some (hn s hs)
    · exact h.fail rfl

theorem item (kind : ItemKind) : P (Read.item ctx nested kind) := by
  cases kind with
  | primitive k => exact h.map _ (h.primitive k)
  | char => exact h.map _ h.char
  | text => exact h.bind (h.text _) fun s => h.map _ (h.required _ s)
  | uuid => exact h.map _ h.uuid
  | grid => exact h.bind h.grid fun g => h.map _ (h.required _ g)
  | message wanted =>
    refine h.bind (h.message hctx hn wanted) fun m => ?_
    cases m with
    | some m => exact h.pure _
    | none => exact h.fail (by split <;> rfl)

theorem listStep (kind : ItemKind) : P (Read.listStep ctx nested kind) :=
  h.bind (h.item hctx hn kind) (h.pushItem kind)

theorem entryStep (key value : ItemKind) : P (Read.entryStep ctx nested key value) := by
  have hkey : P (readKey ctx nested key) :=
    h.bind (h.item hctx hn key) fun _ => h.modifyProgress fun _ => ⟨rfl, rfl, rfl, rfl⟩
  refine h.bind (h.progress (q := fun p => if p.key.isSome then Pure.pure () else
    readKey ctx nested key) fun p => ?_) fun _ =>
      h.bind (h.item hctx hn value) (h.storeEntry key value)
  split
  · exact h.pure ()
  · exact hkey

theorem list (kind : ItemKind) : P (Read.list ctx nested kind) := by
  rw [list_eq]
  exact h.container (h.counting (h.listStep hctx hn kind)) (h.finishItems kind)

theorem entries (key value : ItemKind) : P (Read.map ctx nested key value) := by
  rw [map_eq]
  exact h.container (h.counting (h.entryStep hctx hn key value)) (h.finishEntries key value)

theorem field {kind : FieldKind}
    (hheld : ∀ t f absent, kind.Holds t → P absent → P (held ctx t f absent))
    (hstuck : kind = .stuck → P (throw .suspended : Read Field)) :
    P (Read.field ctx nested kind) := by
  cases kind with
  | primitive k => exact h.map _ (h.primitive k)
  | char => exact h.map _ h.char
  | text o => exact h.bind (h.text _) fun x => h.map _ (h.optional _ o x)
  | bytes o => exact h.bind (h.bytes _) fun x => h.map _ (h.optional _ o x)
  | uuid o => exact h.bind h.nullableUuid fun x => h.map _ (h.optional _ o x)
  | grid o => exact h.bind h.grid fun x => h.map _ (h.optional _ o x)
  | bits o => exact h.bind (h.list hctx hn _) fun x => h.map _ (h.optional _ o _)
  | value => exact hheld .value .value _ .value (h.pure _)
  | object t =>
    refine hheld t (.object t) _ (.object t) (h.map _ (h.lift ?_))
    exact fun e => HostType.isIncomplete_ofValue_null
  | message wanted => exact h.map _ (h.message hctx hn wanted)
  | list item a => exact h.bind (h.list hctx hn item) fun xs => h.map _ (h.absence _ a xs)
  | map key value a =>
    exact h.bind (h.entries hctx hn key value) fun es => h.map _ (h.absence _ a es)
  | stuck => exact hstuck rfl
  | probe =>
    refine h.bind (h.primitive (.int .w32 .unsigned)) fun x => ?_
    exact h.probe fun depth remaining =>
      Field.probe [x.toNat / 65536, x.toNat % 65536, depth, remaining]
  | skipped initial => exact h.pure _

end Compositional

end Read

end WireCodec
