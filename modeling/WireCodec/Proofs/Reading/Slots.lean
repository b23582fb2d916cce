import WireCodec.Proofs.Decoding.Failures
import WireCodec.Proofs.Reading.Messages
import WireCodec.Proofs.Trails

/-!
# What the slots of a frame hold

A frame has one slot for a list or a map, one for the key of an entry, and one for what is set aside
of an item; all fields of a level use them in turn. Wherever a field stops, its slots hold what a
field of its kind takes out of them again (`FieldKind.Fits`), and what is set aside of a message
leads to the level where its fields are (`Reader.Leads`). So the errors that tell of a slot with
something else in it never come up.
-/

namespace WireCodec

/-! ## Slots -/

/-- An item is of a kind. -/
inductive ItemKind.Has : ItemKind → Item → Prop
  | primitive (k : Primitive) (x : k.Val) : Has (.primitive k) (.primitive k x)
  | char (c : Char) : Has .char (.char c)
  | text (s : String) : Has .text (.text s)
  | uuid (u : Uuid) : Has .uuid (.uuid u)
  | grid (g : GridId) : Has .grid (.grid g)
  | message {wanted : Option UInt8} {m : Message} (h : ∀ t, wanted = some t → m.type = t) :
    Has (.message wanted) (.message m)

theorem ItemKind.Has.kind_eq {kind : ItemKind} {x : Item} (h : kind.Has x) :
    x.kind = kind.erased := by
  cases h <;> rfl

/-- What can be set aside of an item of a kind. -/
inductive ItemKind.Parks : ItemKind → Option Parked → Prop
  | nothing (kind : ItemKind) : Parks kind none
  | node (u : Uuid) : Parks .grid (some (.node u))
  | message {wanted : Option UInt8} {s : Schema} (h : ∀ t, wanted = some t → s.type = t) :
    Parks (.message wanted) (some (.message s))

namespace ReadProgress

/-- The message that is set aside. -/
def message? (p : ReadProgress) : Option Schema :=
  match p.parked with
  | some (.message s) => some s
  | _ => none

/-- A single item of a kind is in flight, with nothing around it. -/
structure Single (kind : ItemKind) (p : ReadProgress) : Prop where
  unbegun : p.started = false
  container : p.container = none
  key : p.key = none
  parked : kind.Parks p.parked

/-- Nothing is in flight. -/
structure Vacant (p : ReadProgress) : Prop where
  unbegun : p.started = false
  container : p.container = none
  key : p.key = none
  parked : p.parked = none

/-- A list of items of a kind is in flight. -/
structure Lists (kind : ItemKind) (p : ReadProgress) : Prop where
  begun : p.started = true
  items : ∃ xs, p.container = some (.items kind.erased xs) ∧ ∀ x ∈ xs, kind.Has x
  key : p.key = none
  parked : kind.Parks p.parked

/-- A map is in flight: its next entry has a key of one kind and a value of another, and either the
key is still to come or it waits for the value. -/
structure Maps (key value : ItemKind) (p : ReadProgress) : Prop where
  begun : p.started = true
  entries : ∃ es, p.container = some (.entries key.erased value.erased es) ∧
    ∀ e ∈ es, key.Has e.1 ∧ value.Has e.2
  turn : p.key = none ∧ key.Parks p.parked ∨
    ∃ k, p.key = some k ∧ key.Has k ∧ value.Parks p.parked

/-- A list or a map is in flight and one of its items is still to come, or nothing is in flight. -/
def Fills (Inside : ReadProgress → Prop) (p : ReadProgress) : Prop :=
  p.Vacant ∨ Inside p ∧ p.index < p.expected

end ReadProgress

/-- The slots hold what a field of a kind takes out of them. -/
def FieldKind.Fits : FieldKind → ReadProgress → Prop
  | .grid _, p => p.Single .grid
  | .message wanted, p => p.Single (.message wanted)
  | .bits _, p => p.Fills (ReadProgress.Lists (.primitive (.int .w64 .unsigned)))
  | .list kind _, p => p.Fills (ReadProgress.Lists kind)
  | .map k v _, p => p.Fills (ReadProgress.Maps k v)
  | _, p => p.Vacant

/-- A frame holds a message in flight: the fields that are read are followed by one whose kind the
progress fits, and a message nested in that field is in flight if one is set aside. -/
structure ReadFrame.Holds (s : Schema) (f : ReadFrame) (next : Option Schema) : Prop where
  field : ∃ kind, s.sent[f.fields.length]? = some kind ∧ kind.Fits f.progress
  next : f.progress.message? = next

/-- What is set aside on the current level leads to the levels below. -/
def Reader.Leads (r : Reader) : Prop :=
  Trail ReadFrame.Holds r.stack.current.progress.message? r.stack.below

/-- A reader is about to read an item of a kind, or to go on with one. -/
structure Reader.Waits (kind : ItemKind) (r : Reader) : Prop where
  parked : kind.Parks r.stack.current.progress.parked
  leads : r.Leads

/-- Nothing is set aside, and nothing is left behind below. -/
structure Reader.Rests (r : Reader) : Prop where
  parked : r.stack.current.progress.parked = none
  cleared : r.stack.Cleared

theorem ReadProgress.message?_eq_none {p : ReadProgress} (h : p.parked = none) :
    p.message? = none := by
  rw [message?, h]

theorem Reader.Rests.leads {r : Reader} (h : r.Rests) : r.Leads := .of_cleared h.cleared

theorem Reader.Rests.waits {r : Reader} (h : r.Rests) (kind : ItemKind) : r.Waits kind :=
  ⟨h.parked.symm ▸ .nothing kind, h.leads⟩

theorem Reader.Leads.rests {r : Reader} (h : r.Leads)
    (hparked : r.stack.current.progress.parked = none) : r.Rests := by
  rw [Leads, ReadProgress.message?_eq_none hparked, Trail.none_iff] at h
  exact ⟨hparked, h⟩

namespace ReadProgress

theorem vacant_default : (default : ReadProgress).Vacant := ⟨rfl, rfl, rfl, rfl⟩

theorem Vacant.single {p : ReadProgress} (h : p.Vacant) (kind : ItemKind) : p.Single kind :=
  ⟨h.unbegun, h.container, h.key, h.parked.symm ▸ .nothing kind⟩

/-- An item that is read or stops leaves alone what is around it. -/
theorem Single.of_outer {p q : ReadProgress} {kind : ItemKind} (h : p.Single kind)
    (houter : q.outer = p.outer) (hparked : kind.Parks q.parked) : q.Single kind where
  unbegun := (congrArg started houter).trans h.unbegun
  container := (congrArg ReadProgress.container houter).trans h.container
  key := (congrArg ReadProgress.key houter).trans h.key
  parked := hparked

theorem Lists.of_outer {p q : ReadProgress} {kind : ItemKind} (h : p.Lists kind)
    (houter : q.outer = p.outer) (hparked : kind.Parks q.parked) : q.Lists kind where
  begun := (congrArg started houter).trans h.begun
  items := by
    obtain ⟨xs, hxs, hhas⟩ := h.items
    exact ⟨xs, (congrArg ReadProgress.container houter).trans hxs, hhas⟩
  key := (congrArg ReadProgress.key houter).trans h.key
  parked := hparked

theorem Maps.entries_of_outer {p q : ReadProgress} {key value : ItemKind} (h : p.Maps key value)
    (houter : q.outer = p.outer) :
    ∃ es, q.container = some (.entries key.erased value.erased es) ∧
      ∀ e ∈ es, key.Has e.1 ∧ value.Has e.2 := by
  obtain ⟨es, hes, hhas⟩ := h.entries
  exact ⟨es, (congrArg ReadProgress.container houter).trans hes, hhas⟩

end ReadProgress

theorem FieldKind.fits_default (kind : FieldKind) : kind.Fits default := by
  have hvacant := ReadProgress.vacant_default
  cases kind with
  | grid o => exact hvacant.single _
  | message wanted => exact hvacant.single _
  | bits o => exact .inl hvacant
  | list kind a => exact .inl hvacant
  | map key value a => exact .inl hvacant
  | _ => exact hvacant

/-! ## Routines that set nothing aside -/

/-- What taking a unit leaves alone: all but the bytes, and how far a byte string is read. -/
def Reader.settled (r : Reader) :
    (List ReadFrame × List Field × ReadProgress) × Option Parked × List ReadFrame :=
  (r.outer, r.stack.current.progress.parked, r.stack.below)

theorem Reader.Rests.of_settled {r r' : Reader} (h : r.Rests) (hsettled : r'.settled = r.settled) :
    r'.Rests := by
  simp only [Reader.settled, Prod.mk.injEq] at hsettled
  obtain ⟨-, hparked, hbelow⟩ := hsettled
  exact ⟨hparked.trans h.parked, fun f hf => h.cleared f (hbelow ▸ hf)⟩

theorem Layout.foreign_checkLength (limit : Nat) (n : Int) :
    FailsWith Error.Foreign (checkLength limit n) := by
  rw [checkLength]
  split
  · exact .error rfl
  · split
    · exact .error rfl
    · exact .ok _

theorem ReadProgress.Vacant.of_settled {r r' : Reader} (h : r.stack.current.progress.Vacant)
    (hsettled : r'.settled = r.settled) : r'.stack.current.progress.Vacant := by
  simp only [Reader.settled, Prod.mk.injEq] at hsettled
  obtain ⟨houter, hparked, -⟩ := hsettled
  have houter := congrArg (fun o => o.2.2) houter
  exact ⟨(congrArg started houter).trans h.unbegun, (congrArg ReadProgress.container houter).trans
    h.container, (congrArg ReadProgress.key houter).trans h.key, hparked.trans h.parked⟩

namespace Read

open Step

variable {α β : Type}

/-- However a routine ends, it leaves the slots alone. -/
def Calm (p : Read α) : Prop :=
  ∀ r, Ends (fun _ r' => r'.settled = r.settled) (fun r' => r'.settled = r.settled) (p r)

namespace Calm

variable {p : Read α} {e : Error}

theorem pure (x : α) : Calm (Pure.pure x : Read α) := fun _ => rfl

theorem fail (h : e.Foreign) : Calm (Read.fail e : Read α) := fun _ => h

theorem bind {q : α → Read β} (hp : Calm p) (hq : ∀ x, Calm (q x)) : Calm (p >>= q) :=
  fun r => (hp r).bind (fun x r' h => (hq x r').mono (fun _ _ h' => h'.trans h)
    fun _ h' => h'.trans h) fun _ h => h

theorem map (g : α → β) (hp : Calm p) : Calm (g <$> p) := fun r => (hp r).map g fun _ _ h => h

theorem lift {x : Except Error α} (h : FailsWith Error.Foreign x) : Calm (Read.lift x) := by
  cases x with
  | ok x => exact .pure x
  | error e => exact .fail (h e rfl)

theorem advance (step : ReadCursor → Option (α × ReadCursor)) : Calm (Read.advance step) := by
  intro r
  rw [advance_apply]
  cases step r.cursor <;> rfl

end Calm

theorem calm_primitive (k : Primitive) : Calm (primitive k) := .advance _

theorem calm_byte : Calm byte := (calm_primitive (.int .w8 .unsigned)).map UInt8.ofBitVec

theorem calm_length (limit : Nat) : Calm (length limit) := by
  refine (calm_primitive (.int .w32 .signed)).bind fun x => ?_
  split
  · exact .pure none
  · exact (Calm.lift (Layout.foreign_checkLength limit _)).map some

theorem calm_char : Calm char := by
  refine (calm_primitive .unit).bind fun u => ?_
  split
  · exact .pure _
  · exact .fail rfl

theorem calm_uuid : Calm uuid := (Calm.advance (·.takeExact? 16)).map Layout.ofUuid

theorem calm_gather : Calm gather := by
  intro r
  rw [gather_apply]
  split <;> rfl

theorem calm_bytes (limit : Nat) : Calm (bytes limit) := by
  intro r
  cases hhead : r.stack.current.progress.headDone with
  | true =>
    rw [bytes_of_headDone limit hhead]
    exact calm_gather r
  | false =>
    rw [bytes_of_not_headDone limit (by rw [hhead]; decide)]
    refine (calm_length limit).bind (fun n => ?_) r
    cases n with
    | none => exact .pure none
    | some n => exact fun r => calm_gather (r.headed n)

theorem calm_text (limit : Nat) : Calm (text limit) := by
  refine (calm_bytes limit).bind fun bs => ?_
  cases bs with
  | none => exact .pure none
  | some bs =>
    dsimp only
    split
    · exact .pure _
    · exact .fail rfl

theorem calm_nullableUuid : Calm nullableUuid := by
  intro r
  have hunit : Calm (do
      let unit ← advance (·.takeExact? maxAtomicUnit)
      return some (Layout.ofUuid (unit.drop 1))) := (Calm.advance _).bind fun _ => .pure _
  rw [nullableUuid_apply]
  split
  · rfl
  · split
    · rfl
    · split
      · exact hunit r
      · exact rfl

/-- A computation that looks at nothing of the reader, and gives a value of which `P` holds. -/
def Gives (P : α → Prop) (p : Read α) : Prop :=
  ∀ r, Ends (fun x r' => P x ∧ r' = r) (fun _ => False) (p r)

namespace Gives

variable {P : α → Prop} {x : α}

theorem pure (h : P x) : Gives P (Pure.pure x) := fun _ => ⟨h, rfl⟩

theorem fail {e : Error} (h : e.Foreign) : Gives P (Read.fail e) := fun _ => h

theorem map {R : β → Prop} {p : Read α} (g : α → β) (hp : Gives P p) (hR : ∀ x, P x → R (g x)) :
    Gives R (g <$> p) :=
  fun r => (hp r).map g fun x _ h => ⟨hR x h.1, h.2⟩

theorem any {p : Read α} (g : α → β) (hp : Gives P p) : Gives (fun _ => True) (g <$> p) :=
  hp.map g fun _ _ => trivial

end Gives

theorem gives_required (what : Required) (x : Option α) :
    Gives (fun y => x = some y) (required what x) := by
  cases x with
  | some x => exact .pure rfl
  | none => exact .fail rfl

end Read

end WireCodec
