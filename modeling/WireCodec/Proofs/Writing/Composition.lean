import WireCodec.Proofs.Units
import WireCodec.Proofs.Writing.Messages

/-!
# What holds of all writing within a level

A property of routines that holds of the few they are made of, and that composing routines keeps,
holds of writing any field, if it holds of writing the messages in it. One proof of this goes
through all kinds of fields, and serves every such property. What is written as a whole are units,
which are small; a byte string may be cut anywhere.
-/

namespace WireCodec

/-! ## Units -/

theorem Layout.length_nullableUuid_le (u : Option Uuid) :
    (nullableUuid u).length ≤ maxAtomicUnit := by
  cases u with
  | none => decide
  | some u =>
    rw [nullableUuid, List.length_cons, length_uuid]
    exact Nat.le_refl maxAtomicUnit

theorem Layout.length_length_le {n : Nat} {bs : Bytes} (h : length n = .ok bs) :
    bs.length ≤ maxAtomicUnit := by
  rw [length] at h
  split at h
  · cases h
    rw [LittleEndian.length_toBytes]
    decide
  · cases h

theorem Primitive.length_encode_le (k : Primitive) (x : k.Val) :
    (k.encode x).length ≤ maxAtomicUnit := by
  rw [length_encode]
  exact k.size_le

theorem Encode.length_char_le {c : Char} {bs : Bytes} (h : Encode.char c = .ok bs) :
    bs.length ≤ maxAtomicUnit := by
  rw [char] at h
  split at h
  · cases h
    exact Primitive.length_encode_le .unit _
  · cases h

namespace Write

/-- A property of routines that composing keeps, and that holds of writing a unit and a byte
string. -/
structure Compositional (P : ∀ {α : Type}, Write α → Prop) : Prop where
  pure {α : Type} (x : α) : P (Pure.pure x : Write α)
  fail {α : Type} (e : Error) : P (Write.fail e : Write α)
  bind {α β : Type} {p : Write α} {q : α → Write β} (hp : P p) (hq : ∀ x, P (q x)) : P (p >>= q)
  progress {α : Type} {q : WriteProgress → Write α} (hq : ∀ p, P (q p)) : P (Write.progress >>= q)
  modifyProgress (g : WriteProgress → WriteProgress) : P (Write.modifyProgress g)
  put {bs : Bytes} (h : bs.length ≤ maxAtomicUnit) : P (Write.put bs)
  stream (bs : Bytes) : P (Write.stream bs)
  /-- to tell where it is -/
  probe : P (do
    let w ← get
    Write.put (Layout.probe w.stack.depth w.cursor.remaining))

namespace Compositional

variable {P : ∀ {α : Type}, Write α → Prop} {α β : Type} {nested : Message → Write Unit}
  (h : Compositional P)

include h

/-! ## Items -/

theorem lift (x : Except Error α) : P (Write.lift x) := by
  cases x with
  | ok x => exact h.pure x
  | error e => exact h.fail e

theorem putUnit {x : Except Error Bytes} (hx : ∀ bs, x = .ok bs → bs.length ≤ maxAtomicUnit) :
    P (do Write.put (← Write.lift x)) := by
  cases x with
  | ok bs => exact h.put (hx bs rfl)
  | error e => exact h.fail e

theorem once (seen : WriteProgress → Bool) {p : Write Unit} (hp : P p) :
    P (WireCodec.once (fun w => seen w.stack.current.progress) p) := by
  refine h.progress (q := fun q => if seen q then Pure.pure () else p) fun q => ?_
  split
  · exact h.pure ()
  · exact hp

theorem forEach {step : β → Write Unit} {xs : List β} (hstep : ∀ x ∈ xs, P (step x)) :
    P (WireCodec.forEach step xs) := by
  induction xs with
  | nil => exact h.pure ()
  | cons x xs ih =>
    obtain ⟨hx, hxs⟩ := List.forall_mem_cons.mp hstep
    exact h.bind hx fun _ => ih hxs

theorem putLength (n : Nat) : P (Write.putLength n) :=
  h.putUnit fun _ => Layout.length_length_le

theorem putChunk (bs : Bytes) : P (Write.putChunk bs) := by
  rw [putChunk_eq]
  exact h.bind (h.once WriteProgress.headDone (h.bind (h.putLength _) fun _ => h.modifyProgress _))
    fun _ => h.stream bs

theorem putBytes (bs : Option Bytes) : P (Write.putBytes bs) := by
  cases bs with
  | none => exact h.put (by decide)
  | some bs => exact h.putChunk bs

theorem putChar (c : Char) : P (Write.putChar c) := h.putUnit fun _ => Encode.length_char_le

theorem putGrid (g : Option GridId) : P (Write.putGrid g) := by
  cases g with
  | some g =>
    rw [putGrid_eq]
    refine h.bind (h.once WriteProgress.headDone ?_) fun _ => ?_
    · exact h.bind (h.put (Layout.length_nullableUuid_le _)) fun _ => h.modifyProgress _
    · refine h.bind (h.put ?_) fun _ => h.modifyProgress _
      exact Primitive.length_encode_le (.int .w64 .signed) _
  | none =>
    have heq : Write.putGrid none = Write.progress >>= fun p =>
        if p.headDone then Write.fail .fieldChanged else Write.put (Layout.nullableUuid none) := by
      funext w
      rw [putGrid_none_apply, progress_bind, headDone]
      split
      · rfl
      · rfl
    rw [heq]
    refine h.progress fun p => ?_
    split
    · exact h.fail _
    · exact h.put (by decide)

theorem putStaged (encoded : Except Error Bytes) : P (Write.putStaged encoded) := by
  refine h.progress fun p => ?_
  cases p.staged with
  | some bs => exact h.putChunk bs
  | none =>
    refine h.bind (h.lift encoded) fun bs => h.bind (h.modifyProgress _) fun _ => ?_
    exact h.putChunk bs

theorem putItem {x : Item} (hn : ∀ m ∈ x.messages, P (nested m)) :
    P (Write.putItem nested x) := by
  cases x with
  | primitive k x => exact h.put (k.length_encode_le x)
  | char c => exact h.putChar c
  | text s => exact h.putChunk _
  | uuid u => exact h.put (by rw [Layout.length_uuid, maxAtomicUnit]; decide)
  | grid g => exact h.putGrid _
  | message m => exact hn m (List.mem_singleton_self m)

/-! ## Lists, maps and fields -/

theorem listStep {x : Item} (hn : ∀ m ∈ x.messages, P (nested m)) :
    P (Write.listStep nested x) :=
  h.bind (h.putItem hn) fun _ => h.modifyProgress _

theorem entryStep {e : Item × Item} (hn : ∀ m ∈ e.1.messages ++ e.2.messages, P (nested m)) :
    P (Write.entryStep nested e) := by
  have hkey := h.putItem fun m hm => hn m (List.mem_append_left _ hm)
  have hvalue := h.putItem fun m hm => hn m (List.mem_append_right _ hm)
  refine h.bind (h.once WriteProgress.keyDone ?_) fun _ => ?_
  · exact h.bind hkey fun _ => h.modifyProgress _
  · exact h.bind hvalue fun _ => h.modifyProgress _

theorem counting {step : β → Write Unit} {xs : List β} (hstep : ∀ x ∈ xs, P (step x)) (n : Nat) :
    P (do
      WireCodec.once started (writeCount n)
      forEachFrom index step xs) := by
  have hfrom : P (forEachFrom index step xs) :=
    h.progress (q := fun p => WireCodec.forEach step (xs.drop p.index)) fun p =>
      h.forEach fun x hx => hstep x (List.mem_of_mem_drop hx)
  refine h.bind (h.once WriteProgress.started ?_) fun _ => hfrom
  exact h.bind (h.putLength n) fun _ => h.modifyProgress _

theorem putList {items : Option (List Item)}
    (hn : ∀ xs, items = some xs → ∀ x ∈ xs, ∀ m ∈ x.messages, P (nested m)) :
    P (Write.putList nested items) := by
  cases items with
  | none => exact h.put (by decide)
  | some xs =>
    rw [putList_eq]
    exact h.counting (fun x hx => h.listStep (hn xs rfl x hx)) _

theorem putMap {entries : Option (List (Item × Item))}
    (hn : ∀ es, entries = some es → ∀ e ∈ es, ∀ m ∈ e.1.messages ++ e.2.messages, P (nested m)) :
    P (Write.putMap nested entries) := by
  cases entries with
  | none => exact h.put (by decide)
  | some es =>
    rw [putMap_eq]
    exact h.counting (fun e he => h.entryStep (hn es rfl e he)) _

theorem putField (m : Marshaller) {f : Field} (hn : ∀ msg ∈ f.messages, P (nested msg))
    (hstuck : f = .stuck → P (throw .suspended : Write Unit)) : P (Write.putField nested m f) := by
  cases f with
  | primitive k x => exact h.put (k.length_encode_le x)
  | char c => exact h.putChar c
  | text s => exact h.putBytes _
  | bytes bs => exact h.putBytes bs
  | uuid u => exact h.put (Layout.length_nullableUuid_le u)
  | grid g => exact h.putGrid g
  | bits s =>
    refine h.putList fun xs hxs x hx msg hmsg => ?_
    obtain ⟨s, -, rfl⟩ := Option.map_eq_some_iff.mp hxs
    obtain ⟨word, -, rfl⟩ := List.mem_map.mp hx
    cases hmsg
  | value v =>
    rw [Write.putField]
    split
    · exact h.put (by decide)
    · exact h.putStaged _
  | object t x => exact h.putStaged (m.marshalErased t x)
  | message msg =>
    cases msg with
    | none => exact h.put (by decide)
    | some msg => exact hn msg (List.mem_singleton_self msg)
  | list items =>
    refine h.putList fun xs hxs x hx msg hmsg => hn msg ?_
    subst hxs
    exact List.mem_flatMap.mpr ⟨x, hx, hmsg⟩
  | map entries =>
    refine h.putMap fun es hes e he msg hmsg => hn msg ?_
    subst hes
    exact List.mem_flatMap.mpr ⟨e, he, hmsg⟩
  | stuck => exact hstuck rfl
  | probe readings => exact h.probe
  | skipped initial content => exact h.pure ()

end Compositional

end Write

end WireCodec
