import WireCodec.Proofs.Reading.Messages
import WireCodec.Proofs.Units

/-!
Reading where all bytes are there: a routine takes the bytes of what it reads from the front, and
leaves those that follow. Each routine is stated with the frame that it starts from and the frame
that it leaves (`Takes`), so that routines follow one another.
-/

namespace WireCodec

/-- A reader has passed all of some bytes, at the end of which its level has a frame and nothing is
left behind below it. -/
structure Reader.Passes (r : Reader) (bs more : Bytes) (f : ReadFrame) (r' : Reader) : Prop where
  above : r'.stack.above = r.stack.above
  current : r'.stack.current = f
  cleared : r'.stack.Cleared
  cursor : r'.cursor = ⟨r.cursor.position + bs.length, more⟩

theorem Reader.passes_nil {r : Reader} {more : Bytes} {f : ReadFrame} (hf : r.stack.current = f)
    (hc : r.stack.Cleared) (hrest : r.cursor.rest = [] ++ more) : r.Passes [] more f r :=
  ⟨rfl, hf, hc, by rw [List.nil_append] at hrest; rw [← hrest]; rfl⟩

/-- From a frame, with nothing left behind below it, a routine reads a value from some bytes,
whatever follows them, and leaves another frame. -/
def Read.Takes {α : Type} (f : ReadFrame) (p : Read α) (bs : Bytes) (x : α) (g : ReadFrame) :
    Prop :=
  ∀ (r : Reader) (more : Bytes), r.stack.current = f → r.stack.Cleared →
    r.cursor.rest = bs ++ more → ∃ r', p r = .ok x r' ∧ r.Passes bs more g r'

namespace Read

open Step

variable {α β : Type} {f g h : ReadFrame} {p : Read α} {bs cs : Bytes} {x : α}

namespace Takes

theorem pure (f : ReadFrame) (x : α) : Takes f (Pure.pure x) [] x f :=
  fun r _ hf hc hrest => ⟨r, rfl, Reader.passes_nil hf hc hrest⟩

theorem bind {q : α → Read β} {y : β} (hp : Takes f p bs x g) (hq : Takes g (q x) cs y h) :
    Takes f (p >>= q) (bs ++ cs) y h := by
  intro r more hf hc hrest
  rw [List.append_assoc] at hrest
  obtain ⟨r₁, hrun, hpass⟩ := hp r (cs ++ more) hf hc hrest
  obtain ⟨r₂, hrun₂, hpass₂⟩ := hq r₁ more hpass.current hpass.cleared (by rw [hpass.cursor])
  refine ⟨r₂, (bind_ok hrun).trans hrun₂, hpass₂.above.trans hpass.above, hpass₂.current,
    hpass₂.cleared, ?_⟩
  rw [hpass₂.cursor, hpass.cursor, List.length_append, Nat.add_assoc]

/-- A routine and then one that takes nothing. -/
theorem bind_nil {q : α → Read β} {y : β} (hp : Takes f p bs x g) (hq : Takes g (q x) [] y h) :
    Takes f (p >>= q) bs y h := by
  simpa only [List.append_nil] using hp.bind hq

theorem map (u : α → β) (hp : Takes f p bs x g) : Takes f (u <$> p) bs (u x) g := by
  rw [map_eq_pure_bind]
  exact hp.bind_nil (pure g (u x))

theorem lift (f : ReadFrame) (x : α) : Takes f (Read.lift (.ok x)) [] x f := pure f x

theorem modifyFrame (u : ReadFrame → ReadFrame) (f : ReadFrame) :
    Takes f (Read.modifyFrame u) [] () (u f) := by
  intro r more hf hc hrest
  exact ⟨_, rfl, rfl, congrArg u hf, hc, by rw [List.nil_append] at hrest; rw [← hrest]; rfl⟩

theorem modifyProgress (u : ReadProgress → ReadProgress) (f : ReadFrame) :
    Takes f (Read.modifyProgress u) [] () { f with progress := u f.progress } :=
  modifyFrame _ f

theorem progress_bind {q : ReadProgress → Read α} (hq : Takes f (q f.progress) bs x g) :
    Takes f (Read.progress >>= q) bs x g := by
  intro r more hf hc hrest
  rw [Read.progress_bind, hf]
  exact hq r more hf hc hrest

theorem advance {step : ReadCursor → Option (α × ReadCursor)} (f : ReadFrame)
    (h : ∀ (c : ReadCursor) more, c.rest = bs ++ more →
      step c = some (x, ⟨c.position + bs.length, more⟩)) : Takes f (Read.advance step) bs x f := by
  intro r more hf hc hrest
  refine ⟨{ r with cursor := ⟨r.cursor.position + bs.length, more⟩ }, ?_, rfl, hf, hc, rfl⟩
  rw [advance_apply, h r.cursor more hrest]

end Takes

/-! ## Numbers, lengths and characters -/

theorem takes_takeExact (f : ReadFrame) {n : Nat} (hn : bs.length = n) :
    Takes f (advance (·.takeExact? n)) bs bs f :=
  .advance f fun _ _ h => ReadCursor.takeExact?_append hn h

theorem takes_primitive (f : ReadFrame) (k : Primitive) (x : k.Val) :
    Takes f (primitive k) (k.encode x) x f := by
  refine .advance f fun c more h => ?_
  rw [ReadCursor.take?, ReadCursor.takeExact?_append (k.length_encode x) h]
  simp only [Option.map_some, Primitive.decode_encode]

theorem takes_byte (f : ReadFrame) (b : UInt8) : Takes f byte [b] b f := by
  have hbytes : Primitive.encode (.int .w8 .unsigned) b.toBitVec = [b] := by
    have hlt : b.toNat % 256 = b.toNat := Nat.mod_eq_of_lt b.toNat_lt
    simp only [Primitive.encode, Width.size, LittleEndian.toBytes, UInt8.toNat_toBitVec, hlt,
      UInt8.ofNat_toNat]
  have hread := (takes_primitive f (.int .w8 .unsigned) b.toBitVec).map UInt8.ofBitVec
  rw [hbytes] at hread
  exact hread

theorem takes_length (f : ReadFrame) {limit n : Nat} (hn : n ≤ limit)
    (hlimit : limit ≤ Encode.maxLength) :
    Takes f (length limit) (LittleEndian.toBytes 4 n) (some n) f := by
  have hlt : n < 2147483648 := Nat.lt_succ_of_le (Nat.le_trans hn hlimit)
  have hnat : (BitVec.ofNat 32 n).toNat = n := by
    rw [BitVec.toNat_ofNat]
    exact Nat.mod_eq_of_lt (by omega)
  have hint : (BitVec.ofNat 32 n).toInt = n := by
    rw [BitVec.toInt_eq_toNat_of_lt (by omega), hnat]
  have hbytes : Primitive.encode (.int .w32 .signed) (BitVec.ofNat 32 n) =
      LittleEndian.toBytes 4 n := by
    change LittleEndian.toBytes 4 (BitVec.ofNat 32 n).toNat = _
    rw [hnat]
  have hread := takes_primitive f (.int .w32 .signed) (BitVec.ofNat 32 n)
  rw [hbytes] at hread
  refine hread.bind_nil ?_
  rw [hint, if_neg (by rw [Layout.nullLength]; omega), Layout.checkLength_of_le hn]
  exact .map some (.lift f n)

theorem takes_null (f : ReadFrame) (limit : Nat) :
    Takes f (length limit) Layout.nullLengthBytes none f := by
  have hread := takes_primitive f (.int .w32 .signed) (BitVec.ofInt 32 (-1))
  exact hread.bind_nil (.pure f none)

theorem takes_char (f : ReadFrame) {c : Char} (h : Encode.char c = .ok bs) :
    Takes f char bs c f := by
  rw [Encode.char] at h
  cases hu : Utf16.unitOfChar? c with
  | none => rw [hu] at h; cases h
  | some u =>
    rw [hu] at h
    cases h
    refine (takes_primitive f .unit u).bind_nil ?_
    rw [Utf16.charOfUnit?_of_unitOfChar? hu]
    exact .pure f c

end Read

namespace ReadFrame

/-- The frame once the length of a byte string is known. -/
def headed (f : ReadFrame) (n : Nat) : ReadFrame :=
  { f with progress := { f.progress with headDone := true, length := n } }

/-- No item is in flight. -/
structure Idle (f : ReadFrame) : Prop where
  unmarked : f.progress.headDone = false
  unmeasured : f.progress.length = 0
  ungathered : f.progress.gathered = #[]
  unparked : f.progress.parked = none

theorem Idle.emptied_eq {f : ReadFrame} (h : f.Idle) : { f with progress :=
    { f.progress with headDone := false, length := 0, gathered := #[] } } = f := by
  rw [← h.unmarked, ← h.unmeasured, ← h.ungathered]

end ReadFrame

namespace Read

open Step

variable {f : ReadFrame} {bs : Bytes} {limit : Nat}

/-! ## Byte strings -/

theorem takes_gather (hf : f.Idle) (bs : Bytes) :
    Takes (f.headed bs.length) gather bs (some bs) f := by
  intro r more hr hc hrest
  have hmissing : r.missing = bs.length := by
    rw [Reader.missing, hr]
    change bs.length - f.progress.gathered.size = _
    rw [hf.ungathered]
    rfl
  have hgathered : r.stack.current.progress.gathered = #[] := by
    rw [hr]
    exact hf.ungathered
  have hfits : ¬ r.cursor.rest.length < bs.length := by
    rw [hrest, List.length_append]
    omega
  refine ⟨(r.gathered r.missing).emptied, ?_, rfl, ?_, hc, ?_⟩
  · rw [gather_apply, hmissing, if_neg hfits, hrest, List.take_left, hgathered]
    rfl
  · refine Eq.trans ?_ hf.emptied_eq
    change { r.stack.current with progress := { r.stack.current.progress with
      headDone := false, length := 0, gathered := #[] } } = _
    rw [hr]
    rfl
  · change (r.cursor.takePartial r.missing).2 = _
    rw [ReadCursor.takePartial, hmissing, hrest, List.take_left, List.drop_left]

theorem takes_bytes (hf : f.Idle) (hn : bs.length ≤ limit) (hlimit : limit ≤ Encode.maxLength) :
    Takes f (bytes limit) (LittleEndian.toBytes 4 bs.length ++ bs) (some bs) f := by
  intro r more hr hc hrest
  rw [bytes_of_not_headDone limit (by rw [hr, hf.unmarked]; nofun)]
  have hbegin : Takes f (beginBytes bs.length) bs (some bs) f :=
    (Takes.modifyProgress _ f).bind (takes_gather hf bs)
  exact (takes_length f hn hlimit).bind hbegin r more hr hc hrest

theorem takes_bytes_null (hf : f.Idle) (limit : Nat) :
    Takes f (bytes limit) Layout.nullLengthBytes none f := by
  intro r more hr hc hrest
  rw [bytes_of_not_headDone limit (by rw [hr, hf.unmarked]; nofun)]
  refine (takes_null f limit).bind_nil ?_ r more hr hc hrest
  exact .pure f none

/-! ## Ids -/

theorem takes_uuid (f : ReadFrame) (u : Uuid) : Takes f uuid (Layout.uuid u) u f := by
  refine (takes_takeExact f (Layout.length_uuid u)).bind_nil ?_
  rw [Layout.ofUuid_uuid]
  exact .pure f u

theorem takes_nullableUuid (f : ReadFrame) (u : Option Uuid) :
    Takes f nullableUuid (Layout.nullableUuid u) u f := by
  intro r more hr hc hrest
  cases u with
  | none =>
    have hrest : r.cursor.rest = Layout.absent :: more := hrest
    refine ⟨{ r with cursor := r.cursor.advance 1 }, ?_, rfl, hr, hc, ?_⟩
    · simp only [nullableUuid_apply, hrest, if_true]
    · simp [ReadCursor.advance, hrest, Layout.nullableUuid]
  | some u =>
    have hmarker : Layout.present ≠ Layout.absent := by decide
    have hrest' : r.cursor.rest = Layout.present :: (Layout.uuid u ++ more) := hrest
    have hlength : (Layout.nullableUuid (some u)).length = maxAtomicUnit := by
      rw [Layout.nullableUuid, List.length_cons, Layout.length_uuid]
      rfl
    simp only [nullableUuid_apply, hrest', if_neg hmarker, if_true]
    refine (takes_takeExact f hlength).bind_nil ?_ r more hr hc hrest
    rw [Layout.nullableUuid, List.drop_one, List.tail_cons, Layout.ofUuid_uuid]
    exact .pure f (some u)

theorem takes_counter (f : ReadFrame) (g : GridId) :
    Takes f (counter g.node) (Encode.int64 g.counter.toBitVec) (some g) f := by
  intro r more hr hc hrest
  have htake : r.cursor.take? (.int .w64 .signed) = some (g.counter.toBitVec,
      ⟨r.cursor.position + (Encode.int64 g.counter.toBitVec).length, more⟩) := by
    have hlength : (Encode.int64 g.counter.toBitVec).length = (Primitive.int .w64 .signed).size :=
      Primitive.length_encode (.int .w64 .signed) g.counter.toBitVec
    rw [ReadCursor.take?, ReadCursor.takeExact?_append hlength hrest]
    have hdecode := Primitive.decode_encode (.int .w64 .signed) g.counter.toBitVec
    exact congrArg (fun x => some (x, _)) hdecode
  refine ⟨{ r with cursor := ⟨r.cursor.position + _, more⟩ }, ?_, rfl, hr, hc, rfl⟩
  rw [counter_apply, htake]
  rfl

theorem takes_grid_of_fresh (hf : f.Idle) {g : Option GridId} (h : Takes f freshGrid bs g f) :
    Takes f grid bs g f := by
  intro r more hr hc hrest
  have hparked : r.stack.current.progress.parked = none := by rw [hr, hf.unparked]
  rw [grid_apply, hparked, Reader.unpark_eq_self hparked]
  exact h r more hr hc hrest

theorem takes_grid (hf : f.Idle) (g : GridId) : Takes f grid
    (Layout.nullableUuid (some g.node) ++ Encode.int64 g.counter.toBitVec) (some g) f := by
  have hfresh : Takes f freshGrid _ (some g) f :=
    (takes_nullableUuid f (some g.node)).bind (takes_counter f g)
  exact takes_grid_of_fresh hf hfresh

theorem takes_grid_none (hf : f.Idle) : Takes f grid (Layout.nullableUuid none) none f := by
  have hfresh : Takes f freshGrid _ none f := (takes_nullableUuid f none).bind_nil (.pure f none)
  exact takes_grid_of_fresh hf hfresh

end Read

end WireCodec
