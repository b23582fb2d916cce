import WireCodec.Proofs.Reading.Steps

/-!
The routines of the reader that read one item: none looks beyond the bytes it takes, each keeps
what belongs to the list, the map or the field around the item (`Reader.outer`), and each can be
taken up again where it stopped (`Item`).
-/

namespace WireCodec

theorem ReadCursor.splitExact?_eq (n : Nat) (bs : Bytes) :
    splitExact? n bs = if n ≤ bs.length then some (bs.take n, bs.drop n) else none := by
  induction n generalizing bs with
  | zero => simp [splitExact?]
  | succ n ih =>
    cases bs with
    | nil => simp [splitExact?]
    | cons b bs =>
      rw [splitExact?, ih]
      split <;> simp_all

theorem ReadCursor.takeExact?_eq (c : ReadCursor) (n : Nat) :
    c.takeExact? n = if n ≤ c.rest.length
      then some (c.rest.take n, ⟨c.position + n, c.rest.drop n⟩) else none := by
  rw [takeExact?, splitExact?_eq]
  split <;> rfl

/-- A unit is not taken exactly where not all of it is there. -/
theorem ReadCursor.takeExact?_eq_none_iff {c : ReadCursor} {n : Nat} :
    c.takeExact? n = none ↔ c.remaining < n := by
  rw [takeExact?_eq]
  split
  case isTrue hfits => exact iff_of_false nofun (Nat.not_lt.mpr hfits)
  case isFalse hshort => exact iff_of_true rfl (Nat.lt_of_not_le hshort)

theorem ReadCursor.takeExact?_append {c : ReadCursor} {n : Nat} {bs more : Bytes}
    (hn : bs.length = n) (h : c.rest = bs ++ more) :
    c.takeExact? n = some (bs, ⟨c.position + bs.length, more⟩) := by
  rw [takeExact?_eq, h, List.take_left' hn, List.drop_left' hn, if_pos, hn]
  rw [List.length_append]
  omega

theorem ReadCursor.takeExact?_extend {c c' : ReadCursor} {n : Nat} {taken : Bytes}
    (h : c.takeExact? n = some (taken, c')) (d : Nat) (bs : Bytes) :
    (c.extend d bs).takeExact? n = some (taken, c'.extend d bs) := by
  rw [takeExact?_eq] at h ⊢
  split at h
  case isFalse => cases h
  case isTrue hn =>
    simp only [Option.some.injEq, Prod.mk.injEq] at h
    obtain ⟨rfl, rfl⟩ := h
    have hn' : n ≤ (c.rest ++ bs).length := by rw [List.length_append]; omega
    simp only [extend, if_pos hn', List.take_append_of_le_length hn,
      List.drop_append_of_le_length hn, Option.some.injEq, Prod.mk.injEq, ReadCursor.mk.injEq,
      true_and, and_true]
    omega

theorem ReadCursor.takeExact?_precedes {c c' : ReadCursor} {n : Nat} {taken : Bytes}
    (h : c.takeExact? n = some (taken, c')) : c.Precedes c' := by
  rw [takeExact?_eq] at h
  split at h
  case isFalse => cases h
  case isTrue hn =>
    cases h
    exact ⟨c.rest.take n, (List.take_append_drop n _).symm, by simp [List.length_take, hn]⟩

theorem ReadCursor.take?_precedes {c c' : ReadCursor} {k : Primitive} {x : k.Val}
    (h : c.take? k = some (x, c')) : c.Precedes c' := by
  obtain ⟨⟨taken, c''⟩, h, heq⟩ := Option.map_eq_some_iff.mp h
  cases heq
  exact takeExact?_precedes h

theorem ReadCursor.takePartial_precedes (c : ReadCursor) (n : Nat) :
    c.Precedes (c.takePartial n).2 :=
  ⟨c.rest.take n, (List.take_append_drop n _).symm, rfl⟩

theorem ReadCursor.takeExact?_shift {c : ReadCursor} {n : Nat} (h : c.takeExact? n = none)
    (d : Nat) : (c.extend d []).takeExact? n = none := by
  rw [takeExact?_eq] at h ⊢
  split at h
  · cases h
  · simp_all [extend]

theorem ReadCursor.takeExact?_exceeds {c c' : ReadCursor} {n : Nat} {bs taken : Bytes}
    (h : c.takeExact? n = none) (h' : (c.extend 0 bs).takeExact? n = some (taken, c')) :
    c.Exceeds c' := by
  rw [takeExact?_eq] at h h'
  split at h
  · cases h
  · split at h'
    · cases h'
      simp only [Exceeds, extend]
      omega
    · cases h'

/-- The progress of the field in flight less what belongs to the item in flight. -/
def ReadProgress.outer (p : ReadProgress) : ReadProgress :=
  { p with headDone := false, length := 0, gathered := #[], parked := none }

/-- What a routine that reads an item leaves alone: the levels above, the fields read, and how far
the list or the map around the item is read. -/
def FrameStack.outer (s : FrameStack ReadFrame) : List ReadFrame × List Field × ReadProgress :=
  (s.above, s.current.fields, s.current.progress.outer)

/-- What a routine that reads an item leaves alone of a reader. -/
def Reader.outer (r : Reader) : List ReadFrame × List Field × ReadProgress := r.stack.outer

/-- The reader with nothing set aside in its current frame. -/
def Reader.unpark (r : Reader) : Reader :=
  { r with stack := r.stack.modify unparked }
where
  /-- A frame with nothing set aside. -/
  unparked (f : ReadFrame) : ReadFrame := { f with progress := { f.progress with parked := none } }

/-- The reader with something set aside in its current frame. -/
def Reader.park (r : Reader) (x : Parked) : Reader :=
  { r with stack := r.stack.modify fun f =>
    { f with progress := { f.progress with parked := some x } } }

/-- The number of bytes that are missing of the byte string in flight. -/
def Reader.missing (r : Reader) : Nat :=
  r.stack.current.progress.length - r.stack.current.progress.gathered.size

/-- The reader once the length of a byte string is known. -/
def Reader.headed (r : Reader) (n : Nat) : Reader :=
  { r with stack := r.stack.modify fun f => { f with progress :=
    { f.progress with headDone := true, length := n } } }

/-- The reader after taking up to `n` bytes of the byte string in flight. -/
def Reader.gathered (r : Reader) (n : Nat) : Reader where
  stack := r.stack.modify fun f => { f with progress :=
    { f.progress with gathered := f.progress.gathered ++ r.cursor.rest.take n } }
  cursor := (r.cursor.takePartial n).2

/-- The reader after the byte string in flight is taken out of its frame. -/
def Reader.emptied (r : Reader) : Reader :=
  { r with stack := r.stack.modify fun f => { f with progress :=
    { f.progress with headDone := false, length := 0, gathered := #[] } } }

theorem Reader.missing_extend (r : Reader) (d : Nat) (bs : Bytes) :
    (r.extend d bs).missing = r.missing := rfl

theorem Reader.unpark_extend (r : Reader) (d : Nat) (bs : Bytes) :
    (r.extend d bs).unpark = r.unpark.extend d bs := rfl

theorem Reader.unpark_parked (r : Reader) : r.unpark.stack.current.progress.parked = none := rfl

theorem Reader.unpark_eq_self {r : Reader} (h : r.stack.current.progress.parked = none) :
    r.unpark = r := by
  obtain ⟨⟨above, ⟨fields, progress⟩, below⟩, cursor⟩ := r
  obtain ⟨started, expected, index, container, key, headDone, length, gathered, parked⟩ := progress
  cases h
  rfl

theorem Reader.Steady.unpark {r : Reader} (h : r.Steady) : r.unpark.Steady :=
  FrameStack.All.modify h fun _ _ hs => nomatch hs

theorem Reader.Steady.park {r : Reader} (h : r.Steady) {x : Parked}
    (hx : ∀ s, x = .message s → s.Steady) : (r.park x).Steady :=
  ⟨h.above, fun s hs => hx s (Option.some.inj hs), h.below⟩

theorem Reader.Steady.headed {r : Reader} (h : r.Steady) {n : Nat} : (r.headed n).Steady :=
  ⟨h.above, h.current, h.below⟩

theorem Reader.Steady.gathered {r : Reader} (h : r.Steady) (n : Nat) : (r.gathered n).Steady :=
  ⟨h.above, h.current, h.below⟩

theorem Reader.Steady.emptied {r : Reader} (h : r.Steady) : r.emptied.Steady :=
  ⟨h.above, h.current, h.below⟩

namespace Read

open Step

variable {α : Type} {r r' : Reader}

/-- A routine that leaves all frames alone leaves alone what is around an item. -/
theorem outer_of_stack {p : Read α} (h : Resumable Reader.stack p) : Resumable Reader.outer p :=
  h.comp FrameStack.outer

theorem resumable_takeExact {β : Type} (n : Nat) (f : Bytes → β) :
    Resumable Reader.stack (advance fun c => (c.takeExact? n).map fun (bs, c) => (f bs, c)) where
  extension := by
    refine extends_advance (fun {c x c'} h => ?_) fun {c} h => ?_
    · obtain ⟨⟨taken, c₁⟩, h₁, h₂⟩ := Option.map_eq_some_iff.mp h
      cases h₂
      refine ⟨ReadCursor.takeExact?_precedes h₁, fun d bs => ?_⟩
      rw [ReadCursor.takeExact?_extend h₁]
      rfl
    · rw [Option.map_eq_none_iff] at h
      refine ⟨fun d => ?_, fun {bs x c'} h' => ?_⟩
      · rw [Option.map_eq_none_iff]
        exact ReadCursor.takeExact?_shift h d
      · obtain ⟨⟨taken, c₁⟩, h₁, h₂⟩ := Option.map_eq_some_iff.mp h'
        cases h₂
        exact ReadCursor.takeExact?_exceeds h h₁
  frame := keeps_advance _
  resumption := .of_still (still_advance _)

theorem resumable_primitive (k : Primitive) : Resumable Reader.stack (primitive k) :=
  resumable_takeExact k.size k.decode

theorem resumable_byte : Resumable Reader.stack byte :=
  (resumable_primitive (.int .w8 .unsigned)).map UInt8.ofBitVec

theorem still_byte : Still byte := (still_advance _).map _

theorem settled_length {δ : Type} {f : Reader → δ} (limit : Nat) (x : BitVec 32) : Settled f
    (if x.toInt = Layout.nullLength then pure none
      else some <$> lift (Layout.checkLength limit x.toInt)) := by
  split
  · exact .pure none
  · exact (settled_lift _).map some

theorem resumable_length (limit : Nat) : Resumable Reader.stack (length limit) :=
  (resumable_primitive _).bind_settled (settled_length limit)

theorem still_length (limit : Nat) : Still (length limit) :=
  (still_advance _).bind_settles fun x =>
    (settled_length (f := Reader.stack) limit x).settles

theorem resumable_char : Resumable Reader.stack char := by
  refine (resumable_primitive _).bind_settled fun u => ?_
  split
  · exact .pure _
  · exact .fail _

theorem resumable_uuid : Resumable Reader.stack uuid := by
  have h : Resumable Reader.stack (advance (·.takeExact? 16)) := by
    simpa using resumable_takeExact 16 id
  exact h.map Layout.ofUuid

/-! ## Byte strings -/

/-- Takes a byte string out of the frame it was gathered in. -/
def store : Read (Option Bytes) := do
  let gathered := (← progress).gathered
  modifyProgress fun p => { p with headDone := false, length := 0, gathered := #[] }
  return some gathered.toList

/-- Reads what is still to come of a byte string whose length is known. -/
def gather : Read (Option Bytes) := do
  let p ← progress
  let wanted := p.length - p.gathered.size
  let r ← get
  let (taken, cursor) := r.cursor.takePartial wanted
  set { r with cursor }
  modifyProgress fun p => { p with gathered := p.gathered ++ taken }
  if taken.length < wanted then throw .suspended
  store

theorem bytes_eq (limit : Nat) : bytes limit = (do
    if (← progress).headDone then gather
    else
      match ← length limit with
      | none => return none
      | some n =>
        modifyProgress fun p => { p with headDone := true, length := n }
        gather) := rfl

theorem gather_apply (r : Reader) :
    gather r = if r.cursor.rest.length < r.missing then .error .suspended (r.gathered r.missing)
      else .ok (some (r.stack.current.progress.gathered.toList ++ r.cursor.rest.take r.missing))
        (r.gathered r.missing).emptied := by
  have hcond : (r.cursor.rest.take r.missing).length < r.missing ↔
      r.cursor.rest.length < r.missing := by
    rw [List.length_take]
    omega
  have hrun : gather r = (if (r.cursor.rest.take r.missing).length < r.missing
      then (throw .suspended >>= fun _ : Unit => store) else store) (r.gathered r.missing) := rfl
  rw [hrun]
  by_cases h : r.cursor.rest.length < r.missing
  · rw [if_pos h, if_pos (hcond.mpr h)]
    rfl
  · rw [if_neg h, if_neg (mt hcond.mp h), store, progress_bind, modifyProgress_bind, pure_apply]
    simp [Reader.gathered, Reader.emptied, FrameStack.modify]

theorem gathered_extend {n : Nat} {bs : Bytes} (h : n ≤ r.cursor.rest.length ∨ bs = []) (d : Nat) :
    (r.extend d bs).gathered n = (r.gathered n).extend d bs := by
  have htake : (r.cursor.rest ++ bs).take n = r.cursor.rest.take n := by
    rcases h with h | rfl
    · exact List.take_append_of_le_length h
    · rw [List.append_nil]
  have hdrop : (r.cursor.rest ++ bs).drop n = r.cursor.rest.drop n ++ bs := by
    rcases h with h | rfl
    · exact List.drop_append_of_le_length h
    · rw [List.append_nil, List.append_nil]
  simp only [Reader.gathered, Reader.extend, ReadCursor.extend, ReadCursor.takePartial, htake,
    hdrop, Nat.add_right_comm]

theorem missing_gathered {n : Nat} (h : r.cursor.rest.length ≤ n) :
    (r.gathered n).missing = r.missing - r.cursor.rest.length := by
  have hall : r.cursor.rest.take n = r.cursor.rest := List.take_of_length_le h
  have hsize : (r.gathered n).stack.current.progress.gathered.size =
      r.stack.current.progress.gathered.size + r.cursor.rest.length := by
    rw [← Array.length_toList]
    simp [Reader.gathered, FrameStack.modify, hall]
  rw [Reader.missing, hsize]
  exact Nat.sub_add_eq ..

/-- Taking what there is now and the rest later is taking all of it later. -/
theorem gathered_gathered {n : Nat} (h : r.cursor.rest.length ≤ n) (bs : Bytes) :
    ((r.gathered n).extend 0 bs).gathered (n - r.cursor.rest.length) =
      (r.extend 0 bs).gathered n := by
  have hall : r.cursor.rest.take n = r.cursor.rest := List.take_of_length_le h
  have hnone : r.cursor.rest.drop n = [] := List.drop_of_length_le h
  have happend (xs : Array UInt8) (as bs : Bytes) : xs ++ (as ++ bs) = xs ++ as ++ bs :=
    Array.ext' (by simp)
  simp only [Reader.gathered, Reader.extend, ReadCursor.extend, ReadCursor.takePartial, hall, hnone,
    FrameStack.modify, List.take_append, List.drop_append, happend, List.nil_append,
    List.length_append, Nat.add_zero, Nat.add_assoc]

theorem resumable_gather : Resumable Reader.outer gather where
  extension := by
    intro r hr
    have hc : r.cursor.Precedes (r.gathered r.missing).cursor :=
      ReadCursor.takePartial_precedes _ _
    by_cases h : r.cursor.rest.length < r.missing
    · have hrun (d : Nat) : gather (r.extend d []) =
          .error .suspended ((r.gathered r.missing).extend d []) := by
        have h' : (r.extend d []).cursor.rest.length < (r.extend d []).missing := by
          rwa [Reader.extend_cursor, ReadCursor.extend, List.append_nil]
        rw [gather_apply, if_pos h', Reader.missing_extend, gathered_extend (.inr rfl)]
      refine extendsAt_of_suspended (hr.gathered _) hc hrun fun {bs x t} ht => ?_
      rw [gather_apply, Reader.missing_extend] at ht
      split at ht
      · cases ht
      · next hlt =>
        cases ht
        rw [Reader.extend_cursor, ReadCursor.extend, List.length_append] at hlt
        change r.cursor.position + _ < r.cursor.position + 0 + (List.take _ (_ ++ bs)).length
        rw [List.length_take, List.length_append]
        omega
    · have hrun (d : Nat) (bs : Bytes) : gather (r.extend d bs) =
          .ok (some (r.stack.current.progress.gathered.toList ++ r.cursor.rest.take r.missing))
            ((r.gathered r.missing).emptied.extend d bs) := by
        have hle := Nat.le_of_not_lt h
        have h' : ¬ (r.extend d bs).cursor.rest.length < (r.extend d bs).missing := by
          rw [Reader.extend_cursor, ReadCursor.extend, List.length_append, Reader.missing_extend]
          omega
        have htake : (r.extend d bs).cursor.rest.take r.missing = r.cursor.rest.take r.missing :=
          List.take_append_of_le_length hle
        rw [gather_apply, if_neg h', Reader.missing_extend, gathered_extend (.inl hle), htake]
        rfl
      exact extendsAt_of_ok _ (hr.gathered _).emptied hc hrun
  frame := by
    intro r
    rw [gather_apply]
    by_cases h : r.cursor.rest.length < r.missing
    · rw [if_pos h]; rfl
    · rw [if_neg h]; rfl
  resumption := by
    refine resumes_iff.mpr fun r r' _ h bs => ?_
    rw [gather_apply] at h
    split at h
    case isFalse => cases h
    case isTrue hlt =>
      injection h with _ h
      subst h
      have hle := Nat.le_of_lt hlt
      have hmissing : ((r.gathered r.missing).extend 0 bs).missing =
          r.missing - r.cursor.rest.length := missing_gathered hle
      have hall : r.cursor.rest.take r.missing = r.cursor.rest := List.take_of_length_le hle
      have hnone : r.cursor.rest.drop r.missing = [] := List.drop_of_length_le hle
      have hrest : ((r.gathered r.missing).extend 0 bs).cursor.rest = bs := by
        simp [Reader.gathered, ReadCursor.extend, ReadCursor.takePartial, hnone]
      have hcond : (r.extend 0 bs).cursor.rest.length < r.missing ↔
          bs.length < r.missing - r.cursor.rest.length := by
        simp only [Reader.extend_cursor, ReadCursor.extend, List.length_append]
        omega
      have hbytes : (r.extend 0 bs).stack.current.progress.gathered.toList ++
          (r.extend 0 bs).cursor.rest.take r.missing =
          ((r.gathered r.missing).extend 0 bs).stack.current.progress.gathered.toList ++
          bs.take (r.missing - r.cursor.rest.length) := by
        simp [Reader.gathered, FrameStack.modify, hall, ReadCursor.extend, List.take_append]
      rw [gather_apply, gather_apply, hmissing, Reader.missing_extend, hrest,
        gathered_gathered hle, hbytes]
      simp only [hcond]

theorem headDone_of_gather (h : gather r = .error .suspended r') :
    r'.stack.current.progress.headDone = r.stack.current.progress.headDone := by
  rw [gather_apply] at h
  split at h
  case isFalse => cases h
  case isTrue => injection h with _ h; subst h; rfl

/-- Sets up the byte string in flight once its length is known. -/
def beginBytes (n : Nat) : Read (Option Bytes) := do
  modifyProgress fun p => { p with headDone := true, length := n }
  gather

theorem extends_beginBytes (n : Nat) : Extends (beginBytes n) := by
  refine Extends.bind (extends_modifyProgress fun _ => .inl rfl) fun _ => resumable_gather.extension

theorem bytes_of_headDone (limit : Nat) (h : r.stack.current.progress.headDone = true) :
    bytes limit r = gather r := by
  rw [bytes_eq, progress_bind, if_pos h]

theorem bytes_of_not_headDone (limit : Nat) (h : ¬ r.stack.current.progress.headDone = true) :
    bytes limit r = (length limit >>= fun
      | none => pure none
      | some n => beginBytes n) r := by
  rw [bytes_eq, progress_bind, if_neg h]
  rfl

theorem resumable_bytes (limit : Nat) : Resumable Reader.outer (bytes limit) where
  extension := by
    rw [bytes_eq]
    refine extends_progress.bind fun p => ?_
    split
    · exact resumable_gather.extension
    · refine (resumable_length limit).extension.bind fun n => ?_
      cases n with
      | none => exact .pure none
      | some n => exact extends_beginBytes n
  frame := by
    rw [bytes_eq]
    refine Keeps.bind (fun _ => rfl) fun p => ?_
    split
    · exact resumable_gather.frame
    · refine (outer_of_stack (resumable_length limit)).frame.bind fun n => ?_
      cases n with
      | none => exact .pure none
      | some n => exact Keeps.bind (fun _ => rfl) fun _ => resumable_gather.frame
  resumption := by
    refine resumes_iff.mpr fun r r' hs h bs => ?_
    have hread {r₁ : Reader} (hd : r₁.stack.current.progress.headDone = true) :
        bytes limit (r₁.extend 0 bs) = gather (r₁.extend 0 bs) := bytes_of_headDone limit hd
    by_cases hd : r.stack.current.progress.headDone = true
    · rw [bytes_of_headDone limit hd] at h
      rw [hread hd, hread ((headDone_of_gather h).trans hd)]
      exact resumable_gather.resumption r r' hs h bs
    · rw [bytes_of_not_headDone limit hd, bind_apply] at h
      cases hl : length limit r with
      | error e r₁ =>
        rw [hl] at h
        injection h with he hr'
        subst he hr'
        rw [still_length limit r r₁ hl]
      | ok n r₁ =>
        obtain ⟨hs₁, hl'⟩ := ok_extend (resumable_length limit).extension hs hl
        rw [hl] at h
        cases n with
        | none => cases h
        | some n =>
          have hd' : ¬ (r.extend 0 bs).stack.current.progress.headDone = true := hd
          have h : gather (r₁.headed n) = .error .suspended r' := h
          rw [bytes_of_not_headDone limit hd', bind_ok (hl' 0 bs), hread (headDone_of_gather h)]
          exact resumable_gather.resumption _ r' hs₁.headed h bs

theorem resumable_text (limit : Nat) : Resumable Reader.outer (text limit) := by
  refine (resumable_bytes limit).bind_settled fun bs => ?_
  cases bs with
  | none => exact .pure none
  | some bs =>
    cases h : Utf8.decode? bs with
    | some s => simpa only [h] using .pure (some s)
    | none => simpa only [h] using .fail _

theorem settled_required {β δ : Type} {f : Reader → δ} (what : Required) (x : Option β) :
    Settled f (required what x) := by
  cases x with
  | some x => exact .pure x
  | none => exact .fail _

/-! ## Ids -/

theorem nullableUuid_apply (r : Reader) : nullableUuid r = match r.cursor.rest with
    | [] => .error .suspended r
    | marker :: _ =>
      if marker = Layout.absent then .ok none { r with cursor := r.cursor.advance 1 }
      else if marker = Layout.present then
        (do
          let unit ← advance (·.takeExact? maxAtomicUnit)
          return some (Layout.ofUuid (unit.drop 1))) r
      else .error (.failed (.presenceMarker marker)) r := by
  rw [nullableUuid, get_bind]
  cases r.cursor.rest with
  | nil => rfl
  | cons marker rest =>
    dsimp only
    split
    · rfl
    · split <;> rfl

theorem resumable_presentUuid : Resumable Reader.stack (do
    let unit ← advance (·.takeExact? maxAtomicUnit)
    return some (Layout.ofUuid (unit.drop 1))) := by
  have h : Resumable Reader.stack (advance (·.takeExact? maxAtomicUnit)) := by
    simpa using resumable_takeExact maxAtomicUnit id
  exact h.bind_settled fun unit => .pure _

theorem still_presentUuid : Still (do
    let unit ← advance (·.takeExact? maxAtomicUnit)
    return some (Layout.ofUuid (unit.drop 1))) :=
  (still_advance _).bind_settles fun _ => .pure _

theorem still_nullableUuid : Still nullableUuid := by
  intro r r' h
  rw [nullableUuid_apply] at h
  split at h
  · injection h with _ h
    exact h.symm
  · split at h
    · cases h
    · split at h
      · exact still_presentUuid r r' h
      · cases h

theorem resumable_nullableUuid : Resumable Reader.stack nullableUuid where
  extension := by
    intro r hr
    cases hrest : r.cursor.rest with
    | nil =>
      have he (d : Nat) : nullableUuid (r.extend d []) = .error .suspended (r.extend d []) := by
        simp [nullableUuid_apply, ReadCursor.extend, hrest]
      refine extendsAt_of_suspended hr (.refl _) he fun {bs x t} ht => ?_
      have hnone : r.cursor.takeExact? maxAtomicUnit = none := by
        rw [ReadCursor.takeExact?_eq, hrest]
        rfl
      rw [nullableUuid_apply] at ht
      split at ht
      · cases ht
      · next marker tail hbs =>
        split at ht
        · cases ht
          change r.cursor.position + r.cursor.rest.length <
            r.cursor.position + min 1 (r.extend 0 bs).cursor.rest.length
          rw [hrest, hbs, List.length_nil, List.length_cons]
          omega
        · split at ht
          · obtain ⟨unit, r₁, hunit, hpure⟩ := ok_of_bind ht
            cases hpure
            rw [advance_apply] at hunit
            split at hunit
            · next hs =>
              cases hunit
              exact ReadCursor.takeExact?_exceeds hnone hs
            · cases hunit
          · cases ht
    | cons marker rest =>
      have hrest' (d : Nat) (bs : Bytes) :
          (r.extend d bs).cursor.rest = marker :: (rest ++ bs) := by
        simp [ReadCursor.extend, hrest]
      by_cases habsent : marker = Layout.absent
      · have he (d : Nat) (bs : Bytes) : nullableUuid (r.extend d bs) =
            .ok none (Reader.extend { r with cursor := r.cursor.advance 1 } d bs) := by
          simp only [nullableUuid_apply, hrest', if_pos habsent]
          simp [Reader.extend, ReadCursor.extend, ReadCursor.advance, hrest, Nat.add_right_comm]
        have hc : r.cursor.Precedes (r.cursor.advance 1) := by
          refine ⟨[marker], ?_, ?_⟩ <;> simp [ReadCursor.advance, hrest]
        have hr' : Reader.Steady { r with cursor := r.cursor.advance 1 } := hr
        exact extendsAt_of_ok _ hr' hc he
      · by_cases hpresent : marker = Layout.present
        · refine extendsAt_of_extends resumable_presentUuid.extension hr rfl fun d bs => ?_
          simp only [nullableUuid_apply, hrest', if_neg habsent, if_pos hpresent]
        · have he (d : Nat) (bs : Bytes) : nullableUuid (r.extend d bs) =
              .error (.failed (.presenceMarker marker)) (r.extend d bs) := by
            simp only [nullableUuid_apply, hrest', if_neg habsent, if_neg hpresent]
          exact extendsAt_of_failed _ r he
  frame := by
    refine Keeps.bind (fun _ => rfl) fun r => ?_
    cases r.cursor.rest with
    | nil => exact .throw _
    | cons marker rest =>
      dsimp only
      split
      · exact Keeps.bind (fun _ => rfl) fun _ => .pure _
      · split
        · exact resumable_presentUuid.frame
        · exact .throw _
  resumption := .of_still still_nullableUuid

/-! ## What is set aside -/

theorem takeParked_bind (q : Option Parked → Read α) (r : Reader) :
    (takeParked >>= q) r = q r.stack.current.progress.parked r.unpark := rfl

/-- Reads the counter of a grid id whose node is known. -/
def counter (u : Uuid) : Read (Option GridId) := do
  let r ← get
  match r.cursor.take? (.int .w64 .signed) with
  | some (x, cursor) =>
    set { r with cursor }
    return some ⟨u, Int64.ofBitVec x⟩
  | none =>
    modifyProgress fun p => { p with parked := some (.node u) }
    throw .suspended

theorem counter_apply (u : Uuid) (r : Reader) :
    counter u r = match r.cursor.take? (.int .w64 .signed) with
      | some (x, cursor) => .ok (some ⟨u, Int64.ofBitVec x⟩) { r with cursor }
      | none => .error .suspended (r.park (.node u)) := by
  rw [counter, get_bind]
  cases r.cursor.take? (.int .w64 .signed) <;> rfl

theorem extends_counter (u : Uuid) : Extends (counter u) := by
  intro r hr
  cases h : r.cursor.takeExact? (Primitive.int .w64 .signed).size with
  | none =>
    have hpark : (r.park (.node u)).Steady := hr.park nofun
    have he (d : Nat) : counter u (r.extend d []) =
        .error .suspended ((r.park (.node u)).extend d []) := by
      rw [counter_apply, Reader.extend_cursor, ReadCursor.take?, ReadCursor.takeExact?_shift h]
      rfl
    refine extendsAt_of_suspended hpark (.refl _) he fun {bs x t} ht => ?_
    rw [counter_apply, Reader.extend_cursor, ReadCursor.take?] at ht
    cases hs : (r.cursor.extend 0 bs).takeExact? (Primitive.int .w64 .signed).size with
    | none => rw [hs] at ht; cases ht
    | some y =>
      rw [hs] at ht
      cases ht
      exact ReadCursor.takeExact?_exceeds h hs
  | some y =>
    obtain ⟨bs, cursor⟩ := y
    have hr' : Reader.Steady { r with cursor } := hr
    have he (d : Nat) (as : Bytes) : counter u (r.extend d as) =
        .ok (some ⟨u, Int64.ofBitVec (Primitive.decode (.int .w64 .signed) bs)⟩)
          (Reader.extend { r with cursor } d as) := by
      rw [counter_apply, Reader.extend_cursor, ReadCursor.take?, ReadCursor.takeExact?_extend h]
      rfl
    exact extendsAt_of_ok _ hr' (ReadCursor.takeExact?_precedes h) he

theorem keeps_counter (u : Uuid) : Keeps Reader.outer (counter u) := by
  intro r
  rw [counter_apply]
  cases r.cursor.take? (.int .w64 .signed) <;> rfl

theorem counter_suspended {u : Uuid} (h : counter u r = .error .suspended r') :
    r' = r.park (.node u) := by
  rw [counter_apply] at h
  cases hx : r.cursor.take? (.int .w64 .signed) with
  | none => rw [hx] at h; injection h with _ h; exact h.symm
  | some x => rw [hx] at h; cases h

/-- A grid id of which nothing is set aside. -/
def freshGrid : Read (Option GridId) := do
  match ← nullableUuid with
  | none => return none
  | some u => counter u

theorem extends_freshGrid : Extends freshGrid := by
  refine resumable_nullableUuid.extension.bind fun u => ?_
  cases u with
  | none => exact .pure none
  | some u => exact extends_counter u

theorem grid_apply (r : Reader) : grid r = match r.stack.current.progress.parked with
    | some (.node u) => counter u r.unpark
    | some (.message _) => fail .unexpectedProgress r.unpark
    | none => freshGrid r.unpark := by
  rw [grid, takeParked_bind]
  rcases r.stack.current.progress.parked with _ | ⟨u⟩ | ⟨s⟩ <;> rfl

/-- Where a grid id stopped with its node set aside, reading it again goes on with the counter. -/
theorem grid_park {u : Uuid} (bs : Bytes) :
    grid ((r.park (.node u)).extend 0 bs) = counter u (r.unpark.extend 0 bs) := by
  rw [grid_apply]
  rfl

theorem freshGrid_suspended (hp : r.stack.current.progress.parked = none) (hs : r.Steady)
    (h : freshGrid r = .error .suspended r') (bs : Bytes) :
    freshGrid (r.extend 0 bs) = grid (r'.extend 0 bs) := by
  rw [freshGrid, bind_apply] at h
  cases hu : nullableUuid r with
  | error e r₁ =>
    rw [hu] at h
    injection h with he hr'
    subst he hr'
    rw [still_nullableUuid r r₁ hu, grid_apply, Reader.extend_stack, hp, Reader.unpark_extend,
      Reader.unpark_eq_self hp]
  | ok u r₁ =>
    have hu' := (ok_extend resumable_nullableUuid.extension hs hu).2 0 bs
    have hp₁ : r₁.stack.current.progress.parked = none := by
      rwa [resumable_nullableUuid.frame.ok hu]
    rw [hu] at h
    cases u with
    | none => cases h
    | some u =>
      rw [freshGrid, bind_ok hu', counter_suspended h, grid_park, Reader.unpark_eq_self hp₁]

theorem resumable_grid : Resumable Reader.outer grid where
  extension := by
    intro r hr
    rcases hp : r.stack.current.progress.parked with _ | ⟨u⟩ | ⟨s⟩
    · exact extendsAt_of_extends extends_freshGrid hr.unpark rfl fun d bs => by
        rw [grid_apply, Reader.extend_stack, hp, Reader.unpark_extend]
    · exact extendsAt_of_extends (extends_counter u) hr.unpark rfl fun d bs => by
        rw [grid_apply, Reader.extend_stack, hp, Reader.unpark_extend]
    · exact extendsAt_of_extends (Extends.fail .unexpectedProgress) hr.unpark rfl fun d bs => by
        rw [grid_apply, Reader.extend_stack, hp, Reader.unpark_extend]
        rfl
  frame := by
    refine Keeps.bind (fun _ => rfl) fun parked => ?_
    rcases parked with _ | ⟨u⟩ | ⟨s⟩
    · refine (outer_of_stack resumable_nullableUuid).frame.bind fun u => ?_
      cases u with
      | none => exact .pure none
      | some u => exact keeps_counter u
    · exact keeps_counter u
    · exact fun _ => rfl
  resumption := by
    refine resumes_iff.mpr fun r r' hs h bs => ?_
    rw [grid_apply] at h
    rw [grid_apply, Reader.extend_stack, Reader.unpark_extend]
    rcases hp : r.stack.current.progress.parked with _ | ⟨u⟩ | ⟨s⟩
    · rw [hp] at h
      exact freshGrid_suspended (Reader.unpark_parked r) hs.unpark h bs
    · rw [hp] at h
      rw [counter_suspended h, grid_park]
      rfl
    · rw [hp] at h
      cases h

end Read

end WireCodec
