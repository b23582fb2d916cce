import WireCodec.Proofs.Buffers
import WireCodec.Proofs.Reading.Routines
import WireCodec.Proofs.Twins

/-!
# Cursors

A call that writes fills a buffer with the bytes that it accepts and leaves all others alone
(`Buffer.Filled`), so after any calls a buffer begins with what they accepted, and goes on with what
it held before. The cursor that only knows the room ahead gives the same answers.

A call that reads passes over bytes that are there (`ReadCursor.Precedes`), so no calls lead past the
end. Reads that match the calls of a writer give back what that writer accepted. A read of part of
the bytes matches if it asks for as many as were accepted; and where nothing follows what was
written, also if it asks for as many as were offered, for a buffer that does not accept all of them
is full.
-/

namespace WireCodec

/-! ## Calls -/

namespace WriteCursor

/-- A call that writes. -/
inductive Call where
  | put (k : Primitive) (x : k.Val)
  | putAll (bs : Bytes)
  | putPartial (bs : Bytes)

/-- What a call that writes reports: whether all was written, or how much. -/
inductive Answer where
  | done (all : Bool)
  | count (n : Nat)
  deriving DecidableEq

/-- The room without which a call writes nothing. -/
def Call.needs : Call → Nat
  | .put k _ => k.size
  | .putAll bs => bs.length
  | .putPartial _ => 0

/-- The bytes that a call wrote, by what it reports. -/
def Call.accepted : Call → Answer → Bytes
  | .put k x, .done true => k.encode x
  | .putAll bs, .done true => bs
  | .putPartial bs, .count n => bs.take n
  | _, _ => []

/-- The bytes that calls wrote, one after the other. -/
def accepted (calls : List Call) (replies : List Answer) : Bytes :=
  (List.zipWith Call.accepted calls replies).flatten

/-- Makes a call. A cursor that there is no room at stays as it is. -/
def call (w : WriteCursor) : Call → Answer × WriteCursor
  | .put k x => (.done (w.put? k x).isSome, (w.put? k x).getD w)
  | .putAll bs => (.done (w.putAll? bs).isSome, (w.putAll? bs).getD w)
  | .putPartial bs => (.count ((w.putPartial bs).position - w.position), w.putPartial bs)

end WriteCursor

/-- Makes a call that writes. -/
def Buffer.call (b : Buffer) : WriteCursor.Call → WriteCursor.Answer × Buffer
  | .put k x => (.done (b.put k x).1, (b.put k x).2)
  | .putAll bs => (.done (b.putAll bs).1, (b.putAll bs).2)
  | .putPartial bs => (.count (b.putPartial bs).1, (b.putPartial bs).2)

namespace ReadCursor

/-- A call that reads. -/
inductive Call where
  | take (k : Primitive)
  | takeExact (n : Nat)
  | takePartial (n : Nat)
  | advance (n : Nat)

/-- What a call that reads gives. -/
inductive Answer where
  | value (k : Primitive) (x : Option k.Val)
  | bytes (bs : Option Bytes)
  | passed

/-- Whether a value or a byte string was asked for that is not there. -/
def Answer.isAbsent : Answer → Bool
  | .value _ x => x.isNone
  | .bytes bs => bs.isNone
  | .passed => false

/-- The bytes without which a call gives nothing. -/
def Call.needs : Call → Nat
  | .take k => k.size
  | .takeExact n => n
  | .takePartial _ => 0
  | .advance _ => 0

/-- Makes a call. A cursor at the end of too few bytes stays as it is. -/
def call (c : ReadCursor) : Call → Answer × ReadCursor
  | .take k => (.value k ((c.take? k).map Prod.fst), ((c.take? k).map Prod.snd).getD c)
  | .takeExact n =>
    (.bytes ((c.takeExact? n).map Prod.fst), ((c.takeExact? n).map Prod.snd).getD c)
  | .takePartial n => (.bytes (some (c.takePartial n).1), (c.takePartial n).2)
  | .advance n => (.passed, c.advance n)

end ReadCursor

namespace WriteCursor

/-- How many bytes a read asks for that matches a write in part: those that were accepted, or all
that were offered. -/
inductive Ask where
  | accepted
  | offered

/-- The number of bytes asked for, where of these bytes so many were accepted. -/
def Ask.count : Ask → Bytes → Nat → Nat
  | .accepted, _, n => n
  | .offered, bs, _ => bs.length

/-- The read that matches a call, and what it gives; a call that wrote nothing is left out. -/
def Call.readBack (ask : Ask) : Call → Answer → List (ReadCursor.Call × ReadCursor.Answer)
  | .put k x, .done true => [(.take k, .value k (some x))]
  | .putAll bs, .done true => [(.takeExact bs.length, .bytes (some bs))]
  | .putPartial bs, .count n => [(.takePartial (ask.count bs n), .bytes (some (bs.take n)))]
  | _, _ => []

/-- The reads that match calls, in the same order. -/
def readBack (ask : Ask) (calls : List Call) (replies : List Answer) :
    List (ReadCursor.Call × ReadCursor.Answer) :=
  (List.zipWith (Call.readBack ask) calls replies).flatten

end WriteCursor

/-! ## Writing -/

namespace Buffer

open WriteCursor

/-- What becomes of a call: it finds too little room and leaves the buffer as it is, or else it fills
the buffer with what it accepts, for which there is room. -/
inductive Outcome (b : Buffer) (c : Call) : Answer × Buffer → Prop
  | failed (hover : b.remaining < c.needs) : Outcome b c (.done false, b)
  | wrote {reply : Answer} {b' : Buffer} (hneeds : c.needs ≤ b.remaining)
      (hreply : reply ≠ .done false) (hfits : (c.accepted reply).length ≤ b.remaining)
      (hfilled : b.Filled (c.accepted reply) b') : Outcome b c (reply, b')

theorem Outcome.of_putAll {b : Buffer} {c : Call} {bs : Bytes} (hneeds : c.needs = bs.length)
    (haccepted : c.accepted (.done true) = bs) :
    b.Outcome c (.done (b.putAll bs).1, (b.putAll bs).2) := by
  obtain ⟨hover, hput⟩ | ⟨hfits, b', hput, hfilled⟩ := b.putAll_cases bs
  · rw [hput]
    exact .failed (hneeds ▸ hover)
  · have hroom : c.needs ≤ b.remaining := hneeds ▸ hfits
    rw [hput]
    rw [← haccepted] at hfits hfilled
    exact .wrote hroom nofun hfits hfilled

theorem outcome_call (b : Buffer) (c : Call) : b.Outcome c (b.call c) := by
  cases c with
  | put k x => exact .of_putAll (k.length_encode x).symm rfl
  | putAll bs => exact .of_putAll rfl rfl
  | putPartial bs =>
    refine .wrote (Nat.zero_le _) nofun ?_ (b.filled_putPartial bs)
    rw [Call.accepted, length_take_putPartial]
    exact b.putPartial_le_remaining bs

theorem call_filled (b : Buffer) (c : Call) :
    (c.accepted (b.call c).1).length ≤ b.remaining ∧
      b.Filled (c.accepted (b.call c).1) (b.call c).2 := by
  have hcall := b.outcome_call c
  generalize b.call c = r at hcall ⊢
  cases hcall with
  | failed hover =>
    have hnothing : c.accepted (.done false) = [] := by cases c <;> rfl
    rw [hnothing]
    exact ⟨Nat.zero_le _, .refl b⟩
  | wrote _ _ hfits hfilled => exact ⟨hfits, hfilled⟩

/-- A call reports failure exactly where there is too little room, and then nothing has changed. -/
theorem call_failed_iff (b : Buffer) (c : Call) :
    ((b.call c).1 = .done false ↔ b.remaining < c.needs) ∧
      ((b.call c).1 = .done false → (b.call c).2 = b) := by
  have hcall := b.outcome_call c
  generalize b.call c = r at hcall ⊢
  cases hcall with
  | failed hover => exact ⟨iff_of_true rfl hover, fun _ => rfl⟩
  | wrote hneeds hreply _ _ =>
    exact ⟨iff_of_false hreply (Nat.not_lt.mpr hneeds), fun h => absurd h hreply⟩

/-- Of the beginnings of a byte string, a write in part writes the longest that fits. -/
theorem call_putPartial (b : Buffer) (bs : Bytes) : ∃ n ≤ bs.length,
    b.call (.putPartial bs) = (.count n, (b.call (.putAll (bs.take n))).2) ∧
      ∀ m ≤ bs.length, (b.call (.putAll (bs.take m))).1 = .done true ↔ m ≤ n := by
  have hputAll {m : Nat} (hm : m ≤ bs.length) :
      (b.call (.putAll (bs.take m))).1 = .done true ↔ m ≤ b.remaining := by
    have hfailed := (b.call_failed_iff (.putAll (bs.take m))).1
    rw [Call.needs, List.length_take_of_le hm, ← Nat.not_le] at hfailed
    rw [call, Answer.done.injEq] at hfailed ⊢
    rw [← not_iff_not, ← hfailed, Bool.not_eq_true]
  refine ⟨min bs.length b.remaining, Nat.min_le_left _ _, ?_, fun m hm => ?_⟩
  · have hfits : (bs.take (min bs.length b.remaining)).length ≤ b.remaining := by
      rw [List.length_take_of_le (Nat.min_le_left _ _)]
      exact Nat.min_le_right _ _
    obtain ⟨b', hput, hfilled⟩ := putAll_of_le hfits
    rw [call, call, hput]
    exact Prod.ext rfl ((b.filled_putPartial bs).unique hfilled)
  · rw [hputAll hm, Nat.le_min]
    exact (and_iff_right hm).symm

/-- After any calls the buffer is filled with what they accepted, one after the other. -/
theorem filled_afterCalls (b : Buffer) (calls : List Call) :
    (accepted calls (answers call b calls)).length ≤ b.remaining ∧
      b.Filled (accepted calls (answers call b calls)) (afterCalls call b calls) := by
  induction calls generalizing b with
  | nil => exact ⟨Nat.zero_le _, .refl b⟩
  | cons c calls ih =>
    obtain ⟨hfits, hfilled⟩ := b.call_filled c
    obtain ⟨hrest, hrun⟩ := ih (b.call c).2
    rw [hfilled.remaining_eq hfits] at hrest
    refine ⟨?_, hfilled.trans hrun⟩
    rw [accepted, answers, List.zipWith_cons_cons, List.flatten_cons, List.length_append]
    exact (Nat.le_sub_iff_add_le' hfits).mp hrest

/-- The cursor of a buffer, which only knows the room ahead, answers as the buffer does. -/
theorem call_cursor (b : Buffer) (c : Call) :
    b.cursor.call c = ((b.call c).1, (b.call c).2.cursor) := by
  have hputAll (bs : Bytes) : (b.cursor.putAll? bs).isSome = (b.putAll bs).1 ∧
      (b.cursor.putAll? bs).getD b.cursor = (b.putAll bs).2.cursor := by
    rw [putAll?_cursor]
    obtain ⟨-, hput⟩ | ⟨-, b', hput, -⟩ := b.putAll_cases bs
    all_goals
      rw [hput]
      exact ⟨rfl, rfl⟩
  cases c with
  | put k x =>
    obtain ⟨hdone, hcursor⟩ := hputAll (k.encode x)
    exact Prod.ext (congrArg Answer.done hdone) hcursor
  | putAll bs =>
    obtain ⟨hdone, hcursor⟩ := hputAll bs
    exact Prod.ext (congrArg Answer.done hdone) hcursor
  | putPartial bs =>
    have hcount : (b.cursor.putPartial bs).position - b.cursor.position = (b.putPartial bs).1 := by
      rw [WriteCursor.position, WriteCursor.position, WriteCursor.size_putPartial,
        Nat.add_sub_cancel_left, remaining_cursor, Nat.min_comm]
      rfl
    exact Prod.ext (congrArg Answer.count hcount) (b.putPartial_cursor bs)

end Buffer

/-! ## Reading -/

namespace ReadCursor

variable {c : ReadCursor} {as bs more : Bytes} {reads reads' : List (Call × Answer)}

/-- A call passes over bytes that are there. -/
theorem precedes_call (c : ReadCursor) (a : Call) : c.Precedes (c.call a).2 := by
  cases a with
  | take k =>
    rw [call]
    cases h : c.take? k with
    | none => exact .refl c
    | some taken => exact take?_precedes h
  | takeExact n =>
    rw [call]
    cases h : c.takeExact? n with
    | none => exact .refl c
    | some taken => exact takeExact?_precedes h
  | takePartial n => exact c.takePartial_precedes n
  | advance n =>
    refine ⟨c.rest.take n, (List.take_append_drop n _).symm, ?_⟩
    rw [List.length_take]
    rfl

/-- So do any calls, and none of them leads past the end. -/
theorem precedes_afterCalls (c : ReadCursor) (calls : List Call) :
    c.Precedes (afterCalls call c calls) := by
  induction calls generalizing c with
  | nil => exact .refl c
  | cons a calls ih => exact (c.precedes_call a).trans (ih (c.call a).2)

theorem call_of_lt {a : Call} (h : c.remaining < a.needs) :
    (c.call a).1.isAbsent = true ∧ (c.call a).2 = c := by
  cases a with
  | take k =>
    have hnone : c.takeExact? k.size = none := takeExact?_eq_none_iff.mpr h
    rw [call, take?, hnone]
    exact ⟨rfl, rfl⟩
  | takeExact n =>
    have hnone : c.takeExact? n = none := takeExact?_eq_none_iff.mpr h
    rw [call, hnone]
    exact ⟨rfl, rfl⟩
  | takePartial n => exact absurd h (Nat.not_lt_zero _)
  | advance n => exact absurd h (Nat.not_lt_zero _)

theorem isAbsent_call {a : Call} (h : a.needs ≤ c.remaining) : (c.call a).1.isAbsent = false := by
  cases a with
  | take k =>
    have htaken : c.takeExact? k.size = some _ := (c.takeExact?_eq _).trans (if_pos h)
    rw [call, take?, htaken]
    rfl
  | takeExact n =>
    have htaken : c.takeExact? n = some _ := (c.takeExact?_eq _).trans (if_pos h)
    rw [call, htaken]
    rfl
  | takePartial n => rfl
  | advance n => rfl

/-- A call gives nothing exactly where too few bytes are left, and then the cursor stays. -/
theorem call_absent_iff (c : ReadCursor) (a : Call) :
    ((c.call a).1.isAbsent = true ↔ c.remaining < a.needs) ∧
      ((c.call a).1.isAbsent = true → (c.call a).2 = c) := by
  obtain hshort | hneeds := Nat.lt_or_ge c.remaining a.needs
  · obtain ⟨habsent, hstays⟩ := call_of_lt hshort
    exact ⟨iff_of_true habsent hshort, fun _ => hstays⟩
  · have hgiven := ne_true_of_eq_false (isAbsent_call hneeds)
    exact ⟨iff_of_false hgiven (Nat.not_lt.mpr hneeds), fun h => absurd h hgiven⟩

/-- A read of up to so many bytes takes those in front, if they are as many, or else the last. -/
theorem takePartial_append {p n : Nat} (h : as.length = n ∨ as.length ≤ n ∧ more = []) :
    takePartial ⟨p, as ++ more⟩ n = (as, ⟨p + as.length, more⟩) := by
  have htake : (as ++ more).take n = as ∧ (as ++ more).drop n = more := by
    obtain hn | ⟨hn, rfl⟩ := h
    · exact ⟨List.take_left' hn, List.drop_left' hn⟩
    · rw [List.append_nil]
      exact ⟨List.take_of_length_le hn, List.drop_of_length_le hn⟩
  rw [takePartial, htake.1, htake.2]

/-- From where these bytes come before others, calls are answered so, and lead behind them. -/
def Gives (reads : List (Call × Answer)) (bs more : Bytes) : Prop :=
  ∀ p, answers call ⟨p, bs ++ more⟩ (reads.map Prod.fst) = reads.map Prod.snd ∧
    afterCalls call ⟨p, bs ++ more⟩ (reads.map Prod.fst) = ⟨p + bs.length, more⟩

namespace Gives

theorem nil : Gives [] [] more := fun _ => ⟨rfl, rfl⟩

theorem one {a : Call} {reply : Answer}
    (h : ∀ p, call ⟨p, bs ++ more⟩ a = (reply, ⟨p + bs.length, more⟩)) :
    Gives [(a, reply)] bs more := by
  intro p
  exact ⟨congrArg (fun r : Answer × ReadCursor => [r.1]) (h p), congrArg Prod.snd (h p)⟩

theorem append (h : Gives reads as (bs ++ more)) (h' : Gives reads' bs more) :
    Gives (reads ++ reads') (as ++ bs) more := by
  intro p
  obtain ⟨hanswers, hafter⟩ := h p
  obtain ⟨hanswers', hafter'⟩ := h' (p + as.length)
  rw [List.map_append, List.map_append, answers_append, afterCalls_append, List.append_assoc,
    hanswers, hafter, hanswers', hafter', List.length_append, Nat.add_assoc]
  exact ⟨rfl, rfl⟩

end Gives

/-! ## Reading back -/

section

open WriteCursor

/-- What a call accepted is read back by the call that matches it. -/
theorem gives_readBack_call (ask : Ask) (b : Buffer) (w : WriteCursor.Call)
    (hfull : ask = .offered → (b.call w).2.remaining = 0 → more = []) :
    Gives (w.readBack ask (b.call w).1) (w.accepted (b.call w).1) more := by
  cases w with
  | put k x =>
    rw [Buffer.call]
    cases (b.put k x).1 with
    | false => exact .nil
    | true =>
      refine .one fun p => ?_
      rw [call, take?, WriteCursor.Call.accepted, takeExact?_append (k.length_encode x) rfl]
      simp only [Option.map_some, Option.getD_some, Primitive.decode_encode]
  | putAll bs =>
    rw [Buffer.call]
    cases (b.putAll bs).1 with
    | false => exact .nil
    | true =>
      refine .one fun p => ?_
      rw [call, takeExact?_append rfl rfl]
      rfl
  | putPartial bs =>
    have hlength := b.length_take_putPartial bs
    have hask : (bs.take (b.putPartial bs).1).length = ask.count bs (b.putPartial bs).1 ∨
        (bs.take (b.putPartial bs).1).length ≤ ask.count bs (b.putPartial bs).1 ∧ more = [] := by
      cases ask with
      | accepted => exact .inl hlength
      | offered =>
        by_cases hall : (b.putPartial bs).1 = bs.length
        · exact .inl (hlength.trans hall)
        · exact .inr ⟨List.length_take_le' _ _, hfull rfl (Buffer.remaining_putPartial hall)⟩
    refine .one fun p => ?_
    rw [Buffer.call, WriteCursor.Call.accepted, call, takePartial_append hask]

theorem gives_readBack (ask : Ask) (b : Buffer) (calls : List WriteCursor.Call)
    (hmore : ask = .offered → more = []) :
    Gives (readBack ask calls (answers Buffer.call b calls))
      (accepted calls (answers Buffer.call b calls)) more := by
  induction calls generalizing b with
  | nil => exact .nil
  | cons w calls ih =>
    refine (gives_readBack_call ask b w fun hask hfull => ?_).append (ih (b.call w).2)
    -- what is behind a full buffer is nothing
    have hnothing : accepted calls (answers Buffer.call (b.call w).2 calls) = [] := by
      have hfits := ((b.call w).2.filled_afterCalls calls).1
      rwa [hfull, Nat.le_zero, List.length_eq_zero_iff] at hfits
    rw [hmore hask, List.append_nil]
    exact hnothing

end

end ReadCursor

/-! ## Any calls -/

/-- A call that fails has found too little room and changes nothing; a write in part writes the
longest beginning that fits, as writing just that would. So after any calls a buffer begins with what
they accepted, one after the other, goes on with what it held before, and has as much room as its
position leaves; and the cursor that only knows the room is where the buffer is. The reads that match
the calls, made of what was written and of anything behind it, give back what was accepted and stop
where it ends; a read of part of the bytes may also ask for all that was offered, if nothing comes
behind. Whatever is read of any bytes, in whatever order and with whatever passed over, the position
stays inside them and the bytes from there on are left; a value or a byte string is absent exactly
where too few are left, and the cursor then stays. -/
theorem cursors_after_calls :
    (∀ (bytes : Bytes) (calls : List WriteCursor.Call),
      let start : Buffer := ⟨bytes, 0, Nat.zero_le _⟩
      let replies := answers Buffer.call start calls
      let b := afterCalls Buffer.call start calls
      (∀ c, ((b.call c).1 = .done false ↔ b.remaining < c.needs) ∧
        ((b.call c).1 = .done false → (b.call c).2 = b)) ∧
      (∀ bs, ∃ n ≤ bs.length,
        b.call (.putPartial bs) = (.count n, (b.call (.putAll (bs.take n))).2) ∧
        ∀ m ≤ bs.length, (b.call (.putAll (bs.take m))).1 = .done true ↔ m ≤ n) ∧
      (b.written = WriteCursor.accepted calls replies ∧
        b.bytes = b.written ++ bytes.drop b.position) ∧
      (b.bytes.length = bytes.length ∧ b.position + b.remaining = bytes.length) ∧
      (answers WriteCursor.call (.ofCapacity bytes.length) calls = replies ∧
        afterCalls WriteCursor.call (.ofCapacity bytes.length) calls = b.cursor) ∧
      ∀ ask more, (ask = .offered → more = []) →
        let reads := WriteCursor.readBack ask calls replies
        let c := ReadCursor.ofBytes (b.written ++ more)
        answers ReadCursor.call c (reads.map Prod.fst) = reads.map Prod.snd ∧
          afterCalls ReadCursor.call c (reads.map Prod.fst) = ⟨b.position, more⟩) ∧
    ∀ (bytes : Bytes) (calls : List ReadCursor.Call),
      let c := afterCalls ReadCursor.call (.ofBytes bytes) calls
      (c.position ≤ bytes.length ∧ c.position + c.remaining = bytes.length) ∧
      c.rest = bytes.drop c.position ∧
      (∀ a, ((c.call a).1.isAbsent = true ↔ c.remaining < a.needs) ∧
        ((c.call a).1.isAbsent = true → (c.call a).2 = c)) ∧
      ∀ n, (c.advance n).position = min (c.position + n) bytes.length := by
  refine ⟨fun bytes calls => ?_, fun bytes calls => ?_⟩
  · intro start replies b
    obtain ⟨hfits, hfilled⟩ : (WriteCursor.accepted calls replies).length ≤ start.remaining ∧
        start.Filled (WriteCursor.accepted calls replies) b := start.filled_afterCalls calls
    have hwritten : b.written = WriteCursor.accepted calls replies := hfilled.written
    have hlength : b.bytes.length = bytes.length := hfilled.length_eq hfits
    have hcursor := answers_image Buffer.call_cursor start calls
    refine ⟨b.call_failed_iff, b.call_putPartial, ⟨hwritten, ?_⟩, ⟨hlength, ?_⟩, hcursor, ?_⟩
    · rw [hwritten]
      exact hfilled.bytes_eq rfl
    · rw [← hlength]
      exact Nat.add_sub_cancel' b.inside
    · intro ask more hmore reads c
      have hposition : b.position = 0 + (WriteCursor.accepted calls replies).length :=
        hfilled.position
      rw [hposition]
      have hc : c = ⟨0, WriteCursor.accepted calls replies ++ more⟩ := by rw [← hwritten]; rfl
      rw [hc]
      exact ReadCursor.gives_readBack ask start calls hmore 0
  · intro c
    obtain ⟨hposition, hrest⟩ : c.position ≤ bytes.length ∧ c.rest = bytes.drop c.position :=
      ReadCursor.precedes_ofBytes ((ReadCursor.ofBytes bytes).precedes_afterCalls calls)
    have hremaining : c.remaining = bytes.length - c.position := by
      rw [ReadCursor.remaining, hrest, List.length_drop]
    refine ⟨⟨hposition, ?_⟩, hrest, c.call_absent_iff, fun n => ?_⟩
    · omega
    · change c.position + min n c.remaining = min (c.position + n) bytes.length
      omega

/-- Of six bytes, four hold a number, the next has no room, and two are left for three bytes; a truth
value then finds none. -/
theorem cursors_after_calls_full :
    let calls : List WriteCursor.Call := [.put (.int .w32 .signed) 0x01020304,
      .put (.int .w32 .signed) 1, .putPartial [7, 8, 9]]
    let b := afterCalls Buffer.call ⟨[5, 5, 5, 5, 5, 5], 0, Nat.zero_le _⟩ calls
    b.bytes = [4, 3, 2, 1, 7, 8] ∧
      (b.call (.put .bool true)).1 = .done false ∧ (b.call (.put .bool true)).2 = b ∧
      answers ReadCursor.call (.ofBytes (b.written ++ []))
          [.take (.int .w32 .signed), .takePartial 3] =
        [.value (.int .w32 .signed) (some 0x01020304), .bytes (some [7, 8])] ∧
      ((ReadCursor.ofBytes [1, 0]).call (.take (.int .w32 .signed))).2 = .ofBytes [1, 0] := by
  intro calls b
  obtain ⟨hwriting, hreading⟩ := cursors_after_calls
  obtain ⟨hcall, -, -, -, -, hback⟩ := hwriting [5, 5, 5, 5, 5, 5] calls
  have hfailed : (b.call (.put .bool true)).1 = .done false := by decide
  have hshort : ((ReadCursor.ofBytes [1, 0]).call (.take (.int .w32 .signed))).1.isAbsent = true :=
    rfl
  exact ⟨by decide, hfailed, (hcall _).2 hfailed, (hback .offered [] fun _ => rfl).1,
    ((hreading [1, 0] []).2.2.1 _).2 hshort⟩

end WireCodec
