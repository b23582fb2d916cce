import WireCodec.Marshal.Marshaller
import WireCodec.Proofs.Decoding.Steps

/-!
# Decoding input that is still coming in

A decoder that is `Incremental` reads a value from the bytes it takes alone, whatever follows them,
and a failure that is not for want of input stays whatever follows. So on fewer bytes than a value
takes there is nothing but want of input. All decoders of values are incremental; the look ahead
that refuses a number of elements the input cannot hold is harmless, since each element takes at
least as many bytes as were looked for.
-/

namespace WireCodec

namespace Decode

variable {α β : Type} {d : Decode α} {f : α → Decode β} {bs : Bytes} {x : α} {k m n : Nat}

/-- A decoder reads a value from `n` bytes or more, and from these bytes whatever follows them; a
failure that is not for want of input stays whatever follows. -/
structure Incremental (n : Nat) (d : Decode α) : Prop where
  reads : ∀ {bs x rest}, d bs = .ok (x, rest) →
    ∃ used, bs = used ++ rest ∧ n ≤ used.length ∧ Reads d used x
  fails : ∀ {bs e}, d bs = .error e → e.isIncomplete = false → ∀ more, d (bs ++ more) = .error e

namespace Incremental

theorem mono (hd : Incremental n d) (h : m ≤ n) : Incremental m d where
  reads hok := by
    obtain ⟨used, hbs, hn, hreads⟩ := hd.reads hok
    exact ⟨used, hbs, Nat.le_trans h hn, hreads⟩
  fails := hd.fails

theorem pure (x : α) : Incremental 0 (Pure.pure x : Decode α) where
  reads {bs y rest} h := by
    cases h
    exact ⟨[], rfl, Nat.le_refl 0, .pure x⟩
  fails h := nomatch h

theorem throw (n : Nat) (e : Error) : Incremental n (MonadExcept.throw e : Decode α) where
  reads h := nomatch h
  fails h _ _ := h

theorem lift (x? : Except Error α) : Incremental 0 (liftM x? : Decode α) := by
  cases x? with
  | ok x => exact .pure x
  | error e => exact .throw 0 e

theorem bind (hd : Incremental m d) (hf : ∀ x, Incremental n (f x)) :
    Incremental (m + n) (d >>= f) where
  reads h := by
    obtain ⟨x, mid, hok, hok'⟩ := ok_of_bind h
    obtain ⟨used, rfl, hm, hreads⟩ := hd.reads hok
    obtain ⟨used', rfl, hn, hreads'⟩ := (hf x).reads hok'
    refine ⟨used ++ used', (List.append_assoc ..).symm, ?_, hreads.bind hreads'⟩
    rw [List.length_append]
    exact Nat.add_le_add hm hn
  fails {bs e} h he more := by
    obtain hfail | ⟨x, mid, hok, hfail⟩ := error_of_bind h
    · exact bind_error (hd.fails hfail he more)
    · obtain ⟨used, rfl, -, hreads⟩ := hd.reads hok
      rw [List.append_assoc, bind_ok (hreads _)]
      exact (hf x).fails hfail he more

theorem before (hd : Incremental m d) (hf : ∀ x, Incremental n (f x)) : Incremental n (d >>= f) :=
  (hd.bind hf).mono (Nat.le_add_left n m)

theorem andThen (hd : Incremental n d) (hf : ∀ x, Incremental m (f x)) : Incremental n (d >>= f) :=
  (hd.bind hf).mono (Nat.le_add_right n m)

theorem map (hd : Incremental n d) (g : α → β) : Incremental n (g <$> d) := by
  rw [map_eq_pure_bind]
  exact hd.andThen fun x => .pure (g x)

theorem take (n : Nat) : Incremental n (Decode.take n) where
  reads {bs x rest} h := by
    rw [Decode.take, Bytes.shorterThan_eq] at h
    split at h
    case isTrue => cases h
    case isFalse hn =>
      rw [List.splitAt_eq] at h
      cases h
      have hn : n ≤ bs.length := by simpa using hn
      have hlength : (bs.take n).length = n := List.length_take_of_le hn
      exact ⟨bs.take n, by simp, Nat.le_of_eq hlength.symm, reads_take hlength⟩
  fails {bs e} h he more := by
    rw [Decode.take] at h
    split at h
    · cases h
      cases he
    · cases h

/-- Looking whether there are `k` bytes more changes nothing before a decoder that takes as many. -/
theorem expect (hd : Incremental k d) : Incremental k (Decode.expect k >>= fun _ => d) := by
  have hshort {bs : Bytes} (h : bs.length < k) :
      (Decode.expect k >>= fun _ => d) bs = .error (.truncated k bs.length) := by
    refine bind_error ?_
    rw [Decode.expect, Bytes.shorterThan_eq, if_pos (by simp [h])]
  constructor
  · intro bs x rest h
    obtain hlt | hle := Nat.lt_or_ge bs.length k
    · rw [hshort hlt] at h
      cases h
    · rw [expect_bind hle] at h
      obtain ⟨used, rfl, hk, hreads⟩ := hd.reads h
      refine ⟨used, rfl, hk, fun more => ?_⟩
      rw [expect_bind (by rw [List.length_append]; omega)]
      exact hreads more
  · intro bs e h he more
    obtain hlt | hle := Nat.lt_or_ge bs.length k
    · rw [hshort hlt] at h
      cases h
      cases he
    · rw [expect_bind hle] at h
      rw [expect_bind (by rw [List.length_append]; omega)]
      exact hd.fails h he more

theorem many (hd : Incremental k d) (n : Nat) : Incremental (n * k) (Decode.many d n) := by
  induction n with
  | zero => exact (pure []).mono (Nat.le_of_eq (Nat.zero_mul k))
  | succ n ih =>
    rw [many_succ, Nat.succ_mul, Nat.add_comm]
    exact hd.bind fun x => ih.andThen fun xs => .pure (x :: xs)

/-- On fewer bytes than a value takes there is nothing but want of input. -/
theorem incomplete (hd : Incremental m d) {used part : Bytes} (hreads : Reads d used x)
    (hpart : part <+: used) (hlt : part.length < used.length) :
    ∃ e, d part = .error e ∧ e.isIncomplete = true := by
  obtain ⟨more, rfl⟩ := hpart
  have hall := hreads.exact
  cases hpart : d part with
  | ok r =>
    -- what was read from the part would leave the rest of the bytes
    obtain ⟨used', hused', -, hreads'⟩ := hd.reads hpart
    rw [hused', List.append_assoc, hreads'] at hall
    have hmore : more = [] := by simp_all
    simp [hmore] at hlt
  | error e =>
    refine ⟨e, rfl, ?_⟩
    cases he : e.isIncomplete with
    | true => rfl
    | false => rw [hd.fails hpart he more] at hall; cases hall

end Incremental

/-! ## Numbers, lengths and texts -/

theorem incremental_primitive (k : Primitive) : Incremental k.size (primitive k) :=
  (Incremental.take k.size).map k.decode

theorem incremental_byte : Incremental 1 byte := (Incremental.take 1).map _

theorem incremental_int8 : Incremental 1 int8 := (incremental_primitive (.int .w8 .signed)).map _

theorem incremental_int32 : Incremental 4 int32 :=
  (incremental_primitive (.int .w32 .signed)).map _

theorem incremental_int64 : Incremental 8 int64 := incremental_primitive (.int .w64 .signed)

theorem incremental_size : Incremental 4 size := by
  refine incremental_int32.andThen (m := 0) fun n => ?_
  dsimp only
  split
  · exact (Incremental.throw 0 _).before fun _ => .pure _
  · exact .pure _

theorem incremental_length (limit : Nat) : Incremental 4 (length limit) := by
  refine incremental_size.andThen (m := 0) fun n => ?_
  dsimp only
  split
  · exact (Incremental.throw 0 _).before fun _ => .pure _
  · exact .pure _

theorem incremental_characters (n : Nat) :
    Incremental 0 (take n >>= fun bs =>
      match ModifiedUtf8.decode bs with
      | .ok s => Pure.pure s
      | .error e => throw e) := by
  refine (Incremental.take n).before fun bs => ?_
  split
  · exact .pure _
  · exact .throw 0 _

theorem incremental_text : Incremental 4 text := by
  refine incremental_int32.andThen (m := 0) fun n => ?_
  dsimp only
  split
  · exact (Incremental.throw 0 _).before fun _ => incremental_characters _
  · exact incremental_characters _

end Decode

open Decode

/-! ## Scalars and structured objects -/

theorem Scalar.incremental_decode (s : Scalar) : Incremental 0 s.decode := by
  cases s with
  | text => exact incremental_text.mono (Nat.zero_le _)
  | uuid => exact incremental_int64.before fun _ => incremental_int64.before fun _ => .pure _
  | decimal =>
    refine incremental_int32.before fun scale => incremental_size.before fun n =>
      (Incremental.take n).before fun bs => ?_
    split
    · exact .pure _
    · exact .throw 0 _
  | timestamp =>
    refine incremental_int64.before fun seconds => incremental_int32.before fun nanoseconds => ?_
    split
    · exact .pure _
    · exact .throw 0 _
  | constant =>
    refine incremental_int32.before fun id => ?_
    split
    · exact incremental_text.before fun _ => incremental_int32.before fun _ => .pure _
    · exact incremental_int32.before fun _ => .pure _

theorem StructuredObject.incremental_decode (limit : Nat) : Incremental 0 (decode limit) := by
  have hpayload (o : Bytes → StructuredObject) :
      Incremental 0 (Decode.length limit >>= fun n => take n >>= fun bs => Pure.pure (o bs)) :=
    (incremental_length limit).before fun n => (Incremental.take n).before fun _ => .pure _
  refine incremental_byte.before fun flags => incremental_int32.before fun id => ?_
  -- the name, then the schema id, is read where the bytes before it say so
  have hschema (o : Option Int32 → Bytes → StructuredObject) : Incremental 0
      (if flags &&& schemaFlag = schemaFlag then
        (some <$> int32) >>= fun schemaId =>
          Decode.length limit >>= fun n => take n >>= fun bs => Pure.pure (o schemaId bs)
      else Pure.pure none >>= fun schemaId =>
          Decode.length limit >>= fun n => take n >>= fun bs => Pure.pure (o schemaId bs)) := by
    split
    · exact (incremental_int32.map _).before fun _ => hpayload _
    · exact (Incremental.pure none).before fun _ => hpayload _
  dsimp only
  split
  · exact (incremental_text.map _).before fun _ => hschema _
  · exact (Incremental.pure none).before fun _ => hschema _

/-! ## Values -/

namespace DecodeLimits

variable {α : Type} {nested : Request → Decode Value} {n : Nat} (l : DecodeLimits)

/-- A number of elements, and then as many bytes as this number of elements takes at least. -/
theorem incremental_count (size : Nat) {f : Nat → Decode α}
    (hf : ∀ n, Incremental (n * size) (f n)) : Incremental 0 (l.count size >>= f) := by
  rw [count_bind]
  exact (incremental_length _).before fun n => (hf n).expect.mono (Nat.zero_le _)

theorem incremental_scalarElement (s : Scalar) : Incremental 1 (scalarElement s) := by
  refine incremental_byte.andThen (m := 0) fun tag => ?_
  split
  · exact .pure none
  · split
    · exact s.incremental_decode.map _
    · exact .throw 0 _

theorem incremental_entry (hnested : ∀ r, Incremental 1 (nested r)) (r : Request) :
    Incremental 2 (readTagged.entry nested r) :=
  (hnested r.key).bind fun _ => (hnested r.value).andThen fun _ => .pure _

theorem incremental_readTagged (hnested : ∀ r, Incremental 1 (nested r)) (r : Request) (tag : Tag) :
    Incremental 0 (l.readTagged nested r tag) := by
  cases tag with
  | null => exact .pure _
  | one f =>
    exact (Incremental.lift _).before fun k => (incremental_primitive k).before fun x => .pure _
  | array f =>
    exact (Incremental.lift _).before fun k => l.incremental_count k.size fun n =>
      ((incremental_primitive k).many n).andThen fun xs => .pure _
  | scalar s => exact s.incremental_decode.before fun x => .pure _
  | scalarArray s =>
    exact l.incremental_count 1 fun n =>
      ((incremental_scalarElement s).many n).andThen fun xs => .pure _
  | objectArray =>
    exact l.incremental_count 1 fun n => ((hnested _).many n).andThen fun xs => .pure _
  | collection =>
    refine l.incremental_count 1 fun n => incremental_int8.before fun code =>
      (Incremental.lift _).before fun flavor => ?_
    exact ((hnested _).many n).andThen fun xs => .pure _
  | map =>
    refine l.incremental_count 2 fun n => incremental_int8.before fun code =>
      (Incremental.lift _).before fun flavor => ?_
    exact ((incremental_entry hnested r).many n).andThen fun es => .pure _
  | mapEntry => exact (incremental_entry hnested r).before fun e => .pure _
  | object =>
    exact (StructuredObject.incremental_decode _).before fun o =>
      (Incremental.lift _).before fun _ => .pure _

theorem incremental_readWith (hnested : ∀ r, Incremental 1 (nested r)) (r : Request) :
    Incremental 1 (l.readWith nested r) := by
  refine incremental_byte.andThen (m := 0) fun b => ?_
  split
  · exact l.incremental_readTagged hnested r _
  · exact .throw 0 _

theorem incremental_read (levels : Nat) (r : Request) : Incremental 1 (l.read levels r) := by
  induction levels generalizing r with
  | zero => exact l.incremental_readWith (fun _ => .throw 1 _) r
  | succ levels ih => exact l.incremental_readWith ih r

end DecodeLimits

/-! ## Values at a cursor -/

namespace Marshaller

variable {α : Type} {x : α} (m : Marshaller) (r : Request) (convert : Value → Except Error α)

theorem incremental_readAs : Incremental 1 (m.readAs r convert) := by
  refine (m.limits.incremental_read _ r).andThen (m := 0) fun v => ?_
  split
  · exact .pure _
  · exact .throw 0 _

variable {r convert}

theorem decodeAs_of_reads {used : Bytes} (h : Reads (m.readAs r convert) used x) (position : Nat)
    (more : Bytes) : m.decodeAs ⟨position, used ++ more⟩ r convert =
      .ok (some (x, ⟨position + used.length, more⟩)) := by
  have hlength : (used ++ more).length - more.length = used.length := by
    rw [List.length_append, Nat.add_sub_cancel]
  simp only [decodeAs, runOn, StateT.run, h more, ReadCursor.advance, hlength]
  simp

theorem decodeAs_eq_none {c : ReadCursor} {e : Error} (h : m.readAs r convert c.rest = .error e)
    (he : e.isIncomplete = true) : m.decodeAs c r convert = .ok none := by
  simp only [decodeAs, runOn, StateT.run, h, he, if_true]

theorem decodeAs_eq_error_iff {c : ReadCursor} {e : Error} :
    m.decodeAs c r convert = .error e ↔
      m.readAs r convert c.rest = .error e ∧ e.isIncomplete = false := by
  simp only [decodeAs, runOn, StateT.run]
  cases h : m.readAs r convert c.rest with
  | ok r => simp
  | error e' =>
    cases he : e'.isIncomplete with
    | true => simpa [he] using fun h => h ▸ he
    | false => simpa [he] using fun h => h ▸ he

variable (r convert)

/-- A value that is read from some bytes is decoded from these bytes alone, whatever follows them,
and from fewer of them nothing is decoded yet; an error stays the same error, whatever follows. A
cursor is handed back with a value only, so it stays where it was without one. -/
theorem decodeAs_incremental (bs : Bytes) :
    (∀ x rest, (m.readAs r convert).runOn bs = .ok (x, rest) →
      ∃ n ≤ bs.length, rest = bs.drop n ∧
        (∀ position more, m.decodeAs ⟨position, bs.take n ++ more⟩ r convert =
          .ok (some (x, ⟨position + n, more⟩))) ∧
        ∀ position, ∀ k < n, m.decodeAs ⟨position, bs.take k⟩ r convert = .ok none) ∧
    ∀ position e, m.decodeAs ⟨position, bs⟩ r convert = .error e →
      ∀ more, m.decodeAs ⟨position, bs ++ more⟩ r convert = .error e := by
  constructor
  · intro x rest hread
    obtain ⟨used, rfl, -, hreads⟩ := (m.incremental_readAs r convert).reads hread
    refine ⟨used.length, by simp, by simp, fun position more => ?_, fun position k hk => ?_⟩
    · rw [List.take_left]
      exact m.decodeAs_of_reads hreads position more
    · have htake : (used ++ rest).take k = used.take k :=
        List.take_append_of_le_length (Nat.le_of_lt hk)
      obtain ⟨e, he, hincomplete⟩ := (m.incremental_readAs r convert).incomplete hreads
        (List.take_prefix k used) (by rw [List.length_take]; omega)
      rw [htake]
      exact m.decodeAs_eq_none he hincomplete
  · intro position e h more
    obtain ⟨hread, he⟩ := m.decodeAs_eq_error_iff.mp h
    exact m.decodeAs_eq_error_iff.mpr ⟨(m.incremental_readAs r convert).fails hread he more, he⟩

/-- An array of texts, cut anywhere, and one with an element of another kind. -/
theorem decodeAt_texts_incremental :
    let m := Marshaller.ofConfig {} .empty
    let t : HostType := .list (.option (.scalar .text))
    let bs : Bytes := [20, 2, 0, 0, 0, 9, 1, 0, 0, 0, 97, 101]
    let bad : Bytes := [20, 1, 0, 0, 0, 3]
    let e : Error := .elementTag 3 (.scalar .text)
    (m.read t).runOn bs = .ok ([some "a", none], []) ∧
      (∀ position more, m.decodeAt ⟨position, bs ++ more⟩ t =
        .ok (some ([some "a", none], ⟨position + 12, more⟩))) ∧
      (∀ position, ∀ k < 12, m.decodeAt ⟨position, bs.take k⟩ t = .ok none) ∧
      m.decodeAt ⟨0, bad⟩ t = .error e ∧
      ∀ more, m.decodeAt ⟨0, bad ++ more⟩ t = .error e := by
  intro m t bs bad e
  have hread : (m.read t).runOn bs = .ok ([some "a", none], []) := rfl
  have hbad : m.decodeAt ⟨0, bad⟩ t = .error e := rfl
  obtain ⟨n, hn, hdrop, hall, hpart⟩ :=
    (m.decodeAs_incremental t.request (t.ofValue m.payloads) bs).1 _ _ hread
  have hlength : n = 12 := by
    have hle : bs.length ≤ n := List.drop_eq_nil_iff.mp hdrop.symm
    exact Nat.le_antisymm hn hle
  subst hlength
  exact ⟨hread, hall, hpart, hbad,
    (m.decodeAs_incremental t.request (t.ofValue m.payloads) bad).2 0 e hbad⟩

end Marshaller

end WireCodec
