import Mathlib.Algebra.BigOperators.Group.List.Defs
import Mathlib.Algebra.Ring.Nat
import WireCodec.Proofs.RoundTrip.Types
import WireCodec.Proofs.Text.Groups

/-!
# Reading hostile input

A decoder that is `Paid` never makes more of its input than the input has bytes: a value weighs what
it holds, and is paid for with the bytes that were taken for it and a credit, the bytes that were
taken before. Values are paid for with a byte for each value and each element of an array
(`Value.total`), whatever numbers of elements the input claims to hold. Such a decoder also looks at
nothing beyond the input. Since each value takes a byte, none is nested deeper than the input is
long (`DecodeLimits.agreeUpTo_read`).
-/

namespace WireCodec

theorem Error.isIncomplete_of_kind {e : Error} (h : e.kind = .serialization) :
    e.isIncomplete = false := by
  cases e <;> first | rfl | cases h

namespace Decode

variable {α β : Type} {d d' : Decode α} {f f' : α → Decode β} {P : α → Prop} {w : α → Nat}
  {w' : β → Nat} {bs : Bytes} {x : α} {c k m n : Nat}

/-! ## Paying for what is read -/

/-- What is read weighs no more than the bytes taken for it and a credit together; where the input
ends early, the bytes that are told to be missing are, and those told to be there were there. -/
structure Paid (c : Nat) (w : α → Nat) (d : Decode α) : Prop where
  weight : ∀ {bs x rest}, d bs = .ok (x, rest) →
    rest.length ≤ bs.length ∧ rest.length + w x ≤ bs.length + c
  lack : ∀ {bs needed available}, d bs = .error (.truncated needed available) →
    available < needed ∧ available ≤ bs.length

namespace Paid

theorem pure (h : w x ≤ c) : Paid c w (Pure.pure x) where
  weight hok := by
    cases hok
    exact ⟨Nat.le_refl _, Nat.add_le_add_left h _⟩
  lack := nofun

theorem throw {e : Error} (w : α → Nat) (h : e.isIncomplete = false) :
    Paid c w (MonadExcept.throw e : Decode α) where
  weight := nofun
  lack herror := by
    cases herror
    cases h

theorem bind (hd : Paid c w d) (hf : ∀ x, Paid (w x) w' (f x)) : Paid c w' (d >>= f) where
  weight h := by
    obtain ⟨x, mid, hx, hy⟩ := ok_of_bind h
    have hmid := hd.weight hx
    have hrest := (hf x).weight hy
    omega
  lack h := by
    obtain herror | ⟨x, mid, hx, herror⟩ := error_of_bind h
    · exact hd.lack herror
    · have hmid := hd.weight hx
      have hlack := (hf x).lack herror
      omega

/-- A credit that is not used is left over. -/
theorem frame (hd : Paid c w d) (k : Nat) : Paid (c + k) (fun x => w x + k) d where
  weight h := by
    have hweight := hd.weight h
    omega
  lack := hd.lack

theorem mono {v : α → Nat} (hd : Paid c w d) (h : ∀ x, v x ≤ w x) : Paid c v d where
  weight {_ x _} hok := by
    have hweight := hd.weight hok
    have hle := h x
    omega
  lack := hd.lack

theorem free (hd : Paid c w d) (h : ∀ x, c ≤ w x) : Paid 0 (fun _ => 0) d where
  weight {_ x _} hok := by
    have hweight := hd.weight hok
    have hle := h x
    omega
  lack := hd.lack

/-- A decoder before one that needs a credit leaves it as it is. -/
theorem before (hd : Paid 0 (fun _ => 0) d) (hf : ∀ x, Paid c w' (f x)) : Paid c w' (d >>= f) := by
  have hframe := hd.frame c
  simp only [Nat.zero_add] at hframe
  exact hframe.bind hf

theorem map {g : α → β} (hd : Paid c w d) (h : ∀ x, w' (g x) ≤ w x) : Paid c w' (g <$> d) := by
  rw [map_eq_pure_bind]
  exact hd.bind fun x => .pure (h x)

theorem many (hd : Paid 0 w d) (n : Nat) :
    Paid 0 (fun xs => (xs.map w).sum) (many d n) := by
  induction n with
  | zero => exact .pure (Nat.le_refl 0)
  | succ n ih =>
    rw [many_succ]
    refine hd.bind fun x => ?_
    have htail := ih.frame (w x)
    rw [Nat.zero_add] at htail
    refine htail.bind fun xs => .pure (Nat.le_of_eq ?_)
    rw [List.map_cons, List.sum_cons, Nat.add_comm]

/-- As many values as were paid for with a byte each. -/
theorem many_length (hd : Paid 0 (fun _ => 1) d) (n : Nat) :
    Paid 0 List.length (Decode.many d n) := by
  refine (hd.many n).mono fun xs => Nat.le_of_eq ?_
  rw [List.map_const', List.sum_replicate_nat, Nat.mul_one]

theorem take (n : Nat) : Paid 0 (fun _ => n) (take n) where
  weight {bs x rest} h := by
    obtain ⟨used, rfl, hlength, -⟩ := (Incremental.take n).reads h
    rw [List.length_append]
    omega
  lack {bs needed available} h := by
    rw [Decode.take, Bytes.shorterThan_eq] at h
    split at h
    case isTrue hshort =>
      cases h
      exact ⟨of_decide_eq_true hshort, Nat.le_refl _⟩
    case isFalse => cases h

theorem expect (n : Nat) : Paid 0 (fun _ => 0) (expect n) where
  weight {bs x rest} h := by
    rw [Decode.expect] at h
    split at h <;> cases h
    exact ⟨Nat.le_refl _, Nat.le_refl _⟩
  lack {bs needed available} h := by
    rw [Decode.expect, Bytes.shorterThan_eq] at h
    split at h
    case isTrue hshort =>
      cases h
      exact ⟨of_decide_eq_true hshort, Nat.le_refl _⟩
    case isFalse => cases h

theorem lift {x? : Except Error α} (h : FailsWith (fun e => e.isIncomplete = false) x?) :
    Paid 0 (fun _ => 0) (liftM x? : Decode α) := by
  cases x? with
  | ok x => exact .pure (Nat.le_refl 0)
  | error e => exact .throw _ (h e rfl)

end Paid

/-! ## Numbers, lengths and texts -/

theorem paid_primitive (k : Primitive) : Paid 0 (fun _ => k.size) (primitive k) :=
  (Paid.take k.size).map fun _ => Nat.le_refl _

theorem paid_byte : Paid 0 (fun _ => 1) byte := (Paid.take 1).map fun _ => Nat.le_refl _

theorem paid_int8 : Paid 0 (fun _ => 0) int8 :=
  (paid_primitive (.int .w8 .signed)).map fun _ => Nat.zero_le _

theorem paid_int32 : Paid 0 (fun _ => 0) int32 :=
  (paid_primitive (.int .w32 .signed)).map fun _ => Nat.zero_le _

theorem paid_int64 : Paid 0 (fun _ => 0) int64 :=
  (paid_primitive (.int .w64 .signed)).mono fun _ => Nat.zero_le _

theorem paid_size : Paid 0 (fun _ => 0) size := by
  refine paid_int32.bind fun n => ?_
  dsimp only
  split
  · exact (Paid.throw (fun _ => 0) rfl).bind fun _ => .pure (Nat.le_refl 0)
  · exact .pure (Nat.le_refl 0)

theorem paid_length (limit : Nat) : Paid 0 (fun _ => 0) (length limit) := by
  refine paid_size.bind fun n => ?_
  dsimp only
  split
  · exact (Paid.throw (fun _ => 0) rfl).bind fun _ => .pure (Nat.le_refl 0)
  · exact .pure (Nat.le_refl 0)

theorem paid_characters (n : Nat) :
    Paid 0 (fun _ => 0) (take n >>= fun bs =>
      match ModifiedUtf8.decode bs with
      | .ok s => Pure.pure s
      | .error e => throw e) := by
  refine ((Paid.take n).free fun _ => Nat.zero_le _).bind fun bs => ?_
  split
  case h_1 s hs => exact .pure (Nat.le_refl 0)
  case h_2 e he => exact .throw _ (Error.isIncomplete_of_kind (ModifiedUtf8.failsWith_decode e he))

theorem paid_text : Paid 0 (fun _ => 0) text := by
  refine paid_int32.bind fun n => ?_
  dsimp only
  split
  · exact (Paid.throw (fun _ => 0) rfl).bind fun _ => paid_characters _
  · exact paid_characters _

end Decode

open Decode

/-! ## Scalars and structured objects -/

theorem Decimal.failsWith_accumulate {length i m : Nat} {bs : Bytes} :
    FailsWith (fun e => e.kind = .serialization) (accumulate length i m bs) := by
  induction bs generalizing i m with
  | nil => exact .ok _
  | cons b bs ih =>
    rw [accumulate]
    split
    · exact ih
    · exact .error rfl

theorem Decimal.failsWith_ofWire {scale : Int} {bs : Bytes} :
    FailsWith (fun e => e.kind = .serialization) (ofWire scale bs) := by
  cases bs with
  | nil => exact .error rfl
  | cons first rest =>
    refine failsWith_accumulate.bind fun magnitude => ?_
    dsimp only
    split
    · exact .error rfl
    · split
      · exact .error rfl
      · split
        · exact .ok _
        · exact .error rfl

theorem TypeRef.paid_decode : Paid 0 (fun _ => 0) TypeRef.decode := by
  refine paid_int32.bind fun id => ?_
  split
  · exact paid_text.map fun _ => Nat.le_refl 0
  · exact .pure (Nat.le_refl 0)

theorem Scalar.paid_decode (s : Scalar) : Paid 0 (fun _ => 0) s.decode := by
  cases s with
  | text => exact paid_text
  | uuid => exact paid_int64.bind fun _ => paid_int64.bind fun _ => .pure (Nat.le_refl 0)
  | decimal =>
    refine paid_int32.bind fun scale => paid_size.bind fun n =>
      ((Paid.take n).free fun _ => Nat.zero_le _).bind fun bs => ?_
    split
    case h_1 d hd => exact .pure (Nat.le_refl 0)
    case h_2 e he => exact .throw _ (Error.isIncomplete_of_kind (Decimal.failsWith_ofWire e he))
  | timestamp =>
    refine paid_int64.bind fun seconds => paid_int32.bind fun nanoseconds => ?_
    split
    · exact .pure (Nat.le_refl 0)
    · exact .throw _ rfl
  | constant =>
    change Paid 0 _ EnumConstant.decode
    rw [EnumConstant.decode_eq]
    exact TypeRef.paid_decode.bind fun t => paid_int32.bind fun ordinal => .pure (Nat.le_refl 0)

theorem StructuredObject.paid_decode (limit : Nat) : Paid 0 (fun _ => 0) (decode limit) := by
  rw [decode_eq]
  refine (paid_byte.free fun _ => Nat.zero_le _).bind fun flags => TypeRef.paid_decode.bind fun t =>
    Paid.bind (w := fun _ => 0) ?_ fun schemaId => (paid_length limit).bind fun n =>
      ((Paid.take n).free fun _ => Nat.zero_le _).bind fun payload => .pure (Nat.le_refl 0)
  split
  · exact paid_int32.map fun _ => Nat.le_refl 0
  · exact .pure (Nat.le_refl 0)

/-! ## Values -/

namespace Value

/-- The elements of an array that are no values of their own. -/
def leaves : Value → Nat
  | primitiveArray _ xs => xs.length
  | scalarArray _ xs => xs.length
  | _ => 0

/-- The values in a value, itself among them, and the elements of the arrays in it. -/
def total (v : Value) : Nat := (v.inside.map fun w => 1 + w.leaves).sum

theorem total_eq (v : Value) : v.total = 1 + v.leaves + (v.parts.map total).sum := by
  rw [total, inside_eq, List.map_cons, List.sum_cons, List.flatMap_def, List.map_flatten,
    List.sum_flatten, List.map_map, List.map_map]
  rfl

theorem total_map (flavor : MapFlavor) (entries : List (Value × Value)) :
    (map flavor entries).total = 1 + (entries.map fun e => e.1.total + e.2.total).sum := by
  have hentry (e : Value × Value) : ([e.1, e.2].map total).sum = e.1.total + e.2.total := by simp
  rw [total_eq, parts, List.flatMap_def, List.map_flatten, List.sum_flatten, List.map_map,
    List.map_map]
  exact congrArg _ (congrArg _ (List.map_congr_left fun e _ => hentry e))

theorem total_mapEntry (key value : Value) :
    (mapEntry key value).total = 1 + (key.total + value.total) := by
  simp [total_eq (mapEntry key value), leaves, parts]

end Value

theorem Primitive.size_pos (k : Primitive) : 0 < k.size := by
  cases k with
  | int w s => cases w <;> exact Nat.succ_pos _
  | _ => exact Nat.succ_pos _

theorem Request.failsWith_primitive {r : Request} {f : Form} :
    FailsWith (fun e => e.isIncomplete = false) (r.primitive f) := by
  intro e h
  rw [primitive.eq_def] at h
  repeat' split at h
  all_goals cases h
  rfl

theorem Request.failsWith_primitiveArray {r : Request} {f : Form} :
    FailsWith (fun e => e.isIncomplete = false) (r.primitiveArray f) := by
  intro e h
  rw [primitiveArray.eq_def] at h
  repeat' split at h
  all_goals cases h
  rfl

namespace DecodeLimits

open Value

variable {l : DecodeLimits} {nested : Request → Decode Value}

theorem failsWith_checkObject {r : Request} {o : StructuredObject} :
    FailsWith (fun e => e.isIncomplete = false) (l.checkObject r o) := by
  intro e h
  rw [checkObject.eq_def] at h
  repeat' split at h
  all_goals cases h
  rfl

theorem paid_count (size : Nat) : Paid 0 (fun _ => 0) (l.count size) :=
  (paid_length _).bind fun _ => (Paid.expect _).bind fun _ => .pure (Nat.le_refl 0)

theorem paid_scalarElement (s : Scalar) : Paid 0 (fun _ => 1) (scalarElement s) := by
  refine paid_byte.bind fun tag => ?_
  split
  · exact .pure (Nat.le_refl 1)
  · split
    · have hscalar := s.paid_decode.frame 1
      exact hscalar.map fun _ => Nat.le_refl 1
    · exact .throw _ rfl

theorem paid_entry (hnested : ∀ r, Paid 0 total (nested r)) (r : Request) :
    Paid 0 (fun e => e.1.total + e.2.total) (readTagged.entry nested r) := by
  refine (hnested r.key).bind fun k => ?_
  have hvalue := (hnested r.value).frame k.total
  rw [Nat.zero_add] at hvalue
  exact hvalue.bind fun v => .pure (Nat.le_of_eq (Nat.add_comm _ _))

theorem CollectionFlavor.failsWith_ofCode {n : Int} :
    FailsWith (fun e => e.isIncomplete = false) (CollectionFlavor.ofCode n) := by
  intro e h
  rw [CollectionFlavor.ofCode] at h
  split at h <;> cases h
  rfl

theorem MapFlavor.failsWith_ofCode {n : Int} :
    FailsWith (fun e => e.isIncomplete = false) (MapFlavor.ofCode n) := by
  intro e h
  rw [MapFlavor.ofCode] at h
  split at h <;> cases h
  rfl

/-- A value is paid for with the byte of its tag and what its contents are paid for with. -/
theorem paid_pack {α : Type} {d : Decode α} {w : α → Nat} {g : α → Value} (hd : Paid 0 w d)
    (h : ∀ x, (g x).total ≤ 1 + w x) : Paid 1 total (d >>= fun x => pure (g x)) := by
  have hframe := hd.frame 1
  rw [Nat.zero_add] at hframe
  exact hframe.bind fun x => .pure (Nat.le_trans (h x) (Nat.le_of_eq (Nat.add_comm _ _)))

/-- What is read after a tag is paid for with the byte of the tag and those that were taken. -/
theorem paid_readTagged (hnested : ∀ r, Paid 0 total (nested r)) (r : Request) (tag : Tag) :
    Paid 1 total (l.readTagged nested r tag) := by
  cases tag with
  | null => exact .pure (Nat.le_refl 1)
  | one f =>
    exact .before (.lift Request.failsWith_primitive) fun k =>
      paid_pack (paid_primitive k) fun x => Nat.le_add_right 1 _
  | array f =>
    refine .before (.lift Request.failsWith_primitiveArray) fun k =>
      .before (paid_count _) fun n => ?_
    have helement : Paid 0 (fun _ => 1) (Decode.primitive k) :=
      (paid_primitive k).mono fun _ => k.size_pos
    exact paid_pack (helement.many_length n) fun xs => Nat.le_refl _
  | scalar s => exact paid_pack s.paid_decode fun x => Nat.le_refl 1
  | scalarArray s =>
    exact .before (paid_count _) fun n =>
      paid_pack ((paid_scalarElement s).many_length n) fun xs => Nat.le_refl _
  | objectArray =>
    exact .before (paid_count _) fun n =>
      paid_pack ((hnested _).many n) fun xs => Nat.le_of_eq (total_eq _)
  | collection =>
    exact .before (paid_count _) fun n => .before paid_int8 fun code =>
      .before (.lift CollectionFlavor.failsWith_ofCode) fun flavor =>
        paid_pack ((hnested _).many n) fun xs => Nat.le_of_eq (total_eq _)
  | map =>
    exact .before (paid_count _) fun n => .before paid_int8 fun code =>
      .before (.lift MapFlavor.failsWith_ofCode) fun flavor =>
        paid_pack ((paid_entry hnested r).many n) fun es => Nat.le_of_eq (total_map flavor es)
  | mapEntry =>
    exact paid_pack (paid_entry hnested r) fun e => Nat.le_of_eq (total_mapEntry e.1 e.2)
  | object =>
    exact .before (StructuredObject.paid_decode _) fun o =>
      .before (.lift failsWith_checkObject) fun _ => .pure (Nat.le_refl 1)

theorem paid_readWith (hnested : ∀ r, Paid 0 total (nested r)) (r : Request) :
    Paid 0 total (l.readWith nested r) := by
  refine paid_byte.bind fun b => ?_
  split
  · exact paid_readTagged hnested r _
  · exact .throw _ rfl

/-- Values are paid for with the bytes that are taken for them, however deep they nest. -/
theorem paid_read (levels : Nat) (r : Request) : Paid 0 total (l.read levels r) := by
  induction levels generalizing r with
  | zero => exact paid_readWith (fun _ => .throw _ rfl) r
  | succ levels ih => exact paid_readWith ih r

/-! ## Nesting -/

/-- Two decoders do the same on all input of at most `n` bytes. -/
def AgreeUpTo {α : Type} (n : Nat) (d d' : Decode α) : Prop :=
  ∀ bs : Bytes, bs.length ≤ n → d bs = d' bs

namespace AgreeUpTo

variable {α β : Type} {d d' : Decode α} {f f' : α → Decode β} {P : α → Prop} {k n : Nat}

theorem bind (hd : AgreeUpTo n d d') (hyields : YieldsUpTo n P d)
    (hf : ∀ x, AgreeUpTo n (f x) (f' x)) : AgreeUpTo n (d >>= f) (d' >>= f') := by
  intro bs hbs
  have hsame := hd bs hbs
  cases h : d bs with
  | error e => rw [bind_error h, bind_error (hsame.symm.trans h)]
  | ok r =>
    obtain ⟨x, rest⟩ := r
    rw [bind_ok h, bind_ok (hsame.symm.trans h)]
    exact hf x rest (hyields bs x rest hbs h).1

theorem after (hyields : YieldsUpTo n P d) (hf : ∀ x, AgreeUpTo n (f x) (f' x)) :
    AgreeUpTo n (d >>= f) (d >>= f') :=
  bind (fun _ _ => rfl) hyields hf

theorem andThen (hd : AgreeUpTo n d d') (hyields : YieldsUpTo n P d) (f : α → Decode β) :
    AgreeUpTo n (d >>= f) (d' >>= f) :=
  bind hd hyields fun _ _ _ => rfl

theorem many (hd : AgreeUpTo n d d') (hyields : YieldsUpTo n P d) (k : Nat) :
    AgreeUpTo n (Decode.many d k) (Decode.many d' k) := by
  induction k with
  | zero => exact fun _ _ => rfl
  | succ k ih => exact bind hd hyields fun x => ih.andThen (hyields.many k) _

end AgreeUpTo

variable {nested' : Request → Decode Value} {P : Value → Prop} {n levels : Nat}

theorem agreeUpTo_entry (h : ∀ r, AgreeUpTo n (nested r) (nested' r))
    (hyields : ∀ r, YieldsUpTo n P (nested r)) (r : Request) :
    AgreeUpTo n (readTagged.entry nested r) (readTagged.entry nested' r) :=
  .bind (h r.key) (hyields r.key) fun _ => .andThen (h r.value) (hyields r.value) _

theorem agreeUpTo_readTagged (h : ∀ r, AgreeUpTo n (nested r) (nested' r))
    (hyields : ∀ r, YieldsUpTo n P (nested r)) (r : Request) (tag : Tag) :
    AgreeUpTo n (l.readTagged nested r tag) (l.readTagged nested' r tag) := by
  cases tag with
  | objectArray =>
    exact .after (yieldsUpTo_count _) fun k => .andThen (.many (h _) (hyields _) k)
      ((hyields _).many k) _
  | collection =>
    exact .after (yieldsUpTo_count _) fun k => .after (.any incremental_int8) fun code =>
      .after (.any (.lift _)) fun flavor => .andThen (.many (h _) (hyields _) k)
        ((hyields _).many k) _
  | map =>
    exact .after (yieldsUpTo_count _) fun k => .after (.any incremental_int8) fun code =>
      .after (.any (.lift _)) fun flavor => .andThen (.many (agreeUpTo_entry h hyields r)
        (yieldsUpTo_entry hyields r) k) ((yieldsUpTo_entry hyields r).many k) _
  | mapEntry => exact .andThen (agreeUpTo_entry h hyields r) (yieldsUpTo_entry hyields r) _
  | _ => exact fun _ _ => rfl

/-- The tag takes a byte, so nested values have one byte less to be read from. -/
theorem agreeUpTo_readWith (h : ∀ bs, bs.length < n → ∀ r, nested r bs = nested' r bs)
    (hyields : ∀ n r, YieldsUpTo n P (nested r)) (r : Request) :
    AgreeUpTo n (l.readWith nested r) (l.readWith nested' r) := by
  intro bs hbs
  rw [readWith, readWith]
  cases hbyte : byte bs with
  | error e => rw [bind_error hbyte, bind_error hbyte]
  | ok result =>
    obtain ⟨b, rest⟩ := result
    have hweight := (paid_byte.weight hbyte).2
    rw [bind_ok hbyte, bind_ok hbyte]
    cases Tag.ofByte? b with
    | none => rfl
    | some tag =>
      exact agreeUpTo_readTagged (fun r bs' hbs' => h bs' (by omega) r) (hyields rest.length) r tag
        rest (Nat.le_refl _)

theorem agreeUpTo_read (h : n ≤ levels) (r : Request) :
    AgreeUpTo n (l.read levels r) (l.read n r) := by
  have hyields (levels n : Nat) (r : Request) : YieldsUpTo n (fun _ => True) (l.read levels r) :=
    .any (l.incremental_read levels r)
  induction n generalizing levels r with
  | zero =>
    cases levels with
    | zero => exact fun _ _ => rfl
    | succ levels =>
      exact agreeUpTo_readWith (fun bs hbs => absurd hbs (Nat.not_lt_zero _)) (hyields levels) r
  | succ n ih =>
    cases levels with
    | zero => cases h
    | succ levels =>
      exact agreeUpTo_readWith (fun bs hbs r =>
        ih (Nat.le_of_succ_le_succ h) r bs (Nat.le_of_lt_succ hbs)) (hyields levels) r

end DecodeLimits

namespace Marshaller

open Value

theorem paid_read (m : Marshaller) : Paid 0 total (m.read .value) :=
  (DecodeLimits.paid_read _ _).bind fun _ => .pure (Nat.le_refl _)

/-- Hostile input does no harm. A value that is read is that of the bytes taken for it, whatever
follows them; all its lengths and its nesting are within the limits, and it holds no more values and
elements of arrays than the bytes taken. An error stays the same whatever follows, or else says how
many bytes were looked for and how many there were. Nothing is read at a greater depth than the
input is long, however deep values may nest. -/
theorem guarded_unmarshalValue (m : Marshaller) (bs : Bytes) :
    (∀ v, m.unmarshalValue bs = .ok v → ∃ used rest, bs = used ++ rest ∧
      (∀ more, (m.read .value).runOn (used ++ more) = .ok (v, more)) ∧
      v.Within m.config.maxArrayLength m.config.maxNestingDepth ∧ v.total ≤ used.length) ∧
    (∀ e, m.unmarshalValue bs = .error e →
      (∀ more, m.unmarshalValue (bs ++ more) = .error e) ∨
      ∃ needed available, e = .truncated needed available ∧ available < needed ∧
        available ≤ bs.length) ∧
    ∀ depth, bs.length ≤ depth →
      (m.limits.read depth .any).runOn bs = (m.limits.read bs.length .any).runOn bs := by
  have hincremental :=
    m.incremental_readAs HostType.value.request (HostType.value.ofValue m.payloads)
  refine ⟨fun v h => ?_, fun e h => ?_, fun depth hdepth =>
    DecodeLimits.agreeUpTo_read hdepth .any bs (Nat.le_refl _)⟩
  · obtain ⟨⟨w, rest⟩, hread, rfl⟩ := Encode.map_eq_ok.mp h
    obtain ⟨used, rfl, -, hreads⟩ := hincremental.reads hread
    obtain ⟨-, hlegible, hnesting⟩ := m.yieldsUpTo_read_value _ _ _ _ (Nat.le_refl _) hread
    have hweight := (m.paid_read.weight hreads.exact).2
    exact ⟨used, rest, rfl, hreads, ⟨fun w hw => (hlegible w hw).limited, hnesting⟩,
      by simpa using hweight⟩
  · have hread : m.read .value bs = .error e := by
      change Prod.fst <$> m.read .value bs = _ at h
      cases hbs : m.read .value bs with
      | ok r => rw [hbs] at h; cases h
      | error e' => rw [hbs] at h; cases h; rfl
    cases e with
    | truncated needed available =>
      exact .inr ⟨needed, available, rfl, m.paid_read.lack hread⟩
    | _ =>
      refine .inl fun more => ?_
      change Prod.fst <$> m.read .value (bs ++ more) = _
      rw [show m.read .value (bs ++ more) = _ from hincremental.fails hread rfl more]
      rfl

/-- An array with an array in it, and one that claims five elements and has none. -/
theorem guarded_unmarshalValue_of_counts :
    let m := ofConfig .default .empty
    let v : Value := .objectArray [.primitiveArray (.int .w8 .signed) [7, 8]]
    let bs : Bytes := [23, 1, 0, 0, 0, 12, 2, 0, 0, 0, 7, 8]
    let short : Bytes := [23, 5, 0, 0, 0]
    m.unmarshalValue bs = .ok v ∧ v.total = 4 ∧ v.total ≤ bs.length ∧
      m.unmarshalValue short = .error (.truncated 5 0) ∧
      ∀ more, m.unmarshalValue (bs ++ more) = .ok v := by
  intro m v bs short
  have hread : m.unmarshalValue bs = .ok v := rfl
  obtain ⟨used, rest, hbs, hall, -, htotal⟩ := (m.guarded_unmarshalValue bs).1 v hread
  have hle : used.length ≤ bs.length := by simp [hbs]
  refine ⟨hread, by decide, Nat.le_trans htotal hle, rfl, fun more => ?_⟩
  rw [hbs, List.append_assoc, unmarshalValue, unmarshal, hall]
  rfl

end Marshaller

end WireCodec
