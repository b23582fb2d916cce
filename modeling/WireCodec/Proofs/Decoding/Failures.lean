import WireCodec.Proofs.Decoding.Guards

/-!
What reading a value can fail with. Bytes that are no value of the type that is asked for tell what
is wrong with them, and nothing about the progress of the message that they were in.
-/

namespace WireCodec

namespace Decode

variable {α β : Type}

/-- However a decoder fails, its error has a property. -/
def FailsWith (P : Error → Prop) (d : Decode α) : Prop := ∀ bs, WireCodec.FailsWith P (d bs)

namespace FailsWith

variable {P : Error → Prop} {d : Decode α} {f : α → Decode β}

theorem pure (x : α) : FailsWith P (Pure.pure x : Decode α) := fun bs => .ok (x, bs)

theorem throw {e : Error} (h : P e) : FailsWith P (MonadExcept.throw e : Decode α) :=
  fun _ => .error h

theorem lift {x : Except Error α} (h : WireCodec.FailsWith P x) :
    FailsWith P (liftM x : Decode α) := by
  cases x with
  | ok x => exact .pure x
  | error e => exact .throw (h e rfl)

theorem bind (hd : FailsWith P d) (hf : ∀ x, FailsWith P (f x)) : FailsWith P (d >>= f) := by
  intro bs e h
  obtain hfail | ⟨x, mid, -, hfail⟩ := error_of_bind h
  · exact hd bs e hfail
  · exact hf x mid e hfail

theorem map (g : α → β) (hd : FailsWith P d) : FailsWith P (g <$> d) := by
  rw [map_eq_pure_bind]
  exact hd.bind fun x => .pure (g x)

theorem many (hd : FailsWith P d) (n : Nat) : FailsWith P (Decode.many d n) := by
  induction n with
  | zero => exact .pure []
  | succ n ih => exact hd.bind fun x => ih.bind fun xs => .pure (x :: xs)

end FailsWith

/-! ## Numbers, lengths and texts -/

/-- A decoder only fails with what is wrong with its bytes. -/
abbrev Foreign (d : Decode α) : Prop := FailsWith Error.Foreign d

theorem foreign_take (n : Nat) : Foreign (take n) := by
  intro bs
  rw [take]
  split
  · exact .error rfl
  · exact .ok _

theorem foreign_expect (n : Nat) : Foreign (expect n) := by
  intro bs
  rw [expect]
  split
  · exact .error rfl
  · exact .ok _

theorem foreign_primitive (k : Primitive) : Foreign (primitive k) := (foreign_take k.size).map _

theorem foreign_byte : Foreign byte := (foreign_take 1).map _

theorem foreign_int8 : Foreign int8 := (foreign_primitive _).map _

theorem foreign_int32 : Foreign int32 := (foreign_primitive _).map _

theorem foreign_int64 : Foreign int64 := foreign_primitive _

theorem foreign_size : Foreign size := by
  refine foreign_int32.bind fun n => ?_
  dsimp only
  split
  · exact .bind (.throw rfl) fun _ => .pure _
  · exact .pure _

theorem foreign_length (limit : Nat) : Foreign (length limit) := by
  refine foreign_size.bind fun n => ?_
  dsimp only
  split
  · exact .bind (.throw rfl) fun _ => .pure _
  · exact .pure _

theorem foreign_characters (n : Nat) :
    Foreign (take n >>= fun bs =>
      match ModifiedUtf8.decode bs with
      | .ok s => pure s
      | .error e => throw e) := by
  refine (foreign_take n).bind fun bs => ?_
  cases hs : ModifiedUtf8.decode bs with
  | ok s => exact .pure s
  | error e => exact .throw (e.foreign_of_serialization (ModifiedUtf8.failsWith_decode e hs))

theorem foreign_text : Foreign text := by
  refine foreign_int32.bind fun n => ?_
  dsimp only
  split
  · exact .bind (.throw rfl) fun _ => foreign_characters _
  · exact foreign_characters _

end Decode

open Decode

/-! ## Scalars and structured objects -/

theorem TypeRef.foreign_decode : Foreign TypeRef.decode := by
  refine foreign_int32.bind fun id => ?_
  split
  · exact foreign_text.map _
  · exact .pure _

theorem Scalar.foreign_decode (s : Scalar) : Foreign s.decode := by
  cases s with
  | text => exact foreign_text
  | uuid => exact foreign_int64.bind fun _ => foreign_int64.bind fun _ => .pure _
  | decimal =>
    refine foreign_int32.bind fun scale => foreign_size.bind fun n =>
      (foreign_take n).bind fun bs => ?_
    split
    · exact .pure _
    case h_2 e he => exact .throw (e.foreign_of_serialization (Decimal.failsWith_ofWire e he))
  | timestamp =>
    refine foreign_int64.bind fun seconds => foreign_int32.bind fun nanoseconds => ?_
    split
    · exact .pure _
    · exact .throw rfl
  | constant =>
    change Foreign EnumConstant.decode
    rw [EnumConstant.decode_eq]
    exact TypeRef.foreign_decode.bind fun t => foreign_int32.bind fun ordinal => .pure _

theorem StructuredObject.foreign_decode (limit : Nat) : Foreign (decode limit) := by
  rw [decode_eq]
  refine foreign_byte.bind fun flags => TypeRef.foreign_decode.bind fun t =>
    Decode.FailsWith.bind ?_ fun schemaId => (foreign_length limit).bind fun n =>
      (foreign_take n).bind fun payload => .pure _
  split
  · exact foreign_int32.map _
  · exact .pure _

/-! ## Values -/

theorem Request.foreign_primitive (r : Request) (f : Form) :
    FailsWith Error.Foreign (r.primitive f) := by
  intro e h
  rw [primitive.eq_def] at h
  repeat' split at h
  all_goals cases h
  exact rfl

theorem Request.foreign_primitiveArray (r : Request) (f : Form) :
    FailsWith Error.Foreign (r.primitiveArray f) := by
  intro e h
  rw [primitiveArray.eq_def] at h
  repeat' split at h
  all_goals cases h
  exact rfl

theorem CollectionFlavor.foreign_ofCode (n : Int) : FailsWith Error.Foreign (ofCode n) := by
  rw [ofCode]
  split
  · exact .ok _
  · exact .error rfl

theorem MapFlavor.foreign_ofCode (n : Int) : FailsWith Error.Foreign (ofCode n) := by
  rw [ofCode]
  split
  · exact .ok _
  · exact .error rfl

namespace DecodeLimits

variable {nested : Request → Decode Value} (l : DecodeLimits)

theorem foreign_checkObject (r : Request) (o : StructuredObject) :
    FailsWith Error.Foreign (l.checkObject r o) := by
  intro e h
  rw [checkObject.eq_def] at h
  repeat' split at h
  all_goals cases h
  exact rfl

theorem foreign_count (size : Nat) : Foreign (l.count size) :=
  (foreign_length _).bind fun _ => (foreign_expect _).bind fun _ => .pure _

theorem foreign_scalarElement (s : Scalar) : Foreign (scalarElement s) := by
  refine foreign_byte.bind fun tag => ?_
  split
  · exact .pure none
  · split
    · exact s.foreign_decode.map _
    · exact .throw rfl

theorem foreign_entry (hnested : ∀ r, Foreign (nested r)) (r : Request) :
    Foreign (readTagged.entry nested r) :=
  (hnested r.key).bind fun _ => (hnested r.value).bind fun _ => .pure _

theorem foreign_readTagged (hnested : ∀ r, Foreign (nested r)) (r : Request) (tag : Tag) :
    Foreign (l.readTagged nested r tag) := by
  cases tag with
  | null => exact .pure _
  | one f =>
    exact (FailsWith.lift (r.foreign_primitive f)).bind fun k =>
      (foreign_primitive k).bind fun x => .pure _
  | array f =>
    exact (FailsWith.lift (r.foreign_primitiveArray f)).bind fun k => (l.foreign_count _).bind
      fun n => ((foreign_primitive k).many n).bind fun xs => .pure _
  | scalar s => exact s.foreign_decode.bind fun x => .pure _
  | scalarArray s =>
    exact (l.foreign_count 1).bind fun n =>
      ((foreign_scalarElement s).many n).bind fun xs => .pure _
  | objectArray =>
    exact (l.foreign_count 1).bind fun n => ((hnested _).many n).bind fun xs => .pure _
  | collection =>
    exact (l.foreign_count 1).bind fun n => foreign_int8.bind fun code =>
      (FailsWith.lift (CollectionFlavor.foreign_ofCode code)).bind fun flavor =>
        ((hnested _).many n).bind fun xs => .pure _
  | map =>
    exact (l.foreign_count 2).bind fun n => foreign_int8.bind fun code =>
      (FailsWith.lift (MapFlavor.foreign_ofCode code)).bind fun flavor =>
        ((foreign_entry hnested r).many n).bind fun es => .pure _
  | mapEntry => exact (foreign_entry hnested r).bind fun e => .pure _
  | object =>
    exact (StructuredObject.foreign_decode _).bind fun o =>
      (FailsWith.lift (l.foreign_checkObject r o)).bind fun _ => .pure _

theorem foreign_readWith (hnested : ∀ r, Foreign (nested r)) (r : Request) :
    Foreign (l.readWith nested r) := by
  refine foreign_byte.bind fun b => ?_
  split
  · exact l.foreign_readTagged hnested r _
  · exact .throw rfl

theorem foreign_read (levels : Nat) (r : Request) : Foreign (l.read levels r) := by
  have hdeep : (Error.valueNesting l.maxDepth).Foreign := rfl
  induction levels generalizing r with
  | zero => exact l.foreign_readWith (fun _ => .throw hdeep) r
  | succ levels ih => exact l.foreign_readWith ih r

end DecodeLimits

/-! ## Values of host types -/

section

variable {α : Type} (v : Value)

theorem Value.foreign_mismatch (expected : String) :
    FailsWith Error.Foreign (v.mismatch expected : Except Error α) :=
  .error rfl

theorem Value.foreign_sequence : FailsWith Error.Foreign v.sequence := by
  rw [sequence]
  split
  · exact .ok _
  · exact v.foreign_mismatch _

theorem Value.foreign_entries : FailsWith Error.Foreign v.entries := by
  cases v with
  | map flavor entries => exact .ok _
  | _ => exact foreign_mismatch _ _

theorem Value.foreign_char : FailsWith Error.Foreign v.char := by
  rw [char.eq_def]
  split
  · split
    · exact .ok _
    · exact .error rfl
  · exact v.foreign_mismatch _

theorem Primitive.foreign_ofValue (k : Primitive) : FailsWith Error.Foreign (k.ofValue v) := by
  rw [ofValue.eq_def]
  split
  · split
    · exact .ok _
    · exact Value.foreign_mismatch _ _
  · exact v.foreign_mismatch _

theorem Scalar.foreign_ofValue (s : Scalar) : FailsWith Error.Foreign (s.ofValue v) := by
  rw [ofValue.eq_def]
  split
  · split
    · exact .ok _
    · exact Value.foreign_mismatch _ _
  · exact v.foreign_mismatch _

theorem KeyKind.foreign_ofValue (k : KeyKind) : FailsWith Error.Foreign (k.ofValue v) := by
  cases k with
  | bool => exact Primitive.foreign_ofValue v _
  | int w s => exact Primitive.foreign_ofValue v _
  | char => exact v.foreign_char
  | text => exact Scalar.foreign_ofValue v _
  | uuid => exact Scalar.foreign_ofValue v _

end

namespace HostType

variable (payloads : PayloadCodec)

theorem foreign_decodePayload (t : HostType) (payload : Bytes) :
    FailsWith Error.Foreign (t.decodePayload payloads payload) := by
  rw [decodePayload]
  cases payloads.decode t payload with
  | ok x => exact .ok x
  | error cause => exact .error rfl

theorem foreign_structured (t : HostType) (v : Value) :
    FailsWith Error.Foreign (ofValue.structured payloads t v) := by
  cases v with
  | object o => exact foreign_decodePayload payloads t o.payload
  | _ => exact Value.foreign_mismatch _ _

/-- Of the elements of a value, the first one that does not fit is told. -/
theorem foreign_ofValue : (t : HostType) → (v : Value) →
    FailsWith Error.Foreign (t.ofValue payloads v)
  | primitive k, v => Primitive.foreign_ofValue v k
  | char, v => v.foreign_char
  | scalar s, v => Scalar.foreign_ofValue v s
  | unit, v => by
    rw [ofValue]
    split
    · exact .ok _
    · exact v.foreign_mismatch _
  | value, v => .ok v
  | object, v => by
    cases v with
    | object o => exact .ok o
    | _ => exact Value.foreign_mismatch _ _
  | option t, v => by
    rw [ofValue]
    split
    · exact .ok _
    · exact (foreign_ofValue t v).map some
  | list t, v => v.foreign_sequence.bind fun xs => .mapM fun x => foreign_ofValue t x
  | deque t, v => v.foreign_sequence.bind fun xs => .mapM fun x => foreign_ofValue t x
  | set _ k, v => v.foreign_sequence.bind fun xs =>
    (FailsWith.mapM fun x => KeyKind.foreign_ofValue x k).bind fun _ => .ok _
  | map _ k t, v => by
    refine v.foreign_entries.bind fun es => (FailsWith.mapM ?_).bind fun _ => .ok _
    rintro ⟨x, y⟩
    exact (KeyKind.foreign_ofValue x k).bind fun _ => (foreign_ofValue t y).bind fun _ => .ok _
  | pair a b, v => by
    cases v with
    | mapEntry x y =>
      exact (foreign_ofValue a x).bind fun _ => (foreign_ofValue b y).bind fun _ => .ok _
    | _ => exact Value.foreign_mismatch _ _
  | enumeration name e, v => foreign_structured payloads (enumeration name e) v
  | record name content, v => foreign_structured payloads (record name content) v
  | choice arms, v => foreign_structured payloads (choice arms) v

end HostType

namespace Marshaller

variable (m : Marshaller) (t : HostType) (bs : Bytes)

theorem foreign_unmarshal : FailsWith Error.Foreign (m.unmarshal t bs) := by
  have hread : Foreign (m.read t) := by
    refine (m.limits.foreign_read _ _).bind fun v => ?_
    split
    · exact .pure _
    case h_2 e he => exact .throw (t.foreign_ofValue m.payloads v e he)
  exact (hread bs).map Prod.fst

end Marshaller

end WireCodec
