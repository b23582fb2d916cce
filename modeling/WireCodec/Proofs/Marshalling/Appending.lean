import WireCodec.Marshal.Writing
import WireCodec.Proofs.Buffers
import WireCodec.Proofs.RoundTrip.Typed
import WireCodec.Proofs.Writing.Chunks

/-!
# Marshalling appends

A value is written part by part, and a part that cannot be written leaves what came before it
behind. `Appender.Appends` says so much of every writer: it only ever appends, and what it appends
is the encoding, or some bytes before the error that the encoding ends in. Guarded, such a writer is
the single step that appends a whole encoding (`Appender.whole`), so nothing of a failure is left,
however deep in a value it was.
-/

namespace WireCodec

theorem Output.truncate_append (o : Output) (bs : Bytes) : (o.append bs).truncate o.size = o := by
  refine congrArg Output.mk (Array.ext' ?_)
  simp [append, size]

namespace Appender

variable {α : Type} {w w' : Appender Unit} {r r' : Except Error Bytes} {bs : Bytes} {o : Output}

/-- Appends a whole encoding, or nothing where there is none. -/
def whole (r : Except Error Bytes) : Appender Unit := do bytes (← lift r)

/-- A step appends an encoding; where there is none it fails with the same error, and what it has
appended before is still there. -/
def Appends (w : Appender Unit) : Except Error Bytes → Prop
  | .ok bs => ∀ o, w o = .ok () (o.append bs)
  | .error e => ∀ o, ∃ bs, w o = .error e (o.append bs)

theorem guarded_apply (steps : Appender α) (o : Output) : guarded steps o =
    match steps o with
    | .ok x o' => .ok x o'
    | .error e o' => .error e (o'.truncate o.size) := by
  have hsteps : guarded steps o = EStateM.tryCatch steps (fun e => do
      modify (·.truncate o.size)
      throw e) o := rfl
  rw [hsteps, EStateM.tryCatch]
  cases steps o <;> rfl

/-- What a guarded step has appended before it failed is taken off again. -/
theorem Appends.guarded_eq_whole (hw : Appends w r) : guarded w = whole r := by
  funext o
  rw [guarded_apply]
  cases r with
  | ok bs =>
    rw [hw o]
    rfl
  | error e =>
    obtain ⟨bs, hbs⟩ := hw o
    simp only [hbs, Output.truncate_append]
    rfl

namespace Appends

theorem bytes (bs : Bytes) : Appends (Appender.bytes bs) (pure bs) := fun _ => rfl

theorem nothing : Appends (pure ()) (pure []) := fun _ =>
  congrArg (EStateM.Result.ok ()) (Output.append_eq_self.mpr rfl).symm

theorem error (e : Error) : Appends (throw e) (.error e) := fun _ =>
  ⟨[], congrArg (EStateM.Result.error e) (Output.append_eq_self.mpr rfl).symm⟩

theorem lift (r : Except Error Bytes) : Appends (whole r) r := by
  cases r with
  | ok bs => exact bytes bs
  | error e => exact error e

/-- An encoding after another one. -/
theorem andThen (hw : Appends w r) (hw' : Appends w' r') :
    Appends (do w; w') (do return (← r) ++ (← r')) := by
  cases r with
  | error e =>
    intro o
    obtain ⟨bs, hbs⟩ := hw o
    exact ⟨bs, by simp only [bind, EStateM.bind, hbs]⟩
  | ok bs =>
    have hfirst (o : Output) : (do w; w') o = w' (o.append bs) := by
      simp only [bind, EStateM.bind, hw o]
    cases r' with
    | error e =>
      intro o
      obtain ⟨bs', hbs'⟩ := hw' (o.append bs)
      exact ⟨bs ++ bs', by rw [hfirst, hbs', Output.append_append]⟩
    | ok bs' =>
      intro o
      rw [hfirst, hw', Output.append_append]

/-- A byte before an encoding. -/
theorem cons (b : UInt8) (hw : Appends w r) : Appends (do byte b; w) ((b :: ·) <$> r) := by
  have h := (bytes [b]).andThen hw
  simp only [pure_bind, bind_pure_comp] at h
  exact h

/-- The encodings of all elements one after the other. -/
theorem each {g : α → Appender Unit} {f : α → Except Error Bytes} {xs : List α}
    (h : ∀ x ∈ xs, Appends (g x) (f x)) : Appends (xs.forM g) (Encode.each f xs) := by
  induction xs with
  | nil => exact nothing
  | cons x xs ih =>
    rw [List.forall_mem_cons] at h
    exact (h.1).andThen (ih h.2)

end Appends

theorem appends_text (s : String) : Appends (text s) (Encode.text s) := by
  have h := (Appends.lift (Encode.byteLength (ModifiedUtf8.encode s).length)).andThen
    (.bytes (ModifiedUtf8.encode s))
  simp only [pure_bind] at h
  exact h

theorem appends_type (t : TypeRef) : Appends (type t.1 t.2) t.encode := by
  obtain ⟨id, name⟩ := t
  cases name with
  | some name =>
    have h := (Appends.bytes (Encode.int32 0)).andThen (appends_text name)
    simp only [pure_bind, bind_pure_comp] at h
    exact h
  | none => exact .bytes _

/-- The number of elements, and then the elements. -/
theorem appends_array {n : Nat} (hw : Appends w r) :
    Appends (do count n; w) (do return (← Encode.count n) ++ (← r)) :=
  (Appends.lift _).andThen hw

/-- The number of elements, a byte for the flavor, and then the elements. -/
theorem appends_flavored {n : Nat} (b : UInt8) (hw : Appends w r) :
    Appends (do count n; byte b; w) (do
      let n ← Encode.count n
      let body ← r
      return n ++ b :: body) := by
  have h := appends_array (n := n) (hw.cons b)
  simp only [bind_map_left] at h
  exact h

end Appender

open Appender

/-! ## Scalars and structured objects -/

theorem Uuid.appends_write (u : Uuid) : Appends u.write (pure u.encode) := by
  have h := (Appends.bytes (Encode.int64 u.high)).andThen (.bytes (Encode.int64 u.low))
  simp only [pure_bind] at h
  exact h

theorem Decimal.appends_write (d : Decimal) : Appends d.write d.encode := by
  have h := (Appends.bytes (Encode.int32 (Int32.ofNat d.scale))).andThen
    (appends_array (n := d.magnitudeBytes.length) (.bytes d.magnitudeBytes))
  simp only [pure_bind, bind_assoc, ← List.append_assoc] at h
  exact h

theorem Timestamp.appends_write (t : Timestamp) : Appends t.write (pure t.encode) := by
  have h := (Appends.bytes (Encode.int64 (BitVec.ofInt 64 t.seconds))).andThen
    (.bytes (LittleEndian.toBytes 4 t.nanoseconds))
  simp only [pure_bind] at h
  exact h

theorem EnumConstant.appends_write (c : EnumConstant) : Appends c.write c.encode := by
  have h := (appends_type c.type).andThen (.bytes (Encode.int32 c.ordinal))
  simp only [pure_bind] at h
  rw [encode_eq]
  exact h

theorem StructuredObject.appends_write (o : StructuredObject) : Appends o.write o.encode := by
  have hschema : Appends (o.schemaId.forM int32)
      (pure ((o.schemaId.map Encode.int32).getD [])) := by
    cases o.schemaId with
    | some id => exact .bytes _
    | none => exact .nothing
  have hpayload := (Appends.lift (Encode.byteLength o.payload.length)).andThen (.bytes o.payload)
  have h := ((appends_type o.type).andThen (hschema.andThen hpayload)).cons
    (if o.schemaId.isSome then schemaFlag else 0)
  simp only [pure_bind, bind_assoc, map_bind, map_pure] at h
  rw [encode_eq]
  exact h

theorem Scalar.appends_write (s : Scalar) (x : s.Val) : Appends (s.write x) (s.encode x) := by
  cases s with
  | text => exact appends_text x
  | uuid => exact Uuid.appends_write x
  | decimal => exact Decimal.appends_write x
  | timestamp => exact Timestamp.appends_write x
  | constant => exact EnumConstant.appends_write x

theorem Scalar.appends_writeElement (s : Scalar) (x : Option s.Val) :
    Appends (s.writeElement x) (s.encodeElement x) := by
  cases x with
  | some x => exact .cons _ (s.appends_write x)
  | none => exact .bytes _

theorem Scalar.appends_writeArray (s : Scalar) (xs : List (Option s.Val)) :
    Appends (s.writeArray xs) (s.encodeArray xs) := by
  rw [encodeArray, encodeElements_eq]
  exact appends_array (.each fun x _ => s.appends_writeElement x)

theorem Primitive.appends_writeArray (k : Primitive) (xs : List k.Val) :
    Appends (k.writeArray xs) (k.encodeArray xs) := by
  have heach : Encode.each (fun x => pure (k.encode x)) xs = pure (xs.flatMap k.encode) := by
    induction xs with
    | nil => rfl
    | cons x xs ih => rw [Encode.each, ih]; rfl
  have h := appends_array (n := xs.length) (.each fun x (_ : x ∈ xs) => .bytes (k.encode x))
  simp only [heach, pure_bind] at h
  exact h

/-! ## Dynamic values -/

namespace Value

/-- Writes an entry, the key before the value. -/
def writeEntry (e : Value × Value) : Appender Unit := do
  write e.1
  write e.2

theorem writes_eq (xs : List Value) : writes xs = xs.forM write := by
  induction xs with
  | nil => rfl
  | cons x xs ih => rw [writes, ih]; rfl

theorem writeEntries_eq (es : List (Value × Value)) : writeEntries es = es.forM writeEntry := by
  induction es with
  | nil => rfl
  | cons e es ih =>
    rw [writeEntries, ih, ← bind_assoc]
    rfl

theorem appends_writeEntry {e : Value × Value} (hk : Appends e.1.write e.1.encode)
    (hv : Appends e.2.write e.2.encode) : Appends (writeEntry e) (encodeEntry e) :=
  hk.andThen hv

/-- Every value is written by appending, however deep the part is that cannot be written. -/
theorem appends_write (v : Value) : Appends v.write v.encode := by
  induction v using induction_on_parts with
  | step v ih =>
    cases v with
    | null => exact .cons _ .nothing
    | primitive k x => exact .cons _ (.bytes _)
    | primitiveArray k xs => exact .cons _ (k.appends_writeArray xs)
    | scalar s x => exact .cons _ (s.appends_write x)
    | scalarArray s xs => exact .cons _ (s.appends_writeArray xs)
    | objectArray xs =>
      have h := (appends_array (n := xs.length) (.each ih)).cons Tag.objectArray.toByte
      rw [← encodes_eq, ← writes_eq] at h
      simp only [map_bind, map_pure] at h
      exact h
    | collection flavor xs =>
      have h := (appends_flavored (n := xs.length) (flavorByte flavor.code) (.each ih)).cons
        Tag.collection.toByte
      rw [← encodes_eq, ← writes_eq] at h
      simp only [map_bind, map_pure] at h
      exact h
    | map flavor es =>
      rw [forall_mem_parts_map] at ih
      have h := (appends_flavored (n := es.length) (flavorByte flavor.code)
        (.each fun e he => appends_writeEntry (ih e he).1 (ih e he).2)).cons Tag.map.toByte
      rw [← encodeEntries_eq, ← writeEntries_eq] at h
      simp only [map_bind, map_pure] at h
      exact h
    | mapEntry key value =>
      have h := ((ih key (by simp [parts])).andThen (ih value (by simp [parts]))).cons
        Tag.mapEntry.toByte
      simp only [map_bind, map_pure] at h
      exact h
    | object o => exact .cons _ o.appends_write

end Value

/-! ## Host values -/

namespace HostType

variable {t : HostType}

theorem appends_textElement (s : String) : Appends (writeContent.textElement s)
    (encodeContent.textElement s) :=
  .cons _ (appends_text s)

theorem appends_textEntry (e : String × Value) : Appends (writeContent.textEntry e)
    (encodeContent.textEntry e) :=
  (appends_textElement e.1).andThen e.2.appends_write

theorem Fixed.appends_writeContent (ht : t.Fixed) (x : t.Val) :
    ∃ r, t.encodeContent x = some r ∧ Appends (t.writeContent x) r := by
  cases ht with
  | primitive k => exact ⟨_, rfl, .bytes _⟩
  | char => exact ⟨_, rfl, .lift _⟩
  | scalar s => exact ⟨_, rfl, s.appends_write x⟩
  | unit => exact ⟨_, rfl, .nothing⟩
  | object => exact ⟨_, rfl, StructuredObject.appends_write x⟩
  | primitives k => exact ⟨_, rfl, k.appends_writeArray x⟩
  | chars => exact ⟨_, rfl, appends_array (.each fun c _ => .lift (Encode.char c))⟩
  | scalars s => exact ⟨_, rfl, s.appends_writeArray _⟩
  | optionalTexts => exact ⟨_, rfl, Scalar.appends_writeArray .text x⟩
  | values => exact ⟨_, rfl, appends_array (.each fun v _ => v.appends_write)⟩
  | queue => exact ⟨_, rfl, appends_flavored _ (.each fun v _ => v.appends_write)⟩
  | textSet sorted => exact ⟨_, rfl, appends_flavored _ (.each fun s _ => appends_textElement s)⟩
  | textMap sorted => exact ⟨_, rfl, appends_flavored _ (.each fun e _ => appends_textEntry e)⟩
  | pair => exact ⟨_, rfl, x.1.appends_write.andThen x.2.appends_write⟩

theorem appends_writeFixed (t : HostType) (x : t.Val) : Appends (t.writeFixed x)
    ((t.encodeFixed x).getD (.error (.unboundType t.describe))) := by
  cases htag : t.fixedTag? with
  | none =>
    simp only [writeFixed, encodeFixed, htag]
    exact .error _
  | some tag =>
    obtain ⟨r, hr, hw⟩ := (fixed_iff.mpr (by rw [htag]; rfl)).appends_writeContent x
    simp only [writeFixed, encodeFixed, htag, hr]
    exact hw.cons _

end HostType

namespace Marshaller

variable {m : Marshaller} {t : HostType} {x : t.Val}

theorem appends_writeAs (m : Marshaller) (b : Binding) (t : HostType) (x : t.Val) :
    Appends (m.writeAs b t x) (m.encodeAs b t x) := by
  cases b with
  | fixed tag =>
    have h := t.appends_writeFixed x
    rw [encodeAs]
    cases hbytes : t.encodeFixed x <;> rw [hbytes] at h <;> exact h
  | constant =>
    cases t with
    | enumeration name e => exact Value.appends_write _
    | _ => exact .error _
  | constants =>
    cases t with
    | list t =>
      cases t with
      | enumeration name e => exact Value.appends_write _
      | _ => exact .error _
    | _ => exact .error _
  | structured name =>
    rw [writeAs, encodeAs]
    cases t.encodePayload m.payloads x with
    | error e => exact .error e
    | ok payload =>
      exact .cons Tag.object.toByte (StructuredObject.send m.types name payload).appends_write

/-- Guarded, no writer leaves anything of a value that cannot be written. -/
theorem marshalValueInto_eq (m : Marshaller) (v : Value) :
    m.marshalValueInto v = whole (m.marshalValue v) :=
  v.appends_write.guarded_eq_whole

theorem appendAs_of_ne (ht : t ≠ .value) (name : String) :
    m.appendAs name t x = match m.binding? t with
      | some b => guarded (m.writeAs b t x)
      | none => throw (.unboundType name) := by
  cases t <;> first | exact absurd rfl ht | rfl

theorem appendAs_eq (m : Marshaller) (name : String) (t : HostType) (x : t.Val) :
    m.appendAs name t x = whole (m.marshalAs name t x) := by
  by_cases ht : t = .value
  · subst ht
    exact m.marshalValueInto_eq x
  · rw [appendAs_of_ne ht, marshalAs_of_ne ht]
    cases m.binding? t with
    | none => rfl
    | some b => exact (m.appends_writeAs b t x).guarded_eq_whole

/-- The name by which a value goes where it has no binding is told in the error only. -/
theorem marshalAs_eq_ok_iff {name name' : String} {bs : Bytes} :
    m.marshalAs name t x = .ok bs ↔ m.marshalAs name' t x = .ok bs := by
  by_cases ht : t = .value
  · subst ht
    exact Iff.rfl
  · rw [marshalAs_of_ne ht, marshalAs_of_ne ht]
    cases m.binding? t with
    | none => exact ⟨nofun, nofun⟩
    | some b => exact Iff.rfl

/-! ## Buffers -/

theorem encodeInto_eq (m : Marshaller) (b : Buffer) (t : HostType) (x : t.Val) :
    m.encodeInto b t x = match m.marshalErased t x with
      | .ok bs => (.ok (b.putAll bs).1, (b.putAll bs).2)
      | .error e => (.error e, b) := by
  rw [encodeInto, marshalErasedInto, appendAs_eq, marshalErased]
  cases m.marshalAs "type-erased value" t x with
  | error e => rfl
  | ok bs =>
    have hbytes : (Output.empty.append bs).bytes.toList = bs := Output.toList_append .empty bs
    change (Except.ok (b.putAll (Output.empty.append bs).bytes.toList).1,
      (b.putAll (Output.empty.append bs).bytes.toList).2) = _
    rw [hbytes]

theorem encodeAt_cursor (m : Marshaller) (b : Buffer) (t : HostType) (x : t.Val) :
    m.encodeAt b.cursor t x = match m.encodeInto b t x with
      | (.ok fits, b') => .ok (if fits then some b'.cursor else none)
      | (.error e, _) => .error e := by
  rw [encodeAt, encodeInto_eq]
  cases m.marshalErased t x with
  | error e => rfl
  | ok bs => exact congrArg Except.ok (b.putAll?_cursor bs)

end Marshaller

end WireCodec
