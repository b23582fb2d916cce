import WireCodec.Proofs.Registration.States
import WireCodec.Proofs.RoundTrip.Shapes

/-!
# Host values read back from their own bytes

What a marshaller wrote for a host value it reads back as that value, for who asks for the type:
values of types with a fixed form, values that travel as structured objects, and constants of host
enums (`Marshaller.unmarshal_marshal`).
-/

namespace WireCodec

open Decode

namespace Marshaller

variable {m : Marshaller} {bs : Bytes}

/-- The bytes of a dynamic value are read back as what the value is for who asks. -/
theorem reads_readAs {α : Type} {r : Request} {convert : Value → Except Error α} {v w : Value}
    {y : α} (h : v.encode = .ok bs) (hv : v.Everywhere Value.Faithful)
    (hwithin : v.Within m.config.maxArrayLength m.config.maxNestingDepth)
    (hw : v.arrived.under m.limits r = .ok w) (hy : convert w = .ok y) :
    Reads (m.readAs r convert) bs y := by
  have hread := (Value.readsIf_read m.limits m.limits.maxDepth h fun w hw => (hv w hw).2).1
    ⟨hwithin, fun w hw => (hv w hw).1⟩
  have hread := (DecodeLimits.refines_read m.limits.maxDepth).reads hread hw
  rw [readAs]
  refine Reads.bind_nil hread ?_
  rw [hy]
  exact .pure y

theorem Reached.objectTypeId_object (hm : m.Reached) : m.limits.objectTypeId .object = none := by
  have hbinding := hm.binding?_fixed (t := .object) rfl
  change (m.binding? .object).bind Binding.objectTypeId = none
  rw [hbinding]
  rfl

theorem marshalAs_of_ne {t : HostType} (ht : t ≠ .value) (name : String) (x : t.Val) :
    m.marshalAs name t x = match m.binding? t with
      | some b => m.encodeAs b t x
      | none => .error (.unboundType name) := by
  cases t <;> first | exact absurd rfl ht | rfl

theorem marshal_eq_encodeAs {t : HostType} {b : Binding} (ht : t ≠ .value)
    (hb : m.binding? t = some b) (x : t.Val) : m.marshal t x = m.encodeAs b t x := by
  rw [marshal, marshalAs_of_ne ht, hb]

/-! ## Types with a fixed form -/

/-- No registration and no look-up changes how a type with a fixed form is written. -/
theorem Reached.marshal_fixed (hm : m.Reached) {t : HostType} (ht : t.Fixed) (x : t.Val) :
    ∃ tag, m.marshal t x = m.encodeAs (.fixed tag) t x := by
  obtain ⟨tag, htag⟩ := Option.isSome_iff_exists.mp (HostType.fixed_iff.mp ht)
  have hvalue : t ≠ .value := by
    rintro rfl
    cases htag
  exact ⟨tag, marshal_eq_encodeAs hvalue (hm.binding?_fixed htag) x⟩

theorem Reached.exists_toValue? (hm : m.Reached) {t : HostType} {x : t.Val} (ht : t.Fixed)
    (h : m.marshal t x = .ok bs) : ∃ v, t.toValue? x = some v ∧ v.encode = .ok bs := by
  obtain ⟨tag, hmarshal⟩ := hm.marshal_fixed ht x
  rw [hmarshal, encodeAs] at h
  split at h
  case h_1 bytes hbytes => exact ht.exists_toValue? (h ▸ hbytes)
  case h_2 => cases h

theorem Reached.reads_fixed (hm : m.Reached) {t : HostType} {x : t.Val} (ht : t.Fixed)
    (hproper : t.Proper x)
    (htold : ∀ v ∈ t.toValue? x, v.Everywhere Value.Faithful ∧
      v.Within m.config.maxArrayLength m.config.maxNestingDepth)
    (h : m.marshal t x = .ok bs) : ∃ y, Reads (m.read t) bs y ∧ t.Same (t.arrived x) y := by
  obtain ⟨v, hv, hencode⟩ := hm.exists_toValue? ht h
  obtain ⟨hfaithful, hwithin⟩ := htold v hv
  obtain ⟨w, y, hw, hy, hsame⟩ :=
    ht.exists_ofValue m.payloads hproper hm.objectTypeId_object hv
  exact ⟨y, reads_readAs hencode hfaithful hwithin hw hy, hsame⟩

/-! ## Structured objects -/

theorem Reached.reads_structured (hm : m.Reached) {t : HostType} {name : String} {x y : t.Val}
    {payload : Bytes} (hb : m.binding? t = some (.structured name))
    (hx : t.encodePayload m.payloads x = .ok payload)
    (hy : t.decodePayload m.payloads payload = .ok y)
    (hlength : payload.length ≤ m.config.maxArrayLength) (h : m.marshal t x = .ok bs) :
    Reads (m.readAs (.exact t) (HostType.ofValue.structured m.payloads t)) bs y := by
  let o := StructuredObject.send m.types name payload
  have htype : o.typeId = TypeName.id name := StructuredObject.typeId_send _ _ _
  have hpayload : o.payload = payload := StructuredObject.payload_send _ _ _
  have hvalue : t ≠ .value := by
    rintro rfl
    exact HostType.encodePayload_value_ne_ok m.payloads x payload hx
  have hencode : (Value.object o).encode = .ok bs := by
    simp only [marshal_eq_encodeAs hvalue hb, encodeAs, hx, Encode.bind_eq_ok, Encode.pure_eq_ok,
      Except.ok.injEq, exists_eq_left'] at h
    obtain ⟨content, hcontent, rfl⟩ := h
    exact Encode.map_eq_ok.mpr ⟨content, hcontent, rfl⟩
  have hcheck : m.limits.checkObject (.exact t) o = .ok () := by
    have hid : m.limits.objectTypeId t = some o.typeId := by
      change (m.binding? t).bind Binding.objectTypeId = _
      rw [hb, htype]
      rfl
    simp [DecodeLimits.checkObject, hid]
  have hfaithful := Value.faithful_object (o := o) (StructuredObject.told_send hm.types _ _)
  refine reads_readAs hencode (Value.everywhere_of_leaf hfaithful rfl) (Value.within_of_leaf ?_ rfl)
    (w := .object o) ?_ ?_
  · exact Nat.le_trans (Nat.le_of_eq (congrArg List.length hpayload)) hlength
  · rw [Value.arrived, Value.under, hcheck]
    rfl
  · rwa [HostType.ofValue.structured, hpayload]

/-! ## Constants -/

theorem faithful_send {types : TypeRegistry} (htypes : types.Reached) {e : HostEnum}
    (i : e.Constant) : Scalar.Faithful .constant (e.send types i) :=
  ⟨trivial, List.forall_mem_singleton.mpr (EnumConstant.told_send htypes e i)⟩

theorem faithful_constant {types : TypeRegistry} (htypes : types.Reached) {e : HostEnum}
    (i : e.Constant) : (Value.scalar .constant (e.send types i)).Everywhere Value.Faithful :=
  Value.everywhere_of_leaf (Value.faithful_scalar (faithful_send htypes i)) rfl

theorem faithful_constants {types : TypeRegistry} (htypes : types.Reached) {e : HostEnum}
    (is : List e.Constant) : (Value.scalarArray .constant
      ((is.map (e.send types)).map some)).Everywhere Value.Faithful := by
  refine Value.everywhere_of_leaf (Value.faithful_scalarArray fun x hx y hy => ?_) rfl
  obtain ⟨_, hsent, rfl⟩ := List.mem_map.mp hx
  obtain ⟨i, -, rfl⟩ := List.mem_map.mp hsent
  cases hy
  exact faithful_send htypes i

theorem within_constants {types : TypeRegistry} {e : HostEnum} {is : List e.Constant}
    {limit levels : Nat} (h : is.length ≤ limit) : (Value.scalarArray .constant
      ((is.map (e.send types)).map some)).Within limit levels :=
  Value.within_of_leaf (by simpa [Value.length] using h) rfl

theorem encode_constant {name : String} {e : HostEnum} {i : e.Constant}
    (hb : m.binding? (.enumeration name e) = some .constant)
    (h : m.marshal (.enumeration name e) i = .ok bs) :
    (Value.scalar .constant (e.send m.types i)).encode = .ok bs := by
  rwa [marshal_eq_encodeAs (by simp) hb, encodeAs] at h

theorem encode_constants {name : String} {e : HostEnum} {is : List e.Constant}
    (hb : m.binding? (.list (.enumeration name e)) = some .constants)
    (h : m.marshal (.list (.enumeration name e)) is = .ok bs) :
    (Value.scalarArray .constant ((is.map (e.send m.types)).map some)).encode = .ok bs := by
  rw [marshal_eq_encodeAs (by simp) hb, encodeAs] at h
  exact (congrArg (fun xs => (Value.scalarArray .constant xs).encode) List.map_map).trans h

/-- A constant that one node writes is read by any other as it was sent. -/
theorem Reached.reads_constant (hm : m.Reached) {name : String} {e : HostEnum} {i : e.Constant}
    (hb : m.binding? (.enumeration name e) = some .constant)
    (h : m.marshal (.enumeration name e) i = .ok bs) {m' : Marshaller} :
    Reads (m'.read (.scalar .constant)) bs (e.send m.types i) :=
  reads_readAs (encode_constant hb h) (faithful_constant hm.types i)
    (Value.within_of_leaf (Nat.zero_le _) rfl) rfl rfl

theorem Reached.reads_constants (hm : m.Reached) {name : String} {e : HostEnum}
    {is : List e.Constant} (hb : m.binding? (.list (.enumeration name e)) = some .constants)
    {m' : Marshaller} (hlength : is.length ≤ m'.config.maxArrayLength)
    (h : m.marshal (.list (.enumeration name e)) is = .ok bs) :
    Reads (m'.read (.list (.scalar .constant))) bs (is.map (e.send m.types)) := by
  have hback := HostType.ofValue_scalars m'.payloads .constant (is.map (e.send m.types))
  rw [List.map_id'' (f := Scalar.arrived .constant) fun _ => rfl] at hback
  exact reads_readAs (encode_constants hb h) (faithful_constants hm.types is)
    (within_constants hlength) rfl hback

/-! ## Every host value -/

/-- A host value that was written is read back to the last byte for who asks for its type: a value
of a type with a fixed form as it comes back; a value that travels as a structured object as what
its payload is decoded as; and a constant, or a list of them, as what the node turns into the same
constants again. -/
theorem unmarshal_marshal (hm : m.Reached) :
    (∀ {t : HostType} {x : t.Val} {bs : Bytes}, t.Fixed → t.Proper x →
      (∀ v ∈ t.toValue? x, v.Everywhere Value.Faithful ∧
        v.Within m.config.maxArrayLength m.config.maxNestingDepth) →
      m.marshal t x = .ok bs →
      ∃ y, (m.read t).runOn bs = .ok (y, []) ∧ m.unmarshal t bs = .ok y ∧
        t.Same (t.arrived x) y) ∧
    (∀ {t : HostType} {name : String} {x y : t.Val} {payload bs : Bytes},
      m.binding? t = some (.structured name) →
      t.encodePayload m.payloads x = .ok payload → t.decodePayload m.payloads payload = .ok y →
      payload.length ≤ m.config.maxArrayLength → m.marshal t x = .ok bs →
      (m.readAs (.exact t) (HostType.ofValue.structured m.payloads t)).runOn bs = .ok (y, [])) ∧
    (∀ {name : String} {e : HostEnum} {i : e.Constant} {bs : Bytes},
      m.binding? (.enumeration name e) = some .constant → e.ofOrdinal? (e.ordinal i) = some i →
      m.marshal (.enumeration name e) i = .ok bs →
      ∃ c, m.unmarshal (.scalar .constant) bs = .ok c ∧ m.materializeEnum e c = .ok i) ∧
    (∀ {name : String} {e : HostEnum} {is : List e.Constant} {bs : Bytes},
      m.binding? (.list (.enumeration name e)) = some .constants →
      (∀ i ∈ is, e.ofOrdinal? (e.ordinal i) = some i) → is.length ≤ m.config.maxArrayLength →
      m.marshal (.list (.enumeration name e)) is = .ok bs →
      ∃ cs, m.unmarshal (.list (.scalar .constant)) bs = .ok cs ∧
        cs.mapM (m.materializeEnum e) = .ok is) := by
  refine ⟨?_, ?_, ?_, ?_⟩
  · intro t x bs ht hproper htold h
    obtain ⟨y, hread, hsame⟩ := hm.reads_fixed ht hproper htold h
    exact ⟨y, hread.exact, unmarshal_of_reads hread, hsame⟩
  · intro t name x y payload bs hb hx hy hlength h
    exact (hm.reads_structured hb hx hy hlength h).exact
  · intro name e i bs hb hordinal h
    exact ⟨_, unmarshal_of_reads (hm.reads_constant hb h), HostEnum.materialize_send hordinal⟩
  · intro name e is bs hb hordinals hlength h
    exact ⟨_, unmarshal_of_reads (hm.reads_constants hb hlength h),
      mapM_map_eq_self fun i hi => HostEnum.materialize_send (hordinals i hi)⟩

/-- A map whose number comes back in signed form, a record, a constant and a list of constants on a
marshaller that knows the type of the constants. -/
theorem unmarshal_marshal_registered :
    let e : HostEnum := ⟨"Color", [("RED", 0), ("GREEN", 7)]⟩
    let color := HostType.enumeration "Color" e
    let coordinate := HostType.primitive (.int .w32 .signed)
    let point := HostType.record "Point" (.pair coordinate coordinate)
    let texts := HostType.map false .text .value
    let types : TypeRegistry := ⟨[⟨TypeName.id "Color", "Color", .enum⟩]⟩
    let enums := (Bindings.insert [] color .constant).insert (.list color) .constants
    let m : Marshaller := ⟨.default, types, enums.insert point (.structured "Point"), [], .compact⟩
    let number (s : Sign) := Value.primitive (.int .w32 s) 0xFFFFFFFF
    let here : point.Val := ((5 : BitVec 32), (0xFFFFFFFF : BitVec 32))
    let green : e.Constant := ⟨1, by decide⟩
    m.Reached ∧
      (∃ bs y, m.marshal texts [("k", number .unsigned)] = .ok bs ∧ m.unmarshal texts bs = .ok y ∧
        [("k", number .signed)].Perm y) ∧
      (∃ bs, m.marshal point here = .ok bs ∧ (m.read point).runOn bs = .ok (here, [])) ∧
      (∃ bs c, m.marshal color green = .ok bs ∧ m.unmarshal (.scalar .constant) bs = .ok c ∧
        m.materializeEnum e c = .ok green) ∧
      ∃ bs cs, m.marshal (.list color) [green, green] = .ok bs ∧
        m.unmarshal (.list (.scalar .constant)) bs = .ok cs ∧
        cs.mapM (m.materializeEnum e) = .ok [green, green] := by
  intro e color coordinate point texts types enums m number here green
  have htypes : TypeRegistry.empty.register "Color" .enum = .ok (TypeName.id "Color", types) := rfl
  have henum : (ofConfig .default types).registerEnum "Color" e =
      .ok ⟨.default, types, enums, [], .compact⟩ := by subst e; rfl
  have hobject : registerObject ⟨.default, types, enums, [], .compact⟩ point "Point" = .ok m := rfl
  have hm : m.Reached := .registerObject (.registerEnum (.ofConfig .default
    (.register .empty htypes)) henum) hobject
  obtain ⟨hfixed, hstructured, hconstant, hconstants⟩ := unmarshal_marshal hm
  have hpoint : m.binding? point = some (.structured "Point") :=
    binding?_install (registerObject_eq_ok hobject)
  have hcolor : m.binding? color = some .constant := by
    rw [hm.binding?_eq]
    simp [build?, m, enums, point, color, HostType.fixedTag?, Bindings.find?_insert]
  have hcolors : m.binding? (.list color) = some .constants := by
    rw [hm.binding?_eq]
    simp [build?, m, enums, point, color, HostType.fixedTag?, Bindings.find?_insert]
  have hordinal : e.ofOrdinal? (e.ordinal green) = some green := by decide
  refine ⟨hm, ?_, ?_, ?_, ?_⟩
  · obtain ⟨bs, hbs⟩ : ∃ bs, m.marshal texts [("k", number .unsigned)] = .ok bs := by
      subst number
      exact ⟨_, rfl⟩
    have htold (v : Value) (hv : v ∈ texts.toValue? [("k", number .unsigned)]) :
        v.Everywhere Value.Faithful ∧
          v.Within m.config.maxArrayLength m.config.maxNestingDepth := by
      cases hv
      exact ⟨by decide, by decide⟩
    obtain ⟨y, -, hy, hsame⟩ := hfixed (.textMap false) (by simp [HostType.Proper]) htold hbs
    exact ⟨bs, y, hbs, hy, hsame⟩
  · obtain ⟨bs, hbs⟩ : ∃ bs, m.marshal point here = .ok bs := by
      rw [marshal_eq_encodeAs (by simp [point]) hpoint]
      exact ⟨_, rfl⟩
    have hpayload : point.encodePayload .compact here = .ok [5, 0, 0, 0, 255, 255, 255, 255] := by
      subst here
      rfl
    have hback : point.decodePayload .compact [5, 0, 0, 0, 255, 255, 255, 255] = .ok here := by
      subst here
      rfl
    exact ⟨bs, hbs, hstructured hpoint hpayload hback (by decide) hbs⟩
  · obtain ⟨bs, hbs⟩ : ∃ bs, m.marshal color green = .ok bs := by
      rw [marshal_eq_encodeAs (by simp [color]) hcolor]
      subst e
      exact ⟨_, rfl⟩
    obtain ⟨c, hc, hback⟩ := hconstant hcolor hordinal hbs
    exact ⟨bs, c, hbs, hc, hback⟩
  · obtain ⟨bs, hbs⟩ : ∃ bs, m.marshal (.list color) [green, green] = .ok bs := by
      rw [marshal_eq_encodeAs (by simp) hcolors]
      subst e
      exact ⟨_, rfl⟩
    have hordinals : ∀ i ∈ [green, green], e.ofOrdinal? (e.ordinal i) = some i := by
      simpa using hordinal
    obtain ⟨cs, hcs, hback⟩ := hconstants hcolors hordinals (by decide) hbs
    exact ⟨bs, cs, hbs, hcs, hback⟩

end Marshaller

end WireCodec
