import WireCodec.Marshal.Encoding
import WireCodec.Proofs.Decoding.Requests
import WireCodec.Proofs.RoundTrip.Values
import WireCodec.Proofs.Units

/-!
# Types with a fixed form

The values of these types are written without a registration, each as the dynamic value that it
counts as (`HostType.Fixed.exists_toValue?`). Asked for, that value is turned back into the one that
was written (`HostType.Fixed.exists_ofValue`).
-/

namespace WireCodec

namespace HostType

/-- The types with a fixed form. -/
inductive Fixed : HostType → Prop where
  | primitive (k : Primitive) : Fixed (.primitive k)
  | char : Fixed .char
  | scalar (s : Scalar) : Fixed (.scalar s)
  | unit : Fixed .unit
  | object : Fixed .object
  | primitives (k : Primitive) : Fixed (.list (.primitive k))
  | chars : Fixed (.list .char)
  | scalars (s : Scalar) : Fixed (.list (.scalar s))
  | optionalTexts : Fixed (.list (.option (.scalar .text)))
  | values : Fixed (.list .value)
  | queue : Fixed (.deque .value)
  | textSet (sorted : Bool) : Fixed (.set sorted .text)
  | textMap (sorted : Bool) : Fixed (.map sorted .text .value)
  | pair : Fixed (.pair .value .value)

theorem fixed_iff {t : HostType} : t.Fixed ↔ t.fixedTag?.isSome := by
  constructor
  · intro h
    cases h <;> rfl
  · fun_cases fixedTag? t
    case case15 => exact nofun
    all_goals exact fun _ => by constructor

end HostType

/-! ## Sets and maps in the order in which they are gone through -/

namespace KeyKind

theorem perm_iterate (k : KeyKind) (sorted : Bool) (xs : List k.Val) :
    (k.iterate sorted xs).Perm xs := by
  cases sorted with
  | false => exact .refl xs
  | true => exact List.mergeSort_perm _ _

theorem perm_iterateEntries {α : Type} (k : KeyKind) (sorted : Bool) (es : List (k.Val × α)) :
    (k.iterateEntries sorted es).Perm es := by
  cases sorted with
  | false => exact .refl es
  | true => exact List.mergeSort_perm _ _

theorem same_iff {k : KeyKind} {x y : k.Val} : k.same x y = true ↔ x = y := by
  cases k <;> exact beq_iff_eq

theorem foldl_insert {k : KeyKind} {xs ys : List k.Val} (h : (ys ++ xs).Nodup) :
    xs.foldl k.insert ys = ys ++ xs := by
  induction xs generalizing ys with
  | nil => simp
  | cons x xs ih =>
    have hnew : ys.any (k.same x) = false := by
      simp only [List.any_eq_false, same_iff]
      rintro y hy rfl
      exact (List.nodup_append.mp h).2.2 _ hy _ List.mem_cons_self rfl
    rw [List.foldl_cons, insert, hnew, if_neg (by simp), ih (by simpa using h)]
    simp

/-- A list without repetitions is the set of its elements. -/
theorem ofList_of_nodup {k : KeyKind} {xs : List k.Val} (h : xs.Nodup) : k.ofList xs = xs := by
  rw [ofList, foldl_insert (by simpa using h), List.nil_append]

theorem insertEntry_of_not_mem {α : Type} {k : KeyKind} {es : List (k.Val × α)} {e : k.Val × α}
    (h : e.1 ∉ es.map Prod.fst) : k.insertEntry es e = es ++ [e] := by
  induction es with
  | nil => rfl
  | cons d es ih =>
    rw [List.map_cons, List.mem_cons, not_or] at h
    rw [insertEntry, if_neg (mt same_iff.mp (Ne.symm h.1)), ih h.2]
    rfl

theorem foldl_insertEntry {α : Type} {k : KeyKind} {es ds : List (k.Val × α)}
    (h : ((ds ++ es).map Prod.fst).Nodup) : es.foldl k.insertEntry ds = ds ++ es := by
  induction es generalizing ds with
  | nil => simp
  | cons e es ih =>
    have hnew : e.1 ∉ ds.map Prod.fst := by
      intro hmem
      rw [List.map_append] at h
      exact (List.nodup_append.mp h).2.2 _ hmem _ List.mem_cons_self rfl
    rw [List.foldl_cons, insertEntry_of_not_mem hnew, ih (by simpa using h)]
    simp

/-- A list in which no key is there twice is the map of its entries. -/
theorem ofEntries_of_nodup {α : Type} {k : KeyKind} {es : List (k.Val × α)}
    (h : (es.map Prod.fst).Nodup) : k.ofEntries es = es := by
  rw [ofEntries, foldl_insertEntry (by simpa using h), List.nil_append]

end KeyKind

/-! ## Written as dynamic values -/

theorem Encode.each_map {α β : Type} (f : β → Except Error Bytes) (g : α → β) (xs : List α) :
    each f (xs.map g) = each (fun x => f (g x)) xs := by
  induction xs with
  | nil => rfl
  | cons x xs ih => rw [List.map_cons, each, each, ih]

theorem Encode.char_eq_ok {c : Char} {bs : Bytes} :
    char c = .ok bs ↔ ∃ u, Utf16.unitOfChar? c = some u ∧ Primitive.encode .unit u = bs := by
  rw [char]
  split <;> simp [*]

theorem Encode.each_char_of_mapM {cs : List Char} {us : List Utf16.CodeUnit}
    (h : cs.mapM Utf16.unitOfChar? = some us) :
    us.length = cs.length ∧ each char cs = .ok (us.flatMap (Primitive.encode .unit)) := by
  induction cs generalizing us with
  | nil => cases h; exact ⟨rfl, rfl⟩
  | cons c cs ih =>
    simp only [List.mapM_cons, Option.bind_eq_bind, Option.bind_eq_some_iff, Option.pure_def,
      Option.some.injEq] at h
    obtain ⟨u, hu, us, hus, rfl⟩ := h
    obtain ⟨hlength, heach⟩ := ih hus
    refine ⟨congrArg (· + 1) hlength, ?_⟩
    rw [each, char, hu, heach]
    rfl

theorem Encode.exists_of_each_char {cs : List Char} {bs : Bytes} (h : each char cs = .ok bs) :
    ∃ us, cs.mapM Utf16.unitOfChar? = some us := by
  induction cs generalizing bs with
  | nil => exact ⟨[], rfl⟩
  | cons c cs ih =>
    simp only [each, bind_eq_ok, char_eq_ok] at h
    obtain ⟨_, ⟨u, hu, -⟩, _, hbs, -⟩ := h
    obtain ⟨us, hus⟩ := ih hbs
    exact ⟨u :: us, by simp [List.mapM_cons, hu, hus]⟩

namespace HostType

variable {t : HostType} {x : t.Val} {v : Value} {bs : Bytes}

/-- A value of a type with a fixed form is encoded as the dynamic value that it counts as. -/
theorem Fixed.encodeFixed_eq (ht : t.Fixed) (hv : t.toValue? x = some v) :
    t.encodeFixed x = some v.encode := by
  cases ht with
  | char =>
    obtain ⟨u, hu, rfl⟩ := Option.map_eq_some_iff.mp hv
    change some (_ <$> Encode.char x) = _
    rw [Encode.char, hu]
    rfl
  | chars =>
    obtain ⟨us, hus, rfl⟩ := Option.map_eq_some_iff.mp hv
    obtain ⟨hlength, heach⟩ := Encode.each_char_of_mapM hus
    change some (_ <$> (do
      let n ← Encode.count x.length
      let body ← Encode.each Encode.char x
      return n ++ body)) = _
    rw [heach, Value.encode, Primitive.encodeArray, hlength]
    rfl
  | values | queue =>
    cases hv
    rw [Value.encode, Value.encodes_eq]
    simp only [encodeFixed, fixedTag?, encodeContent, map_bind, map_pure]
    rfl
  | textSet sorted =>
    cases hv
    rw [Value.encode, Value.encodes_eq]
    simp only [encodeFixed, fixedTag?, encodeContent, map_bind, map_pure, List.length_map,
      Encode.each_map, (KeyKind.perm_iterate _ _ _).length_eq]
    cases sorted <;> rfl
  | textMap sorted =>
    cases hv
    rw [Value.encode, Value.encodeEntries_eq]
    simp only [encodeFixed, fixedTag?, encodeContent, map_bind, map_pure, List.length_map,
      Encode.each_map, (KeyKind.perm_iterateEntries _ _ _).length_eq]
    cases sorted <;> rfl
  | pair =>
    cases hv
    rw [Value.encode]
    simp only [encodeFixed, fixedTag?, encodeContent, map_bind, map_pure]
    rfl
  | _ => cases hv; rfl

/-- What is written of a type with a fixed form counts as a dynamic value. Only a character beyond
one unit does not, and is not written. -/
theorem Fixed.exists_toValue? (ht : t.Fixed) (h : t.encodeFixed x = some (.ok bs)) :
    ∃ v, t.toValue? x = some v ∧ v.encode = .ok bs := by
  have hsome : ∃ v, t.toValue? x = some v := by
    cases ht with
    | char =>
      obtain ⟨content, hcontent, -⟩ := Encode.map_eq_ok.mp (Option.some.inj h)
      obtain ⟨u, hu, -⟩ := Encode.char_eq_ok.mp hcontent
      exact ⟨.primitive .unit u, by rw [toValue?, hu]; rfl⟩
    | chars =>
      have h : _ = Except.ok bs := Option.some.inj h
      simp only [Encode.map_eq_ok, Encode.bind_eq_ok] at h
      obtain ⟨_, ⟨_, _, _, hbody, _⟩, _⟩ := h
      obtain ⟨us, hus⟩ := Encode.exists_of_each_char hbody
      exact ⟨.primitiveArray .unit us, by rw [toValue?, hus]; rfl⟩
    | _ => exact ⟨_, rfl⟩
  obtain ⟨v, hv⟩ := hsome
  exact ⟨v, hv, Option.some.inj ((ht.encodeFixed_eq hv).symm.trans h)⟩

/-! ## Turned back into host values -/

/-- A host value as it comes back: the dynamic values and the decimals in it as they arrive. -/
def arrived : (t : HostType) → t.Val → t.Val
  | .scalar s, x => s.arrived x
  | .value, v => v.arrived
  | .option t, x => x.map t.arrived
  | .list t, xs => xs.map t.arrived
  | .deque t, xs => xs.map t.arrived
  | .map _ _ t, es => es.map fun e => (e.1, t.arrived e.2)
  | .pair a b, (x, y) => (a.arrived x, b.arrived y)
  | _, x => x

/-- No element of a set, and no key of a map, is there twice. -/
def Proper : (t : HostType) → t.Val → Prop
  | .set _ _, xs => xs.Nodup
  | .map _ _ _, es => (es.map Prod.fst).Nodup
  | _, _ => True

/-- Two host values are the same. For sets and maps the order does not count. -/
def Same : (t : HostType) → t.Val → t.Val → Prop
  | .set _ _, xs, ys => xs.Perm ys
  | .map _ _ _, es, ds => es.Perm ds
  | _, x, y => x = y

theorem mapM_char {cs : List Char} {us : List Utf16.CodeUnit}
    (h : cs.mapM Utf16.unitOfChar? = some us) :
    (us.map (Value.primitive .unit)).mapM Value.char = .ok cs := by
  induction cs generalizing us with
  | nil => cases h; rfl
  | cons c cs ih =>
    simp only [List.mapM_cons, Option.bind_eq_bind, Option.bind_eq_some_iff, Option.pure_def,
      Option.some.injEq] at h
    obtain ⟨u, hu, us, hus, rfl⟩ := h
    rw [List.map_cons, List.mapM_cons, Value.char, Utf16.charOfUnit?_of_unitOfChar? hu, ih hus]
    rfl

variable {l : DecodeLimits} (payloads : PayloadCodec)

theorem ofValue_scalars (s : Scalar) (xs : List s.Val) :
    (list (.scalar s)).ofValue payloads (Value.scalarArray s (xs.map some)).arrived =
      .ok (xs.map s.arrived) := by
  change (((xs.map some).map (Option.map s.arrived)).map
    fun y => (y.map (Value.scalar s)).getD .null).mapM s.ofValue = _
  rw [List.map_map, List.map_map]
  exact mapM_map_eq_ok fun y _ => dif_pos rfl

theorem ofValue_textSet {flavor : CollectionFlavor} {xs : List String} (sorted : Bool)
    (h : xs.Nodup) : ∃ w,
      (Value.collection flavor (xs.map .text)).arrived.under l (set sorted .text).request = .ok w ∧
      (set sorted .text).ofValue payloads w = .ok xs := by
  refine ⟨.collection flavor (xs.map .text), ?_, ?_⟩
  · rw [Value.arrived, Value.under, Value.arrivedAll_eq, Value.underAll_eq, List.map_map]
    have hxs : (xs.map (Value.arrived ∘ Value.text)).mapM
        (Value.under l (set sorted .text).request.element) = .ok (xs.map .text) :=
      mapM_map_eq_ok fun y _ => rfl
    rw [hxs]
    rfl
  · have hxs : (xs.map Value.text).mapM (KeyKind.ofValue .text) = .ok xs :=
      mapM_map_eq_self fun y _ => rfl
    change (KeyKind.ofList .text <$> (xs.map Value.text).mapM (KeyKind.ofValue .text)) = _
    rw [hxs]
    exact congrArg Except.ok (KeyKind.ofList_of_nodup h)

theorem ofValue_textMap {flavor : MapFlavor} {es : List (String × Value)} (sorted : Bool)
    (h : (es.map Prod.fst).Nodup) : ∃ w,
      (Value.map flavor (es.map fun e => (.text e.1, e.2))).arrived.under l
        (map sorted .text value).request = .ok w ∧
      (map sorted .text value).ofValue payloads w = .ok (es.map fun e => (e.1, e.2.arrived)) := by
  refine ⟨.map flavor (es.map fun e => (.text e.1, e.2.arrived)), ?_, ?_⟩
  · have hes : (es.map fun e => (Value.text e.1, e.2.arrived)).mapM (fun e => do
        return (← e.1.under l (map sorted .text value).request.key,
          ← e.2.under l (map sorted .text value).request.value)) =
        .ok (es.map fun e => (Value.text e.1, e.2.arrived)) := by
      refine mapM_map_eq_ok fun e _ => ?_
      change (do return (Value.text e.1, ← e.2.arrived.under l .any)) = _
      rw [e.2.under_any]
      rfl
    rw [Value.arrived, Value.under, Value.arrivedEntries_eq, Value.underEntries_eq, List.map_map]
    exact congrArg (Value.map flavor <$> ·) hes
  · have hes : (es.map fun e => (Value.text e.1, e.2.arrived)).mapM (fun e => do
        let x ← KeyKind.ofValue .text e.1
        let y ← ofValue payloads .value e.2
        return (x, y)) = .ok (es.map fun e => (e.1, e.2.arrived)) :=
      mapM_map_eq_ok fun e _ => rfl
    change (do return KeyKind.ofEntries .text (← (es.map _).mapM _) : Except Error _) = _
    rw [hes]
    refine congrArg Except.ok (KeyKind.ofEntries_of_nodup ?_)
    rwa [List.map_map]

/-- The dynamic value that a host value counts as is, for who asks for a value of its type, the
host value as it comes back. -/
theorem Fixed.exists_ofValue (ht : t.Fixed) (hproper : t.Proper x)
    (hobject : l.objectTypeId .object = none) (hv : t.toValue? x = some v) :
    ∃ w y, v.arrived.under l t.request = .ok w ∧ t.ofValue payloads w = .ok y ∧
      t.Same (t.arrived x) y := by
  cases ht with
  | primitive k =>
    cases hv
    exact ⟨_, x, Value.under_primitive (Request.primitive_exact k) x, dif_pos rfl, rfl⟩
  | char =>
    obtain ⟨u, hu, rfl⟩ := Option.map_eq_some_iff.mp hv
    refine ⟨_, x, Value.under_primitive (k := .unit) rfl u, ?_, rfl⟩
    rw [ofValue, Value.char, Utf16.charOfUnit?_of_unitOfChar? hu]
  | scalar s =>
    cases hv
    exact ⟨.scalar s (s.arrived x), s.arrived x, rfl, dif_pos rfl, rfl⟩
  | unit =>
    cases hv
    exact ⟨.null, (), rfl, rfl, rfl⟩
  | object =>
    cases hv
    have hcheck : l.checkObject (request .object) x = .ok () := by
      simp [request, DecodeLimits.checkObject, hobject]
    exact ⟨.object x, x, by rw [Value.arrived, Value.under, hcheck]; rfl, rfl, rfl⟩
  | primitives k =>
    cases hv
    exact ⟨_, x, Value.under_primitiveArray (Request.primitiveArray_elements k) x,
      mapM_map_eq_self fun y _ => dif_pos rfl, List.map_id x⟩
  | chars =>
    obtain ⟨us, hus, rfl⟩ := Option.map_eq_some_iff.mp hv
    exact ⟨_, x, Value.under_primitiveArray (k := .unit) rfl us, mapM_char hus, List.map_id x⟩
  | scalars s =>
    cases hv
    exact ⟨_, x.map s.arrived, rfl, ofValue_scalars payloads s x, rfl⟩
  | optionalTexts =>
    cases hv
    refine ⟨_, x, rfl, ?_, ?_⟩
    · change ((x.map (Option.map (Scalar.arrived .text))).map
        fun y => (y.map (Value.scalar .text)).getD .null).mapM
          (HostType.ofValue payloads (.option (.scalar .text))) = _
      rw [List.map_map]
      refine mapM_map_eq_self fun y _ => ?_
      cases y <;> rfl
    · refine (List.map_congr_left fun y _ => ?_).trans (List.map_id x)
      cases y <;> rfl
  | values =>
    cases hv
    refine ⟨.objectArray (x.map Value.arrived), x.map Value.arrived, ?_, ?_, rfl⟩
    · have h := Value.under_any (l := l) (.objectArray x)
      rw [Value.arrived, Value.arrivedAll_eq] at h ⊢
      exact h
    · exact mapM_map_eq_ok fun y _ => rfl
  | queue =>
    cases hv
    refine ⟨.collection .linkedList (x.map Value.arrived), x.map Value.arrived, ?_, ?_, rfl⟩
    · have h := Value.under_any (l := l) (.collection .linkedList x)
      rw [Value.arrived, Value.arrivedAll_eq] at h ⊢
      exact h
    · exact mapM_map_eq_ok fun y _ => rfl
  | textSet sorted =>
    cases hv
    -- the elements come in the order in which the set is gone through
    have hperm := KeyKind.perm_iterate .text sorted x
    obtain ⟨w, hw, hback⟩ := ofValue_textSet payloads sorted (hperm.nodup_iff.mpr hproper)
    exact ⟨w, _, hw, hback, hperm.symm⟩
  | textMap sorted =>
    cases hv
    have hperm := KeyKind.perm_iterateEntries .text sorted x
    obtain ⟨w, hw, hback⟩ :=
      ofValue_textMap payloads sorted ((hperm.map Prod.fst).nodup_iff.mpr hproper)
    exact ⟨w, _, hw, hback, hperm.symm.map _⟩
  | pair =>
    cases hv
    refine ⟨.mapEntry x.1.arrived x.2.arrived, (x.1.arrived, x.2.arrived), ?_, rfl, rfl⟩
    exact Value.under_any (.mapEntry x.1 x.2)

end HostType

end WireCodec
