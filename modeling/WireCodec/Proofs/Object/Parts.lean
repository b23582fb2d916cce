import WireCodec.Object.Value

/-!
# Values within values

The values inside a value, and what holds of all of them: `Value.Everywhere` follows a property
down, `Value.NestedWithin` counts the containers on the way. `Value.arrived` is a value as a reader
gets it back that asks for nothing in particular: its integers are signed and its zeros have no
sign, and all else is as it was.
-/

namespace WireCodec

/-! ## What arrives of the smallest parts -/

/-- The kind that an integer is read as where nothing tells its sign. -/
def Primitive.signed : Primitive → Primitive
  | int w _ => int w .signed
  | k => k

/-- A value of a kind as the kind that it is read as, of the same bits. -/
def Primitive.toSigned : (k : Primitive) → k.Val → k.signed.Val
  | bool, x => x
  | unit, x => x
  | int _ _, x => x
  | float, x => x
  | double, x => x

namespace Primitive

@[simp] theorem form_signed (k : Primitive) : k.signed.form = k.form := by cases k <;> rfl

@[simp] theorem size_signed (k : Primitive) : k.signed.size = k.size := by cases k <;> rfl

@[simp] theorem encode_toSigned (k : Primitive) (x : k.Val) :
    k.signed.encode (k.toSigned x) = k.encode x := by
  cases k <;> rfl

end Primitive

/-- A decimal as it arrives: zero has no sign on the wire. -/
def Decimal.arrived (d : Decimal) : Decimal := { d with negative := d.negative && d.magnitude != 0 }

/-- A scalar as it arrives. -/
def Scalar.arrived : (s : Scalar) → s.Val → s.Val
  | text, x => x
  | uuid, x => x
  | decimal, x => Decimal.arrived x
  | timestamp, x => x
  | constant, x => x

/-- The number is the same, and so is its scale. -/
theorem Decimal.mantissa_arrived (d : Decimal) : d.arrived.mantissa = d.mantissa := by
  obtain ⟨negative, magnitude, scale⟩ := d
  by_cases h : magnitude = 0#96 <;> simp [arrived, mantissa, h]

/-! ## Types and texts -/

/-- A reference to a type: its id, and its name where the reference goes by name. -/
abbrev TypeRef : Type := Int32 × Option String

namespace TypeRef

/-- An id that comes with a name is the id of that name. -/
def Agrees (t : TypeRef) : Prop := ∀ name ∈ t.2, t.1 = TypeName.id name

/-- A reference that goes by the id that announces a name. -/
def Reserved (t : TypeRef) : Prop := t.1 = 0 ∧ t.2 = none

/-- The wire tells the type. -/
def Told (t : TypeRef) : Prop := t.Agrees ∧ ¬ t.Reserved

instance (t : TypeRef) : Decidable t.Agrees := inferInstanceAs (Decidable (∀ name ∈ t.2, _))

instance (t : TypeRef) : Decidable t.Reserved := inferInstanceAs (Decidable (_ ∧ _))

instance (t : TypeRef) : Decidable t.Told := inferInstanceAs (Decidable (_ ∧ ¬ _))

end TypeRef

/-- The type of a constant. -/
def EnumConstant.type (c : EnumConstant) : TypeRef := (c.typeId, c.name)

/-- The type of an object. -/
def StructuredObject.type (o : StructuredObject) : TypeRef := (o.typeId, o.name)

namespace Scalar

/-- The types that a scalar refers to. -/
def types : (s : Scalar) → s.Val → List TypeRef
  | constant, c => [EnumConstant.type c]
  | _, _ => []

/-- The texts in a scalar, the name of its type among them. -/
def texts : (s : Scalar) → s.Val → List String
  | text, t => [t]
  | constant, c => (EnumConstant.name c).toList
  | _, _ => []

/-- No fraction of a second runs on over a leap second. -/
def Plain : (s : Scalar) → s.Val → Prop
  | timestamp, t => Timestamp.nanoseconds t < 1000000000
  | _, _ => True

/-- The wire tells all of a scalar. -/
def Faithful (s : Scalar) (x : s.Val) : Prop := s.Plain x ∧ ∀ t ∈ s.types x, t.Told

instance : (s : Scalar) → (x : s.Val) → Decidable (s.Plain x)
  | timestamp, t => inferInstanceAs (Decidable (Timestamp.nanoseconds t < 1000000000))
  | text, _ | uuid, _ | decimal, _ | constant, _ => .isTrue trivial

theorem types_arrived (s : Scalar) (x : s.Val) : s.types (s.arrived x) = s.types x := by
  cases s <;> rfl

theorem arrived_arrived (s : Scalar) (x : s.Val) : s.arrived (s.arrived x) = s.arrived x := by
  cases s with
  | decimal => simp [arrived, Decimal.arrived]
  | _ => rfl

end Scalar

namespace Value

/-- The scalars of a value. -/
def scalars : Value → List ((s : Scalar) × s.Val)
  | scalar s x => [⟨s, x⟩]
  | scalarArray s xs => xs.flatMap fun x => (x.map (Sigma.mk s)).toList
  | _ => []

/-- The types that a value refers to, but not those of its parts. -/
def types : Value → List TypeRef
  | object o => [o.type]
  | v => v.scalars.flatMap fun x => x.1.types x.2

/-- The texts in a value, but not in its parts; names of types are among them. -/
def texts : Value → List String
  | object o => o.name.toList
  | v => v.scalars.flatMap fun x => x.1.texts x.2

/-- The number of elements or entries of a value, or the length of its payload. -/
def length : Value → Nat
  | primitiveArray _ xs => xs.length
  | scalarArray _ xs => xs.length
  | objectArray xs => xs.length
  | collection _ xs => xs.length
  | map _ entries => entries.length
  | object o => o.payload.length
  | _ => 0

/-- A 32-bit length can tell each length in a value; its parts do not count. -/
def Encodable (v : Value) : Prop :=
  v.length ≤ Encode.maxLength ∧ ∀ s ∈ v.texts, (ModifiedUtf8.encode s).length ≤ Encode.maxLength

/-- No fraction of a second runs on over a leap second. -/
def Plain (v : Value) : Prop := ∀ x ∈ v.scalars, x.1.Plain x.2

/-- The wire tells all of a value; its parts do not count. -/
def Faithful (v : Value) : Prop := v.Plain ∧ ∀ t ∈ v.types, t.Told

instance : DecidablePred Encodable := fun v => inferInstanceAs (Decidable (_ ∧ ∀ s ∈ v.texts, _))

instance : DecidablePred Plain := fun v => inferInstanceAs (Decidable (∀ x ∈ v.scalars, _))

instance : DecidablePred Faithful := fun v =>
  inferInstanceAs (Decidable (v.Plain ∧ ∀ t ∈ v.types, t.Told))

variable {p q : Value → Prop} {v w : Value}

theorem mem_scalars_scalarArray {s : Scalar} {xs : List (Option s.Val)} {x : s.Val}
    (h : some x ∈ xs) : ⟨s, x⟩ ∈ (scalarArray s xs).scalars :=
  List.mem_flatMap.mpr ⟨some x, h, List.mem_singleton_self _⟩

theorem mem_types_of_mem_scalars {x : (s : Scalar) × s.Val} {t : TypeRef} (hx : x ∈ v.scalars)
    (ht : t ∈ x.1.types x.2) : t ∈ v.types := by
  cases v with
  | object o => cases hx
  | _ => exact List.mem_flatMap.mpr ⟨x, hx, ht⟩

theorem mem_texts_of_mem_scalars {x : (s : Scalar) × s.Val} {t : String} (hx : x ∈ v.scalars)
    (ht : t ∈ x.1.texts x.2) : t ∈ v.texts := by
  cases v with
  | object o => cases hx
  | _ => exact List.mem_flatMap.mpr ⟨x, hx, ht⟩

theorem Faithful.scalar {x : (s : Scalar) × s.Val} (hv : v.Faithful) (hx : x ∈ v.scalars) :
    x.1.Faithful x.2 :=
  ⟨hv.1 x hx, fun t ht => hv.2 t (mem_types_of_mem_scalars hx ht)⟩

theorem plain_of_scalars (h : v.scalars = []) : v.Plain := by
  rw [Plain, h]
  exact List.forall_mem_nil _

theorem plain_scalarArray {s : Scalar} {xs : List (Option s.Val)} :
    (scalarArray s xs).Plain ↔ ∀ x ∈ xs, ∀ y ∈ x, s.Plain y := by
  constructor
  · intro h x hx y hy
    exact h ⟨s, y⟩ (mem_scalars_scalarArray (hy ▸ hx))
  · intro h x hx
    simp only [scalars, List.mem_flatMap, Option.mem_toList, Option.map_eq_some_iff] at hx
    obtain ⟨y, hy, z, hz, rfl⟩ := hx
    exact h y hy z hz

theorem faithful_of_scalars (htypes : v.types = v.scalars.flatMap fun x => x.1.types x.2)
    (h : ∀ x ∈ v.scalars, x.1.Faithful x.2) : v.Faithful := by
  refine ⟨fun x hx => (h x hx).1, fun t ht => ?_⟩
  rw [htypes] at ht
  obtain ⟨x, hx, ht⟩ := List.mem_flatMap.mp ht
  exact (h x hx).2 t ht

theorem faithful_scalar {s : Scalar} {x : s.Val} (h : s.Faithful x) : (scalar s x).Faithful :=
  faithful_of_scalars rfl (List.forall_mem_singleton.mpr h)

theorem faithful_scalarArray {s : Scalar} {xs : List (Option s.Val)}
    (h : ∀ x ∈ xs, ∀ y ∈ x, s.Faithful y) : (scalarArray s xs).Faithful := by
  refine faithful_of_scalars rfl fun x hx => ?_
  simp only [scalars, List.mem_flatMap, Option.mem_toList, Option.map_eq_some_iff] at hx
  obtain ⟨y, hy, z, hz, rfl⟩ := hx
  exact h y hy z hz

theorem faithful_object {o : StructuredObject} (h : o.type.Told) : (object o).Faithful :=
  ⟨by simp [Plain, scalars], List.forall_mem_singleton.mpr h⟩

/-! ## Parts -/

/-- The values directly inside a value. -/
def parts : Value → List Value
  | objectArray xs => xs
  | collection _ xs => xs
  | map _ entries => entries.flatMap fun e => [e.1, e.2]
  | mapEntry key value => [key, value]
  | _ => []

mutual

/-- A value and all values inside it, each before its parts. -/
def inside : Value → List Value
  | objectArray xs => objectArray xs :: insideAll xs
  | collection flavor xs => collection flavor xs :: insideAll xs
  | map flavor entries => map flavor entries :: insideEntries entries
  | mapEntry key value => mapEntry key value :: (inside key ++ inside value)
  | v => [v]

/-- Values and all values inside them. -/
def insideAll : List Value → List Value
  | [] => []
  | v :: vs => inside v ++ insideAll vs

/-- The values of entries, and all values inside them. -/
def insideEntries : List (Value × Value) → List Value
  | [] => []
  | (k, v) :: entries => inside k ++ inside v ++ insideEntries entries

end

theorem insideAll_eq (xs : List Value) : insideAll xs = xs.flatMap inside := by
  induction xs with
  | nil => rfl
  | cons x xs ih => rw [insideAll, ih, List.flatMap_cons]

theorem insideEntries_eq (es : List (Value × Value)) :
    insideEntries es = (es.flatMap fun e => [e.1, e.2]).flatMap inside := by
  induction es with
  | nil => rfl
  | cons e es ih => simp [insideEntries, ih]

theorem inside_eq (v : Value) : v.inside = v :: v.parts.flatMap inside := by
  cases v with
  | objectArray xs => rw [inside, insideAll_eq, parts]
  | collection flavor xs => rw [inside, insideAll_eq, parts]
  | map flavor entries => rw [inside, insideEntries_eq, parts]
  | mapEntry key value => simp [inside, parts]
  | _ => rfl

theorem sizeOf_of_mem_parts {v w : Value} (h : w ∈ v.parts) : sizeOf w < sizeOf v := by
  cases v with
  | objectArray xs =>
    have : sizeOf w < sizeOf xs := List.sizeOf_lt_of_mem h
    simp only [objectArray.sizeOf_spec]
    omega
  | collection flavor xs =>
    have : sizeOf w < sizeOf xs := List.sizeOf_lt_of_mem h
    simp only [collection.sizeOf_spec]
    omega
  | map flavor entries =>
    obtain ⟨⟨key, value⟩, he, hw⟩ := List.mem_flatMap.mp h
    have := List.sizeOf_lt_of_mem he
    rw [Prod.mk.sizeOf_spec] at this
    simp only [map.sizeOf_spec]
    simp only [List.mem_cons, List.not_mem_nil, or_false] at hw
    obtain rfl | rfl := hw <;> omega
  | mapEntry key value =>
    simp only [parts, List.mem_cons, List.not_mem_nil, or_false] at h
    simp only [mapEntry.sizeOf_spec]
    obtain rfl | rfl := h <;> omega
  | _ => cases h

/-- What holds of a value if it holds of its parts holds of all values. -/
theorem induction_on_parts {motive : Value → Prop}
    (step : ∀ v, (∀ w ∈ v.parts, motive w) → motive v) (v : Value) : motive v :=
  step v fun w hw =>
    have := sizeOf_of_mem_parts hw
    induction_on_parts step w
termination_by sizeOf v

/-- A property holds of a value and of all values inside it. -/
def Everywhere (p : Value → Prop) (v : Value) : Prop := ∀ w ∈ v.inside, p w

instance (p : Value → Prop) [DecidablePred p] (v : Value) : Decidable (v.Everywhere p) :=
  inferInstanceAs (Decidable (∀ w ∈ v.inside, p w))

/-- No value inside has more than so many containers around it. -/
def NestedWithin : Nat → Value → Prop
  | 0, v => v.parts.isEmpty
  | levels + 1, v => ∀ w ∈ v.parts, w.NestedWithin levels

instance decidableNestedWithin : (levels : Nat) → (v : Value) → Decidable (v.NestedWithin levels)
  | 0, v => inferInstanceAs (Decidable (v.parts.isEmpty = true))
  | levels + 1, v =>
    have := decidableNestedWithin levels
    inferInstanceAs (Decidable (∀ w ∈ v.parts, w.NestedWithin levels))

theorem everywhere_iff : v.Everywhere p ↔ p v ∧ ∀ w ∈ v.parts, w.Everywhere p := by
  simp only [Everywhere, inside_eq v, List.forall_mem_cons, List.mem_flatMap]
  refine and_congr_right' ⟨fun h w hw u hu => h u ⟨w, hw, hu⟩, ?_⟩
  rintro h u ⟨w, hw, hu⟩
  exact h w hw u hu

theorem everywhere_of_leaf (h : p v) (hparts : v.parts = []) : v.Everywhere p := by
  rw [everywhere_iff, hparts]
  exact ⟨h, nofun⟩

theorem forall_mem_parts_map {flavor : MapFlavor} {entries : List (Value × Value)} :
    (∀ w ∈ (map flavor entries).parts, p w) ↔ ∀ e ∈ entries, p e.1 ∧ p e.2 := by
  simp only [parts, List.mem_flatMap, List.mem_cons, List.not_mem_nil, or_false]
  constructor
  · intro h e he
    exact ⟨h _ ⟨e, he, .inl rfl⟩, h _ ⟨e, he, .inr rfl⟩⟩
  · rintro h w ⟨e, he, rfl | rfl⟩
    · exact (h e he).1
    · exact (h e he).2

/-- The lengths in a value, and the containers around each value inside it, are within limits. -/
structure Within (limit levels : Nat) (v : Value) : Prop where
  lengths : v.Everywhere fun w => w.length ≤ limit
  nesting : v.NestedWithin levels

variable {limit levels : Nat}

instance (v : Value) : Decidable (v.Within limit levels) :=
  decidable_of_iff ((v.Everywhere fun w => w.length ≤ limit) ∧ v.NestedWithin levels)
    ⟨fun h => ⟨h.1, h.2⟩, fun h => ⟨h.1, h.2⟩⟩

theorem within_zero : v.Within limit 0 ↔ v.length ≤ limit ∧ ∀ w ∈ v.parts, False := by
  have hparts : v.NestedWithin 0 ↔ ∀ w ∈ v.parts, False := by
    simp [NestedWithin, List.eq_nil_iff_forall_not_mem]
  constructor
  · rintro ⟨hlengths, hnesting⟩
    exact ⟨(everywhere_iff.mp hlengths).1, hparts.mp hnesting⟩
  · rintro ⟨hlength, hnone⟩
    exact ⟨everywhere_iff.mpr ⟨hlength, fun w hw => (hnone w hw).elim⟩, hparts.mpr hnone⟩

theorem within_succ : v.Within limit (levels + 1) ↔
    v.length ≤ limit ∧ ∀ w ∈ v.parts, w.Within limit levels := by
  constructor
  · rintro ⟨hlengths, hnesting⟩
    obtain ⟨hlength, hinside⟩ := everywhere_iff.mp hlengths
    exact ⟨hlength, fun w hw => ⟨hinside w hw, hnesting w hw⟩⟩
  · rintro ⟨hlength, hparts⟩
    exact ⟨everywhere_iff.mpr ⟨hlength, fun w hw => (hparts w hw).lengths⟩,
      fun w hw => (hparts w hw).nesting⟩

theorem within_of_leaf (h : v.length ≤ limit) (hparts : v.parts = []) : v.Within limit levels := by
  refine ⟨everywhere_of_leaf h hparts, ?_⟩
  cases levels <;> simp [NestedWithin, hparts]

/-! ## Values as they arrive -/

mutual

/-- A value as it arrives. -/
def arrived : Value → Value
  | null => null
  | primitive k x => primitive k.signed (k.toSigned x)
  | primitiveArray k xs => primitiveArray k.signed (xs.map k.toSigned)
  | scalar s x => scalar s (s.arrived x)
  | scalarArray s xs => scalarArray s (xs.map (Option.map s.arrived))
  | objectArray xs => objectArray (arrivedAll xs)
  | collection flavor xs => collection flavor (arrivedAll xs)
  | map flavor entries => map flavor (arrivedEntries entries)
  | mapEntry key value => mapEntry (arrived key) (arrived value)
  | object o => object o

/-- Values as they arrive. -/
def arrivedAll : List Value → List Value
  | [] => []
  | v :: vs => arrived v :: arrivedAll vs

/-- Entries as they arrive. -/
def arrivedEntries : List (Value × Value) → List (Value × Value)
  | [] => []
  | (k, v) :: entries => (arrived k, arrived v) :: arrivedEntries entries

end

theorem arrivedAll_eq (xs : List Value) : arrivedAll xs = xs.map arrived := by
  induction xs with
  | nil => rfl
  | cons x xs ih => rw [arrivedAll, ih, List.map_cons]

theorem arrivedEntries_eq (es : List (Value × Value)) :
    arrivedEntries es = es.map fun e => (e.1.arrived, e.2.arrived) := by
  induction es with
  | nil => rfl
  | cons e es ih => rw [arrivedEntries, ih, List.map_cons]

theorem parts_arrived (v : Value) : v.arrived.parts = v.parts.map arrived := by
  cases v with
  | objectArray xs => exact arrivedAll_eq xs
  | collection flavor xs => exact arrivedAll_eq xs
  | map flavor entries =>
    rw [arrived, arrivedEntries_eq]
    simp [parts, List.flatMap_map, List.map_flatMap]
  | _ => rfl

theorem types_arrived (v : Value) : v.arrived.types = v.types := by
  cases v with
  | scalar s x => simp [arrived, types, scalars, Scalar.types_arrived]
  | scalarArray s xs =>
    simp only [arrived, types, scalars, List.flatMap_map, List.flatMap_assoc]
    congr 1
    funext x
    cases x <;> simp [Scalar.types_arrived]
  | _ => rfl

/-- What holds of a value as it arrives exactly if it held before holds so of all values inside. -/
theorem everywhere_arrived (h : ∀ w, p w.arrived ↔ p w) (v : Value) :
    v.arrived.Everywhere p ↔ v.Everywhere p := by
  induction v using induction_on_parts with
  | step v ih =>
    rw [everywhere_iff, everywhere_iff (v := v), parts_arrived, List.forall_mem_map, h]
    exact and_congr_right' (forall₂_congr ih)

theorem everywhere_arrived_of (h : ∀ w : Value, p w.arrived) (v : Value) : v.arrived.Everywhere p := by
  induction v using induction_on_parts with
  | step v ih =>
    rw [everywhere_iff, parts_arrived, List.forall_mem_map]
    exact ⟨h v, ih⟩

/-- No scalar of a value changes on arrival; its parts do not count. -/
def Settled (v : Value) : Prop := ∀ x ∈ v.scalars, x.1.arrived x.2 = x.2

theorem settled_arrived (v : Value) : v.arrived.Settled := by
  cases v with
  | scalar s x => exact List.forall_mem_singleton.mpr (s.arrived_arrived x)
  | scalarArray s xs =>
    intro x hx
    simp only [arrived, scalars, List.flatMap_map, Option.map_map, List.mem_flatMap,
      Option.mem_toList, Option.map_eq_some_iff] at hx
    obtain ⟨y, -, z, -, rfl⟩ := hx
    exact s.arrived_arrived z
  | _ => exact List.forall_mem_nil _

/-- What arrives has arrived. -/
theorem arrived_arrived (v : Value) : v.arrived.arrived = v.arrived := by
  induction v using induction_on_parts with
  | step v ih =>
    cases v with
    | primitive k x => cases k <;> rfl
    | primitiveArray k xs => cases k <;> exact congrArg (primitiveArray _) List.map_map
    | scalar s x => simp only [arrived, s.arrived_arrived]
    | scalarArray s xs =>
      have hs : s.arrived ∘ s.arrived = s.arrived := funext s.arrived_arrived
      simp only [arrived, List.map_map, Option.map_comp_map, hs]
    | objectArray xs =>
      simp only [arrived, arrivedAll_eq, List.map_map]
      exact congrArg objectArray (List.map_congr_left ih)
    | collection flavor xs =>
      simp only [arrived, arrivedAll_eq, List.map_map]
      exact congrArg (collection flavor) (List.map_congr_left ih)
    | map flavor entries =>
      rw [forall_mem_parts_map] at ih
      simp only [arrived, arrivedEntries_eq, List.map_map]
      exact congrArg (map flavor) (List.map_congr_left fun e he => Prod.ext (ih e he).1 (ih e he).2)
    | mapEntry key value =>
      simp only [arrived, ih key (by simp [parts]), ih value (by simp [parts])]
    | _ => rfl

end Value

end WireCodec
