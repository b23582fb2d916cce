import WireCodec.Proofs.RoundTrip.Stable

/-!
# Typed decoding and dynamic decoding

A decode for a caller that asks for something in particular gives nothing that the dynamic decode
does not contain. The dynamic value has no unsigned integer in it; `Value.reinterpret` reads the
bits of those integers as unsigned that stand where the request asks for unsigned ones, and this is
the value that the caller makes one of its own of.
-/

namespace WireCodec

open Decode

/-! ## Integers where unsigned ones are asked for -/

namespace Request

/-- Unsigned integers of this width are asked for. -/
def AsksUnsigned (w : Width) (r : Request) : Prop := r = exact (.primitive (.int w .unsigned))

/-- Arrays of unsigned integers of this width are asked for. -/
def AsksUnsignedArray (w : Width) (r : Request) : Prop :=
  r = exact (.list (.primitive (.int w .unsigned))) ∨
    r = elements (exact (.primitive (.int w .unsigned)))

instance (w : Width) (r : Request) : Decidable (r.AsksUnsigned w) :=
  inferInstanceAs (Decidable (_ = _))

instance (w : Width) (r : Request) : Decidable (r.AsksUnsignedArray w) :=
  inferInstanceAs (Decidable (_ ∨ _))

variable {r : Request} {w : Width} {s : Sign}

theorem eq_of_sign? (h : r.sign? w = some s) :
    s = if r.AsksUnsigned w then .unsigned else .signed := by
  unfold sign? at h
  split at h
  case h_1 => cases h; rfl
  case h_2 w' s' =>
    rw [Option.ite_none_right_eq_some] at h
    obtain ⟨rfl, h⟩ := h
    cases h
    cases s <;> simp [AsksUnsigned]
  case h_3 => cases h

theorem eq_of_arraySign? (h : r.arraySign? w = some s) :
    s = if r.AsksUnsignedArray w then .unsigned else .signed := by
  unfold arraySign? at h
  split at h
  case h_1 => cases h; rfl
  case h_3 => cases h; rfl
  case h_5 => cases h
  all_goals
    rw [Option.ite_none_right_eq_some] at h
    obtain ⟨rfl, h⟩ := h
    cases h
    cases s <;> simp [AsksUnsignedArray]

theorem eq_of_primitive_int {k : Primitive} (h : r.primitive (.int w) = .ok k) :
    k = .int w (if r.AsksUnsigned w then .unsigned else .signed) := by
  rw [primitive] at h
  split at h
  case h_1 s hs => cases h; rw [← eq_of_sign? hs]
  case h_2 => cases h

theorem eq_of_primitiveArray_int {k : Primitive} (h : r.primitiveArray (.int w) = .ok k) :
    k = .int w (if r.AsksUnsignedArray w then .unsigned else .signed) := by
  rw [primitiveArray] at h
  split at h
  case h_1 s hs => cases h; rw [← eq_of_arraySign? hs]
  case h_2 => cases h

end Request

namespace Value

/-- An integer, or an array of integers, is signed; other values have no sign. -/
def Signed : Value → Prop
  | primitive (.int _ s) _ => s = .signed
  | primitiveArray (.int _ s) _ => s = .signed
  | _ => True

mutual

/-- A value with the integers unsigned that are asked for as unsigned ones. -/
def reinterpret (r : Request) : Value → Value
  | primitive (.int w s) x =>
    if r.AsksUnsigned w then primitive (.int w .unsigned) x else primitive (.int w s) x
  | primitiveArray (.int w s) xs =>
    if r.AsksUnsignedArray w then primitiveArray (.int w .unsigned) xs
    else primitiveArray (.int w s) xs
  | objectArray xs => objectArray (reinterpretAll r.element xs)
  | collection flavor xs => collection flavor (reinterpretAll r.element xs)
  | map flavor entries => map flavor (reinterpretEntries r entries)
  | mapEntry key value => mapEntry (reinterpret r.key key) (reinterpret r.value value)
  | v => v

/-- Elements, each with the integers unsigned that are asked for as unsigned ones. -/
def reinterpretAll (r : Request) : List Value → List Value
  | [] => []
  | v :: vs => reinterpret r v :: reinterpretAll r vs

/-- Entries, each with the integers unsigned that are asked for as unsigned ones. -/
def reinterpretEntries (r : Request) : List (Value × Value) → List (Value × Value)
  | [] => []
  | (k, v) :: entries =>
    (reinterpret r.key k, reinterpret r.value v) :: reinterpretEntries r entries

end

variable {l : DecodeLimits} {r : Request} {v w : Value}

theorem reinterpretAll_eq (xs : List Value) : reinterpretAll r xs = xs.map (reinterpret r) := by
  induction xs with
  | nil => rfl
  | cons x xs ih => rw [reinterpretAll, ih, List.map_cons]

theorem reinterpretEntries_eq (es : List (Value × Value)) : reinterpretEntries r es =
    es.map fun e => (reinterpret r.key e.1, reinterpret r.value e.2) := by
  induction es with
  | nil => rfl
  | cons e es ih => rw [reinterpretEntries, ih, List.map_cons]

theorem signed_arrived (v : Value) : v.arrived.Signed := by
  cases v with
  | primitive k x => cases k <;> trivial
  | primitiveArray k xs => cases k <;> trivial
  | _ => trivial

theorem eq_map_of_mapM {α β ε : Type} {f : α → Except ε β} {g : α → β} {xs : List α} {ys : List β}
    (hg : ∀ x ∈ xs, ∀ y, f x = .ok y → y = g x) (h : xs.mapM f = .ok ys) : ys = xs.map g := by
  induction xs generalizing ys with
  | nil => cases h; rfl
  | cons x xs ih =>
    rw [List.forall_mem_cons] at hg
    rw [List.mapM_cons] at h
    cases hx : f x with
    | error e => rw [hx] at h; cases h
    | ok y =>
      cases hxs : xs.mapM f with
      | error e => rw [hx, hxs] at h; cases h
      | ok zs =>
        rw [hx, hxs] at h
        cases h
        rw [List.map_cons, ← hg.1 y hx, ← ih hg.2 hxs]

/-- What a signed value is under a request is the value with the integers unsigned that the
request asks for as unsigned ones. -/
theorem eq_reinterpret_of_under (hv : v.Everywhere Signed) (h : v.under l r = .ok w) :
    w = v.reinterpret r := by
  induction v using induction_on_parts generalizing r w with
  | step v ih =>
    obtain ⟨hhere, hparts⟩ := everywhere_iff.mp hv
    have ih (u : Value) (hu : u ∈ v.parts) {r : Request} {w : Value} (h : u.under l r = .ok w) :
        w = u.reinterpret r := ih u hu (hparts u hu) h
    cases v with
    | primitive k x =>
      obtain ⟨k', hk, h⟩ := Encode.bind_eq_ok.mp h
      cases h
      cases k with
      | int w s =>
        -- the kind that is asked for may have the other sign, but the bits stay
        cases Request.eq_of_primitive_int hk
        cases hhere
        rw [Primitive.convert_int, reinterpret]
        split <;> simp [*]
      | _ => cases hk; rw [Primitive.convert_self]; rfl
    | primitiveArray k xs =>
      obtain ⟨k', hk, h⟩ := Encode.bind_eq_ok.mp h
      cases h
      cases k with
      | int w s =>
        cases Request.eq_of_primitiveArray_int hk
        cases hhere
        have hxs (s s' : Sign) : xs.map ((Primitive.int w s).convert (.int w s')) = xs :=
          List.map_id'' (Primitive.convert_int s s') xs
        rw [hxs, reinterpret]
        split <;> simp [*]
      | _ => cases hk; rw [List.map_id'' (Primitive.convert_self _)]; rfl
    | objectArray xs =>
      rw [under, underAll_eq] at h
      obtain ⟨ys, hys, rfl⟩ := Encode.map_eq_ok.mp h
      have hxs : ys = xs.map (reinterpret r.element) := eq_map_of_mapM (fun x hx _ => ih x hx) hys
      rw [reinterpret, reinterpretAll_eq, hxs]
    | collection flavor xs =>
      rw [under, underAll_eq] at h
      obtain ⟨ys, hys, rfl⟩ := Encode.map_eq_ok.mp h
      have hxs : ys = xs.map (reinterpret r.element) := eq_map_of_mapM (fun x hx _ => ih x hx) hys
      rw [reinterpret, reinterpretAll_eq, hxs]
    | map flavor es =>
      rw [forall_mem_parts_map] at ih
      rw [under, underEntries_eq] at h
      obtain ⟨ys, hys, rfl⟩ := Encode.map_eq_ok.mp h
      have hentry (e : Value × Value) (he : e ∈ es) (y : Value × Value)
          (hy : (do return (← under l r.key e.1, ← under l r.value e.2)) = .ok y) :
          y = (e.1.reinterpret r.key, e.2.reinterpret r.value) := by
        simp only [Encode.bind_eq_ok, Encode.pure_eq_ok] at hy
        obtain ⟨k, hk, v, hv, rfl⟩ := hy
        rw [(ih e he).1 hk, (ih e he).2 hv]
      rw [reinterpret, reinterpretEntries_eq, eq_map_of_mapM hentry hys]
    | mapEntry key value =>
      simp only [under, Encode.bind_eq_ok, Encode.pure_eq_ok] at h
      obtain ⟨k, hk, v, hv, rfl⟩ := h
      rw [reinterpret, ih key (by simp [parts]) hk, ih value (by simp [parts]) hv]
    | object o =>
      obtain ⟨_, -, h⟩ := Encode.bind_eq_ok.mp h
      cases h
      rfl
    | _ => cases h; rfl

end Value
/-! ## Typed decoding -/

namespace Marshaller

open Value

/-- What a caller gets who asks for something in particular is what it makes of the dynamic value
that the same bytes hold, with the integers unsigned that it asks for as unsigned ones. -/
theorem unmarshal_refines_unmarshalValue (m : Marshaller) (bs : Bytes) :
    (∀ {α : Type} (r : Request) (convert : Value → Except Error α) x rest,
      (m.readAs r convert).runOn bs = .ok (x, rest) →
        ∃ v, (m.read .value).runOn bs = .ok (v, rest) ∧ v.Everywhere Signed ∧
          convert (v.reinterpret r) = .ok x) ∧
    ∀ t x, m.unmarshal t bs = .ok x →
      ∃ v, m.unmarshalValue bs = .ok v ∧ v.Everywhere Signed ∧
        t.ofValue m.payloads (v.reinterpret t.request) = .ok x := by
  have hread {α : Type} (r : Request) (convert : Value → Except Error α) (x : α) (rest : Bytes)
      (h : (m.readAs r convert).runOn bs = .ok (x, rest)) :
      ∃ v, (m.read .value).runOn bs = .ok (v, rest) ∧ v.Everywhere Signed ∧
        convert (v.reinterpret r) = .ok x := by
    obtain ⟨v, w, hv, hw, hx⟩ := readAs_eq_ok_iff.mp h
    have harrived : v.arrived = v := m.yields_arrived_value _ _ _ hv
    have hsigned : v.Everywhere Signed := harrived ▸ v.everywhere_arrived_of signed_arrived
    exact ⟨v, hv, hsigned, eq_reinterpret_of_under hsigned hw ▸ hx⟩
  refine ⟨hread, fun t x h => ?_⟩
  obtain ⟨⟨x, rest⟩, hok, rfl⟩ := Encode.map_eq_ok.mp h
  obtain ⟨v, hv, hsigned, hx⟩ := hread t.request (t.ofValue m.payloads) x rest hok
  exact ⟨v, Encode.map_eq_ok.mpr ⟨(v, rest), hv, rfl⟩, hsigned, hx⟩

/-- A map from unsigned bytes to arrays of unsigned numbers, with a byte after it. -/
theorem unmarshal_refines_unmarshalValue_map :
    let t : HostType := .map false (.int .w8 .unsigned) (.list (.primitive (.int .w16 .unsigned)))
    let bs : Bytes := [25, 1, 0, 0, 0, 1, 1, 0xFF, 13, 2, 0, 0, 0, 0xFF, 0xFF, 1, 0, 9]
    let v : Value := .map .hashMap [(.primitive (.int .w8 .signed) 0xFF,
      .primitiveArray (.int .w16 .signed) [0xFFFF, 1])]
    let m := ofConfig .default .empty
    (m.read t).runOn bs = .ok ([(0xFF, [0xFFFF, 1])], [9]) ∧
      (m.read .value).runOn bs = .ok (v, [9]) ∧ m.unmarshalValue bs = .ok v ∧
      v.Everywhere Signed ∧
      t.ofValue m.payloads (v.reinterpret t.request) = .ok [(0xFF, [0xFFFF, 1])] := by
  intro t bs v m
  have hread : (m.read t).runOn bs = .ok ([(0xFF, [0xFFFF, 1])], [9]) := rfl
  have hunmarshal : m.unmarshal t bs = .ok [(0xFF, [0xFFFF, 1])] := rfl
  have hvalue : (m.read .value).runOn bs = .ok (v, [9]) := rfl
  have hunmarshalValue : m.unmarshalValue bs = .ok v := rfl
  obtain ⟨u, hu, hsigned, -⟩ := (m.unmarshal_refines_unmarshalValue bs).1 _ _ _ _ hread
  obtain ⟨w, hw, -, hx⟩ := (m.unmarshal_refines_unmarshalValue bs).2 t _ hunmarshal
  cases hvalue.symm.trans hu
  cases hunmarshalValue.symm.trans hw
  exact ⟨hread, hvalue, hw, hsigned, hx⟩

end Marshaller

end WireCodec
