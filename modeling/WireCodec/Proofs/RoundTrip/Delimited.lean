import WireCodec.Proofs.Decoding.Objects
import WireCodec.Proofs.RoundTrip.Typed
import WireCodec.Proofs.RoundTrip.Types

/-!
# Values that end where they were written to end

Nothing tells a reader where the bytes of a value end but these bytes themselves. A value that goes
by the id that announces a name can be read as a shorter one, or run on into what follows; but then
it does not come back. What comes back from its own bytes takes all of them, so whatever follows is
left for the next reader (`Marshaller.Reached.reads_of_unmarshal`).
-/

namespace WireCodec

open Decode

/-! ## What the wire tells of values that arrive -/

theorem Scalar.plain_arrived (s : Scalar) (x : s.Val) : s.Plain (s.arrived x) ↔ s.Plain x := by
  cases s <;> rfl

theorem Scalar.faithful_arrived {s : Scalar} {x : s.Val} :
    s.Faithful (s.arrived x) ↔ s.Faithful x := by
  rw [Faithful, Faithful, types_arrived, plain_arrived]

namespace Value

variable {v : Value}

theorem scalars_arrived (v : Value) :
    v.arrived.scalars = v.scalars.map fun x => ⟨x.1, x.1.arrived x.2⟩ := by
  cases v with
  | scalarArray s xs =>
    simp only [arrived, scalars, List.flatMap_map, List.map_flatMap]
    congr 1
    funext x
    cases x <;> rfl
  | _ => rfl

theorem faithful_arrived (v : Value) : v.arrived.Faithful ↔ v.Faithful := by
  rw [Faithful, Faithful, types_arrived, Plain, Plain, scalars_arrived, List.forall_mem_map]
  exact and_congr_left' (forall₂_congr fun x _ => x.1.plain_arrived x.2)

theorem faithful_of_arrived (v : Value) (h : v.arrived.Everywhere Faithful) :
    v.Everywhere Faithful :=
  (everywhere_arrived faithful_arrived v).mp h

theorem faithful_of_scalar {s : Scalar} {x : s.Val} (h : s.Faithful x) :
    (scalar s x).Everywhere Faithful :=
  everywhere_of_leaf (faithful_scalar h) rfl

theorem faithful_text (s : String) : (text s).Everywhere Faithful :=
  faithful_of_scalar ⟨trivial, nofun⟩

theorem faithful_of_parts (hscalars : v.scalars = []) (htypes : v.types = [])
    (hparts : ∀ w ∈ v.parts, w.Everywhere Faithful) : v.Everywhere Faithful :=
  everywhere_iff.mpr ⟨faithful_of_scalars (by simp [*]) (by simp [*]), hparts⟩

/-- The elements of a value are its parts, or numbers and scalars in it. -/
theorem faithful_of_elements {vs : List Value} (hv : v.Everywhere Faithful)
    (hvs : v.elements? = some vs) : ∀ w ∈ vs, w.Everywhere Faithful := by
  intro w hw
  cases v with
  | primitiveArray k xs =>
    cases hvs
    obtain ⟨x, -, rfl⟩ := List.mem_map.mp hw
    exact faithful_of_parts rfl rfl nofun
  | scalarArray s xs =>
    cases hvs
    obtain ⟨x, hx, rfl⟩ := List.mem_map.mp hw
    cases x with
    | none => exact faithful_of_parts rfl rfl nofun
    | some x =>
      have hhere := (everywhere_iff.mp hv).1
      exact faithful_of_scalar (hhere.scalar (mem_scalars_scalarArray hx))
  | objectArray xs | collection flavor xs =>
    cases hvs
    exact (everywhere_iff.mp hv).2 w hw
  | _ => cases hvs

end Value

/-! ## What is made of values that the wire tells all of -/

namespace Target

variable {α β : Type} {d : Target α} {d' : Target β} {P : α → Prop} {Q : β → Prop}

/-- All that a target makes of values that the wire tells all of has a property. -/
def Gives (P : α → Prop) (d : Target α) : Prop :=
  ∀ w x, w.Everywhere Value.Faithful → d.ofValue w = .ok x → P x

theorem Gives.elements (hd : d.Gives P) : (d.elements id).Gives fun xs => ∀ x ∈ xs, P x := by
  intro w xs hw h x hx
  obtain ⟨ws, ys, hws, hys, rfl⟩ := ofValue_elements_eq_ok h
  obtain ⟨u, hu, hx⟩ := exists_of_mem_mapM hys hx
  exact hd u x (Value.faithful_of_elements hw hws u hu) hx

theorem Gives.map {payloads : PayloadCodec} {t : HostType} {P : t.Val → Prop}
    (ht : (t.target payloads).Gives P) (sorted : Bool) (k : KeyKind) :
    ((HostType.map sorted k t).target payloads).Gives fun es => ∀ e ∈ es, P e.2 := by
  intro w es hw h e he
  rw [HostType.target_map] at h
  obtain ⟨flavor, entries, xs, rfl, hxs, rfl⟩ := ofValue_entries_eq_ok h
  obtain ⟨e', he', hsnd⟩ := KeyKind.exists_of_mem_ofEntries he
  obtain ⟨entry, hentry, hmade⟩ := exists_of_mem_mapM hxs he'
  have hparts := Value.forall_mem_parts_map.mp (Value.everywhere_iff.mp hw).2
  rw [← hsnd]
  exact ht _ _ (hparts entry hentry).2 (ofEntry_eq_ok hmade).2

theorem Gives.pair (hd : d.Gives P) (hd' : d'.Gives Q) :
    (d.pair d').Gives fun x => P x.1 ∧ Q x.2 := by
  intro w x hw h
  obtain ⟨y, z, rfl, hy, hz⟩ := ofValue_pair_eq_ok h
  have hparts : y.Everywhere Value.Faithful ∧ z.Everywhere Value.Faithful := by
    simpa [Value.parts] using (Value.everywhere_iff.mp hw).2
  exact ⟨hd y _ hparts.1 hy, hd' z _ hparts.2 hz⟩

end Target

namespace HostType

variable (payloads : PayloadCodec) {t : HostType}

theorem gives_scalar (s : Scalar) : ((scalar s).target payloads).Gives s.Faithful := by
  intro w x hw h
  cases w with
  | scalar s' x' =>
    change (if h : s' = s then _ else _) = _ at h
    split at h
    case isTrue hs =>
      subst hs
      cases h
      exact (Value.everywhere_iff.mp hw).1.scalar (List.mem_singleton_self _)
    case isFalse => cases h
  | _ => cases h

theorem gives_value : (value.target payloads).Gives (Value.Everywhere Value.Faithful) := by
  intro w x hw h
  cases h
  exact hw

theorem gives_object : (object.target payloads).Gives fun o => o.type.Told := by
  intro w o hw h
  cases w with
  | object o' =>
    cases h
    exact (Value.everywhere_iff.mp hw).1.2 _ (List.mem_singleton_self _)
  | _ => cases h

variable {payloads}

theorem gives_list {P : t.Val → Prop} (ht : (t.target payloads).Gives P) :
    ((list t).target payloads).Gives fun xs => ∀ x ∈ xs, P x := by
  rw [target_list]
  exact ht.elements

theorem forall_of_back {α : Type} {f : α → α} {P : α → Prop} {xs ys : List α}
    (hf : ∀ x, P (f x) → P x) (h : xs = ys ∨ xs.map f = ys) (hys : ∀ y ∈ ys, P y) :
    ∀ x ∈ xs, P x := by
  obtain rfl | rfl := h
  · exact hys
  · exact fun x hx => hf x (hys _ (List.mem_map_of_mem hx))

/-- A value of a type with a fixed form is told all of if it comes back, as it was or as it arrives,
from a value that is. -/
theorem Fixed.faithful_of_back (ht : t.Fixed) {x y : t.Val} {v w : Value}
    (hw : w.Everywhere Value.Faithful) (hy : t.ofValue payloads w = .ok y)
    (hback : t.Same x y ∨ t.Same (t.arrived x) y) (hv : t.toValue? x = some v) :
    v.Everywhere Value.Faithful := by
  cases ht with
  | primitive k =>
    cases hv
    exact Value.faithful_of_parts rfl rfl nofun
  | char =>
    obtain ⟨u, -, rfl⟩ := Option.map_eq_some_iff.mp hv
    exact Value.faithful_of_parts rfl rfl nofun
  | scalar s =>
    cases hv
    have hfaithful := gives_scalar payloads s w y hw hy
    refine Value.faithful_of_scalar ?_
    obtain rfl | rfl := hback
    · exact hfaithful
    · exact Scalar.faithful_arrived.mp hfaithful
  | unit =>
    cases hv
    exact Value.faithful_of_parts rfl rfl nofun
  | object =>
    cases hv
    have htold := gives_object payloads w y hw hy
    obtain rfl | rfl := hback <;> exact Value.everywhere_of_leaf (Value.faithful_object htold) rfl
  | primitives k =>
    cases hv
    exact Value.faithful_of_parts rfl rfl nofun
  | chars =>
    obtain ⟨u, -, rfl⟩ := Option.map_eq_some_iff.mp hv
    exact Value.faithful_of_parts rfl rfl nofun
  | scalars s =>
    cases hv
    have hfaithful := forall_of_back (fun _ => Scalar.faithful_arrived.mp) hback
      (gives_list (gives_scalar payloads s) w y hw hy)
    refine Value.everywhere_of_leaf (Value.faithful_scalarArray fun z hz z' hz' => ?_) rfl
    obtain ⟨a, ha, rfl⟩ := List.mem_map.mp hz
    exact Option.mem_some.mp hz' ▸ hfaithful a ha
  | optionalTexts =>
    cases hv
    exact Value.everywhere_of_leaf (Value.faithful_scalarArray fun _ _ _ _ => ⟨trivial, nofun⟩) rfl
  | values | queue =>
    cases hv
    exact Value.faithful_of_parts rfl rfl
      (forall_of_back Value.faithful_of_arrived hback (gives_list (gives_value payloads) w y hw hy))
  | textSet sorted =>
    cases hv
    refine Value.faithful_of_parts rfl rfl fun u hu => ?_
    obtain ⟨s, -, rfl⟩ := List.mem_map.mp hu
    exact Value.faithful_text s
  | textMap sorted =>
    cases hv
    have hfaithful := (gives_value payloads).map sorted .text w y hw hy
    have hentries : ∀ e ∈ x, e.2.Everywhere Value.Faithful := by
      intro e he
      obtain hperm | hperm := hback
      · exact hfaithful e (hperm.mem_iff.mp he)
      · have harrived := hfaithful _ (hperm.mem_iff.mp (List.mem_map_of_mem he))
        exact Value.faithful_of_arrived e.2 harrived
    refine Value.faithful_of_parts rfl rfl (Value.forall_mem_parts_map.mpr fun e he => ?_)
    obtain ⟨d, hd, rfl⟩ := List.mem_map.mp he
    exact ⟨Value.faithful_text d.1,
      hentries d ((KeyKind.perm_iterateEntries .text sorted x).mem_iff.mp hd)⟩
  | pair =>
    cases hv
    have hfaithful := (gives_value payloads).pair (gives_value payloads) w y hw hy
    have hboth : x.1.Everywhere Value.Faithful ∧ x.2.Everywhere Value.Faithful := by
      obtain rfl | rfl := hback
      · exact hfaithful
      · exact hfaithful.imp (Value.faithful_of_arrived _) (Value.faithful_of_arrived _)
    exact Value.faithful_of_parts rfl rfl (by simpa [Value.parts] using hboth)

theorem faithful_of_back (ht : t.Fixed ∨ t = .value) {x y : t.Val} {v w : Value}
    (hw : w.Everywhere Value.Faithful) (hy : t.ofValue payloads w = .ok y)
    (hback : t.Same x y ∨ t.Same (t.arrived x) y) (hv : t.toValue? x = some v) :
    v.Everywhere Value.Faithful := by
  obtain ht | rfl := ht
  · exact ht.faithful_of_back hw hy hback hv
  · cases hv
    cases hy
    obtain rfl | rfl := hback
    · exact hw
    · exact Value.faithful_of_arrived _ hw

/-- A value of a host type comes back: as the same or as it arrives, to who asks for its type; and
as anything to who asks for another type, where the wire tells all of it. Values that travel as
structured objects, and constants of host enums, have no dynamic counterpart to lose anything of. -/
inductive ComesBack : (t : HostType) → t.Val → (u : HostType) → u.Val → Prop
  | same {t : HostType} {x y : t.Val} (h : t.Same x y) : ComesBack t x t y
  | arrived {t : HostType} {x y : t.Val} (h : t.Same (t.arrived x) y) : ComesBack t x t y
  | told {t u : HostType} {x : t.Val} {y : u.Val}
      (h : ∀ v ∈ t.toValue? x, v.Everywhere Value.Faithful) : ComesBack t x u y

end HostType

namespace Marshaller

open HostType (ComesBack)

variable {m m' : Marshaller} {t u : HostType} {bs rest : Bytes} {x : t.Val} {y : u.Val}

/-- What is read of the bytes of a value that the wire tells all of takes all of these bytes. -/
theorem reads_of_readAs {α : Type} {r : Request} {convert : Value → Except Error α} {v : Value}
    {y : α} (h : v.encode = .ok bs) (hv : v.Everywhere Value.Faithful)
    (hread : m.readAs r convert bs = .ok (y, rest)) : Reads (m.readAs r convert) bs y := by
  obtain ⟨w, w', hvalue, hunder, hy⟩ := readAs_eq_ok_iff.mp hread
  obtain ⟨hwithin, hover⟩ := m.readsIf_read_value h hv
  by_cases hlimits : v.Within m.config.maxArrayLength m.config.maxNestingDepth
  · cases hvalue.symm.trans (hwithin hlimits).exact
    exact reads_readAs h hv hlimits hunder hy
  · obtain ⟨e, he, -⟩ := hover hlimits []
    rw [List.append_nil] at he
    cases hvalue.symm.trans he

/-- Whatever was marshalled is the encoding of a dynamic value: of the one that the value counts as,
or else of one that the wire tells all of. -/
theorem Reached.exists_encode (hm : m.Reached) (h : m.marshal t x = .ok bs) :
    ∃ v : Value, v.encode = .ok bs ∧
      ((t.Fixed ∨ t = .value) ∧ t.toValue? x = some v ∨ v.Everywhere Value.Faithful) := by
  by_cases hvalue : t = .value
  · subst hvalue
    exact ⟨x, h, .inl ⟨.inr rfl, rfl⟩⟩
  by_cases hfixed : t.Fixed
  · obtain ⟨v, hv, hencode⟩ := hm.exists_toValue? hfixed h
    exact ⟨v, hencode, .inl ⟨.inl hfixed, hv⟩⟩
  cases hb : m.binding? t with
  | none =>
    rw [marshal, marshalAs_of_ne hvalue, hb] at h
    cases h
  | some b =>
    cases b with
    | fixed tag =>
      have htag : t.fixedTag? = none := by simpa [HostType.fixed_iff] using hfixed
      rw [marshal_eq_encodeAs hvalue hb, encodeAs, HostType.encodeFixed, htag] at h
      cases h
    | constant =>
      have hwritten := (marshal_eq_encodeAs hvalue hb x).symm.trans h
      cases t with
      | enumeration name e =>
        exact ⟨_, encode_constant hb h, .inr (faithful_constant hm.types x)⟩
      | _ => cases hwritten
    | constants =>
      have hwritten := (marshal_eq_encodeAs hvalue hb x).symm.trans h
      cases t with
      | list t =>
        cases t with
        | enumeration name e =>
          exact ⟨_, encode_constants hb h, .inr (faithful_constants hm.types x)⟩
        | _ => cases hwritten
      | _ => cases hwritten
    | structured name =>
      rw [marshal_eq_encodeAs hvalue hb] at h
      simp only [encodeAs, Encode.bind_eq_ok, Encode.pure_eq_ok] at h
      obtain ⟨payload, -, content, hcontent, rfl⟩ := h
      have htold := StructuredObject.told_send hm.types name payload
      exact ⟨.object (StructuredObject.send m.types name payload),
        Encode.map_eq_ok.mpr ⟨content, hcontent, rfl⟩,
        .inr (Value.everywhere_of_leaf (Value.faithful_object htold) rfl)⟩

/-- What comes back from its own bytes takes all of them, whatever follows. -/
theorem Reached.reads_of_unmarshal (hm : m.Reached) (h : m.marshal t x = .ok bs)
    (hback : m'.unmarshal u bs = .ok y) (hsame : ComesBack t x u y) : Reads (m'.read u) bs y := by
  obtain ⟨v, hencode, hv⟩ := hm.exists_encode h
  obtain ⟨⟨y, rest⟩, hread, rfl⟩ := Encode.map_eq_ok.mp hback
  refine reads_of_readAs hencode ?_ hread
  obtain ⟨ht, hv⟩ | hv := hv
  · obtain ⟨w, hw, hy⟩ := readAs_eq_ok_iff_readValue.mp hread
    have hfaithful : w.Everywhere Value.Faithful := fun w' hw' =>
      ((DecodeLimits.yieldsUpTo_read _ _ _ _ _ (Nat.le_refl _) hw).2.1 w' hw').faithful
    cases hsame with
    | same h => exact HostType.faithful_of_back ht hfaithful hy (.inl h) hv
    | arrived h => exact HostType.faithful_of_back ht hfaithful hy (.inr h) hv
    | told h => exact h v hv
  · exact hv

end Marshaller

end WireCodec
