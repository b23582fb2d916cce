import Mathlib.Data.List.Forall2
import WireCodec.Proofs.Registration.Latest
import WireCodec.Proofs.RoundTrip.Typed

/-!
# Constants from one node to another

A node sends a constant of a host enum by the id of its type where its registry knows the type, and
else by name; the node that receives it looks the type up in its own registry. Whatever the two
registries hold, what arrives is the constant that was sent, and asking for it as a constant of the
enum gives that constant or fails (`HostEnum.Arrives`).
-/

namespace WireCodec

namespace HostEnum

variable {e : HostEnum} {i : e.Constant} {sender receiver : TypeRegistry}

/-- What a node makes of a constant that another node sent. A type id that the node does not hold is
unresolved, one that it holds under another name is a mismatch. -/
structure Arrives (e : HostEnum) (i : e.Constant) (sender receiver : Marshaller)
    (c : EnumConstant) : Prop where
  typeId : c.typeId = TypeName.id e.typeName
  /-- the form in which it travelled does not count -/
  same : ∀ types : TypeRegistry, c.same (e.send types i) = true
  byId_iff : c.name = none ↔ (sender.types.idOf? e.typeName).isSome = true
  /-- no other constant comes out of it -/
  exact : ∀ j, receiver.materializeEnum e c = .ok j → j = i
  byName : c.name ≠ none → receiver.materializeEnum e c = .ok i
  known : ∀ entry, receiver.types.find? (TypeName.id e.typeName) = some entry →
    TypeName.same entry.name e.typeName = true → receiver.materializeEnum e c = .ok i
  unknown : c.name = none → receiver.types.find? (TypeName.id e.typeName) = none →
    receiver.materializeEnum e c = .error (.unregisteredId (TypeName.id e.typeName))
  other : c.name = none → ∀ entry,
    receiver.types.find? (TypeName.id e.typeName) = some entry →
    TypeName.same entry.name e.typeName = false →
    receiver.materializeEnum e c = .error (.otherEnum entry.name e.typeName)

theorem typeId_send (types : TypeRegistry) (i : e.Constant) :
    (e.send types i).typeId = TypeName.id e.typeName := by
  rw [send]
  split
  case h_1 id hid => exact (TypeRegistry.idOf?_eq_some hid).1
  case h_2 => rfl

theorem ordinal_send (types : TypeRegistry) (i : e.Constant) :
    (e.send types i).ordinal = e.ordinal i := by
  rw [send]
  split <;> rfl

theorem name_send (types : TypeRegistry) (i : e.Constant) :
    (e.send types i).name = if (types.idOf? e.typeName).isSome then none else some e.typeName := by
  rw [send]
  split
  case h_1 hid => rw [hid]; rfl
  case h_2 hid => rw [hid]; rfl

/-- What a constant is on a node is decided by the name that the node finds for its type. -/
theorem materialize_send_of_name (h : e.ofOrdinal? (e.ordinal i) = some i) {name : String}
    (hname : receiver.nameOf (TypeName.id e.typeName) (e.send sender i).name = .ok name) :
    e.materialize receiver (e.send sender i) =
      if TypeName.same name e.typeName then .ok i else .error (.otherEnum name e.typeName) := by
  cases hsame : TypeName.same name e.typeName <;>
    simp [materialize, typeId_send, ordinal_send, hname, h, hsame, bind, Except.bind, pure,
      Except.pure, throw, throwThe, MonadExceptOf.throw]

theorem materialize_send_of_error {err : Error}
    (hname : receiver.nameOf (TypeName.id e.typeName) (e.send sender i).name = .error err) :
    e.materialize receiver (e.send sender i) = .error err := by
  rw [materialize, typeId_send, hname]
  rfl

/-- A constant that travelled by name is told by its name. -/
theorem materialize_send_byName (h : e.ofOrdinal? (e.ordinal i) = some i)
    (hc : (e.send sender i).name ≠ none) : e.materialize receiver (e.send sender i) = .ok i := by
  have hname : (e.send sender i).name = some e.typeName := by
    rw [name_send] at hc ⊢
    split at hc
    · exact absurd rfl hc
    · rw [if_neg ‹_›]
  have hsent : receiver.nameOf (TypeName.id e.typeName) (e.send sender i).name =
      .ok e.typeName := by rw [hname]; rfl
  rw [materialize_send_of_name h hsent, if_pos (by simp [TypeName.same])]

/-- A constant that travelled by id is told by the name that the receiver has for the id. -/
theorem materialize_send_byId (h : e.ofOrdinal? (e.ordinal i) = some i)
    (hc : (e.send sender i).name = none) {entry : TypeEntry}
    (hentry : receiver.find? (TypeName.id e.typeName) = some entry) :
    e.materialize receiver (e.send sender i) = if TypeName.same entry.name e.typeName then .ok i
      else .error (.otherEnum entry.name e.typeName) :=
  materialize_send_of_name h (by simp only [hc, TypeRegistry.nameOf, hentry])

theorem materialize_send_unknown (hc : (e.send sender i).name = none)
    (hnone : receiver.find? (TypeName.id e.typeName) = none) :
    e.materialize receiver (e.send sender i) =
      .error (.unregisteredId (TypeName.id e.typeName)) :=
  materialize_send_of_error (by simp only [hc, TypeRegistry.nameOf, hnone])

/-- Whatever the receiver knows, no other constant comes out. -/
theorem eq_of_materialize_send (h : e.ofOrdinal? (e.ordinal i) = some i) {j : e.Constant}
    (hj : e.materialize receiver (e.send sender i) = .ok j) : j = i := by
  by_cases hc : (e.send sender i).name = none
  · cases hfind : receiver.find? (TypeName.id e.typeName) with
    | none =>
      rw [materialize_send_unknown hc hfind] at hj
      cases hj
    | some entry =>
      rw [materialize_send_byId h hc hfind] at hj
      split at hj <;> cases hj
      rfl
  · rw [materialize_send_byName h hc] at hj
    cases hj
    rfl

theorem arrives_send (h : e.ofOrdinal? (e.ordinal i) = some i) (m later : Marshaller) :
    e.Arrives i m later (e.send m.types i) where
  typeId := typeId_send m.types i
  same types := by simp [EnumConstant.same, typeId_send, ordinal_send]
  byId_iff := by
    rw [name_send]
    split <;> simp [*]
  exact _ hj := eq_of_materialize_send h hj
  byName hc := materialize_send_byName h hc
  known entry hentry hsame := by
    by_cases hc : (e.send m.types i).name = none
    · exact (materialize_send_byId h hc hentry).trans (if_pos hsame)
    · exact materialize_send_byName h hc
  unknown hc hnone := materialize_send_unknown hc hnone
  other hc entry hentry hother :=
    (materialize_send_byId h hc hentry).trans (if_neg (by rw [hother]; decide))

end HostEnum

namespace Marshaller

/-- The bytes that a node writes for a constant of a registered host enum, or for a list of them,
are read by any other node, for who asks for constants and for who asks for nothing in particular.
What the one that comes out of them is on that node, then or later, is this constant or none. -/
theorem unmarshal_marshal_across {name : String} {e : HostEnum}
    (hordinal : ∀ i, e.ofOrdinal? (e.ordinal i) = some i) (m receiver later : Marshaller) :
    (m.Latest (.enumeration name e) .constant → ∀ i bs,
      m.marshal (.enumeration name e) i = .ok bs →
      ∃ c, receiver.unmarshal (.scalar .constant) bs = .ok c ∧
        receiver.unmarshalValue bs = .ok (.scalar .constant c) ∧
        e.Arrives i m later c) ∧
    (m.Latest (.list (.enumeration name e)) .constants → ∀ is bs,
      is.length ≤ receiver.config.maxArrayLength →
      m.marshal (.list (.enumeration name e)) is = .ok bs →
      ∃ cs, receiver.unmarshal (.list (.scalar .constant)) bs = .ok cs ∧
        receiver.unmarshalValue bs = .ok (.scalarArray .constant (cs.map some)) ∧
        List.Forall₂ (fun i c => e.Arrives i m later c) is cs) := by
  constructor
  · intro hm i bs h
    have hvalue := (receiver.readsIf_read_value (encode_constant hm.binding?_eq h)
      (faithful_constant hm.reached.types i)).1 (Value.within_of_leaf (Nat.zero_le _) rfl)
    exact ⟨_, unmarshal_of_reads (hm.reached.reads_constant hm.binding?_eq h),
      unmarshal_of_reads hvalue, HostEnum.arrives_send (hordinal i) _ _⟩
  · intro hm is bs hlength h
    have hvalue := (receiver.readsIf_read_value (encode_constants hm.binding?_eq h)
      (faithful_constants hm.reached.types is)).1 (within_constants hlength)
    have harrived : (Value.scalarArray .constant ((is.map (e.send m.types)).map some)).arrived =
        .scalarArray .constant ((is.map (e.send m.types)).map some) :=
      congrArg (Value.scalarArray .constant) (List.map_id'' (fun x => by cases x <;> rfl) _)
    rw [harrived] at hvalue
    refine ⟨_, unmarshal_of_reads (hm.reached.reads_constants hm.binding?_eq hlength h),
      unmarshal_of_reads hvalue, ?_⟩
    exact List.forall₂_map_right_iff.mpr (List.forall₂_same.mpr fun i _ =>
      HostEnum.arrives_send (hordinal i) _ _)

/-- A constant and a list of constants from a node that knows their type, on nodes that know it in
other letters, do not know it, and know another type by its id. -/
theorem unmarshal_marshal_across_collision :
    let e : HostEnum := ⟨"Colorz", [("RED", 0), ("GREEN", 7)]⟩
    let color := HostType.enumeration "Color" e
    let known (name : String) : TypeRegistry := ⟨[⟨TypeName.id name, name, .enum⟩]⟩
    let enums := (Bindings.insert [] color .constant).insert (.list color) .constants
    let m : Marshaller := ⟨.default, known "Colorz", enums, [], .compact⟩
    let receiver := ofConfig .default .empty
    let node (name : String) := ofConfig .default (known name)
    let green : e.Constant := ⟨1, by decide⟩
    m.Latest color .constant ∧ m.Latest (.list color) .constants ∧
      (∃ bs c, m.marshal color green = .ok bs ∧ receiver.unmarshal (.scalar .constant) bs = .ok c ∧
        (node "COLORZ").materializeEnum e c = .ok green ∧
        receiver.materializeEnum e c = .error (.unregisteredId (TypeName.id "Colorz")) ∧
        (node "colos[").materializeEnum e c = .error (.otherEnum "colos[" "Colorz")) ∧
      ∃ bs cs, m.marshal (.list color) [green, green] = .ok bs ∧
        receiver.unmarshal (.list (.scalar .constant)) bs = .ok cs ∧
        List.Forall₂ (fun i c => e.Arrives i m (node "COLORZ") c) [green, green] cs := by
  intro e color known enums m receiver node green
  have htypes : TypeRegistry.empty.register "Colorz" .enum =
      .ok (TypeName.id "Colorz", known "Colorz") := rfl
  have hstart : (ofConfig .default (known "Colorz")).Reached :=
    .ofConfig .default (.register .empty htypes)
  have hnext : (ofConfig .default (known "Colorz")).Next
      [(color, .constant), (.list color, .constants)] m :=
    .registerEnum (by subst e; rfl)
  have hone : m.Latest color .constant := .bound hstart hnext (by simp)
  have hlist : m.Latest (.list color) .constants := .bound hstart hnext (by simp)
  have hordinal : ∀ i, e.ofOrdinal? (e.ordinal i) = some i := by decide
  refine ⟨hone, hlist, ?_, ?_⟩
  · obtain ⟨bs, hbs⟩ : ∃ bs, m.marshal color green = .ok bs := by
      rw [marshal_eq_encodeAs (by simp [color]) hone.binding?_eq]
      subst e
      exact ⟨_, rfl⟩
    have hcross (later : Marshaller) :=
      (unmarshal_marshal_across hordinal m receiver later).1 hone green bs hbs
    obtain ⟨c, hc, -, hupper⟩ := hcross (node "COLORZ")
    obtain ⟨c₁, hc₁, -, hempty⟩ := hcross receiver
    obtain ⟨c₂, hc₂, -, hother⟩ := hcross (node "colos[")
    cases hc.symm.trans hc₁
    cases hc.symm.trans hc₂
    have hname : c.name = none := hupper.byId_iff.mpr (by decide)
    exact ⟨bs, c, hbs, hc,
      hupper.known ⟨TypeName.id "COLORZ", "COLORZ", .enum⟩ (by decide) (by decide),
      hempty.unknown hname rfl,
      hother.other hname ⟨TypeName.id "Colorz", "colos[", .enum⟩ (by decide) (by decide)⟩
  · obtain ⟨bs, hbs⟩ : ∃ bs, m.marshal (.list color) [green, green] = .ok bs := by
      rw [marshal_eq_encodeAs (by simp) hlist.binding?_eq]
      subst e
      exact ⟨_, rfl⟩
    obtain ⟨cs, hcs, -, harrive⟩ := (unmarshal_marshal_across hordinal m receiver
      (node "COLORZ")).2 hlist [green, green] bs (by decide) hbs
    exact ⟨bs, cs, hbs, hcs, harrive⟩

end Marshaller

end WireCodec
