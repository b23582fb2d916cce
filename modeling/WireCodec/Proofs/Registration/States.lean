import WireCodec.Marshal.Marshaller
import WireCodec.Proofs.Object.Parts

/-!
# States of registries and marshallers

A registry grows by registrations, a marshaller by registrations and look-ups. In every state that
they reach, the zero that announces a name is nobody's id, and a binding that is kept at hand is the
one that a look-up would build anew (`Marshaller.Reached.binding?_eq`).
-/

namespace WireCodec

/-! ## Registries -/

/-- The states of a registry to which names have been registered. -/
inductive TypeRegistry.Reached : TypeRegistry → Prop where
  | empty : Reached .empty
  | register {r r' : TypeRegistry} {name : String} {kind : TypeKind} {id : Int32} (hr : Reached r)
      (h : r.register name kind = .ok (id, r')) : Reached r'

namespace TypeRegistry

variable {r r' : TypeRegistry} {name : String} {kind : TypeKind} {id : Int32}

/-- A registration is accepted under the id of the name, if that is not zero. Either the id is known
by this name and the registry stays as it is, or it is new and gets an entry. -/
theorem register_eq_ok_iff : r.register name kind = .ok (id, r') ↔
    id = TypeName.id name ∧ id ≠ 0 ∧
      ((∃ e, r.find? id = some e ∧ TypeName.same e.name name = true ∧ r' = r) ∨
        r.find? id = none ∧ r' = ⟨r.entries ++ [⟨id, name, kind⟩]⟩) := by
  simp only [register]
  split
  case isTrue hzero =>
    constructor
    · intro h
      cases h
    · intro h
      exact absurd (h.1.trans hzero) h.2.1
  case isFalse hid =>
    split
    case h_1 e he =>
      split <;> grind
    case h_2 hnone => grind

theorem Reached.id_ne_zero (hr : r.Reached) {e : TypeEntry} (he : e ∈ r.entries) : e.id ≠ 0 := by
  induction hr with
  | empty => cases he
  | register hr h ih =>
    obtain ⟨-, hid, ⟨_, _, _, rfl⟩ | ⟨-, rfl⟩⟩ := register_eq_ok_iff.mp h
    · exact ih he
    · obtain he | he := List.mem_append.mp he
      · exact ih he
      · rw [List.mem_singleton.mp he]
        exact hid

theorem idOf?_eq_some (h : r.idOf? name = some id) : id = TypeName.id name ∧
    ∃ e, r.find? id = some e ∧ TypeName.same e.name name := by
  rw [idOf?] at h
  split at h
  case h_1 e he =>
    split at h <;> cases h
    have hid : e.id = TypeName.id name := by simpa using List.find?_some he
    exact ⟨hid, e, hid ▸ he, ‹_›⟩
  case h_2 => cases h

theorem Reached.idOf?_ne_zero (hr : r.Reached) (h : r.idOf? name = some id) : id ≠ 0 := by
  obtain ⟨-, e, he, -⟩ := idOf?_eq_some h
  have hid : e.id = id := by simpa using List.find?_some he
  exact hid ▸ hr.id_ne_zero (List.mem_of_find?_eq_some he)

end TypeRegistry

/-! ## Types as a node sends them -/

section Send

variable {types : TypeRegistry}

theorem EnumConstant.told_send (htypes : types.Reached) (e : HostEnum) (i : e.Constant) :
    (e.send types i).type.Told := by
  rw [HostEnum.send]
  split
  case h_1 id hid => exact ⟨nofun, fun h => htypes.idOf?_ne_zero hid h.1⟩
  case h_2 => exact ⟨fun name hname => Option.mem_some.mp hname ▸ rfl, fun h => nomatch h.2⟩

theorem StructuredObject.told_send (htypes : types.Reached) (name : String) (payload : Bytes) :
    (send types name payload).type.Told := by
  rw [send]
  split
  case h_1 id hid => exact ⟨nofun, fun h => htypes.idOf?_ne_zero hid h.1⟩
  case h_2 => exact ⟨fun name hname => Option.mem_some.mp hname ▸ rfl, fun h => nomatch h.2⟩

theorem StructuredObject.typeId_send (types : TypeRegistry) (name : String) (payload : Bytes) :
    (send types name payload).typeId = TypeName.id name := by
  rw [send]
  split
  case h_1 id hid => exact (TypeRegistry.idOf?_eq_some hid).1
  case h_2 => rfl

theorem StructuredObject.payload_send (types : TypeRegistry) (name : String) (payload : Bytes) :
    (send types name payload).payload = payload := by
  rw [send]
  split <;> rfl

/-- A constant that a node sends is the same constant on the same node. -/
theorem HostEnum.materialize_send {e : HostEnum} {i : e.Constant}
    (h : e.ofOrdinal? (e.ordinal i) = some i) : e.materialize types (e.send types i) = .ok i := by
  have hname : ∃ name, types.nameOf (e.send types i).typeId (e.send types i).name = .ok name ∧
      TypeName.same name e.typeName := by
    rw [send]
    split
    case h_1 id hid =>
      obtain ⟨-, entry, hentry, hsame⟩ := TypeRegistry.idOf?_eq_some hid
      exact ⟨entry.name, by simp [EnumConstant.ofId, TypeRegistry.nameOf, hentry], hsame⟩
    case h_2 => exact ⟨e.typeName, rfl, by simp [TypeName.same]⟩
  have hordinal : (e.send types i).ordinal = e.ordinal i := by
    rw [send]
    split <;> rfl
  obtain ⟨name, hname, hsame⟩ := hname
  simp [materialize, hname, hsame, hordinal, h, bind, Except.bind, pure, Except.pure]

end Send

/-! ## Bindings -/

namespace Bindings

theorem find?_erase (b : Bindings) (t t' : HostType) :
    (b.erase t).find? t' = if t = t' then none else b.find? t' := by
  induction b with
  | nil => simp [erase, find?]
  | cons entry rest ih =>
    rw [erase] at ih ⊢
    by_cases hkey : entry.1 = t
    · rw [List.filter_cons_of_neg (by simp [hkey]), ih, find?, hkey]
      split <;> rfl
    · rw [List.filter_cons_of_pos (by simp [hkey]), find?, ih, find?]
      grind

theorem find?_insert (b : Bindings) (t t' : HostType) (binding : Binding) :
    (b.insert t binding).find? t' = if t = t' then some binding else b.find? t' := by
  rw [insert, find?, find?_erase]
  split <;> rfl

end Bindings

/-! ## Marshallers -/

namespace Marshaller

/-- The states of a marshaller on which types have been registered and looked up. -/
inductive Reached : Marshaller → Prop where
  | ofConfig (config : Config) {types : TypeRegistry} {payloads : PayloadCodec}
      (htypes : types.Reached) : Reached (ofConfig config types payloads)
  | publish {m : Marshaller} (t : HostType) (hm : Reached m) : Reached (m.publish t)
  | registerEnum {m m' : Marshaller} {name : String} {e : HostEnum} (hm : Reached m)
      (h : m.registerEnum name e = .ok m') : Reached m'
  | registerObject {m m' : Marshaller} {t : HostType} {name : String} (hm : Reached m)
      (h : m.registerObject t name = .ok m') : Reached m'
  | registerType {m : Marshaller} {types : TypeRegistry} {name : String} {kind : TypeKind}
      {id : Int32} (hm : Reached m) (h : m.types.register name kind = .ok (id, types)) :
      Reached { m with types }

variable {m m' : Marshaller} {t : HostType} {b : Binding} {name : String}

theorem install_eq_ok : m.install t b = .ok m' ↔ t.fixedTag? = none ∧
    m' = { m with hosts := m.hosts.insert t b, published := m.published.erase t } := by
  rw [install]
  cases t.fixedTag? with
  | none =>
    constructor
    · intro h
      cases h
      exact ⟨rfl, rfl⟩
    · rintro ⟨-, rfl⟩
      rfl
  | some tag => exact ⟨nofun, fun h => nomatch h.1⟩

theorem registerObject_eq_ok (h : m.registerObject t name = .ok m') :
    m.install t (.structured name) = .ok m' :=
  have ⟨_, _, hm'⟩ := Encode.bind_eq_ok.mp h
  hm'

theorem registerEnum_eq_ok {e : HostEnum} (h : m.registerEnum name e = .ok m') :
    ∃ m₁, m.install (.enumeration name e) .constant = .ok m₁ ∧
      m₁.install (.list (.enumeration name e)) .constants = .ok m' :=
  have ⟨_, _, hm'⟩ := Encode.bind_eq_ok.mp h
  Encode.bind_eq_ok.mp hm'

/-- The bindings at hand are those that would be built. -/
def Coherent (m : Marshaller) : Prop := ∀ t b, m.published.find? t = some b → m.build? t = some b

theorem Coherent.binding?_eq (hm : m.Coherent) (t : HostType) : m.binding? t = m.build? t := by
  rw [binding?]
  cases hfind : m.published.find? t with
  | none => rfl
  | some b => exact (hm t b hfind).symm

theorem Coherent.publish (hm : m.Coherent) (t : HostType) : (m.publish t).Coherent := by
  rw [Marshaller.publish]
  split
  case h_1 b hnone hbuild =>
    -- only what was just built is new
    intro t' b' hfind
    change (m.published.insert t b).find? t' = some b' at hfind
    rw [Bindings.find?_insert] at hfind
    split at hfind
    case isTrue heq =>
      subst heq
      exact hbuild.trans hfind
    case isFalse => exact hm t' b' hfind
  case h_2 => exact hm

theorem Coherent.install (hm : m.Coherent) (h : m.install t b = .ok m') : m'.Coherent := by
  obtain ⟨-, rfl⟩ := install_eq_ok.mp h
  -- the type that is bound anew has nothing at hand, and no other type is bound otherwise
  intro t' b' hfind
  rw [Bindings.find?_erase] at hfind
  split at hfind
  case isTrue => cases hfind
  case isFalse hne =>
    have hbuild := hm t' b' hfind
    rw [build?] at hbuild ⊢
    rwa [Bindings.find?_insert, if_neg hne]

theorem Reached.coherent (hm : m.Reached) : m.Coherent := by
  induction hm with
  | ofConfig config htypes => exact nofun
  | publish t hm ih => exact ih.publish t
  | registerEnum hm h ih =>
    obtain ⟨m₁, hone, hlist⟩ := registerEnum_eq_ok h
    exact (ih.install hone).install hlist
  | registerObject hm h ih => exact ih.install (registerObject_eq_ok h)
  | registerType hm h ih => exact ih

theorem types_publish (m : Marshaller) (t : HostType) : (m.publish t).types = m.types := by
  rw [publish]
  split <;> rfl

theorem types_install (h : m.install t b = .ok m') : m'.types = m.types := by
  obtain ⟨-, rfl⟩ := install_eq_ok.mp h
  rfl

theorem Reached.types (hm : m.Reached) : m.types.Reached := by
  induction hm with
  | ofConfig config htypes => exact htypes
  | publish t hm ih => rwa [types_publish]
  | registerEnum hm h ih =>
    obtain ⟨m₁, hone, hlist⟩ := registerEnum_eq_ok h
    rwa [types_install hlist, types_install hone]
  | registerObject hm h ih => rwa [types_install (registerObject_eq_ok h)]
  | registerType hm h ih => exact .register ih h

/-- A look-up finds what it would build. -/
theorem Reached.binding?_eq (hm : m.Reached) (t : HostType) : m.binding? t = m.build? t :=
  hm.coherent.binding?_eq t

theorem Reached.binding?_fixed (hm : m.Reached) {tag : Tag} (ht : t.fixedTag? = some tag) :
    m.binding? t = some (.fixed tag) := by
  rw [hm.binding?_eq, build?, ht]
  rfl

theorem binding?_install (h : m.install t b = .ok m') : m'.binding? t = some b := by
  obtain ⟨hfixed, rfl⟩ := install_eq_ok.mp h
  simp [binding?, build?, Bindings.find?_erase, Bindings.find?_insert, hfixed]

end Marshaller

end WireCodec
