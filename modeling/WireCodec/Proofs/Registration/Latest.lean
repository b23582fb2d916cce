import WireCodec.Proofs.Registration.States

/-!
# The latest registration of a type

A marshaller goes from state to state by look-ups and registrations, each of which binds some host
types anew (`Marshaller.Next`). How a type is bound is how its latest registration bound it
(`Marshaller.Latest.binding?_eq`): what else is registered or looked up in between does not matter.
-/

namespace WireCodec

namespace Marshaller

/-- A look-up or an accepted registration takes a marshaller to its next state, and binds these
types anew. -/
inductive Next : Marshaller → List (HostType × Binding) → Marshaller → Prop where
  | publish (m : Marshaller) (t : HostType) : Next m [] (m.publish t)
  | registerEnum {m m' : Marshaller} {name : String} {e : HostEnum}
      (h : m.registerEnum name e = .ok m') :
      Next m [(.enumeration name e, .constant), (.list (.enumeration name e), .constants)] m'
  | registerObject {m m' : Marshaller} {t : HostType} {name : String}
      (h : m.registerObject t name = .ok m') : Next m [(t, .structured name)] m'
  | registerType {m : Marshaller} {types : TypeRegistry} {name : String} {kind : TypeKind}
      {id : Int32} (h : m.types.register name kind = .ok (id, types)) : Next m [] { m with types }

/-- The states of a marshaller in which a type is as its latest registration bound it. -/
inductive Latest (t : HostType) (b : Binding) : Marshaller → Prop where
  | bound {m m' : Marshaller} {bindings : List (HostType × Binding)} (hm : m.Reached)
      (h : m.Next bindings m') (hb : (t, b) ∈ bindings) : Latest t b m'
  | later {m m' : Marshaller} {bindings : List (HostType × Binding)} (hm : Latest t b m)
      (h : m.Next bindings m') (ht : ∀ entry ∈ bindings, entry.1 ≠ t) : Latest t b m'

variable {m m' : Marshaller} {t : HostType} {b : Binding} {bindings : List (HostType × Binding)}

theorem Next.reached (h : m.Next bindings m') (hm : m.Reached) : m'.Reached := by
  cases h with
  | publish t => exact .publish t hm
  | registerEnum h => exact .registerEnum hm h
  | registerObject h => exact .registerObject hm h
  | registerType h => exact .registerType hm h

theorem binding?_install_of_ne {t' : HostType} (hm : m.Coherent) (ht : t ≠ t')
    (h : m.install t b = .ok m') : m'.binding? t' = m.binding? t' := by
  rw [(hm.install h).binding?_eq, hm.binding?_eq]
  obtain ⟨-, rfl⟩ := install_eq_ok.mp h
  rw [build?, build?, Bindings.find?_insert, if_neg ht]

theorem build?_publish (m : Marshaller) (t t' : HostType) :
    (m.publish t).build? t' = m.build? t' := by
  rw [publish]
  split <;> rfl

/-- The types that a step binds are bound so after it. -/
theorem Next.binding?_of_mem (hm : m.Reached) (h : m.Next bindings m') (hb : (t, b) ∈ bindings) :
    m'.binding? t = some b := by
  cases h with
  | publish | registerType => cases hb
  | registerObject h =>
    cases List.mem_singleton.mp hb
    exact binding?_install (registerObject_eq_ok h)
  | registerEnum h =>
    obtain ⟨m₁, hone, hlist⟩ := registerEnum_eq_ok h
    simp only [List.mem_cons, Prod.mk.injEq, List.not_mem_nil, or_false] at hb
    rcases hb with ⟨rfl, rfl⟩ | ⟨rfl, rfl⟩
    · rw [binding?_install_of_ne (hm.coherent.install hone) (by simp) hlist]
      exact binding?_install hone
    · exact binding?_install hlist

/-- A step leaves the types that it does not bind as they are. -/
theorem Next.binding?_of_ne (hm : m.Reached) (h : m.Next bindings m')
    (ht : ∀ entry ∈ bindings, entry.1 ≠ t) : m'.binding? t = m.binding? t := by
  cases h with
  | publish t' =>
    rw [(hm.publish t').binding?_eq, hm.binding?_eq, build?_publish]
  | registerType h => rfl
  | registerObject h =>
    exact binding?_install_of_ne hm.coherent (ht _ (List.mem_singleton_self _))
      (registerObject_eq_ok h)
  | registerEnum h =>
    obtain ⟨m₁, hone, hlist⟩ := registerEnum_eq_ok h
    rw [List.forall_mem_cons, List.forall_mem_singleton] at ht
    exact (binding?_install_of_ne (hm.coherent.install hone) ht.2 hlist).trans
      (binding?_install_of_ne hm.coherent ht.1 hone)

theorem Latest.reached (h : m.Latest t b) : m.Reached := by
  induction h with
  | bound hm h hb => exact h.reached hm
  | later _ h _ ih => exact h.reached ih

/-- A type is bound as its latest registration bound it. -/
theorem Latest.binding?_eq (h : m.Latest t b) : m.binding? t = some b := by
  induction h with
  | bound hm h hb => exact h.binding?_of_mem hm hb
  | later hm h ht ih => exact (h.binding?_of_ne hm.reached ht).trans ih

end Marshaller

end WireCodec
