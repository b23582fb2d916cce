import Mathlib.Data.Set.Basic
import WireCodec.Proofs.Decoding.Positions
import WireCodec.Proofs.Decoding.Signs
import WireCodec.Proofs.Registration.Latest

/-!
# Structured objects of the type that was asked for

A type that is registered as a structured object is checked by its id while an object is read, and
its payload is looked into later, when the value that was read is turned into what the caller asked
for. The check is not missed on the way: whatever containers the input has, a value of the type
comes only from an object that was read where the type was asked for.
-/

namespace WireCodec

open Decode

/-! ## Where a target has values of a type -/

namespace Target

variable {α β γ κ : Type} {payloads : PayloadCodec} {d : Target α} {p : HostType} {v w : Value}
  {l : DecodeLimits}

/-- A value of a type that travels as a structured object. -/
def structured (payloads : PayloadCodec) (p : HostType) : Target p.Val :=
  ⟨.exact p, HostType.ofValue.structured payloads p⟩

/-- A target asks for values of a type at some positions, and these are the ones in what it makes.
What is collected from elements or entries holds no others than they do. -/
inductive Holds (payloads : PayloadCodec) (p : HostType) :
    {α : Type} → Target α → (α → Set p.Val) → Prop
  | structured : Holds payloads p (structured payloads p) fun x => {x}
  | none {α : Type} (d : Target α) : Holds payloads p d fun _ => ∅
  | option {α : Type} {d : Target α} {held : α → Set p.Val} (h : Holds payloads p d held) :
    Holds payloads p d.option fun x => {y | ∃ z ∈ x, y ∈ held z}
  | elements {α γ : Type} {d : Target α} {held : α → Set p.Val} (h : Holds payloads p d held)
    (collect : List α → γ) (held' : γ → Set p.Val)
    (hheld : ∀ xs, ∀ y ∈ held' (collect xs), ∃ x ∈ xs, y ∈ held x) :
    Holds payloads p (d.elements collect) held'
  | entries {κ α γ : Type} {k : Target κ} {d : Target α} {heldKey : κ → Set p.Val}
    {held : α → Set p.Val} (hk : Holds payloads p k heldKey) (h : Holds payloads p d held)
    (collect : List (κ × α) → γ) (held' : γ → Set p.Val)
    (hheld : ∀ es, ∀ y ∈ held' (collect es), ∃ e ∈ es, y ∈ heldKey e.1 ∨ y ∈ held e.2) :
    Holds payloads p (k.entries d collect) held'
  | pair {α β : Type} {a : Target α} {b : Target β} {heldA : α → Set p.Val}
    {heldB : β → Set p.Val} (ha : Holds payloads p a heldA) (hb : Holds payloads p b heldB) :
    Holds payloads p (a.pair b) fun x => heldA x.1 ∪ heldB x.2

theorem exists_of_mem_mapM {f : α → Except Error β} {xs : List α} {ys : List β} {y : β}
    (h : xs.mapM f = .ok ys) (hy : y ∈ ys) : ∃ x ∈ xs, f x = .ok y := by
  induction xs generalizing ys with
  | nil =>
    cases h
    cases hy
  | cons x xs ih =>
    rw [List.mapM_cons] at h
    obtain ⟨z, hz, h⟩ := Encode.bind_eq_ok.mp h
    obtain ⟨zs, hzs, h⟩ := Encode.bind_eq_ok.mp h
    cases h
    obtain rfl | hy := List.mem_cons.mp hy
    · exact ⟨x, List.mem_cons_self, hz⟩
    · obtain ⟨x', hx', hy⟩ := ih hzs hy
      exact ⟨x', List.mem_cons_of_mem x hx', hy⟩

theorem ofValue_elements_eq_ok {collect : List α → γ} {y : γ}
    (h : (d.elements collect).ofValue v = .ok y) : ∃ vs xs, v.elements? = some vs ∧
      vs.mapM d.ofValue = .ok xs ∧ y = collect xs := by
  obtain ⟨vs, hvs, h⟩ := Encode.bind_eq_ok.mp h
  obtain ⟨xs, hxs, h⟩ := Encode.bind_eq_ok.mp h
  cases h
  rw [Value.sequence] at hvs
  split at hvs <;> cases hvs
  exact ⟨_, _, ‹_›, hxs, rfl⟩

theorem ofValue_entries_eq_ok {k : Target κ} {collect : List (κ × α) → γ} {y : γ}
    (h : (k.entries d collect).ofValue v = .ok y) : ∃ flavor es xs, v = .map flavor es ∧
      es.mapM (k.ofEntry d) = .ok xs ∧ y = collect xs := by
  obtain ⟨es, hes, h⟩ := Encode.bind_eq_ok.mp h
  obtain ⟨xs, hxs, h⟩ := Encode.bind_eq_ok.mp h
  cases h
  cases v <;> cases hes
  exact ⟨_, _, _, rfl, hxs, rfl⟩

theorem ofEntry_eq_ok {a : Target α} {b : Target β} {e : Value × Value} {x : α × β}
    (h : a.ofEntry b e = .ok x) : a.ofValue e.1 = .ok x.1 ∧ b.ofValue e.2 = .ok x.2 := by
  obtain ⟨y, hy, h⟩ := Encode.bind_eq_ok.mp h
  obtain ⟨z, hz, h⟩ := Encode.bind_eq_ok.mp h
  cases h
  exact ⟨hy, hz⟩

theorem ofValue_pair_eq_ok {a : Target α} {b : Target β} {x : α × β}
    (h : (a.pair b).ofValue v = .ok x) : ∃ y z, v = .mapEntry y z ∧ a.ofValue y = .ok x.1 ∧
      b.ofValue z = .ok x.2 := by
  cases v <;> try cases h
  exact ⟨_, _, rfl, ofEntry_eq_ok h⟩

theorem ofValue_structured_eq_ok {x : p.Val} (h : (structured payloads p).ofValue v = .ok x) :
    ∃ o, v = .object o ∧ p.decodePayload payloads o.payload = .ok x := by
  cases v <;> try cases h
  exact ⟨_, rfl, h⟩

theorem Holds.congr {held held' : α → Set p.Val} (h : d.Holds payloads p held)
    (hheld : ∀ x y, y ∈ held' x ↔ y ∈ held x) : d.Holds payloads p held' :=
  (funext fun x => Set.ext (hheld x) : held' = held) ▸ h

/-- Nothing of the type comes from a number, a scalar or an absent value. -/
theorem Holds.not_mem_of_atomic {held : α → Set p.Val} {x : α} {y : p.Val}
    (h : d.Holds payloads p held) (hv : v.Atomic) (hx : d.ofValue v = .ok x) : y ∉ held x := by
  induction h with
  | structured =>
    obtain ⟨o, rfl, -⟩ := ofValue_structured_eq_ok hx
    cases hv
  | none d => exact Set.notMem_empty y
  | option h ih =>
    rintro ⟨z, hz, hy⟩
    cases hz
    change (if v.isNull then _ else _) = _ at hx
    split at hx
    · cases hx
    · obtain ⟨z, hz, hx⟩ := Encode.map_eq_ok.mp hx
      cases hx
      exact ih hz hy
  | elements h collect held' hheld ih =>
    obtain ⟨vs, xs, hvs, -, -⟩ := ofValue_elements_eq_ok hx
    cases v <;> cases hv <;> cases hvs
  | entries hk h collect held' hheld ihk ih =>
    obtain ⟨flavor, es, xs, rfl, -, -⟩ := ofValue_entries_eq_ok hx
    cases hv
  | pair ha hb iha ihb =>
    obtain ⟨y, z, rfl, -, -⟩ := ofValue_pair_eq_ok hx
    cases hv

end Target

/-! ## Objects that are read for a type -/

namespace DecodeLimits

variable {l : DecodeLimits} {levels : Nat} {r r' : Request} {bs rest : Bytes}
  {payloads : PayloadCodec} {p : HostType} {o : StructuredObject}

/-- While it reads these bytes for a request, a reader comes to a structured object in them where it
is asked for a type. -/
def Meets (l : DecodeLimits) (levels : Nat) (r : Request) (bs : Bytes) (p : HostType)
    (o : StructuredObject) : Prop :=
  ∃ before body rest, bs = before ++ Tag.object.toByte :: body ∧
    l.Comes levels r bs (.exact p) (Tag.object.toByte :: body) ∧
    StructuredObject.decode l.maxLength body = .ok (o, rest)

/-- A value of a type comes from the payload of an object with this type id that is met where the
type is asked for. -/
def Stems (l : DecodeLimits) (levels : Nat) (r : Request) (bs : Bytes) (payloads : PayloadCodec)
    (p : HostType) (typeId : Int32) (y : p.Val) : Prop :=
  ∃ o, l.Meets levels r bs p o ∧ o.typeId = typeId ∧ p.decodePayload payloads o.payload = .ok y

theorem ReadsInside.stems {typeId : Int32} {w : Value} {y : p.Val}
    (h : l.ReadsInside levels r bs r' w)
    (hstems : ∀ levels bs rest, l.read levels r' bs = .ok (w, rest) →
      l.Stems levels r' bs payloads p typeId y) : l.Stems levels r bs payloads p typeId y := by
  obtain ⟨levels', mid, rest, hread, hcomes⟩ := h
  obtain ⟨o, ⟨before, body, rest', hmid, hobject, hdecode⟩, htype, hpayload⟩ :=
    hstems levels' mid rest hread
  obtain ⟨front, hfront⟩ := (hcomes _ _ hobject).suffix
  exact ⟨o, ⟨front, body, rest', hfront.symm, hcomes _ _ hobject, hdecode⟩, htype, hpayload⟩

/-- An object of another type is not read where a type with an id is asked for. -/
theorem Meets.error {typeId : Int32} (h : l.Meets levels r bs p o)
    (hp : l.objectTypeId p = some typeId) (ho : o.typeId ≠ typeId) :
    l.read levels r bs = .error (.otherObject o.typeId typeId) := by
  obtain ⟨before, body, rest, -, hcomes, hdecode⟩ := h
  have hcheck : l.checkObject (.exact p) o = .error (.otherObject o.typeId typeId) := by
    simp only [checkObject, hp, if_neg (Ne.symm ho)]
  refine hcomes.error fun levels => ?_
  cases levels <;> exact readWith_object_error hdecode hcheck

end DecodeLimits

namespace Target

variable {α : Type} {payloads : PayloadCodec} {d : Target α} {p : HostType} {l : DecodeLimits}
  {typeId : Int32}

/-- Every value of a type with an id stems from an object with this id. By induction on the target,
which goes down into the value as the reader went down into the input. -/
theorem Holds.stems {held : α → Set p.Val} (h : d.Holds payloads p held)
    (hp : l.objectTypeId p = some typeId) {levels : Nat} {bs rest : Bytes} {v : Value} {x : α}
    {y : p.Val} (hread : l.read levels d.request bs = .ok (v, rest)) (hx : d.ofValue v = .ok x)
    (hy : y ∈ held x) : l.Stems levels d.request bs payloads p typeId y := by
  induction h generalizing levels bs rest v with
  | structured =>
    obtain ⟨o, rfl, hpayload⟩ := ofValue_structured_eq_ok hx
    obtain rfl : y = x := hy
    obtain ⟨body, rfl, hdecode, hcheck⟩ : ∃ body, bs = Tag.object.toByte :: body ∧
        StructuredObject.decode l.maxLength body = .ok (o, rest) ∧
          l.checkObject (.exact p) o = .ok () := by
      cases levels <;> exact DecodeLimits.readWith_object hread
    have htype : o.typeId = typeId := by
      simp only [DecodeLimits.checkObject, hp] at hcheck
      split at hcheck
      · exact Eq.symm ‹_›
      · cases hcheck
    exact ⟨o, ⟨[], body, rest, rfl, .here .., hdecode⟩, htype, hpayload⟩
  | none d => cases hy
  | option h ih =>
    obtain ⟨z, hz, hy⟩ := hy
    cases hz
    change (if v.isNull then _ else _) = _ at hx
    split at hx
    · cases hx
    · obtain ⟨z, hz, hx⟩ := Encode.map_eq_ok.mp hx
      cases hx
      exact ih hread hz hy
  | elements h collect held' hheld ih =>
    obtain ⟨vs, xs, hvs, hxs, rfl⟩ := ofValue_elements_eq_ok hx
    obtain ⟨z, hz, hy⟩ := hheld xs y hy
    obtain ⟨w, hw, hz⟩ := exists_of_mem_mapM hxs hz
    obtain hatomic | hinside := DecodeLimits.readsInside_element hread hvs hw
    · exact absurd hy (h.not_mem_of_atomic hatomic hz)
    · exact hinside.stems fun _ _ _ hread => ih hread hz hy
  | entries hk h collect held' hheld ihk ih =>
    obtain ⟨flavor, es, xs, rfl, hxs, rfl⟩ := ofValue_entries_eq_ok hx
    obtain ⟨e, he, hy⟩ := hheld xs y hy
    obtain ⟨w, hw, he⟩ := exists_of_mem_mapM hxs he
    obtain ⟨hkey, hvalue⟩ := ofEntry_eq_ok he
    obtain ⟨hinsideKey, hinside⟩ := DecodeLimits.readsInside_map hread hw
    obtain hy | hy := hy
    · exact hinsideKey.stems fun _ _ _ hread => ihk hread hkey hy
    · exact hinside.stems fun _ _ _ hread => ih hread hvalue hy
  | pair ha hb iha ihb =>
    obtain ⟨v, w, rfl, ha, hb⟩ := ofValue_pair_eq_ok hx
    obtain ⟨hinsideKey, hinside⟩ := DecodeLimits.readsInside_mapEntry hread
    obtain hy | hy := hy
    · exact hinsideKey.stems fun _ _ _ hread => iha hread ha hy
    · exact hinside.stems fun _ _ _ hread => ihb hread hb hy

end Target

/-! ## Host types -/

namespace HostType

/-- The values of a type of the host's own in a value of a type, where they travel as structured
objects of their own: not those in the content of another one. -/
def objectsOf (p : HostType) : (t : HostType) → t.Val → List p.Val
  | option t, x => x.toList.flatMap (objectsOf p t)
  | list t, xs => xs.flatMap (objectsOf p t)
  | deque t, xs => xs.flatMap (objectsOf p t)
  | map _ _ t, es => es.flatMap fun e => objectsOf p t e.2
  | pair a b, x => objectsOf p a x.1 ++ objectsOf p b x.2
  | enumeration name e, x => whole (enumeration name e) x
  | record name content, x => whole (record name content) x
  | choice arms, x => whole (choice arms) x
  | _, _ => []
where
  /-- The value itself, if it is of the type. -/
  whole (t : HostType) (x : t.Val) : List p.Val := if h : t = p then [h ▸ x] else []

theorem holds_whole (payloads : PayloadCodec) (p t : HostType) :
    (Target.structured payloads t).Holds payloads p fun x => {y | y ∈ objectsOf.whole p t x} := by
  by_cases h : t = p
  · subst h
    have hwhole (x : t.Val) : objectsOf.whole t t x = [x] := dif_pos rfl
    refine Target.Holds.structured.congr fun x y => ?_
    rw [Set.mem_ofPred_eq, hwhole]
    exact List.mem_singleton
  · exact (Target.Holds.none _).congr fun x y => by simp [objectsOf.whole, h]

end HostType

theorem KeyKind.exists_of_mem_insertEntry {α : Type} {k : KeyKind} {es : List (k.Val × α)}
    {d e : k.Val × α} (h : d ∈ k.insertEntry es e) : ∃ e' ∈ e :: es, e'.2 = d.2 := by
  induction es with
  | nil => exact ⟨d, h, rfl⟩
  | cons e' es ih =>
    rw [insertEntry] at h
    split at h
    · obtain rfl | h := List.mem_cons.mp h
      · exact ⟨e, List.mem_cons_self, rfl⟩
      · exact ⟨d, by simp [h], rfl⟩
    · obtain rfl | h := List.mem_cons.mp h
      · exact ⟨d, by simp, rfl⟩
      · obtain ⟨e', he', hsnd⟩ := ih h
        exact ⟨e', by grind, hsnd⟩

/-- The values of a map are those of the entries that it was made of. -/
theorem KeyKind.exists_of_mem_ofEntries {α : Type} {k : KeyKind} {es : List (k.Val × α)}
    {d : k.Val × α} (h : d ∈ k.ofEntries es) : ∃ e ∈ es, e.2 = d.2 := by
  have hfold (es : List (k.Val × α)) (acc : List (k.Val × α))
      (h : d ∈ es.foldl k.insertEntry acc) : ∃ e ∈ acc ++ es, e.2 = d.2 := by
    induction es generalizing acc with
    | nil => exact ⟨d, by simpa using h, rfl⟩
    | cons e es ih =>
      obtain ⟨e', he', hsnd⟩ := ih _ h
      obtain he' | he' := List.mem_append.mp he'
      · obtain ⟨e'', he'', hsnd'⟩ := exists_of_mem_insertEntry he'
        exact ⟨e'', by grind, hsnd'.trans hsnd⟩
      · exact ⟨e', by simp [he'], hsnd⟩
  exact hfold es [] h

namespace HostType

/-- What a host type is read as holds these values of a type, and no others. -/
theorem holds_target (payloads : PayloadCodec) (p : HostType) : (t : HostType) →
    (t.target payloads).Holds payloads p fun x => {y | y ∈ objectsOf p t x}
  | option t =>
    (holds_target payloads p t).option.congr fun x y => by simp [objectsOf]
  | list t => by
    rw [target_list]
    exact (holds_target payloads p t).elements id _ fun xs y hy => List.mem_flatMap.mp hy
  | deque t => by
    rw [target_deque]
    exact (holds_target payloads p t).elements id _ fun xs y hy => List.mem_flatMap.mp hy
  | map sorted k t => by
    rw [target_map]
    refine (Target.Holds.none k.target).entries (holds_target payloads p t) k.ofEntries _
      fun es y hy => ?_
    obtain ⟨d, hd, hy⟩ := List.mem_flatMap.mp hy
    obtain ⟨e, he, hsnd⟩ := KeyKind.exists_of_mem_ofEntries hd
    exact ⟨e, he, .inr (hsnd ▸ hy)⟩
  | pair a b =>
    ((holds_target payloads p a).pair (holds_target payloads p b)).congr fun x y => by
      simp [objectsOf]
  | enumeration name e => holds_whole payloads p (enumeration name e)
  | record name content => holds_whole payloads p (record name content)
  | choice arms => holds_whole payloads p (choice arms)
  | primitive _ | char | scalar _ | unit | value | object | set _ _ =>
    (Target.Holds.none _).congr fun x y => by simp [objectsOf]

end HostType

/-! ## What is read for a type -/

namespace Marshaller

variable {m : Marshaller} {p : HostType} {name : String}

theorem Latest.objectTypeId (h : m.Latest p (.structured name)) :
    m.limits.objectTypeId p = some (TypeName.id name) := by
  change (m.binding? p).bind Binding.objectTypeId = _
  rw [h.binding?_eq]
  rfl

theorem readAs_error {α : Type} {r : Request} {convert : Value → Except Error α} {bs : Bytes}
    {e : Error} (h : m.limits.read m.limits.maxDepth r bs = .error e) :
    m.readAs r convert bs = .error e :=
  bind_error h

theorem stems_of_readFor {α : Type} {d : Target α} {held : α → Set p.Val} {typeId : Int32}
    {bs rest : Bytes} {x : α} {y : p.Val} (h : d.Holds m.payloads p held)
    (hp : m.limits.objectTypeId p = some typeId)
    (hx : m.readFor d bs = .ok (x, rest)) (hy : y ∈ held x) :
    m.limits.Stems m.limits.maxDepth d.request bs m.payloads p typeId y := by
  obtain ⟨v, hv, hx⟩ := readAs_eq_ok_iff_readValue.mp hx
  exact h.stems hp hv hx hy

/-- A value of a type that travels as a structured object, wherever in what was read, comes from an
object of this type, which was read where the type was asked for; and once an object of another
type is read there, all fails. -/
theorem objects_of_exact_type (hm : m.Latest p (.structured name)) :
    (∀ (α : Type) (d : Target α) (held : α → Set p.Val), d.Holds m.payloads p held → ∀ bs x rest,
      (m.readFor d).runOn bs = .ok (x, rest) → ∀ y ∈ held x,
        m.limits.Stems m.limits.maxDepth d.request bs m.payloads p (TypeName.id name) y) ∧
    (∀ t bs x, m.unmarshal t bs = .ok x → ∀ y ∈ p.objectsOf t x,
      m.limits.Stems m.limits.maxDepth t.request bs m.payloads p (TypeName.id name) y) ∧
    ∀ o, o.typeId ≠ TypeName.id name →
      (∀ (α : Type) (d : Target α) bs, m.limits.Meets m.limits.maxDepth d.request bs p o →
        (m.readFor d).runOn bs = .error (.otherObject o.typeId (TypeName.id name))) ∧
      ∀ t bs, m.limits.Meets m.limits.maxDepth t.request bs p o →
        m.unmarshal t bs = .error (.otherObject o.typeId (TypeName.id name)) := by
  have hp := hm.objectTypeId
  refine ⟨fun α d held h bs x rest hx y hy => stems_of_readFor h hp hx hy, fun t bs x hx y hy => ?_,
    fun o ho => ⟨fun α d bs h => readAs_error (h.error hp ho), fun t bs h => ?_⟩⟩
  · obtain ⟨⟨_, rest⟩, hread, rfl⟩ := Encode.map_eq_ok.mp hx
    exact stems_of_readFor (HostType.holds_target m.payloads p t) hp hread hy
  · rw [unmarshal, read, runOn, StateT.run, readAs_error (h.error hp ho)]
    rfl

/-- A map from texts to lists in which a number of the host's own type is absent or there, with an
object of the type and with one of another type. -/
theorem objects_of_exact_type_map :
    let p : HostType := .record "Point" (.primitive (.int .w32 .signed))
    let t : HostType := .map false .text (.list (.option p))
    let m : Marshaller := ⟨.default, .empty, [(p, .structured "A")], [], .compact⟩
    let bs (id : UInt8) : Bytes := [25, 1, 0, 0, 0, 1, 9, 1, 0, 0, 0, 107, 23, 2, 0, 0, 0, 101,
      103, 0, id, 0, 0, 0, 4, 0, 0, 0, 7, 0, 0, 0]
    m.Latest p (.structured "A") ∧ m.unmarshal t (bs 97) = .ok [("k", [none, some 7])] ∧
      m.limits.Stems m.limits.maxDepth t.request (bs 97) m.payloads p 97 (7 : BitVec 32) ∧
      m.unmarshal t (bs 98) = .error (.otherObject 98 97) ∧
      (Error.otherObject 98 97).kind = .typeMismatch := by
  intro p t m bs
  have hregister : (ofConfig .default .empty).registerObject p "A" = .ok m := rfl
  have hm : m.Latest p (.structured "A") :=
    .bound (.ofConfig .default .empty) (.registerObject hregister) (List.mem_singleton_self _)
  obtain ⟨-, hstems, herror⟩ := objects_of_exact_type hm
  have hok : m.unmarshal t (bs 97) = .ok [("k", [none, some 7])] := rfl
  have hmeets : m.limits.Meets m.limits.maxDepth t.request (bs 98) p (.ofId 98 [7, 0, 0, 0]) := by
    refine ⟨(bs 98).take 18, _, [], rfl, ?_, rfl⟩
    -- the value of the only entry, and in it the second element
    refine .inside (.value (k := 0) (.map rfl rfl rfl) Nat.one_pos rfl rfl) ?_
    exact .inside (.element (k := 1) (.array rfl) Nat.one_lt_two rfl) (.here ..)
  have hheld : (7 : BitVec 32) ∈ p.objectsOf t [("k", [none, some 7])] :=
    List.mem_singleton_self (7 : BitVec 32)
  exact ⟨hm, hok, hstems t _ _ hok _ hheld, (herror _ (by decide)).2 t _ hmeets, rfl⟩

end Marshaller

end WireCodec
