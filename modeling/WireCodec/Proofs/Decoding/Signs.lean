import Mathlib.Logic.Relation
import WireCodec.Proofs.Decoding.Targets
import WireCodec.Proofs.RoundTrip.Typed

/-!
# Signs of integers

The wire does not carry the sign of an integer: both signs of a width are read from the same bytes
as the same bits, and written from the same bits as the same bytes. This holds of integers at any
depth, whether the signs are told by a target, by a host type, or by a dynamic value.
-/

namespace WireCodec

open Decode

/-! ## Targets -/

namespace Target

variable {α β γ κ : Type} {d d' : Target α}

/-- Two targets differ in the signs of integers only. -/
inductive Twin : {α : Type} → Target α → Target α → Prop
  | refl {α : Type} (d : Target α) : Twin d d
  | integer (w : Width) (s s' : Sign) : Twin (integer w s) (integer w s')
  | option {α : Type} {d d' : Target α} : Twin d d' → Twin d.option d'.option
  | elements {α γ : Type} {d d' : Target α} (collect : List α → γ) :
    Twin d d' → Twin (d.elements collect) (d'.elements collect)
  | entries {κ α γ : Type} {k k' : Target κ} {d d' : Target α} (collect : List (κ × α) → γ) :
    Twin k k' → Twin d d' → Twin (k.entries d collect) (k'.entries d' collect)
  | pair {α β : Type} {a a' : Target α} {b b' : Target β} :
    Twin a a' → Twin b b' → Twin (a.pair b) (a'.pair b')

theorem Twin.isOk_primitive (h : Twin d d') (f : Form) :
    (d.request.primitive f).isOk = (d'.request.primitive f).isOk := by
  induction h with
  | refl => rfl
  | integer w s s' =>
    cases f with
    | int w' =>
      by_cases hw : w' = w
      · simp [Target.integer, Request.primitive, Request.sign?, hw]
        rfl
      · simp [Target.integer, Request.primitive, Request.sign?, hw]
    | _ => rfl
  | option _ ih => exact ih
  | _ => cases f <;> rfl

/-- Both targets make the same bits of a value. -/
theorem Twin.of?_eq (h : Twin d d') (l : DecodeLimits) (v : Value) : d.of? l v = d'.of? l v := by
  induction h generalizing v with
  | refl => rfl
  | integer w s s' => rw [of?_integer, of?_integer]
  | option _ ih => rw [of?_option, of?_option, ih]
  | @elements α γ d d' collect h ih =>
    have hadmits : d.admits v = d'.admits v := by
      cases v with
      | primitiveArray k xs => exact h.isOk_primitive k.form
      | _ => rfl
    rw [of?_elements, of?_elements, hadmits, funext ih]
  | @entries κ α γ k k' d d' collect _ _ ihk ih =>
    have hboth : both? l k d = both? l k' d' :=
      funext fun e => by simp only [both?, ihk, ih]
    rw [of?_entries, of?_entries, hboth]
  | pair _ _ iha ihb =>
    simp only [of?_pair, both?, iha, ihb]

/-- Two targets for values of types with the same bits differ in the signs of integers only. -/
def Alike (d : Target α) (d' : Target β) : Prop := ∃ h : α = β, Twin (h ▸ d) d'

theorem Twin.alike (h : Twin d d') : Alike d d' := ⟨rfl, h⟩

namespace Alike

variable {d : Target α} {d' : Target β}

theorem option : Alike d d' → Alike d.option d'.option := by
  rintro ⟨rfl, h⟩
  exact h.option.alike

theorem list : Alike d d' → Alike (d.elements id) (d'.elements id) := by
  rintro ⟨rfl, h⟩
  exact (h.elements id).alike

theorem entries {k k' : Target κ} (hk : Twin k k')
    (collect : (α : Type) → List (κ × α) → List (κ × α)) :
    Alike d d' → Alike (k.entries d (collect α)) (k'.entries d' (collect β)) := by
  rintro ⟨rfl, h⟩
  exact (hk.entries (collect α) h).alike

theorem pair {b : Target γ} {b' : Target κ} :
    Alike d d' → Alike b b' → Alike (d.pair b) (d'.pair b') := by
  rintro ⟨rfl, h⟩ ⟨rfl, hb⟩
  exact (h.pair hb).alike

end Alike

end Target

/-! ## Host types -/

/-- Two kinds of keys differ in the sign of integers only. -/
inductive KeyKind.Twin : KeyKind → KeyKind → Prop
  | refl (k : KeyKind) : Twin k k
  | int (w : Width) (s s' : Sign) : Twin (int w s) (int w s')

theorem KeyKind.ofEntries_int {α : Type} (w : Width) (s s' : Sign) :
    ofEntries (α := α) (int w s) = ofEntries (int w s') := by
  have hinsert (es : List (w.Word × α)) (e : w.Word × α) :
      insertEntry (int w s) es e = insertEntry (int w s') es e := by
    induction es with
    | nil => rfl
    | cons d es ih =>
      rw [insertEntry, insertEntry, ih]
      rfl
  funext es
  rw [ofEntries, ofEntries, funext fun es => funext (hinsert es)]

/-- Two host types differ in the signs of integers only. -/
inductive HostType.Twin : HostType → HostType → Prop
  | refl (t : HostType) : Twin t t
  | integer (w : Width) (s s' : Sign) : Twin (primitive (.int w s)) (primitive (.int w s'))
  | option {t t' : HostType} : Twin t t' → Twin (option t) (option t')
  | list {t t' : HostType} : Twin t t' → Twin (list t) (list t')
  | deque {t t' : HostType} : Twin t t' → Twin (deque t) (deque t')
  | set (sorted : Bool) {k k' : KeyKind} : k.Twin k' → Twin (set sorted k) (set sorted k')
  | map (sorted : Bool) {k k' : KeyKind} {t t' : HostType} :
    k.Twin k' → Twin t t' → Twin (map sorted k t) (map sorted k' t')
  | pair {a a' b b' : HostType} : Twin a a' → Twin b b' → Twin (pair a b) (pair a' b')

theorem HostType.Twin.alike (payloads : PayloadCodec) {t t' : HostType} (h : t.Twin t') :
    (t.target payloads).Alike (t'.target payloads) := by
  induction h with
  | refl => exact (Target.Twin.refl _).alike
  | integer w s s' => exact (Target.Twin.integer w s s').alike
  | option _ ih => exact ih.option
  | list _ ih =>
    rw [target_list, target_list]
    exact ih.list
  | deque _ ih =>
    rw [target_deque, target_deque]
    exact ih.list
  | set sorted hk =>
    cases hk with
    | refl => exact (Target.Twin.refl _).alike
    | int w s s' => exact ((Target.Twin.integer w s s').elements _).alike
  | @map sorted k k' t t' hk _ ih =>
    cases hk with
    | refl => exact ih.entries (.refl k.target) fun _ => k.ofEntries
    | int w s s' =>
      rw [target_map, target_map, KeyKind.ofEntries_int w s s']
      exact ih.entries (.integer w s s') fun _ => (KeyKind.int w s').ofEntries
  | pair _ _ iha ihb => exact iha.pair ihb

/-! ## Reading -/

namespace Marshaller

variable {α : Type} {m : Marshaller} {d : Target α} {bs rest : Bytes} {x : α}

/-- Reads a value for a target. -/
def readFor (m : Marshaller) (d : Target α) : Decode α := m.readAs d.request d.ofValue

theorem readFor_eq_ok_iff : m.readFor d bs = .ok (x, rest) ↔
    ∃ v, m.read .value bs = .ok (v, rest) ∧ d.of? m.limits v = some x := by
  rw [readFor, readAs_eq_ok_iff]
  simp only [Target.of?, toOption_eq_some_iff, Encode.bind_eq_ok]
  constructor
  · rintro ⟨v, w, hv, hw, hx⟩
    exact ⟨v, hv, w, hw, hx⟩
  · rintro ⟨v, hv, w, hw, hx⟩
    exact ⟨v, w, hv, hw, hx⟩

end Marshaller

/-! ## Writing -/

namespace Value

/-- A value with one integer, or one array of integers, somewhere in it under another sign. -/
inductive Resigned : Value → Value → Prop
  | primitive (w : Width) (s s' : Sign) (x : w.Word) :
    Resigned (primitive (.int w s) x) (primitive (.int w s') x)
  | primitiveArray (w : Width) (s s' : Sign) (xs : List w.Word) :
    Resigned (primitiveArray (.int w s) xs) (primitiveArray (.int w s') xs)
  | objectArray (xs ys : List Value) {v v' : Value} :
    Resigned v v' → Resigned (objectArray (xs ++ v :: ys)) (objectArray (xs ++ v' :: ys))
  | collection (flavor : CollectionFlavor) (xs ys : List Value) {v v' : Value} :
    Resigned v v' →
      Resigned (collection flavor (xs ++ v :: ys)) (collection flavor (xs ++ v' :: ys))
  | mapKey (flavor : MapFlavor) (xs ys : List (Value × Value)) {k k' : Value} (v : Value) :
    Resigned k k' → Resigned (map flavor (xs ++ (k, v) :: ys)) (map flavor (xs ++ (k', v) :: ys))
  | mapValue (flavor : MapFlavor) (xs ys : List (Value × Value)) (k : Value) {v v' : Value} :
    Resigned v v' → Resigned (map flavor (xs ++ (k, v) :: ys)) (map flavor (xs ++ (k, v') :: ys))
  | key {k k' : Value} (v : Value) : Resigned k k' → Resigned (mapEntry k v) (mapEntry k' v)
  | value (k : Value) {v v' : Value} : Resigned v v' → Resigned (mapEntry k v) (mapEntry k v')

theorem each_congr_at {α : Type} {f : α → Except Error Bytes} {x y : α} (h : f x = f y)
    (xs ys : List α) : Encode.each f (xs ++ x :: ys) = Encode.each f (xs ++ y :: ys) := by
  induction xs with
  | nil => rw [List.nil_append, List.nil_append, Encode.each, Encode.each, h]
  | cons z xs ih => rw [List.cons_append, List.cons_append, Encode.each, Encode.each, ih]

theorem Resigned.encode_eq {v w : Value} (h : v.Resigned w) : v.encode = w.encode := by
  induction h with
  | primitive w s s' x => rfl
  | primitiveArray w s s' xs => rfl
  | objectArray xs ys _ ih | collection flavor xs ys _ ih =>
    have hbody := each_congr_at ih xs ys
    simp only [encode, encodes_eq, hbody, List.length_append, List.length_cons]
  | @mapKey flavor xs ys k k' v _ ih =>
    have hentry : encodeEntry (k, v) = encodeEntry (k', v) := by rw [encodeEntry, ih]; rfl
    have hbody := each_congr_at hentry xs ys
    simp only [encode, encodeEntries_eq, hbody, List.length_append, List.length_cons]
  | @mapValue flavor xs ys k v v' _ ih =>
    have hentry : encodeEntry (k, v) = encodeEntry (k, v') := by rw [encodeEntry, ih]; rfl
    have hbody := each_congr_at hentry xs ys
    simp only [encode, encodeEntries_eq, hbody, List.length_append, List.length_cons]
  | key v _ ih => rw [encode, encode, ih]
  | value k _ ih => rw [encode, encode, ih]

end Value

/-! ## Both signs -/

namespace Marshaller

variable {α : Type} {m : Marshaller} {d d' : Target α} {t t' : HostType} {bs rest : Bytes}

theorem readFor_iff_of_twin (h : d.Twin d') {x : α} :
    m.readFor d bs = .ok (x, rest) ↔ m.readFor d' bs = .ok (x, rest) := by
  rw [readFor_eq_ok_iff, readFor_eq_ok_iff, funext (h.of?_eq m.limits)]

theorem readFor_iff_of_alike {β : Type} {e : Target β} (h : d.Alike e) {y : β} :
    m.readFor e bs = .ok (y, rest) ↔ ∃ x, m.readFor d bs = .ok (x, rest) ∧ HEq x y := by
  obtain ⟨rfl, h⟩ := h
  rw [← readFor_iff_of_twin h]
  simp

theorem read_iff_of_twin (h : t.Twin t') {y : t'.Val} :
    m.read t' bs = .ok (y, rest) ↔ ∃ x, m.read t bs = .ok (x, rest) ∧ HEq x y :=
  readFor_iff_of_alike (h.alike m.payloads)

theorem unmarshal_iff_of_twin (h : t.Twin t') {y : t'.Val} :
    m.unmarshal t' bs = .ok y ↔ ∃ x, m.unmarshal t bs = .ok x ∧ HEq x y := by
  have hunmarshal (t : HostType) (x : t.Val) :
      m.unmarshal t bs = .ok x ↔ ∃ rest, m.read t bs = .ok (x, rest) := by
    rw [unmarshal, Encode.map_eq_ok]
    simp [runOn, StateT.run]
  simp only [hunmarshal, read_iff_of_twin h]
  constructor
  · rintro ⟨rest, x, hx, hy⟩
    exact ⟨x, ⟨rest, hx⟩, hy⟩
  · rintro ⟨x, ⟨rest, hx⟩, hy⟩
    exact ⟨rest, x, hx, hy⟩

theorem Reached.marshal_integers (hm : m.Reached) (w : Width) (s s' : Sign) (xs : List w.Word) :
    m.marshal (.list (.primitive (.int w s))) xs = m.marshal (.list (.primitive (.int w s'))) xs := by
  have hmarshal (s : Sign) : m.marshal (.list (.primitive (.int w s))) xs =
      m.encodeAs (.fixed (.array (.int w))) (.list (.primitive (.int w s))) xs :=
    marshal_eq_encodeAs (t := .list (.primitive (.int w s))) (by simp) (hm.binding?_fixed rfl) xs
  rw [hmarshal s, hmarshal s']
  rfl

/-- What two targets, or two host types, that differ in the signs of integers read from any bytes
is the same bits, or nothing for both, and leaves the same bytes; and integers that change their
signs, but not their bits, are written as the same bytes. -/
theorem sign_duality (m : Marshaller) :
    (∀ (α : Type) (d d' : Target α), d.Twin d' → ∀ bs x rest,
      (m.readFor d).runOn bs = .ok (x, rest) ↔ (m.readFor d').runOn bs = .ok (x, rest)) ∧
    (∀ t t' : HostType, t.Twin t' → ∀ bs y,
      (∀ rest, (m.read t').runOn bs = .ok (y, rest) ↔
        ∃ x, (m.read t).runOn bs = .ok (x, rest) ∧ HEq x y) ∧
      (m.unmarshal t' bs = .ok y ↔ ∃ x, m.unmarshal t bs = .ok x ∧ HEq x y)) ∧
    (∀ v w, Relation.ReflTransGen Value.Resigned v w → m.marshalValue v = m.marshalValue w) ∧
    (m.Reached → ∀ (w : Width) (s s' : Sign) (xs : List w.Word),
      m.marshal (.list (.primitive (.int w s))) xs =
        m.marshal (.list (.primitive (.int w s'))) xs) := by
  refine ⟨fun α d d' h bs x rest => readFor_iff_of_twin h,
    fun t t' h bs y => ⟨fun rest => read_iff_of_twin h, unmarshal_iff_of_twin h⟩,
    fun v w h => ?_, Reached.marshal_integers⟩
  induction h with
  | refl => rfl
  | tail _ h ih => exact ih.trans h.encode_eq

/-- Sets of optional numbers, maps from bytes to arrays of numbers, a number in an entry of a map in
a collection, and an array of numbers. -/
theorem sign_duality_collections :
    let d (s : Sign) := (Target.integer .w16 s).option.elements List.eraseDups
    let ds : Bytes := [24, 3, 0, 0, 0, 3, 2, 0xFF, 0xFF, 101, 2, 0xFF, 0xFF, 9]
    let t (s : Sign) : HostType := .map false (.int .w8 s) (.list (.primitive (.int .w16 s)))
    let ts : Bytes := [25, 1, 0, 0, 0, 1, 1, 0xFF, 13, 2, 0, 0, 0, 0xFF, 0xFF, 1, 0]
    let v (s : Sign) : Value := .collection .arrayList [.null,
      .map .hashMap [(.text "k", .primitive (.int .w32 s) 0xFFFFFFFF)], .null]
    let m := ofConfig .default .empty
    (m.readFor (d .signed)).runOn ds = .ok ([some 0xFFFF, none], [9]) ∧
      (m.readFor (d .unsigned)).runOn ds = .ok ([some 0xFFFF, none], [9]) ∧
      m.unmarshal (t .signed) ts = .ok [(0xFF, [0xFFFF, 1])] ∧
      m.unmarshal (t .unsigned) ts = .ok [(0xFF, [0xFFFF, 1])] ∧
      m.marshalValue (v .unsigned) = m.marshalValue (v .signed) ∧
      m.marshal (.list (.primitive (.int .w16 .signed))) [0xFFFF, 1] =
        m.marshal (.list (.primitive (.int .w16 .unsigned))) [0xFFFF, 1] := by
  intro d ds t ts v m
  obtain ⟨htarget, hhost, hvalue, hlist⟩ := m.sign_duality
  have hd : (d .signed).Twin (d .unsigned) := .elements _ (.option (.integer .w16 .signed .unsigned))
  have hds : (m.readFor (d .signed)).runOn ds = .ok ([some 0xFFFF, none], [9]) := rfl
  have ht : (t .signed).Twin (t .unsigned) :=
    .map false (.int .w8 .signed .unsigned) (.list (.integer .w16 .signed .unsigned))
  have hts : m.unmarshal (t .signed) ts = .ok [(0xFF, [0xFFFF, 1])] := rfl
  have hv : (v .unsigned).Resigned (v .signed) :=
    .collection .arrayList [.null] [.null] (.mapValue .hashMap [] [] (.text "k")
      (.primitive .w32 .unsigned .signed 0xFFFFFFFF))
  exact ⟨hds, (htarget _ _ _ hd ds _ _).mp hds, hts,
    (hhost _ _ ht ts _).2.mpr ⟨_, hts, .rfl⟩, hvalue _ _ (.single hv),
    hlist (.ofConfig .default .empty) .w16 .signed .unsigned [0xFFFF, 1]⟩

end Marshaller

end WireCodec
