import WireCodec.Marshal.Marshaller
import WireCodec.Proofs.Decoding.Steps
import WireCodec.Proofs.Object.Parts

/-!
# What a request changes

A reader that is asked for something in particular reads what it would read for nothing in
particular, with the integers turned into the signs that the request chooses, or else it fails
(`DecodeLimits.refines_read`). `Value.under` says what a request turns a value into.
-/

namespace WireCodec

namespace Decode

variable {α β γ δ ε ζ : Type} {d : Decode α} {d' : Decode β} {e : Decode γ} {e' : Decode δ}
  {g : α → Except Error β} {h : γ → Except Error δ} {k : ε → Except Error ζ}

/-- A decoder reads what another one reads, turned into something else, where that is possible. -/
def Refines (g : α → Except Error β) (d' : Decode β) (d : Decode α) : Prop :=
  ∀ bs y rest, d' bs = .ok (y, rest) ↔ ∃ x, d bs = .ok (x, rest) ∧ g x = .ok y

namespace Refines

theorem reads {bs : Bytes} {x : α} {y : β} (hd : Refines g d' d) (hx : Reads d bs x)
    (hg : g x = .ok y) : Reads d' bs y :=
  fun more => (hd _ _ _).mpr ⟨x, hx more, hg⟩

theorem pure {x : α} {y : β} (hg : g x = .ok y) : Refines g (Pure.pure y) (Pure.pure x) := by
  intro bs z rest
  constructor
  · intro hz
    cases hz
    exact ⟨x, rfl, hg⟩
  · rintro ⟨x', hx', hz⟩
    cases hx'
    cases hg.symm.trans hz
    rfl

theorem error (err : Error) : Refines g (throw err) (throw err) := by
  intro bs y rest
  exact ⟨nofun, nofun⟩

theorem after {f' : γ → Decode β} {f : γ → Decode α} (hf : ∀ a, Refines g (f' a) (f a)) :
    Refines g (e >>= f') (e >>= f) := by
  intro bs y rest
  simp only [bind_eq_ok_iff]
  constructor
  · rintro ⟨a, mid, ha, hy⟩
    obtain ⟨x, hx, hg⟩ := (hf a _ _ _).mp hy
    exact ⟨x, ⟨a, mid, ha, hx⟩, hg⟩
  · rintro ⟨x, ⟨a, mid, ha, hx⟩, hg⟩
    exact ⟨a, mid, ha, (hf a _ _ _).mpr ⟨x, hx, hg⟩⟩

theorem map {c : α → ε} {c' : β → ζ} (hd : Refines g d' d) (hc : ∀ x, k (c x) = c' <$> g x) :
    Refines k (d' >>= fun y => Pure.pure (c' y)) (d >>= fun x => Pure.pure (c x)) := by
  intro bs z rest
  simp only [bind_eq_ok_iff, pure_eq_ok_iff]
  constructor
  · rintro ⟨y, mid, hy, rfl, rfl⟩
    obtain ⟨x, hx, hg⟩ := (hd _ _ _).mp hy
    exact ⟨c x, ⟨x, mid, hx, rfl, rfl⟩, by rw [hc, hg]; rfl⟩
  · rintro ⟨w, ⟨x, mid, hx, rfl, rfl⟩, hk⟩
    obtain ⟨y, hg, rfl⟩ := Encode.map_eq_ok.mp ((hc x).symm.trans hk)
    exact ⟨y, mid, (hd _ _ _).mpr ⟨x, hx, hg⟩, rfl, rfl⟩

theorem both {c : α → γ → ε} {c' : β → δ → ζ} (hd : Refines g d' d) (he : Refines h e' e)
    (hc : ∀ x y, k (c x y) = do return c' (← g x) (← h y)) :
    Refines k (d' >>= fun x => e' >>= fun y => Pure.pure (c' x y))
      (d >>= fun x => e >>= fun y => Pure.pure (c x y)) := by
  intro bs z rest
  simp only [bind_eq_ok_iff, pure_eq_ok_iff]
  constructor
  · rintro ⟨y, mid, hy, v, mid', hv, rfl, rfl⟩
    obtain ⟨x, hx, hg⟩ := (hd _ _ _).mp hy
    obtain ⟨u, hu, hh⟩ := (he _ _ _).mp hv
    exact ⟨c x u, ⟨x, mid, hx, u, mid', hu, rfl, rfl⟩, by rw [hc, hg, hh]; rfl⟩
  · rintro ⟨w, ⟨x, mid, hx, u, mid', hu, rfl, rfl⟩, hk⟩
    rw [hc] at hk
    simp only [Encode.bind_eq_ok, Encode.pure_eq_ok] at hk
    obtain ⟨y, hg, v, hh, rfl⟩ := hk
    exact ⟨y, mid, (hd _ _ _).mpr ⟨x, hx, hg⟩, v, mid', (he _ _ _).mpr ⟨u, hu, hh⟩, rfl, rfl⟩

theorem many (hd : Refines g d' d) (n : Nat) :
    Refines (List.mapM g) (Decode.many d' n) (Decode.many d n) := by
  induction n with
  | zero => exact .pure rfl
  | succ n ih =>
    rw [many_succ, many_succ]
    exact hd.both ih fun x xs => List.mapM_cons

/-- A choice before a decoder: where there is nothing to choose, nothing that is read will do. -/
theorem choose {κ : Type} {choice : Except Error κ} {f : κ → Decode β}
    (hok : ∀ a, choice = .ok a → Refines g (f a) d)
    (herror : ∀ err, choice = .error err → Yields (fun x => ∃ err', g x = .error err') d) :
    Refines g (liftM choice >>= f) d := by
  cases choice with
  | ok a => exact hok a rfl
  | error err =>
    intro bs y rest
    refine ⟨nofun, ?_⟩
    rintro ⟨x, hx, hg⟩
    obtain ⟨err', herr⟩ := herror err rfl _ _ _ hx
    rw [herr] at hg
    cases hg

end Refines

end Decode

open Decode

/-! ## Integers of either sign -/

/-- The value of another kind that has the same bytes. -/
def Primitive.convert (k k' : Primitive) (x : k.Val) : k'.Val := k'.decode (k.encode x)

theorem Primitive.convert_int {w : Width} (s s' : Sign) (x : w.Word) :
    (Primitive.int w s).convert (.int w s') x = x :=
  (Primitive.int w s).decode_encode x

theorem Primitive.convert_decode {k k' : Primitive} (h : k'.form = k.form) (bs : Bytes) :
    k.convert k' (k.decode bs) = k'.decode bs := by
  cases k <;> cases k' <;> cases h <;> exact Primitive.decode_encode _ _

theorem refines_primitive {k k' : Primitive} (h : k'.form = k.form) :
    Refines (fun x => pure (k.convert k' x)) (Decode.primitive k') (Decode.primitive k) := by
  have hsize : k'.size = k.size := congrArg Form.size h
  intro bs y rest
  simp only [Decode.primitive, map_eq_pure_bind, bind_eq_ok_iff, pure_eq_ok_iff, hsize,
    Encode.pure_eq_ok]
  constructor
  · rintro ⟨bytes, mid, htake, rfl, rfl⟩
    exact ⟨_, ⟨bytes, mid, htake, rfl, rfl⟩, Primitive.convert_decode h bytes⟩
  · rintro ⟨_, ⟨bytes, mid, htake, rfl, rfl⟩, rfl⟩
    exact ⟨bytes, mid, htake, (Primitive.convert_decode h bytes).symm, rfl⟩

namespace Request

theorem form_of_primitive {r : Request} {f : Form} {k : Primitive} (h : r.primitive f = .ok k) :
    k.form = f := by
  cases f with
  | int w =>
    rw [primitive] at h
    split at h <;> cases h
    rfl
  | _ => cases h; rfl

theorem form_of_primitiveArray {r : Request} {f : Form} {k : Primitive}
    (h : r.primitiveArray f = .ok k) : k.form = f := by
  cases f with
  | int w =>
    rw [primitiveArray] at h
    split at h <;> cases h
    rfl
  | _ => cases h; rfl

theorem primitive_any (k : Primitive) : any.primitive k.form = .ok k.signed := by
  cases k <;> rfl

theorem primitiveArray_any (k : Primitive) : any.primitiveArray k.form = .ok k.signed := by
  cases k <;> rfl

theorem primitive_exact (k : Primitive) : (exact (.primitive k)).primitive k.form = .ok k := by
  cases k with
  | int w s => simp [primitive, Primitive.form, sign?]
  | _ => rfl

theorem primitiveArray_elements (k : Primitive) :
    (elements (exact (.primitive k))).primitiveArray k.form = .ok k := by
  cases k with
  | int w s => simp [primitiveArray, Primitive.form, arraySign?]
  | _ => rfl

/-- The numbers of an array are read as the elements of a sequence would be. -/
theorem toOption_primitiveArray_elements (r : Request) (f : Form) :
    ((elements r).primitiveArray f).toOption = (r.primitive f).toOption := by
  have hsign (w : Width) : (elements r).arraySign? w = r.sign? w := by
    cases r with
    | exact t =>
      cases t with
      | primitive k => cases k <;> rfl
      | _ => rfl
    | _ => rfl
  cases f with
  | int w =>
    rw [primitiveArray, primitive, hsign]
    cases r.sign? w <;> rfl
  | _ => rfl

end Request

namespace Value

mutual

/-- What a value that was read for nothing in particular is under a request. -/
def under (l : DecodeLimits) (r : Request) : Value → Except Error Value
  | primitive k x => do
    let k' ← r.primitive k.form
    return primitive k' (k.convert k' x)
  | primitiveArray k xs => do
    let k' ← r.primitiveArray k.form
    return primitiveArray k' (xs.map (k.convert k'))
  | objectArray xs => objectArray <$> underAll l r.element xs
  | collection flavor xs => collection flavor <$> underAll l r.element xs
  | map flavor entries => map flavor <$> underEntries l r entries
  | mapEntry key value => do return mapEntry (← under l r.key key) (← under l r.value value)
  | object o => do
    l.checkObject r o
    return object o
  | v => return v

/-- Elements under a request. -/
def underAll (l : DecodeLimits) (r : Request) : List Value → Except Error (List Value)
  | [] => return []
  | v :: vs => do return (← under l r v) :: (← underAll l r vs)

/-- Entries under a request. -/
def underEntries (l : DecodeLimits) (r : Request) :
    List (Value × Value) → Except Error (List (Value × Value))
  | [] => return []
  | (k, v) :: entries => do
    return (← under l r.key k, ← under l r.value v) :: (← underEntries l r entries)

end

variable {l : DecodeLimits} {r : Request}

theorem underAll_eq (xs : List Value) : underAll l r xs = xs.mapM (under l r) := by
  induction xs with
  | nil => rfl
  | cons x xs ih => rw [underAll, ih, List.mapM_cons]

theorem underEntries_eq (es : List (Value × Value)) : underEntries l r es =
    es.mapM fun e => do return (← under l r.key e.1, ← under l r.value e.2) := by
  induction es with
  | nil => rfl
  | cons e es ih =>
    rw [underEntries, ih, List.mapM_cons]
    simp only [bind_assoc, pure_bind]

end Value

/-! ## Values as they arrive, under a request -/

/-- Where a step succeeds on each element, so do all steps together. -/
theorem mapM_eq_ok_map {α β ε : Type} {f : α → Except ε β} {g : α → β} {xs : List α}
    (h : ∀ x ∈ xs, f x = .ok (g x)) : xs.mapM f = .ok (xs.map g) := by
  induction xs with
  | nil => rfl
  | cons x xs ih =>
    rw [List.forall_mem_cons] at h
    rw [List.mapM_cons, h.1, ih h.2]
    rfl

theorem mapM_map_eq_ok {α β γ ε : Type} {f : β → Except ε γ} {c : α → β} {g : α → γ} {xs : List α}
    (h : ∀ x ∈ xs, f (c x) = .ok (g x)) : (xs.map c).mapM f = .ok (xs.map g) := by
  rw [List.mapM_map]
  exact mapM_eq_ok_map h

theorem mapM_map_eq_self {α β ε : Type} {f : β → Except ε α} {c : α → β} {xs : List α}
    (h : ∀ x ∈ xs, f (c x) = .ok x) : (xs.map c).mapM f = .ok xs := by
  rw [mapM_map_eq_ok (g := id) h, List.map_id]

theorem Primitive.convert_self (k : Primitive) (x : k.Val) : k.convert k x = x :=
  k.decode_encode x

theorem Primitive.convert_toSigned (k : Primitive) (x : k.Val) :
    k.signed.convert k (k.toSigned x) = x := by
  rw [convert, encode_toSigned, decode_encode]

namespace Value

variable {l : DecodeLimits} {r : Request}

/-- A number comes back to the kind that it had for who asks for this kind. -/
theorem under_primitive {k : Primitive} (hr : r.primitive k.form = .ok k) (x : k.Val) :
    (primitive k x).arrived.under l r = .ok (primitive k x) := by
  rw [arrived, under, Primitive.form_signed, hr]
  exact congrArg (fun y => Except.ok (primitive k y)) (k.convert_toSigned x)

theorem under_primitiveArray {k : Primitive} (hr : r.primitiveArray k.form = .ok k)
    (xs : List k.Val) :
    (primitiveArray k xs).arrived.under l r = .ok (primitiveArray k xs) := by
  have hxs : (xs.map k.toSigned).map (k.signed.convert k) = xs := by
    rw [List.map_map]
    exact (List.map_congr_left fun x _ => k.convert_toSigned x).trans (List.map_id _)
  rw [arrived, under, Primitive.form_signed, hr]
  exact congrArg (fun ys => Except.ok (primitiveArray k ys)) hxs

/-- Who asks for nothing in particular gets a value as it arrives, if no scalar in it changes. -/
theorem under_any_of_settled {v : Value} (h : v.Everywhere Settled) :
    v.under l .any = .ok v.arrived := by
  induction v using induction_on_parts with
  | step v ih =>
    obtain ⟨hhere, hparts⟩ := everywhere_iff.mp h
    have ih (w : Value) (hw : w ∈ v.parts) : w.under l .any = .ok w.arrived := ih w hw (hparts w hw)
    cases v with
    | primitive k x =>
      rw [under, Request.primitive_any]
      cases k <;> exact congrArg (fun y => Except.ok (primitive _ y)) (Primitive.convert_self _ _)
    | primitiveArray k xs =>
      rw [under, Request.primitiveArray_any]
      cases k <;> exact congrArg (fun ys => Except.ok (primitiveArray _ ys))
        (List.map_congr_left fun x _ => Primitive.convert_self _ x)
    | scalar s x =>
      exact congrArg (fun y => Except.ok (scalar s y)) (hhere ⟨s, x⟩ (List.mem_singleton_self _)).symm
    | scalarArray s xs =>
      have helement (x : Option s.Val) (hx : x ∈ xs) : x.map s.arrived = x := by
        cases x with
        | none => rfl
        | some x => exact congrArg some (hhere ⟨s, x⟩ (mem_scalars_scalarArray hx))
      have hxs : xs.map (Option.map s.arrived) = xs :=
        (List.map_congr_left helement).trans (List.map_id xs)
      exact congrArg (fun ys => Except.ok (scalarArray s ys)) hxs.symm
    | objectArray xs =>
      have hxs : xs.mapM (under l .any) = .ok (xs.map arrived) := mapM_eq_ok_map ih
      rw [arrived, under, arrivedAll_eq, underAll_eq]
      exact congrArg (objectArray <$> ·) hxs
    | collection flavor xs =>
      have hxs : xs.mapM (under l .any) = .ok (xs.map arrived) := mapM_eq_ok_map ih
      rw [arrived, under, arrivedAll_eq, underAll_eq]
      exact congrArg (collection flavor <$> ·) hxs
    | map flavor es =>
      rw [forall_mem_parts_map] at ih
      have hes : es.mapM (fun e => do return (← under l .any e.1, ← under l .any e.2)) =
          .ok (es.map fun e => (e.1.arrived, e.2.arrived)) :=
        mapM_eq_ok_map fun e he => by rw [(ih e he).1, (ih e he).2]; rfl
      rw [arrived, under, arrivedEntries_eq, underEntries_eq]
      exact congrArg (map flavor <$> ·) hes
    | mapEntry key value =>
      have hkey : under l Request.any.key key = .ok key.arrived := ih key (by simp [parts])
      have hvalue : under l Request.any.value value = .ok value.arrived :=
        ih value (by simp [parts])
      rw [arrived, under, hkey, hvalue]
      rfl
    | _ => rfl

/-- Nothing changes for a request for nothing in particular. -/
theorem under_any (v : Value) : v.arrived.under l .any = .ok v.arrived := by
  have hsettled : v.arrived.Everywhere Settled := v.everywhere_arrived_of settled_arrived
  rw [under_any_of_settled hsettled, arrived_arrived]

end Value

namespace DecodeLimits

open Value

variable {l : DecodeLimits} {nested : Request → Decode Value} {r : Request}

theorem refines_primitiveValue (f : Form) :
    Refines (under l r) (l.readTagged nested r (.one f)) (l.readTagged nested .any (.one f)) := by
  obtain ⟨k, hk⟩ : ∃ k, Request.any.primitive f = .ok k := by cases f <;> exact ⟨_, rfl⟩
  have hform := Request.form_of_primitive hk
  have hany : l.readTagged nested .any (.one f) =
      Decode.primitive k >>= fun x => pure (.primitive k x) := by rw [readTagged, hk]; rfl
  rw [hany, readTagged]
  refine .choose (fun k' hk' => ?_) fun err herr => .andThen fun x => .pure ⟨err, ?_⟩
  · refine (refines_primitive ((Request.form_of_primitive hk').trans hform.symm)).map fun x => ?_
    rw [under, hform, hk']
    rfl
  · rw [under, hform, herr]
    rfl

theorem refines_primitiveArray (f : Form) :
    Refines (under l r) (l.readTagged nested r (.array f))
      (l.readTagged nested .any (.array f)) := by
  obtain ⟨k, hk⟩ : ∃ k, Request.any.primitiveArray f = .ok k := by cases f <;> exact ⟨_, rfl⟩
  have hform := Request.form_of_primitiveArray hk
  have hany : l.readTagged nested .any (.array f) = l.count k.size >>= fun n =>
      Decode.many (Decode.primitive k) n >>= fun xs => pure (.primitiveArray k xs) := by
    rw [readTagged, hk]
    rfl
  rw [hany, readTagged]
  refine .choose (fun k' hk' => ?_) fun err herr => .andThen fun n => .andThen fun xs =>
    .pure ⟨err, ?_⟩
  · have hsame : k'.form = k.form := (Request.form_of_primitiveArray hk').trans hform.symm
    have hsize : k'.size = k.size := congrArg Form.size hsame
    rw [hsize]
    refine .after fun n => ((refines_primitive hsame).many n).map fun xs => ?_
    rw [under, hform, hk', List.mapM_pure]
    rfl
  · rw [under, hform, herr]
    rfl

theorem refines_entry (hnested : ∀ r, Refines (under l r) (nested r) (nested .any)) :
    Refines (fun e => do return (← under l r.key e.1, ← under l r.value e.2))
      (readTagged.entry nested r) (readTagged.entry nested .any) :=
  (hnested r.key).both (hnested r.value) fun _ _ => rfl

theorem refines_readTagged (hnested : ∀ r, Refines (under l r) (nested r) (nested .any))
    (tag : Tag) : Refines (under l r) (l.readTagged nested r tag) (l.readTagged nested .any tag) := by
  cases tag with
  | null => exact .pure rfl
  | one f => exact refines_primitiveValue f
  | array f => exact refines_primitiveArray f
  | scalar s => exact .after fun x => .pure rfl
  | scalarArray s => exact .after fun n => .after fun xs => .pure rfl
  | objectArray =>
    refine .after fun n => ((hnested _).many n).map fun xs => ?_
    rw [under, underAll_eq]
  | collection =>
    refine .after fun n => .after fun code => .after fun flavor =>
      ((hnested _).many n).map fun xs => ?_
    rw [under, underAll_eq]
  | map =>
    refine .after fun n => .after fun code => .after fun flavor =>
      ((refines_entry hnested).many n).map fun es => ?_
    rw [under, underEntries_eq]
  | mapEntry =>
    refine (refines_entry hnested).map fun e => ?_
    rw [under]
    simp
  | object =>
    -- the bytes are read either way; the check comes after them
    refine .after fun o => .choose (d := pure (Value.object o)) (fun u hu => .pure ?_)
      fun err herr => .pure ⟨err, ?_⟩
    · rw [under, hu]
      rfl
    · rw [under, herr]
      rfl

/-- What is read for a request is what is read for nothing in particular, as it is under the
request. -/
theorem refines_read (levels : Nat) :
    Refines (under l r) (l.read levels r) (l.read levels .any) := by
  have hstep {nested : Request → Decode Value}
      (hnested : ∀ r, Refines (under l r) (nested r) (nested .any)) (r : Request) :
      Refines (under l r) (l.readWith nested r) (l.readWith nested .any) := by
    refine .after fun b => ?_
    split
    · exact refines_readTagged hnested _
    · exact .error _
  -- both readers go down together, so one induction on the levels is about both
  induction levels generalizing r with
  | zero => exact hstep (fun _ => .error _) r
  | succ levels ih => exact hstep (fun _ => ih) r

end DecodeLimits

/-! ## Values on a marshaller -/

namespace Marshaller

variable {α : Type} {m : Marshaller} {r : Request} {convert : Value → Except Error α}
  {bs rest : Bytes} {x : α}

/-- What a caller gets is what it makes of what was read for it. -/
theorem readAs_eq_ok_iff_readValue : m.readAs r convert bs = .ok (x, rest) ↔
    ∃ v, m.limits.readValue r bs = .ok (v, rest) ∧ convert v = .ok x := by
  rw [readAs, bind_eq_ok_iff]
  constructor
  · rintro ⟨v, mid, hv, h⟩
    cases hx : convert v with
    | ok y => simp only [hx] at h; cases h; exact ⟨v, hv, hx⟩
    | error e => simp only [hx] at h; cases h
  · rintro ⟨v, hv, hx⟩
    exact ⟨v, rest, hv, by simp only [hx]; rfl⟩

/-- What a caller gets is what it makes of the dynamic value that the bytes hold, as this value is
under the caller's request. -/
theorem readAs_eq_ok_iff : m.readAs r convert bs = .ok (x, rest) ↔
    ∃ v w, m.read .value bs = .ok (v, rest) ∧ v.under m.limits r = .ok w ∧ convert w = .ok x := by
  have hvalue (v : Value) :
      m.read .value bs = .ok (v, rest) ↔ m.limits.readValue .any bs = .ok (v, rest) := by
    rw [read, readAs_eq_ok_iff_readValue]
    constructor
    · rintro ⟨w, hw, h⟩
      cases h
      exact hw
    · intro hv
      exact ⟨v, hv, rfl⟩
  simp only [readAs_eq_ok_iff_readValue, hvalue]
  constructor
  · rintro ⟨w, hw, hx⟩
    obtain ⟨v, hv, hunder⟩ := (m.limits.refines_read m.limits.maxDepth bs w rest).mp hw
    exact ⟨v, w, hv, hunder, hx⟩
  · rintro ⟨v, w, hv, hunder, hx⟩
    exact ⟨w, (m.limits.refines_read m.limits.maxDepth bs w rest).mpr ⟨v, hv, hunder⟩, hx⟩

end Marshaller

end WireCodec
