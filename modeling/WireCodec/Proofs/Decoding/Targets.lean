import WireCodec.Proofs.Decoding.Requests

/-!
# What callers ask for

A target is a request together with what its caller makes of the value that comes. Targets are put
together from others: optional ones, sequences whose elements are collected in some way, maps, and
pairs. `Target.of?` says what comes of a value that was read for nothing in particular. For a
target put together from others it is put together from theirs, on whichever way the elements came:
as the numbers of a primitive array, in an object array, or in a collection.
-/

namespace WireCodec

/-- What a caller asks for, and what it makes of the value that comes. -/
structure Target (α : Type) where
  request : Request
  ofValue : Value → Except Error α

namespace Target

variable {α β γ κ : Type}

/-- An integer of a width, under either sign. -/
def integer (w : Width) (s : Sign) : Target w.Word where
  request := .exact (.primitive (.int w s))
  ofValue := Primitive.ofValue (.int w s)

/-- A value that may be absent. -/
def option (d : Target α) : Target (Option α) where
  request := d.request
  ofValue v := if v.isNull then .ok none else some <$> d.ofValue v

/-- A sequence, of whose elements something is made: a list, a queue, a set. -/
def elements (d : Target α) (collect : List α → γ) : Target γ where
  request := .elements d.request
  ofValue v := do return collect (← (← v.sequence).mapM d.ofValue)

/-- Two values, each made by its own target. -/
def ofEntry (a : Target α) (b : Target β) (e : Value × Value) : Except Error (α × β) := do
  return (← a.ofValue e.1, ← b.ofValue e.2)

/-- A map, of whose entries something is made. -/
def entries (k : Target κ) (d : Target α) (collect : List (κ × α) → γ) : Target γ where
  request := .entries k.request d.request
  ofValue v := do return collect (← (← v.entries).mapM (k.ofEntry d))

/-- A pair. -/
def pair (a : Target α) (b : Target β) : Target (α × β) where
  request := .entries a.request b.request
  ofValue
    | .mapEntry x y => a.ofEntry b (x, y)
    | v => v.mismatch "a map entry"

end Target

/-! ## Host types as targets -/

/-- The target that a kind of keys is. -/
def KeyKind.target (k : KeyKind) : Target k.Val := ⟨.exact k.hostType, k.ofValue⟩

namespace HostType

/-- The target that a host type is. -/
def target (payloads : PayloadCodec) (t : HostType) : Target t.Val :=
  ⟨t.request, t.ofValue payloads⟩

variable {payloads : PayloadCodec} {t a b : HostType}

theorem target_list : (list t).target payloads = (t.target payloads).elements id := by
  simp [target, Target.elements, request, ofValue]

theorem target_deque : (deque t).target payloads = (t.target payloads).elements id := target_list

theorem target_map (sorted : Bool) (k : KeyKind) :
    (map sorted k t).target payloads = k.target.entries (t.target payloads) k.ofEntries := rfl

end HostType

/-! ## Which results there are -/

section

variable {α β γ ε : Type}

theorem toOption_bind (x : Except ε α) (f : α → Except ε β) :
    (x >>= f).toOption = x.toOption.bind fun a => (f a).toOption := by
  cases x <;> rfl

theorem toOption_map (f : α → β) (x : Except ε α) : (f <$> x).toOption = x.toOption.map f := by
  cases x <;> rfl

theorem toOption_pure (x : α) : (pure x : Except ε α).toOption = some x := rfl

theorem toOption_mapM (f : α → Except ε β) (xs : List α) :
    (xs.mapM f).toOption = xs.mapM fun x => (f x).toOption := by
  induction xs with
  | nil => rfl
  | cons x xs ih =>
    simp only [List.mapM_cons, toOption_bind, ih]
    rfl

theorem toOption_eq_some_iff {x : Except ε α} {a : α} : x.toOption = some a ↔ x = .ok a := by
  cases x <;> simp [Except.toOption]

theorem mapM_cons_eq (f : α → Option β) (x : α) (xs : List α) :
    (x :: xs).mapM f = (f x).bind fun y => (xs.mapM f).map (y :: ·) := by
  rw [List.mapM_cons]
  cases f x with
  | none => rfl
  | some y => cases xs.mapM f <;> rfl

/-- Two passes over a list are one pass of both steps. -/
theorem mapM_bind_mapM {δ : Type} (f : α → Option β) (g : β → Option γ) (c : List γ → δ)
    (xs : List α) : ((xs.mapM f).bind fun ys => (ys.mapM g).map c) =
      (xs.mapM fun x => (f x).bind g).map c := by
  induction xs generalizing c with
  | nil => rfl
  | cons x xs ih =>
    rw [mapM_cons_eq, mapM_cons_eq]
    cases f x with
    | none => rfl
    | some y =>
      rw [Option.bind_some, Option.bind_some, Option.bind_map]
      cases hy : g y with
      | none => simp [hy]
      | some z =>
        simp only [Function.comp_def, mapM_cons_eq, hy, Option.bind_some, Option.map_map]
        exact ih fun zs => c (z :: zs)

theorem mapM_congr {f g : α → Option β} {xs : List α} (h : ∀ x ∈ xs, f x = g x) :
    xs.mapM f = xs.mapM g := by
  induction xs with
  | nil => rfl
  | cons x xs ih =>
    rw [List.forall_mem_cons] at h
    rw [List.mapM_cons, List.mapM_cons, h.1, ih h.2]

end

/-- A request changes no tag. -/
theorem Value.tag_of_under {l : DecodeLimits} {r : Request} {v w : Value}
    (h : v.under l r = .ok w) : w.tag = v.tag := by
  cases v with
  | primitive k x =>
    obtain ⟨k', hk, h⟩ := Encode.bind_eq_ok.mp h
    cases h
    exact congrArg Tag.one (Request.form_of_primitive hk)
  | primitiveArray k xs =>
    obtain ⟨k', hk, h⟩ := Encode.bind_eq_ok.mp h
    cases h
    exact congrArg Tag.array (Request.form_of_primitiveArray hk)
  | objectArray xs | collection flavor xs | map flavor es =>
    obtain ⟨_, -, rfl⟩ := Encode.map_eq_ok.mp h
    rfl
  | mapEntry key value =>
    simp only [under, Encode.bind_eq_ok, Encode.pure_eq_ok] at h
    obtain ⟨_, -, _, -, rfl⟩ := h
    rfl
  | object o =>
    obtain ⟨_, -, h⟩ := Encode.bind_eq_ok.mp h
    cases h
    rfl
  | _ => cases h; rfl

theorem Value.isNull_eq (v : Value) : v.isNull = decide (v.tag = .null) := by
  cases v <;> simp [isNull, tag]

namespace Target

variable {α β γ κ : Type} {l : DecodeLimits}

/-- What a target makes of a value that was read for nothing in particular. -/
def of? (l : DecodeLimits) (d : Target α) (v : Value) : Option α :=
  (v.under l d.request >>= d.ofValue).toOption

/-- The numbers of a primitive array are of a kind that a target asks for. -/
def admits (d : Target α) : Value → Bool
  | .primitiveArray k _ => (d.request.primitive k.form).isOk
  | _ => true

/-- The bits of an integer of this width. -/
def word? (w : Width) : Value → Option w.Word
  | .primitive (.int w' _) x => if h : w' = w then some (h ▸ x) else none
  | _ => none

/-- A target that makes nothing of any value with this tag makes nothing of this one. -/
theorem of?_eq_none {d : Target α} {v : Value}
    (h : ∀ w : Value, w.tag = v.tag → (d.ofValue w).toOption = none) : d.of? l v = none := by
  rw [of?, toOption_bind, Option.bind_eq_none_iff]
  intro w hw
  exact h w (Value.tag_of_under (toOption_eq_some_iff.mp hw))

theorem of?_integer (w : Width) (s : Sign) (v : Value) : (integer w s).of? l v = word? w v := by
  cases v with
  | primitive k x =>
    cases k with
    | int w' s' =>
      by_cases hw : w' = w
      · subst hw
        have hunder : (Value.primitive (.int w' s') x).under l (integer w' s).request =
            .ok (.primitive (.int w' s) x) := by
          have hk : (integer w' s).request.primitive (.int w') = .ok (.int w' s) :=
            Request.primitive_exact (.int w' s)
          rw [Value.under, Primitive.form, hk]
          exact congrArg (fun y => Except.ok (Value.primitive _ y)) (Primitive.convert_int s' s x)
        rw [of?, hunder, word?, dif_pos rfl]
        change ((Primitive.int w' s).ofValue (.primitive (.int w' s) x)).toOption = _
        rw [Primitive.ofValue, dif_pos rfl]
        rfl
      · have hk : (integer w s).request.primitive (.int w') = .error (.neitherSign (.one (.int w'))) := by
          simp [integer, Request.primitive, Request.sign?, hw]
        rw [of?, Value.under, Primitive.form, hk, word?, dif_neg hw]
        rfl
    | _ => rfl
  | _ =>
    refine of?_eq_none fun u hu => ?_
    cases u <;> first | rfl | cases hu

theorem of?_option (d : Target α) (v : Value) :
    d.option.of? l v = if v.isNull then some none else (d.of? l v).map some := by
  cases hv : v.isNull with
  | true => cases v <;> first | rfl | cases hv
  | false =>
    rw [if_neg (by decide), of?, of?]
    cases hu : v.under l d.request with
    | error e => simp only [option, hu]; rfl
    | ok w =>
      have hw : w.isNull = false := by rw [Value.isNull_eq, Value.tag_of_under hu, ← Value.isNull_eq, hv]
      simp only [option, hu]
      change (if w.isNull then _ else _ : Except Error (Option α)).toOption = _
      rw [hw, if_neg (by decide), toOption_map]
      rfl

/-- What two targets make of two values. -/
def both? (l : DecodeLimits) (a : Target α) (b : Target β) (e : Value × Value) : Option (α × β) :=
  (a.of? l e.1).bind fun x => (b.of? l e.2).map fun y => (x, y)

theorem both?_eq (a : Target α) (b : Target β) (e : Value × Value) : both? l a b e =
    (do return (← e.1.under l a.request, ← e.2.under l b.request) : Except Error _).toOption.bind
      fun e => (a.ofEntry b e).toOption := by
  simp only [both?, of?, ofEntry, toOption_bind, toOption_pure, Option.bind_assoc, Option.bind_some]
  cases (e.1.under l a.request).toOption with
  | none => rfl
  | some x =>
    cases (e.2.under l b.request).toOption with
    | none => simp
    | some y =>
      simp only [Option.bind_some]
      cases (a.ofValue x).toOption <;> cases (b.ofValue y).toOption <;> rfl

theorem ofValue_elements (d : Target α) (collect : List α → γ) (v : Value) :
    ((d.elements collect).ofValue v).toOption =
      (v.elements?.bind (List.mapM fun x => (d.ofValue x).toOption)).map collect := by
  cases hv : v.elements? with
  | none => simp only [elements, Value.sequence, hv]; rfl
  | some xs =>
    rw [Option.bind_some, ← toOption_mapM, ← toOption_map, map_eq_pure_bind]
    simp only [elements, Value.sequence, hv]
    rfl

/-- However the elements of a sequence come, each is made as if it had come alone. -/
theorem of?_elements (d : Target α) (collect : List α → γ) (v : Value) :
    (d.elements collect).of? l v =
      if d.admits v then (v.elements?.bind (List.mapM (d.of? l))).map collect else none := by
  -- reading all elements and then converting each is reading and converting one after the other
  have hnested {v : Value} (flavored : List Value → Value) (xs : List Value)
      (hunder : v.under l (.elements d.request) = flavored <$> xs.mapM (Value.under l d.request))
      (helements : ∀ xs, (flavored xs).elements? = some xs) :
      (d.elements collect).of? l v = (xs.mapM (d.of? l)).map collect := by
    calc (d.elements collect).of? l v
      _ = (xs.mapM fun x : Value => (x.under l d.request).toOption).bind fun ys =>
            (ys.mapM fun y => (d.ofValue y).toOption).map collect := by
          rw [of?, show (d.elements collect).request = .elements d.request from rfl, hunder,
            toOption_bind, toOption_map, toOption_mapM, Option.bind_map]
          simp only [Function.comp_def, ofValue_elements, helements, Option.bind_some]
      _ = (xs.mapM (d.of? l)).map collect := by
          rw [mapM_bind_mapM, funext fun x => (toOption_bind (Value.under l d.request x) d.ofValue).symm]
          rfl
  cases v with
  | primitiveArray k xs =>
    have hkind := Request.toOption_primitiveArray_elements d.request k.form
    rw [of?, Value.under, bind_assoc, toOption_bind]
    change (Option.bind ((Request.elements d.request).primitiveArray k.form).toOption _) = _
    rw [hkind, admits]
    cases hk : d.request.primitive k.form with
    | error e => rfl
    | ok k' =>
      have helement (x : k.Val) : d.of? l (.primitive k x) =
          (d.ofValue (.primitive k' (k.convert k' x))).toOption := by
        rw [of?, Value.under, hk]
        rfl
      change ((d.elements collect).ofValue (.primitiveArray k' (xs.map (k.convert k')))).toOption = _
      rw [ofValue_elements]
      simp [Value.elements?, List.mapM_map, Function.comp_def, helement, Except.isOk, Except.toBool]
  | scalarArray s xs =>
    change ((d.elements collect).ofValue (.scalarArray s xs)).toOption = _
    rw [ofValue_elements]
    have helement (x : Option s.Val) : d.of? l ((x.map (Value.scalar s)).getD .null) =
        (d.ofValue ((x.map (Value.scalar s)).getD .null)).toOption := by
      cases x <;> rfl
    simp [Value.elements?, List.mapM_map, Function.comp_def, helement, admits]
  | objectArray xs =>
    refine hnested .objectArray xs ?_ fun _ => rfl
    rw [Value.under, Value.underAll_eq]
    rfl
  | collection flavor xs =>
    refine hnested (.collection flavor) xs ?_ fun _ => rfl
    rw [Value.under, Value.underAll_eq]
    rfl
  | _ =>
    refine of?_eq_none fun u hu => ?_
    cases u <;> first | rfl | cases hu

theorem of?_entries (k : Target κ) (d : Target α) (collect : List (κ × α) → γ) (v : Value) :
    (k.entries d collect).of? l v =
      (v.entries.toOption.bind (List.mapM (both? l k d))).map collect := by
  cases v with
  | map flavor es =>
    have hofValue (es : List (Value × Value)) :
        ((k.entries d collect).ofValue (.map flavor es)).toOption =
          (es.mapM fun e => (k.ofEntry d e).toOption).map collect := by
      rw [← toOption_mapM, ← toOption_map, map_eq_pure_bind]
      rfl
    rw [of?, Value.under, Value.underEntries_eq, toOption_bind, toOption_map, toOption_mapM,
      Option.bind_map]
    simp only [Function.comp_def, hofValue]
    rw [mapM_bind_mapM]
    exact congrArg (Option.map collect) (mapM_congr fun e _ => (both?_eq k d e).symm)
  | _ =>
    refine of?_eq_none fun u hu => ?_
    cases u <;> first | rfl | cases hu

theorem of?_pair (a : Target α) (b : Target β) (v : Value) :
    (a.pair b).of? l v = match v with | .mapEntry x y => both? l a b (x, y) | _ => none := by
  cases v with
  | mapEntry x y =>
    dsimp only
    rw [of?, both?_eq, Value.under, toOption_bind]
    simp only [toOption_bind, toOption_pure, Option.bind_assoc, Option.bind_some]
    rfl
  | _ =>
    refine of?_eq_none fun u hu => ?_
    cases u <;> first | rfl | cases hu

end Target

end WireCodec
