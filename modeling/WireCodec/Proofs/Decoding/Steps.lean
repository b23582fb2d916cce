import WireCodec.Bytes.Decode

/-!
# Decoders one after the other

`Reads` says which bytes a decoder takes for a value, whatever follows them. `ReadsIf` adds what
becomes of these bytes where a limit forbids to read them: they are refused, and not mistaken for
input that ended early. `Yields` says what holds of all that a decoder reads. They follow decoders
through `pure`, `>>=` and `Decode.many`.
-/

namespace WireCodec

namespace Decode

variable {α β γ : Type} {d : Decode α} {f : α → Decode β} {bs cs rest : Bytes} {x x' : α} {y : β}
  {e : Error} {p q : Prop}

theorem bind_ok (h : d bs = .ok (x, rest)) : (d >>= f) bs = f x rest := by
  change (d bs).bind (fun r => f r.1 r.2) = _
  rw [h]
  rfl

theorem bind_error (h : d bs = .error e) : (d >>= f) bs = .error e := by
  change (d bs).bind (fun r => f r.1 r.2) = _
  rw [h]
  rfl

theorem expect_bind {n : Nat} (h : n ≤ bs.length) : (expect n >>= fun _ => d) bs = d bs := by
  refine bind_ok (x := ()) ?_
  rw [expect, Bytes.shorterThan_eq, if_neg (by simp [h])]

theorem ok_of_bind (h : (d >>= f) bs = .ok (y, rest)) :
    ∃ x mid, d bs = .ok (x, mid) ∧ f x mid = .ok (y, rest) := by
  cases hd : d bs with
  | ok r => exact ⟨r.1, r.2, rfl, by rwa [bind_ok hd] at h⟩
  | error e => rw [bind_error hd] at h; cases h

theorem bind_eq_ok_iff : (d >>= f) bs = .ok (y, rest) ↔
    ∃ x mid, d bs = .ok (x, mid) ∧ f x mid = .ok (y, rest) :=
  ⟨ok_of_bind, fun ⟨_, _, hx, hy⟩ => (bind_ok hx).trans hy⟩

theorem pure_eq_ok_iff : (pure x : Decode α) bs = .ok (x', rest) ↔ x = x' ∧ bs = rest := by
  constructor
  · intro h
    cases h
    exact ⟨rfl, rfl⟩
  · rintro ⟨rfl, rfl⟩
    rfl

theorem error_of_bind (h : (d >>= f) bs = .error e) :
    d bs = .error e ∨ ∃ x mid, d bs = .ok (x, mid) ∧ f x mid = .error e := by
  cases hd : d bs with
  | ok r => exact .inr ⟨r.1, r.2, rfl, by rwa [bind_ok hd] at h⟩
  | error e => rw [bind_error hd] at h; cases h; exact .inl rfl

/-! ## Bytes that are read as a value -/

/-- A decoder reads a value from these bytes, and leaves what follows them. -/
def Reads (d : Decode α) (bs : Bytes) (x : α) : Prop := ∀ more, d (bs ++ more) = .ok (x, more)

namespace Reads

theorem pure (x : α) : Reads (Pure.pure x) [] x := fun _ => rfl

theorem bind (hd : Reads d bs x) (hf : Reads (f x) cs y) : Reads (d >>= f) (bs ++ cs) y := by
  intro more
  rw [List.append_assoc, bind_ok (hd _)]
  exact hf more

theorem bind_nil (hd : Reads d bs x) (hf : Reads (f x) [] y) : Reads (d >>= f) bs y := by
  have h := hd.bind hf
  rwa [List.append_nil] at h

theorem bind_pure (hd : Reads d bs x) (g : α → β) :
    Reads (d >>= fun x => Pure.pure (g x)) bs (g x) :=
  hd.bind_nil (.pure (g x))

theorem map (hd : Reads d bs x) (g : α → β) : Reads (g <$> d) bs (g x) := by
  rw [map_eq_pure_bind]
  exact hd.bind_pure g

/-- The bytes are all of the input. -/
theorem exact (hd : Reads d bs x) : d bs = .ok (x, []) := by
  have h := hd []
  rwa [List.append_nil] at h

end Reads

theorem reads_take {n : Nat} (h : bs.length = n) : Reads (take n) bs bs := by
  intro more
  rw [take, Bytes.shorterThan_eq, if_neg (by simp [← h]), List.splitAt_eq, List.take_left' h,
    List.drop_left' h]

/-! ## Bytes that a limit refuses -/

/-- A decoder refuses these bytes for what they hold, whatever follows them. -/
def Refuses (d : Decode α) (bs : Bytes) : Prop :=
  ∀ more, ∃ e, d (bs ++ more) = .error e ∧ (e.kind = .serialization ∨ e.kind = .protocol)

/-- A decoder reads a value from these bytes where `p` holds, and refuses them where not. -/
def ReadsIf (p : Prop) (d : Decode α) (bs : Bytes) (x : α) : Prop :=
  (p → Reads d bs x) ∧ (¬ p → Refuses d bs)

theorem Refuses.bind (hd : Refuses d bs) (f : α → Decode β) (cs : Bytes) :
    Refuses (d >>= f) (bs ++ cs) := by
  intro more
  obtain ⟨e, he, hkind⟩ := hd (cs ++ more)
  rw [← List.append_assoc] at he
  exact ⟨e, bind_error he, hkind⟩

theorem Reads.refuses (hd : Reads d bs x) (hf : Refuses (f x) cs) :
    Refuses (d >>= f) (bs ++ cs) := by
  intro more
  obtain ⟨e, he, hkind⟩ := hf more
  refine ⟨e, ?_, hkind⟩
  rw [List.append_assoc, bind_ok (hd _), he]

theorem Reads.readsIf (hd : Reads d bs x) : ReadsIf True d bs x := ⟨fun _ => hd, nofun⟩

namespace ReadsIf

theorem pure (x : α) : ReadsIf True (Pure.pure x : Decode α) [] x := (Reads.pure x).readsIf

/-- What only needs the bytes to be there changes nothing about them. -/
theorem expect {n : Nat} (hd : ReadsIf p d bs x) (hn : n ≤ bs.length) :
    ReadsIf p (Decode.expect n >>= fun _ => d) bs x := by
  have hall (more : Bytes) : (Decode.expect n >>= fun _ => d) (bs ++ more) = d (bs ++ more) :=
    expect_bind (by rw [List.length_append]; omega)
  exact ⟨fun hp more => (hall more).trans (hd.1 hp more), fun hp more => hall more ▸ hd.2 hp more⟩

theorem congr (hd : ReadsIf p d bs x) (h : q ↔ p) : ReadsIf q d bs x :=
  ⟨fun hq => hd.1 (h.mp hq), fun hq => hd.2 (mt h.mpr hq)⟩

theorem bind (hd : ReadsIf p d bs x) (hf : ReadsIf q (f x) cs y) :
    ReadsIf (p ∧ q) (d >>= f) (bs ++ cs) y := by
  refine ⟨fun h => (hd.1 h.1).bind (hf.1 h.2), fun h => ?_⟩
  by_cases hp : p
  · exact (hd.1 hp).refuses (hf.2 fun hq => h ⟨hp, hq⟩)
  · exact (hd.2 hp).bind f cs

theorem after (hd : Reads d bs x) (hf : ReadsIf q (f x) cs y) : ReadsIf q (d >>= f) (bs ++ cs) y :=
  (hd.readsIf.bind hf).congr (by simp)

theorem lift {x? : Except Error α} (hx : x? = .ok x) (hf : ReadsIf q (f x) bs y) :
    ReadsIf q (liftM x? >>= f) bs y := by
  subst hx
  exact hf

theorem bind_nil (hd : ReadsIf p d bs x) (hf : Reads (f x) [] y) : ReadsIf p (d >>= f) bs y := by
  have h := (hd.bind hf.readsIf).congr (q := p) (by simp)
  rwa [List.append_nil] at h

theorem bind_pure (hd : ReadsIf p d bs x) (g : α → β) :
    ReadsIf p (d >>= fun x => Pure.pure (g x)) bs (g x) :=
  hd.bind_nil (.pure (g x))

end ReadsIf

/-! ## Values one after the other -/

theorem many_succ (d : Decode α) (n : Nat) :
    many d (n + 1) = d >>= fun x => many d n >>= fun xs => Pure.pure (x :: xs) := rfl

/-- As many values as have parts, each read from its own part where nothing forbids it. -/
theorem readsIf_many {as : List γ} {bytes : γ → Bytes} {g : γ → α} {ok : γ → Prop}
    (h : ∀ a ∈ as, ReadsIf (ok a) d (bytes a) (g a)) :
    ReadsIf (∀ a ∈ as, ok a) (many d as.length) (as.flatMap bytes) (as.map g) := by
  induction as with
  | nil => exact (Reads.pure []).readsIf.congr (by simp)
  | cons a as ih =>
    rw [List.forall_mem_cons] at h
    rw [List.length_cons, many_succ, List.flatMap_cons, List.map_cons]
    exact (h.1.bind ((ih h.2).bind_pure _)).congr List.forall_mem_cons

/-! ## What a decoder yields -/

variable {P : α → Prop} {Q : β → Prop}

/-- All that a decoder reads has a property. -/
def Yields (P : α → Prop) (d : Decode α) : Prop := ∀ bs x rest, d bs = .ok (x, rest) → P x

namespace Yields

theorem pure (h : P x) : Yields P (Pure.pure x) := by
  intro bs y rest hok
  cases hok
  exact h

theorem any (d : Decode α) : Yields (fun _ => True) d := fun _ _ _ _ => trivial

theorem bind (hd : Yields P d) (hf : ∀ x, P x → Yields Q (f x)) : Yields Q (d >>= f) := by
  intro bs y rest hok
  obtain ⟨x, mid, hx, hy⟩ := ok_of_bind hok
  exact hf x (hd _ _ _ hx) _ _ _ hy

theorem andThen (hf : ∀ x, Yields Q (f x)) : Yields Q (d >>= f) :=
  (any d).bind fun x _ => hf x

end Yields

end Decode

end WireCodec
