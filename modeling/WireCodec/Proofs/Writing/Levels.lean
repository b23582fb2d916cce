import WireCodec.Proofs.Writing.Emissions

/-!
# Levels of messages

A message is emitted level by level, down to the last level that is allowed (`Emission.layered`).
How many levels it has is its height; so a message that is no higher than allowed has the same
emission wherever the limit is, and any other one breaks off at the first message that is nested too
deep (`Emission.layered_cuts`).
-/

namespace WireCodec

/-! ## Height -/

mutual

/-- The number of levels of the message that an item is. -/
def Item.height : Item → Nat
  | .message m => m.height
  | _ => 0

/-- The largest number of levels of items. -/
def Item.heightAll : List Item → Nat
  | [] => 0
  | x :: xs => max x.height (Item.heightAll xs)

/-- The largest number of levels of entries. -/
def Item.heightEntries : List (Item × Item) → Nat
  | [] => 0
  | (k, v) :: entries => max (max k.height v.height) (Item.heightEntries entries)

/-- The largest number of levels of the messages in a field. -/
def Field.height : Field → Nat
  | .message (some m) => m.height
  | .list (some items) => Item.heightAll items
  | .map (some entries) => Item.heightEntries entries
  | _ => 0

/-- The largest number of levels of the messages in fields. -/
def Field.heightAll : List Field → Nat
  | [] => 0
  | x :: xs => max x.height (Field.heightAll xs)

/-- The number of levels of a message: its own, and those of the messages that are in it. -/
def Message.height : Message → Nat
  | .mk _ fields => Field.heightAll fields + 1

end

variable {n : Nat}

theorem Item.height_le {x : Item} : x.height ≤ n ↔ ∀ inner ∈ x.messages, inner.height ≤ n := by
  cases x with
  | message inner => rw [height, messages, List.forall_mem_singleton]
  | _ => simp [height, messages]

theorem Item.heightAll_le {xs : List Item} :
    heightAll xs ≤ n ↔ ∀ x ∈ xs, ∀ inner ∈ x.messages, inner.height ≤ n := by
  induction xs with
  | nil => simp [heightAll]
  | cons x xs ih => rw [heightAll, Nat.max_le, ih, height_le, List.forall_mem_cons]

theorem Item.heightEntries_le {entries : List (Item × Item)} : heightEntries entries ≤ n ↔
    ∀ e ∈ entries, ∀ inner ∈ e.1.messages ++ e.2.messages, inner.height ≤ n := by
  induction entries with
  | nil => simp [heightEntries]
  | cons e entries ih =>
    rw [heightEntries, Nat.max_le, Nat.max_le, ih, height_le, height_le, List.forall_mem_cons,
      List.forall_mem_append]

theorem Field.height_le {x : Field} : x.height ≤ n ↔ ∀ inner ∈ x.messages, inner.height ≤ n := by
  cases x with
  | message msg =>
    cases msg with
    | none => simp [height, messages]
    | some inner => rw [height, messages, List.forall_mem_singleton]
  | list items =>
    cases items with
    | none => simp [height, messages]
    | some items => rw [height, Item.heightAll_le, messages, List.forall_mem_flatMap]
  | map entries =>
    cases entries with
    | none => simp [height, messages]
    | some entries => rw [height, Item.heightEntries_le, messages, List.forall_mem_flatMap]
  | _ => simp [height, messages]

/-- A message has a level more than the messages in it. -/
theorem Message.height_le {type : UInt8} {fields : List Field} :
    (Message.mk type fields).height ≤ n + 1 ↔
      ∀ x ∈ fields, ∀ inner ∈ x.messages, inner.height ≤ n := by
  rw [height, Nat.add_le_add_iff_right]
  induction fields with
  | nil => simp [Field.heightAll]
  | cons x fields ih => rw [Field.heightAll, Nat.max_le, ih, Field.height_le, List.forall_mem_cons]

theorem Message.height_pos (msg : Message) : 0 < msg.height := by
  obtain ⟨type, fields⟩ := msg
  exact Nat.succ_pos _

namespace Emission

/-! ## Emissions by level -/

/-- The pieces of a message that may have messages nested in it to a depth of `levels`, where what
is written of messages below that is `last`. -/
def layered (m : Marshaller) (last : Message → Emission) : (levels : Nat) → Message → Emission
  | 0, msg => ofBody last m msg
  | levels + 1, msg => ofBody (layered m last levels) m msg

/-- What a reader gets to see of a message that is nested too deep: its type. -/
def cutOff (depth : Nat) (msg : Message) : Emission :=
  (whole [msg.type]).andThen (failed (.messageNesting depth))

/-- Of messages that are nested too deep, nothing is written. -/
theorem ofMessage_eq (m : Marshaller) (levels : Nat) : ofMessage m levels =
    layered m (fun _ => failed (.messageNesting m.config.maxNestingDepth)) levels := by
  induction levels with
  | zero => rfl
  | succ levels ih =>
    funext msg
    rw [ofMessage, layered, ih]

/-- What is written does not depend on the limits of a configuration. -/
theorem layered_config (m : Marshaller) (config : Config) (last : Message → Emission)
    (levels : Nat) : layered { m with config } last levels = layered m last levels := by
  have hfield (nested : Message → Emission) :
      ofField nested { m with config } = ofField nested m := by
    funext x
    cases x <;> rfl
  have hbody (nested : Message → Emission) (msg : Message) :
      ofBody nested { m with config } msg = ofBody nested m msg := by
    rw [ofBody, hfield, ofBody]
  induction levels with
  | zero => exact funext (hbody last)
  | succ levels ih =>
    funext msg
    rw [layered, ih, hbody, layered]

/-- A relation of emissions that is kept where emissions follow one another. -/
structure Congruent (R : Emission → Emission → Prop) : Prop where
  refl (a : Emission) : R a a
  andThen {a a' b b' : Emission} (ha : R a a') (hb : R b b') : R (a.andThen b) (a'.andThen b')

namespace Congruent

variable {R : Emission → Emission → Prop} {nested nested' : Message → Emission} (h : Congruent R)

include h

theorem each {α : Type} {f f' : α → Emission} {xs : List α} (hxs : ∀ x ∈ xs, R (f x) (f' x)) :
    R (Emission.each f xs) (Emission.each f' xs) := by
  induction xs with
  | nil => exact h.refl _
  | cons x xs ih =>
    obtain ⟨hx, hxs⟩ := List.forall_mem_cons.mp hxs
    exact h.andThen hx (ih hxs)

theorem ofItem {x : Item} (hx : ∀ inner ∈ x.messages, R (nested inner) (nested' inner)) :
    R (Emission.ofItem nested x) (Emission.ofItem nested' x) := by
  cases x with
  | message inner => exact hx inner (List.mem_singleton_self inner)
  | _ => exact h.refl _

theorem ofField (m : Marshaller) {x : Field}
    (hx : ∀ inner ∈ x.messages, R (nested inner) (nested' inner)) :
    R (Emission.ofField nested m x) (Emission.ofField nested' m x) := by
  cases x with
  | message msg =>
    cases msg with
    | none => exact h.refl _
    | some msg => exact hx msg (List.mem_singleton_self msg)
  | list items =>
    cases items with
    | none => exact h.refl _
    | some items =>
      refine h.andThen (h.refl _) (h.each fun x hmem => h.ofItem fun inner hinner => ?_)
      exact hx inner (List.mem_flatMap.mpr ⟨x, hmem, hinner⟩)
  | map entries =>
    cases entries with
    | none => exact h.refl _
    | some entries =>
      refine h.andThen (h.refl _) (h.each fun e hmem => ?_)
      have hentry : ∀ inner ∈ e.1.messages ++ e.2.messages, R (nested inner) (nested' inner) :=
        fun inner hinner => hx inner (List.mem_flatMap.mpr ⟨e, hmem, hinner⟩)
      obtain ⟨hkey, hvalue⟩ := List.forall_mem_append.mp hentry
      exact h.andThen (h.ofItem hkey) (h.ofItem hvalue)
  | bits s =>
    -- the words of a bit set are no messages
    cases s with
    | none => exact h.refl _
    | some s =>
      refine h.andThen (h.refl _) (h.each fun x hmem => h.ofItem fun inner hinner => ?_)
      obtain ⟨word, -, rfl⟩ := List.mem_map.mp hmem
      cases hinner
  | grid g => cases g <;> exact h.refl _
  | _ => exact h.refl _

theorem ofBody (m : Marshaller) {type : UInt8} {fields : List Field}
    (hxs : ∀ x ∈ fields, ∀ inner ∈ x.messages, R (nested inner) (nested' inner)) :
    R (Emission.ofBody nested m (.mk type fields)) (Emission.ofBody nested' m (.mk type fields)) :=
  h.andThen (h.refl _) (h.each fun x hx => h.ofField m (hxs x (Message.mem_fields_of_mem_sent hx)))

end Congruent

variable {m : Marshaller} {last last' : Message → Emission} {levels levels' : Nat} {msg : Message}
  {a b a' b' : Emission} {e : Error}

/-- What is done below the last level does not matter to a message that does not reach there. -/
theorem layered_eq (h : msg.height ≤ levels + 1) (h' : msg.height ≤ levels' + 1) :
    layered m last levels msg = layered m last' levels' msg := by
  have hequal : Congruent Eq := ⟨fun _ => rfl, fun ha hb => ha ▸ hb ▸ rfl⟩
  have hlowest {inner : Message} : ¬ inner.height ≤ 0 := Nat.not_le_of_gt inner.height_pos
  -- By levels: below the last one, on either side, there are no messages.
  induction levels generalizing levels' msg with
  | zero =>
    obtain ⟨type, fields⟩ := msg
    have hinner := Message.height_le.mp h
    cases levels' <;>
      exact hequal.ofBody m fun x hx inner hmem => absurd (hinner x hx inner hmem) hlowest
  | succ levels ih =>
    obtain ⟨type, fields⟩ := msg
    have hinner := Message.height_le.mp h
    have hinner' := Message.height_le.mp h'
    cases levels' with
    | zero =>
      exact hequal.ofBody m fun x hx inner hmem => absurd (hinner' x hx inner hmem) hlowest
    | succ levels' =>
      exact hequal.ofBody m fun x hx inner hmem =>
        ih (hinner x hx inner hmem) (hinner' x hx inner hmem)

/-! ## Where a message breaks off -/

theorem failure_of_each {α : Type} {f : α → Emission} {xs : List α}
    (h : (each f xs).failure = none) : ∀ x ∈ xs, (f x).failure = none := by
  induction xs with
  | nil => exact nofun
  | cons x xs ih =>
    obtain ⟨hx, hxs⟩ := failure_eq_none_of_andThen h
    exact List.forall_mem_cons.mpr ⟨hx, ih hxs⟩

theorem failure_of_ofItem {nested : Message → Emission} {x : Item}
    (h : (ofItem nested x).failure = none) :
    ∀ inner ∈ x.messages, (nested inner).failure = none := by
  cases x with
  | message inner => exact List.forall_mem_singleton.mpr h
  | _ => exact nofun

/-- A field that does not fail holds no message that does. -/
theorem failure_of_ofField {nested : Message → Emission} {x : Field}
    (h : (ofField nested m x).failure = none) :
    ∀ inner ∈ x.messages, (nested inner).failure = none := by
  intro inner hinner
  cases x with
  | message msg =>
    cases msg with
    | none => cases hinner
    | some msg => exact List.mem_singleton.mp hinner ▸ h
  | list items =>
    cases items with
    | none => cases hinner
    | some items =>
      obtain ⟨x, hx, hinner⟩ := List.mem_flatMap.mp hinner
      have hitems := (failure_eq_none_of_andThen h).2
      exact failure_of_ofItem (failure_of_each hitems x hx) inner hinner
  | map entries =>
    cases entries with
    | none => cases hinner
    | some entries =>
      obtain ⟨e, he, hinner⟩ := List.mem_flatMap.mp hinner
      have hentries := (failure_eq_none_of_andThen h).2
      obtain ⟨hkey, hvalue⟩ := failure_eq_none_of_andThen (failure_of_each hentries e he)
      rcases List.mem_append.mp hinner with hinner | hinner
      · exact failure_of_ofItem hkey inner hinner
      · exact failure_of_ofItem hvalue inner hinner
  | _ => cases hinner

theorem failure_of_ofBody {nested : Message → Emission} {type : UInt8} {fields : List Field}
    (h : (ofBody nested m (.mk type fields)).failure = none) :
    ∀ x ∈ fields, ∀ inner ∈ x.messages, (nested inner).failure = none := by
  have hfields := (failure_eq_none_of_andThen h).2
  intro x hx inner hinner
  exact failure_of_ofField (failure_of_each hfields x (Message.mem_sent hx hinner)) inner hinner

/-- A message that is written to its end is no higher than allowed. -/
theorem height_le_of_layered (hlast : ∀ inner, (last inner).failure ≠ none)
    (h : (layered m last levels msg).failure = none) : msg.height ≤ levels + 1 := by
  induction levels generalizing msg with
  | zero =>
    obtain ⟨type, fields⟩ := msg
    refine Message.height_le.mpr fun x hx inner hinner => ?_
    exact absurd (failure_of_ofBody h x hx inner hinner) (hlast inner)
  | succ levels ih =>
    obtain ⟨type, fields⟩ := msg
    refine Message.height_le.mpr fun x hx inner hinner => ?_
    exact ih (failure_of_ofBody h x hx inner hinner)

/-- Of an emission that does not fail, another one is all, or some of the bytes from the first one
on and then an error. -/
def Cuts (e : Error) (a b : Emission) : Prop :=
  b.failure = none → a = b ∨ a.failure = some e ∧ a.bytes <+: b.bytes

theorem congruent_cuts (e : Error) : Congruent (Cuts e) where
  refl a _ := .inl rfl
  andThen {a a' b b'} ha hb := by
    intro hok
    obtain ⟨ha', hb'⟩ := failure_eq_none_of_andThen hok
    rw [Cuts.eq_def] at *
    obtain rfl | ⟨hfailure, hprefix⟩ := ha ha'
    · rw [failure_andThen ha', bytes_andThen ha', bytes_andThen ha']
      obtain rfl | ⟨hfailure, hprefix⟩ := hb hb'
      · exact .inl rfl
      · exact .inr ⟨hfailure, (List.prefix_append_right_inj _).mpr hprefix⟩
    · rw [andThen_of_failure hfailure, bytes_andThen ha']
      exact .inr ⟨hfailure, hprefix.trans (List.prefix_append _ _)⟩

/-- Where less is allowed, a message is cut off in the same way as the first message in it that is
nested too deep. -/
theorem layered_cuts (hlast : ∀ inner levels, Cuts e (last inner) (layered m last' levels inner))
    (hlast' : ∀ inner, (last' inner).failure ≠ none) (levels levels' : Nat) (msg : Message) :
    Cuts e (layered m last levels msg) (layered m last' levels' msg) := by
  have hvacuous (a : Emission) (inner : Message) : Cuts e a (last' inner) :=
    fun hok => absurd hok (hlast' inner)
  induction levels generalizing levels' msg with
  | zero =>
    obtain ⟨type, fields⟩ := msg
    cases levels' with
    | zero => exact (congruent_cuts e).ofBody m fun _ _ inner _ => hvacuous _ inner
    | succ levels' => exact (congruent_cuts e).ofBody m fun _ _ inner _ => hlast inner levels'
  | succ levels ih =>
    obtain ⟨type, fields⟩ := msg
    cases levels' with
    | zero => exact (congruent_cuts e).ofBody m fun _ _ inner _ => hvacuous _ inner
    | succ levels' => exact (congruent_cuts e).ofBody m fun _ _ inner _ => ih levels' inner

theorem failed_cuts (e : Error) (b : Emission) : Cuts e (failed e) b :=
  fun _ => .inr ⟨rfl, List.nil_prefix⟩

theorem cutOff_cuts (depth : Nat) (inner : Message) (levels : Nat) :
    Cuts (.messageNesting depth) (cutOff depth inner) (layered m last levels inner) := by
  have hcuts := congruent_cuts (.messageNesting depth)
  cases levels <;> exact hcuts.andThen (hcuts.refl _) (failed_cuts _ _)

/-- A message that is higher than allowed is cut off. -/
theorem layered_of_lt_height
    (hlast : ∀ inner levels, Cuts e (last inner) (layered m last' levels inner))
    (hfails : ∀ inner, (last inner).failure ≠ none)
    (hfails' : ∀ inner, (last' inner).failure ≠ none)
    (hok : (layered m last' levels' msg).failure = none) (h : levels + 1 < msg.height) :
    (layered m last levels msg).failure = some e ∧
      (layered m last levels msg).bytes <+: (layered m last' levels' msg).bytes := by
  obtain hsame | hcut := layered_cuts hlast hfails' levels levels' msg hok
  · rw [← hsame] at hok
    exact absurd (height_le_of_layered hfails hok) (Nat.not_le_of_gt h)
  · exact hcut

end Emission

end WireCodec
