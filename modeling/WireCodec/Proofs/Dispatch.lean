import WireCodec.Proofs.Reading.Messages
import WireCodec.Proofs.Writing.Filling

/-!
# Messages of one type and of any

A field or a list holds messages of a type that it names, or messages of any type, which the reader
looks up by their type bytes. Where a type is registered under its own byte and that byte is met,
both come to the same (`messages_of_one_type_or_any`): in how they are written, and in how they are
read from a stream that is cut in any way (`Read.feed`).
-/

namespace WireCodec

theorem Reader.extend_append (r : Reader) (as bs : Bytes) :
    r.extend 0 (as ++ bs) = (r.extend 0 as).extend 0 bs := by
  simp [extend, ReadCursor.extend]

/-- The message that is next, if there is one, is of one of these types: where nothing is set aside,
the first of the bytes that are there and of those ahead is one of the type bytes, and a message
that is set aside began with one of them. -/
structure Reader.Faces (types : List UInt8) (ahead : Bytes) (r : Reader) : Prop where
  begins : r.stack.current.progress.parked = none →
    ∀ b ∈ (r.cursor.rest ++ ahead).head?, b ∈ types
  aside : ∀ s, r.stack.current.progress.parked = some (.message s) →
    s.type ∈ types ∧ s.type ≠ Message.nullType

/-- A message of this type is next. It is set aside, or begins here. -/
def Reader.Enters (s : Schema) (r : Reader) : Prop :=
  r.stack.current.progress.parked = some (.message s) ∨ r.stack.current.progress.parked = none ∧
    s.type ≠ Message.nullType ∧ r.cursor.rest.head? = some s.type

namespace Reader.Faces

variable {types : List UInt8} {as bs : Bytes} {r : Reader} {s : Schema}

theorem append_iff : r.Faces types (as ++ bs) ↔ (r.extend 0 as).Faces types bs := by
  have hrest : (r.extend 0 as).cursor.rest ++ bs = r.cursor.rest ++ (as ++ bs) := by
    rw [extend_cursor, ReadCursor.extend, List.append_assoc]
  refine ⟨fun h => ⟨fun hp => ?_, h.aside⟩, fun h => ⟨fun hp => ?_, h.aside⟩⟩
  · rw [hrest]
    exact h.begins hp
  · rw [← hrest]
    exact h.begins hp

theorem extend_iff : (r.extend 0 bs).Faces types [] ↔ r.Faces types bs := by
  rw [← append_iff, List.append_nil]

/-- What begins with the bytes that are there begins with them. -/
theorem now (h : r.Faces types bs) : r.Faces types [] := by
  refine ⟨fun hp b hb => h.begins hp b ?_, h.aside⟩
  rw [List.append_nil] at hb
  rw [List.head?_append, hb]
  rfl

theorem mem_of_enters (h : r.Faces types bs) (hs : r.Enters s) :
    s.type ∈ types ∧ s.type ≠ Message.nullType := by
  obtain hp | ⟨hp, hnull, hhead⟩ := hs
  · exact h.aside s hp
  · refine ⟨h.begins hp _ ?_, hnull⟩
    rw [List.head?_append, hhead]
    rfl

end Reader.Faces

namespace Read

open Step

/-! ## Streams in chunks -/

section

variable {α : Type} {p q : Read α}

/-- Takes a routine with the chunks of a stream one after the other, each of them behind the bytes
that those before it have left, until it ends. -/
def feed (p : Read α) : List Bytes → Read α
  | [] => throw .suspended
  | bs :: chunks => fun r =>
    match p (r.extend 0 bs) with
    | .ok x r' => .ok x r'
    | .error (.failed e) r' => .error (.failed e) r'
    | .error .suspended r' => feed p chunks r'

/-- Routines do the same with a stream if they do the same with each chunk as long as something
holds that lasts from chunk to chunk. -/
theorem feed_congr {P : List Bytes → Reader → Prop}
    (hsame : ∀ {bs chunks r}, P (bs :: chunks) r → p (r.extend 0 bs) = q (r.extend 0 bs))
    (hnext : ∀ {bs chunks r r'}, P (bs :: chunks) r →
      p (r.extend 0 bs) = .error .suspended r' → P chunks r')
    {chunks : List Bytes} {r : Reader} (h : P chunks r) : feed p chunks r = feed q chunks r := by
  induction chunks generalizing r with
  | nil => rfl
  | cons bs chunks ih =>
    simp only [feed, ← hsame h]
    cases hp : p (r.extend 0 bs) with
    | ok x r' => rfl
    | error stop r' =>
      cases stop with
      | failed e => rfl
      | suspended => exact ih (hnext h hp)

end

/-! ## Messages one level down -/

/-- Reads a message nested in one that may have messages nested in it to a depth of `levels`. -/
def below (ctx : ReadContext) : (levels : Nat) → Schema → Read Message
  | 0, _ => fail (.messageNesting ctx.marshaller.config.maxNestingDepth)
  | levels + 1, s => descend (root ctx levels) s

theorem root_eq (ctx : ReadContext) (levels : Nat) (s : Schema) :
    root ctx levels s = body ctx (below ctx levels) s := by
  cases levels <;> rfl

theorem readsMessages_below {ctx : ReadContext} (hctx : ctx.Steady) (levels : Nat) :
    ReadsMessages (below ctx levels) := by
  cases levels with
  | zero => exact readsMessages_fail _
  | succ levels => exact readsMessages_root hctx levels

/-- A nested message that stops for want of bytes is set aside. -/
theorem parked_of_below {ctx : ReadContext} {levels : Nat} {s : Schema} {r r' : Reader}
    (h : below ctx levels s r = .error .suspended r') :
    r'.stack.current.progress.parked = some (.message s) := by
  cases levels with
  | zero => cases h
  | succ levels =>
    rw [below, descend_apply] at h
    cases hread : root ctx levels s r.down with
    | ok m r₁ => rw [hread] at h; cases h
    | error stop r₁ =>
      rw [hread] at h
      cases stop with
      | failed e => cases h
      | suspended =>
        cases h
        rfl

section

variable {ctx : ReadContext} {nested : Schema → Read Message} {levels n : Nat} {t : UInt8}
  {wanted : Option UInt8} {types : List UInt8} {bs : Bytes} {r r' : Reader}

theorem typedMessage_any (hfactory : ctx.factories.find? t = some (ctx.catalog.schema t))
    {type : UInt8} (h : type ∈ [Message.nullType, t]) :
    typedMessage ctx nested (some t) type = typedMessage ctx nested none type := by
  unfold typedMessage
  split
  · rfl
  · next hnull =>
    obtain rfl : type = t := by simpa [hnull] using h
    simp only [schemaFor, hfactory, if_true]

theorem byte_apply (r : Reader) : byte r = match r.cursor.rest with
    | [] => .error .suspended r
    | b :: rest => .ok b { r with cursor := ⟨r.cursor.position + 1, rest⟩ } := by
  obtain ⟨stack, position, rest⟩ := r
  cases rest with
  | nil => rfl
  | cons b rest =>
    have hdecode : UInt8.ofBitVec (Primitive.decode (.int .w8 .unsigned) [b]) = b := by
      simp [Primitive.decode, LittleEndian.ofBytes, Width.size]
    exact congrArg (fun b => EStateM.Result.ok b _) hdecode

/-- A message of which nothing is set aside is read from its type byte on. -/
theorem message_of_unparked (wanted : Option UInt8)
    (hp : r.stack.current.progress.parked = none) :
    message ctx nested wanted r = freshMessage ctx nested wanted r := by
  rw [message_apply, hp, Reader.unpark_eq_self hp]

theorem parkedMessage_any {s : Schema} (h : s.type = t) :
    parkedMessage nested (some t) s = parkedMessage nested none s := by
  have ht : (t == s.type) = true := beq_iff_eq.mpr h.symm
  exact if_pos ht

/-- Whether a message of this type is asked for or any message, the same is read. -/
theorem message_any (hfactory : ctx.factories.find? t = some (ctx.catalog.schema t))
    (h : r.Faces [Message.nullType, t] []) :
    message ctx nested (some t) r = message ctx nested none r := by
  rcases hp : r.stack.current.progress.parked with _ | ⟨u⟩ | ⟨s⟩
  · rw [message_of_unparked _ hp, message_of_unparked _ hp, freshMessage, freshMessage, bind_apply,
      bind_apply, byte_apply]
    cases hrest : r.cursor.rest with
    | nil => rfl
    | cons type rest =>
      have htype : type ∈ [Message.nullType, t] := h.begins hp type (by rw [hrest]; rfl)
      exact congrFun (typedMessage_any hfactory htype) _
  · rw [message_apply, message_apply, hp]
  · obtain ⟨htype, hnull⟩ := h.aside s hp
    rw [message_apply, message_apply, hp]
    exact congrFun (parkedMessage_any (by simpa [hnull] using htype)) _

variable (ctx nested wanted) in
/-- Past a type byte, a message is refused or read. -/
theorem typedMessage_of_ne {type : UInt8} (h : type ≠ Message.nullType) :
    (∃ e, typedMessage ctx nested wanted type = fail e) ∨
      ∃ s : Schema, s.type = type ∧ typedMessage ctx nested wanted type = some <$> nested s := by
  rw [typedMessage, if_neg h]
  cases wanted with
  | some t =>
    by_cases ht : t = type
    · exact .inr ⟨ctx.catalog.schema t, ht, by simp only [schemaFor, if_pos ht]; rfl⟩
    · exact .inl ⟨.otherMessage t type, by simp only [schemaFor, if_neg ht]; rfl⟩
  | none =>
    cases hfind : ctx.factories.find? type with
    | some s =>
      have hs : s.type = type := by simpa using List.find?_some hfind
      exact .inr ⟨s, hs, by simp only [schemaFor, hfind]; rfl⟩
    | none => exact .inl ⟨.noFactory type, by simp only [schemaFor, hfind]; rfl⟩

variable (ctx nested wanted) in
/-- What reading a message comes to: nothing is there of it, it is absent, it is refused, or it is
read past its type byte. -/
theorem message_cases (r : Reader) :
    (message ctx nested wanted r = .error .suspended r) ∨
    (r.stack.current.progress.parked = none ∧ r.cursor.rest.head? = some Message.nullType ∧
      ∃ r', message ctx nested wanted r = .ok none r') ∨
    (∃ e r', message ctx nested wanted r = .error (.failed e) r') ∨
    ∃ s r₁, r.Enters s ∧ message ctx nested wanted r = (some <$> nested s) r₁ := by
  rcases hp : r.stack.current.progress.parked with _ | ⟨u⟩ | ⟨s⟩
  · rw [message_of_unparked wanted hp, freshMessage, bind_apply, byte_apply]
    cases hrest : r.cursor.rest with
    | nil => exact .inl rfl
    | cons type rest =>
      by_cases hnull : type = Message.nullType
      · exact .inr (.inl ⟨rfl, congrArg some hnull, _, congrFun (if_pos hnull) _⟩)
      · rcases typedMessage_of_ne ctx nested wanted hnull with ⟨e, he⟩ | ⟨s, rfl, hs⟩
        · exact .inr (.inr (.inl ⟨e, _, congrFun he _⟩))
        · have henters : r.Enters s := .inr ⟨hp, hnull, by rw [hrest, List.head?_cons]⟩
          exact .inr (.inr (.inr ⟨s, _, henters, congrFun hs _⟩))
  · exact .inr (.inr (.inl ⟨.unexpectedProgress, r.unpark, by rw [message_apply, hp]; rfl⟩))
  · have hrun : message ctx nested wanted r = parkedMessage nested wanted s r.unpark := by
      rw [message_apply, hp]
    by_cases ht : wanted.all (· == s.type) = true
    · exact .inr (.inr (.inr ⟨s, r.unpark, .inl hp, hrun.trans (congrFun (if_pos ht) _)⟩))
    · refine .inr (.inr (.inl ⟨.unexpectedProgress, r.unpark, ?_⟩))
      exact hrun.trans (congrFun (if_neg ht) _)

theorem map_some_ne_none {α : Type} {p : Read α} : (some <$> p) r ≠ .ok none r' := by
  rw [map_eq_pure_bind, bind_apply]
  cases p r <;> intro h <;> cases h

/-- Where a message begins with a type byte, it is not absent. -/
theorem message_ne_none (ht : t ≠ Message.nullType) (h : r.Faces [t] []) :
    message ctx nested wanted r ≠ .ok none r' := by
  rcases message_cases ctx nested wanted r with
    hrun | ⟨hp, hnull, -⟩ | ⟨e, r₁, hrun⟩ | ⟨s, r₁, -, hrun⟩
  · rw [hrun]
    intro h
    cases h
  · have hmem : Message.nullType ∈ [t] := h.begins hp _ (by rw [List.append_nil, hnull]; rfl)
    exact absurd (List.mem_singleton.mp hmem).symm ht
  · rw [hrun]
    intro h
    cases h
  · rw [hrun]
    exact map_some_ne_none

/-- A message that stops has not begun, or is set aside with the type that it began with. -/
theorem faces_of_message (h : message ctx (below ctx levels) wanted r = .error .suspended r')
    (hr : r.Faces types bs) : r'.Faces types bs := by
  rcases message_cases ctx (below ctx levels) wanted r with
    hrun | ⟨-, -, r₁, hrun⟩ | ⟨e, r₁, hrun⟩ | ⟨s, r₁, henters, hrun⟩
  · rw [hrun] at h
    cases h
    exact hr
  · rw [hrun] at h
    cases h
  · rw [hrun] at h
    cases h
  · rw [hrun] at h
    have hparked := parked_of_below (error_of_map h)
    refine ⟨fun hp => ?_, fun s' hp => ?_⟩
    · rw [hparked] at hp
      cases hp
    · rw [hparked] at hp
      cases hp
      exact hr.mem_of_enters henters

/-! ## Lists -/

/-- So many more items begin with this type byte, as far as they are there. -/
def Uniform (step : Read Unit) (t : UInt8) : (items : Nat) → Reader → Prop
  | 0, _ => True
  | items + 1, r => r.Faces [t] [] ∧ ∀ r', step r = .ok () r' → Uniform step t items r'

theorem item_any (ht : t ≠ Message.nullType)
    (hfactory : ctx.factories.find? t = some (ctx.catalog.schema t)) (h : r.Faces [t] []) :
    item ctx nested (.message (some t)) r = item ctx nested (.message none) r := by
  have hsame : message ctx nested (some t) r = message ctx nested none r :=
    message_any hfactory
      ⟨fun hp b hb => List.mem_cons_of_mem _ (h.begins hp b hb), fun s hp =>
        (h.aside s hp).imp_left (List.mem_cons_of_mem _)⟩
  simp only [item]
  rw [bind_apply, bind_apply, hsame]
  cases hm : message ctx nested none r with
  | error e r' => rfl
  | ok m r' =>
    cases m with
    | some m => rfl
    | none => exact absurd hm (message_ne_none ht h)

/-- Reads the next message of a list, of a type or of any. -/
def messageStep (ctx : ReadContext) (nested : Schema → Read Message) (wanted : Option UInt8) :
    Read Unit :=
  counting (listStep ctx nested (.message wanted))

theorem messageStep_any (ht : t ≠ Message.nullType)
    (hfactory : ctx.factories.find? t = some (ctx.catalog.schema t)) (h : r.Faces [t] []) :
    messageStep ctx nested (some t) r = messageStep ctx nested none r := by
  -- a list remembers of its items that they are messages, not of which type
  have hpush (x : Item) : pushItem (.message (some t)) x = pushItem (.message none) x := rfl
  simp only [messageStep, counting, listStep, bind_assoc, hpush]
  rw [bind_apply, bind_apply, item_any ht hfactory h]

theorem repeated_any (ht : t ≠ Message.nullType)
    (hfactory : ctx.factories.find? t = some (ctx.catalog.schema t))
    (h : Uniform (messageStep ctx nested (some t)) t n r) :
    repeated (messageStep ctx nested (some t)) n r =
      repeated (messageStep ctx nested none) n r := by
  induction n generalizing r with
  | zero => rfl
  | succ n ih =>
    obtain ⟨hface, hrest⟩ := h
    rw [repeated, repeated, bind_apply, bind_apply, ← messageStep_any ht hfactory hface]
    cases hs : messageStep ctx nested (some t) r with
    | ok u r' => exact ih (hrest r' hs)
    | error e r' => rfl

/-- A list that is read on from here is not null, and its items begin with this type byte, as far as
they are there. -/
structure ListOf (ctx : ReadContext) (nested : Schema → Read Message) (t : UInt8) (r : Reader) :
    Prop where
  counted : r.stack.current.progress.started = true → Uniform (messageStep ctx nested (some t)) t
    (r.stack.current.progress.expected - r.stack.current.progress.index) r
  uncounted : ¬ r.stack.current.progress.started = true → ∀ count r',
    length ctx.marshaller.config.maxArrayLength r = .ok count r' →
      ∃ n, count = some n ∧ Uniform (messageStep ctx nested (some t)) t
        (n - r.stack.current.progress.index) (r'.begun (.ofItems (.message none)) n)

theorem list_messages (wanted : Option UInt8) : list ctx nested (.message wanted) =
    container ctx.marshaller.config.maxArrayLength (.ofItems (.message none))
      (messageStep ctx nested wanted) (finishItems (.message none)) :=
  list_eq _

theorem remainder_any (ht : t ≠ Message.nullType)
    (hfactory : ctx.factories.find? t = some (ctx.catalog.schema t))
    (h : Uniform (messageStep ctx nested (some t)) t
      (r.stack.current.progress.expected - r.stack.current.progress.index) r) :
    remainder (messageStep ctx nested (some t)) (finishItems (.message none)) r =
      remainder (messageStep ctx nested none) (finishItems (.message none)) r := by
  rw [remainder, remainder, progress_bind, progress_bind, bind_apply, bind_apply,
    repeated_any ht hfactory h]

theorem remainder_ne_none {β : Type} {step : Read Unit} {finish : Read β} :
    remainder step finish r ≠ .ok none r' := by
  intro h
  rw [remainder, progress_bind] at h
  obtain ⟨u, r₁, -, h⟩ := ok_of_bind h
  exact map_some_ne_none h

namespace ListOf

/-- Such a list comes to its items, or fails or stops before them. -/
theorem list_cases (h : ListOf ctx nested t r) :
    (∃ r₁, Uniform (messageStep ctx nested (some t)) t
        (r₁.stack.current.progress.expected - r₁.stack.current.progress.index) r₁ ∧
      ∀ wanted, list ctx nested (.message wanted) r =
        remainder (messageStep ctx nested wanted) (finishItems (.message none)) r₁) ∨
    ∃ stop r₁, ∀ wanted, list ctx nested (.message wanted) r = .error stop r₁ := by
  by_cases hd : r.stack.current.progress.started = true
  · exact .inl ⟨r, h.counted hd, fun _ => by rw [list_messages, container_of_started hd]⟩
  · cases hl : length ctx.marshaller.config.maxArrayLength r with
    | error stop r₁ =>
      refine .inr ⟨stop, r₁, fun _ => ?_⟩
      rw [list_messages, container_of_not_started hd, bind_error hl]
    | ok count r₁ =>
      obtain ⟨n, rfl, hitems⟩ := h.uncounted hd count r₁ hl
      have hstack : r₁.stack = r.stack := (resumable_length _).frame.ok hl
      refine .inl ⟨r₁.begun (.ofItems (.message none)) n, ?_, fun _ => ?_⟩
      · rw [← hstack] at hitems
        exact hitems
      · rw [list_messages, container_of_not_started hd, bind_ok hl]
        rfl

theorem list_any (ht : t ≠ Message.nullType)
    (hfactory : ctx.factories.find? t = some (ctx.catalog.schema t))
    (h : ListOf ctx nested t r) :
    list ctx nested (.message (some t)) r = list ctx nested (.message none) r := by
  rcases h.list_cases with ⟨r₁, hitems, hlist⟩ | ⟨stop, r₁, hlist⟩
  · rw [hlist, hlist, remainder_any ht hfactory hitems]
  · rw [hlist, hlist]

theorem list_ne_none (h : ListOf ctx nested t r) :
    list ctx nested (.message wanted) r ≠ .ok none r' := by
  rcases h.list_cases with ⟨r₁, -, hlist⟩ | ⟨stop, r₁, hlist⟩
  · rw [hlist]
    exact remainder_ne_none
  · rw [hlist]
    intro h
    cases h

/-- A list that is there is the same field whatever is made of an absent one. -/
theorem field_any (ht : t ≠ Message.nullType)
    (hfactory : ctx.factories.find? t = some (ctx.catalog.schema t))
    (h : ListOf ctx nested t r) (a b : Absence) :
    field ctx nested (.list (.message (some t)) a) r =
      field ctx nested (.list (.message none) b) r := by
  simp only [field]
  rw [bind_apply, bind_apply, h.list_any ht hfactory]
  cases hl : list ctx nested (.message none) r with
  | error stop r' => rfl
  | ok xs r' =>
    cases xs with
    | none => exact absurd hl h.list_ne_none
    | some xs => cases a <;> cases b <;> rfl

end ListOf

/-- With each chunk of a stream, a list is read on that is not null and whose items begin with this
type byte. -/
def ListOver (ctx : ReadContext) (nested : Schema → Read Message) (t : UInt8) :
    List Bytes → Reader → Prop
  | [], _ => True
  | bs :: chunks, r => ListOf ctx nested t (r.extend 0 bs) ∧ ∀ r',
    list ctx nested (.message (some t)) (r.extend 0 bs) = .error .suspended r' →
      ListOver ctx nested t chunks r'

/-- A list stops where its items do. -/
theorem list_of_field {a : Absence} {kind : ItemKind}
    (h : field ctx nested (.list kind a) r = .error .suspended r') :
    list ctx nested kind r = .error .suspended r' :=
  suspended_of_bind (fun xs => (settled_absence (f := id) .array a xs).settles.map _) h

/-! ## Lists whatever the chunks -/

namespace Uniform

variable {step : Read Unit} {bs : Bytes}

/-- Fewer bytes hold no more items. -/
theorem of_extend (hstep : Extends step) (hr : r.Steady) (h : Uniform step t n (r.extend 0 bs)) :
    Uniform step t n r := by
  induction n generalizing r with
  | zero => trivial
  | succ n ih =>
    obtain ⟨hface, hrest⟩ := h
    refine ⟨(Reader.Faces.extend_iff.mp hface).now, fun r' hs => ?_⟩
    obtain ⟨hr', he⟩ := ok_extend hstep hr hs
    exact ih hr' (hrest _ (he 0 bs))

/-- Where items stopped, those that are left begin with the type byte as well. -/
theorem of_suspended (hstep : Counts step)
    (hfaces : ∀ {r r'}, step r = .error .suspended r' → r.Faces [t] bs → r'.Faces [t] bs)
    (hr : r.Steady) (h : Uniform step t n (r.extend 0 bs))
    (hs : repeated step n r = .error .suspended r') :
    ∃ j, r'.counts 0 = r.counts j ∧ Uniform step t (n - j) (r'.extend 0 bs) := by
  induction n generalizing r with
  | zero => cases hs
  | succ n ih =>
    obtain ⟨hface, hrest⟩ := h
    rw [repeated, bind_apply] at hs
    cases h₁ : step r with
    | error e r₁ =>
      rw [h₁] at hs
      cases hs
      refine ⟨0, hstep.paused h₁, ?_, fun r'' hs => ?_⟩
      · rw [Reader.Faces.extend_iff] at hface ⊢
        exact hfaces h₁ hface
      · rw [← resume_extend hstep.resumption hr h₁ bs] at hs
        exact hrest r'' hs
    | ok u r₁ =>
      obtain ⟨hr₁, he⟩ := ok_extend hstep.extension hr h₁
      rw [h₁] at hs
      obtain ⟨j, hj, hleft⟩ := ih hr₁ (hrest _ (he 0 bs)) hs
      refine ⟨1 + j, hj.trans (Reader.counts_add (hstep.counted h₁) j), ?_⟩
      rwa [Nat.add_comm n 1, Nat.add_sub_add_left]

end Uniform

theorem counts_messageStep (hctx : ctx.Steady) (levels : Nat) (wanted : Option UInt8) :
    Counts (messageStep ctx (below ctx levels) wanted) :=
  counts_listStep hctx (readsMessages_below hctx levels) _

theorem faces_of_messageStep
    (h : messageStep ctx (below ctx levels) wanted r = .error .suspended r')
    (hr : r.Faces types bs) : r'.Faces types bs := by
  have hlead := suspended_of_bind (fun _ => (settled_itemDone).settles) h
  have hitem := suspended_of_bind (fun x => (settled_pushItem _ x).settles) hlead
  refine faces_of_message (suspended_of_bind (fun m => ?_) hitem) hr
  cases m with
  | some m => exact .pure _
  | none => exact .fail _

namespace ListOf

variable {bs : Bytes}

theorem of_extend (hctx : ctx.Steady) (hr : r.Steady)
    (h : ListOf ctx (below ctx levels) t (r.extend 0 bs)) : ListOf ctx (below ctx levels) t r := by
  have hstep := (counts_messageStep hctx levels (some t)).extension
  refine ⟨fun hd => (h.counted hd).of_extend hstep hr, fun hd count r₁ hl => ?_⟩
  obtain ⟨hr₁, he⟩ := ok_extend (resumable_length _).extension hr hl
  obtain ⟨n, hcount, hitems⟩ := h.uncounted hd count _ (he 0 bs)
  exact ⟨n, hcount, Uniform.of_extend hstep hr₁.begun hitems⟩

/-- Where the items stopped, the list is counted and the others are left. -/
theorem of_remainder (hctx : ctx.Steady) (hr : r.Steady)
    (hd : r.stack.current.progress.started = true)
    (hitems : Uniform (messageStep ctx (below ctx levels) (some t)) t
      (r.stack.current.progress.expected - r.stack.current.progress.index) (r.extend 0 bs))
    (hs : remainder (messageStep ctx (below ctx levels) (some t)) (finishItems (.message none)) r =
      .error .suspended r') : ListOf ctx (below ctx levels) t (r'.extend 0 bs) := by
  have hstep := counts_messageStep hctx levels (some t)
  have hs := suspended_of_bind (fun _ => (settled_finishItems _).settles.map some) hs
  obtain ⟨j, hj, hleft⟩ := hitems.of_suspended hstep faces_of_messageStep hr hs
  simp only [Reader.counts, Prod.mk.injEq, Nat.add_zero] at hj
  obtain ⟨hstarted, hexpected, hindex⟩ := hj
  refine ⟨fun _ => ?_, fun hd' => absurd (hstarted.trans hd) hd'⟩
  rwa [Reader.extend_stack, hexpected, hindex, Nat.sub_add_eq]

/-- Where a list stopped, what is left of it is such a list as well. -/
theorem of_suspended (hctx : ctx.Steady) (hr : r.Steady)
    (h : ListOf ctx (below ctx levels) t (r.extend 0 bs))
    (hs : list ctx (below ctx levels) (.message (some t)) r = .error .suspended r') :
    ListOf ctx (below ctx levels) t (r'.extend 0 bs) := by
  rw [list_messages] at hs
  by_cases hd : r.stack.current.progress.started = true
  · rw [container_of_started hd] at hs
    exact of_remainder hctx hr hd (h.counted hd) hs
  · rw [container_of_not_started hd] at hs
    cases hl : length ctx.marshaller.config.maxArrayLength r with
    | error stop r₁ =>
      rw [bind_error hl] at hs
      cases hs
      rw [still_length _ r r' hl]
      exact h
    | ok count r₁ =>
      obtain ⟨hr₁, he⟩ := ok_extend (resumable_length _).extension hr hl
      have hstack : r₁.stack = r.stack := (resumable_length _).frame.ok hl
      obtain ⟨n, rfl, hitems⟩ := h.uncounted hd count _ (he 0 bs)
      rw [bind_ok hl] at hs
      refine of_remainder hctx hr₁.begun rfl ?_ hs
      rw [Reader.extend_stack, ← hstack] at hitems
      exact hitems

end ListOf

/-- Where no message tells how many bytes are left, it is a property of the stream, whatever its
chunks, that its list is not null and holds messages of a type. -/
theorem listOver_of_flatten (hctx : ctx.Steady) (chunks : List Bytes) (hr : r.Steady)
    (h : ListOf ctx (below ctx levels) t (r.extend 0 chunks.flatten)) :
    ListOver ctx (below ctx levels) t chunks r := by
  induction chunks generalizing r with
  | nil => trivial
  | cons bs chunks ih =>
    rw [List.flatten_cons, Reader.extend_append] at h
    have hr₁ : (r.extend 0 bs).Steady := hr
    refine ⟨h.of_extend hctx hr₁, fun r' hs => ?_⟩
    have hext := (resumable_list hctx (readsMessages_below hctx levels)
      (.message (some t))).extension
    exact ih (suspended_extend hext hr₁ hs).1 (h.of_suspended hctx hr₁ hs)

/-! ## Streams -/

/-- Whether a field is for messages of this type or of any, it reads the same from a stream in which
this type byte, or that of the null message, is next. -/
theorem feed_message (hfactory : ctx.factories.find? t = some (ctx.catalog.schema t))
    {chunks : List Bytes} (h : r.Faces [Message.nullType, t] chunks.flatten) :
    feed (field ctx (below ctx levels) (.message (some t))) chunks r =
      feed (field ctx (below ctx levels) (.message none)) chunks r := by
  refine feed_congr (P := fun chunks r => r.Faces [Message.nullType, t] chunks.flatten)
    (fun h => ?_) (fun h hs => ?_) h
  · rw [List.flatten_cons, Reader.Faces.append_iff] at h
    exact map_congr Field.message (message_any hfactory h.now)
  · rw [List.flatten_cons, Reader.Faces.append_iff] at h
    exact faces_of_message (error_of_map hs) h

/-- Whether a list is for messages of this type or of any, it reads the same from a stream in which
it is not null and this type byte begins each of its items. -/
theorem feed_messages (ht : t ≠ Message.nullType)
    (hfactory : ctx.factories.find? t = some (ctx.catalog.schema t)) {chunks : List Bytes}
    (h : ListOver ctx (below ctx levels) t chunks r) (a b : Absence) :
    feed (field ctx (below ctx levels) (.list (.message (some t)) a)) chunks r =
      feed (field ctx (below ctx levels) (.list (.message none) b)) chunks r :=
  feed_congr (P := ListOver ctx (below ctx levels) t)
    (fun h => h.1.field_any ht hfactory a b) (fun h hs => h.2 _ (list_of_field hs)) h

end

end Read

/-- Where a type of messages is registered under its own byte, which is never that of the null
message, it makes no difference whether a field or a list names the type or is for messages of any.

* A writer is handed the message alone. A message, or none, fills all buffers alike, whichever
  message its field belongs to, with bytes that begin with the type byte or that of the null
  message.
* A field is read as the same message, absence, wait or error, and after the same bytes, from any
  stream in which one of these two bytes is next, however it is cut into chunks.
* So is a list, whatever is made of an absent one, from any stream in which it is not null and its
  items begin with the type byte.
* Unless messages tell how many bytes are left, this last condition is one on the stream alone. -/
theorem messages_of_one_type_or_any {ctx : ReadContext} {t : UInt8} (ht : t ≠ Message.nullType)
    (hfactory : ctx.factories.find? t = some (ctx.catalog.schema t)) (levels : Nat) :
    (∀ (m : Marshaller) (x : Option Message), (∀ msg ∈ x, msg.Steady) →
      ∀ (above above' : List WriteFrame) (n n' : Nat) (s s' : FrameStack WriteFrame),
        s.At above (Write.bodyFrame n) → s'.At above' (Write.bodyFrame n') →
        ∀ capacities,
          let segments := Segment.ofField (Segment.ofNested m.config levels) (.message x)
          let run := Write.fill (Write.putField (Write.below m levels) m (.message x)) capacities
          run s = run s' ∧
            WriteSession.Delivers segments (Segment.emission m segments) (run s).1.flatten
              (run s).2 ∧
            ∀ type, (∀ msg ∈ x, msg.type = type) →
              ∀ b ∈ (run s).1.flatten.head?, b ∈ [Message.nullType, type]) ∧
    (∀ (chunks : List Bytes) (r : Reader), r.Faces [Message.nullType, t] chunks.flatten →
      Read.feed (Read.field ctx (Read.below ctx levels) (.message (some t))) chunks r =
        Read.feed (Read.field ctx (Read.below ctx levels) (.message none)) chunks r) ∧
    (∀ (chunks : List Bytes) (r : Reader) (a : Absence),
      Read.ListOver ctx (Read.below ctx levels) t chunks r →
      Read.feed (Read.field ctx (Read.below ctx levels) (.list (.message (some t)) .emptied))
          chunks r =
        Read.feed (Read.field ctx (Read.below ctx levels) (.list (.message none) a)) chunks r) ∧
    (ctx.Steady → ∀ (chunks : List Bytes) (r : Reader), r.Steady →
      Read.ListOf ctx (Read.below ctx levels) t (r.extend 0 chunks.flatten) →
      Read.ListOver ctx (Read.below ctx levels) t chunks r) := by
  refine ⟨fun m x hx _ _ _ _ s s' hs hs' => Write.fill_message m levels hx hs hs', ?_, ?_, ?_⟩
  · exact fun chunks r h => Read.feed_message hfactory h
  · exact fun chunks r a h => Read.feed_messages ht hfactory h .emptied a
  · exact fun hctx chunks r hr h => Read.listOver_of_flatten hctx chunks hr h

/-- A message that is written into four buffers and read from three chunks, and a list of two of its
type that is read from three more. -/
theorem messages_of_one_type_or_any_in_chunks :
    let ctx : ReadContext := ⟨default, fun _ => [.bytes false], ⟨[⟨41, [.bytes false]⟩]⟩⟩
    let msg : Message := .mk 41 [.bytes (some [5, 6])]
    let message : List Bytes := [[41], [2, 0, 0, 0, 5], [6]]
    let list : List Bytes := [[2, 0, 0, 0, 41], [1, 0, 0, 0, 7, 41], [0, 0, 0, 0]]
    let fresh : Reader := ⟨.empty, .ofBytes []⟩
    let first : FrameStack WriteFrame := ⟨[], Write.bodyFrame 0, []⟩
    let third : FrameStack WriteFrame := ⟨[default], Write.bodyFrame 2, [default]⟩
    let write := Write.fill (Write.putField (Write.below default 1) default (.message (some msg)))
      [0, 1, 5, 9]
    let read (kind : FieldKind) := Read.feed (Read.field ctx (Read.below ctx 1) kind)
    41 ≠ Message.nullType ∧ ctx.factories.find? 41 = some (ctx.catalog.schema 41) ∧
      write first = write third ∧ (write first).1.flatten = [41, 2, 0, 0, 0, 5, 6] ∧
      read (.message (some 41)) message fresh = read (.message none) message fresh ∧
      read (.list (.message (some 41)) .emptied) list fresh =
        read (.list (.message none) .refused) list fresh := by
  intro ctx msg message list fresh first third write read
  have hnull : (41 : UInt8) ≠ Message.nullType := by decide
  have hfactory : ctx.factories.find? 41 = some (ctx.catalog.schema 41) := rfl
  have hmsg : msg.Steady := .mk (by simp) (by simp [Field.messages])
  obtain ⟨hwrite, hfield, hlist, hwhole⟩ := messages_of_one_type_or_any hnull hfactory 1
  have hfirst : first.At [] (Write.bodyFrame 0) := ⟨rfl, rfl, by simp [first, FrameStack.Cleared]⟩
  have hthird : third.At [default] (Write.bodyFrame 2) :=
    ⟨rfl, rfl, by simp [third, FrameStack.Cleared]⟩
  have hface : fresh.Faces [Message.nullType, 41] message.flatten := by
    refine ⟨fun _ b hb => ?_, fun s hs => (by cases hs)⟩
    obtain rfl : 41 = b := Option.some.inj hb
    decide
  have hctx : ctx.Steady :=
    ⟨by simp [ctx, Schema.Steady, Catalog.schema], by simp [ctx, Schema.Steady]⟩
  have hfresh : fresh.Steady := FrameStack.All.reset (s := .empty) ReadFrame.steady_default
  have hitems : Read.ListOf ctx (Read.below ctx 1) 41 (fresh.extend 0 list.flatten) := by
    refine ⟨fun h => (by cases h), fun _ count r' hl => ?_⟩
    have hcount : Read.length ctx.marshaller.config.maxArrayLength
        (fresh.extend 0 list.flatten) =
          .ok (some 2) ⟨.empty, ⟨4, [41, 1, 0, 0, 0, 7, 41, 0, 0, 0, 0]⟩⟩ := rfl
    obtain ⟨rfl, rfl⟩ := EStateM.Result.ok.inj (hl.symm.trans hcount)
    have hface (r : Reader) (hp : r.stack.current.progress.parked = none)
        (hr : r.cursor.rest.head? = some 41) : r.Faces [41] [] := by
      refine ⟨fun _ b hb => ?_, fun s hs => (by rw [hp] at hs; cases hs)⟩
      rw [List.append_nil, hr] at hb
      exact Option.some.inj hb ▸ List.mem_cons_self
    refine ⟨2, rfl, hface _ rfl rfl, fun r₁ h₁ => ⟨?_, fun _ _ => trivial⟩⟩
    have hstep : ∃ stack, stack.current.progress.parked = none ∧
        Read.messageStep ctx (Read.below ctx 1) (some 41) (Reader.begun
          ⟨.empty, ⟨4, [41, 1, 0, 0, 0, 7, 41, 0, 0, 0, 0]⟩⟩ (.ofItems (.message none)) 2) =
            .ok () ⟨stack, ⟨10, [41, 0, 0, 0, 0]⟩⟩ := ⟨_, rfl, rfl⟩
    obtain ⟨stack, hstack, hstep⟩ := hstep
    obtain ⟨-, rfl⟩ := EStateM.Result.ok.inj (h₁.symm.trans hstep)
    exact hface _ hstack rfl
  refine ⟨hnull, hfactory, ?_, by decide +kernel, hfield _ _ hface,
    hlist _ _ .refused (hwhole hctx list fresh hfresh hitems)⟩
  exact (hwrite default (some msg) (by simpa using hmsg) _ _ _ _ _ _ hfirst hthird _).1

end WireCodec
