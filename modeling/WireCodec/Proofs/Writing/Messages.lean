import WireCodec.Proofs.Writing.Routines

/-!
Writing a message can be taken up again wherever it stopped: its items, lists, maps and fields are
routines that can be stopped anywhere, and so is the message, at any depth of nesting.
-/

namespace WireCodec

/-- The message that an item is. -/
def Item.messages : Item → List Message
  | .message m => [m]
  | _ => []

/-- The messages that a field holds, if it is written. -/
def Field.messages : Field → List Message
  | .message (some m) => [m]
  | .list (some items) => items.flatMap Item.messages
  | .map (some entries) => entries.flatMap fun e => e.1.messages ++ e.2.messages
  | _ => []

/-- A field with messages in it is written. -/
theorem Message.mem_sent {msg inner : Message} {x : Field} (hx : x ∈ msg.fields)
    (hinner : inner ∈ x.messages) : x ∈ msg.sent := by
  refine List.mem_filter.mpr ⟨hx, ?_⟩
  cases x with
  | skipped initial content => cases hinner
  | _ => rfl

/-- A message without probes, at any depth. -/
inductive Message.Steady : Message → Prop
  | mk {type fields} (steady : ∀ f ∈ fields, ∀ readings, f ≠ Field.probe readings)
    (nested : ∀ f ∈ fields, ∀ m ∈ f.messages, m.Steady) : (Message.mk type fields).Steady

/-- What a routine that writes a field leaves alone: the levels above, and the fields written. -/
def FrameStack.around (s : FrameStack WriteFrame) : List WriteFrame × Nat × Bool :=
  (s.above, s.current.completed, s.current.headerWritten)

/-- What a routine that writes a field leaves alone of a writer. -/
def Writer.around (w : Writer) : List WriteFrame × Nat × Bool := w.stack.around

/-- The writer one level down. -/
def Writer.down (w : Writer) : Writer := { w with stack := w.stack.descend }

/-- The writer one level up. -/
def Writer.up (w : Writer) (finished : Bool) : Writer :=
  { w with stack := w.stack.ascend finished }

namespace Write

open Step

variable {α : Type} {w w' : Writer}

theorem around_of_outer {p : Write α} (h : Resumable Writer.outer p) :
    Resumable Writer.around p :=
  h.comp fun (above, fields, _) => (above, fields)

theorem around_of_stack {p : Write α} (h : Resumable Writer.stack p) :
    Resumable Writer.around p :=
  h.comp FrameStack.around

/-! ## Lists and maps -/

section

variable {nested : Message → Write Unit}

theorem resumable_putItem {x : Item} (h : ∀ m ∈ x.messages, Resumable Writer.outer (nested m)) :
    Resumable Writer.outer (putItem nested x) := by
  cases x with
  | primitive k x => exact outer_of_stack (resumable_put _)
  | char c => exact outer_of_stack (resumable_putChar c)
  | text s => exact resumable_putBytes (some (Utf8.encode s))
  | uuid u => exact outer_of_stack (resumable_put _)
  | grid g => exact resumable_putGrid _
  | message m => exact h m (List.mem_singleton_self m)

/-- What the steps of a list or a map leave alone: what is around the field, and that the number
of items is written. -/
def counted (w : Writer) : (List WriteFrame × Nat × Bool) × Bool :=
  (w.around, w.stack.current.progress.started)

theorem counted_of_outer {p : Write α} (h : Resumable Writer.outer p) : Resumable counted p :=
  h.comp fun (above, fields, started, _) => ((above, fields), started)

/-- The number of items that are written. -/
def index (w : Writer) : Nat := w.stack.current.progress.index

theorem index_of_outer {p : Write α} (h : Resumable Writer.outer p) : Keeps index p :=
  h.frame.comp fun (_, _, _, i, _) => i

/-- Whether the key of the next entry is written. -/
def keyDone (w : Writer) : Bool := w.stack.current.progress.keyDone

theorem keyDone_of_outer {p : Write α} (h : Resumable Writer.outer p) : Keeps keyDone p :=
  h.frame.comp fun (_, _, _, _, done) => done

variable (nested) in
/-- Writes an item of a list and counts it. -/
def listStep (x : Item) : Write Unit := do
  putItem nested x
  modifyProgress fun p => { p with index := p.index + 1, keyDone := p.keyDone && x.isPrimitive }

variable (nested) in
/-- Writes a key. -/
def writeKey (k : Item) : Write Unit := do
  putItem nested k
  modifyProgress fun p => { p with keyDone := true }

variable (nested) in
/-- Writes a value and counts its entry. -/
def writeValue (v : Item) : Write Unit := do
  putItem nested v
  modifyProgress fun p => { p with index := p.index + 1, keyDone := false }

variable (nested) in
/-- Writes an entry of a map and counts it. -/
def entryStep (e : Item × Item) : Write Unit := do
  once keyDone (writeKey nested e.1)
  writeValue nested e.2

theorem putItems_eq (xs : List Item) : putItems nested xs = forEach (listStep nested) xs := by
  induction xs with
  | nil => rfl
  | cons x xs ih => simp only [putItems, forEach, listStep, bind_assoc, ih]

theorem putEntries_eq (es : List (Item × Item)) :
    putEntries nested es = forEach (entryStep nested) es := by
  induction es with
  | nil => rfl
  | cons e es ih =>
    obtain ⟨k, v⟩ := e
    funext w
    rw [putEntries, progress_bind, forEach, entryStep, bind_assoc, bind_apply, ih]
    cases h : keyDone w with
    | true =>
      rw [once_of_seen h]
      rw [keyDone] at h
      rw [h]
      simp only [writeValue, bind_assoc]
      rfl
    | false =>
      rw [once_of_not_seen h, ← bind_apply, writeKey, bind_assoc]
      rw [keyDone] at h
      rw [h]
      simp only [writeValue, bind_assoc]
      rfl

theorem counted_listStep {x : Item} (h : ∀ m ∈ x.messages, Resumable Writer.outer (nested m)) :
    Counted counted index (listStep nested) x where
  toResumable := (counted_of_outer (resumable_putItem h)).bind_settled fun _ =>
    settled_modifyProgress fun _ => rfl
  done := by
    intro w w' hs
    obtain ⟨u, w₁, hitem, hdone⟩ := ok_of_bind hs
    have hindex : index w₁ = index w := (index_of_outer (resumable_putItem h)).ok hitem
    cases hdone
    exact congrArg (· + 1) hindex
  paused := by
    intro w w' hs
    exact (index_of_outer (resumable_putItem h)).error (suspended_of_bind
      (fun _ => (settled_modifyProgress (f := counted) fun _ => rfl).settles) hs)

theorem keyDone_of_writeKey {k : Item} (h : ∀ m ∈ k.messages, Resumable Writer.outer (nested m))
    (hs : writeKey nested k w = .error .suspended w') : keyDone w' = keyDone w :=
  (keyDone_of_outer (resumable_putItem h)).error (suspended_of_bind
    (fun _ => (settled_modifyProgress (f := counted) fun _ => rfl).settles) hs)

theorem keyDone_of_writeValue {v : Item} (h : ∀ m ∈ v.messages, Resumable Writer.outer (nested m))
    (hs : writeValue nested v w = .error .suspended w') : keyDone w' = keyDone w :=
  (keyDone_of_outer (resumable_putItem h)).error (suspended_of_bind
    (fun _ => (settled_modifyProgress (f := counted) fun _ => rfl).settles) hs)

/-- An entry that stopped past its key goes on past its key. -/
theorem counted_entryStep {e : Item × Item}
    (hk : ∀ m ∈ e.1.messages, Resumable Writer.outer (nested m))
    (hv : ∀ m ∈ e.2.messages, Resumable Writer.outer (nested m)) :
    Counted counted index (entryStep nested) e := by
  have hkey := resumable_putItem hk
  have hvalue := resumable_putItem hv
  have hmark : Settled counted (modifyProgress fun p => { p with keyDone := true }) :=
    settled_modifyProgress fun _ => rfl
  have hdone : Settled counted
      (modifyProgress fun p => { p with index := p.index + 1, keyDone := false }) :=
    settled_modifyProgress fun _ => rfl
  have hindex : Keeps index (once keyDone (writeKey nested e.1)) :=
    ((index_of_outer hkey).bind fun _ _ => rfl).once
  refine ⟨.once_bind (fun _ _ _ => rfl) ((counted_of_outer hkey).bind_settled fun _ => hmark)
    (keyDone_of_writeKey hk) ?_ ((counted_of_outer hvalue).bind_settled fun _ => hdone)
    (keyDone_of_writeValue hv), ?_, ?_⟩
  · intro w w' h
    obtain ⟨u, w₁, -, hset⟩ := ok_of_bind h
    cases hset
    rfl
  · intro w w' h
    obtain ⟨u, w₁, hkey₁, h⟩ := ok_of_bind h
    obtain ⟨u, w₂, hvalue₂, h⟩ := ok_of_bind h
    have hindex₂ : index w₂ = index w :=
      ((index_of_outer hvalue).ok hvalue₂).trans (hindex.ok hkey₁)
    cases h
    exact congrArg (· + 1) hindex₂
  · intro w w' h
    exact eq_of_bind_suspended hindex (fun {x w₁ w₂} h => (index_of_outer hvalue).error
      (suspended_of_bind (fun _ => hdone.settles) h)) h

/-- Whether the number of items is written. -/
def started (w : Writer) : Bool := w.stack.current.progress.started

/-- Writes the number of items. -/
def writeCount (n : Nat) : Write Unit := do
  putLength n
  modifyProgress fun p => { p with started := true }

theorem putCount_eq (n : Nat) : putCount n = once started (writeCount n) := by
  funext w
  rw [putCount, progress_bind]
  cases h : started w with
  | true =>
    rw [once_of_seen h]
    rw [started] at h
    rw [h]
    rfl
  | false =>
    rw [once_of_not_seen h, writeCount, putLength, bind_assoc]
    rw [started] at h
    rw [h]
    rfl

theorem started_of_writeCount {n : Nat} (hs : writeCount n w = .error .suspended w') :
    started w' = started w :=
  ((resumable_putLength n).frame.comp fun s => s.current.progress.started).error
    (suspended_of_bind (fun _ => (settled_modifyProgress (f := Writer.around) fun _ => rfl).settles)
      hs)

theorem started_of_forEachFrom {β : Type} {step : β → Write Unit} {xs : List β}
    (h : ∀ x ∈ xs, Counted counted index step x)
    (hs : forEachFrom index step xs w = .error .suspended w') : started w' = started w :=
  ((resumable_forEachFrom (fun _ _ _ => rfl) h).frame.comp Prod.snd).error hs

/-- The number of items, and then those that are not written yet. -/
theorem resumable_counting {β : Type} {step : β → Write Unit} {xs : List β} (n : Nat)
    (h : ∀ x ∈ xs, Counted counted index step x) : Resumable Writer.around (do
      once started (writeCount n)
      forEachFrom index step xs) := by
  have hset : Settled Writer.around (modifyProgress fun p => { p with started := true }) :=
    settled_modifyProgress fun _ => rfl
  have hsteps : Resumable counted (forEachFrom index step xs) :=
    resumable_forEachFrom (fun _ _ _ => rfl) h
  refine .once_bind (fun _ _ _ => rfl)
    ((around_of_stack (resumable_putLength n)).bind_settled fun _ => hset) started_of_writeCount ?_
    (hsteps.comp Prod.fst) (started_of_forEachFrom h)
  intro w w' h
  obtain ⟨u, w₁, -, hset⟩ := ok_of_bind h
  cases hset
  rfl

theorem putList_eq (items : List Item) : putList nested (some items) = (do
    once started (writeCount items.length)
    forEachFrom index (listStep nested) items) := by
  rw [putList, putCount_eq]
  refine bind_congr fun _ => ?_
  simp only [putItems_eq]
  rfl

theorem putMap_eq (entries : List (Item × Item)) : putMap nested (some entries) = (do
    once started (writeCount entries.length)
    forEachFrom index (entryStep nested) entries) := by
  rw [putMap, putCount_eq]
  refine bind_congr fun _ => ?_
  simp only [putEntries_eq]
  rfl

theorem resumable_putList {items : Option (List Item)}
    (h : ∀ xs, items = some xs → ∀ x ∈ xs, ∀ m ∈ x.messages, Resumable Writer.outer (nested m)) :
    Resumable Writer.around (putList nested items) := by
  cases items with
  | none => exact around_of_stack resumable_putNull
  | some xs =>
    rw [putList_eq]
    exact resumable_counting _ fun x hx => counted_listStep (h xs rfl x hx)

theorem resumable_putMap {entries : Option (List (Item × Item))}
    (h : ∀ es, entries = some es → ∀ e ∈ es, ∀ m ∈ e.1.messages ++ e.2.messages,
      Resumable Writer.outer (nested m)) :
    Resumable Writer.around (putMap nested entries) := by
  cases entries with
  | none => exact around_of_stack resumable_putNull
  | some es =>
    rw [putMap_eq]
    exact resumable_counting _ fun e he => counted_entryStep
      (fun m hm => h es rfl e he m (List.mem_append_left _ hm))
      fun m hm => h es rfl e he m (List.mem_append_right _ hm)

/-! ## Fields -/

theorem resumable_putField (m : Marshaller) {f : Field}
    (hf : ∀ readings, f ≠ .probe readings)
    (h : ∀ msg ∈ f.messages, Resumable Writer.outer (nested msg)) :
    Resumable Writer.around (putField nested m f) := by
  cases f with
  | primitive k x => exact around_of_stack (resumable_put _)
  | char c => exact around_of_stack (resumable_putChar c)
  | text s => exact around_of_outer (resumable_putBytes (s.map Utf8.encode))
  | bytes bs => exact around_of_outer (resumable_putBytes bs)
  | uuid u => exact around_of_stack (resumable_put _)
  | grid g => exact around_of_outer (resumable_putGrid g)
  | bits s =>
    refine resumable_putList fun xs hxs x hx msg hmsg => ?_
    obtain ⟨s, -, rfl⟩ := Option.map_eq_some_iff.mp hxs
    obtain ⟨word, -, rfl⟩ := List.mem_map.mp hx
    cases hmsg
  | value v =>
    rw [putField]
    split
    · exact around_of_stack resumable_putNull
    · exact around_of_outer (resumable_putStaged _)
  | object t x => exact around_of_outer (resumable_putStaged (m.marshalErased t x))
  | message msg =>
    cases msg with
    | none => exact around_of_stack (resumable_put _)
    | some msg => exact around_of_outer (h msg (List.mem_singleton_self msg))
  | list items =>
    refine resumable_putList fun xs hxs x hx msg hmsg => h msg ?_
    subst hxs
    exact List.mem_flatMap.mpr ⟨x, hx, hmsg⟩
  | map entries =>
    refine resumable_putMap fun es hes e he msg hmsg => h msg ?_
    subst hes
    exact List.mem_flatMap.mpr ⟨e, he, hmsg⟩
  | stuck => exact .suspend
  | probe readings => exact absurd rfl (hf readings)
  | skipped initial content => exact .of_settled (.pure ())

/-- The number of fields that are written. -/
def completed (w : Writer) : Nat := w.stack.current.completed

/-- Whether the type byte is written. -/
def headerWritten (w : Writer) : Bool := w.stack.current.headerWritten

/-- What the steps of a body leave alone: the levels above, and that the type byte is written. -/
def bodied (w : Writer) : List WriteFrame × Bool := (w.stack.above, headerWritten w)

variable (nested) in
/-- Writes a field and counts it. -/
def fieldStep (m : Marshaller) (f : Field) : Write Unit := do
  putField nested m f
  modifyFrame fun frame => { frame with completed := frame.completed + 1, progress := default }

theorem putFields_eq (m : Marshaller) (fs : List Field) :
    putFields nested m fs = forEach (fieldStep nested m) fs := by
  induction fs with
  | nil => rfl
  | cons f fs ih => simp only [putFields, forEach, fieldStep, bind_assoc, ih]

theorem counted_fieldStep (m : Marshaller) {f : Field} (hf : ∀ readings, f ≠ .probe readings)
    (h : ∀ msg ∈ f.messages, Resumable Writer.outer (nested msg)) :
    Counted bodied completed (fieldStep nested m) f := by
  have hfield := resumable_putField m hf h
  have hdone : Settled bodied (modifyFrame fun frame =>
      { frame with completed := frame.completed + 1, progress := default }) :=
    settled_modifyFrame fun _ => rfl
  have hcompleted : Keeps completed (putField nested m f) :=
    hfield.frame.comp fun (_, n, _) => n
  refine ⟨(hfield.comp fun (above, _, header) => (above, header)).bind_settled fun _ => hdone,
    ?_, ?_⟩
  · intro w w' hs
    obtain ⟨u, w₁, hput, hset⟩ := ok_of_bind hs
    have hcount : completed w₁ = completed w := hcompleted.ok hput
    cases hset
    exact congrArg (· + 1) hcount
  · intro w w' hs
    exact hcompleted.error (suspended_of_bind (fun _ => hdone.settles) hs)

/-- Writes the type byte. -/
def writeHeader (type : UInt8) : Write Unit := do
  put [type]
  modifyFrame fun frame => { frame with headerWritten := true }

theorem putBody_eq (m : Marshaller) (msg : Message) : putBody nested m msg = (do
    once headerWritten (writeHeader msg.type)
    forEachFrom completed (fieldStep nested m) msg.sent) := by
  funext w
  rw [putBody, get_bind, bind_apply]
  simp only [putFields_eq]
  cases h : headerWritten w with
  | true =>
    rw [once_of_seen h]
    rw [headerWritten] at h
    rw [h]
    rfl
  | false =>
    rw [once_of_not_seen h, ← bind_apply, writeHeader, bind_assoc]
    rw [headerWritten] at h
    rw [h]
    rfl

theorem headerWritten_of_writeHeader {type : UInt8}
    (hs : writeHeader type w = .error .suspended w') : headerWritten w' = headerWritten w :=
  ((resumable_put [type]).frame.comp fun s => s.current.headerWritten).error (suspended_of_bind
    (fun _ => (settled_modifyFrame (f := fun w => w.stack.above) fun _ => rfl).settles) hs)

theorem headerWritten_of_forEachFrom {step : Field → Write Unit} {fs : List Field}
    (h : ∀ f ∈ fs, Counted bodied completed step f)
    (hs : forEachFrom completed step fs w = .error .suspended w') :
    headerWritten w' = headerWritten w :=
  ((resumable_forEachFrom (fun _ _ _ => rfl) h).frame.comp Prod.snd).error hs

theorem resumable_putBody (m : Marshaller) {msg : Message} (hmsg : msg.Steady)
    (h : ∀ inner : Message, inner.Steady → Resumable Writer.outer (nested inner)) :
    Resumable (fun w => w.stack.above) (putBody nested m msg) := by
  obtain @⟨type, fields, hsteady, hnested⟩ := hmsg
  let msg := Message.mk type fields
  have hset : Settled (fun w => w.stack.above)
      (modifyFrame fun frame => { frame with headerWritten := true }) :=
    settled_modifyFrame fun _ => rfl
  have hfields (f : Field) (hf : f ∈ msg.sent) : Counted bodied completed (fieldStep nested m) f :=
    have hf := Message.mem_fields_of_mem_sent hf
    counted_fieldStep m (hsteady f hf) fun inner hinner => h inner (hnested f hf inner hinner)
  have hsteps : Resumable bodied (forEachFrom completed (fieldStep nested m) msg.sent) :=
    resumable_forEachFrom (fun _ _ _ => rfl) hfields
  rw [putBody_eq]
  refine .once_bind (fun _ _ _ => rfl)
    (((resumable_put [type]).comp FrameStack.above).bind_settled fun _ => hset)
    headerWritten_of_writeHeader ?_ (hsteps.comp Prod.fst) (headerWritten_of_forEachFrom hfields)
  intro w w' hs
  obtain ⟨u, w₁, -, hset⟩ := ok_of_bind hs
  cases hset
  rfl

end

/-! ## Levels -/

theorem descend_apply (p : Write Unit) (w : Writer) : descend p w = match p w.down with
    | .ok _ w => .ok () (w.up true)
    | .error stop w => .error stop (w.up false) := rfl

theorem down_extend (w : Writer) (before : Bytes) (room : Nat) :
    (w.extend before room).down = w.down.extend before room := rfl

/-- A message one level down goes on where it stopped: it finds the frame that it left behind. -/
theorem resumable_descend {p : Write Unit} (h : Resumable (fun w => w.stack.above) p) :
    Resumable (fun w => (w.stack.above, w.stack.current)) (descend p) where
  extension := by
    intro w _
    cases hp : p w.down with
    | ok u w₁ =>
      have hc : w.down.cursor.Precedes w₁.cursor := ok_precedes h.extension hp
      have hup : w.cursor.Precedes (w₁.up true).cursor := hc
      refine extendsAt_of_ok () hup fun before room => ?_
      rw [descend_apply, down_extend, ok_extend h.extension hp before room]
      rfl
    | error e w₁ =>
      cases e with
      | failed e =>
        refine extendsAt_of_failed e (w₁.up false) fun before room => ?_
        rw [descend_apply, down_extend, failed_extend h.extension hp before room]
        rfl
      | suspended =>
        have hc : w.down.cursor.Precedes w₁.cursor := suspended_precedes h.extension hp
        have hup : w.cursor.Precedes (w₁.up false).cursor := hc
        have he (before : Bytes) : descend p (w.extend before 0) =
            .error .suspended ((w₁.up false).extend before 0) := by
          rw [descend_apply, down_extend, suspended_extend h.extension hp before]
          rfl
        refine extendsAt_of_suspended hup he fun {room x t} ht => ?_
        rw [descend_apply, down_extend] at ht
        cases hm : p (w.down.extend [] room) with
        | error stop t₁ => rw [hm] at ht; cases ht
        | ok u t₁ =>
          rw [hm] at ht
          cases ht
          have hx : w.down.cursor.Exceeds t₁.cursor := exceeds_extend h.extension hp hm
          exact hx
  frame := by
    intro w
    rw [descend_apply]
    cases hp : p w.down with
    | ok u w₁ =>
      obtain ⟨habove, hcurrent⟩ := FrameStack.ascend_of_above (h.frame.ok hp) true
      exact Prod.ext habove hcurrent
    | error e w₁ =>
      obtain ⟨habove, hcurrent⟩ := FrameStack.ascend_of_above (h.frame.error hp) false
      exact Prod.ext habove hcurrent
  resumption := by
    refine resumes_iff.mpr fun w w' hd room => ?_
    rw [descend_apply] at hd
    cases hp : p w.down with
    | ok u w₁ => rw [hp] at hd; cases hd
    | error e w₁ =>
      rw [hp] at hd
      cases hd
      have hdown : (w₁.up false).down = w₁ := by
        rw [Writer.down, Writer.up, FrameStack.descend_ascend (h.frame.error hp)]
      rw [descend_apply, descend_apply, down_extend, down_extend, hdown,
        resume_extend h.resumption hp room]

theorem outer_of_descend {p : Write Unit} (h : Resumable (fun w => w.stack.above) p) :
    Resumable Writer.outer (descend p) :=
  (resumable_descend h).comp fun (above, current) =>
    (above, (current.completed, current.headerWritten), current.progress.outer)

/-- Writing a message can be stopped anywhere. -/
theorem resumable_putMessage (m : Marshaller) (levels : Nat) {msg : Message} (h : msg.Steady) :
    Resumable (fun w => w.stack.above) (putMessage m levels msg) := by
  induction levels generalizing msg with
  | zero => exact resumable_putBody m h fun _ _ => .of_settled (.fail _)
  | succ levels ih => exact resumable_putBody m h fun inner hinner => outer_of_descend (ih hinner)

end Write

end WireCodec
