import WireCodec.Proofs.Trails
import WireCodec.Proofs.Writing.Failures
import WireCodec.Proofs.Writing.Messages

/-!
# Where a message stops that is being written

Wherever a field stops, the frame tells how far it is written, and no further than it goes: no more
bytes of a byte string are written than it has, and there is an item left of a list or a map that
is not finished (`Field.Admits`). From the item in flight, if it is a message, a trail leads to the
levels below (`Field.inFlight`). So as long as the message stays the same, the errors that tell of
a field that changed never come up.
-/

namespace WireCodec

/-! ## Progress that fits -/

namespace WriteProgress

/-- No item is in flight. -/
structure Plain (p : WriteProgress) : Prop where
  unmarked : p.headDone = false
  offset : p.offset = 0
  staged : p.staged = none

/-- A byte string is in flight. No more of it is written than it has, and nothing before its
length. -/
structure Streams (bs : Bytes) (p : WriteProgress) : Prop where
  offset : p.offset ≤ bs.length
  unmarked : p.headDone = false → p.offset = 0

/-- A value is in flight: nothing of it is written before it is encoded. -/
def Stages (p : WriteProgress) : Prop :=
  match p.staged with
  | some bs => p.Streams bs
  | none => p.Plain

/-- There is no list or map around the item in flight. -/
def Lone (p : WriteProgress) : Prop := p.outer = (default : WriteProgress).outer

/-- A list or a map is in flight: its number of items is still to be written, or one of them is
left. -/
def Counts {β : Type} (Fits : β → WriteProgress → Prop) (xs : List β) (p : WriteProgress) : Prop :=
  p = default ∨ p.started = true ∧ ∃ x, xs[p.index]? = some x ∧ Fits x p

/-- The message in flight in a list or a map, given that of each item. -/
def nested {β : Type} (next : β → WriteProgress → Option Message) (xs : List β)
    (p : WriteProgress) : Option Message :=
  if p.started then xs[p.index]?.bind (next · p) else none

end WriteProgress

namespace Item

/-- The progress is that of an item. -/
def Admits : Item → WriteProgress → Prop
  | text s, p => p.Streams (Utf8.encode s) ∧ p.staged = none
  | grid _, p => p.offset = 0 ∧ p.staged = none
  | _, p => p.Plain

/-- The message that an item is. -/
def message? : Item → Option Message
  | message m => some m
  | _ => none

/-- The progress is that of an item of a list. -/
def AdmitsList (x : Item) (p : WriteProgress) : Prop := p.keyDone = false ∧ x.Admits p

/-- The progress is that of an entry of a map: of its key, or of its value once the key is
written. -/
def AdmitsMap (e : Item × Item) (p : WriteProgress) : Prop :=
  (if p.keyDone then e.2 else e.1).Admits p

/-- The message in flight of an entry. -/
def entryMessage? (e : Item × Item) (p : WriteProgress) : Option Message :=
  (if p.keyDone then e.2 else e.1).message?

end Item

namespace Field

/-- The progress is that of a field. -/
def Admits : Field → WriteProgress → Prop
  | text (some s), p => p.Lone ∧ (Item.text s).Admits p
  | bytes (some bs), p => p.Lone ∧ p.Streams bs ∧ p.staged = none
  | grid (some g), p => p.Lone ∧ (Item.grid g).Admits p
  | bits (some s), p => p.Counts Item.AdmitsList (s.words.map Item.ofWord)
  | value v, p => if v.isNull then p = default else p.Lone ∧ p.Stages
  | object _ _, p => p.Lone ∧ p.Stages
  | list (some items), p => p.Counts Item.AdmitsList items
  | map (some entries), p => p.Counts Item.AdmitsMap entries
  | _, p => p = default

/-- The message of a field that is next, or in flight, on the level below. -/
def inFlight : Field → WriteProgress → Option Message
  | message m, _ => m
  | list (some items), p => p.nested (fun x _ => x.message?) items
  | map (some entries), p => p.nested Item.entryMessage? entries
  | _, _ => none

end Field

/-- A frame holds a message in flight: its type byte is written, the progress is that of the field
after those that are written, and a message in that field may be in flight on the level below. -/
structure WriteFrame.Holds (msg : Message) (f : WriteFrame) (next : Option Message) : Prop where
  header : f.headerWritten = true
  field : ∃ field, msg.sent[f.completed]? = some field ∧ field.Admits f.progress ∧
    field.inFlight f.progress = next

namespace WriteProgress

theorem plain_default : (default : WriteProgress).Plain := ⟨rfl, rfl, rfl⟩

theorem eq_default_iff (p : WriteProgress) : p = default ↔ p.Lone ∧ p.Plain := by
  constructor
  · rintro rfl
    exact ⟨rfl, plain_default⟩
  · obtain ⟨started, index, keyDone, headDone, offset, staged⟩ := p
    rintro ⟨hlone, hunmarked, hoffset, hstaged⟩
    cases hlone
    cases hunmarked
    cases hoffset
    cases hstaged
    rfl

theorem Plain.streams {p : WriteProgress} (h : p.Plain) (bs : Bytes) : p.Streams bs :=
  ⟨h.offset ▸ Nat.zero_le _, fun _ => h.offset⟩

theorem Plain.stages {p : WriteProgress} (h : p.Plain) : p.Stages := by
  rw [Stages, h.staged]
  exact h

end WriteProgress

theorem Item.admits_of_plain {p : WriteProgress} (x : Item) (h : p.Plain) : x.Admits p := by
  cases x with
  | text s => exact ⟨h.streams _, h.staged⟩
  | grid g => exact ⟨h.offset, h.staged⟩
  | _ => exact h

theorem Field.admits_default (f : Field) : f.Admits default := by
  have hplain := WriteProgress.plain_default
  have hlone : (default : WriteProgress).Lone := rfl
  cases f with
  | text s => cases s with
    | none => rfl
    | some s => exact ⟨hlone, (Item.text s).admits_of_plain hplain⟩
  | bytes bs => cases bs with
    | none => rfl
    | some bs => exact ⟨hlone, hplain.streams bs, rfl⟩
  | grid g => cases g with
    | none => rfl
    | some g => exact ⟨hlone, (Item.grid g).admits_of_plain hplain⟩
  | bits s => cases s with
    | none => rfl
    | some s => exact .inl rfl
  | value v =>
    rw [Admits]
    split
    · rfl
    · exact ⟨hlone, hplain.stages⟩
  | object t x => exact ⟨hlone, hplain.stages⟩
  | list items => cases items with
    | none => rfl
    | some items => exact .inl rfl
  | map entries => cases entries with
    | none => rfl
    | some entries => exact .inl rfl
  | _ => rfl

/-! ## Items -/

/-- What writing an item leaves alone: what is around it, and the levels below. -/
def Writer.settled (w : Writer) :
    (List WriteFrame × (Nat × Bool) × Bool × Nat × Bool) × List WriteFrame :=
  (w.outer, w.stack.below)

theorem Error.Unwritable.foreign {e : Error} (h : e.Unwritable) : e.Foreign :=
  e.foreign_of_serialization h

theorem Error.Unmarshallable.foreign {e : Error} (h : e.Unmarshallable) : e.Foreign := by
  rcases h with h | h
  · exact h.foreign
  · exact .of_kind fun hkind => by rw [h] at hkind; cases hkind

namespace Write

open Step WriteProgress

variable {α : Type} {w w' : Writer} {nested : Message → Write Unit}

theorem ends_put (bs : Bytes) (w : Writer) :
    Ends (fun _ w' => w'.stack = w.stack) (fun w' => w'.stack = w.stack) (put bs w) := by
  rw [put_apply]
  split <;> rfl

/-- A unit is written, or it is refused for what it is. -/
theorem ends_putUnit {x : Except Error Bytes} (h : FailsWith Error.Foreign x) (w : Writer) :
    Ends (fun _ w' => w'.stack = w.stack) (fun w' => w'.stack = w.stack)
      ((lift x >>= put) w) := by
  cases x with
  | ok bs => exact ends_put bs w
  | error e => exact h e rfl

theorem ends_putLength (n : Nat) (w : Writer) :
    Ends (fun _ w' => w'.stack = w.stack) (fun w' => w'.stack = w.stack) (putLength n w) :=
  ends_putUnit ((Layout.failsWith_length n).mono fun _ => Error.Unwritable.foreign) w

theorem ends_stream {bs : Bytes} (h : w.offset ≤ bs.length) :
    Ends (fun _ w' => w'.settled = w.settled ∧ w'.stack.current.progress.Plain)
      (fun w' => w'.settled = w.settled ∧ w'.offset ≤ bs.length ∧ headDone w' = headDone w ∧
        staged w' = staged w) (stream bs w) := by
  rw [stream_apply, if_neg (Nat.not_lt_of_le h)]
  split
  · exact ⟨rfl, rfl, rfl, rfl⟩
  · have hreach : w.reach (bs.drop w.offset) ≤ bs.length := by
      rw [Writer.reach, List.length_drop]
      omega
    exact ⟨rfl, hreach, rfl, rfl⟩

theorem ends_putChunk {bs : Bytes} (h : w.stack.current.progress.Streams bs) :
    Ends (fun _ w' => w'.settled = w.settled ∧ w'.stack.current.progress.Plain)
      (fun w' => w'.settled = w.settled ∧ w'.stack.current.progress.Streams bs ∧
        staged w' = staged w) (putChunk bs w) := by
  have hstream {w : Writer} (hoffset : w.offset ≤ bs.length) (hhead : headDone w = true) :
      Ends (fun _ w' => w'.settled = w.settled ∧ w'.stack.current.progress.Plain)
        (fun w' => w'.settled = w.settled ∧ w'.stack.current.progress.Streams bs ∧
          staged w' = staged w) (stream bs w) := by
    refine (ends_stream hoffset).mono (fun _ _ h => h) fun w' h => ?_
    obtain ⟨hs, ho, hh, hst⟩ := h
    refine ⟨hs, ⟨ho, fun hunmarked => ?_⟩, hst⟩
    rw [← headDone, hh, hhead] at hunmarked
    cases hunmarked
  rw [putChunk_eq]
  cases hhead : headDone w with
  | true =>
    rw [bind_ok (once_of_seen hhead)]
    exact hstream h.offset hhead
  | false =>
    rw [bind_apply, once_of_not_seen hhead, ← bind_apply, bind_assoc]
    refine (ends_putLength bs.length w).bind (fun _ w₁ hw₁ => ?_) fun w₁ hw₁ => ?_
    · obtain ⟨stack, cursor⟩ := w₁
      cases hw₁
      exact hstream h.offset rfl
    · obtain ⟨stack, cursor⟩ := w₁
      cases hw₁
      exact ⟨rfl, h, rfl⟩

/-- From a writer whose progress fits an item, a routine writes the item, or stops where its
progress fits the item again. The message in flight leads to the levels below, before and after. -/
def Puts (Fits : WriteProgress → Prop) (next : Option Message) (p : Write Unit) : Prop :=
  ∀ w : Writer, Fits w.stack.current.progress → Trail WriteFrame.Holds next w.stack.below →
    Ends (fun _ w' => w'.outer = w.outer ∧ w'.stack.current.progress.Plain ∧ w'.stack.Cleared)
      (fun w' => w'.outer = w.outer ∧ Fits w'.stack.current.progress ∧
        Trail WriteFrame.Holds next w'.stack.below) (p w)

/-- A routine that leaves the levels below alone. -/
theorem Puts.of_settled {Fits : WriteProgress → Prop} {p : Write Unit}
    (h : ∀ w : Writer, Fits w.stack.current.progress →
      Ends (fun _ w' => w'.settled = w.settled ∧ w'.stack.current.progress.Plain)
        (fun w' => w'.settled = w.settled ∧ Fits w'.stack.current.progress) (p w)) :
    Puts Fits none p := by
  intro w hw htrail
  refine (h w hw).mono (fun _ w' h => ?_) fun w' h => ?_
  · obtain ⟨hsettled, hplain⟩ := h
    have hbelow : w'.stack.below = w.stack.below := congrArg Prod.snd hsettled
    exact ⟨congrArg Prod.fst hsettled, hplain, fun f hf => Trail.none_iff.mp htrail f (hbelow ▸ hf)⟩
  · obtain ⟨hsettled, hfits⟩ := h
    have hbelow : w'.stack.below = w.stack.below := congrArg Prod.snd hsettled
    exact ⟨congrArg Prod.fst hsettled, hfits, hbelow ▸ htrail⟩

/-- A routine that leaves all frames alone. -/
theorem Puts.of_stack {p : Write Unit}
    (h : ∀ w, Ends (fun _ w' => w'.stack = w.stack) (fun w' => w'.stack = w.stack) (p w)) :
    Puts Plain none p := by
  refine .of_settled fun w hw => (h w).mono (fun _ w' hstack => ?_) fun w' hstack => ?_
  · exact ⟨by rw [Writer.settled, Writer.outer, hstack]; rfl, hstack ▸ hw⟩
  · exact ⟨by rw [Writer.settled, Writer.outer, hstack]; rfl, hstack ▸ hw⟩

theorem puts_put (bs : Bytes) : Puts Plain none (put bs) := .of_stack (ends_put bs)

theorem puts_char (c : Char) : Puts Plain none (putChar c) :=
  .of_stack (ends_putUnit ((Encode.failsWith_char c).mono fun _ => Error.Unwritable.foreign))

theorem puts_chunk (bs : Bytes) :
    Puts (fun p => p.Streams bs ∧ p.staged = none) none (putChunk bs) := by
  refine .of_settled fun w hw => (ends_putChunk hw.1).mono (fun _ _ h => h) fun w' h => ?_
  obtain ⟨hsettled, hstreams, hkept⟩ := h
  exact ⟨hsettled, hstreams, Eq.trans hkept hw.2⟩

theorem puts_grid (g : GridId) :
    Puts (fun p => p.offset = 0 ∧ p.staged = none) none (putGrid (some g)) := by
  refine .of_settled fun w hw => ?_
  obtain ⟨hoffset, hstaged⟩ := hw
  have hcounter (w : Writer) (hoffset : w.stack.current.progress.offset = 0)
      (hstaged : w.stack.current.progress.staged = none) :
      Ends (fun _ w' => w'.settled = w.settled ∧ w'.stack.current.progress.Plain)
        (fun w' => w'.settled = w.settled ∧ w'.stack.current.progress.offset = 0 ∧
          w'.stack.current.progress.staged = none) (putCounter g w) := by
    refine (ends_put _ w).bind (fun _ w₁ hw₁ => ?_) fun w₁ hw₁ => ?_
    · obtain ⟨stack, cursor⟩ := w₁
      cases hw₁
      exact ⟨rfl, rfl, hoffset, hstaged⟩
    · obtain ⟨stack, cursor⟩ := w₁
      cases hw₁
      exact ⟨rfl, hoffset, hstaged⟩
  rw [putGrid_eq]
  cases hhead : headDone w with
  | true =>
    rw [bind_ok (once_of_seen hhead)]
    exact hcounter w hoffset hstaged
  | false =>
    rw [bind_apply, once_of_not_seen hhead, ← bind_apply, bind_assoc]
    refine (ends_put _ w).bind (fun _ w₁ hw₁ => ?_) fun w₁ hw₁ => ?_
    · obtain ⟨stack, cursor⟩ := w₁
      cases hw₁
      exact hcounter _ hoffset hstaged
    · obtain ⟨stack, cursor⟩ := w₁
      cases hw₁
      exact ⟨rfl, hoffset, hstaged⟩

theorem puts_grid_none : Puts Plain none (putGrid none) := by
  intro w hw htrail
  rw [putGrid_none_apply, show headDone w = false from hw.unmarked]
  exact puts_put _ w hw htrail

theorem puts_staged {encoded : Except Error Bytes} (h : FailsWith Error.Foreign encoded) :
    Puts Stages none (putStaged encoded) := by
  have hchunk {bs : Bytes} {w : Writer} (hstaged : staged w = some bs)
      (hw : w.stack.current.progress.Streams bs) :
      Ends (fun _ w' => w'.settled = w.settled ∧ w'.stack.current.progress.Plain)
        (fun w' => w'.settled = w.settled ∧ w'.stack.current.progress.Stages) (putChunk bs w) := by
    refine (ends_putChunk hw).mono (fun _ _ h => h) fun w' h => ?_
    obtain ⟨hsettled, hstreams, hkept⟩ := h
    have hstaged' : w'.stack.current.progress.staged = some bs := Eq.trans hkept hstaged
    refine ⟨hsettled, ?_⟩
    rw [Stages, hstaged']
    exact hstreams
  refine .of_settled fun w hw => ?_
  rw [putStaged_apply]
  rw [Stages] at hw
  cases hstaged : staged w with
  | some bs =>
    rw [show w.stack.current.progress.staged = some bs from hstaged] at hw
    exact hchunk hstaged hw
  | none =>
    rw [show w.stack.current.progress.staged = none from hstaged] at hw
    cases encoded with
    | error e => exact h e rfl
    | ok bs =>
      have hstreams : (stagedWriter w bs).stack.current.progress.Streams bs :=
        ⟨(hw.streams bs).offset, (hw.streams bs).unmarked⟩
      exact hchunk (w := stagedWriter w bs) rfl hstreams

/-- What writing a message one level down comes to. -/
def Descends (nested : Message → Write Unit) : Prop := ∀ msg, Puts Plain (some msg) (nested msg)

theorem descends_fail {e : Error} (h : e.Foreign) : Descends fun _ => fail e := fun _ _ _ _ => h

theorem puts_item (hn : Descends nested) (x : Item) :
    Puts x.Admits x.message? (putItem nested x) := by
  cases x with
  | primitive k x => exact puts_put _
  | char c => exact puts_char c
  | text s => exact puts_chunk _
  | uuid u => exact puts_put _
  | grid g => exact puts_grid g
  | message m => exact hn m

/-! ## Lists and maps -/

section

variable {β : Type} {Fits : β → WriteProgress → Prop} {next : β → WriteProgress → Option Message}
  {step : β → Write Unit} {xs ys : List β}

/-- A step writes one more item of a list or a map, whose number of items is written. -/
def Adds (Fits : β → WriteProgress → Prop) (next : β → WriteProgress → Option Message)
    (step : β → Write Unit) : Prop :=
  ∀ (x : β) (w : Writer), Fits x w.stack.current.progress →
    Trail WriteFrame.Holds (next x w.stack.current.progress) w.stack.below →
    Ends (fun _ w' => (counted w', index w') = (counted w, index w + 1) ∧
        keyDone w' = false ∧ w'.stack.current.progress.Plain ∧ w'.stack.Cleared)
      (fun w' => (counted w', index w') = (counted w, index w) ∧
        Fits x w'.stack.current.progress ∧
        Trail WriteFrame.Holds (next x w'.stack.current.progress) w'.stack.below) (step x w)

/-- Where writing the items that are left stops, one of them is still to be written. -/
theorem ends_forEach (hstep : Adds Fits next step)
    (hfresh : ∀ x (p : WriteProgress), p.Plain → p.keyDone = false → Fits x p)
    (hys : ys = xs.drop (index w))
    (hfits : ∀ x, ys.head? = some x → Fits x w.stack.current.progress ∧
      Trail WriteFrame.Holds (next x w.stack.current.progress) w.stack.below)
    (hend : ys = [] → w.stack.Cleared) :
    Ends (fun _ w' => counted w' = counted w ∧ w'.stack.Cleared)
      (fun w' => counted w' = counted w ∧ ∃ x, xs[index w']? = some x ∧
        Fits x w'.stack.current.progress ∧
        Trail WriteFrame.Holds (next x w'.stack.current.progress) w'.stack.below)
      (forEach step ys w) := by
  induction ys generalizing w with
  | nil => exact ⟨rfl, hend rfl⟩
  | cons y ys ih =>
    have hhead : xs[index w]? = some y := by
      rw [← List.head?_drop, ← hys, List.head?_cons]
    have htail : ys = xs.drop (index w + 1) := by
      rw [← List.tail_drop, ← hys, List.tail_cons]
    obtain ⟨hy, htrail⟩ := hfits y rfl
    rw [forEach]
    refine (hstep y w hy htrail).bind (fun _ w' h => ?_) fun w' h => ?_
    · obtain ⟨hcount, hkey, hplain, hcleared⟩ := h
      obtain ⟨hcounted, hindex⟩ := Prod.mk.inj hcount
      rw [← hcounted]
      exact ih (hindex.symm ▸ htail) (fun x _ => ⟨hfresh x _ hplain hkey, .cleared hcleared⟩)
        fun _ => hcleared
    · obtain ⟨hcount, hfits', htrail'⟩ := h
      obtain ⟨hcounted, hindex⟩ := Prod.mk.inj hcount
      exact ⟨hcounted, y, hindex.symm ▸ hhead, hfits', htrail'⟩

/-- The number of items, and then those that are not written yet. -/
theorem ends_counting (hstep : Adds Fits next step)
    (hfresh : ∀ x (p : WriteProgress), p.Plain → p.keyDone = false → Fits x p)
    (hw : w.stack.current.progress.Counts Fits xs)
    (htrail : Trail WriteFrame.Holds (w.stack.current.progress.nested next xs) w.stack.below) :
    Ends (fun _ w' => w'.around = w.around ∧ w'.stack.Cleared)
      (fun w' => w'.around = w.around ∧ w'.stack.current.progress.Counts Fits xs ∧
        Trail WriteFrame.Holds (w'.stack.current.progress.nested next xs) w'.stack.below)
      ((do once started (writeCount xs.length); forEachFrom index step xs : Write Unit) w) := by
  have hitems {w : Writer} (hstarted : Write.started w = true)
      (hfits : ∀ x, (xs.drop (index w)).head? = some x → Fits x w.stack.current.progress ∧
        Trail WriteFrame.Holds (next x w.stack.current.progress) w.stack.below)
      (hend : xs.drop (index w) = [] → w.stack.Cleared) :
      Ends (fun _ w' => w'.around = w.around ∧ w'.stack.Cleared)
        (fun w' => w'.around = w.around ∧ w'.stack.current.progress.Counts Fits xs ∧
          Trail WriteFrame.Holds (w'.stack.current.progress.nested next xs) w'.stack.below)
        (forEachFrom index step xs w) := by
    refine (ends_forEach hstep hfresh rfl hfits hend).mono (fun _ w' h => ?_) fun w' h => ?_
    · exact ⟨congrArg Prod.fst h.1, h.2⟩
    · obtain ⟨hcounted, x, hx, hfits', htrail'⟩ := h
      have hstarted' : w'.stack.current.progress.started = true :=
        (congrArg Prod.snd hcounted).trans hstarted
      have hx : xs[w'.stack.current.progress.index]? = some x := hx
      refine ⟨congrArg Prod.fst hcounted, .inr ⟨hstarted', x, hx, hfits'⟩, ?_⟩
      rw [WriteProgress.nested, if_pos hstarted', hx]
      exact htrail'
  rcases hw with hdefault | ⟨hstarted, x, hx, hfits⟩
  · have hnone : w.stack.current.progress.nested next xs = none := by rw [hdefault]; rfl
    have hcleared : w.stack.Cleared := Trail.none_iff.mp (hnone ▸ htrail)
    rw [bind_apply, once_of_not_seen (by rw [Write.started, hdefault]; rfl), ← bind_apply,
      writeCount, bind_assoc]
    refine (ends_putLength xs.length w).bind (fun _ w₁ hw₁ => ?_) fun w₁ hw₁ => ?_
    · obtain ⟨stack, cursor⟩ := w₁
      cases hw₁
      refine hitems rfl (fun x _ => ⟨hfresh x _ ?_ ?_, .cleared hcleared⟩) fun _ => hcleared
      · change ({ w.stack.current.progress with started := true } : WriteProgress).Plain
        rw [hdefault]
        exact ⟨rfl, rfl, rfl⟩
      · change w.stack.current.progress.keyDone = false
        rw [hdefault]
        rfl
    · obtain ⟨stack, cursor⟩ := w₁
      cases hw₁
      exact ⟨rfl, .inl hdefault, htrail⟩
  · have hseen : Write.started w = true := hstarted
    rw [bind_ok (once_of_seen hseen)]
    rw [WriteProgress.nested, if_pos hstarted, hx] at htrail
    refine hitems hstarted (fun y hy => ?_) fun hnil => ?_
    · rw [List.head?_drop] at hy
      cases hx.symm.trans hy
      exact ⟨hfits, htrail⟩
    · rw [← List.head?_eq_none_iff, List.head?_drop] at hnil
      cases hx.symm.trans hnil

end

theorem adds_listStep (hn : Descends nested) :
    Adds Item.AdmitsList (fun x _ => x.message?) (listStep nested) := by
  rintro x w ⟨hkey, hfits⟩ htrail
  refine (puts_item hn x w hfits htrail).bind (fun _ w' h => ?_) fun w' h => ?_
  · obtain ⟨houter, hplain, hcleared⟩ := h
    have hcounts := congrArg (fun o => (((o.1, o.2.1), o.2.2.1), o.2.2.2.1 + 1)) houter
    have hkey' : keyDone w' = false := (congrArg (fun o => o.2.2.2.2) houter).trans hkey
    refine ⟨hcounts, ?_, ⟨hplain.unmarked, hplain.offset, hplain.staged⟩, hcleared⟩
    change (keyDone w' && x.isPrimitive) = false
    rw [hkey', Bool.false_and]
  · obtain ⟨houter, hfits', htrail'⟩ := h
    have hkey' : keyDone w' = false := (congrArg (fun o => o.2.2.2.2) houter).trans hkey
    have hcounts := congrArg (fun o => (((o.1, o.2.1), o.2.2.1), o.2.2.2.1)) houter
    exact ⟨hcounts, ⟨hkey', hfits'⟩, htrail'⟩

/-- The value of an entry whose key is written. -/
theorem ends_writeValue (hn : Descends nested) {e : Item × Item} (hkey : keyDone w = true)
    (hfits : e.2.Admits w.stack.current.progress)
    (htrail : Trail WriteFrame.Holds e.2.message? w.stack.below) :
    Ends (fun _ w' => (counted w', index w') = (counted w, index w + 1) ∧
        keyDone w' = false ∧ w'.stack.current.progress.Plain ∧ w'.stack.Cleared)
      (fun w' => (counted w', index w') = (counted w, index w) ∧
        Item.AdmitsMap e w'.stack.current.progress ∧
        Trail WriteFrame.Holds (Item.entryMessage? e w'.stack.current.progress) w'.stack.below)
      (writeValue nested e.2 w) := by
  refine (puts_item hn e.2 w hfits htrail).bind (fun _ w' h => ?_) fun w' h => ?_
  · obtain ⟨houter, hplain, hcleared⟩ := h
    have hcounts := congrArg (fun o => (((o.1, o.2.1), o.2.2.1), o.2.2.2.1 + 1)) houter
    exact ⟨hcounts, rfl, ⟨hplain.unmarked, hplain.offset, hplain.staged⟩, hcleared⟩
  · obtain ⟨houter, hfits', htrail'⟩ := h
    have hkey' : w'.stack.current.progress.keyDone = true :=
      (congrArg (fun o => o.2.2.2.2) houter).trans hkey
    refine ⟨congrArg (fun o => (((o.1, o.2.1), o.2.2.1), o.2.2.2.1)) houter, ?_, ?_⟩
    · rw [Item.AdmitsMap, if_pos hkey']
      exact hfits'
    · rw [Item.entryMessage?, if_pos hkey']
      exact htrail'

theorem adds_entryStep (hn : Descends nested) :
    Adds Item.AdmitsMap Item.entryMessage? (entryStep nested) := by
  intro e w hfits htrail
  rw [Item.AdmitsMap] at hfits
  rw [Item.entryMessage?] at htrail
  rw [entryStep]
  cases hkey : keyDone w with
  | true =>
    rw [show w.stack.current.progress.keyDone = true from hkey, if_pos rfl] at hfits htrail
    rw [bind_ok (once_of_seen hkey)]
    exact ends_writeValue hn hkey hfits htrail
  | false =>
    have hunkeyed : ¬ w.stack.current.progress.keyDone = true := by
      rw [show w.stack.current.progress.keyDone = false from hkey]
      decide
    rw [if_neg hunkeyed] at hfits htrail
    rw [bind_apply, once_of_not_seen hkey, ← bind_apply, writeKey, bind_assoc]
    refine (puts_item hn e.1 w hfits htrail).bind (fun _ w' h => ?_) fun w' h => ?_
    · obtain ⟨houter, hplain, hcleared⟩ := h
      have hcounts (n : Nat) : (counted w', index w' + n) = (counted w, index w + n) :=
        congrArg (fun o => (((o.1, o.2.1), o.2.2.1), o.2.2.2.1 + n)) houter
      let keyed : Writer := { w' with stack := w'.stack.modify fun f =>
        { f with progress := { f.progress with keyDone := true } } }
      have hvalue : e.2.Admits keyed.stack.current.progress :=
        e.2.admits_of_plain ⟨hplain.unmarked, hplain.offset, hplain.staged⟩
      refine (ends_writeValue (w := keyed) hn rfl hvalue (.cleared hcleared)).mono ?_ ?_
      · exact fun _ _ h => ⟨h.1.trans (hcounts 1), h.2⟩
      · exact fun _ h => ⟨h.1.trans (hcounts 0), h.2⟩
    · obtain ⟨houter, hfits', htrail'⟩ := h
      have hkey' : ¬ w'.stack.current.progress.keyDone = true := by
        rw [show w'.stack.current.progress.keyDone = keyDone w from
          congrArg (fun o => o.2.2.2.2) houter, hkey]
        decide
      refine ⟨congrArg (fun o => (((o.1, o.2.1), o.2.2.1), o.2.2.2.1)) houter, ?_, ?_⟩
      · rw [Item.AdmitsMap, if_neg hkey']
        exact hfits'
      · rw [Item.entryMessage?, if_neg hkey']
        exact htrail'

/-! ## Fields -/

/-- A field is written, or stops where its progress fits it. -/
def EndsField (f : Field) (p : Write Unit) : Prop :=
  ∀ w : Writer, f.Admits w.stack.current.progress →
    Trail WriteFrame.Holds (f.inFlight w.stack.current.progress) w.stack.below →
    Ends (fun _ w' => w'.around = w.around ∧ w'.stack.Cleared)
      (fun w' => w'.around = w.around ∧ f.Admits w'.stack.current.progress ∧
        Trail WriteFrame.Holds (f.inFlight w'.stack.current.progress) w'.stack.below) (p w)

/-- A field that is written like one item. -/
theorem EndsField.of_puts {f : Field} {Fits : WriteProgress → Prop} {next : Option Message}
    {p : Write Unit} (hfits : ∀ q, f.Admits q ↔ q.Lone ∧ Fits q) (hnext : ∀ q, f.inFlight q = next)
    (hp : Puts Fits next p) : EndsField f p := by
  intro w hw htrail
  obtain ⟨hlone, hitem⟩ := (hfits _).mp hw
  rw [hnext] at htrail
  refine (hp w hitem htrail).mono (fun _ w' h => ?_) fun w' h => ?_
  · exact ⟨congrArg (fun o => (o.1, o.2.1)) h.1, h.2.2⟩
  · obtain ⟨houter, hitem', htrail'⟩ := h
    have hlone' : w'.stack.current.progress.Lone :=
      Eq.trans (congrArg (fun o => o.2.2) houter) hlone
    exact ⟨congrArg (fun o => (o.1, o.2.1)) houter, (hfits _).mpr ⟨hlone', hitem'⟩,
      (hnext _).symm ▸ htrail'⟩

/-- A field of which nothing is ever in flight but what is on the levels below. -/
theorem EndsField.of_plain {f : Field} {next : Option Message} {p : Write Unit}
    (hfits : ∀ q, f.Admits q ↔ q = default) (hnext : ∀ q, f.inFlight q = next)
    (hp : Puts Plain next p) : EndsField f p :=
  .of_puts (fun q => (hfits q).trans q.eq_default_iff) hnext hp

theorem endsField_list (hn : Descends nested) (items : List Item) :
    EndsField (.list (some items)) (putList nested (some items)) := by
  intro w hw htrail
  rw [putList_eq]
  refine ends_counting (adds_listStep hn) (fun x p hplain hkey => ?_) hw htrail
  exact ⟨hkey, x.admits_of_plain hplain⟩

theorem endsField_map (hn : Descends nested) (entries : List (Item × Item)) :
    EndsField (.map (some entries)) (putMap nested (some entries)) := by
  intro w hw htrail
  rw [putMap_eq]
  refine ends_counting (adds_entryStep hn) (fun e p hplain hkey => ?_) hw htrail
  rw [Item.AdmitsMap]
  split
  · exact e.2.admits_of_plain hplain
  · exact e.1.admits_of_plain hplain

/-- The words of a set of bits are written like a list of items without messages. -/
theorem endsField_bits (hn : Descends nested) (s : BitSet) :
    EndsField (.bits (some s)) (putList nested (some (s.words.map Item.ofWord))) := by
  have hnone (p : WriteProgress) :
      p.nested (fun x _ => x.message?) (s.words.map Item.ofWord) = none := by
    rw [WriteProgress.nested]
    split
    · cases hx : (s.words.map Item.ofWord)[p.index]? with
      | none => rfl
      | some x =>
        obtain ⟨word, -, rfl⟩ := List.mem_map.mp (List.mem_of_getElem? hx)
        rfl
    · rfl
  intro w hw htrail
  have hcleared := Trail.none_iff.mp htrail
  have hlist := endsField_list hn (s.words.map Item.ofWord) w hw (.cleared hcleared)
  refine hlist.mono (fun _ _ h => h) fun w' h => ?_
  obtain ⟨haround, hfits, htrail'⟩ := h
  refine ⟨haround, hfits, ?_⟩
  rw [Field.inFlight, hnone] at htrail'
  exact htrail'

theorem endsField (m : Marshaller) (hn : Descends nested) (f : Field) :
    EndsField f (putField nested m f) := by
  have hnull : Puts Plain none putNull := puts_put _
  cases f with
  | primitive k x => exact .of_plain (fun _ => .rfl) (fun _ => rfl) (puts_put _)
  | char c => exact .of_plain (fun _ => .rfl) (fun _ => rfl) (puts_char c)
  | text s => cases s with
    | none => exact .of_plain (fun _ => .rfl) (fun _ => rfl) hnull
    | some s => exact .of_puts (fun _ => .rfl) (fun _ => rfl) (puts_chunk _)
  | bytes bs => cases bs with
    | none => exact .of_plain (fun _ => .rfl) (fun _ => rfl) hnull
    | some bs => exact .of_puts (fun _ => .rfl) (fun _ => rfl) (puts_chunk bs)
  | uuid u => exact .of_plain (fun _ => .rfl) (fun _ => rfl) (puts_put _)
  | grid g => cases g with
    | none => exact .of_plain (fun _ => .rfl) (fun _ => rfl) puts_grid_none
    | some g => exact .of_puts (fun _ => .rfl) (fun _ => rfl) (puts_grid g)
  | bits s => cases s with
    | none => exact .of_plain (fun _ => .rfl) (fun _ => rfl) hnull
    | some s => exact endsField_bits hn s
  | value v =>
    rw [putField]
    by_cases h : v.isNull
    · rw [if_pos h]
      refine .of_plain (fun q => ?_) (fun _ => rfl) hnull
      rw [Field.Admits, if_pos h]
    · rw [if_neg h]
      have hencoded : FailsWith Error.Foreign (m.marshalValue v) :=
        v.failsWith_encode.mono fun _ => Error.Unwritable.foreign
      refine .of_puts (fun q => ?_) (fun _ => rfl) (puts_staged hencoded)
      rw [Field.Admits, if_neg h]
  | object t x =>
    have hencoded : FailsWith Error.Foreign (m.marshalErased t x) :=
      (m.failsWith_marshalErased t x).mono fun _ => Error.Unmarshallable.foreign
    exact .of_puts (fun _ => .rfl) (fun _ => rfl) (puts_staged hencoded)
  | message msg => cases msg with
    | none => exact .of_plain (fun _ => .rfl) (fun _ => rfl) (puts_put _)
    | some msg => exact .of_plain (fun _ => .rfl) (fun _ => rfl) (hn msg)
  | list items => cases items with
    | none => exact .of_plain (fun _ => .rfl) (fun _ => rfl) hnull
    | some items => exact endsField_list hn items
  | map entries => cases entries with
    | none => exact .of_plain (fun _ => .rfl) (fun _ => rfl) hnull
    | some entries => exact endsField_map hn entries
  | stuck => exact fun w hw htrail => ⟨rfl, hw, htrail⟩
  | probe readings =>
    refine .of_plain (fun _ => .rfl) (fun _ => rfl) (.of_stack fun w => ?_)
    exact ends_put (Layout.probe w.stack.depth w.cursor.remaining) w
  | skipped initial content =>
    exact .of_plain (fun _ => .rfl) (fun _ => rfl) (.of_stack fun _ => rfl)

/-! ## Messages -/

/-- A message is written, or stops where a trail leads from its level downwards. -/
def EndsMessage (msg : Message) (p : Write Unit) : Prop :=
  ∀ w : Writer, Trail WriteFrame.Holds (some msg) (w.stack.current :: w.stack.below) →
    Ends (fun _ w' => w'.stack.above = w.stack.above ∧ w'.stack.Cleared)
      (fun w' => w'.stack.above = w.stack.above ∧
        Trail WriteFrame.Holds (some msg) (w'.stack.current :: w'.stack.below)) (p w)

/-- From a field that fits the progress on, fields are written one after the other. -/
theorem ends_forEach_fieldStep (m : Marshaller) (hn : Descends nested) {msg : Message}
    {fs : List Field} (hheader : headerWritten w = true)
    (hfs : fs = msg.sent.drop (completed w))
    (hfits : ∀ f, fs.head? = some f → f.Admits w.stack.current.progress ∧
      Trail WriteFrame.Holds (f.inFlight w.stack.current.progress) w.stack.below)
    (hend : fs = [] → w.stack.Cleared) :
    Ends (fun _ w' => w'.stack.above = w.stack.above ∧ w'.stack.Cleared)
      (fun w' => w'.stack.above = w.stack.above ∧
        Trail WriteFrame.Holds (some msg) (w'.stack.current :: w'.stack.below))
      (forEach (fieldStep nested m) fs w) := by
  induction fs generalizing w with
  | nil => exact ⟨rfl, hend rfl⟩
  | cons f fs ih =>
    have hhead : msg.sent[completed w]? = some f := by
      rw [← List.head?_drop, ← hfs, List.head?_cons]
    have htail : fs = msg.sent.drop (completed w + 1) := by
      rw [← List.tail_drop, ← hfs, List.tail_cons]
    obtain ⟨hf, htrail⟩ := hfits f rfl
    rw [forEach, fieldStep, bind_assoc]
    refine (endsField m hn f w hf htrail).bind (fun _ w' h => ?_) fun w' h => ?_
    · obtain ⟨haround, hcleared⟩ := h
      have habove : w'.stack.above = w.stack.above := congrArg Prod.fst haround
      have hcompleted : completed w' = completed w := congrArg (fun a => a.2.1) haround
      have hheader' : headerWritten w' = true := (congrArg (fun a => a.2.2) haround).trans hheader
      let done : Writer := { w' with stack := w'.stack.modify fun frame =>
        { frame with completed := frame.completed + 1, progress := default } }
      rw [← habove]
      exact ih (w := done) hheader' (by rw [htail, ← hcompleted]; rfl)
        (fun f _ => ⟨f.admits_default, .cleared hcleared⟩) fun _ => hcleared
    · obtain ⟨haround, hf', htrail'⟩ := h
      have hcompleted : w'.stack.current.completed = completed w :=
        congrArg (fun a => a.2.1) haround
      have hheader' : headerWritten w' = true := (congrArg (fun a => a.2.2) haround).trans hheader
      exact ⟨congrArg Prod.fst haround,
        .level ⟨hheader', f, hcompleted.symm ▸ hhead, hf', rfl⟩ htrail'⟩

theorem endsMessage_putBody (m : Marshaller) (hn : Descends nested) (msg : Message) :
    EndsMessage msg (putBody nested m msg) := by
  intro w hw
  rw [putBody_eq]
  cases hw with
  | cleared h =>
    obtain ⟨hcurrent, hcleared⟩ := List.forall_mem_cons.mp h
    rw [bind_apply, once_of_not_seen (by rw [headerWritten, hcurrent]; rfl), ← bind_apply,
      writeHeader, bind_assoc]
    refine (ends_put [msg.type] w).bind (fun _ w₁ hw₁ => ?_) fun w₁ hw₁ => ?_
    · obtain ⟨stack, cursor⟩ := w₁
      cases hw₁
      refine ends_forEach_fieldStep m hn rfl rfl (fun f _ => ⟨?_, .cleared hcleared⟩)
        fun _ => hcleared
      change f.Admits w.stack.current.progress
      rw [hcurrent]
      exact f.admits_default
    · obtain ⟨stack, cursor⟩ := w₁
      cases hw₁
      exact ⟨rfl, .cleared h⟩
  | level h hnext =>
    obtain ⟨f, hf, hfits, hnextf⟩ := h.field
    have hseen : headerWritten w = true := h.header
    rw [bind_ok (once_of_seen hseen)]
    refine ends_forEach_fieldStep m hn hseen rfl (fun f' hf' => ?_) fun hnil => ?_
    · rw [List.head?_drop] at hf'
      cases hf.symm.trans hf'
      exact ⟨hfits, hnextf ▸ hnext⟩
    · rw [← List.head?_eq_none_iff, List.head?_drop] at hnil
      cases hf.symm.trans hnil

/-- A message one level down is written, or leaves its frames behind where it stops. -/
theorem descends_descend {write : Message → Write Unit} (h : ∀ msg, EndsMessage msg (write msg)) :
    Descends fun msg => descend (write msg) := by
  intro msg w hw htrail
  have hrun := h msg w.down htrail.descend
  have houter {w' : Writer} (habove : w'.stack.above = w.down.stack.above) (finished : Bool) :
      (w'.up finished).outer = w.outer := by
    obtain ⟨habove', hcurrent⟩ := FrameStack.ascend_of_above habove finished
    rw [Writer.outer, FrameStack.beside, Writer.up, habove', hcurrent]
    rfl
  have hplain {w' : Writer} (habove : w'.stack.above = w.down.stack.above) (finished : Bool) :
      (w'.up finished).stack.current.progress.Plain := by
    rw [Writer.up, (FrameStack.ascend_of_above habove finished).2]
    exact hw
  change Ends _ _ (descend (write msg) w)
  rw [descend_apply]
  rcases hwrite : write msg w.down with ⟨u, w'⟩ | ⟨_ | e, w'⟩ <;> rw [hwrite] at hrun
  · obtain ⟨habove, hcleared⟩ := hrun
    exact ⟨houter habove true, hplain habove true, hcleared.ascend⟩
  · obtain ⟨habove, htrail'⟩ := hrun
    exact ⟨houter habove false, hplain habove false, htrail'.ascend habove⟩
  · exact hrun

theorem endsMessage_putMessage (m : Marshaller) (levels : Nat) (msg : Message) :
    EndsMessage msg (putMessage m levels msg) := by
  have hdeep : (Error.messageNesting m.config.maxNestingDepth).Foreign := rfl
  induction levels generalizing msg with
  | zero => exact endsMessage_putBody m (descends_fail hdeep) msg
  | succ levels ih => exact endsMessage_putBody m (descends_descend ih) msg

end Write

end WireCodec
