import WireCodec.Proofs.Writing.Drives

/-!
# Writers that follow a script

However the room for a message is cut into buffers, and whatever marshaller each call is handed, a
routine writes its script of segments: a call writes what `Drives` says, and where it stops for want
of room it leaves a stack from which the routine goes on with the segments that are left
(`Write.Follows`). Each routine is stated with the frame that it starts from and the frame that it
leaves (`Write.Writes`), so that routines follow one another.
-/

namespace WireCodec

theorem WriteCursor.putPartial_nil (c : WriteCursor) : c.putPartial [] = c := eq_of rfl (by simp)

theorem WriteCursor.putPartial_append (c : WriteCursor) (as bs : Bytes) :
    (c.putPartial as).putPartial bs = c.putPartial (as ++ bs) :=
  eq_of rfl (by simp [List.take_append])

theorem WriteCursor.putPartial_take (c : WriteCursor) (bs : Bytes) :
    c.putPartial (bs.take c.remaining) = c.putPartial bs :=
  eq_of rfl (by simp [List.take_take])

/-- A stack with these levels above and this frame, and nothing left behind below. -/
structure FrameStack.At (above : List WriteFrame) (f : WriteFrame)
    (s : FrameStack WriteFrame) : Prop where
  above : s.above = above
  current : s.current = f
  cleared : s.Cleared

theorem FrameStack.At.modify {above : List WriteFrame} {f : WriteFrame}
    {s : FrameStack WriteFrame} (h : s.At above f) (u : WriteFrame → WriteFrame) :
    (s.modify u).At above (u f) :=
  ⟨h.above, congrArg u h.current, h.cleared⟩

/-- Going up from a level that is finished leads to the frame above it. -/
theorem FrameStack.At.ascend {above : List WriteFrame} {f g : WriteFrame}
    {s : FrameStack WriteFrame} (h : s.At (f :: above) g) : (s.ascend true).At above f := by
  obtain ⟨above', current, below⟩ := s
  obtain ⟨rfl, -, hcleared⟩ := h
  exact ⟨rfl, rfl, hcleared.ascend⟩

namespace Segment.Outcome

/-- The result of a routine that ends so. -/
def result : Outcome → Writer → EStateM.Result (Stop Error) Writer Unit
  | done, w => .ok () w
  | failed e, w => .error (.failed e) w
  | stopped _, w => .error .suspended w

/-- What holds of the stack that is left: one thing if all is written, another one if segments are
left. -/
def Leaves (leave : FrameStack WriteFrame → Prop)
    (follow : FrameStack WriteFrame → List Segment → Prop) (s : FrameStack WriteFrame) :
    Outcome → Prop
  | done => leave s
  | failed _ => True
  | stopped left => follow s left

end Segment.Outcome

namespace Write

open Step Segment

variable {above : List WriteFrame} {s : FrameStack WriteFrame} {f g h : WriteFrame}
  {leave leave' : FrameStack WriteFrame → Prop}
  {follow follow' : FrameStack WriteFrame → List Segment → Prop}
  {m : Marshaller} {config : Config} {w : Writer} {as bs segments : List Segment} {n : Nat}

/-- One call of a routine writes what the segments drive into the room there is, and leaves a stack
accordingly. -/
def Goes (leave : FrameStack WriteFrame → Prop)
    (follow : FrameStack WriteFrame → List Segment → Prop) (m : Marshaller) (p : Write Unit)
    (w : Writer) (segments : List Segment) : Prop :=
  ∃ out o s, Drives m segments w.cursor.remaining out o ∧
    p w = o.result ⟨s, w.cursor.putPartial out⟩ ∧ o.Leaves leave follow s

namespace Goes

variable {p q : Write Unit}

theorem pure (hs : leave w.stack) : Goes leave follow m (Pure.pure ()) w [] :=
  ⟨[], .done, w.stack, .done, by rw [WriteCursor.putPartial_nil]; rfl, hs⟩

theorem bind (hp : Goes leave follow m p w as)
    (hq : ∀ s cursor, leave s → Goes leave' follow' m q ⟨s, cursor⟩ bs)
    (hfollow : ∀ s cursor left, p w = .error .suspended ⟨s, cursor⟩ → follow s left →
      follow' s (left ++ bs)) :
    Goes leave' follow' m (p >>= fun _ => q) w (as ++ bs) := by
  obtain ⟨out, o, s, hdrives, hrun, hleaves⟩ := hp
  cases o with
  | done =>
    obtain ⟨out', o, s', hdrives', hrun', hleaves'⟩ := hq s (w.cursor.putPartial out) hleaves
    rw [WriteCursor.remaining_putPartial] at hdrives'
    rw [WriteCursor.putPartial_append] at hrun'
    exact ⟨_, o, s', hdrives.trans hdrives', (bind_ok hrun).trans hrun', hleaves'⟩
  | failed e =>
    exact ⟨out, .failed e, s, hdrives.before (by simp) bs, bind_error hrun, trivial⟩
  | stopped left =>
    exact ⟨out, .stopped (left ++ bs), s, hdrives.before (by simp) bs, bind_error hrun,
      hfollow s _ left hrun hleaves⟩

/-- What holds of the stack that is left may depend on where the call stopped. -/
theorem imp (hp : Goes leave follow m p w segments)
    (hfollow : ∀ s cursor left, p w = .error .suspended ⟨s, cursor⟩ → follow s left →
      follow' s left) : Goes leave follow' m p w segments := by
  obtain ⟨out, o, s, hdrives, hrun, hleaves⟩ := hp
  refine ⟨out, o, s, hdrives, hrun, ?_⟩
  cases o with
  | done => exact hleaves
  | failed e => trivial
  | stopped left => exact hfollow s _ left hrun hleaves

/-- A routine does as another one does from another stack. -/
theorem of_eq {w' : Writer} (hq : Goes leave follow m q w' segments)
    (hcursor : w.cursor = w'.cursor) (h : p w = q w') : Goes leave follow m p w segments := by
  obtain ⟨out, o, s, hdrives, hrun, hleaves⟩ := hq
  rw [← hcursor] at hdrives hrun
  exact ⟨out, o, s, hdrives, h.trans hrun, hleaves⟩

theorem value {encoded : Marshaller → Except Error Bytes}
    (hp : Goes leave follow m p w (Segment.staged (encoded m))) :
    Goes leave follow m p w [.value encoded] := by
  obtain ⟨out, o, s, hdrives, hrun, hleaves⟩ := hp
  rw [← List.append_nil (Segment.staged _)] at hdrives
  exact ⟨out, o, s, .value hdrives, hrun, hleaves⟩

end Goes

/-- For so many calls, whatever marshaller and room each one has, a routine goes on with the
segments that are left. -/
def Follows (config : Config) (p : Marshaller → Write Unit)
    (leave : FrameStack WriteFrame → Prop) :
    (calls : Nat) → FrameStack WriteFrame → List Segment → Prop
  | 0, _, _ => True
  | calls + 1, s, segments => ∀ m : Marshaller, m.config = config → ∀ cursor,
    Goes leave (Follows config p leave calls) m (p m) ⟨s, cursor⟩ segments

/-- From a frame, with nothing left behind below it, a routine writes these segments, in however
many calls, and leaves another frame. -/
def Writes (config : Config) (f : WriteFrame) (p : Marshaller → Write Unit)
    (segments : List Segment) (g : WriteFrame) : Prop :=
  ∀ above (s : FrameStack WriteFrame), s.At above f →
    ∀ calls, Follows config p (FrameStack.At above g) calls s segments

namespace Follows

variable {p q : Marshaller → Write Unit}

/-- A routine does as another one does from some stacks, which the other one does not leave where
it stops. -/
theorem of_eq {P : FrameStack WriteFrame → Prop} (hq : Follows config q leave n s segments)
    (hrun : ∀ m, m.config = config → ∀ s cursor, P s → p m ⟨s, cursor⟩ = q m ⟨s, cursor⟩)
    (hkeep : ∀ m s cursor w, P s → q m ⟨s, cursor⟩ = .error .suspended w → P w.stack)
    (hs : P s) : Follows config p leave n s segments := by
  induction n generalizing s segments with
  | zero => trivial
  | succ n ih =>
    intro m hm cursor
    refine .of_eq ((hq m hm cursor).imp fun s' cursor' left hstop hleft => ?_) rfl
      (hrun m hm s cursor hs)
    exact ih hleft (hkeep m s cursor _ hs hstop)

/-- A routine and then a note in its frame. -/
theorem bind_modifyFrame (hp : Follows config p (FrameStack.At above f) n s segments)
    (u : WriteFrame → WriteFrame) :
    Follows config (fun m => p m >>= fun _ => modifyFrame u) (FrameStack.At above (u f)) n s
      segments := by
  induction n generalizing s segments with
  | zero => trivial
  | succ n ih =>
    intro m hm cursor
    have hnote (s : FrameStack WriteFrame) (cursor : WriteCursor) (hs : s.At above f) :
        Goes (FrameStack.At above (u f)) (Follows config (fun m => p m >>= fun _ => modifyFrame u)
          (FrameStack.At above (u f)) n) m (modifyFrame u) ⟨s, cursor⟩ [] :=
      ⟨[], .done, s.modify u, .done, by rw [WriteCursor.putPartial_nil]; rfl, hs.modify u⟩
    rw [← List.append_nil segments]
    refine (hp m hm cursor).bind hnote fun s _ left _ hleft => ?_
    rw [List.append_nil]
    exact ih hleft

section

variable {seen : Writer → Bool}

/-- A step that was taken before, and then another one. -/
theorem once_of_seen (hq : Follows config q leave n s segments)
    (hseen : ∀ s c c', seen ⟨s, c⟩ = seen ⟨s, c'⟩)
    (hkeep : ∀ {m w w'}, q m w = .error .suspended w' → seen w' = seen w)
    (hs : ∀ cursor, seen ⟨s, cursor⟩ = true) :
    Follows config (fun m => once seen (p m) >>= fun _ => q m) leave n s segments := by
  refine hq.of_eq (P := fun s => ∀ cursor, seen ⟨s, cursor⟩ = true)
    (fun m _ s cursor hs => bind_ok (WireCodec.once_of_seen (hs cursor)))
    (fun m s cursor w hs hstop cursor' => ?_) hs
  rw [hseen _ cursor' w.cursor, hkeep hstop, hs]

/-- A step that is still to be completed, and then another one: each call begins with the step, and
the call that completes it goes on with the other one. -/
theorem once_bind (hp : Follows config p (FrameStack.At above g) n s as)
    (hq : Writes config g q bs h) (hseen : ∀ s c c', seen ⟨s, c⟩ = seen ⟨s, c'⟩)
    (hpause : ∀ {m w w'}, p m w = .error .suspended w' → seen w' = seen w)
    (hdone : ∀ w : Writer, w.stack.current = g → seen w = true)
    (hkeep : ∀ {m w w'}, q m w = .error .suspended w' → seen w' = seen w)
    (hs : ∀ cursor, seen ⟨s, cursor⟩ = false) :
    Follows config (fun m => once seen (p m) >>= fun _ => q m) (FrameStack.At above h) n s
      (as ++ bs) := by
  induction n generalizing s as with
  | zero => trivial
  | succ n ih =>
    intro m hm cursor
    have hrun : (once seen (p m) >>= fun _ => q m) ⟨s, cursor⟩ =
        (p m >>= fun _ => q m) ⟨s, cursor⟩ := by
      rw [bind_apply, bind_apply, once_of_not_seen (hs cursor)]
    refine .of_eq ((hp m hm cursor).bind (fun s cursor hs => ?_)
      fun s' cursor' left hstop hleft => ?_) rfl hrun
    · refine (hq above s hs (n + 1) m hm cursor).imp fun s' cursor' left hstop hleft => ?_
      refine hleft.once_of_seen hseen hkeep fun c => ?_
      rw [hseen _ c cursor', hkeep hstop, hdone _ hs.current]
    · refine ih hleft fun c => ?_
      rw [hseen _ c cursor', hpause hstop, hs]

end

end Follows

namespace Writes

variable {p q : Marshaller → Write Unit}

theorem pure (f : WriteFrame) : Writes config f (fun _ => Pure.pure ()) [] f := by
  intro above s hs calls
  cases calls with
  | zero => trivial
  | succ n => exact fun m _ cursor => Goes.pure hs

theorem put (f : WriteFrame) (bs : Bytes) :
    Writes config f (fun _ => Write.put bs) [.whole bs] f := by
  intro above s hs calls
  induction calls with
  | zero => trivial
  | succ n ih =>
    intro m _ cursor
    by_cases hroom : bs.length ≤ cursor.remaining
    · refine ⟨bs, .done, s, ?_, (put_apply bs _).trans (if_pos hroom), hs⟩
      simpa using Drives.whole hroom .done
    · refine ⟨[], .stopped [.whole bs], s, .wholeStopped (Nat.lt_of_not_le hroom), ?_, ih⟩
      rw [WriteCursor.putPartial_nil]
      exact (put_apply bs _).trans (if_neg hroom)

theorem fail {e : Error} {error : Marshaller → Error}
    (h : ∀ m : Marshaller, m.config = config → error m = e) (f g : WriteFrame) :
    Writes config f (fun m => Write.fail (error m)) [.failed e] g := by
  intro above s _ calls
  cases calls with
  | zero => trivial
  | succ n =>
    intro m hm cursor
    refine ⟨[], .failed e, s, .failed, ?_, trivial⟩
    rw [WriteCursor.putPartial_nil, ← h m hm]
    rfl

theorem suspend (f g : WriteFrame) :
    Writes config f (fun _ => throw .suspended) [.waiting] g := by
  intro above s _ calls
  induction calls with
  | zero => trivial
  | succ n ih =>
    intro m _ cursor
    refine ⟨[], .stopped [.waiting], s, .waiting, ?_, ih⟩
    rw [WriteCursor.putPartial_nil]
    rfl

theorem put_lift (f : WriteFrame) (r : Except Error Bytes) :
    Writes config f (fun _ => do Write.put (← lift r)) (ofResult r) f := by
  cases r with
  | ok bs => exact put f bs
  | error e => exact fail (fun _ _ => rfl) f f

theorem bind_modifyFrame (hp : Writes config f p segments g) (u : WriteFrame → WriteFrame) :
    Writes config f (fun m => p m >>= fun _ => modifyFrame u) segments (u g) :=
  fun above s hs calls => (hp above s hs calls).bind_modifyFrame u

theorem bind_modifyProgress (hp : Writes config f p segments g)
    (u : WriteProgress → WriteProgress) :
    Writes config f (fun m => p m >>= fun _ => modifyProgress u) segments
      { g with progress := u g.progress } :=
  hp.bind_modifyFrame _

/-- A step that is taken once, and then another one. -/
theorem once_bind {seen : Writer → Bool} (hp : Writes config f p as g)
    (hq : Writes config g q bs h) (hseen : ∀ s c c', seen ⟨s, c⟩ = seen ⟨s, c'⟩)
    (hstart : ∀ w : Writer, w.stack.current = f → seen w = false)
    (hpause : ∀ {m w w'}, p m w = .error .suspended w' → seen w' = seen w)
    (hdone : ∀ w : Writer, w.stack.current = g → seen w = true)
    (hkeep : ∀ {m w w'}, q m w = .error .suspended w' → seen w' = seen w) :
    Writes config f (fun m => once seen (p m) >>= fun _ => q m) (as ++ bs) h :=
  fun above s hs calls => (hp above s hs calls).once_bind hq hseen hpause hdone hkeep
    fun _ => hstart _ hs.current

end Writes

/-! ## Steps for each of a list -/

/-- A step for an element of a list that leads from frame to frame, each of which counts the steps
that are taken. -/
structure Counts {β : Type} (config : Config) (count : Writer → Nat) (frame : Nat → WriteFrame)
    (step : Marshaller → β → Write Unit) (part : β → List Segment) (x : β) : Prop where
  writes : ∀ i, Writes config (frame i) (fun m => step m x) (part x) (frame (i + 1))
  counted : ∀ i, ∀ w : Writer, w.stack.current = frame i → count w = i
  paused : ∀ {m w w'}, step m x w = .error .suspended w' → count w' = count w

section

variable {β : Type} {count : Writer → Nat} {frame : Nat → WriteFrame}
  {step : Marshaller → β → Write Unit} {part : β → List Segment} {xs ys : List β} {x : β}

/-- The steps that are left of a list, if a step that stopped goes on in a way that is known. -/
theorem goes_forEach (hsame : ∀ s c c', count ⟨s, c⟩ = count ⟨s, c'⟩)
    (hsteps : ∀ x ∈ xs, Counts config count frame step part x)
    (hgo : ∀ {before x ys s left}, before ++ x :: ys = xs →
      (∀ cursor, count ⟨s, cursor⟩ = before.length) →
      Follows config (fun m => step m x) (FrameStack.At above (frame (before.length + 1))) n s
        left → follow s (left ++ ys.flatMap part))
    (before : List β) (hxs : before ++ ys = xs) (hm : m.config = config)
    (hs : s.At above (frame before.length)) (cursor : WriteCursor) :
    Goes (FrameStack.At above (frame xs.length)) follow m (forEach (step m) ys) ⟨s, cursor⟩
      (ys.flatMap part) := by
  induction ys generalizing before s cursor with
  | nil =>
    rw [List.append_nil] at hxs
    subst hxs
    exact .pure hs
  | cons x ys ih =>
    have hx : x ∈ xs := hxs ▸ List.mem_append_right _ List.mem_cons_self
    have hstep := hsteps x hx
    refine (hstep.writes _ above s hs (n + 1) m hm cursor).bind (fun s cursor hs => ?_)
      fun s' cursor' left hstop hleft => ?_
    · refine ih (before ++ [x]) (by simpa using hxs) ?_ cursor
      rwa [List.length_append, List.length_singleton]
    · refine hgo hxs (fun c => ?_) hleft
      rw [hsame _ c cursor', hstep.paused hstop, hstep.counted _ _ hs.current]

/-- Where a step has stopped, the steps for a list go on with what is left of it, and then with the
elements behind it. -/
theorem follows_forEachFrom {before : List β} (hsame : ∀ s c c', count ⟨s, c⟩ = count ⟨s, c'⟩)
    (hsteps : ∀ x ∈ xs, Counts config count frame step part x) (hxs : before ++ x :: ys = xs)
    (hs : ∀ cursor, count ⟨s, cursor⟩ = before.length)
    (hleft : Follows config (fun m => step m x)
      (FrameStack.At above (frame (before.length + 1))) n s segments) :
    Follows config (fun m => forEachFrom count (step m) xs)
      (FrameStack.At above (frame xs.length)) n s (segments ++ ys.flatMap part) := by
  induction n generalizing before x ys s segments with
  | zero => trivial
  | succ n ih =>
    intro m hm cursor
    have hrun : forEachFrom count (step m) xs ⟨s, cursor⟩ =
        (step m x >>= fun _ => forEach (step m) ys) ⟨s, cursor⟩ := by
      rw [forEachFrom, get_bind, hs, ← hxs, List.drop_left]
      rfl
    have hx : x ∈ xs := hxs ▸ List.mem_append_right _ List.mem_cons_self
    refine .of_eq ((hleft m hm cursor).bind (fun s cursor hs => ?_)
      fun s' cursor' left hstop hleft => ?_) rfl hrun
    · refine goes_forEach hsame hsteps ih (before ++ [x]) (by simpa using hxs) hm ?_ cursor
      rwa [List.length_append, List.length_singleton]
    · refine ih hxs (fun c => ?_) hleft
      rw [hsame _ c cursor', (hsteps x hx).paused hstop, hs]

theorem writes_forEachFrom (hsame : ∀ s c c', count ⟨s, c⟩ = count ⟨s, c'⟩)
    (hstart : ∀ w : Writer, w.stack.current = frame 0 → count w = 0)
    (hsteps : ∀ x ∈ xs, Counts config count frame step part x) :
    Writes config (frame 0) (fun m => forEachFrom count (step m) xs) (xs.flatMap part)
      (frame xs.length) := by
  intro above s hs calls
  cases calls with
  | zero => trivial
  | succ n =>
    intro m hm cursor
    have hrun : forEachFrom count (step m) xs ⟨s, cursor⟩ = forEach (step m) xs ⟨s, cursor⟩ := by
      rw [forEachFrom, get_bind, hstart _ hs.current, List.drop_zero]
    exact .of_eq (goes_forEach hsame hsteps (follows_forEachFrom hsame hsteps) [] rfl hm hs cursor)
      rfl hrun

end

end Write

end WireCodec
