import WireCodec.Proofs.Writing.Composition
import WireCodec.Proofs.Writing.Delivery

/-!
Writing a message, whatever its fields are, only adds to what is written, and adds its type byte
first.
-/

namespace WireCodec

namespace Write

open Step

/-- However a routine ends, it only adds to what is written. -/
def Advances {α : Type} (p : Write α) : Prop := ∀ w,
  match p w with
  | .ok _ w' => w.cursor.Precedes w'.cursor
  | .error _ w' => w.cursor.Precedes w'.cursor

namespace Advances

variable {α β : Type} {p : Write α} {w w' : Writer}

theorem ok (h : Advances p) {x : α} (hp : p w = .ok x w') : w.cursor.Precedes w'.cursor := by
  simpa only [hp] using h w

theorem error (h : Advances p) {e : Stop Error} (hp : p w = .error e w') :
    w.cursor.Precedes w'.cursor := by
  simpa only [hp] using h w

theorem pure (x : α) : Advances (Pure.pure x : Write α) := fun w => .refl w.cursor

theorem throw (e : Stop Error) : Advances (MonadExcept.throw e : Write α) :=
  fun w => .refl w.cursor

theorem bind {q : α → Write β} (hp : Advances p) (hq : ∀ x, Advances (q x)) :
    Advances (p >>= q) := by
  intro w
  rw [bind_apply]
  cases h : p w with
  | error e w₁ => exact hp.error h
  | ok x w₁ =>
    have hc := hp.ok h
    cases h₁ : q x w₁ with
    | ok y w₂ => simpa only [h₁] using hc.trans ((hq x).ok h₁)
    | error e w₂ => simpa only [h₁] using hc.trans ((hq x).error h₁)

theorem modifyFrame (u : WriteFrame → WriteFrame) : Advances (Write.modifyFrame u) :=
  fun w => .refl w.cursor

theorem put (bs : Bytes) : Advances (Write.put bs) := by
  intro w
  by_cases h : bs.length ≤ w.cursor.remaining
  · rw [put_apply, if_pos h]
    exact w.wrote_precedes bs
  · rw [put_apply, if_neg h]
    exact .refl w.cursor

theorem stream (bs : Bytes) : Advances (Write.stream bs) := by
  intro w
  by_cases hchanged : bs.length < w.offset
  · rw [stream_apply, if_pos hchanged]
    exact .refl w.cursor
  · by_cases hfits : (bs.drop w.offset).length ≤ w.cursor.remaining
    · rw [stream_apply, if_neg hchanged, if_pos hfits]
      exact w.wrote_precedes (bs.drop w.offset)
    · rw [stream_apply, if_neg hchanged, if_neg hfits]
      exact w.wrote_precedes (bs.drop w.offset)

theorem progress {q : WriteProgress → Write α} (hq : ∀ p, Advances (q p)) :
    Advances (Write.progress >>= q) := by
  intro w
  rw [progress_bind]
  exact hq _ w

theorem once {seen : Writer → Bool} {step : Write Unit} (h : Advances step) :
    Advances (once seen step) := by
  intro w
  cases hs : seen w with
  | true => rw [once_of_seen hs]; exact .refl w.cursor
  | false => rw [once_of_not_seen hs]; exact h w

theorem forEach {step : β → Write Unit} {xs : List β} (h : ∀ x ∈ xs, Advances (step x)) :
    Advances (forEach step xs) := by
  induction xs with
  | nil => exact .pure ()
  | cons x xs ih =>
    obtain ⟨hx, hxs⟩ := List.forall_mem_cons.mp h
    exact hx.bind fun _ => ih hxs

theorem forEachFrom {count : Writer → Nat} {step : β → Write Unit} {xs : List β}
    (h : ∀ x ∈ xs, Advances (step x)) : Advances (forEachFrom count step xs) :=
  fun w => forEach (fun x hx => h x (List.mem_of_mem_drop hx)) w

end Advances

theorem compositional_advances : Compositional Advances where
  pure := .pure
  fail e := .throw (.failed e)
  bind := .bind
  progress := .progress
  modifyProgress _ := .modifyFrame _
  put _ := .put _
  stream := .stream
  probe w := Advances.put (Layout.probe w.stack.depth w.cursor.remaining) w

section

variable {nested : Message → Write Unit}

theorem advances_putFields (m : Marshaller) (h : ∀ m, Advances (nested m)) (xs : List Field) :
    Advances (forEachFrom completed (fieldStep nested m) xs) :=
  .forEachFrom fun _ _ =>
    (compositional_advances.putField m (fun msg _ => h msg) fun _ => .throw _).bind fun _ =>
      .modifyFrame _

theorem advances_putBody (m : Marshaller) (h : ∀ m, Advances (nested m)) (msg : Message) :
    Advances (putBody nested m msg) := by
  rw [putBody_eq]
  have hheader : Advances (writeHeader msg.type) := (Advances.put _).bind fun _ => .modifyFrame _
  exact hheader.once.bind fun _ => advances_putFields m h msg.sent

end

theorem advances_descend {p : Write Unit} (h : Advances p) : Advances (descend p) := by
  intro w
  rw [descend_apply]
  cases hp : p w.down with
  | ok u w' =>
    have hdown : w.down.cursor.Precedes w'.cursor := h.ok hp
    exact hdown
  | error stop w' =>
    have hdown : w.down.cursor.Precedes w'.cursor := h.error hp
    exact hdown

theorem advances_putMessage (m : Marshaller) (levels : Nat) (msg : Message) :
    Advances (putMessage m levels msg) := by
  induction levels generalizing msg with
  | zero => exact advances_putBody m (fun _ => .throw _) msg
  | succ levels ih => exact advances_putBody m (fun inner => advances_descend (ih inner)) msg

/-- The first byte that a message takes is its type. -/
theorem written_putBody {m : Marshaller} {nested : Message → Write Unit}
    (h : ∀ m, Advances (nested m)) {msg : Message} {w w' : Writer} {stop : Stop Error}
    (hw : headerWritten w = false) (hroom : 1 ≤ w.cursor.remaining)
    (hrun : putBody nested m msg w = .error stop w') :
    ∃ bs, w'.cursor.written.toList = w.cursor.written.toList ++ msg.type :: bs := by
  have hput : put [msg.type] w = .ok () (w.wrote [msg.type]) := by
    rw [put_apply, if_pos (by exact hroom)]
  rw [putBody_eq, bind_apply, once_of_not_seen hw, writeHeader, bind_ok hput] at hrun
  obtain ⟨-, bs, hbs⟩ := (advances_putFields m h msg.sent).error hrun
  have htype : (w.wrote [msg.type]).cursor.written.toList =
      w.cursor.written.toList ++ [msg.type] := by
    rw [Writer.wrote, WriteCursor.written_putPartial, List.take_of_length_le hroom]
  refine ⟨bs, hbs.trans ?_⟩
  rw [List.append_cons, ← htype]

theorem written_writeMessage {m : Marshaller} {msg : Message} {w w' : Writer} {stop : Stop Error}
    (hw : headerWritten w = false) (hroom : 1 ≤ w.cursor.remaining)
    (hrun : writeMessage m msg w = .error stop w') :
    ∃ bs, w'.cursor.written.toList = w.cursor.written.toList ++ msg.type :: bs := by
  rw [writeMessage] at hrun
  cases hlevels : m.config.maxNestingDepth - 1 with
  | zero =>
    rw [hlevels] at hrun
    exact written_putBody (fun _ => .throw _) hw hroom hrun
  | succ levels =>
    rw [hlevels] at hrun
    exact written_putBody (fun inner => advances_descend (advances_putMessage m levels inner))
      hw hroom hrun

end Write

end WireCodec
