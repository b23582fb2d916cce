import WireCodec.Proofs.Reading.Composition
import WireCodec.Proofs.Reading.Whole
import WireCodec.Proofs.RoundTrip.Connection

/-!
# What reading fails with

No call of a reader fails for want of bytes: it waits. Still one of its errors can read like input
that ended early. It comes from the object codec, which is run on the byte string of a value or an
object field once the byte string is all there, and finds that the value in it is not
(`ReadContext.Blames`); more bytes do not heal it.
-/

namespace WireCodec

/-- Bytes hold, behind its length, a whole byte string of a value or an object field on which the
object codec fails with an error. -/
def ReadContext.Blames (ctx : ReadContext) (e : Error) (bs : Bytes) : Prop :=
  ∃ s kind t blob, ctx.Declared s ∧ kind ∈ s.fields ∧ kind.Holds t ∧
    LittleEndian.toBytes 4 blob.length ++ blob <:+: bs ∧ ctx.marshaller.unmarshal t blob = .error e

theorem ReadContext.Blames.mono {ctx : ReadContext} {e : Error} {bs cs : Bytes}
    (h : ctx.Blames e bs) (hbs : bs <:+: cs) : ctx.Blames e cs := by
  obtain ⟨s, kind, t, blob, hs, hkind, ht, hblob, herror⟩ := h
  exact ⟨s, kind, t, blob, hs, hkind, ht, hblob.trans hbs, herror⟩

/-- Between items, with nothing left behind on the levels below. -/
structure Reader.Clear (r : Reader) : Prop where
  idle : r.stack.current.Idle
  cleared : r.stack.Cleared

/-- On the same level, a reader is between items again, with some bytes fewer. -/
structure Reader.Moves (r r' : Reader) : Prop where
  clear : r'.Clear
  above : r'.stack.above = r.stack.above
  rest : r'.cursor.rest <:+ r.cursor.rest

theorem Reader.Moves.refl {r : Reader} (h : r.Clear) : r.Moves r := ⟨h, rfl, List.suffix_rfl⟩

theorem Reader.Moves.trans {r r' r'' : Reader} (h : r.Moves r') (h' : r'.Moves r'') :
    r.Moves r'' :=
  ⟨h'.clear, h'.above.trans h.above, h'.rest.trans h.rest⟩

theorem ReadFrame.idle_default : (default : ReadFrame).Idle := ⟨rfl, rfl, rfl, rfl⟩

namespace Read

open Step

/-- A reader has moved on or stopped for bytes, or it has failed; and if it has failed as if input
had ended early, there is a byte string to blame in the bytes. -/
def Accounted {α : Type} (ctx : ReadContext) (r : Reader) :
    EStateM.Result (Stop Error) Reader α → Prop
  | .ok _ r' => r.Moves r'
  | .error (.failed e) _ => e.isIncomplete = true → ctx.Blames e r.cursor.rest
  | .error .suspended _ => True

/-- From between items, a routine accounts for what comes of it. -/
def Accounts {α : Type} (ctx : ReadContext) (p : Read α) : Prop :=
  ∀ r : Reader, r.Clear → Accounted ctx r (p r)

theorem Accounted.after {α : Type} {ctx : ReadContext} {r r' : Reader}
    {x : EStateM.Result (Stop Error) Reader α} (h : r.Moves r') (hx : Accounted ctx r' x) :
    Accounted ctx r x := by
  rcases x with ⟨x, r''⟩ | ⟨_ | e, r''⟩
  · exact h.trans hx
  · trivial
  · exact fun he => (hx he).mono h.rest.isInfix

namespace Accounts

variable {α β : Type} {ctx : ReadContext} {p : Read α} {q : α → Read β}

theorem moves {r r' : Reader} {x : α} (hp : Accounts ctx p) (hr : r.Clear) (h : p r = .ok x r') :
    r.Moves r' := by
  have := hp r hr
  rwa [h] at this

theorem blames {r r' : Reader} {e : Error} (hp : Accounts ctx p) (hr : r.Clear)
    (h : p r = .error (.failed e) r') (he : e.isIncomplete = true) :
    ctx.Blames e r.cursor.rest := by
  have := hp r hr
  rw [h] at this
  exact this he

theorem pure (x : α) : Accounts ctx (Pure.pure x : Read α) := fun _ hr => .refl hr

theorem suspend : Accounts ctx (throw .suspended : Read α) := fun _ _ => trivial

theorem fail {e : Error} (he : e.isIncomplete = false) : Accounts ctx (Read.fail e : Read α) := by
  intro r hr h
  rw [he] at h
  cases h

theorem bind (hp : Accounts ctx p) (hq : ∀ x, Accounts ctx (q x)) : Accounts ctx (p >>= q) := by
  intro r hr
  have h := hp r hr
  rw [bind_apply]
  rcases hrun : p r with ⟨x, r'⟩ | ⟨_ | e, r'⟩ <;> rw [hrun] at h
  · exact .after h (hq x r' h.clear)
  · trivial
  · exact h

theorem get {q : Reader → Read β} (hq : ∀ r, Accounts ctx (q r)) :
    Accounts ctx (MonadState.get >>= q) :=
  fun r hr => hq r r hr

theorem take {n : Nat} : Accounts ctx (Read.advance (·.takeExact? n)) := by
  intro r hr
  rw [advance_apply]
  cases htake : r.cursor.takeExact? n with
  | none => trivial
  | some y => exact ⟨⟨hr.idle, hr.cleared⟩, rfl, (ReadCursor.takeExact?_precedes htake).suffix⟩

theorem modifyFrame {g : ReadFrame → ReadFrame} (hg : ∀ f, f.Idle → (g f).Idle) :
    Accounts ctx (Read.modifyFrame g) :=
  fun _ hr => ⟨⟨hg _ hr.idle, hr.cleared⟩, rfl, List.suffix_rfl⟩

theorem sequential : Sequential (Accounts ctx) where
  pure := .pure
  fail := .fail
  bind := .bind
  take _ := .take

end Accounts

variable {α β : Type} {ctx : ReadContext} {nested : Schema → Read Message}

/-! ## Byte strings -/

/-- Four bytes that are accepted as a length are the bytes of this length. -/
theorem toBytes_of_checkLength {limit n : Nat} {bs : Bytes} (hbs : bs.length = 4)
    (h : Layout.checkLength limit (Primitive.decode (.int .w32 .signed) bs : BitVec 32).toInt =
      .ok n) : LittleEndian.toBytes 4 n = bs := by
  have hlt : LittleEndian.ofBytes bs < 256 ^ 4 := hbs ▸ LittleEndian.ofBytes_lt bs
  have hnat : (BitVec.ofNat 32 (LittleEndian.ofBytes bs)).toNat = LittleEndian.ofBytes bs := by
    rw [BitVec.toNat_ofNat]
    exact Nat.mod_eq_of_lt (by omega)
  have hint := BitVec.toInt_eq_toNat_cond (BitVec.ofNat 32 (LittleEndian.ofBytes bs))
  rw [hnat] at hint
  change Layout.checkLength limit (BitVec.ofNat 32 (LittleEndian.ofBytes bs)).toInt = .ok n at h
  rw [Layout.checkLength] at h
  split at h
  · cases h
  · split at h <;> cases h
    have hn :
        (BitVec.ofNat 32 (LittleEndian.ofBytes bs)).toInt.toNat = LittleEndian.ofBytes bs := by
      split at hint <;> omega
    rw [hn, ← hbs, LittleEndian.toBytes_ofBytes]

theorem checkedLength_ok {limit n : Nat} {x : BitVec 32} {r r' : Reader}
    (h : (if x.toInt = Layout.nullLength then pure none
      else some <$> lift (Layout.checkLength limit x.toInt)) r = .ok (some n) r') :
    Layout.checkLength limit x.toInt = .ok n ∧ r' = r := by
  split at h
  · cases h
  · cases hcheck : Layout.checkLength limit x.toInt <;> rw [hcheck] at h <;> cases h
    exact ⟨rfl, rfl⟩

/-- A length that is read is four bytes, and stands for itself. -/
theorem length_ok {limit n : Nat} {r r' : Reader} (h : length limit r = .ok (some n) r') :
    r'.stack = r.stack ∧ r.cursor.rest = LittleEndian.toBytes 4 n ++ r'.cursor.rest := by
  obtain ⟨x, r₁, hx, h⟩ := ok_of_bind h
  rw [primitive, advance_apply, ReadCursor.take?, ReadCursor.takeExact?_eq] at hx
  have hsize : (Primitive.int .w32 .signed).size = 4 := rfl
  rw [hsize] at hx
  by_cases hfour : 4 ≤ r.cursor.rest.length
  · rw [if_pos hfour] at hx
    cases hx
    obtain ⟨hcheck, rfl⟩ := checkedLength_ok h
    refine ⟨rfl, ?_⟩
    rw [toBytes_of_checkLength (List.length_take_of_le hfour) hcheck]
    exact (List.take_append_drop 4 _).symm
  · rw [if_neg hfour] at hx
    cases hx

/-- A byte string that is read lies behind its length, and nothing is left of it in the frame. -/
theorem bytes_ok {limit : Nat} {r r' : Reader} (hr : r.Clear) {x : Option Bytes}
    (h : bytes limit r = .ok x r') : r.Moves r' ∧ ∀ blob, x = some blob →
      r.cursor.rest = LittleEndian.toBytes 4 blob.length ++ blob ++ r'.cursor.rest := by
  rw [bytes_of_not_headDone limit (by rw [hr.idle.unmarked]; decide)] at h
  obtain ⟨n, r₁, hn, h⟩ := ok_of_bind h
  cases n with
  | none =>
    cases h
    have hlength : Accounts ⟨default, default, default⟩ (length limit) :=
      Accounts.sequential.length limit
    exact ⟨hlength.moves hr hn, nofun⟩
  | some n =>
    obtain ⟨stack, cursor⟩ := r₁
    obtain ⟨rfl, hrest⟩ := length_ok hn
    have hmissing : (Reader.headed ⟨r.stack, cursor⟩ n).missing = n := by
      change n - r.stack.current.progress.gathered.size = n
      rw [hr.idle.ungathered]
      rfl
    have hgather : gather (Reader.headed ⟨r.stack, cursor⟩ n) = .ok x r' := h
    rw [gather_apply, hmissing] at hgather
    split at hgather
    case isTrue => cases hgather
    case isFalse hlength =>
      cases hgather
      have hall : r.cursor.rest = LittleEndian.toBytes 4 n ++ cursor.rest.take n ++
          cursor.rest.drop n := by rw [hrest, List.append_assoc, List.take_append_drop]
      refine ⟨⟨⟨⟨rfl, rfl, rfl, hr.idle.unparked⟩, hr.cleared⟩, rfl, _, hall.symm⟩, ?_⟩
      rintro blob ⟨⟩
      have htake : (cursor.rest.take n).length = n :=
        List.length_take_of_le (Nat.not_lt.mp hlength)
      have hgathered : (Reader.headed ⟨r.stack, cursor⟩ n).stack.current.progress.gathered = #[] :=
        hr.idle.ungathered
      rw [hgathered]
      change r.cursor.rest = LittleEndian.toBytes 4 (cursor.rest.take n).length ++ _ ++ _
      rw [htake]
      exact hall

theorem accounts_gather {r : Reader} : ∀ e r', gather r ≠ .error (.failed e) r' := by
  intro e r' h
  rw [gather_apply] at h
  split at h <;> cases h

theorem accounts_bytes (limit : Nat) : Accounts ctx (bytes limit) := by
  intro r hr
  cases h : bytes limit r with
  | ok x r' => exact (bytes_ok hr h).1
  | error e r' =>
    cases e with
    | suspended => trivial
    | failed e =>
      rw [bytes_of_not_headDone limit (by rw [hr.idle.unmarked]; decide), bind_apply] at h
      cases hn : length limit r with
      | error e r₁ =>
        rw [hn] at h
        cases h
        exact (Accounts.sequential.length limit).blames hr hn
      | ok n r₁ =>
        rw [hn] at h
        cases n with
        | none => cases h
        | some n => exact absurd h (accounts_gather e r')

theorem accounts_nullableUuid : Accounts ctx nullableUuid := by
  intro r hr
  have hunit : Accounts ctx (do
      let unit ← advance (·.takeExact? maxAtomicUnit)
      return some (Layout.ofUuid (unit.drop 1))) :=
    .bind .take fun _ => .pure _
  rw [nullableUuid_apply]
  split
  · trivial
  · split
    · exact ⟨⟨hr.idle, hr.cleared⟩, rfl, List.drop_suffix 1 r.cursor.rest⟩
    · split
      · exact hunit r hr
      · exact Accounts.fail rfl r hr

theorem accounts_counter (u : Uuid) : Accounts ctx (counter u) := by
  intro r hr
  rw [counter_apply]
  split
  · next h => exact ⟨⟨hr.idle, hr.cleared⟩, rfl, (ReadCursor.take?_precedes h).suffix⟩
  · trivial

/-- Within a level, routines account for what comes of them. Between items, nothing is set aside,
so that what is set aside in other states does not matter. -/
theorem compositional_accounts : Compositional ctx.Declared (Accounts ctx) where
  toSequential := Accounts.sequential
  progress hq r hr := hq r.stack.current.progress r hr
  modifyProgress hg := .modifyFrame fun f hf =>
    have h := hg f.progress
    ⟨h.headDone.trans hf.unmarked, h.length.trans hf.unmeasured, h.gathered.trans hf.ungathered,
      h.parked.trans hf.unparked⟩
  bytes := accounts_bytes
  nullableUuid := accounts_nullableUuid
  takeParked hq _ _ r hr := by
    rw [takeParked_bind, hr.idle.unparked, Reader.unpark_eq_self hr.idle.unparked]
    exact hq r hr
  counter := accounts_counter
  probe _ _ hr := .refl hr

/-! ## Fields and messages -/

/-- Reading messages of declared types on the level below accounts for its failures. -/
def AccountsNested (ctx : ReadContext) (nested : Schema → Read Message) : Prop :=
  ∀ s, ctx.Declared s → Accounts ctx (nested s)

/-- What the object codec makes of the byte string of a declared field accounts for its failures. -/
theorem accounts_held {s : Schema} {kind : FieldKind} {t : HostType} (hs : ctx.Declared s)
    (hkind : kind ∈ s.fields) (ht : kind.Holds t) {f : t.Val → Field} {absent : Read Field}
    (habsent : Accounts ctx absent) : Accounts ctx (held ctx t f absent) := by
  intro r hr
  have hbytes : Accounted ctx r (bytes ctx.marshaller.config.maxArrayLength r) :=
    accounts_bytes _ r hr
  rw [held, bind_apply]
  rcases h : bytes ctx.marshaller.config.maxArrayLength r with ⟨_ | blob, r₁⟩ | ⟨_ | e, r₁⟩ <;>
    rw [h] at hbytes
  · exact .after hbytes (habsent r₁ hbytes.clear)
  · have hblob : LittleEndian.toBytes 4 blob.length ++ blob <:+: r.cursor.rest := by
      rw [(bytes_ok hr h).2 blob rfl]
      exact (List.prefix_append _ _).isInfix
    cases hread : ctx.marshaller.unmarshal t blob with
    | ok x =>
      simp only [hread]
      exact hbytes
    | error e =>
      simp only [hread]
      exact fun _ => ⟨s, kind, t, blob, hs, hkind, ht, hblob, hread⟩
  · trivial
  · exact hbytes

theorem accounts_fields (hn : AccountsNested ctx nested) {s : Schema} (hs : ctx.Declared s)
    {kinds : List FieldKind} (hkinds : ∀ kind ∈ kinds, kind ∈ s.fields) :
    Accounts ctx (fields ctx nested kinds) := by
  induction kinds with
  | nil => exact .pure ()
  | cons kind kinds ih =>
    obtain ⟨hkind, hkinds⟩ := List.forall_mem_cons.mp hkinds
    have hfield : Accounts ctx (field ctx nested kind) :=
      compositional_accounts.field (fun _ h => h) hn (fun _ _ _ ht => accounts_held hs hkind ht)
        fun _ => .suspend
    exact hfield.bind fun f => .bind (.modifyFrame fun _ _ => ⟨rfl, rfl, rfl, rfl⟩) fun _ =>
      ih hkinds

theorem accounts_body (hn : AccountsNested ctx nested) {s : Schema} (hs : ctx.Declared s) :
    Accounts ctx (body ctx nested s) :=
  .get fun _ => (accounts_fields hn hs fun _ h =>
    Schema.mem_fields_of_mem_sent (List.mem_of_mem_drop h)).bind fun _ => .get fun _ => .pure _

theorem accounts_descend {read : Schema → Read Message} {s : Schema} (h : Accounts ctx (read s)) :
    Accounts ctx (descend read s) := by
  intro r hr
  obtain ⟨hcurrent, hcleared⟩ := hr.cleared.descend
  have hdown := h r.down ⟨hcurrent ▸ ReadFrame.idle_default, hcleared⟩
  rw [descend_apply]
  rcases hrun : read s r.down with ⟨m, r'⟩ | ⟨_ | e, r'⟩ <;> rw [hrun] at hdown
  · obtain ⟨habove, hcurrent'⟩ := FrameStack.ascend_of_above hdown.above true
    exact ⟨⟨hcurrent' ▸ hr.idle, hdown.clear.cleared.ascend⟩, habove, hdown.rest⟩
  · trivial
  · exact hdown

theorem accounts_root (levels : Nat) {s : Schema} (hs : ctx.Declared s) :
    Accounts ctx (root ctx levels s) := by
  induction levels generalizing s with
  | zero => exact accounts_body (fun s _ => .fail rfl) hs
  | succ levels ih => exact accounts_body (fun s hs => accounts_descend (ih hs)) hs

end Read

/-! ## Sessions -/

namespace ReadSession

variable {ctx : ReadContext} {s s' : ReadSession} {bs : Bytes} {e : Error} {n : Nat}
  {msg : Message}

/-- An idle session refuses the first byte, or reads a message of a declared type, or there is
nothing to read. -/
theorem Idle.decode_cases (hs : s.Idle) (ctx : ReadContext) (bs : Bytes) :
    (∃ e, e.isIncomplete = false ∧ s.decode ctx bs = (.error e, s)) ∨
    (∃ schema cursor, ctx.Declared schema ∧ cursor.rest <:+ bs ∧
      s.decode ctx bs = deliver schema (readMessage ctx schema ⟨s.stack, cursor⟩)) ∨
    s.decode ctx bs = (.ok (0, none), s) := by
  cases bs with
  | nil =>
    refine .inr (.inr ?_)
    rw [ReadSession.decode, read, hs.inactive]
    rfl
  | cons type rest =>
    by_cases hnull : type = Message.nullType
    · refine .inl ⟨.nullRoot, rfl, ?_⟩
      rw [ReadSession.decode, read, hs.inactive]
      simp only [start, ReadCursor.ofBytes, if_pos hnull]
    · cases hf : ctx.factories.find? type with
      | none =>
        refine .inl ⟨.noFactory type, rfl, ?_⟩
        rw [ReadSession.decode, read, hs.inactive]
        simp only [start, ReadCursor.ofBytes, if_neg hnull, hf]
      | some schema =>
        refine .inr (.inl ⟨schema, (ReadCursor.ofBytes (type :: rest)).advance 1,
          .inl (List.mem_of_find?_eq_some hf), List.suffix_cons type rest, decode_of_read ?_⟩)
        rw [read, hs.inactive]
        simp only [start, ReadCursor.ofBytes, if_neg hnull, hf]

theorem Idle.clear (hs : s.Idle) (cursor : ReadCursor) : Reader.Clear ⟨s.stack, cursor⟩ :=
  ⟨hs.current ▸ ReadFrame.idle_default, hs.cleared⟩

/-- A call that fails as if input had ended early, between messages. -/
theorem Idle.blames (hs : s.Idle) (h : s.decode ctx bs = (.error e, s'))
    (he : e.isIncomplete = true) : ctx.Blames e bs := by
  obtain ⟨e', he', hrun⟩ | ⟨schema, cursor, hschema, hrest, hrun⟩ | hrun := hs.decode_cases ctx bs
  · rw [hrun] at h
    cases h
    rw [he'] at he
    cases he
  · have hread := Read.accounts_root (ctx.marshaller.config.maxNestingDepth - 1) hschema
      ⟨s.stack, cursor⟩ (hs.clear cursor)
    rw [hrun] at h
    change Read.Accounted ctx _ (readMessage ctx schema ⟨s.stack, cursor⟩) at hread
    rcases hroot : readMessage ctx schema ⟨s.stack, cursor⟩ with ⟨m, r⟩ | ⟨_ | e', r⟩ <;>
      rw [hroot] at h hread <;> cases h
    exact (hread he).mono hrest.isInfix
  · rw [hrun] at h
    cases h

theorem Idle.of_message (hs : s.Idle) (h : s.decode ctx bs = (.ok (n, some msg), s')) :
    s'.Idle := by
  obtain ⟨e', -, hrun⟩ | ⟨schema, cursor, -, -, hrun⟩ | hrun := hs.decode_cases ctx bs <;>
    rw [hrun] at h
  · cases h
  · rcases hroot : readMessage ctx schema ⟨s.stack, cursor⟩ with ⟨m, r⟩ | ⟨_ | e', r⟩ <;>
      rw [hroot] at h <;> cases h
    exact idle_reset _
  · cases h

end ReadSession

theorem Drains.blames {ctx : ReadContext} {s : ReadSession} {bs : Bytes} {msgs : List Message}
    {e : Error} (hs : s.Idle) (h : Drains ctx s bs msgs (.failed e)) (he : e.isIncomplete = true) :
    ctx.Blames e bs := by
  generalize hf : Ending.failed e = ending at h
  induction h with
  | failed h =>
    cases hf
    exact hs.blames h he
  | waiting => cases hf
  | @message _ _ bs n _ _ ending h _ ih =>
    cases ending with
    | waiting => cases hf
    | failed e' => exact (ih (hs.of_message h) hf).mono (List.drop_suffix n bs).isInfix

namespace MessageCodec

variable {ctx : ReadContext} {c c' : MessageCodec} {source rest all more : Bytes} {e : Error}

/-- The states of a codec that takes messages from a source: bytes arrive at the end of the source,
and calls take them from its front. The last bytes are all that have arrived. -/
inductive Receives (ctx : ReadContext) : MessageCodec → Bytes → Bytes → Prop
  | new : Receives ctx .new [] []
  | arrive {c : MessageCodec} {source all : Bytes} (chunk : Bytes) (h : Receives ctx c source all) :
    Receives ctx c (source ++ chunk) (all ++ chunk)
  | decode {c c' : MessageCodec} {source rest all : Bytes} {msg : Option Message}
    (h : Receives ctx c source all) (hdecode : c.decode ctx source = (.ok msg, c', rest)) :
    Receives ctx c' rest all

/-- A call of a codec is one of its reader. -/
theorem decode_eq_ok {msg : Option Message} (h : c.decode ctx source = (.ok msg, c', rest)) :
    ∃ n, c.reader.decode ctx source = (.ok (n, msg), c'.reader) ∧ rest = source.drop n := by
  rw [decode] at h
  split at h <;> cases h
  exact ⟨_, ‹_›, rfl⟩

theorem decode_eq_error : c.decode ctx source = (.error e, c', rest) ↔
    c.reader.decode ctx source = (.error e, c'.reader) ∧ c.writer = c'.writer ∧ source = rest := by
  obtain ⟨writer, reader⟩ := c
  obtain ⟨writer', reader'⟩ := c'
  rw [decode]
  rcases reader.decode ctx source with ⟨_ | ⟨n, msg⟩, s⟩ <;>
    simp [and_assoc, and_left_comm]

/-- What fails on the source fails on all bytes that have arrived. -/
theorem Receives.drains (hctx : ctx.Steady) (h : Receives ctx c source all) :
    c.reader.Steady ∧ ∀ more msgs e, Drains ctx c.reader (source ++ more) msgs (.failed e) →
      ∃ before, Drains ctx .new (all ++ more) (before ++ msgs) (.failed e) := by
  induction h with
  | new => exact ⟨ReadSession.steady_new, fun more msgs e h => ⟨[], h⟩⟩
  | arrive chunk h ih =>
    refine ⟨ih.1, fun more msgs e hdrains => ?_⟩
    rw [List.append_assoc] at hdrains ⊢
    exact ih.2 _ msgs e hdrains
  | @decode c c' source rest all msg h hdecode ih =>
    obtain ⟨hsteady, ih⟩ := ih
    obtain ⟨n, hread, rfl⟩ := decode_eq_ok hdecode
    cases msg with
    | none =>
      refine ⟨(ReadSession.decode_waiting hctx hsteady hread).1, fun more msgs e hdrains => ?_⟩
      exact ih more msgs e (hdrains.append_waiting hctx hsteady hread)
    | some msg =>
      obtain ⟨hsteady', -, hle, -, hmore⟩ := ReadSession.decode_message hctx hsteady hread
      refine ⟨hsteady', fun more msgs e hdrains => ?_⟩
      rw [← List.drop_append_of_le_length hle] at hdrains
      obtain ⟨before, hall⟩ := ih more (msg :: msgs) e (.message (hmore more) hdrains)
      exact ⟨before ++ [msg], by rwa [List.append_assoc]⟩

/-- An error of a codec is none that more bytes could heal, also where it is the one that only means
that input ended early: then it is what the object codec told of the byte string of a field, all of
which has arrived. -/
theorem error_final (hctx : ctx.Steady) (h : Receives ctx c source all)
    (herror : c.decode ctx source = (.error e, c', rest)) :
    (∀ more, c.decode ctx (source ++ more) = (.error e, c', source ++ more)) ∧
      (e.isIncomplete = true → ctx.Blames e all) := by
  obtain ⟨hsteady, hdrains⟩ := h.drains hctx
  obtain ⟨hread, hwriter, -⟩ := decode_eq_error.mp herror
  refine ⟨fun more => decode_eq_error.mpr
    ⟨ReadSession.decode_failed hctx hsteady hread more, hwriter, rfl⟩, fun he => ?_⟩
  have hfailed : Drains ctx c.reader (source ++ []) [] (.failed e) :=
    .failed (ReadSession.decode_failed hctx hsteady hread [])
  obtain ⟨before, hall⟩ := hdrains [] [] e hfailed
  rw [List.append_nil] at hall
  exact hall.blames ReadSession.idle_new he

/-- A dynamic value of one byte, which is the tag of a number, in two pieces. -/
theorem error_final_value :
    let ctx : ReadContext := ⟨.ofConfig {} .empty, fun _ => [.value], ⟨[⟨40, [.value]⟩]⟩⟩
    let c := (MessageCodec.new.decode ctx [40, 1, 0]).2.1
    Receives ctx c [1, 0, 0, 0, 3] [40, 1, 0, 0, 0, 3] ∧
      (c.decode ctx [1, 0, 0, 0, 3]).1.isOk = false ∧
      (∀ more, (c.decode ctx ([1, 0, 0, 0, 3] ++ more)).2.2 = [1, 0, 0, 0, 3] ++ more) ∧
      ctx.Blames (.truncated 4 0) [40, 1, 0, 0, 0, 3] := by
  intro ctx c
  have hctx : ctx.Steady := ⟨fun type => by simp [Schema.Steady, Catalog.schema, ctx], by
    simp [Schema.Steady, ctx]⟩
  have hfirst : Receives ctx .new [40, 1, 0] [40, 1, 0] := .arrive [40, 1, 0] .new
  have htype : Receives ctx c [1, 0] [40, 1, 0] := .decode hfirst rfl
  have harrived : Receives ctx c [1, 0, 0, 0, 3] [40, 1, 0, 0, 0, 3] := .arrive [0, 0, 3] htype
  have herror : c.decode ctx [1, 0, 0, 0, 3] = (.error (.truncated 4 0), _, _) := rfl
  obtain ⟨hmore, hblames⟩ := error_final hctx harrived herror
  exact ⟨harrived, by rw [herror]; rfl, fun more => by rw [hmore], hblames rfl⟩

end MessageCodec

end WireCodec
