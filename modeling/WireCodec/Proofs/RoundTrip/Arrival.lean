import WireCodec.Frame.Reader
import WireCodec.Proofs.Object.Parts
import WireCodec.Proofs.Writing.Emissions

/-!
What becomes of a message on its way: it arrives as it was sent, but for the signs of the integers
in its dynamic values, which the wire does not carry, and for the fields that are skipped, which
hold what they hold in a new message. A message fits a type that a reader knows (`Message.Fits`) if
its fields are of the kinds of that type and within the limits that the reader keeps.
-/

namespace WireCodec

namespace Value

mutual

/-- A value with all of its integers in signed form. -/
def signed : Value → Value
  | primitive k x => primitive k.signed (k.toSigned x)
  | primitiveArray k xs => primitiveArray k.signed (xs.map k.toSigned)
  | objectArray xs => objectArray (signeds xs)
  | collection flavor xs => collection flavor (signeds xs)
  | map flavor entries => map flavor (signedEntries entries)
  | mapEntry key value => mapEntry (signed key) (signed value)
  | v => v

/-- Values with all of their integers in signed form. -/
def signeds : List Value → List Value
  | [] => []
  | v :: vs => signed v :: signeds vs

/-- Entries with all of their integers in signed form. -/
def signedEntries : List (Value × Value) → List (Value × Value)
  | [] => []
  | (k, v) :: entries => (signed k, signed v) :: signedEntries entries

end

end Value

mutual

/-- An item as it arrives. -/
def Item.received : Item → Item
  | .message m => .message m.received
  | x => x

/-- Items as they arrive. -/
def Item.receivedAll : List Item → List Item
  | [] => []
  | x :: xs => x.received :: Item.receivedAll xs

/-- Entries as they arrive. -/
def Item.receivedEntries : List (Item × Item) → List (Item × Item)
  | [] => []
  | (k, v) :: entries => (k.received, v.received) :: Item.receivedEntries entries

/-- The content of a field as it arrives. -/
def Field.received : Field → Field
  | .value v => .value v.signed
  | .message (some m) => .message (some m.received)
  | .list (some items) => .list (some (Item.receivedAll items))
  | .map (some entries) => .map (some (Item.receivedEntries entries))
  | .skipped initial _ => .skipped initial initial
  | x => x

/-- Fields as they arrive. -/
def Field.receivedAll : List Field → List Field
  | [] => []
  | x :: xs => x.received :: Field.receivedAll xs

/-- A message as it arrives. -/
def Message.received : Message → Message
  | .mk type fields => .mk type (Field.receivedAll fields)

end

theorem Item.receivedAll_eq (xs : List Item) : Item.receivedAll xs = xs.map Item.received := by
  induction xs with
  | nil => rfl
  | cons x xs ih => rw [Item.receivedAll, ih, List.map_cons]

/-- An entry as it arrives. -/
def Item.receivedEntry (e : Item × Item) : Item × Item := (e.1.received, e.2.received)

theorem Item.receivedEntries_eq (es : List (Item × Item)) :
    Item.receivedEntries es = es.map Item.receivedEntry := by
  induction es with
  | nil => rfl
  | cons e es ih =>
    obtain ⟨k, v⟩ := e
    rw [Item.receivedEntries, ih, List.map_cons, Item.receivedEntry]

theorem Field.receivedAll_eq (xs : List Field) : Field.receivedAll xs = xs.map Field.received := by
  induction xs with
  | nil => rfl
  | cons x xs ih => rw [Field.receivedAll, ih, List.map_cons]

theorem Message.received_mk (type : UInt8) (fields : List Field) :
    (Message.mk type fields).received = .mk type (fields.map Field.received) := by
  rw [Message.received, Field.receivedAll_eq]

theorem Item.messages_received (x : Item) :
    x.received.messages = x.messages.map Message.received := by
  cases x <;> rfl

/-- The messages in a field arrive in it, in order. -/
theorem Field.messages_received (x : Field) :
    x.received.messages = x.messages.map Message.received := by
  cases x with
  | message msg => cases msg <;> rfl
  | list items =>
    cases items with
    | none => rfl
    | some items =>
      rw [received, Item.receivedAll_eq, messages, messages, List.flatMap_map, List.map_flatMap]
      simp only [Item.messages_received]
  | map entries =>
    cases entries with
    | none => rfl
    | some entries =>
      rw [received, Item.receivedEntries_eq, messages, messages, List.flatMap_map,
        List.map_flatMap]
      simp only [Item.receivedEntry, Item.messages_received, List.map_append]
  | _ => rfl

theorem Field.eq_of_received_eq_skipped {x initial content : Field}
    (h : x.received = skipped initial content) : content = initial := by
  cases x with
  | skipped _ _ =>
    cases h
    rfl
  | message msg => cases msg <;> cases h
  | list items => cases items <;> cases h
  | map entries => cases entries <;> cases h
  | _ => cases h

/-- A message whose skipped fields hold what they hold in a new message, at any depth. -/
inductive Message.Renewed : Message → Prop
  | mk {type fields}
    (skipped : ∀ initial content, Field.skipped initial content ∈ fields → content = initial)
    (nested : ∀ f ∈ fields, ∀ m ∈ f.messages, m.Renewed) : (Message.mk type fields).Renewed

/-- Keys arrive as the same keys. -/
theorem Item.sameKey_received (x y : Item) : x.received.sameKey y.received = x.sameKey y := by
  cases x <;> cases y <;> rfl

/-! ## Types -/

/-- A reader takes a message with this type byte, where it wants one of a type or of any, for a
message of this type. -/
def ReadContext.Knows (ctx : ReadContext) (wanted : Option UInt8) (type : UInt8) (s : Schema) :
    Prop :=
  type ≠ Message.nullType ∧
    match wanted with
    | some t => t = type ∧ s = ctx.catalog.schema t
    | none => ctx.factories.find? type = some s

section

variable (m : Marshaller) (ctx : ReadContext) (nested : Schema → Message → Prop)

/-- The largest length that a reader accepts. -/
def ReadContext.limit : Nat := ctx.marshaller.config.maxArrayLength

/-- An item is of a kind and within the limits of a reader, given what messages fit a type. -/
inductive Item.Fits : ItemKind → Item → Prop
  | primitive (k : Primitive) (x : k.Val) : Item.Fits (.primitive k) (.primitive k x)
  | char (c : Char) : Item.Fits .char (.char c)
  | text {s : String} (length : (Utf8.encode s).length ≤ ctx.limit) : Item.Fits .text (.text s)
  | uuid (u : Uuid) : Item.Fits .uuid (.uuid u)
  | grid (g : GridId) : Item.Fits .grid (.grid g)
  | message {wanted : Option UInt8} {msg : Message} {s : Schema}
    (known : ctx.Knows wanted msg.type s) (fits : nested s msg) :
    Item.Fits (.message wanted) (.message msg)

/-- A field is of a kind and within the limits of a reader, given what messages fit a type. What a
marshaller makes of a value is what the reader gets the value back from. -/
inductive Field.Fits : FieldKind → Field → Prop
  | primitive (k : Primitive) (x : k.Val) : Field.Fits (.primitive k) (.primitive k x)
  | char (c : Char) : Field.Fits .char (.char c)
  | text {o : Bool} {s : Option String} (present : s = none → o = true)
    (length : ∀ t, s = some t → (Utf8.encode t).length ≤ ctx.limit) : Field.Fits (.text o) (.text s)
  | bytes {o : Bool} {bs : Option Bytes} (present : bs = none → o = true)
    (length : ∀ b, bs = some b → b.length ≤ ctx.limit) : Field.Fits (.bytes o) (.bytes bs)
  | uuid {o : Bool} {u : Option Uuid} (present : u = none → o = true) :
    Field.Fits (.uuid o) (.uuid u)
  | grid {o : Bool} {g : Option GridId} (present : g = none → o = true) :
    Field.Fits (.grid o) (.grid g)
  | bits {o : Bool} {s : Option BitSet} (present : s = none → o = true)
    (length : ∀ b, s = some b → b.words.length ≤ ctx.limit) : Field.Fits (.bits o) (.bits s)
  | value {v : Value} (back : ∀ bs, m.marshalValue v = .ok bs →
      bs.length ≤ ctx.limit ∧ ctx.marshaller.unmarshalValue bs = .ok v.signed) :
    Field.Fits .value (.value v)
  | object {t : HostType} {x : t.Val} (back : ∀ bs, m.marshalErased t x = .ok bs →
      bs.length ≤ ctx.limit ∧ ctx.marshaller.unmarshal t bs = .ok x) :
    Field.Fits (.object t) (.object t x)
  | absent (wanted : Option UInt8) : Field.Fits (.message wanted) (.message none)
  | message {wanted : Option UInt8} {msg : Message} {s : Schema}
    (known : ctx.Knows wanted msg.type s) (fits : nested s msg) :
    Field.Fits (.message wanted) (.message (some msg))
  | noList (kind : ItemKind) : Field.Fits (.list kind .kept) (.list none)
  | list {kind : ItemKind} {a : Absence} {items : List Item} (length : items.length ≤ ctx.limit)
    (fits : ∀ x ∈ items, Item.Fits ctx nested kind x) :
    Field.Fits (.list kind a) (.list (some items))
  | noMap (key value : ItemKind) : Field.Fits (.map key value .kept) (.map none)
  | map {key value : ItemKind} {a : Absence} {entries : List (Item × Item)}
    (length : entries.length ≤ ctx.limit)
    (keys : ∀ e ∈ entries, Item.Fits ctx nested key e.1)
    (values : ∀ e ∈ entries, Item.Fits ctx nested value e.2)
    (distinct : entries.Pairwise fun e e' => e.1.sameKey e'.1 = false) :
    Field.Fits (.map key value a) (.map (some entries))
  | skipped (initial content : Field) :
    Field.Fits (.skipped initial) (.skipped initial content)

/-- A message is of a type and within the limits of a reader. -/
inductive Message.Fits : Schema → Message → Prop
  | mk {s : Schema} {fields : List Field} (length : s.fields.length = fields.length)
    (fits : ∀ p ∈ s.fields.zip fields, Field.Fits m ctx Message.Fits p.1 p.2) :
    Message.Fits s (.mk s.type fields)

end

/-! ## Messages within messages -/

theorem Item.sizeOf_of_mem_messages {x : Item} {msg : Message} (h : msg ∈ x.messages) :
    sizeOf msg < sizeOf x := by
  cases x with
  | message inner =>
    cases List.mem_singleton.mp h
    simp
  | _ => cases h

theorem Field.sizeOf_of_mem_messages {x : Field} {msg : Message} (h : msg ∈ x.messages) :
    sizeOf msg < sizeOf x := by
  cases x with
  | message inner =>
    cases inner with
    | none => cases h
    | some inner =>
      cases List.mem_singleton.mp h
      simp only [message.sizeOf_spec, Option.some.sizeOf_spec]
      omega
  | list items =>
    cases items with
    | none => cases h
    | some items =>
      obtain ⟨x, hx, hmsg⟩ := List.mem_flatMap.mp h
      have hitem := Item.sizeOf_of_mem_messages hmsg
      have hlist := List.sizeOf_lt_of_mem hx
      simp only [list.sizeOf_spec, Option.some.sizeOf_spec]
      omega
  | map entries =>
    cases entries with
    | none => cases h
    | some entries =>
      obtain ⟨⟨key, value⟩, he, hmsg⟩ := List.mem_flatMap.mp h
      have hlist := List.sizeOf_lt_of_mem he
      rw [Prod.mk.sizeOf_spec] at hlist
      simp only [map.sizeOf_spec, Option.some.sizeOf_spec]
      rcases List.mem_append.mp hmsg with hmsg | hmsg
      · have hkey : sizeOf msg < sizeOf key := Item.sizeOf_of_mem_messages hmsg
        omega
      · have hvalue : sizeOf msg < sizeOf value := Item.sizeOf_of_mem_messages hmsg
        omega
  | _ => cases h

/-- Skipped fields do not travel: they come back as their default. -/
theorem Message.renewed_received (msg : Message) : msg.received.Renewed := by
  -- By the size of the message, as the messages in its fields are smaller.
  obtain ⟨type, fields⟩ := msg
  rw [received_mk]
  refine .mk (fun initial content h => ?_) fun f hf inner hinner => ?_
  · obtain ⟨x, -, hx⟩ := List.mem_map.mp h
    exact Field.eq_of_received_eq_skipped hx
  · obtain ⟨x, hx, rfl⟩ := List.mem_map.mp hf
    rw [Field.messages_received] at hinner
    obtain ⟨inner, hmem, rfl⟩ := List.mem_map.mp hinner
    have hfield := Field.sizeOf_of_mem_messages hmem
    have hlist := List.sizeOf_lt_of_mem hx
    exact inner.renewed_received
termination_by sizeOf msg
decreasing_by
  rw [Message.mk.sizeOf_spec]
  omega

section

variable {m : Marshaller} {ctx : ReadContext} {nested : Schema → Message → Prop}

theorem Item.Fits.messages {kind : ItemKind} {x : Item} (h : x.Fits ctx nested kind) :
    ∀ inner ∈ x.messages, ∃ s, nested s inner := by
  intro inner hinner
  cases h with
  | message _ hfits =>
    cases List.mem_singleton.mp hinner
    exact ⟨_, hfits⟩
  | _ => cases hinner

theorem Field.Fits.messages {kind : FieldKind} {x : Field} (h : x.Fits m ctx nested kind) :
    ∀ inner ∈ x.messages, ∃ s, nested s inner := by
  intro inner hinner
  cases h with
  | message _ hfits =>
    cases List.mem_singleton.mp hinner
    exact ⟨_, hfits⟩
  | list _ hitems =>
    obtain ⟨x, hx, hinner⟩ := List.mem_flatMap.mp hinner
    exact (hitems x hx).messages inner hinner
  | map _ hkeys hvalues =>
    obtain ⟨e, he, hinner⟩ := List.mem_flatMap.mp hinner
    rcases List.mem_append.mp hinner with hinner | hinner
    · exact (hkeys e he).messages inner hinner
    · exact (hvalues e he).messages inner hinner
  | _ => cases hinner

/-- An item arrives as one of its kind. -/
theorem Item.Fits.kind_received {kind : ItemKind} {x : Item} (h : x.Fits ctx nested kind) :
    x.received.kind = kind.erased := by
  cases h <;> rfl

theorem Field.Fits.plain {kind : FieldKind} {x : Field} (h : x.Fits m ctx nested kind) :
    x.Plain := by
  cases h <;> exact ⟨nofun, nofun⟩

theorem Field.Fits.of_mem {kinds : List FieldKind} {xs : List Field}
    (hlength : kinds.length = xs.length)
    (h : ∀ p ∈ kinds.zip xs, Field.Fits m ctx nested p.1 p.2) :
    ∀ x ∈ xs, ∃ kind, Field.Fits m ctx nested kind x := by
  intro x hx
  rw [← List.map_snd_zip (Nat.le_of_eq hlength.symm)] at hx
  obtain ⟨p, hp, rfl⟩ := List.mem_map.mp hx
  exact ⟨p.1, h p hp⟩

theorem Field.Fits.isSent_eq {kind : FieldKind} {x : Field} (h : x.Fits m ctx nested kind) :
    kind.isSent = x.isSent := by
  cases h <;> rfl

/-- The fields that are written are of the kinds that are read, one by one. -/
theorem Field.Fits.sent {kinds : List FieldKind} {xs : List Field}
    (hlength : kinds.length = xs.length)
    (h : ∀ p ∈ kinds.zip xs, Field.Fits m ctx nested p.1 p.2) :
    (kinds.filter FieldKind.isSent).length = (xs.filter Field.isSent).length ∧
      ∀ p ∈ (kinds.filter FieldKind.isSent).zip (xs.filter Field.isSent),
        Field.Fits m ctx nested p.1 p.2 := by
  induction kinds generalizing xs with
  | nil =>
    cases List.eq_nil_of_length_eq_zero hlength.symm
    exact ⟨rfl, fun p hp => absurd hp List.not_mem_nil⟩
  | cons kind kinds ih =>
    cases xs with
    | nil => cases hlength
    | cons x xs =>
      obtain ⟨hx, hxs⟩ := List.forall_mem_cons.mp h
      obtain ⟨hrest, hfits⟩ := ih (Nat.succ.inj hlength) hxs
      have hsent : kind.isSent = x.isSent := hx.isSent_eq
      rw [List.filter_cons, List.filter_cons, hsent]
      split
      · exact ⟨congrArg Nat.succ hrest, List.forall_mem_cons.mpr ⟨hx, hfits⟩⟩
      · exact ⟨hrest, hfits⟩

/-- What is read of fields, and the skipped ones as in a new message, is the fields as they
arrive. -/
theorem Field.Fits.fill {kinds : List FieldKind} {xs : List Field}
    (hlength : kinds.length = xs.length)
    (h : ∀ p ∈ kinds.zip xs, Field.Fits m ctx nested p.1 p.2) :
    Schema.fill kinds ((xs.filter Field.isSent).map Field.received) = xs.map Field.received := by
  induction kinds generalizing xs with
  | nil =>
    cases List.eq_nil_of_length_eq_zero hlength.symm
    rfl
  | cons kind kinds ih =>
    cases xs with
    | nil => cases hlength
    | cons x xs =>
      obtain ⟨hx, hxs⟩ := List.forall_mem_cons.mp h
      have hrest := ih (Nat.succ.inj hlength) hxs
      rw [Schema.fill, List.filter_cons, hx.isSent_eq, List.map_cons, ← hrest]
      cases hx <;> rfl

/-- Nothing that a reader knows makes a writer wait. -/
theorem Message.Fits.plain {s : Schema} {msg : Message} (h : msg.Fits m ctx s) : msg.Plain := by
  -- By the size of the message: its type may be among those of its fields.
  obtain ⟨hlength, hfields⟩ := h
  refine .mk (fun x hx => ?_) fun x hx inner hinner => ?_
  · obtain ⟨kind, hfits⟩ := Field.Fits.of_mem hlength hfields x hx
    exact hfits.plain
  · obtain ⟨kind, hfits⟩ := Field.Fits.of_mem hlength hfields x hx
    obtain ⟨s', hs'⟩ := hfits.messages inner hinner
    have hfield := Field.sizeOf_of_mem_messages hinner
    have hlist := List.sizeOf_lt_of_mem hx
    exact hs'.plain
termination_by sizeOf msg
decreasing_by
  rw [Message.mk.sizeOf_spec]
  omega

end

end WireCodec
