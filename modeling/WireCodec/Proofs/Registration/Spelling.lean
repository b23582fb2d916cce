import WireCodec.Proofs.Registration.States

/-!
# One type in several spellings

The id of a type is computed from the lower-case form of its name, whatever letters the name has;
but where two names are compared, only the ASCII letters count in either case. So of the spellings
of a name, which all have its id, those that differ in ASCII letters alone are taken for one type
(`TypeName.OneType`). Any other is taken for the name of a second type that has come by the same id
(`TypeName.TwoTypes`).
-/

namespace WireCodec

/-! ## Lower case -/

theorem LowerCase.ofCharsAfter_ascii {cs : List Char} (h : ∀ c ∈ cs, c.toNat < 0x80)
    (before : List Char) : ofCharsAfter before cs = cs.map Char.toLower := by
  induction cs generalizing before with
  | nil => rfl
  | cons c rest ih =>
    have hc : c.toNat < 0x80 := h c (.head rest)
    have hrest := ih (fun d hd => h d (.tail c hd)) (c :: before)
    have hsigma : c.toNat ≠ 0x3A3 := by omega
    simp [ofCharsAfter, ofChar, hrest, hc, hsigma]

namespace TypeName

variable {a b c : String}

/-- Two spellings of a name: the lower-case forms are the same. -/
def Spellings (a b : String) : Prop := LowerCase.ofChars a.toList = LowerCase.ofChars b.toList

instance (a b : String) : Decidable (Spellings a b) := inferInstanceAs (Decidable (_ = _))

theorem Spellings.id_eq (h : Spellings a b) : id a = id b := by
  rw [id, id, show LowerCase.ofChars a.toList = LowerCase.ofChars b.toList from h]

theorem same_iff : same a b = true ↔ asciiFold a = asciiFold b := beq_iff_eq

theorem same_comm (a b : String) : same a b = same b a := by
  rw [Bool.eq_iff_iff, same_iff, same_iff]
  exact eq_comm

theorem same_congr (h : same a b = true) (c : String) : same a c = same b c := by
  rw [same, same, same_iff.mp h]

/-- In ASCII there are no two notions of letter case. -/
theorem Spellings.same_of_ascii (h : Spellings a b) (ha : ∀ c ∈ a.toList, c.toNat < 0x80)
    (hb : ∀ c ∈ b.toList, c.toNat < 0x80) : same a b = true := by
  rw [same_iff]
  calc asciiFold a
    _ = LowerCase.ofChars a.toList := (LowerCase.ofCharsAfter_ascii ha []).symm
    _ = LowerCase.ofChars b.toList := h
    _ = asciiFold b := LowerCase.ofCharsAfter_ascii hb []

end TypeName

/-! ## What a registration settles -/

namespace TypeRegistry

variable {r r' : TypeRegistry} {name : String} {kind : TypeKind} {id : Int32} {entry : TypeEntry}

/-- Once a name is registered, its id is taken, by a name that counts as the same. -/
theorem find?_of_register (h : r.register name kind = .ok (id, r')) :
    id = TypeName.id name ∧ id ≠ 0 ∧
      ∃ entry, r'.find? id = some entry ∧ TypeName.same entry.name name = true := by
  obtain ⟨hid, hne, ⟨entry, hentry, hsame, rfl⟩ | ⟨hnone, rfl⟩⟩ := register_eq_ok_iff.mp h
  case inl => exact ⟨hid, hne, entry, hentry, hsame⟩
  case inr =>
    refine ⟨hid, hne, ⟨id, name, kind⟩, ?_, TypeName.same_iff.mpr rfl⟩
    rw [find?] at hnone ⊢
    rw [List.find?_append, hnone]
    simp

theorem register_of_find? (hid : TypeName.id name ≠ 0)
    (hentry : r.find? (TypeName.id name) = some entry) (kind : TypeKind) :
    r.register name kind = if TypeName.same entry.name name then .ok (TypeName.id name, r)
      else .error (.typeIdTaken (TypeName.id name) name entry.name) := by
  simp only [register, if_neg hid, hentry]

theorem idOf?_of_find? (hentry : r.find? (TypeName.id name) = some entry) :
    r.idOf? name = if TypeName.same entry.name name then some (TypeName.id name) else none := by
  have hid : entry.id = TypeName.id name := by simpa using List.find?_some hentry
  simp only [idOf?, hentry, hid]

end TypeRegistry

namespace HostEnum

variable {e : HostEnum} {types : TypeRegistry} {c : EnumConstant} {name : String}

theorem materialize_of_same {i : e.Constant} (hname : types.nameOf c.typeId c.name = .ok name)
    (hsame : TypeName.same name e.typeName = true) (hi : e.ofOrdinal? c.ordinal = some i) :
    e.materialize types c = .ok i := by
  simp [materialize, hname, hsame, hi, bind, Except.bind, pure, Except.pure]

theorem materialize_of_not_same (hname : types.nameOf c.typeId c.name = .ok name)
    (hsame : TypeName.same name e.typeName = false) :
    e.materialize types c = .error (.otherEnum name e.typeName) := by
  simp [materialize, hname, hsame, bind, Except.bind, throw, throwThe, MonadExceptOf.throw]

end HostEnum

/-! ## One type or two -/

namespace TypeName

/-- Where `a` is registered, `b` is another name of the same type. -/
structure OneType (registered : TypeRegistry) (a b : String) : Prop where
  register : ∀ kind, registered.register b kind = .ok (id a, registered)
  resolve : registered.idOf? b = some (id a)
  /-- a constant that goes by the name `b` is one of the enum `a` -/
  byName : ∀ (e : HostEnum) (types : TypeRegistry) (ordinal : Int32) (i : e.Constant),
    e.typeName = a → e.ofOrdinal? ordinal = some i →
    e.materialize types (.ofName b ordinal) = .ok i
  /-- so is one that goes by the id, where it is `b` that has been registered -/
  byId : ∀ (e : HostEnum) (r receiver : TypeRegistry) (kind : TypeKind) (n ordinal : Int32)
    (i : e.Constant), e.typeName = a → r.register b kind = .ok (n, receiver) →
    e.ofOrdinal? ordinal = some i → e.materialize receiver (.ofId n ordinal) = .ok i

/-- Where `a` is registered, `b` is the name of another type, whose id is taken. -/
structure TwoTypes (registered : TypeRegistry) (a b : String) : Prop where
  register : ∀ kind, ∃ entry, registered.find? (id a) = some entry ∧
    registered.register b kind = .error (.typeIdTaken (id a) b entry.name)
  resolve : registered.idOf? b = none
  byName : ∀ (e : HostEnum) (types : TypeRegistry) (ordinal : Int32), e.typeName = a →
    e.materialize types (.ofName b ordinal) = .error (.otherEnum b a)
  byId : ∀ (e : HostEnum) (r receiver : TypeRegistry) (kind : TypeKind) (n ordinal : Int32),
    e.typeName = a → r.register b kind = .ok (n, receiver) →
    ∃ entry, receiver.find? n = some entry ∧
      e.materialize receiver (.ofId n ordinal) = .error (.otherEnum entry.name a)

variable {r r' : TypeRegistry} {a b : String} {kind : TypeKind} {n : Int32}

theorem Spellings.oneType (h : Spellings a b) (hr : r.register a kind = .ok (n, r'))
    (hsame : same a b = true) : OneType r' a b := by
  obtain ⟨rfl, hid, entry, hentry, hentryName⟩ := TypeRegistry.find?_of_register hr
  have hname : same entry.name b = true := same_congr hentryName b ▸ hsame
  rw [h.id_eq] at hid hentry
  constructor
  case register =>
    intro kind
    rw [TypeRegistry.register_of_find? hid hentry, if_pos hname, h.id_eq]
  case resolve => rw [TypeRegistry.idOf?_of_find? hentry, if_pos hname, h.id_eq]
  case byName =>
    rintro e types ordinal i rfl hi
    exact HostEnum.materialize_of_same rfl (same_comm _ b ▸ hsame) hi
  case byId =>
    rintro e r₁ receiver kind₁ n ordinal i rfl hb hi
    obtain ⟨-, -, entry, hentry, hname⟩ := TypeRegistry.find?_of_register hb
    have hnameOf : receiver.nameOf n none = .ok entry.name := by
      simp only [TypeRegistry.nameOf, hentry]
    refine HostEnum.materialize_of_same hnameOf ?_ hi
    rw [same_congr hname, same_comm]
    exact hsame

theorem Spellings.twoTypes (h : Spellings a b) (hr : r.register a kind = .ok (n, r'))
    (hsame : same a b = false) : TwoTypes r' a b := by
  obtain ⟨rfl, hid, entry, hentry, hentryName⟩ := TypeRegistry.find?_of_register hr
  have hname : same entry.name b = false := same_congr hentryName b ▸ hsame
  rw [h.id_eq] at hid hentry
  constructor
  case register =>
    intro kind
    rw [TypeRegistry.register_of_find? hid hentry, hname, h.id_eq]
    exact ⟨entry, hentry, rfl⟩
  case resolve =>
    rw [TypeRegistry.idOf?_of_find? hentry, hname]
    rfl
  case byName =>
    rintro e types ordinal rfl
    exact HostEnum.materialize_of_not_same rfl (same_comm _ b ▸ hsame)
  case byId =>
    rintro e r₁ receiver kind₁ n ordinal rfl hb
    obtain ⟨-, -, entry, hentry, hname⟩ := TypeRegistry.find?_of_register hb
    have hnameOf : receiver.nameOf n none = .ok entry.name := by
      simp only [TypeRegistry.nameOf, hentry]
    refine ⟨entry, hentry, HostEnum.materialize_of_not_same hnameOf ?_⟩
    rw [same_congr hname, same_comm]
    exact hsame

/-- All spellings of a registered name have its id. Those that differ from it in ASCII letters
alone, and so all the ASCII ones of an ASCII name, are taken for it; no other one is. -/
theorem spellings_of_registered (hr : r.register a kind = .ok (n, r')) (h : Spellings a b) :
    n = id b ∧ (same a b = true → OneType r' a b) ∧ (same a b = false → TwoTypes r' a b) ∧
      ((∀ c ∈ a.toList, c.toNat < 0x80) → (∀ c ∈ b.toList, c.toNat < 0x80) → OneType r' a b) := by
  refine ⟨?_, h.oneType hr, h.twoTypes hr, fun ha hb => h.oneType hr (h.same_of_ascii ha hb)⟩
  obtain ⟨rfl, -⟩ := TypeRegistry.find?_of_register hr
  exact h.id_eq

/-- A name in other ASCII letters, and one in which a letter beyond ASCII is in lower case. -/
theorem spellings_of_registered_accented :
    let r : TypeRegistry := ⟨[⟨id "CAFÉ", "CAFÉ", .enum⟩]⟩
    TypeRegistry.empty.register "CAFÉ" .enum = .ok (id "CAFÉ", r) ∧
      Spellings "CAFÉ" "cafÉ" ∧ OneType r "CAFÉ" "cafÉ" ∧
      Spellings "CAFÉ" "café" ∧ TwoTypes r "CAFÉ" "café" ∧ ¬ OneType r "CAFÉ" "café" := by
  intro r
  have hr : TypeRegistry.empty.register "CAFÉ" .enum = .ok (id "CAFÉ", r) := rfl
  have hletters : Spellings "CAFÉ" "cafÉ" := by decide
  have haccent : Spellings "CAFÉ" "café" := by decide
  have htwo := (spellings_of_registered hr haccent).2.2.1 (by decide)
  refine ⟨hr, hletters, (spellings_of_registered hr hletters).2.1 (by decide), haccent, htwo, ?_⟩
  intro hone
  have hnone : some (id "CAFÉ") = none := hone.resolve.symm.trans htwo.resolve
  cases hnone

end TypeName

end WireCodec
