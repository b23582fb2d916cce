import Mathlib.Data.List.Nodup
import WireCodec.Proofs.Registration.Spelling
import WireCodec.Proofs.Twins

/-!
# What a registry remembers

Names are registered one after the other, and some of the registrations are refused
(`TypeRegistry.call`). However they go, every entry stands alone under the id of its own name
(`TypeRegistry.Sound`) and is there unchanged for good (`TypeRegistry.Extends`). An id that a value
has travelled with therefore keeps its meaning.
-/

namespace WireCodec

namespace TypeRegistry

/-- The answer to a registration, and the registry after it: one that is refused changes nothing. -/
def call (r : TypeRegistry) (c : String × TypeKind) : Except Error Int32 × TypeRegistry :=
  match r.register c.1 c.2 with
  | .ok (id, r') => (.ok id, r')
  | .error e => (.error e, r)

/-- Every entry stands under the id of its own name, which is not the reserved one, and no two
stand under one id. -/
structure Sound (r : TypeRegistry) : Prop where
  id_eq : ∀ e ∈ r.entries, e.id = TypeName.id e.name
  id_ne_zero : ∀ e ∈ r.entries, e.id ≠ 0
  nodup : (r.entries.map (·.id)).Nodup

/-- What is found in one registry is found in another. -/
def Extends (r r' : TypeRegistry) : Prop := ∀ id e, r.find? id = some e → r'.find? id = some e

variable {r r' : TypeRegistry} {name : String} {kind : TypeKind} {id : Int32} {e : TypeEntry}

/-! ## One registration -/

/-- A registration is refused where the id of the name is zero or belongs to another name. -/
theorem register_eq_error_iff : (∃ error, r.register name kind = .error error) ↔
    TypeName.id name = 0 ∨
      ∃ e, r.find? (TypeName.id name) = some e ∧ TypeName.same e.name name = false := by
  simp only [register]
  split
  case isTrue hzero => exact ⟨fun _ => .inl hzero, fun _ => ⟨_, rfl⟩⟩
  case isFalse hid =>
    split
    case h_1 e he =>
      split <;> grind
    case h_2 hnone => grind

theorem call_eq_ok_iff :
    r.call (name, kind) = (.ok id, r') ↔ r.register name kind = .ok (id, r') := by
  simp only [call]
  cases r.register name kind <;> simp [Prod.ext_iff]

theorem call_eq_error_iff : (∃ error, (r.call (name, kind)).1 = .error error) ↔
    ∃ error, r.register name kind = .error error := by
  simp only [call]
  cases r.register name kind <;> simp

theorem call_of_error {c : String × TypeKind} {error : Error} (h : (r.call c).1 = .error error) :
    (r.call c).2 = r := by
  rw [call] at h ⊢
  split at h
  · cases h
  · rfl

/-! ## What one registration keeps -/

theorem sound_empty : empty.Sound := ⟨nofun, nofun, .nil⟩

theorem Sound.register (hr : r.Sound) (h : r.register name kind = .ok (id, r')) : r'.Sound := by
  obtain ⟨hid, hne, ⟨_, _, _, rfl⟩ | ⟨hnone, rfl⟩⟩ := register_eq_ok_iff.mp h
  case inl => exact hr
  case inr =>
    -- the id of the new entry is nobody's
    have hfresh : id ∉ r.entries.map (·.id) := by
      intro hmem
      obtain ⟨e, he, rfl⟩ := List.mem_map.mp hmem
      simpa using List.find?_eq_none.mp hnone e he
    constructor
    case id_eq =>
      rintro e he
      obtain he | he := List.mem_append.mp he
      · exact hr.id_eq e he
      · rw [List.mem_singleton.mp he]
        exact hid
    case id_ne_zero =>
      rintro e he
      obtain he | he := List.mem_append.mp he
      · exact hr.id_ne_zero e he
      · rw [List.mem_singleton.mp he]
        exact hne
    case nodup =>
      rw [List.map_append]
      exact hr.nodup.append (List.nodup_singleton id)
        (List.disjoint_singleton.mpr hfresh)

theorem Sound.call (hr : r.Sound) (c : String × TypeKind) : (r.call c).2.Sound := by
  rw [TypeRegistry.call]
  split
  case h_1 id r' h => exact hr.register h
  case h_2 => exact hr

theorem Extends.refl (r : TypeRegistry) : r.Extends r := fun _ _ h => h

theorem Extends.trans {r'' : TypeRegistry} (h : r.Extends r') (h' : r'.Extends r'') :
    r.Extends r'' :=
  fun id e he => h' id e (h id e he)

theorem extends_call (r : TypeRegistry) (c : String × TypeKind) : r.Extends (r.call c).2 := by
  rw [call]
  split
  case h_2 => exact .refl r
  case h_1 id r' h =>
    obtain ⟨-, -, ⟨_, _, _, rfl⟩ | ⟨-, rfl⟩⟩ := register_eq_ok_iff.mp h
    case inl => exact .refl r'
    case inr =>
      -- the new entry comes behind those that were there
      intro i e he
      rw [find?, List.find?_append, show r.entries.find? (·.id == i) = some e from he]
      rfl

/-! ## Whole histories -/

theorem sound_afterCalls (calls : List (String × TypeKind)) :
    (afterCalls call empty calls).Sound :=
  List.foldlRecOn (motive := Sound) calls _ sound_empty fun _ hr c _ => hr.call c

theorem extends_afterCalls (r : TypeRegistry) (calls : List (String × TypeKind)) :
    r.Extends (afterCalls call r calls) :=
  List.foldlRecOn (motive := r.Extends) calls _ (.refl r) fun s hs c _ => hs.trans (extends_call s c)

theorem Sound.find?_of_mem (hr : r.Sound) (he : e ∈ r.entries) :
    r.find? (TypeName.id e.name) = some e := by
  rw [← hr.id_eq e he, find?]
  cases hfind : r.entries.find? (·.id == e.id) with
  | none => simpa using List.find?_eq_none.mp hfind e he
  | some e' =>
    have hid : e'.id = e.id := by simpa using List.find?_some hfind
    rw [List.inj_on_of_nodup_map hr.nodup (List.mem_of_find?_eq_some hfind) he hid]

/-- A name has an id where registering it would change nothing. -/
theorem Sound.idOf?_eq_some_iff (hr : r.Sound) (kind : TypeKind) :
    r.idOf? name = some id ↔ r.register name kind = .ok (id, r) := by
  rw [register_eq_ok_iff]
  constructor
  · intro h
    obtain ⟨hid, e, he, hsame⟩ := idOf?_eq_some h
    have hne : e.id ≠ 0 := hr.id_ne_zero e (List.mem_of_find?_eq_some he)
    have heid : e.id = id := by simpa using List.find?_some he
    exact ⟨hid, heid ▸ hne, .inl ⟨e, he, hsame, rfl⟩⟩
  · rintro ⟨rfl, -, ⟨e, he, hsame, -⟩ | ⟨-, hentries⟩⟩
    · rw [idOf?_of_find? he, if_pos hsame]
    · have hlength := congrArg (·.entries.length) hentries
      simp at hlength

/-- Whatever names are registered, accepted or refused, each entry stands alone under the id of its
own name and stays as it is for good. A registration is refused just where the id is the reserved
one or belongs to another name. A name resolves just where registering it would add nothing, and
then to its own id, whose entry has a name that counts as the same. -/
theorem entries_after_registrations (earlier later : List (String × TypeKind)) :
    let r := afterCalls call empty earlier
    r.Sound ∧ (∀ e ∈ r.entries, r.find? (TypeName.id e.name) = some e) ∧
      r.Extends (afterCalls call r later) ∧ ∀ (name : String) (kind : TypeKind),
        ((∃ error, (r.call (name, kind)).1 = .error error) ↔ TypeName.id name = 0 ∨
          ∃ e, r.find? (TypeName.id name) = some e ∧ TypeName.same e.name name = false) ∧
        (∀ error, (r.call (name, kind)).1 = .error error → (r.call (name, kind)).2 = r) ∧
        ∀ id, (r.idOf? name = some id ↔ r.call (name, kind) = (.ok id, r)) ∧
          (r.idOf? name = some id → id = TypeName.id name ∧
            ∃ e, r.find? id = some e ∧ TypeName.same e.name name = true) := by
  intro r
  have hr : r.Sound := sound_afterCalls earlier
  refine ⟨hr, fun e he => hr.find?_of_mem he, extends_afterCalls r later, fun name kind => ?_⟩
  clear_value r
  refine ⟨?_, fun _ h => call_of_error h, fun id => ⟨?_, fun h => idOf?_eq_some h⟩⟩
  · exact call_eq_error_iff.trans register_eq_error_iff
  · exact (hr.idOf?_eq_some_iff kind).trans call_eq_ok_iff.symm

/-- Two names with one id: the second is refused, and the first stays what it was registered as. -/
theorem entries_after_registrations_colliding :
    let r := afterCalls call empty [("a_", .object), ("A_", .enum), ("", .enum)]
    r.call ("A_", .enum) = (.ok 3102, r) ∧
      (∃ error, (r.call ("b@", .enum)).1 = .error error) ∧ (r.call ("b@", .enum)).2 = r ∧
      (afterCalls call r [("b@", .enum), ("b", .object)]).find? 3102 =
        some ⟨3102, "a_", .object⟩ := by
  intro r
  obtain ⟨-, -, hlater, hnames⟩ := entries_after_registrations
    [("a_", .object), ("A_", .enum), ("", .enum)] [("b@", .enum), ("b", .object)]
  have hentry : r.find? 3102 = some ⟨3102, "a_", .object⟩ := by decide
  obtain ⟨hrefused, hunchanged, -⟩ := hnames "b@" .enum
  have hcollides := hrefused.mpr (.inr ⟨_, hentry, by decide⟩)
  refine ⟨((hnames "A_" .enum).2.2 3102).1.mp (by decide), hcollides, ?_, hlater _ _ hentry⟩
  obtain ⟨error, herror⟩ := hcollides
  exact hunchanged error herror

end TypeRegistry

end WireCodec
