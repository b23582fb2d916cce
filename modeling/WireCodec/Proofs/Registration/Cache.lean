import WireCodec.Proofs.Registration.Latest
import WireCodec.Proofs.RoundTrip.Typed
import WireCodec.Proofs.Twins

/-!
# Bindings at hand

What a look-up has found is kept at hand, and a registration drops what it replaces. None of this
can be seen from outside: whatever is registered, looked up and marshalled in whatever order
(`Marshaller.Action`), a look-up answers what the history of the actions says, and that is the fixed
form of the type or else its latest accepted registration (`Marshaller.latest?`). Marshallers that
differ only in what they have at hand (`Marshaller.SameRegistrations`) answer all actions alike.
-/

namespace WireCodec

namespace Marshaller

/-! ## Actions -/

/-- What a marshaller is asked to do. -/
inductive Action where
  | registerEnum (name : String) (e : HostEnum)
  | registerObject (t : HostType) (name : String)
  /-- a name registered with the types that the marshaller knows -/
  | registerType (name : String) (kind : TypeKind)
  | tagFor (t : HostType)
  | writerFor (t : HostType)
  | marshal (t : HostType) (x : t.Val)

/-- What an action is answered with. -/
inductive Answer where
  | registered (result : Except Error Unit)
  | tag (tag : Option Tag)
  | writer (binding : Option Binding)
  | bytes (result : Except Error Bytes)

/-- Whether a registration was accepted. -/
def Answer.accepted : Answer → Bool
  | registered (.ok _) => true
  | _ => false

/-- The host types that an action binds anew where it is accepted. -/
def Action.binds : Action → Bindings
  | registerEnum name e =>
    [(.enumeration name e, .constant), (.list (.enumeration name e), .constants)]
  | registerObject t name => [(t, .structured name)]
  | _ => []

/-- The answer to a registration, and the marshaller after it: one that is refused changes
nothing. -/
def settle (m : Marshaller) : Except Error Marshaller → Answer × Marshaller
  | .ok m' => (.registered (.ok ()), m')
  | .error e => (.registered (.error e), m)

/-- The answer to an action, and the marshaller after it. A dynamic value is marshalled without a
look-up. -/
def act (m : Marshaller) : Action → Answer × Marshaller
  | .registerEnum name e => m.settle (m.registerEnum name e)
  | .registerObject t name => m.settle (m.registerObject t name)
  | .registerType name kind =>
    m.settle ((m.types.register name kind).map fun (_, types) => { m with types })
  | .tagFor t => (.tag (m.tagFor t), m.publish t)
  | .writerFor t => (.writer (m.lookup t).1, (m.lookup t).2)
  | .marshal t x => (.bytes (m.marshal t x), if t = .value then m else m.publish t)

/-- The latest accepted registration of a type among actions with their answers. -/
def latest? (t : HostType) : List (Action × Answer) → Option Binding
  | [] => none
  | (a, answer) :: later =>
    latest? t later <|> if answer.accepted then a.binds.find? t else none

variable {m m' m₁ : Marshaller} {t : HostType} {b : Binding} {name : String} {kind : TypeKind}

/-! ## Bindings as the history has them -/

theorem hosts_publish (m : Marshaller) (t : HostType) : (m.publish t).hosts = m.hosts := by
  rw [publish]
  split <;> rfl

theorem find?_hosts_install {t' : HostType} (h : m.install t b = .ok m') :
    m'.hosts.find? t' = if t = t' then some b else m.hosts.find? t' := by
  obtain ⟨-, rfl⟩ := install_eq_ok.mp h
  exact Bindings.find?_insert _ _ _ _

theorem find?_hosts_registerEnum {e : HostEnum} (h : m.registerEnum name e = .ok m') :
    m'.hosts.find? t = ((Action.registerEnum name e).binds.find? t <|> m.hosts.find? t) := by
  obtain ⟨m₁, hone, hlist⟩ := registerEnum_eq_ok h
  rw [find?_hosts_install hlist, find?_hosts_install hone]
  simp only [Action.binds, Bindings.find?]
  by_cases hone : HostType.enumeration name e = t <;>
    by_cases hlist : HostType.list (.enumeration name e) = t <;> grind

theorem find?_hosts_registerObject {t' : HostType} (h : m.registerObject t name = .ok m') :
    m'.hosts.find? t' = ((Action.registerObject t name).binds.find? t' <|> m.hosts.find? t') := by
  rw [find?_hosts_install (registerObject_eq_ok h)]
  simp only [Action.binds, Bindings.find?]
  split <;> rfl

theorem find?_hosts_settle {result : Except Error Marshaller} {binds : Bindings}
    (h : ∀ m', result = .ok m' → m'.hosts.find? t = (binds.find? t <|> m.hosts.find? t)) :
    (m.settle result).2.hosts.find? t =
      ((if (m.settle result).1.accepted then binds.find? t else none) <|> m.hosts.find? t) := by
  cases result with
  | ok m' => exact h m' rfl
  | error e => rfl

/-- An action that is accepted binds its types, and no other one binds any. -/
theorem find?_hosts_act (m : Marshaller) (a : Action) (t : HostType) :
    (m.act a).2.hosts.find? t =
      ((if (m.act a).1.accepted then a.binds.find? t else none) <|> m.hosts.find? t) := by
  cases a with
  | registerEnum name e => exact find?_hosts_settle fun m' h => find?_hosts_registerEnum h
  | registerObject t' name => exact find?_hosts_settle fun m' h => find?_hosts_registerObject h
  | registerType name kind =>
    refine find?_hosts_settle fun m' h => ?_
    obtain ⟨_, -, rfl⟩ := Encode.map_eq_ok.mp h
    rfl
  | tagFor t' | writerFor t' => exact congrArg (Bindings.find? · t) (m.hosts_publish t')
  | marshal t' x =>
    simp only [act]
    split
    · rfl
    · exact congrArg (Bindings.find? · t) (m.hosts_publish t')

theorem find?_hosts_afterActions (m : Marshaller) (actions : List Action) (t : HostType) :
    (afterCalls act m actions).hosts.find? t =
      (latest? t (actions.zip (answers act m actions)) <|> m.hosts.find? t) := by
  induction actions generalizing m with
  | nil => rfl
  | cons a actions ih =>
    have hact := m.find?_hosts_act a t
    rw [afterCalls, List.foldl_cons, ← afterCalls, ih, hact, answers, List.zip_cons_cons, latest?]
    cases latest? t (actions.zip (answers act (m.act a).2 actions)) <;> rfl

theorem Coherent.settle (hm : m.Coherent) {result : Except Error Marshaller}
    (h : ∀ m', result = .ok m' → m'.Coherent) : (m.settle result).2.Coherent := by
  cases result with
  | ok m' => exact h m' rfl
  | error e => exact hm

theorem Coherent.act (hm : m.Coherent) (a : Action) : (m.act a).2.Coherent := by
  cases a with
  | registerEnum name e =>
    refine hm.settle fun m' h => ?_
    obtain ⟨m₁, hone, hlist⟩ := registerEnum_eq_ok h
    exact (hm.install hone).install hlist
  | registerObject t name => exact hm.settle fun m' h => hm.install (registerObject_eq_ok h)
  | registerType name kind =>
    refine hm.settle fun m' h => ?_
    obtain ⟨_, -, rfl⟩ := Encode.map_eq_ok.mp h
    exact hm
  | tagFor t | writerFor t => exact hm.publish t
  | marshal t x =>
    simp only [Marshaller.act]
    split
    · exact hm
    · exact hm.publish t

theorem coherent_afterActions (config : Config) (types : TypeRegistry) (payloads : PayloadCodec)
    (actions : List Action) :
    (afterCalls act (ofConfig config types payloads) actions).Coherent :=
  List.foldlRecOn (motive := Coherent) actions _ nofun fun _ hm a _ => hm.act a

/-! ## Marshallers that answer alike -/

/-- Two marshallers on which the same is registered, and the bindings that each has at hand are
those that it would build. -/
structure SameRegistrations (m m' : Marshaller) : Prop where
  coherent : m.Coherent
  coherent' : m'.Coherent
  registered : m' = { m with published := m'.published }

/-- Registrations on two such marshallers that are both refused, or leave two such marshallers. -/
inductive Agree : Except Error Marshaller → Except Error Marshaller → Prop
  | ok {m m' : Marshaller} (h : m.SameRegistrations m') : Agree (.ok m) (.ok m')
  | error (e : Error) : Agree (.error e) (.error e)

theorem Agree.bind {r r' : Except Error Marshaller} {f g : Marshaller → Except Error Marshaller}
    (h : Agree r r') (hf : ∀ m m' : Marshaller, m.SameRegistrations m' → Agree (f m) (g m')) :
    Agree (r >>= f) (r' >>= g) := by
  cases h with
  | ok h => exact hf _ _ h
  | error e => exact .error e

theorem Agree.after {r r' : Except Error Marshaller} (check : Except Error Unit) (h : Agree r r') :
    Agree (check >>= fun _ => r) (check >>= fun _ => r') := by
  cases check with
  | error e => exact .error e
  | ok _ => exact h

theorem Coherent.same_publish (hm : m.Coherent) (t : HostType) :
    m.SameRegistrations (m.publish t) := by
  refine ⟨hm, hm.publish t, ?_⟩
  rw [Marshaller.publish]
  split <;> rfl

namespace SameRegistrations

theorem refl (hm : m.Coherent) : m.SameRegistrations m := ⟨hm, hm, rfl⟩

theorem symm (h : m.SameRegistrations m') : m'.SameRegistrations m := by
  refine ⟨h.coherent', h.coherent, ?_⟩
  rw [h.registered]

theorem trans {m'' : Marshaller} (h : m.SameRegistrations m') (h' : m'.SameRegistrations m'') :
    m.SameRegistrations m'' := by
  refine ⟨h.coherent, h'.coherent', ?_⟩
  rw [h'.registered, h.registered]

theorem types (h : m.SameRegistrations m') : m'.types = m.types := by rw [h.registered]

theorem hosts (h : m.SameRegistrations m') : m'.hosts = m.hosts := by rw [h.registered]

theorem binding?_eq (h : m.SameRegistrations m') (t : HostType) :
    m'.binding? t = m.binding? t := by
  rw [h.coherent.binding?_eq, h.coherent'.binding?_eq, build?, build?, h.hosts]

theorem tagFor_eq (h : m.SameRegistrations m') (t : HostType) : m'.tagFor t = m.tagFor t := by
  rw [tagFor, tagFor, h.binding?_eq]

theorem encodeAs_eq (h : m.SameRegistrations m') (b : Binding) (t : HostType) (x : t.Val) :
    m'.encodeAs b t x = m.encodeAs b t x := by
  rw [h.registered]
  cases b <;> rfl

theorem marshal_eq (h : m.SameRegistrations m') (t : HostType) (x : t.Val) :
    m'.marshal t x = m.marshal t x := by
  by_cases ht : t = .value
  · subst ht
    rfl
  · rw [marshal, marshal, marshalAs_of_ne ht, marshalAs_of_ne ht, h.binding?_eq]
    simp only [h.encodeAs_eq]

theorem publish (h : m.SameRegistrations m') (t : HostType) :
    (m.publish t).SameRegistrations (m'.publish t) :=
  (h.coherent.same_publish t).symm.trans (h.trans (h.coherent'.same_publish t))

theorem install (h : m.SameRegistrations m') (t : HostType) (b : Binding) :
    Agree (m.install t b) (m'.install t b) := by
  cases ht : t.fixedTag? with
  | some tag =>
    simp only [Marshaller.install, ht]
    exact .error _
  | none =>
    have hm := (install_eq_ok (m := m) (b := b)).mpr ⟨ht, rfl⟩
    have hm' := (install_eq_ok (m := m') (b := b)).mpr ⟨ht, rfl⟩
    rw [hm, hm']
    refine .ok ⟨h.coherent.install hm, h.coherent'.install hm', ?_⟩
    rw [h.registered]

theorem registerEnum (h : m.SameRegistrations m') (name : String) (e : HostEnum) :
    Agree (m.registerEnum name e) (m'.registerEnum name e) := by
  rw [Marshaller.registerEnum, Marshaller.registerEnum]
  exact .after _ ((h.install _ _).bind fun _ _ h => h.install _ _)

theorem registerObject (h : m.SameRegistrations m') (t : HostType) (name : String) :
    Agree (m.registerObject t name) (m'.registerObject t name) := by
  rw [Marshaller.registerObject, Marshaller.registerObject]
  exact .after _ (h.install _ _)

theorem registerType (h : m.SameRegistrations m') (name : String) (kind : TypeKind) :
    Agree ((m.types.register name kind).map fun (_, types) => { m with types })
      ((m'.types.register name kind).map fun (_, types) => { m' with types }) := by
  rw [h.types]
  cases m.types.register name kind with
  | error e => exact .error e
  | ok r =>
    refine .ok ⟨h.coherent, h.coherent', ?_⟩
    rw [h.registered]

theorem settle (h : m.SameRegistrations m') {r r' : Except Error Marshaller} (hr : Agree r r') :
    (m.settle r).1 = (m'.settle r').1 ∧ (m.settle r).2.SameRegistrations (m'.settle r').2 := by
  cases hr with
  | ok h => exact ⟨rfl, h⟩
  | error e => exact ⟨rfl, h⟩

theorem act (h : m.SameRegistrations m') (a : Action) :
    (m.act a).1 = (m'.act a).1 ∧ (m.act a).2.SameRegistrations (m'.act a).2 := by
  cases a with
  | registerEnum name e => exact h.settle (h.registerEnum name e)
  | registerObject t name => exact h.settle (h.registerObject t name)
  | registerType name kind => exact h.settle (h.registerType name kind)
  | tagFor t => exact ⟨congrArg Answer.tag (h.tagFor_eq t).symm, h.publish t⟩
  | writerFor t => exact ⟨congrArg Answer.writer (h.binding?_eq t).symm, h.publish t⟩
  | marshal t x =>
    refine ⟨congrArg Answer.bytes (h.marshal_eq t x).symm, ?_⟩
    simp only [Marshaller.act]
    split
    · exact h
    · exact h.publish t

theorem answers_eq (h : m.SameRegistrations m') (actions : List Action) :
    answers Marshaller.act m' actions = answers Marshaller.act m actions :=
  (WireCodec.answers_eq (fun _ _ a h => h.act a) actions h).symm

end SameRegistrations

/-- What is no accepted registration leaves the same registered. -/
theorem Coherent.same_act (hm : m.Coherent) {a : Action} (h : (m.act a).1.accepted = false) :
    m.SameRegistrations (m.act a).2 := by
  have hsettle {r : Except Error Marshaller} (hr : (m.settle r).1.accepted = false) :
      m.SameRegistrations (m.settle r).2 := by
    cases r with
    | ok m' => cases hr
    | error e => exact .refl hm
  cases a with
  | registerEnum name e => exact hsettle h
  | registerObject t name => exact hsettle h
  | registerType name kind => exact hsettle h
  | tagFor t | writerFor t => exact hm.same_publish t
  | marshal t x =>
    simp only [Marshaller.act]
    split
    · exact .refl hm
    · exact hm.same_publish t

/-! ## What a type is written with -/

/-- The bytes of a value begin with the tag of its binding. -/
theorem head?_encodeAs {x : t.Val} {bs : Bytes} (h : m.encodeAs b t x = .ok bs)
    (hb : ∀ tag tag', b = .fixed tag → t.fixedTag? = some tag' → tag = tag') :
    bs.head? = some b.tag.toByte := by
  cases b with
  | fixed tag =>
    rw [encodeAs, HostType.encodeFixed] at h
    split at h
    case h_2 => cases h
    case h_1 bytes hbytes =>
      split at hbytes
      case h_2 => cases hbytes
      case h_1 tag' content htag hcontent =>
        cases hbytes
        obtain ⟨_, -, rfl⟩ := Encode.map_eq_ok.mp h
        rw [hb tag tag' rfl htag]
        rfl
  | constant =>
    cases t with
    | enumeration name e =>
      obtain ⟨content, rfl⟩ := Value.eq_cons_of_encode h
      rfl
    | _ => cases h
  | constants =>
    cases t with
    | list t =>
      cases t with
      | enumeration name e =>
        obtain ⟨content, rfl⟩ := Value.eq_cons_of_encode h
        rfl
      | _ => cases h
    | _ => cases h
  | structured name =>
    simp only [encodeAs, Encode.bind_eq_ok, Encode.pure_eq_ok] at h
    obtain ⟨_, -, _, -, rfl⟩ := h
    rfl

/-- Where a look-up finds a tag, the values of the type begin with it. -/
theorem Coherent.head?_marshal (hm : m.Coherent) (ht : t ≠ .value) {tag : Tag}
    (htag : m.tagFor t = some tag) {x : t.Val} {bs : Bytes} (h : m.marshal t x = .ok bs) :
    bs.head? = some tag.toByte := by
  obtain ⟨b, hb, rfl⟩ := Option.map_eq_some_iff.mp htag
  rw [marshal_eq_encodeAs ht hb] at h
  refine head?_encodeAs h fun tag tag' hfixed htag' => ?_
  rw [hm.binding?_eq, build?, htag'] at hb
  cases hb
  cases hfixed
  rfl

/-- Where it finds none, no value of the type is written. -/
theorem marshal_of_tagFor_none (ht : t ≠ .value) (h : m.tagFor t = none) (x : t.Val) :
    m.marshal t x = .error (.unboundType t.describe) := by
  rw [marshal, marshalAs_of_ne ht, Option.map_eq_none_iff.mp h]

/-- Whatever actions came before, a look-up finds what would be built at that moment, the fixed form
of a type or else its latest accepted registration. An action that registers nothing, refused
registrations among them, changes no later answer. The values of a type begin with the tag that a
look-up finds for it, and where it finds none they are refused, as of an unknown type. -/
theorem lookups_after_actions (config : Config) (types : TypeRegistry) (payloads : PayloadCodec)
    (actions : List Action) :
    let m₀ := ofConfig config types payloads
    let m := afterCalls act m₀ actions
    (∀ t, (m.lookup t).1 = m.build? t ∧ (m.lookup t).1 =
      (t.fixedTag?.map .fixed <|> latest? t (actions.zip (answers act m₀ actions)))) ∧
    (∀ a, (m.act a).1.accepted = false → ∀ later,
      answers act (m.act a).2 later = answers act m later) ∧
    ∀ t, t ≠ .value → ∀ x : t.Val,
      (∀ tag, m.tagFor t = some tag → ∀ bs, m.marshal t x = .ok bs →
        bs.head? = some tag.toByte) ∧
      (m.tagFor t = none → m.marshal t x = .error (.unboundType t.describe) ∧
        (Error.unboundType t.describe).kind = .unknownType) := by
  intro m₀ m
  have hm : m.Coherent := coherent_afterActions config types payloads actions
  refine ⟨fun t => ⟨hm.binding?_eq t, ?_⟩, fun a hc later => (hm.same_act hc).answers_eq later,
    fun t ht x => ⟨fun tag htag bs h => hm.head?_marshal ht htag h,
      fun h => ⟨marshal_of_tagFor_none ht h x, rfl⟩⟩⟩
  have hhosts : m.hosts.find? t = latest? t (actions.zip (answers act m₀ actions)) := by
    rw [find?_hosts_afterActions]
    cases latest? t (actions.zip (answers act m₀ actions)) <;> rfl
  rw [lookup, hm.binding?_eq, build?, hhosts]

/-- An enum that was an object first, and was looked up as one: its constants and the lists of them
are written as such, whatever registrations are refused later. -/
theorem lookups_after_actions_rebound :
    let e : HostEnum := ⟨"Color", [("RED", 0)]⟩
    let color := HostType.enumeration "Color" e
    let actions : List Action := [.registerObject (.list color) "Palette", .writerFor (.list color),
      .registerObject color "Shade", .tagFor color, .registerEnum "Color" e,
      .registerObject color " ", .registerObject .unit "Unit"]
    let m := afterCalls act (ofConfig .default .empty) actions
    (m.lookup color).1 = some .constant ∧ (m.lookup (.list color)).1 = some .constants ∧
      (∀ bs, m.marshal color ⟨0, by decide⟩ = .ok bs → bs.head? = some 28) ∧
      (m.act (.registerObject color " ")).1.accepted = false ∧
      answers act (m.act (.registerObject color " ")).2 [.tagFor color] =
        answers act m [.tagFor color] := by
  intro e color actions m
  obtain ⟨hlookup, hunchanged, hmarshal⟩ := lookups_after_actions .default .empty .compact actions
  have hcolor : (m.lookup color).1 = some .constant := (hlookup color).2.trans (by decide +kernel)
  have htag : m.tagFor color = some (.scalar .constant) := congrArg (Option.map Binding.tag) hcolor
  have hrefused : (m.act (.registerObject color " ")).1.accepted = false := rfl
  exact ⟨hcolor, (hlookup (.list color)).2.trans (by decide +kernel),
    (hmarshal color nofun _).1 _ htag, hrefused, hunchanged _ hrefused _⟩

end Marshaller

end WireCodec
