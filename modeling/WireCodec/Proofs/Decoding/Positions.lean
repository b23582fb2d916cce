import WireCodec.Proofs.Decoding.Incremental
import WireCodec.Proofs.Decoding.Requests
import WireCodec.Proofs.Decoding.Scalars

/-!
# Where a reader comes to

While it reads a value, a reader comes to the values within it: the elements of arrays and
collections, the keys and the values of entries, each with a request of its own
(`DecodeLimits.Comes`). Every value within what was read was read there, and where a value within
cannot be read, nothing is read (`Comes.error`).
-/

namespace WireCodec

namespace Decode

variable {α : Type} {d : Decode α} {bs mid rest : Bytes} {x : α} {xs ys : List α} {e : Error}
  {k n : Nat}

/-- Each of the values that are read one after the other is read after some of the others. -/
theorem exists_of_mem_many (h : many d n bs = .ok (xs, rest)) (hx : x ∈ xs) :
    ∃ k ys mid rest', k < n ∧ many d k bs = .ok (ys, mid) ∧ d mid = .ok (x, rest') := by
  induction n generalizing bs xs with
  | zero =>
    cases h
    cases hx
  | succ n ih =>
    simp only [many_succ, bind_eq_ok_iff, pure_eq_ok_iff] at h
    obtain ⟨z, mid, hz, zs, _, hzs, rfl, rfl⟩ := h
    obtain rfl | hx := List.mem_cons.mp hx
    · exact ⟨0, [], bs, mid, Nat.succ_pos n, rfl, hz⟩
    · obtain ⟨k, ys, mid', rest', hk, hys, hx⟩ := ih hzs hx
      refine ⟨k + 1, z :: ys, mid', rest', Nat.succ_lt_succ hk, ?_, hx⟩
      rw [many_succ, bind_ok hz, bind_ok hys]
      rfl

/-- Where one of the values cannot be read, they cannot all be. -/
theorem many_error (hk : k < n) (hys : many d k bs = .ok (ys, mid)) (he : d mid = .error e) :
    many d n bs = .error e := by
  induction k generalizing n bs ys with
  | zero =>
    cases hys
    obtain ⟨n, rfl⟩ := Nat.exists_eq_succ_of_ne_zero (Nat.ne_of_gt hk)
    exact bind_error he
  | succ k ih =>
    obtain ⟨n, rfl⟩ := Nat.exists_eq_succ_of_ne_zero (Nat.ne_zero_of_lt hk)
    simp only [many_succ, bind_eq_ok_iff, pure_eq_ok_iff] at hys
    obtain ⟨z, mid', hz, zs, _, hzs, rfl, rfl⟩ := hys
    rw [many_succ, bind_ok hz]
    exact bind_error (ih (Nat.lt_of_succ_lt_succ hk) hzs)

theorem lift_eq_ok_iff {x? : Except Error α} :
    (liftM x? : Decode α) bs = .ok (x, rest) ↔ x? = .ok x ∧ bs = rest := by
  cases x? with
  | ok y => exact pure_eq_ok_iff.trans (and_congr_left' (by simp))
  | error e => exact ⟨nofun, nofun⟩

theorem yields_lift (x? : Except Error α) : Yields (fun x => x? = .ok x) (liftM x?) :=
  fun _ _ _ h => (lift_eq_ok_iff.mp h).1

theorem Incremental.suffix (hd : Incremental k d) (h : d bs = .ok (x, rest)) : rest <:+ bs := by
  obtain ⟨used, rfl, -, -⟩ := hd.reads h
  exact List.suffix_append used rest

end Decode

open Decode

/-- A value without content, or with a number or a scalar for content. -/
def Value.Atomic : Value → Prop
  | null | primitive _ _ | scalar _ _ => True
  | _ => False

namespace DecodeLimits

variable {l : DecodeLimits} {nested : Request → Decode Value} {r r' r'' : Request}
  {bs bs' bs'' body start mid rest : Bytes} {n levels : Nat} {v w : Value} {e : Error}

theorem suffix_count {size : Nat} (h : l.count size bs = .ok (n, rest)) : rest <:+ bs := by
  obtain ⟨m, mid, hm, h⟩ := bind_eq_ok_iff.mp h
  obtain ⟨⟨⟩, mid', hexpect, h⟩ := bind_eq_ok_iff.mp h
  obtain ⟨-, rfl⟩ := pure_eq_ok_iff.mp h
  rw [expect] at hexpect
  split at hexpect <;> cases hexpect
  exact (incremental_length _).suffix hm

/-! ## One level -/

/-- These bytes are an array or a collection of `n` values, the first of which begins at `start`. -/
inductive Sequence (l : DecodeLimits) : Bytes → Nat → Bytes → Prop
  | array {body start : Bytes} {n : Nat} (hn : l.count 1 body = .ok (n, start)) :
    Sequence l (Tag.objectArray.toByte :: body) n start
  | collection {body mid start : Bytes} {n : Nat} {code : Int} {flavor : CollectionFlavor}
    (hn : l.count 1 body = .ok (n, mid)) (hcode : Decode.int8 mid = .ok (code, start))
    (hflavor : CollectionFlavor.ofCode code = .ok flavor) :
    Sequence l (Tag.collection.toByte :: body) n start

/-- These bytes are a map of `n` entries, the first of which begins at `start`, or one entry. -/
inductive Entries (l : DecodeLimits) : Bytes → Nat → Bytes → Prop
  | map {body mid start : Bytes} {n : Nat} {code : Int} {flavor : MapFlavor}
    (hn : l.count 2 body = .ok (n, mid)) (hcode : Decode.int8 mid = .ok (code, start))
    (hflavor : MapFlavor.ofCode code = .ok flavor) : Entries l (Tag.map.toByte :: body) n start
  | entry (body : Bytes) : Entries l (Tag.mapEntry.toByte :: body) 1 body

/-- While it reads a value, a reader comes to a value right within it: it has read all that is in
front. -/
inductive Inside (l : DecodeLimits) (nested : Request → Decode Value) (r : Request) :
    Bytes → Request → Bytes → Prop
  | element {bs start mid : Bytes} {n k : Nat} {xs : List Value} (h : l.Sequence bs n start)
    (hk : k < n) (hxs : many (nested r.element) k start = .ok (xs, mid)) :
    Inside l nested r bs r.element mid
  | key {bs start mid : Bytes} {n k : Nat} {es : List (Value × Value)} (h : l.Entries bs n start)
    (hk : k < n) (hes : many (readTagged.entry nested r) k start = .ok (es, mid)) :
    Inside l nested r bs r.key mid
  | value {bs start mid rest : Bytes} {n k : Nat} {es : List (Value × Value)} {key : Value}
    (h : l.Entries bs n start) (hk : k < n)
    (hes : many (readTagged.entry nested r) k start = .ok (es, mid))
    (hkey : nested r.key mid = .ok (key, rest)) : Inside l nested r bs r.value rest

theorem Sequence.suffix (h : l.Sequence bs n start) : start <:+ bs := by
  cases h with
  | array hn => exact (suffix_count hn).trans (List.suffix_cons ..)
  | collection hn hcode =>
    exact (incremental_int8.suffix hcode).trans ((suffix_count hn).trans (List.suffix_cons ..))

theorem Entries.suffix (h : l.Entries bs n start) : start <:+ bs := by
  cases h with
  | map hn hcode =>
    exact (incremental_int8.suffix hcode).trans ((suffix_count hn).trans (List.suffix_cons ..))
  | entry => exact List.suffix_cons ..

theorem Inside.suffix (hnested : ∀ r, Incremental 1 (nested r)) (h : l.Inside nested r bs r' bs') :
    bs' <:+ bs := by
  cases h with
  | element h hk hxs => exact (((hnested _).many _).suffix hxs).trans h.suffix
  | key h hk hes => exact (((incremental_entry hnested r).many _).suffix hes).trans h.suffix
  | value h hk hes hkey =>
    exact ((hnested _).suffix hkey).trans
      ((((incremental_entry hnested r).many _).suffix hes).trans h.suffix)

theorem readWith_toByte (tag : Tag) (body : Bytes) :
    l.readWith nested r (tag.toByte :: body) = l.readTagged nested r tag body := by
  have hbyte : byte (tag.toByte :: body) = .ok (tag.toByte, body) := reads_byte tag.toByte body
  rw [readWith, bind_ok hbyte, Tag.ofByte?_toByte]

variable (nested r) in
/-- An array or a collection is read by reading its elements. -/
theorem Sequence.readWith_eq (h : l.Sequence bs n start) : ∃ build : List Value → Value,
    l.readWith nested r bs =
      (many (nested r.element) n >>= fun xs => pure (build xs)) start := by
  cases h with
  | array hn =>
    refine ⟨.objectArray, ?_⟩
    rw [readWith_toByte, readTagged, bind_ok hn]
  | @collection _ _ _ _ _ flavor hn hcode hflavor =>
    refine ⟨.collection flavor, ?_⟩
    rw [readWith_toByte, readTagged, bind_ok hn, bind_ok hcode, hflavor]
    rfl

variable (nested r) in
/-- A map is read by reading its entries, and an entry like a map of one. -/
theorem Entries.readWith_eq (h : l.Entries bs n start) : ∃ build : List (Value × Value) → Value,
    l.readWith nested r bs =
      (many (readTagged.entry nested r) n >>= fun es => pure (build es)) start := by
  cases h with
  | @map _ _ _ _ _ flavor hn hcode hflavor =>
    refine ⟨.map flavor, ?_⟩
    rw [readWith_toByte, readTagged, bind_ok hn, bind_ok hcode, hflavor]
    rfl
  | entry =>
    refine ⟨fun es => (es.head?.map fun e => .mapEntry e.1 e.2).getD .null, ?_⟩
    rw [readWith_toByte, readTagged, many_succ]
    simp only [bind_assoc, pure_bind, many]
    rfl

theorem Inside.error (h : l.Inside nested r bs r' bs') (he : nested r' bs' = .error e) :
    l.readWith nested r bs = .error e := by
  cases h with
  | element h hk hxs =>
    obtain ⟨build, hread⟩ := h.readWith_eq nested r
    exact hread.trans (bind_error (many_error hk hxs he))
  | key h hk hes =>
    obtain ⟨build, hread⟩ := h.readWith_eq nested r
    exact hread.trans (bind_error (many_error hk hes (bind_error he)))
  | value h hk hes hkey =>
    obtain ⟨build, hread⟩ := h.readWith_eq nested r
    refine hread.trans (bind_error (many_error hk hes ?_))
    rw [readTagged.entry, bind_ok hkey]
    exact bind_error he

/-! ## What was read within a value -/

theorem yields_tag_readTagged (tag : Tag) :
    Yields (fun v => v.tag = tag) (l.readTagged nested r tag) := by
  cases tag with
  | one f =>
    exact (yields_lift _).bind fun k hk => .andThen fun x =>
      .pure (congrArg Tag.one (Request.form_of_primitive hk))
  | array f =>
    exact (yields_lift _).bind fun k hk => .andThen fun n => .andThen fun xs =>
      .pure (congrArg Tag.array (Request.form_of_primitiveArray hk))
  | null => exact .pure rfl
  | scalar s => exact .andThen fun x => .pure rfl
  | scalarArray s => exact .andThen fun n => .andThen fun xs => .pure rfl
  | objectArray => exact .andThen fun n => .andThen fun xs => .pure rfl
  | collection | map =>
    exact .andThen fun n => .andThen fun code => .andThen fun flavor => .andThen fun xs => .pure rfl
  | mapEntry => exact .andThen fun e => .pure rfl
  | object => exact .andThen fun o => .andThen fun u => .pure rfl

/-- What is read begins with its tag. -/
theorem readWith_eq_ok (h : l.readWith nested r bs = .ok (v, rest)) :
    ∃ body, bs = v.tag.toByte :: body ∧ l.readTagged nested r v.tag body = .ok (v, rest) := by
  cases bs with
  | nil => cases h
  | cons b body =>
    rw [readWith, bind_ok (show byte (b :: body) = .ok (b, body) from reads_byte b body)] at h
    cases htag : Tag.ofByte? b with
    | none =>
      rw [htag] at h
      cases h
    | some tag =>
      rw [htag] at h
      cases yields_tag_readTagged tag _ _ _ h
      exact ⟨body, by rw [Tag.toByte_of_ofByte? htag], h⟩

/-- The elements of what was read are atoms, or were read as elements. -/
theorem exists_inside_element {vs : List Value} (h : l.readWith nested r bs = .ok (v, rest))
    (hvs : v.elements? = some vs) (hw : w ∈ vs) : w.Atomic ∨
      ∃ mid rest', l.Inside nested r bs r.element mid ∧ nested r.element mid = .ok (w, rest') := by
  obtain ⟨body, rfl, htagged⟩ := readWith_eq_ok h
  cases v with
  | primitiveArray k xs =>
    cases hvs
    obtain ⟨x, -, rfl⟩ := List.mem_map.mp hw
    exact .inl trivial
  | scalarArray s xs =>
    cases hvs
    obtain ⟨x, -, rfl⟩ := List.mem_map.mp hw
    cases x <;> exact .inl trivial
  | objectArray xs =>
    cases hvs
    simp only [Value.tag, readTagged, bind_eq_ok_iff, pure_eq_ok_iff] at htagged
    obtain ⟨n, start, hn, _, _, hxs, hv, -⟩ := htagged
    cases hv
    obtain ⟨k, ys, mid, rest', hk, hys, hread⟩ := exists_of_mem_many hxs hw
    exact .inr ⟨mid, rest', .element (.array hn) hk hys, hread⟩
  | collection flavor xs =>
    cases hvs
    simp only [Value.tag, readTagged, bind_eq_ok_iff, pure_eq_ok_iff, lift_eq_ok_iff] at htagged
    obtain ⟨n, _, hn, code, start, hcode, _, _, ⟨hflavor, rfl⟩, _, _, hxs, hv, -⟩ := htagged
    cases hv
    obtain ⟨k, ys, mid, rest', hk, hys, hread⟩ := exists_of_mem_many hxs hw
    exact .inr ⟨mid, rest', .element (.collection hn hcode hflavor) hk hys, hread⟩
  | _ => cases hvs

/-- An entry of what was read was read as a key and as a value. -/
theorem exists_inside_entry (h : l.Entries bs n start)
    {es : List (Value × Value)} (hes : many (readTagged.entry nested r) n start = .ok (es, rest))
    {entry : Value × Value} (he : entry ∈ es) :
    (∃ mid rest', l.Inside nested r bs r.key mid ∧ nested r.key mid = .ok (entry.1, rest')) ∧
      ∃ mid rest', l.Inside nested r bs r.value mid ∧
        nested r.value mid = .ok (entry.2, rest') := by
  obtain ⟨k, ys, mid, rest', hk, hys, hread⟩ := exists_of_mem_many hes he
  simp only [readTagged.entry, bind_eq_ok_iff, pure_eq_ok_iff] at hread
  obtain ⟨key, mid', hkey, value, _, hvalue, rfl, -⟩ := hread
  exact ⟨⟨mid, mid', .key h hk hys, hkey⟩, ⟨mid', _, .value h hk hys hkey, hvalue⟩⟩

theorem exists_entries_map {flavor : MapFlavor} {es : List (Value × Value)}
    (h : l.readWith nested r bs = .ok (.map flavor es, rest)) :
    ∃ n start, l.Entries bs n start ∧
      many (readTagged.entry nested r) n start = .ok (es, rest) := by
  obtain ⟨body, rfl, htagged⟩ := readWith_eq_ok h
  simp only [Value.tag, readTagged, bind_eq_ok_iff, pure_eq_ok_iff, lift_eq_ok_iff] at htagged
  obtain ⟨n, _, hn, code, start, hcode, _, _, ⟨hflavor, rfl⟩, _, _, hes, hv, rfl⟩ := htagged
  cases hv
  exact ⟨n, start, .map hn hcode hflavor, hes⟩

theorem exists_entries_mapEntry {key value : Value}
    (h : l.readWith nested r bs = .ok (.mapEntry key value, rest)) :
    ∃ n start, l.Entries bs n start ∧
      many (readTagged.entry nested r) n start = .ok ([(key, value)], rest) := by
  obtain ⟨body, rfl, htagged⟩ := readWith_eq_ok h
  simp only [Value.tag, readTagged, bind_eq_ok_iff, pure_eq_ok_iff] at htagged
  obtain ⟨e, _, he, hv, rfl⟩ := htagged
  cases hv
  exact ⟨1, body, .entry body, by rw [many_succ, bind_ok he]; rfl⟩

/-- A structured object was read as one, and its type was checked against what was asked for. -/
theorem readWith_object {o : StructuredObject}
    (h : l.readWith nested r bs = .ok (.object o, rest)) : ∃ body,
      bs = Tag.object.toByte :: body ∧ StructuredObject.decode l.maxLength body = .ok (o, rest) ∧
        l.checkObject r o = .ok () := by
  obtain ⟨body, rfl, htagged⟩ := readWith_eq_ok h
  simp only [Value.tag, readTagged, bind_eq_ok_iff, pure_eq_ok_iff, lift_eq_ok_iff] at htagged
  obtain ⟨_, _, ho, ⟨⟩, _, ⟨hcheck, rfl⟩, hv, rfl⟩ := htagged
  cases hv
  exact ⟨body, rfl, ho, hcheck⟩

theorem readWith_object_error {o : StructuredObject}
    (ho : StructuredObject.decode l.maxLength body = .ok (o, rest))
    (hcheck : l.checkObject r o = .error e) :
    l.readWith nested r (Tag.object.toByte :: body) = .error e := by
  rw [readWith_toByte, readTagged, bind_ok ho, hcheck]
  rfl

/-! ## All levels -/

/-- While it reads these bytes for a request, a reader with so many levels comes to read those bytes
for that request. -/
inductive Comes (l : DecodeLimits) : Nat → Request → Bytes → Request → Bytes → Prop
  | here (levels : Nat) (r : Request) (bs : Bytes) : Comes l levels r bs r bs
  | inside {levels : Nat} {r r' r'' : Request} {bs bs' bs'' : Bytes}
    (h : l.Inside (l.read levels) r bs r' bs') (h' : Comes l levels r' bs' r'' bs'') :
    Comes l (levels + 1) r bs r'' bs''

theorem Comes.suffix (h : l.Comes levels r bs r' bs') : bs' <:+ bs := by
  induction h with
  | here => exact List.suffix_rfl
  | inside h _ ih => exact ih.trans (h.suffix (l.incremental_read _))

/-- What cannot be read there cannot be read. -/
theorem Comes.error (h : l.Comes levels r bs r' bs')
    (he : ∀ levels, l.read levels r' bs' = .error e) :
    l.read levels r bs = .error e := by
  induction h with
  | here levels => exact he levels
  | inside h _ ih => exact h.error (ih he)

/-- While it reads these bytes, a reader reads this value for that request, and all that it comes
to there it comes to on its way. -/
def ReadsInside (l : DecodeLimits) (levels : Nat) (r : Request) (bs : Bytes) (r' : Request)
    (w : Value) : Prop :=
  ∃ levels' mid rest, l.read levels' r' mid = .ok (w, rest) ∧
    ∀ r'' bs'', l.Comes levels' r' mid r'' bs'' → l.Comes levels r bs r'' bs''

theorem readsInside_of_inside (h : l.Inside (l.read levels) r bs r' mid)
    (hread : l.read levels r' mid = .ok (w, rest)) : l.ReadsInside (levels + 1) r bs r' w :=
  ⟨levels, mid, rest, hread, fun _ _ h' => .inside h h'⟩

theorem readsInside_element {vs : List Value} (h : l.read levels r bs = .ok (v, rest))
    (hvs : v.elements? = some vs) (hw : w ∈ vs) :
    w.Atomic ∨ l.ReadsInside levels r bs r.element w := by
  cases levels with
  | zero => exact (exists_inside_element h hvs hw).imp_right fun ⟨_, _, _, hread⟩ => nomatch hread
  | succ levels =>
    exact (exists_inside_element h hvs hw).imp_right fun ⟨_, _, hinside, hread⟩ =>
      readsInside_of_inside hinside hread

theorem readsInside_of_entries {es : List (Value × Value)} {entry : Value × Value}
    (h : ∀ nested, l.readWith nested r bs = .ok (v, rest) → ∃ n start, l.Entries bs n start ∧
      many (readTagged.entry nested r) n start = .ok (es, rest))
    (hread : l.read levels r bs = .ok (v, rest)) (he : entry ∈ es) :
    l.ReadsInside levels r bs r.key entry.1 ∧ l.ReadsInside levels r bs r.value entry.2 := by
  cases levels with
  | zero =>
    obtain ⟨n, start, hentries, hes⟩ := h _ hread
    obtain ⟨⟨_, _, _, hkey⟩, -⟩ := exists_inside_entry hentries hes he
    cases hkey
  | succ levels =>
    obtain ⟨n, start, hentries, hes⟩ := h _ hread
    obtain ⟨⟨_, _, hk, hkey⟩, _, _, hv, hvalue⟩ := exists_inside_entry hentries hes he
    exact ⟨readsInside_of_inside hk hkey, readsInside_of_inside hv hvalue⟩

theorem readsInside_map {flavor : MapFlavor} {es : List (Value × Value)} {entry : Value × Value}
    (h : l.read levels r bs = .ok (.map flavor es, rest)) (he : entry ∈ es) :
    l.ReadsInside levels r bs r.key entry.1 ∧ l.ReadsInside levels r bs r.value entry.2 :=
  readsInside_of_entries (fun _ => exists_entries_map) h he

theorem readsInside_mapEntry {key value : Value}
    (h : l.read levels r bs = .ok (.mapEntry key value, rest)) :
    l.ReadsInside levels r bs r.key key ∧ l.ReadsInside levels r bs r.value value := by
  have hentry : (key, value) ∈ [(key, value)] := List.mem_singleton_self _
  exact readsInside_of_entries (fun _ => exists_entries_mapEntry) h hentry

end DecodeLimits

end WireCodec
