import ExecutionLayer.Proofs.Rlp.RoundTrip

/-! # Values of a type are read back

A value of a type has an encoding, and decoding it to the type gives the value. This rests on the
variants of every union being told apart by the form of the item alone: a string or a list, or the
length of the string.
-/
namespace ExecutionLayer.Rlp

namespace Schema
variable {s : Schema} {item : Item} {v : Value}

mutual

/-- Whether a value is of the type. A tuple may lack its last components. -/
def admits : Schema → Value → Bool
  | natural, .number _ => true
  | fixedWidth bits, .number n => n < 256 ^ ((bits + 7) / 8)
  | bytes, .bytes _ => true
  | fixedBytes size, .bytes b => b.size = size
  | truth, .truth _ => true
  | tuple parts, .seq values => !parts.isEmpty && admitsTuple parts values
  | tupleRepeating parts, .seq values => !parts.isEmpty && admitsRepeating parts values
  | union variants, value => admitsVariant variants value
  | record name fields, .record name' values => name = name' && admitsFields fields values
  | tagged _ form, value => admits form value
  | _, _ => false

def admitsTuple : List Schema → List Value → Bool
  | _, [] => true
  | s :: ss, v :: vs => admits s v && admitsTuple ss vs
  | [], _ :: _ => false

def admitsRepeating : List Schema → List Value → Bool
  | _, [] => true
  | [s], vs => vs.all fun v => admits s v
  | s :: ss, v :: vs => admits s v && admitsRepeating ss vs
  | [], _ :: _ => false

def admitsVariant : List Schema → Value → Bool
  | [], _ => false
  | s :: ss, v => admits s v || admitsVariant ss v

def admitsFields : List (String × Schema) → List (String × Value) → Bool
  | [], [] => true
  | (name, s) :: fields, (name', v) :: values =>
    name = name' && admits s v && admitsFields fields values
  | _, _ => false

end

def refusesLists : Schema → Bool
  | natural | fixedWidth _ | bytes | fixedBytes _ | truth | unsized _ => true
  | tagged _ form => refusesLists form
  | _ => false

def refusesStrings : Schema → Bool
  | tuple _ | tupleRepeating _ | record _ _ => true
  | tagged _ form => refusesStrings form
  | _ => false

def excludes : Schema → Schema → Bool
  | fixedBytes m, fixedBytes n => m ≠ n
  | s, t => s.refusesLists && t.refusesStrings || s.refusesStrings && t.refusesLists

theorem bytes_of_refusesLists (hs : s.refusesLists = true)
    (h : s.decode item = .ok v) : ∃ b, item = .bytes b := by
  induction s using refusesLists.induct with
  | case7 tag form ih =>
    rw [refusesLists] at hs
    rw [decode] at h
    exact ih hs h
  | case8 => simp_all [refusesLists]
  | _ =>
    cases item with
    | bytes b => exact ⟨b, rfl⟩
    | list items => simp [decode] at h

theorem list_of_refusesStrings (hs : s.refusesStrings = true)
    (h : s.decode item = .ok v) : ∃ items, item = .list items := by
  induction s using refusesStrings.induct with
  | case4 tag form ih =>
    rw [refusesStrings] at hs
    rw [decode] at h
    exact ih hs h
  | case5 => simp_all [refusesStrings]
  | _ =>
    cases item with
    | bytes b => simp [decode] at h
    | list items => exact ⟨items, rfl⟩

theorem size_of_decode_fixedBytes {size : Nat} {b : List UInt8}
    (h : (fixedBytes size).decode (.bytes b) = .ok v) : b.length = size := by
  rw [decode] at h
  split at h
  · assumption
  · cases h

theorem not_decode_of_excludes {s t : Schema} (h : s.excludes t = true) {v w : Value}
    (hs : s.decode item = .ok v) (ht : t.decode item = .ok w) : False := by
  unfold excludes at h
  split at h
  · next m n =>
    obtain ⟨b, rfl⟩ := bytes_of_refusesLists rfl hs
    have hm := size_of_decode_fixedBytes hs
    have hn := size_of_decode_fixedBytes ht
    exact of_decide_eq_true h (hm.symm.trans hn)
  · rw [Bool.or_eq_true, Bool.and_eq_true, Bool.and_eq_true] at h
    rcases h with ⟨hstring, hlist⟩ | ⟨hlist, hstring⟩
    · obtain ⟨b, rfl⟩ := bytes_of_refusesLists hstring hs
      obtain ⟨items, heq⟩ := list_of_refusesStrings hlist ht
      cases heq
    · obtain ⟨items, rfl⟩ := list_of_refusesStrings hlist hs
      obtain ⟨b, heq⟩ := bytes_of_refusesLists hstring ht
      cases heq

mutual

/-- The variants of all unions in the type exclude each other. -/
def isUnambiguous : Schema → Bool
  | tuple parts | tupleRepeating parts => areUnambiguous parts
  | union variants => decide (variants.Pairwise fun s t => s.excludes t) && areUnambiguous variants
  | record _ fields => haveUnambiguous fields
  | tagged _ form => isUnambiguous form
  | _ => true

def areUnambiguous : List Schema → Bool
  | [] => true
  | s :: ss => isUnambiguous s && areUnambiguous ss

def haveUnambiguous : List (String × Schema) → Bool
  | [] => true
  | (_, s) :: fields => isUnambiguous s && haveUnambiguous fields

end

theorem decodeVariants_eq_nil {variants : List Schema} (h : ∀ t ∈ variants, s.excludes t = true)
    (hs : s.decode item = .ok v) : decodeVariants variants item = [] := by
  induction variants with
  | nil => rfl
  | cons t variants ih =>
    rw [decodeVariants]
    split
    · next w ht =>
      exact (not_decode_of_excludes (h t List.mem_cons_self) hs ht).elim
    · exact ih fun u hu => h u (List.mem_cons_of_mem t hu)

theorem decodeVariants_eq_singleton {variants : List Schema}
    (hd : variants.Pairwise fun s t => s.excludes t) (hs : s ∈ variants)
    (h : s.decode item = .ok v) : decodeVariants variants item = [v] := by
  induction variants with
  | nil => cases hs
  | cons t variants ih =>
    obtain ⟨hfirst, hrest⟩ := List.pairwise_cons.mp hd
    rw [decodeVariants]
    rcases List.mem_cons.mp hs with rfl | hmem
    · rw [h, decodeVariants_eq_nil hfirst h]
    · split
      · next w ht => exact (not_decode_of_excludes (hfirst s hmem) ht h).elim
      · exact ih hrest hmem

theorem value_ofNat (n : Nat) : ∃ b, Item.ofNat n = .bytes b ∧ BigEndian.value b = n :=
  ⟨_, rfl, BigEndian.value_digits_byteLength n⟩

theorem decode_ofNat (n : Nat) : natural.decode (.ofNat n) = .ok (.number n) := by
  obtain ⟨b, hb, hn⟩ := value_ofNat n
  rw [hb, decode, hn]

theorem decode_ofNat_fixedWidth {bits n : Nat} (h : n < 256 ^ ((bits + 7) / 8)) :
    (fixedWidth bits).decode (.ofNat n) = .ok (.number n) := by
  rw [pow_eq_two_pow] at h
  have hlength := length_ofNat_le h
  rw [Item.ofNat, decode, if_neg (by omega), BigEndian.value_digits_byteLength]

theorem decode_ofBytes_fixedBytes {size : Nat} {b : Bytes} (h : b.size = size) :
    (fixedBytes size).decode (.ofBytes b) = .ok (.bytes b) := by
  have hlength : b.toList.length = size := h
  rw [Item.ofBytes, decode, if_pos hlength, Bytes.ofList_toList]

theorem decode_ofBool (b : Bool) : truth.decode (.ofBool b) = .ok (.truth b) := by
  cases b <;> simp [Item.ofBool, decode]

theorem admitsRepeating_singleton {vs : List Value} :
    admitsRepeating [s] vs = true ↔ ∀ v ∈ vs, s.admits v = true := by
  cases vs <;> simp [admitsRepeating]

theorem mapM_of_forall {vs : List Value}
    (h : ∀ v ∈ vs, ∃ item, v.toItem? = some item ∧ s.decode item = .ok v) :
    ∃ items, Value.toItems? vs = some items ∧
      (items.mapM fun item => s.decode item) = .ok vs := by
  induction vs with
  | nil => exact ⟨[], by rw [Value.toItems?], rfl⟩
  | cons v vs ih =>
    obtain ⟨item, hitem, hread⟩ := h v List.mem_cons_self
    obtain ⟨items, hitems, hreads⟩ := ih fun w hw => h w (List.mem_cons_of_mem v hw)
    refine ⟨item :: items, by rw [Value.toItems?, hitem, hitems]; rfl, ?_⟩
    rw [List.mapM_cons, hread, hreads]
    rfl

mutual

theorem decode_of_admits {s : Schema} (hs : s.isUnambiguous = true) {v : Value}
    (hv : s.admits v = true) : ∃ item, v.toItem? = some item ∧ s.decode item = .ok v := by
  match s, v, hs, hv with
  | natural, .number n, _, _ => exact ⟨.ofNat n, by rw [Value.toItem?], decode_ofNat n⟩
  | fixedWidth bits, .number n, _, hv =>
    rw [admits] at hv
    exact ⟨.ofNat n, by rw [Value.toItem?], decode_ofNat_fixedWidth (of_decide_eq_true hv)⟩
  | bytes, .bytes b, _, _ => exact ⟨.ofBytes b, by rw [Value.toItem?], rfl⟩
  | fixedBytes size, .bytes b, _, hv =>
    rw [admits] at hv
    exact ⟨.ofBytes b, by rw [Value.toItem?], decode_ofBytes_fixedBytes (of_decide_eq_true hv)⟩
  | truth, .truth b, _, _ => exact ⟨.ofBool b, by rw [Value.toItem?], decode_ofBool b⟩
  | tuple parts, .seq values, hs, hv =>
    rw [isUnambiguous] at hs
    rw [admits, Bool.and_eq_true] at hv
    obtain ⟨items, hitems, hread⟩ := decodeTuple_of_admits hs hv.2
    refine ⟨.list items, by rw [Value.toItem?, hitems, Option.map_some], ?_⟩
    rw [decode, if_neg (by simpa using hv.1), hread]
    rfl
  | tupleRepeating parts, .seq values, hs, hv =>
    rw [isUnambiguous] at hs
    rw [admits, Bool.and_eq_true] at hv
    obtain ⟨items, hitems, hread⟩ := decodeRepeating_of_admits hs hv.2
    refine ⟨.list items, by rw [Value.toItem?, hitems, Option.map_some], ?_⟩
    rw [decode, if_neg (by simpa using hv.1), hread]
    rfl
  | union variants, v, hs, hv =>
    rw [isUnambiguous, Bool.and_eq_true] at hs
    rw [admits] at hv
    obtain ⟨s, hmem, item, hitem, hread⟩ := decode_of_admitsVariant hs.2 hv
    refine ⟨item, hitem, ?_⟩
    rw [decode, decodeVariants_eq_singleton (of_decide_eq_true hs.1) hmem hread]
  | record name fields, .record name' values, hs, hv =>
    rw [isUnambiguous] at hs
    rw [admits, Bool.and_eq_true] at hv
    obtain ⟨items, hitems, hlength, hread⟩ := decodeFields_of_admits hs hv.2
    refine ⟨.list items, by rw [Value.toItem?, hitems, Option.map_some], ?_⟩
    rw [decode, if_pos hlength, hread, of_decide_eq_true hv.1]
    rfl
  | tagged tag form, v, hs, hv =>
    rw [isUnambiguous] at hs
    rw [admits] at hv
    obtain ⟨item, hitem, hread⟩ := decode_of_admits hs hv
    exact ⟨item, hitem, by rw [decode, hread]⟩
termination_by sizeOf s

theorem decodeTuple_of_admits {ss : List Schema} (hs : areUnambiguous ss = true) {vs : List Value}
    (hv : admitsTuple ss vs = true) :
    ∃ items, Value.toItems? vs = some items ∧ decodeTuple ss items = .ok vs := by
  match ss, vs, hs, hv with
  | ss, [], _, _ => exact ⟨[], by rw [Value.toItems?], by cases ss <;> rfl⟩
  | s :: ss, v :: vs, hs, hv =>
    rw [areUnambiguous, Bool.and_eq_true] at hs
    rw [admitsTuple, Bool.and_eq_true] at hv
    obtain ⟨item, hitem, hread⟩ := decode_of_admits hs.1 hv.1
    obtain ⟨items, hitems, hreads⟩ := decodeTuple_of_admits hs.2 hv.2
    refine ⟨item :: items, by rw [Value.toItems?, hitem, hitems]; rfl, ?_⟩
    rw [decodeTuple, hread, hreads]
    rfl
termination_by sizeOf ss

theorem decodeRepeating_of_admits {ss : List Schema} (hs : areUnambiguous ss = true)
    {vs : List Value} (hv : admitsRepeating ss vs = true) :
    ∃ items, Value.toItems? vs = some items ∧ decodeRepeating ss items = .ok vs := by
  match ss, vs, hs, hv with
  | [], [], _, _ => exact ⟨[], by rw [Value.toItems?], rfl⟩
  | [s], vs, hs, hv =>
    rw [areUnambiguous, Bool.and_eq_true] at hs
    rw [admitsRepeating_singleton] at hv
    rw [exists_congr fun items => by rw [decodeRepeating]]
    exact mapM_of_forall fun v hmem => decode_of_admits hs.1 (hv v hmem)
  | s :: t :: ss, [], _, _ => exact ⟨[], by rw [Value.toItems?], rfl⟩
  | s :: t :: ss, v :: vs, hs, hv =>
    rw [areUnambiguous, Bool.and_eq_true] at hs
    simp only [admitsRepeating, Bool.and_eq_true] at hv
    obtain ⟨item, hitem, hread⟩ := decode_of_admits hs.1 hv.1
    obtain ⟨items, hitems, hreads⟩ := decodeRepeating_of_admits hs.2 hv.2
    refine ⟨item :: items, by rw [Value.toItems?, hitem, hitems]; rfl, ?_⟩
    simp only [decodeRepeating, hread, hreads]
    rfl
termination_by sizeOf ss

theorem decode_of_admitsVariant {ss : List Schema} (hs : areUnambiguous ss = true) {v : Value}
    (hv : admitsVariant ss v = true) :
    ∃ s ∈ ss, ∃ item, v.toItem? = some item ∧ s.decode item = .ok v := by
  match ss, hs, hv with
  | s :: ss, hs, hv =>
    rw [areUnambiguous, Bool.and_eq_true] at hs
    rw [admitsVariant, Bool.or_eq_true] at hv
    rcases hv with hv | hv
    · exact ⟨s, List.mem_cons_self, decode_of_admits hs.1 hv⟩
    · obtain ⟨t, hmem, hread⟩ := decode_of_admitsVariant hs.2 hv
      exact ⟨t, List.mem_cons_of_mem s hmem, hread⟩
termination_by sizeOf ss

theorem decodeFields_of_admits {fields : List (String × Schema)}
    (hs : haveUnambiguous fields = true)
    {values : List (String × Value)} (hv : admitsFields fields values = true) :
    ∃ items, Value.fieldItems? values = some items ∧ fields.length = items.length ∧
      decodeFields fields items = .ok values := by
  match fields, values, hs, hv with
  | [], [], _, _ => exact ⟨[], by rw [Value.fieldItems?], rfl, rfl⟩
  | (name, s) :: fields, (name', v) :: values, hs, hv =>
    rw [haveUnambiguous, Bool.and_eq_true] at hs
    rw [admitsFields, Bool.and_eq_true, Bool.and_eq_true] at hv
    obtain ⟨item, hitem, hread⟩ := decode_of_admits hs.1 hv.1.2
    obtain ⟨items, hitems, hlength, hreads⟩ := decodeFields_of_admits hs.2 hv.2
    refine ⟨item :: items, by rw [Value.fieldItems?, hitem, hitems]; rfl, by simp [hlength], ?_⟩
    rw [decodeFields, hread, hreads, of_decide_eq_true hv.1.1]
    rfl
termination_by sizeOf fields

end

theorem exists_toItem_of_admits (hs : s.isUnambiguous = true)
    (hv : s.admits v = true) : ∃ item, v.toItem? = some item :=
  (decode_of_admits hs hv).imp fun _ h => h.1

theorem decodeBytes_encodeToBytes (hs : s.isUnambiguous = true)
    (hv : s.admits v = true) (hitem : v.toItem? = some item)
    (hlength : (encode item).length < 2 ^ 64) : s.decodeBytes (encodeToBytes item) = .ok v := by
  obtain ⟨item', hitem', hread⟩ := decode_of_admits hs hv
  obtain rfl := Option.some.inj (hitem.symm.trans hitem')
  have hback := decode_encode ((length_payload_le item).trans_lt hlength)
  rw [decodeBytes, encodeToBytes, Bytes.toList_ofList, except_of_ok hback, hread]

end Schema

end ExecutionLayer.Rlp
