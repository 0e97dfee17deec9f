import ExecutionLayer.Rlp.Item

/-! # Decoding

A decoder reads the header of the first item and takes the payload that it announces. Lengths must
be written in the shortest form. What follows the first item is ignored at the top level; inside a
list the items have to fill the payload exactly. Bytes are taken with a check that there are as many,
which stands for all indexing: no decoder has an index out of range, and all errors are its own.
-/
namespace ExecutionLayer.Rlp

inductive DecodeError where
  | emptyInput
  | malformed
  /-- A byte string stands where the fields of a record are expected. -/
  | bytesForRecord (name : String)
  | fieldCount (name : String) (expected actual : Nat)
  | noVariant
  | manyVariants
  | unsupportedType
  /-- A tuple type without components was asked for. -/
  | emptyTuple
  /-- The type asked for does not say how large its values are. -/
  | unknownSize
  /-- The type asked for is built on a name that means nothing. -/
  | unresolvedType
  | notAType
deriving DecidableEq, Repr, Inhabited

namespace DecodeError

def message? : DecodeError → Option String
  | emptyInput => some "Cannot decode empty bytestring"
  | bytesForRecord name => some s!"got `bytes` while decoding `{name}`"
  | fieldCount name expected actual =>
    some s!"`{name}` needs {expected} field(s), but got {actual} instead"
  | manyVariants => some "multiple matching union variants"
  | _ => none

end DecodeError

def splitExactly (n : Nat) (bs : List UInt8) : Option (List UInt8 × List UInt8) :=
  if (bs.take n).length = n then some (bs.take n, bs.drop n) else none

def takeLength (width : Nat) (bs : List UInt8) : Except DecodeError (Nat × List UInt8) :=
  match splitExactly width bs with
  | some (b :: digits, rest) =>
    if b = 0 then .error .malformed else .ok (BigEndian.value (b :: digits), rest)
  | _ => .error .malformed

/-- The payload that the header byte `first` of the family `base` announces. -/
def takePayload (base : Nat) (first : Nat) (rest : List UInt8) :
    Except DecodeError (List UInt8) := do
  if first ≤ base + 55 then
    match splitExactly (first - base) rest with
    | some (payload, _) => return payload
    | none => throw .malformed
  else
    let (length, rest) ← takeLength (first - (base + 55)) rest
    if length < 56 then throw .malformed
    match splitExactly length rest with
    | some (payload, _) => return payload
    | none => throw .malformed

/-- Decodes one byte string. A first byte that is too small for a header counts as a negative
length: the payload then ends that many bytes before the end of the input. -/
def decodeBytes (first : UInt8) (rest : List UInt8) : Except DecodeError (List UInt8) := do
  let f := first.toNat
  if f < 128 then
    if rest.isEmpty then return [first]
    if f = 127 then return []
    return rest.take (rest.length + f - 127)
  let payload ← takePayload 128 f rest
  match payload with
  | [b] => if b < 128 then throw .malformed else return payload
  | _ => return payload

/-- The payload of a list. A first byte below that of the empty list counts as a negative
length: the payload then ends that many bytes before the end of the input. -/
def listPayload (first : UInt8) (rest : List UInt8) : Except DecodeError (List UInt8) := do
  let f := first.toNat
  if f < 192 then
    if f = 191 then return []
    return rest.take (rest.length + f - 191)
  takePayload 192 f rest

/-- The length of the first encoding in the input, header included; the input need not hold all of
its payload. -/
def itemLength : List UInt8 → Except DecodeError Nat
  | [] => .error .malformed
  | first :: rest => do
    let f := first.toNat
    if f < 128 then return 1
    else if f ≤ 183 then return 1 + (f - 128)
    else if f ≤ 191 then
      let (length, _) ← takeLength (f - 183) rest
      return 1 + (f - 183) + length
    else if f ≤ 247 then return 1 + (f - 192)
    else
      let (length, _) ← takeLength (f - 247) rest
      return 1 + (f - 247) + length

def splitItem (bs : List UInt8) : Except DecodeError (List UInt8 × List UInt8) := do
  match splitExactly (← itemLength bs) bs with
  | some parts => return parts
  | none => throw .malformed

theorem splitExactly_eq_some {n : Nat} {bs taken rest : List UInt8}
    (h : splitExactly n bs = some (taken, rest)) : taken.length = n ∧ bs = taken ++ rest := by
  unfold splitExactly at h
  split at h
  · next length =>
    cases h
    exact ⟨length, (List.take_append_drop n bs).symm⟩
  · cases h

theorem length_takePayload_le {base first : Nat} {rest payload : List UInt8}
    (h : takePayload base first rest = .ok payload) : payload.length ≤ rest.length := by
  unfold takePayload at h
  split at h
  · split at h
    · next split =>
      cases h
      simp [(splitExactly_eq_some split).2]
    · cases h
  · unfold takeLength at h
    split at h
    · next width split =>
      split at h
      · cases h
      · simp only [bind, Except.bind] at h
        split at h
        · cases h
        · simp only [pure, Except.pure] at h
          split at h
          · next split' =>
            cases h
            simp [(splitExactly_eq_some split).2, (splitExactly_eq_some split').2]
            omega
          · cases h
    · cases h

theorem length_listPayload_le {first : UInt8} {rest payload : List UInt8}
    (h : listPayload first rest = .ok payload) : payload.length ≤ rest.length := by
  unfold listPayload at h
  simp only at h
  split at h
  · split at h <;> simp only [pure, Except.pure, Except.ok.injEq] at h <;> subst h
    · simp
    · exact List.length_take_le' _ _
  · exact length_takePayload_le h

theorem itemLength_pos {bs : List UInt8} {n : Nat} (h : itemLength bs = .ok n) : 0 < n := by
  unfold itemLength at h
  split at h
  · cases h
  · simp only [bind, Except.bind] at h
    repeat' split at h
    all_goals simp only [pure, Except.pure, Except.ok.injEq, reduceCtorEq] at h
    all_goals omega

theorem splitItem_eq_ok {bs first rest : List UInt8} (h : splitItem bs = .ok (first, rest)) :
    0 < first.length ∧ bs = first ++ rest := by
  unfold splitItem at h
  simp only [bind, Except.bind] at h
  split at h
  · cases h
  · next n length =>
    split at h
    · next parts split =>
      cases h
      obtain ⟨eq, append⟩ := splitExactly_eq_some split
      exact ⟨eq ▸ itemLength_pos length, append⟩
    · cases h

mutual

def decode (bs : List UInt8) : Except DecodeError Item :=
  match bs with
  | [] => .error .emptyInput
  | first :: rest =>
    if first ≤ 191 then (decodeBytes first rest).map .bytes
    else
      match _h : listPayload first rest with
      | .ok payload => (decodeAll payload).map .list
      | .error e => .error e
termination_by 2 * bs.length
decreasing_by
  have := length_listPayload_le _h
  simp only [List.length_cons]
  omega

def decodeAll (bs : List UInt8) : Except DecodeError (List Item) :=
  if bs.isEmpty then .ok []
  else
    match _h : splitItem bs with
    | .ok (first, rest) =>
      match decode first with
      | .ok item => (decodeAll rest).map (item :: ·)
      | .error e => .error e
    | .error e => .error e
termination_by 2 * bs.length + 1
decreasing_by
  all_goals
    obtain ⟨pos, append⟩ := splitItem_eq_ok _h
    have := congrArg List.length append
    simp only [List.length_append] at this
    omega

end

/-- Decodes the input as a list, whatever its first byte says. -/
def decodeList (first : UInt8) (rest : List UInt8) : Except DecodeError (List Item) := do
  decodeAll (← listPayload first rest)

end ExecutionLayer.Rlp
