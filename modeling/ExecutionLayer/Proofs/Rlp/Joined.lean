import ExecutionLayer.Proofs.Rlp.Canonical
import ExecutionLayer.Proofs.Rlp.Refusal

/-! # Joined encodings

The payload of a list is taken apart into exactly the items whose encodings were joined, and refused
if there are none. The number of calls that are open at a time is bounded by the size of the input,
whatever the headers in it say.
-/
namespace ExecutionLayer.Rlp

mutual

/-- Decoding that is given up where more than the given number of calls would be open. -/
def decodeWithin : Nat → List UInt8 → Option (Except DecodeError Item)
  | 0, _ => none
  | _ + 1, [] => some (.error .emptyInput)
  | calls + 1, first :: rest =>
    if first ≤ 191 then some ((decodeBytes first rest).map .bytes)
    else
      match listPayload first rest with
      | .ok payload => (decodeAllWithin calls payload).map (·.map .list)
      | .error e => some (.error e)

def decodeAllWithin : Nat → List UInt8 → Option (Except DecodeError (List Item))
  | 0, _ => none
  | calls + 1, bs =>
    if bs.isEmpty then some (.ok [])
    else
      match splitItem bs with
      | .ok (first, rest) =>
        match decodeWithin calls first with
        | some (.ok item) => (decodeAllWithin calls rest).map (·.map (item :: ·))
        | some (.error e) => some (.error e)
        | none => none
      | .error e => some (.error e)

end

theorem within_eq (calls : Nat) :
    (∀ bs, 0 < calls → 2 * bs.length ≤ calls → decodeWithin calls bs = some (decode bs)) ∧
      ∀ bs, 2 * bs.length < calls → decodeAllWithin calls bs = some (decodeAll bs) := by
  induction calls with
  | zero =>
    constructor
    · intro bs hpos
      exact absurd hpos (Nat.lt_irrefl 0)
    · intro bs hlt
      exact absurd hlt (Nat.not_lt_zero _)
  | succ calls ih =>
    constructor
    · intro bs _ hle
      cases bs with
      | nil => rw [decodeWithin, decode]
      | cons first rest =>
        rw [List.length_cons] at hle
        rw [decodeWithin]
        split
        · next hfirst => rw [decode_of_string hfirst]
        · next hfirst =>
          rw [decode_of_list hfirst]
          cases hpayload : listPayload first rest with
          | ok payload =>
            have hlt := length_listPayload_le hpayload
            dsimp only
            rw [ih.2 payload (by omega)]
            rfl
          | error e => rfl
    · intro bs hlt
      rw [decodeAllWithin]
      split
      · next hbs => rw [decodeAll, if_pos hbs]
      · next hbs =>
        rw [decodeAll_of_ne_nil (by simpa using hbs)]
        cases hsplit : splitItem bs with
        | ok parts =>
          have hparts := length_of_splitItem hsplit
          dsimp only
          rw [ih.1 parts.1 (by omega) (by omega)]
          cases hitem : decode parts.1 with
          | ok item =>
            dsimp only
            rw [ih.2 parts.2 (by omega), except_of_ok rfl, except_of_ok hitem]
            rfl
          | error e =>
            rw [except_of_ok rfl, except_of_error hitem]
        | error e => rfl

theorem encodeAll_eq_flatMap (items : List Item) : encodeAll items = items.flatMap encode := by
  induction items with
  | nil => rfl
  | cons item items ih => rw [encodeAll, ih, List.flatMap_cons]

/-- Joined encodings are taken apart into the items they encode, and nothing else is. Decoding ends
on every input, and if it fails then because the input is empty or malformed. -/
theorem joined_encodings_parsed (j : List UInt8) :
    (j.length < 2 ^ 64 → ∀ items, decodeAll j = .ok items ↔ j = items.flatMap encode) ∧
    ((∀ items : List Item, j ≠ items.flatMap encode) → decodeAll j = .error .malformed) ∧
    (∀ e, decodeAll j = .error e → e = .malformed) ∧
    (∀ e, decode j = .error e → e = if j = [] then .emptyInput else .malformed) ∧
    ∀ calls > 2 * j.length,
      decodeWithin calls j = some (decode j) ∧ decodeAllWithin calls j = some (decodeAll j) := by
  have hsound {items : List Item} (h : decodeAll j = .ok items) : j = items.flatMap encode := by
    rw [← encodeAll_eq_flatMap]
    exact eq_encodeAll_of_decodeAll h
  refine ⟨?_, ?_, ?_, ?_, ?_⟩
  · intro hj items
    refine ⟨hsound, ?_⟩
    rintro rfl
    rw [← encodeAll_eq_flatMap] at hj ⊢
    exact decodeAll_encodeAll items hj
  · intro hnone
    cases hread : decodeAll j with
    | ok items => exact absurd (hsound hread) (hnone items)
    | error e => rw [decodeAll_fails j e hread]
  · exact decodeAll_fails j
  · exact decode_fails j
  · intro calls hcalls
    exact ⟨(within_eq calls).1 j (by omega) (by omega), (within_eq calls).2 j hcalls⟩

/-- A byte and an empty list one after the other, and a header without its byte. -/
theorem joined_encodings_parsed_two :
    decodeAll [1, 0xc0] = .ok [.bytes [1], .list []] ∧ decodeAll [0x81] = .error .malformed ∧
      decode [] = .error .emptyInput ∧ decodeWithin 1 [] = some (decode []) := by
  have htwo := joined_encodings_parsed [1, 0xc0]
  have hcut := joined_encodings_parsed [0x81]
  have hempty := joined_encodings_parsed []
  have hfail : decodeAll [0x81] = .error .malformed := by
    rw [decodeAll_of_ne_nil (by decide)]
    rfl
  refine ⟨(htwo.1 (by decide) _).mpr (by decide), hcut.2.1 fun items heq => ?_, ?_, ?_⟩
  · rw [(hcut.1 (by decide) items).mpr heq] at hfail
    cases hfail
  · cases hread : decode [] with
    | ok item =>
      rw [decode] at hread
      cases hread
    | error e => rw [hempty.2.2.2.1 e hread, if_pos rfl]
  · exact (hempty.2.2.2.2 1 (by decide)).1

end ExecutionLayer.Rlp
