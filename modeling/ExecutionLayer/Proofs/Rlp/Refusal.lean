import ExecutionLayer.Proofs.Rlp.RoundTrip

/-! # Why nothing is decoded

Where a type can be decoded to at all, nothing but the input is to blame if decoding fails.
-/
namespace ExecutionLayer

namespace Rlp

/-- The input is to blame for the error, and not the type that was asked for. -/
def DecodeError.IsOfInput : DecodeError → Prop
  | .unsupportedType | .emptyTuple | .unknownSize | .unresolvedType | .notAType => False
  | _ => True

/-- Nothing is decoded for reasons of the given sort only. -/
def FailsBy {α : Type} (P : DecodeError → Prop) (x : Except DecodeError α) : Prop :=
  ∀ e, x = .error e → P e

namespace FailsBy
variable {α β : Type} {P : DecodeError → Prop} {x y : Except DecodeError α}

theorem ok (a : α) : FailsBy P (.ok a) := nofun

theorem error {e : DecodeError} (h : P e) : FailsBy P (.error e : Except DecodeError α) :=
  fun _ he => Except.error.inj he ▸ h

theorem bind {f : α → Except DecodeError β} (hx : FailsBy P x)
    (hf : ∀ a, x = .ok a → FailsBy P (f a)) : FailsBy P (x >>= f) := by
  intro e h
  rcases of_except_error h with h | ⟨a, ha, h⟩
  · exact hx e h
  · exact hf a ha e h

theorem map (hx : FailsBy P x) (f : α → β) : FailsBy P (x.map f) :=
  fun e h => hx e (of_map_error h)

theorem ite {c : Prop} [Decidable c] (hx : FailsBy P x) (hy : FailsBy P y) :
    FailsBy P (if c then x else y) := by
  split
  · exact hx
  · exact hy

theorem mapM {f : α → Except DecodeError β} (hf : ∀ a, FailsBy P (f a)) (l : List α) :
    FailsBy P (l.mapM f) := by
  induction l with
  | nil => exact .ok _
  | cons a l ih =>
    rw [List.mapM_cons]
    exact (hf a).bind fun _ _ => ih.bind fun _ _ => .ok _

end FailsBy

theorem takeLength_fails (width : Nat) (bs : List UInt8) :
    FailsBy (· = .malformed) (takeLength width bs) := by
  unfold takeLength
  split
  · exact .ite (.error rfl) (.ok _)
  · exact .error rfl

theorem takePayload_fails (base first : Nat) (rest : List UInt8) :
    FailsBy (· = .malformed) (takePayload base first rest) := by
  refine .ite ?_ ((takeLength_fails _ _).bind fun _ _ => .ite (.error rfl) ?_)
  · split
    · exact .ok _
    · exact .error rfl
  · dsimp only
    split
    · exact .ok _
    · exact .error rfl

theorem decodeBytes_fails (first : UInt8) (rest : List UInt8) :
    FailsBy (· = .malformed) (decodeBytes first rest) := by
  refine .ite (.ite (.ok _) (.ite (.ok _) (.ok _)))
    ((takePayload_fails _ _ _).bind fun _ _ => ?_)
  split
  · exact .ite (.error rfl) (.ok _)
  · exact .ok _

theorem listPayload_fails (first : UInt8) (rest : List UInt8) :
    FailsBy (· = .malformed) (listPayload first rest) :=
  .ite (.ite (.ok _) (.ok _)) (takePayload_fails _ _ _)

theorem itemLength_fails (bs : List UInt8) : FailsBy (· = .malformed) (itemLength bs) := by
  cases bs with
  | nil => exact .error rfl
  | cons first rest =>
    have hlength (width n : Nat) :=
      (takeLength_fails width rest).bind fun p _ => .ok (n + p.1)
    exact .ite (.ok _) (.ite (.ok _) (.ite (hlength _ _) (.ite (.ok _) (hlength _ _))))

theorem splitItem_fails (bs : List UInt8) : FailsBy (· = .malformed) (splitItem bs) := by
  refine (itemLength_fails bs).bind fun _ _ => ?_
  split
  · exact .ok _
  · exact .error rfl

mutual

theorem decode_fails (bs : List UInt8) :
    FailsBy (· = if bs = [] then .emptyInput else .malformed) (decode bs) := by
  match bs with
  | [] =>
    rw [decode]
    exact .error rfl
  | first :: rest =>
    rw [if_neg (List.cons_ne_nil first rest)]
    by_cases hfirst : first ≤ 191
    · rw [decode_of_string hfirst]
      exact (decodeBytes_fails first rest).map _
    · rw [decode_of_list hfirst]
      refine (listPayload_fails first rest).bind fun payload hpayload => ?_
      have hlt := length_listPayload_le hpayload
      exact (decodeAll_fails payload).map _
termination_by 2 * bs.length
decreasing_by
  simp only [List.length_cons]
  omega

theorem decodeAll_fails (bs : List UInt8) : FailsBy (· = .malformed) (decodeAll bs) := by
  by_cases hbs : bs = []
  · rw [hbs, decodeAll_nil]
    exact .ok []
  · rw [decodeAll_of_ne_nil hbs]
    refine (splitItem_fails bs).bind fun p hsplit => ?_
    have hparts := length_of_splitItem hsplit
    have hfirst := decode_fails p.1
    rw [if_neg (List.ne_nil_of_length_pos hparts.1)] at hfirst
    exact hfirst.bind fun _ _ => (decodeAll_fails p.2).map _
termination_by 2 * bs.length + 1
decreasing_by all_goals omega

end

namespace Schema

mutual

/-- Whether there are values of the type. Variants that cannot be decoded to do not matter, as they
only do not fit. -/
def isProper : Schema → Bool
  | natural | fixedWidth _ | bytes | fixedBytes _ | truth | union _ => true
  | unsized _ | refused _ _ => false
  | tuple parts | tupleRepeating parts => !parts.isEmpty && areProper parts
  | record _ fields => haveProper fields
  | tagged _ form => isProper form

def areProper : List Schema → Bool
  | [] => true
  | s :: ss => isProper s && areProper ss

def haveProper : List (String × Schema) → Bool
  | [] => true
  | (_, s) :: fields => isProper s && haveProper fields

end

mutual

theorem decode_isOfInput {s : Schema} (hs : s.isProper = true) (item : Item) :
    FailsBy DecodeError.IsOfInput (s.decode item) := by
  unfold decode
  split
  · exact .ok _
  · exact .ite (.error trivial) (.ok _)
  · exact .ok _
  · exact .ite (.ok _) (.error trivial)
  · exact .ok _
  · exact .ite (.ok _) (.error trivial)
  · cases hs
  · rw [isProper, Bool.and_eq_true] at hs
    rw [if_neg (by simpa using hs.1)]
    exact (decodeTuple_isOfInput hs.2 _).map _
  · rw [isProper, Bool.and_eq_true] at hs
    rw [if_neg (by simpa using hs.1)]
    exact (decodeRepeating_isOfInput hs.2 _).map _
  · split
    · exact .error trivial
    · exact .ok _
    · exact .error trivial
  · exact .error trivial
  · rw [isProper] at hs
    exact .ite ((decodeFields_isOfInput hs _).map _) (.error trivial)
  · rw [isProper] at hs
    exact decode_isOfInput hs _
  · cases hs
  · exact .error trivial
termination_by sizeOf s

theorem decodeTuple_isOfInput {ss : List Schema} (hs : areProper ss = true) (items : List Item) :
    FailsBy DecodeError.IsOfInput (decodeTuple ss items) := by
  unfold decodeTuple
  split
  · rw [areProper, Bool.and_eq_true] at hs
    exact (decode_isOfInput hs.1 _).bind fun _ _ =>
      (decodeTuple_isOfInput hs.2 _).bind fun _ _ => .ok _
  · exact .ok _
termination_by sizeOf ss

theorem decodeRepeating_isOfInput {ss : List Schema} (hs : areProper ss = true)
    (items : List Item) : FailsBy DecodeError.IsOfInput (decodeRepeating ss items) := by
  unfold decodeRepeating
  split
  · rw [areProper, Bool.and_eq_true] at hs
    exact .mapM (decode_isOfInput hs.1) items
  · rw [areProper, Bool.and_eq_true] at hs
    exact (decode_isOfInput hs.1 _).bind fun _ _ =>
      (decodeRepeating_isOfInput hs.2 _).bind fun _ _ => .ok _
  · exact .ok _
termination_by sizeOf ss

theorem decodeFields_isOfInput {fields : List (String × Schema)} (hs : haveProper fields = true)
    (items : List Item) : FailsBy DecodeError.IsOfInput (decodeFields fields items) := by
  unfold decodeFields
  split
  · rw [haveProper, Bool.and_eq_true] at hs
    exact (decode_isOfInput hs.1 _).bind fun _ _ =>
      (decodeFields_isOfInput hs.2 _).bind fun _ _ => .ok _
  · exact .ok _
termination_by sizeOf fields

end

theorem decodeBytes_isOfInput {s : Schema} (hs : s.isProper = true) (b : Bytes) :
    FailsBy DecodeError.IsOfInput (s.decodeBytes b) := by
  refine FailsBy.bind (fun e he => ?_) fun item _ => decode_isOfInput hs item
  rw [decode_fails _ e he]
  split <;> trivial

end Schema

end Rlp

end ExecutionLayer
