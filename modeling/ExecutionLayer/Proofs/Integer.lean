import ExecutionLayer.Integer.Method
import ExecutionLayer.Proofs.AltBn128.Primality
import ExecutionLayer.Proofs.Rlp.Prefix
import ExecutionLayer.Proofs.Sequence
import Mathlib.Data.Int.Bitwise

/-! # Integers of fixed width

Whatever operators are applied to integers of fixed width and to any operands, the result is the
exact one and fits, or there is none. Only the power of which the integer is the exponent is not
compared with the width.
-/
namespace ExecutionLayer.Integer
variable {bits self : Nat} {op : Operator} {side : Side} {other : Int} {a : Answer}
  {modulus : Option Int}

/-! ## What operators mean -/

def Answer.numbers : Answer → List Int
  | .number i => [i]
  | .pair q r => [q, r]
  | _ => []

def Outcome.numbers : Outcome → List Int
  | .answer a => a.numbers
  | .notDefined => []

/-- The methods of integers of fixed width that give such integers again. -/
def Method.isClosed : Method → Bool
  | .operator .shiftLeft _ | .operator .shiftRight .right => false
  | .operator .and .right | .operator .or .right => false
  | .operator _ _ => true
  | .wrapping op => op = .add || op = .sub || op = .mul
  | .pow | .powReflected | .wrappingPow | .complement => true
  | _ => false

def Operator.meaning (a b : Int) : Operator → List Int
  | .add => [a + b]
  | .sub => [a - b]
  | .mul => [a * b]
  | .floorDiv => [a.fdiv b]
  | .mod => [a.fmod b]
  | .divMod => [a.fdiv b, a.fmod b]
  | .and => [Int.land a b]
  | .or => [Int.lor a b]
  | .xor => [Int.xor a b]
  | .shiftLeft => [a * 2 ^ b.toNat]
  | .shiftRight => [a.fdiv (2 ^ b.toNat)]

def powerOf (base : Int) (exponent : Nat) : List Int → List Int
  | [] => [base ^ exponent]
  | [m] => [base ^ exponent % m]
  | _ => []

/-- The numbers that a method stands for. The bits of a complement are those of the width. -/
def Method.meaning (bits : Nat) (self : Int) : Method → List Int → List Int
  | .operator op .left, [i] => op.meaning self i
  | .operator op .right, [i] => op.meaning i self
  | .pow, e :: modulus => powerOf self e.toNat modulus
  | .powReflected, base :: modulus => powerOf base self.toNat modulus
  | .wrapping op, [i] => (op.meaning self i).map (· % 2 ^ bits)
  | .wrappingPow, e :: modulus => (powerOf self e.toNat modulus).map (· % 2 ^ bits)
  | .complement, [] => [2 ^ bits - 1 - self]
  | _, _ => []

def Fits (bits : Nat) (numbers : List Int) : Prop := ∀ i ∈ numbers, 0 ≤ i ∧ i < 2 ^ bits

/-- The numbers that a method divides by. -/
def Method.divisors (self : Int) : Method → List Int → List Int
  | .operator .floorDiv .left, [i] | .operator .mod .left, [i] | .operator .divMod .left, [i] => [i]
  | .operator .floorDiv .right, _ | .operator .mod .right, _ | .operator .divMod .right, _ => [self]
  | .pow, [_, m] | .powReflected, [_, m] | .wrappingPow, [_, m] => [m]
  | _, _ => []

/-- The operands fit, nothing is divided by zero, and the numbers that the method stands for fit or
are not compared with the width. -/
def Method.IsDefined (bits self : Nat) (m : Method) (operands : List Int) : Prop :=
  Fits bits operands ∧ 0 ∉ m.divisors self operands ∧ m.meaning bits self operands ≠ [] ∧
    (m = .powReflected ∨ Fits bits (m.meaning bits self operands))

theorem bounds_of_isDefined {m : Method} {i : Int} (h : m.IsDefined bits self (i :: modulus.toList))
    (hm : m.divisors self (i :: modulus.toList) = modulus.toList) :
    (0 ≤ i ∧ i < 2 ^ bits) ∧ ∀ k ∈ modulus, 0 < k ∧ k < 2 ^ bits := by
  obtain ⟨hi, hmodulus⟩ := List.forall_mem_cons.mp h.1
  refine ⟨hi, fun k hk => ?_⟩
  obtain ⟨hle, hlt⟩ := hmodulus k (by simpa using hk)
  exact ⟨hle.lt_of_ne fun h0 => h.2.1 (by simpa [hm, h0] using hk), hlt⟩

/-! ## Operators -/

theorem admits_iff {i : Int} : (Kind.fixed bits).admits i = true ↔ 0 ≤ i ∧ i < 2 ^ bits := by
  simp [Kind.admits]

theorem require_ok_iff {c : Bool} {f : Fault} {u : Unit} : require c f = .ok u ↔ c = true := by
  unfold require
  split <;> simp_all

theorem fmap_ok_iff {α β : Type} {x : Except Fault α} {f : α → β} {b : β} :
    f <$> x = .ok b ↔ ∃ a, x = .ok a ∧ f a = b := by
  cases x <;> simp

theorem shiftRight_min (n bits : Nat) : n >>> min bits (bitLength n) = n / 2 ^ bits := by
  rw [Nat.shiftRight_eq_div_pow]
  rcases Nat.le_total bits (bitLength n) with h | h
  · rw [Nat.min_eq_left h]
  · have hlt := lt_two_pow_bitLength n
    rw [Nat.min_eq_right h, Nat.div_eq_of_lt hlt,
      Nat.div_eq_of_lt (hlt.trans_le (Nat.pow_le_pow_right (by decide) h))]

theorem of_exact_ok {x y : Nat} (hop : op ≠ .shiftLeft) (h : exact op x y = .ok a) :
    a.numbers = op.meaning x y := by
  cases op <;> simp only [exact] at h
  case add | sub | mul | and | or | xor =>
    cases h
    rfl
  case floorDiv | mod | divMod =>
    split at h
    · cases h
    · cases h
      rfl
  case shiftLeft => exact absurd rfl hop
  case shiftRight =>
    rw [if_neg (Int.not_lt.mpr (Int.natCast_nonneg y))] at h
    cases h
    have hd : (x : Int).fdiv (2 ^ y) = ((x / 2 ^ y : Nat) : Int) := by
      rw [Int.ofNat_fdiv]
      push_cast
      rfl
    simp only [Answer.numbers, Operator.meaning, Int.toNat_natCast, hd, Int.natAbs_natCast,
      ← shiftRight_min x y]
    rfl

theorem fits_meaning {x y : Nat} (hx : x < 2 ^ bits) (hy : op = .shiftRight ∨ y < 2 ^ bits)
    (hop : op ≠ .add ∧ op ≠ .sub ∧ op ≠ .mul ∧ op ≠ .shiftLeft) :
    Fits bits (op.meaning x y) := by
  have hcast {n : Nat} (h : n < 2 ^ bits) : 0 ≤ (n : Int) ∧ (n : Int) < 2 ^ bits :=
    ⟨Int.natCast_nonneg n, by exact_mod_cast h⟩
  have hdiv (d : Nat) : 0 ≤ (x : Int).fdiv d ∧ (x : Int).fdiv d < 2 ^ bits := by
    rw [← Int.ofNat_fdiv]
    exact hcast ((Nat.div_le_self x d).trans_lt hx)
  have hmod : 0 ≤ (x : Int).fmod y ∧ (x : Int).fmod y < 2 ^ bits := by
    rw [← Int.ofNat_fmod]
    exact hcast ((Nat.mod_le x y).trans_lt hx)
  cases op
  case add | sub | mul | shiftLeft => simp at hop
  case floorDiv => exact List.forall_mem_singleton.mpr (hdiv y)
  case mod => exact List.forall_mem_singleton.mpr hmod
  case divMod => exact List.forall_mem_cons.mpr ⟨hdiv y, List.forall_mem_singleton.mpr hmod⟩
  case and =>
    exact List.forall_mem_singleton.mpr (hcast (Nat.and_lt_two_pow x (hy.resolve_left (by decide))))
  case or =>
    exact List.forall_mem_singleton.mpr (hcast (Nat.or_lt_two_pow hx (hy.resolve_left (by decide))))
  case xor =>
    exact List.forall_mem_singleton.mpr (hcast (Nat.xor_lt_two_pow hx (hy.resolve_left (by decide))))
  case shiftRight =>
    refine List.forall_mem_singleton.mpr ?_
    have := hdiv (2 ^ y)
    push_cast at this
    exact this

theorem of_apply_ok (hop : (Method.operator op side).isClosed)
    (h : apply (.fixed bits) op side self other = .ok a) :
    0 ≤ other ∧ (op = .add ∨ op = .mul ∨ op = .shiftRight ∨ other < 2 ^ bits) ∧
      (exact op (if side = .left then (self : Int) else other)
        (if side = .left then other else (self : Int))) = .ok a ∧
      (op = .add ∨ op = .sub ∨ op = .mul → Fits bits a.numbers) := by
  unfold apply at h
  cases op <;> cases side <;>
    simp [Operator.checks, Operator.boundsResult, except_ok_iff, require_ok_iff, exact,
      Method.isClosed, fmap_ok_iff] at h hop ⊢
  case add.left | add.right | mul.left | mul.right =>
    obtain ⟨hother, hfits, rfl⟩ := h
    exact ⟨hother, rfl, List.forall_mem_singleton.mpr (admits_iff.mp hfits)⟩
  case sub.left | sub.right =>
    obtain ⟨hother, hlt, hfits, rfl⟩ := h
    exact ⟨hother, (admits_iff.mp hlt).2, rfl, List.forall_mem_singleton.mpr (admits_iff.mp hfits)⟩
  case shiftRight.left =>
    refine ⟨?_, h⟩
    split at h
    · cases h
    · exact Int.not_lt.mp ‹_›
  all_goals exact ⟨h.1, (admits_iff.mp h.2.1).2, h.2.2⟩

theorem of_operator_ok (hself : self < 2 ^ bits) (hop : (Method.operator op side).isClosed)
    (h : apply (.fixed bits) op side self other = .ok a) :
    a.numbers = Method.meaning bits self (.operator op side) [other] ∧ Fits bits a.numbers := by
  obtain ⟨hother, hlt, hexact, hfits⟩ := of_apply_ok hop h
  obtain ⟨n, rfl⟩ := Int.eq_ofNat_of_zero_le hother
  have hne : op ≠ .shiftLeft := by
    rintro rfl
    cases hop
  have hmeaning : a.numbers = Method.meaning bits self (.operator op side) [n] := by
    cases side <;> exact of_exact_ok hne hexact
  refine ⟨hmeaning, ?_⟩
  by_cases hop' : op = .add ∨ op = .sub ∨ op = .mul
  · exact hfits hop'
  · have hne' : op ≠ .add ∧ op ≠ .sub ∧ op ≠ .mul ∧ op ≠ .shiftLeft := by grind
    have hlt : op = .shiftRight ∨ n < 2 ^ bits := by
      have : (n : Int) < 2 ^ bits → n < 2 ^ bits := fun h => by exact_mod_cast h
      grind
    rw [hmeaning]
    cases side
    · exact fits_meaning hself hlt hne'
    · refine fits_meaning (hlt.resolve_left ?_) (.inr hself) hne'
      rintro rfl
      cases hop

theorem apply_succeeds (hop : (Method.operator op side).isClosed)
    (h : (Method.operator op side).IsDefined bits self [other]) :
    ∃ a, apply (.fixed bits) op side self other = .ok a := by
  obtain ⟨hother, hzero, -, hfits⟩ := h
  have hother := List.forall_mem_singleton.mp hother
  unfold apply
  cases op <;> cases side <;>
    simp [Operator.checks, Operator.boundsResult, except_ok_iff, require_ok_iff, exact,
      Method.isClosed, fmap_ok_iff, hother, Method.divisors, Method.meaning, Operator.meaning, Fits,
      admits_iff] at hop hfits hzero ⊢
  case shiftRight.left => exact ⟨_, if_neg (Int.not_lt.mpr hother.1)⟩
  case floorDiv.left | mod.left | divMod.left => exact ⟨_, if_neg (Ne.symm hzero)⟩
  case floorDiv.right | mod.right | divMod.right => exact ⟨_, if_neg fun h => hzero (by simp [h])⟩
  all_goals exact hfits

/-! ## Powers and wrapping operators -/

theorem of_power_ok {base r : Nat} {exponent : Int} (hm : ∀ m ∈ modulus, 0 ≤ m)
    (h : power base exponent modulus = .ok r) :
    0 ≤ exponent ∧ powerOf base exponent.toNat modulus.toList = [(r : Int)] ∧
      ∀ m ∈ modulus, (r : Int) < m := by
  unfold power at h
  cases modulus with
  | none =>
    by_cases hneg : exponent < 0
    · simp only [hneg, if_true, except_ok_iff] at h
      obtain ⟨_, _, _, _, _, h, _⟩ := h
      cases h
    · simp only [hneg, if_false] at h
      cases h
      simp [powerOf, natPow_eq, Int.not_lt.mp hneg]
  | some m =>
    obtain ⟨n, rfl⟩ := Int.eq_ofNat_of_zero_le (hm m rfl)
    obtain ⟨_, hn, h⟩ := of_except_ok h
    have hpos : 0 < n := by
      have := require_ok_iff.mp hn
      simp at this
      omega
    by_cases hneg : exponent < 0
    · simp only [hneg, if_true, except_ok_iff] at h
      obtain ⟨_, _, _, h, _⟩ := h
      cases h
    · simp only [hneg, if_false] at h
      cases h
      have hlt := powMod_lt hpos base exponent.toNat
      simp only [Int.toNat_natCast, powMod_eq hpos, Option.mem_some, Option.toList_some,
        powerOf] at hlt ⊢
      refine ⟨Int.not_lt.mp hneg, by push_cast; rfl, ?_⟩
      rintro _ rfl
      exact_mod_cast hlt

theorem power_succeeds (base : Int) {exponent : Int} (he : 0 ≤ exponent) (hm : ∀ m ∈ modulus, 0 < m) :
    ∃ r, power base exponent modulus = .ok r := by
  have he := Int.not_lt.mpr he
  unfold power
  cases modulus with
  | none => exact ⟨_, if_neg he⟩
  | some m =>
    have hne := decide_eq_true (hm m rfl).ne'
    exact ⟨_, except_ok_iff.mpr ⟨(), require_ok_iff.mpr hne, if_neg he⟩⟩

theorem of_pow_ok {exponent : Int} (h : pow (.fixed bits) self exponent modulus = .ok a) :
    a.numbers = powerOf self exponent.toNat modulus.toList ∧ Fits bits a.numbers := by
  suffices hp : (∀ m ∈ modulus, 0 ≤ m) ∧ ∃ r : Nat, power self exponent modulus = .ok r ∧
      (Kind.fixed bits).admits r = true ∧ Answer.number r = a by
    obtain ⟨hm, r, hr, hfits, rfl⟩ := hp
    exact ⟨(of_power_ok hm hr).2.1.symm, List.forall_mem_singleton.mpr (admits_iff.mp hfits)⟩
  unfold pow at h
  cases modulus with
  | none =>
    dsimp only at h
    split at h
    · cases h
    split at h
    · cases h
    obtain ⟨r, hr, h⟩ := of_except_ok h
    simp only [except_ok_iff, require_ok_iff, Bool.and_eq_true] at h
    obtain ⟨_, ⟨_, hfits⟩, ha⟩ := h
    cases ha
    exact ⟨by simp, r, hr, hfits, rfl⟩
  | some m =>
    simp [except_ok_iff, require_ok_iff, fmap_ok_iff] at h
    obtain ⟨hm, r, hr, ⟨-, hfits⟩, rfl⟩ := h
    exact ⟨by simpa using (admits_iff.mp hm).1, r, hr, hfits, rfl⟩

theorem pow_succeeds {exponent : Int}
    (h : Method.pow.IsDefined bits self (exponent :: modulus.toList)) :
    ∃ a, pow (.fixed bits) self exponent modulus = .ok a := by
  obtain ⟨he, hm⟩ := bounds_of_isDefined h (by cases modulus <;> rfl)
  obtain ⟨r, hr⟩ := power_succeeds self he.1 fun m h => (hm m h).1
  have hfits : Fits bits (powerOf self exponent.toNat modulus.toList) :=
    h.2.2.2.resolve_left (by simp)
  have hlt := hfits r (by simp [(of_power_ok (fun m h => (hm m h).1.le) hr).2.1])
  unfold pow
  cases modulus with
  | none =>
    -- An exponent as great as the width takes any base above one out of it.
    have hsmall : ¬(2 ≤ self ∧ (bits : Int) ≤ exponent) := by
      rintro ⟨hself, hbits⟩
      have hle : 2 ^ bits ≤ self ^ exponent.toNat :=
        (Nat.pow_le_pow_left hself bits).trans (Nat.pow_le_pow_right (by omega) (by omega))
      exact absurd (List.forall_mem_singleton.mp hfits).2 (Int.not_lt.mpr (by exact_mod_cast hle))
    dsimp only
    rw [if_neg (by simpa using hsmall), admits_iff.mpr he, if_neg (by simp)]
    exact ⟨_, except_ok_iff.mpr ⟨r, hr, by rw [admits_iff.mpr hlt]; rfl⟩⟩
  | some m => simp_all [except_ok_iff, require_ok_iff, fmap_ok_iff, admits_iff, le_of_lt]

theorem of_powReflected_ok {base : Int}
    (h : powReflected (.fixed bits) self base modulus = .ok a) :
    a.numbers = powerOf base self modulus.toList ∧ 0 ≤ base ∧
      (Fits bits a.numbers ∨ modulus = none) := by
  suffices hp : (∀ m ∈ modulus, 0 ≤ m ∧ m < 2 ^ bits) ∧ 0 ≤ base ∧
      ∃ r : Nat, power base self modulus = .ok r ∧ Answer.number r = a by
    obtain ⟨hm, hbase, r, hr, rfl⟩ := hp
    obtain ⟨b, rfl⟩ := Int.eq_ofNat_of_zero_le hbase
    obtain ⟨-, hnumbers, hlt⟩ := of_power_ok (fun m h => (hm m h).1) hr
    refine ⟨hnumbers.symm, hbase, ?_⟩
    cases modulus with
    | none => exact .inr rfl
    | some m =>
      exact .inl (List.forall_mem_singleton.mpr
        ⟨Int.natCast_nonneg r, (hlt m rfl).trans (hm m rfl).2⟩)
  unfold powReflected at h
  cases modulus <;> simp [except_ok_iff, require_ok_iff, fmap_ok_iff, admits_iff] at h ⊢ <;> grind

theorem powReflected_succeeds {base : Int}
    (h : Method.powReflected.IsDefined bits self (base :: modulus.toList)) :
    ∃ a, powReflected (.fixed bits) self base modulus = .ok a := by
  obtain ⟨hb, hm⟩ := bounds_of_isDefined h (by cases modulus <;> rfl)
  obtain ⟨r, hr⟩ := power_succeeds base (Int.natCast_nonneg self) fun m h => (hm m h).1
  unfold powReflected
  cases modulus <;> simp_all [except_ok_iff, require_ok_iff, admits_iff, le_of_lt]

theorem of_wrappingPow_ok {exponent : Int} (h : wrappingPow bits self exponent modulus = .ok a) :
    a.numbers = (powerOf self exponent.toNat modulus.toList).map (· % 2 ^ bits) := by
  unfold wrappingPow at h
  cases modulus with
  | none =>
    simp [require_ok_iff, fmap_ok_iff] at h
    obtain ⟨-, rfl⟩ := h
    simp [powerOf, powMod_eq, Answer.numbers]
  | some m =>
    simp [except_ok_iff, require_ok_iff, fmap_ok_iff] at h
    obtain ⟨hm, -, r, hr, rfl⟩ := h
    rw [(of_power_ok (by simpa using (admits_iff.mp hm).1) hr).2.1]
    rfl

theorem wrappingPow_succeeds {exponent : Int}
    (h : Method.wrappingPow.IsDefined bits self (exponent :: modulus.toList)) :
    ∃ a, wrappingPow bits self exponent modulus = .ok a := by
  obtain ⟨he, hm⟩ := bounds_of_isDefined h (by cases modulus <;> rfl)
  obtain ⟨r, hr⟩ := power_succeeds self he.1 fun m h => (hm m h).1
  unfold wrappingPow
  cases modulus <;> simp_all [except_ok_iff, require_ok_iff, fmap_ok_iff, admits_iff, le_of_lt]

theorem of_wrapping_ok (hop : (Method.wrapping op).isClosed)
    (h : wrapping bits op self other = .ok a) :
    a.numbers = (op.meaning self other).map (· % 2 ^ bits) := by
  unfold wrapping at h
  obtain ⟨_, _, h⟩ := of_except_ok h
  cases op <;> simp [Method.isClosed] at hop <;> cases h <;> rfl

theorem wrapping_succeeds (hop : (Method.wrapping op).isClosed)
    (h : (Method.wrapping op).IsDefined bits self [other]) :
    ∃ a, wrapping bits op self other = .ok a := by
  unfold wrapping
  rw [admits_iff.mpr (h.1 other (by simp))]
  cases op <;> simp [Method.isClosed] at hop <;> exact ⟨_, rfl⟩

theorem fits_wrapped (numbers : List Int) : Fits bits (numbers.map (· % 2 ^ bits)) := by
  have hpos : (0 : Int) < 2 ^ bits := Int.pow_pos (by decide)
  intro i hi
  obtain ⟨j, _, rfl⟩ := List.mem_map.mp hi
  exact ⟨Int.emod_nonneg j hpos.ne', Int.emod_lt_of_pos j hpos⟩

/-! ## All methods -/

/-- The powers that are not compared with the width. -/
def Method.overflows (bits self : Nat) (m : Method) (operands : List Int) : Prop :=
  m = .powReflected ∧ ∃ base, operands = [base] ∧ 2 ^ bits ≤ base ^ self

theorem answers_of {x : Except Fault Answer} {P : Answer → Prop} {D : Prop}
    (h : ∀ a, x = .ok a → P a) (hd : D → ∃ a, x = .ok a) :
    (∃ fault, (return .answer (← x) : Except Fault Outcome) = .error fault ∧ ¬D) ∨
      ∃ a, (return .answer (← x) : Except Fault Outcome) = .ok (.answer a) ∧ P a := by
  cases x with
  | error fault => exact .inl ⟨fault, rfl, fun h => by cases (hd h).choose_spec⟩
  | ok a => exact .inr ⟨a, rfl, h a rfl⟩

theorem applyMethod_answers (hself : self < 2 ^ bits) {m : Method} (hm : m.isClosed)
    (operands : List Int) :
    (∃ fault, applyMethod (.fixed bits) m self (operands.map .integer) = .error fault ∧
        ¬ m.IsDefined bits self operands) ∨
      ∃ a, applyMethod (.fixed bits) m self (operands.map .integer) = .ok (.answer a) ∧
        a.numbers = m.meaning bits self operands ∧
          (Fits bits a.numbers ∨ m.overflows bits self operands) := by
  have hwrap {a : Answer} {numbers : List Int} (h : a.numbers = numbers.map (· % 2 ^ bits)) :
      Fits bits a.numbers := h ▸ fits_wrapped numbers
  cases m with
  | operator op side =>
    match operands with
    | [_] =>
      exact answers_of (fun a h => (of_operator_ok hself hm h).imp_right .inl) (apply_succeeds hm)
    | [] | _ :: _ :: _ => exact .inl ⟨_, rfl, fun h => h.2.2.1 (by cases side <;> rfl)⟩
  | wrapping op =>
    match operands with
    | [_] =>
      exact answers_of (fun a h => ⟨of_wrapping_ok hm h, .inl (hwrap (of_wrapping_ok hm h))⟩)
        (wrapping_succeeds hm)
    | [] | _ :: _ :: _ => exact .inl ⟨_, rfl, fun h => h.2.2.1 rfl⟩
  | pow =>
    match operands with
    | [_] | [_, _] =>
      exact answers_of (fun a h => (of_pow_ok h).imp_right .inl) fun h => pow_succeeds h
    | [] | _ :: _ :: _ :: _ => exact .inl ⟨_, rfl, fun h => h.2.2.1 rfl⟩
  | wrappingPow =>
    match operands with
    | [_] | [_, _] =>
      exact answers_of (fun a h => ⟨of_wrappingPow_ok h, .inl (hwrap (of_wrappingPow_ok h))⟩)
        fun h => wrappingPow_succeeds h
    | [] | _ :: _ :: _ :: _ => exact .inl ⟨_, rfl, fun h => h.2.2.1 rfl⟩
  | powReflected =>
    match operands with
    | [base] =>
      refine answers_of (fun a h => ?_) fun h => powReflected_succeeds h
      obtain ⟨hnumbers, hbase, -⟩ := of_powReflected_ok h
      refine ⟨hnumbers, (lt_or_ge (base ^ self) (2 ^ bits)).imp (fun hlt => ?_) fun hge => ?_⟩
      · rw [hnumbers]
        exact List.forall_mem_singleton.mpr ⟨Int.pow_nonneg hbase, hlt⟩
      · exact ⟨rfl, base, rfl, hge⟩
    | [_, _] =>
      refine answers_of (fun a h => ?_) fun h => powReflected_succeeds h
      obtain ⟨hnumbers, -, hfits⟩ := of_powReflected_ok h
      exact ⟨hnumbers, .inl (hfits.resolve_right (by simp))⟩
    | [] | _ :: _ :: _ :: _ => exact .inl ⟨_, rfl, fun h => h.2.2.1 rfl⟩
  | complement =>
    match operands with
    | [] =>
      have hnumber : complement (.fixed bits) self = 2 ^ bits - 1 - self := by simp [complement]
      have hlt : (self : Int) < 2 ^ bits := by exact_mod_cast hself
      exact .inr ⟨_, rfl, congrArg ([·]) hnumber, .inl (List.forall_mem_singleton.mpr (by omega))⟩
    | _ :: _ => exact .inl ⟨_, rfl, fun h => h.2.2.1 rfl⟩
  | _ => cases hm

/-- The integers that come out of methods one after the other. -/
inductive Derived (bits : Nat) : Nat → Prop
  | make {i : Int} {n : Nat} (h : (Kind.fixed bits).make i = .ok n) : Derived bits n
  | step {n v : Nat} {m : Method} {operands : List Int} {outcome : Outcome} (hn : Derived bits n)
      (hm : m.isClosed) (hoperands : ¬ m.overflows bits n operands)
      (h : applyMethod (.fixed bits) m n (operands.map .integer) = .ok outcome)
      (hv : (v : Int) ∈ outcome.numbers) : Derived bits v

theorem Derived.lt {n : Nat} (hn : Derived bits n) : n < 2 ^ bits := by
  induction hn with
  | @make i n h =>
    unfold Kind.make at h
    split at h
    · cases h
      have := admits_iff.mp ‹_›
      zify
      omega
    · cases h
  | @step n v m operands outcome _ hm hoperands h hv ih =>
    rcases applyMethod_answers ih hm operands with ⟨fault, herror, -⟩ | ⟨a, ha, -, hfits⟩
    · cases herror.symm.trans h
    · cases ha.symm.trans h
      exact_mod_cast ((hfits.resolve_right hoperands) v hv).2

/-- Whatever methods are applied to integers of fixed width one after the other, each integer fits,
and each further method gives its exact numbers, unless an operand or a number does not fit or there
is a division by zero. The numbers fit, except for a power without modulus of which the integer is
the exponent. That power is given exactly for every base that fits, whether it fits itself or not. -/
theorem derived_exact {n : Nat} (hn : Derived bits n) {m : Method} (hm : m.isClosed)
    (operands : List Int) :
    n < 2 ^ bits ∧
      ((∃ fault, applyMethod (.fixed bits) m n (operands.map .integer) = .error fault ∧
          ¬ m.IsDefined bits n operands) ∨
        ∃ a, applyMethod (.fixed bits) m n (operands.map .integer) = .ok (.answer a) ∧
          a.numbers = m.meaning bits n operands ∧
            (Fits bits a.numbers ∨ m.overflows bits n operands)) ∧
      ∀ base : Int, 0 ≤ base → base < 2 ^ bits →
        applyMethod (.fixed bits) .powReflected n [.integer base] =
          .ok (.answer (.number (base ^ n))) := by
  refine ⟨hn.lt, applyMethod_answers hn.lt hm operands, fun base hbase hlt => ?_⟩
  obtain ⟨a, ha⟩ : ∃ a, powReflected (.fixed bits) n base none = .ok a :=
    powReflected_succeeds ⟨List.forall_mem_singleton.mpr ⟨hbase, hlt⟩, List.not_mem_nil,
      List.cons_ne_nil _ _, .inl rfl⟩
  have hnumbers := (of_powReflected_ok ha).1
  cases a <;> cases hnumbers
  rw [applyMethod, ha]
  rfl

theorem derived_exact_difference :
    Derived 32 4294967294 ∧ (Method.operator .add .left).isClosed = true ∧
      ∃ a, applyMethod (.fixed 32) (.operator .add .left) 4294967294 [.integer 1] =
          .ok (.answer a) ∧ a.numbers = [4294967295] ∧ Fits 32 a.numbers := by
  have hderived : Derived 32 4294967294 :=
    @Derived.step 32 7 4294967294 (.wrapping .sub) [9] _ (.make (i := 7) rfl) rfl
      (fun h => by cases h.1) rfl (by decide)
  rcases derived_exact hderived (m := .operator .add .left) rfl [1] with
    ⟨-, ⟨fault, herror, -⟩ | ⟨a, ha, hnumbers, hfits⟩, -⟩
  · cases herror
  · exact ⟨hderived, rfl, a, ha, hnumbers, hfits.resolve_right fun h => by cases h.1⟩

theorem power_not_compared :
    run (.fixed 256) .powReflected [.integer 256, .integer 2] =
      .ok (.answer (.number (2 ^ 256))) := rfl

end ExecutionLayer.Integer
