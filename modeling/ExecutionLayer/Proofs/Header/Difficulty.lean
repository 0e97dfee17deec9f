import ExecutionLayer.Header.Difficulty
import ExecutionLayer.Proofs.Sequence
import Mathlib.Tactic.Linarith

/-! # How the difficulty moves

In every fork the difficulty moves by a multiple of the 2048th part of the parent's, between two of
them up and ninety-nine down, and the later the block the smaller the multiple. The minimum bounds
the sum with the term that doubles from below.
-/
namespace ExecutionLayer.Difficulty
variable {fork : Fork} {time parentTime : Word}

/-- How many parts the difficulty moves by in so much time. -/
def factor (fork : Fork) (elapsed : Nat) (parentHasOmmers : Bool) : Int :=
  if fork < Fork.homestead then if elapsed < 13 then 1 else -1
  else if fork < Fork.byzantium then max (1 - (elapsed / 10 : Nat)) (-99)
  else max ((if parentHasOmmers then 2 else 1) - (elapsed / 9 : Nat)) (-99)

theorem factor_mem (fork : Fork) (elapsed : Nat) (ommers : Bool) :
    -99 ≤ factor fork elapsed ommers ∧ factor fork elapsed ommers ≤ 2 := by
  unfold factor
  split_ifs <;> omega

theorem factor_anti (fork : Fork) (ommers : Bool) {elapsed elapsed' : Nat} (h : elapsed ≤ elapsed') :
    factor fork elapsed' ommers ≤ factor fork elapsed ommers := by
  have hten : elapsed / 10 ≤ elapsed' / 10 := Nat.div_le_div_right h
  have hnine : elapsed / 9 ≤ elapsed' / 9 := Nat.div_le_div_right h
  unfold factor
  split_ifs <;> omega

/-- The difficulty of a block, given how much its time moves it. -/
def level (fork : Fork) (number d : Nat) (factor : Int) : Nat :=
  (max (d + (d / 2048 : Nat) * factor + growth fork number) minimum).toNat

theorem minimum_le_level (fork : Fork) (number d : Nat) (factor : Int) :
    minimum ≤ level fork number d factor := by
  unfold level
  omega

theorem level_mono {factor factor' : Int} (fork : Fork) (number d : Nat) (h : factor ≤ factor') :
    level fork number d factor ≤ level fork number d factor' := by
  have hmul : ((d / 2048 : Nat) : Int) * factor ≤ (d / 2048 : Nat) * factor' :=
    mul_le_mul_of_nonneg_left h (Int.natCast_nonneg _)
  unfold level
  omega

theorem growth_eq_zero {number : Nat} (h : number < delay fork + 200000) : growth fork number = 0 := by
  have hperiods : ¬0 ≤ ((number : Int) - delay fork).fdiv 100000 - 2 := by
    rw [Int.fdiv_eq_ediv_of_nonneg _ (by decide)]
    omega
  exact if_neg hperiods

theorem level_near {number d : Nat} {factor : Int} (hn : number < delay fork + 200000)
    (hfactor : -99 ≤ factor ∧ factor ≤ 2) : level fork number d factor = minimum ∨
      d ≤ level fork number d factor + 99 * (d / 2048) ∧
        level fork number d factor ≤ d + 2 * (d / 2048) := by
  have hlow : ((d / 2048 : Nat) : Int) * -99 ≤ (d / 2048 : Nat) * factor :=
    mul_le_mul_of_nonneg_left hfactor.1 (Int.natCast_nonneg _)
  have hhigh : ((d / 2048 : Nat) : Int) * factor ≤ (d / 2048 : Nat) * 2 :=
    mul_le_mul_of_nonneg_left hfactor.2 (Int.natCast_nonneg _)
  unfold level
  rw [growth_eq_zero hn]
  omega

theorem byThreshold_eq (d : Nat) (ht : parentTime.toNat < time.toNat)
    (hlimit : parentTime.toNat + 13 < Word.limit) :
    (byThreshold time parentTime d).map Int.ofNat = .ok (d + (d / 2048 : Nat) *
      (if time.toNat - parentTime.toNat < 13 then 1 else -1)) := by
  unfold byThreshold
  dsimp only
  rw [if_neg (Nat.not_le.mpr hlimit)]
  split_ifs with hshort hlong hlong
  · exact congrArg Except.ok (by rw [Int.ofNat_eq_natCast]; omega)
  · omega
  · omega
  · exact congrArg Except.ok (by rw [Int.ofNat_eq_natCast]; omega)

theorem adjusted_eq (d : Nat) (ommers : Bool) (ht : parentTime.toNat < time.toNat)
    (hf : fork = .frontier → parentTime.toNat + 13 < Word.limit) :
    adjusted fork time parentTime d ommers =
      .ok (d + (d / 2048 : Nat) * factor fork (time.toNat - parentTime.toNat) ommers) := by
  have horder : ¬time.toNat < parentTime.toNat := Nat.not_lt.mpr ht.le
  unfold adjusted factor
  by_cases hearly : fork < Fork.homestead
  · have hfrontier : fork = .frontier := by
      cases fork <;> first | rfl | exact absurd hearly (by decide)
    rw [if_pos hearly, if_pos hearly]
    exact byThreshold_eq d ht (hf hfrontier)
  · rw [if_neg hearly, if_neg hearly]
    by_cases hnear : fork < Fork.byzantium
    · rw [if_pos hnear, if_pos hnear]
      exact if_neg horder
    · rw [if_neg hnear, if_neg hnear]
      exact if_neg horder

theorem expected_eq (number d : Nat) (ommers : Bool) (ht : parentTime.toNat < time.toNat)
    (hf : fork = .frontier → parentTime.toNat + 13 < Word.limit) :
    expected fork number time parentTime d ommers =
      .ok (level fork number d (factor fork (time.toNat - parentTime.toNat) ommers)) :=
  except_of_ok (adjusted_eq d ommers ht hf) _

theorem minimum_le_of_expected {number d n : Nat} {ommers : Bool}
    (h : expected fork number time parentTime d ommers = .ok n) : minimum ≤ n := by
  obtain ⟨i, -, h⟩ := of_except_ok h
  have hn : (max (i + growth fork number) minimum).toNat = n := Except.ok.inj h
  omega

end ExecutionLayer.Difficulty
