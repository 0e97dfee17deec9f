import ExecutionLayer.Header.Fee
import Mathlib.Order.Monotone.Basic

/-! # How the base fee moves

The base fee moves by the part of it that corresponds to the distance of the gas used from half the
limit, divided by eight: below this target it loses at most an eighth, above it gains at least one.
A gas limit that is near enough to a parent's is only possible if the target is not zero.
-/
namespace ExecutionLayer.Fee
variable {parentLimit limit : Nat}

def change (fee target distance : Nat) : Nat := fee * distance / target / 8

def following (fee target used : Nat) : Nat :=
  if target < used then fee + max (change fee target (used - target)) 1
  else fee - change fee target (target - used)

section Change
variable {fee target distance distance' used used' : Nat}

theorem change_mono (h : distance ≤ distance') :
    change fee target distance ≤ change fee target distance' :=
  Nat.div_le_div_right (Nat.div_le_div_right (Nat.mul_le_mul_left fee h))

theorem change_le (h : distance ≤ target) : change fee target distance ≤ fee / 8 := by
  refine Nat.div_le_div_right (Nat.div_le_of_le_mul ?_)
  rw [Nat.mul_comm target fee]
  exact Nat.mul_le_mul_left fee h

/-- Since an odd limit is rounded down, the use may exceed the target by one more than the target. -/
theorem change_le_of_succ (h : distance ≤ target + 1) :
    change fee target distance ≤ fee * (target + 1) / (8 * target) := by
  have hone : change fee target (target + 1) = fee * (target + 1) / (8 * target) := by
    rw [change, Nat.div_div_eq_div_mul, Nat.mul_comm target 8]
  exact hone ▸ change_mono h

theorem following_of_lt (h : target < used) :
    following fee target used = fee + max (change fee target (used - target)) 1 := if_pos h

theorem following_of_le (h : used ≤ target) :
    following fee target used = fee - change fee target (target - used) :=
  if_neg (Nat.not_lt.mpr h)

theorem following_target (fee target : Nat) : following fee target target = fee := by
  rw [following_of_le le_rfl, Nat.sub_self, change, Nat.mul_zero, Nat.zero_div, Nat.zero_div,
    Nat.sub_zero]

theorem following_le (h : used ≤ target) : following fee target used ≤ fee := by
  rw [following_of_le h]
  exact Nat.sub_le _ _

theorem le_following (h : used ≤ target) : fee - fee / 8 ≤ following fee target used := by
  rw [following_of_le h]
  exact Nat.sub_le_sub_left (change_le (Nat.sub_le _ _)) fee

theorem lt_following (h : target < used) : fee < following fee target used := by
  rw [following_of_lt h]
  omega

theorem following_mono (fee target : Nat) : Monotone (following fee target) := by
  intro used used' h
  rcases Nat.lt_or_ge target used' with hafter | hafter
  · rcases Nat.lt_or_ge target used with hbefore | hbefore
    · rw [following_of_lt hbefore, following_of_lt hafter]
      have hle : change fee target (used - target) ≤ change fee target (used' - target) :=
        change_mono (Nat.sub_le_sub_right h target)
      omega
    · exact (following_le hbefore).trans (lt_following hafter).le
  · rw [following_of_le (h.trans hafter), following_of_le hafter]
    exact Nat.sub_le_sub_left (change_mono (Nat.sub_le_sub_left h target)) fee

end Change

theorem share_of_pos {target : Nat} (ht : 0 < target) (fee distance : Nat) :
    share fee distance target = .ok (change fee target distance) := if_neg ht.ne'

theorem next_eq (h : 2 ≤ parentLimit) (used fee : Nat) :
    next parentLimit used fee = .ok (following fee (parentLimit / 2) used) := by
  have ht : 0 < parentLimit / 2 := by omega
  unfold next
  dsimp only
  split
  · next heq =>
    rw [heq, following_target]
    rfl
  · split
    · next hlt =>
      rw [share_of_pos ht, following_of_lt hlt]
      rfl
    · next hne hge =>
      have hle : change fee (parentLimit / 2) (parentLimit / 2 - used) ≤ fee :=
        (change_le (Nat.sub_le _ _)).trans (Nat.div_le_self fee 8)
      rw [share_of_pos ht, following_of_le (Nat.not_lt.mp hge)]
      exact if_neg (Nat.not_lt.mpr hle)

theorem two_le_of_gasLimitOk (h : gasLimitOk limit parentLimit = true) : 2 ≤ parentLimit := by
  simp only [gasLimitOk, Bool.and_eq_true, decide_eq_true_eq] at h
  omega

theorem expected_of_ok (h : gasLimitOk limit parentLimit = true) (used fee : Nat) :
    expected limit parentLimit used fee false = .ok (following fee (parentLimit / 2) used) := by
  unfold expected Rejection.check
  rw [h, next_eq (two_le_of_gasLimitOk h)]
  rfl

theorem expected_of_not_ok (h : gasLimitOk limit parentLimit = false)
    (used fee : Nat) : expected limit parentLimit used fee false = .error .invalidBlock := by
  unfold expected Rejection.check
  rw [h]
  rfl

/-- A gas limit is refused exactly if it is too far from the parent's or too low. If it is not refused,
there is a base fee, whatever the parent has used. More use never makes it smaller. At the target it
stays, below it loses at most an eighth, so that it does not vanish, and above it gains at least one
and, for a parent within its limit, at most the part that corresponds to the whole of the limit. -/
theorem base_fee_follows_use (limit parentLimit used fee : Nat) :
    (expected limit parentLimit used fee false = .error .invalidBlock ↔
      limit < 5000 ∨ limit ≤ parentLimit - parentLimit / 1024 ∨
        parentLimit + parentLimit / 1024 ≤ limit) ∧
    (expected limit parentLimit used fee false ≠ .error .invalidBlock →
      ∃ fee', expected limit parentLimit used fee false = .ok fee' ∧
        (∀ more, used ≤ more → ∃ fee'', expected limit parentLimit more fee false = .ok fee'' ∧
          fee' ≤ fee'') ∧
        (used = parentLimit / 2 → fee' = fee) ∧
        (used < parentLimit / 2 → fee - fee / 8 ≤ fee' ∧ fee' ≤ fee) ∧
        (0 < fee → 0 < fee') ∧
        (parentLimit / 2 < used → fee + 1 ≤ fee' ∧ (used ≤ parentLimit →
          fee' ≤ fee + max 1 (fee * (parentLimit / 2 + 1) / (8 * (parentLimit / 2)))))) := by
  cases hok : gasLimitOk limit parentLimit with
  | false =>
    have hrefused := expected_of_not_ok hok used fee
    refine ⟨⟨fun _ => ?_, fun _ => hrefused⟩, fun h => absurd hrefused h⟩
    simp only [gasLimitOk, Bool.and_eq_false_iff, decide_eq_false_iff_not] at hok
    omega
  | true =>
    have hfee := expected_of_ok hok used fee
    refine ⟨?_, fun _ => ⟨_, hfee, fun more hm => ⟨_, expected_of_ok hok more fee,
      following_mono _ _ hm⟩, ?_, fun h => ⟨le_following h.le, following_le h.le⟩, fun hpos => ?_,
      fun h => ⟨lt_following h, fun hl => ?_⟩⟩⟩
    · simp only [gasLimitOk, Bool.and_eq_true, decide_eq_true_eq] at hok
      rw [hfee]
      exact ⟨nofun, fun h => by omega⟩
    · rintro rfl
      exact following_target _ _
    · rcases Nat.lt_or_ge (parentLimit / 2) used with h | h
      · exact hpos.trans (lt_following h)
      · exact Nat.lt_of_lt_of_le (by omega) (le_following h)
    · rw [following_of_lt h]
      have hle : change fee (parentLimit / 2) (used - parentLimit / 2) ≤
          fee * (parentLimit / 2 + 1) / (8 * (parentLimit / 2)) := change_le_of_succ (by omega)
      omega

/-- After a full block with an odd limit the fee grows by a little more than an eighth. -/
theorem base_fee_follows_use_full :
    expected 5001 5001 5001 1000000000 false = .ok 1125050000 ∧
      1125050000 ≤ 1000000000 + max 1 (1000000000 * (2500 + 1) / (8 * 2500)) := by
  obtain ⟨-, h⟩ := base_fee_follows_use 5001 5001 5001 1000000000
  have hok : expected 5001 5001 5001 1000000000 false = .ok 1125050000 := by decide
  obtain ⟨fee', hfee, -, -, -, -, habove⟩ := h (by rw [hok]; nofun)
  cases hok.symm.trans hfee
  exact ⟨hok, (habove (by decide)).2 (by decide)⟩

end ExecutionLayer.Fee
