import ExecutionLayer.Proofs.Evm.Memory
import ExecutionLayer.Proofs.Evm.Quiet
import Mathlib.Data.List.Perm.Basic

/-! # The growth of memory

What is paid for memory depends only on its size before and after, not on the way that leads from one
to the other. So it is the same whether room for ranges is made at once or by one instruction after the
other, and in which order.
-/
namespace ExecutionLayer.Evm

namespace Gas

theorem isLeast_sizeFor {size : Nat} (h : 32 ∣ size) (ranges : List (Nat × Nat)) :
    IsLeast {n | 32 ∣ n ∧ size ≤ n ∧ ∀ r ∈ ranges, 0 < r.2 → r.1 + r.2 ≤ n}
      (sizeFor size ranges) := by
  refine ⟨⟨dvd_sizeFor h ranges, le_sizeFor size ranges, fun r hr hpos => ?_⟩, ?_⟩
  · have hdemand : demand r ≤ sizeFor size ranges := demand_le_sizeFor hr
    rw [demand, if_neg hpos.ne'] at hdemand
    exact (le_ceil32 _).trans hdemand
  · rintro n ⟨hn, hle, hranges⟩
    induction ranges generalizing size with
    | nil => exact hle
    | cons r ranges ih =>
      have hdemand : demand r ≤ n := by
        unfold demand
        split
        · exact Nat.zero_le _
        · next hr =>
          have hr := hranges r List.mem_cons_self (Nat.pos_of_ne_zero hr)
          unfold ceil32
          omega
      have hmax : 32 ∣ max size (demand r) := dvd_sizeFor h [r]
      exact ih hmax (Nat.max_le.mpr ⟨hle, hdemand⟩) fun r' hr' =>
        hranges r' (List.mem_cons_of_mem r hr')

theorem sizeFor_perm {ranges ranges' : List (Nat × Nat)} (h : ranges.Perm ranges') (size : Nat) :
    sizeFor size ranges = sizeFor size ranges' :=
  h.foldl_eq' (fun r _ r' _ n => max_right_comm n (demand r) (demand r')) size

/-- The extensions by several instructions together, of which each finds the memory as the one before
has left it. -/
def extendEach (size : Nat) : List (List (Nat × Nat)) → Extension
  | [] => ⟨0, 0⟩
  | ranges :: rest =>
    let first := extendMemory size ranges
    let others := extendEach (size + first.expandBy) rest
    ⟨first.cost + others.cost, first.expandBy + others.expandBy⟩

theorem extendEach_eq {size : Nat} (h : 32 ∣ size) (parts : List (List (Nat × Nat))) :
    extendEach size parts = extendMemory size parts.flatten := by
  induction parts generalizing size with
  | nil => rfl
  | cons ranges parts ih =>
    have hfirst := le_sizeFor size ranges
    have hrest := le_sizeFor (sizeFor size ranges) parts.flatten
    have hcost := memoryCost_mono hfirst
    have hcost' := memoryCost_mono hrest
    have hsize : size + (sizeFor size ranges - size) = sizeFor size ranges := by omega
    unfold extendEach
    simp only [extendMemory_eq h, hsize, ih (dvd_sizeFor h ranges),
      extendMemory_eq (dvd_sizeFor h ranges), List.flatten_cons, sizeFor_append]
    congr 1 <;> omega

end Gas

namespace Exec
variable {env : Environment} {m m' : Machine}

theorem of_chargeGas_ok {amount : Nat} (h : chargeGas amount env m = .ok () m') :
    amount ≤ m.frame.gasLeft ∧
      m'.frame = { m.frame with gasLeft := m.frame.gasLeft - amount } := by
  obtain ⟨_, m₁, htrace, h⟩ := of_bind_ok h
  rw [← of_trace_ok htrace]
  obtain ⟨_, _, hget, h⟩ := of_bind_ok h
  cases hget
  split at h
  · cases h
  · next hle =>
    split at h
    · cases h
    · cases h
      exact ⟨Nat.not_lt.mp hle, rfl⟩

theorem of_expandMemory_ok {size : Nat} (h : expandMemory size env m = .ok () m') :
    m'.frame.gasLeft = m.frame.gasLeft ∧ m'.frame.memory.size = m.frame.memory.size + size := by
  unfold expandMemory at h
  split at h
  · obtain ⟨_, m₁, hallot, h⟩ := of_bind_ok h
    have hm : m₁ = m := by
      cases hc : Capacity.allot size with
      | ok _ =>
        rw [hc] at hallot
        cases hallot
        rfl
      | error f =>
        rw [hc] at hallot
        cases hallot
    cases h
    rw [hm]
    exact ⟨rfl, by simp [ByteArray.size_append, Bytes.size_zeros]⟩
  · next hz =>
    cases h
    exact ⟨rfl, by omega⟩

theorem of_chargeWithMemory_ok {amount : Nat} {ranges : List (Nat × Nat)}
    (hd : 32 ∣ m.frame.memory.size) (h : chargeWithMemory amount ranges env m = .ok () m') :
    m'.frame.memory.size = Gas.sizeFor m.frame.memory.size ranges ∧
      m'.frame.gasLeft + amount + Gas.memoryCost m'.frame.memory.size =
        m.frame.gasLeft + Gas.memoryCost m.frame.memory.size := by
  obtain ⟨_, _, hextension, h⟩ := of_bind_ok h
  cases hextension
  obtain ⟨_, m₁, hcharge, hexpand⟩ := of_bind_ok h
  obtain ⟨hle, hframe⟩ := of_chargeGas_ok hcharge
  obtain ⟨hgas, hsize⟩ := of_expandMemory_ok hexpand
  dsimp only at hle hframe hsize
  rw [Gas.extendMemory_eq hd] at hle hframe hsize
  rw [hframe] at hgas hsize
  have hgrown := Gas.le_sizeFor m.frame.memory.size ranges
  have hcost := Gas.memoryCost_mono hgrown
  have hfinal : m'.frame.memory.size = Gas.sizeFor m.frame.memory.size ranges := by
    dsimp only at hsize
    omega
  refine ⟨hfinal, ?_⟩
  rw [hfinal, hgas]
  dsimp only at hle ⊢
  omega

def chargeEach : List (Nat × List (Nat × Nat)) → Exec Unit
  | [] => pure ()
  | (amount, ranges) :: uses => do
    chargeWithMemory amount ranges
    chargeEach uses

theorem of_chargeEach_ok {uses : List (Nat × List (Nat × Nat))} (hd : 32 ∣ m.frame.memory.size)
    (h : chargeEach uses env m = .ok () m') :
    m'.frame.memory.size = Gas.sizeFor m.frame.memory.size (uses.flatMap (·.2)) ∧
      m'.frame.gasLeft + (uses.map (·.1)).sum + Gas.memoryCost m'.frame.memory.size =
        m.frame.gasLeft + Gas.memoryCost m.frame.memory.size := by
  induction uses generalizing m with
  | nil =>
    cases h
    exact ⟨rfl, rfl⟩
  | cons use uses ih =>
    obtain ⟨_, m₁, hfirst, hrest⟩ := of_bind_ok h
    obtain ⟨hsize, hpaid⟩ := of_chargeWithMemory_ok hd hfirst
    obtain ⟨hsize', hpaid'⟩ := ih (hsize ▸ Gas.dvd_sizeFor hd _) hrest
    refine ⟨?_, ?_⟩
    · rw [hsize', hsize, List.flatMap_cons, Gas.sizeFor_append]
    · rw [List.map_cons, List.sum_cons]
      omega

end Exec

namespace Gas

/-- A memory grows to the least size in units that has room for all ranges. Its growth costs the
difference between the prices of the two sizes, which is never negative. So the cost and the final
size are the same if the ranges are distributed over several instructions or come in another order,
and the gas that these instructions take beside their own prices is this cost. -/
theorem expansion_telescopes (size : Nat) (ranges : List (Nat × Nat)) (h : 32 ∣ size) :
    let final := sizeFor size ranges
    IsLeast {n | 32 ∣ n ∧ size ≤ n ∧ ∀ r ∈ ranges, 0 < r.2 → r.1 + r.2 ≤ n} final ∧
    ((extendMemory size ranges).expandBy : Int) = final - size ∧
    ((extendMemory size ranges).cost : Int) = memoryCost final - memoryCost size ∧
    memoryCost size ≤ memoryCost final ∧
    (∀ parts : List (List (Nat × Nat)), parts.flatten.Perm ranges →
      extendEach size parts = extendMemory size ranges) ∧
    ∀ (env : Environment) (m m' : Machine) (uses : List (Nat × List (Nat × Nat))),
      m.frame.memory.size = size → (uses.flatMap (·.2)).Perm ranges →
      Exec.chargeEach uses env m = .ok () m' → m'.frame.memory.size = final ∧
        m.frame.gasLeft =
          m'.frame.gasLeft + (uses.map (·.1)).sum + (extendMemory size ranges).cost := by
  intro final
  have hle : size ≤ final := le_sizeFor size ranges
  have hcost : memoryCost size ≤ memoryCost final := memoryCost_mono hle
  have heq : extendMemory size ranges = ⟨memoryCost final - memoryCost size, final - size⟩ :=
    extendMemory_eq h ranges
  refine ⟨isLeast_sizeFor h ranges, ?_, ?_, hcost, fun parts hp => ?_,
    fun env m m' uses hm hp hrun => ?_⟩
  · rw [heq]
    dsimp only
    omega
  · rw [heq]
    dsimp only
    omega
  · rw [extendEach_eq h, extendMemory_eq h, extendMemory_eq h, sizeFor_perm hp]
  · subst hm
    obtain ⟨hsize, hpaid⟩ := Exec.of_chargeEach_ok h hrun
    have hfinal : m'.frame.memory.size = final := by rw [hsize, sizeFor_perm hp]
    refine ⟨hfinal, ?_⟩
    rw [hfinal] at hpaid
    rw [heq]
    dsimp only
    omega

/-- Two ranges, the later one within the earlier, cost what the earlier one costs alone. -/
theorem expansion_telescopes_within :
    32 ∣ 64 ∧ extendMemory 64 [(1000, 24), (0, 0), (90, 7)] = ⟨92, 960⟩ ∧
      extendEach 64 [[(90, 7)], [], [(0, 0), (1000, 24)]] = ⟨92, 960⟩ := by
  have hdvd : 32 ∣ 64 := by decide
  have hat : extendMemory 64 [(1000, 24), (0, 0), (90, 7)] = ⟨92, 960⟩ := by decide
  obtain ⟨-, -, -, -, hparts, -⟩ :=
    expansion_telescopes 64 [(1000, 24), (0, 0), (90, 7)] hdvd
  exact ⟨hdvd, hat, (hparts _ (by decide)).trans hat⟩

end Gas

end ExecutionLayer.Evm
