import ExecutionLayer.Proofs.AltBn128.Primality
import ExecutionLayer.Proofs.Bytes
import ExecutionLayer.Proofs.Evm.Answer
import ExecutionLayer.Proofs.Evm.Arithmetic

/-! # Instructions on words

What the instructions on words push is said without the way in which they compute it: words are
numbers or integers in two's complement, and the exact result is reduced to a word. None of them
stops a frame that has the operands and the gas.
-/
namespace ExecutionLayer.Evm
open Exec Step

/-- The result of an instruction on words, given its operands from the top of the stack down. Shifts
and sign extensions are those of bit vectors. -/
def Opcode.meaning : Opcode → List Word → Option Word
  | .sdiv, [x, y] => some (if y = 0 then 0 else .ofInt 256 (x.toInt.tdiv y.toInt))
  | .smod, [x, y] => some (if y = 0 then 0 else .ofInt 256 (x.toInt.tmod y.toInt))
  | .addmod, [x, y, z] => some (if z = 0 then 0 else .ofNat 256 ((x.toNat + y.toNat) % z.toNat))
  | .mulmod, [x, y, z] => some (if z = 0 then 0 else .ofNat 256 (x.toNat * y.toNat % z.toNat))
  | .exp, [x, y] => some (.ofNat 256 (Nat.pow x.toNat y.toNat))
  | .signextend, [k, x] => some ((x.setWidth (8 * k.toNat + 8)).signExtend 256)
  | .slt, [x, y] => some (if x.toInt < y.toInt then 1 else 0)
  | .sgt, [x, y] => some (if y.toInt < x.toInt then 1 else 0)
  | .byte, [i, x] => some (.ofNat 256 ((fixedBytes x).get i.toNat).toNat)
  | .shl, [shift, x] => some (x <<< shift.toNat)
  | .shr, [shift, x] => some (x >>> shift.toNat)
  | .sar, [shift, x] => some (x.sshiftRight shift.toNat)
  | _, _ => none

def Opcode.wordPrice (fork : Fork) : Opcode → List Word → Nat
  | .sdiv, _ | .smod, _ | .signextend, _ => Gas.low
  | .addmod, _ | .mulmod, _ => Gas.mid
  | .exp, [_, exponent] => Arithmetic.expCost (Gas.exponentByte fork) exponent
  | _, _ => Gas.veryLow

namespace Arithmetic

theorem exp_eq (x y : Word) : exp x y = .ok (BitVec.ofNat 256 (Nat.pow x.toNat y.toNat)) := by
  have hpos : 0 < Word.limit := by decide
  unfold exp
  rw [Word.ofNat?_of_lt (powMod_lt hpos _ _), powMod_eq hpos]
  congr 1
  refine BitVec.eq_of_toNat_eq ?_
  have hl : Word.limit = 2 ^ 256 := by decide
  rw [BitVec.toNat_ofNat, BitVec.toNat_ofNat, hl, Nat.mod_mod]
  rfl

theorem byte_eq (i x : Word) : byte i x = BitVec.ofNat 256 ((fixedBytes x).get i.toNat).toNat := by
  unfold byte fixedBytes
  rw [Bytes.get_ofNat]
  by_cases hi : 32 ≤ i.toNat
  · rw [if_pos hi, if_neg (by omega)]
    rfl
  · have hplace : 256 / 8 - 1 - i.toNat = 31 - i.toNat := by omega
    rw [if_neg hi, if_pos (by omega), hplace]
    refine BitVec.eq_of_toNat_eq ?_
    have hpow : 2 ^ ((31 - i.toNat) * 8) = 256 ^ (31 - i.toNat) := by
      rw [Nat.mul_comm, Nat.pow_mul]
    have hmask : (255 : Word).toNat = 2 ^ 8 - 1 := rfl
    rw [BitVec.toNat_and, BitVec.toNat_ushiftRight, Nat.shiftRight_eq_div_pow, hpow, hmask,
      Nat.and_two_pow_sub_one_eq_mod, BitVec.toNat_ofNat, Nat.toUInt8, UInt8.toNat_ofNat']
    exact (Nat.mod_eq_of_lt ((Nat.mod_lt _ (by decide)).trans (by decide))).symm

theorem slt_eq (x y : Word) : slt x y = if x.toInt < y.toInt then 1 else 0 := by
  simp only [slt, Word.toSigned_eq, Word.ofBool, decide_eq_true_eq]

theorem sgt_eq (x y : Word) : sgt x y = if y.toInt < x.toInt then 1 else 0 := by
  simp only [sgt, Word.toSigned_eq, Word.ofBool, decide_eq_true_eq, gt_iff_lt]

theorem byteLength_le (x : Word) : byteLength x.toNat ≤ 32 := by
  unfold byteLength bitLength
  split
  · decide
  · next hx =>
    have hlog : x.toNat.log2 < 256 := (Nat.log2_lt hx).mpr x.isLt
    omega

theorem expCost_lt (fork : Fork) (x : Word) : expCost (Gas.exponentByte fork) x < Word.limit := by
  have hlen := byteLength_le x
  have hbyte : Gas.exponentByte fork ≤ 50 := by
    unfold Gas.exponentByte
    split <;> decide
  have hmul := Nat.mul_le_mul hbyte hlen
  have hlimit : 10 + 50 * 32 < Word.limit := by decide
  unfold expCost
  omega

end Arithmetic

section Stack
variable {env : Environment} {m : Machine} {f : Frame} {w : World} {stack : Array Word} {x : Word}

theorem pop_pushed (h : f.stack = stack.push x) :
    pop env ⟨f, w⟩ = .ok x ⟨{ f with stack := stack }, w⟩ := by
  have hback : f.stack.back? = some x := by rw [h, Array.back?_push]
  have hpop : f.stack.pop = stack := by rw [h, Array.pop_push]
  unfold pop
  rw [bind_of_ok frame_ok]
  simp only [hback]
  subst hpop
  rfl

def Frame.computed (f : Frame) (cost : Nat) (stack : Array Word) (result : Word) : Frame :=
  { f with stack := stack.push result, gasLeft := f.gasLeft - cost, pc := f.pc + 1 }

theorem conclude_computed {cost : Nat} {r : Except Fault Word} {z : Word} (hr : r = .ok z)
    (hstep : w.AtStep) (hle : cost ≤ f.gasLeft) (hlt : cost < Word.limit)
    (hsize : f.stack.size < stackLimit) :
    ∃ w', (do chargeGas cost; push (← ofExcept r); next) env ⟨f, w⟩ =
      .ok () ⟨f.computed cost f.stack z, w'⟩ ∧ w'.AtStep := by
  obtain ⟨w', hcharge, hstep'⟩ := chargeGas_ok env (m := ⟨f, w⟩) hstep hle hlt
  refine ⟨w', ?_, hstep'⟩
  rw [bind_of_ok hcharge, hr]
  exact bind_of_ok (push_of_lt (m := ⟨{ f with gasLeft := f.gasLeft - cost }, w'⟩) z hsize) _

end Stack

section Instructions
variable {env : Environment} {f : Frame} {w : World} {stack : Array Word} {cost : Nat}
  {x y z r : Word}

theorem execute_of_meaning {op : Opcode} {operands : List Word}
    (h : op.meaning operands = some r) : execute op = (do compute op; return none) := by
  unfold Opcode.meaning at h
  split at h
  case h_13 => cases h
  all_goals rfl

variable (hsize : stack.size < stackLimit) (hstep : w.AtStep)
include hsize hstep

theorem binary_computed {g : Word → Word → Except Fault Word} (hg : g x y = .ok r)
    (hf : f.stack = (stack.push y).push x) (hle : cost ≤ f.gasLeft) (hlt : cost < Word.limit) :
    ∃ w', binary cost g env ⟨f, w⟩ = .ok () ⟨f.computed cost stack r, w'⟩ ∧ w'.AtStep := by
  unfold binary
  rw [bind_of_ok (pop_pushed hf), bind_of_ok (pop_pushed rfl)]
  exact conclude_computed (f := { f with stack := stack }) hg hstep hle hlt hsize

theorem binaryTotal_computed {g : Word → Word → Word} (hg : g x y = r)
    (hf : f.stack = (stack.push y).push x) (hle : cost ≤ f.gasLeft) (hlt : cost < Word.limit) :
    ∃ w', binaryTotal cost g env ⟨f, w⟩ = .ok () ⟨f.computed cost stack r, w'⟩ ∧ w'.AtStep :=
  binary_computed hsize hstep (g := fun x y => .ok (g x y)) (congrArg Except.ok hg) hf hle hlt

theorem ternary_computed {g : Word → Word → Word → Except Fault Word} (hg : g x y z = .ok r)
    (hf : f.stack = ((stack.push z).push y).push x) (hle : cost ≤ f.gasLeft)
    (hlt : cost < Word.limit) :
    ∃ w', ternary cost g env ⟨f, w⟩ = .ok () ⟨f.computed cost stack r, w'⟩ ∧ w'.AtStep := by
  unfold ternary
  rw [bind_of_ok (pop_pushed hf), bind_of_ok (pop_pushed rfl), bind_of_ok (pop_pushed rfl)]
  exact conclude_computed (f := { f with stack := stack }) hg hstep hle hlt hsize

theorem exp_computed (hf : f.stack = (stack.push y).push x)
    (hle : Arithmetic.expCost (Gas.exponentByte env.fork) y ≤ f.gasLeft) :
    ∃ w', Step.exp env ⟨f, w⟩ = .ok () ⟨f.computed
      (Arithmetic.expCost (Gas.exponentByte env.fork) y) stack
        (BitVec.ofNat 256 (Nat.pow x.toNat y.toNat)), w'⟩ ∧ w'.AtStep := by
  have hfork (m : Machine) : fork env m = .ok env.fork m := rfl
  unfold Step.exp
  rw [bind_of_ok (pop_pushed hf), bind_of_ok (pop_pushed rfl), bind_of_ok (hfork _)]
  exact conclude_computed (f := { f with stack := stack }) (Arithmetic.exp_eq x y) hstep hle
    (Arithmetic.expCost_lt _ _) hsize

theorem compute_computed {op : Opcode} {operands : List Word}
    (hmeaning : op.meaning operands = some r)
    (hf : f.stack = operands.foldr (fun x stack => stack.push x) stack)
    (hle : op.wordPrice env.fork operands ≤ f.gasLeft) :
    ∃ w', compute op env ⟨f, w⟩ =
      .ok () ⟨f.computed (op.wordPrice env.fork operands) stack r, w'⟩ ∧ w'.AtStep := by
  have hlow : Gas.low < Word.limit := by decide
  have hmid : Gas.mid < Word.limit := by decide
  have hveryLow : Gas.veryLow < Word.limit := by decide
  unfold Opcode.meaning at hmeaning
  split at hmeaning <;> cases hmeaning
  · exact binary_computed hsize hstep (Arithmetic.sdiv_eq _ _) hf hle hlow
  · exact binary_computed hsize hstep (Arithmetic.smod_eq _ _) hf hle hlow
  · exact ternary_computed hsize hstep (Arithmetic.addmod_eq _ _ _) hf hle hmid
  · exact ternary_computed hsize hstep (Arithmetic.mulmod_eq _ _ _) hf hle hmid
  · exact exp_computed hsize hstep hf hle
  · exact binaryTotal_computed hsize hstep (Arithmetic.signextend_eq _ _) hf hle hlow
  · exact binaryTotal_computed hsize hstep (Arithmetic.slt_eq _ _) hf hle hveryLow
  · exact binaryTotal_computed hsize hstep (Arithmetic.sgt_eq _ _) hf hle hveryLow
  · exact binaryTotal_computed hsize hstep (Arithmetic.byte_eq _ _) hf hle hveryLow
  · exact binary_computed hsize hstep (Arithmetic.shl_eq _ _) hf hle hveryLow
  · exact binaryTotal_computed hsize hstep (Arithmetic.shr_eq _ _) hf hle hveryLow
  · exact binary_computed hsize hstep (Arithmetic.sar_eq _ _) hf hle hveryLow

end Instructions

section Steps
variable {runner : Runner} {env : Environment} {m : Machine} {op : Opcode} {operands : List Word}
  {rest : Array Word} {result : Word}

theorem size_lt_of_meaning (hmeaning : op.meaning operands = some result)
    (hstack : m.frame.stack = operands.foldr (fun x stack => stack.push x) rest)
    (hlimit : m.frame.stack.size ≤ stackLimit) : rest.size < stackLimit := by
  have hsize (l : List Word) :
      (l.foldr (fun x stack => stack.push x) rest).size = rest.size + l.length := by
    induction l with
    | nil => rfl
    | cons x l ih => rw [List.foldr_cons, Array.size_push, ih, List.length_cons, Nat.add_assoc]
  have hne : operands ≠ [] := by
    rintro rfl
    unfold Opcode.meaning at hmeaning
    cases op <;> cases hmeaning
  have hpos := List.length_pos_of_ne_nil hne
  rw [hstack, hsize] at hlimit
  omega

instance {L : Logic} [L.Moving] (op : Opcode) : Made L (compute op) := by
  cases op
  all_goals
    dsimp only [compute, unary, binary, binaryTotal, ternary, exp]
    infer_instance

theorem stepInstruction_computed (runner : Runner) (hop : m.opcode? env = some op)
    (hmeaning : op.meaning operands = some result)
    (hstack : m.frame.stack = operands.foldr (fun x stack => stack.push x) rest)
    (hlimit : m.frame.stack.size ≤ stackLimit)
    (hgas : op.wordPrice env.fork operands ≤ m.frame.gasLeft) :
    ∃ m', stepInstruction runner env m = .ok () m' ∧ Quiet m m' ∧
      m'.frame = m.frame.computed (op.wordPrice env.fork operands) rest result := by
  have hroom := size_lt_of_meaning hmeaning hstack hlimit
  -- The line that the trace gets for the instruction is there for its price and its end.
  obtain ⟨w₁, hstart, hstep₁⟩ :=
    trace_ok (.opStart op) env (m := m) fun t _ => ⟨_, rfl, t.atStep_push _⟩
  obtain ⟨w₂, hcompute, hstep₂⟩ := compute_computed hroom hstep₁ hmeaning hstack hgas
  obtain ⟨w₃, hend, -⟩ := trace_ok .opEnd env
    (m := ⟨m.frame.computed (op.wordPrice env.fork operands) rest result, w₂⟩)
    fun t ht => (hstep₂ t ht).amend_ok _
  refine ⟨⟨m.frame.computed (op.wordPrice env.fork operands) rest result, w₃⟩, ?_, ?_, rfl⟩
  · have hfetch : fetch env m = .ok none
        ⟨m.frame.computed (op.wordPrice env.fork operands) rest result, w₂⟩ := by
      rw [fetch_of_some hop, bind_of_ok hstart, execute_of_meaning hmeaning]
      exact bind_of_ok hcompute _
    unfold stepInstruction
    rw [bind_of_ok hfetch]
    exact hend
  · exact IsTrans.trans _ _ _ (quiet_of_ok hstart)
      (IsTrans.trans _ _ _ (quiet_of_ok hcompute) (quiet_of_ok hend))

/-- An instruction on words never stops a frame that has its operands and its price. It puts its
meaning in the place of the operands and changes nothing else but gas and place. The meaning takes the
quotient that exceeds the range to where the dividend is, repeats the sign bit from its place on, and
leaves nothing but the sign of a word that is shifted by 256 or more. -/
theorem words_in_twos_complement (runner : Runner) (env : Environment) (m : Machine) (op : Opcode)
    (operands : List Word) (rest : Array Word) (result : Word) (hop : m.opcode? env = some op)
    (hmeaning : op.meaning operands = some result)
    (hstack : m.frame.stack = operands.foldr (fun x stack => stack.push x) rest)
    (hlimit : m.frame.stack.size ≤ stackLimit)
    (hgas : op.wordPrice env.fork operands ≤ m.frame.gasLeft) :
    (∃ m', stepInstruction runner env m = .ok () m' ∧
      m'.frame = { m.frame with
        stack := rest.push result
        gasLeft := m.frame.gasLeft - op.wordPrice env.fork operands
        pc := m.frame.pc + 1 } ∧
      m'.world.state = m.world.state ∧ m'.world.transient = m.world.transient) ∧
    Opcode.sdiv.meaning [.intMin 256, .allOnes 256] = some (.intMin 256) ∧
    (∀ k x z, Opcode.signextend.meaning [k, x] = some z →
      ∀ i < 256, z.getLsbD i = x.getLsbD (min i (8 * k.toNat + 7))) ∧
    ∀ shift x : Word, 256 ≤ shift.toNat → Opcode.shl.meaning [shift, x] = some 0 ∧
      Opcode.shr.meaning [shift, x] = some 0 ∧
      Opcode.sar.meaning [shift, x] = some (if x.toInt < 0 then .allOnes 256 else 0) := by
  refine ⟨?_, by decide, fun k x z hz i hi => ?_, fun shift x hs => ⟨?_, ?_, ?_⟩⟩
  · obtain ⟨m', hstep, hquiet, hframe⟩ :=
      stepInstruction_computed runner hop hmeaning hstack hlimit hgas
    exact ⟨m', hstep, hframe, hquiet.state, hquiet.transient⟩
  · cases hz
    rw [← Arithmetic.signextend_eq]
    exact Arithmetic.getLsbD_signextend k x hi
  · exact congrArg some (BitVec.shiftLeft_eq_zero hs)
  · exact congrArg some (BitVec.ushiftRight_eq_zero hs)
  · rw [Opcode.meaning, Arithmetic.sshiftRight_of_ge hs]

def shifting : Machine where
  frame := { (default : Frame) with
    code := ⟨#[0x1d]⟩, stack := #[7, .intMin 256, 254], gasLeft := 3 }
  world := { state := default }

/-- The least integer loses all bits but two, and both of them are signs. -/
theorem words_in_twos_complement_shift :
    let env : Environment := { (default : Environment) with fork := .constantinople }
    ∃ m', stepInstruction runMessage env shifting = .ok () m' ∧
      m'.frame.stack = #[7, .ofInt 256 (-2)] ∧ m'.frame.gasLeft = 0 ∧ m'.frame.pc = 1 := by
  intro env
  obtain ⟨⟨m', hstep, hframe, -, -⟩, -⟩ := words_in_twos_complement runMessage env shifting .sar
    [254, .intMin 256] #[7] (.ofInt 256 (-2)) (by decide) (by decide) rfl (by decide) (by decide)
  exact ⟨m', hstep, congrArg Frame.stack hframe, congrArg Frame.gasLeft hframe,
    congrArg Frame.pc hframe⟩

end Steps

end ExecutionLayer.Evm
