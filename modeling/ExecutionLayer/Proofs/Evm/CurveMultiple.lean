import ExecutionLayer.Proofs.AltBn128.Addition
import ExecutionLayer.Proofs.Evm.Answer

/-! # Multiples of points by contract

The contract for multiples takes the coordinates of a point and a number, and answers with the
coordinates of the multiple. Multiples of points of the curve are on the curve, so that no point is
refused.
-/
namespace ExecutionLayer.Evm
open AltBn128
variable {env : Environment} {m : Machine}

namespace Pairing
variable {data : Bytes}

theorem coordinate_of_eq {start : Nat} {a : Base} (h : wordAt data start = a.val) :
    coordinate data start env m = .ok a m := by
  unfold coordinate
  rw [h, if_pos a.isLt]
  have ha : Base.ofNat a.val = a := Fin.ext (Nat.mod_eq_of_lt a.isLt)
  rw [ha]
  rfl

theorem point_of_onCurve {F : Type} [Coordinate F] {p : Point F} (h : p.onCurve) :
    point p.x p.y env m = .ok p m := by
  unfold point
  rw [Point.make_of_onCurve h]
  rfl

theorem mulCost_lt (fork : Fork) : mulCost fork < Word.limit := by
  unfold mulCost
  split <;> decide

theorem mul_of_point {p r : Point Base} (hp : p.onCurve) (hx : wordAt data 0 = p.x.val)
    (hy : wordAt data 32 = p.y.val) (hr : p.mulBy (wordAt data 64) = .ok r) (h : m.world.AtStep)
    (hgas : mulCost env.fork ≤ m.frame.gasLeft) : ∃ w, mul data env m = .ok (encode r)
      ⟨{ m.frame with gasLeft := m.frame.gasLeft - mulCost env.fork }, w⟩ ∧ w.AtStep := by
  obtain ⟨w, hw, hstep⟩ := Exec.chargeGas_ok env h hgas (mulCost_lt _)
  refine ⟨w, ?_, hstep⟩
  unfold mul
  rw [bind_of_ok fork_ok, bind_of_ok hw, bind_of_ok (coordinate_of_eq hx),
    bind_of_ok (coordinate_of_eq hy), bind_of_ok (point_of_onCurve hp), hr]
  rfl

end Pairing

theorem Precompile.at?_curveMul {fork : Fork} (h : Fork.byzantium ≤ fork) :
    Precompile.at? fork Precompile.curveMul.address = some .curveMul := by
  revert h
  cases fork <;> decide

theorem runFrame_curveMul {p r : Point Base} (hp : p.onCurve) {message : Message}
    (haddress : message.codeAddress = some Precompile.curveMul.address)
    (hfork : Fork.byzantium ≤ env.fork) (hgas : Pairing.mulCost env.fork ≤ message.gas)
    (hx : Pairing.wordAt message.data 0 = p.x.val) (hy : Pairing.wordAt message.data 32 = p.y.val)
    (hr : p.mulBy (Pairing.wordAt message.data 64) = .ok r) (runner : Runner) (w : World) :
    ∃ frame w', runFrame runner message env w = .ok frame w' ∧ frame.error = none ∧
      frame.output = Pairing.encode r := by
  have hcontract : message.precompile? env = some .curveMul := by
    rw [Message.precompile?, haddress]
    exact Precompile.at?_curveMul hfork
  have hanswer (w : World) (hstep : w.AtStep) : ∃ w' : World, w'.AtStep ∧
      Precompile.curveMul.answer message.data env ⟨.ofMessage message, w⟩ = .ok (Pairing.encode r)
        ⟨{ Frame.ofMessage message with gasLeft := message.gas - Pairing.mulCost env.fork }, w'⟩ := by
    obtain ⟨w', hmul, hstep'⟩ :=
      Pairing.mul_of_point (m := ⟨.ofMessage message, w⟩) hp hx hy hr hstep hgas
    exact ⟨w', hstep', hmul⟩
  obtain ⟨w', hrun⟩ := runFrame_of_answer hcontract hanswer runner w
  exact ⟨_, w', hrun, rfl, rfl⟩

/-- A multiple of a point of the curve is a repeated sum and on the curve, the multiple by a sum of
numbers is the sum of the multiples, and the contract answers with the encoded multiple. -/
theorem multiples_of_points (p : Point Base) (hp : p.onCurve) (m n : Nat) (runner : Runner)
    (message : Message) (env : Environment) (w : World)
    (haddress : message.codeAddress = some Precompile.curveMul.address)
    (hfork : Fork.byzantium ≤ env.fork) (hgas : Pairing.mulCost env.fork ≤ message.gas)
    (hx : Pairing.wordAt message.data 0 = p.x.val)
    (hy : Pairing.wordAt message.data 32 = p.y.val) :
    (∃ r, p.mulBy n = .ok r ∧ p.repeated n = .ok r ∧ r.onCurve) ∧
    (∃ r s, p.mulBy m = .ok r ∧ p.mulBy n = .ok s ∧ p.mulBy (m + n) = r.add s) ∧
    ∃ r frame w', runFrame runner message env w = .ok frame w' ∧ frame.error = none ∧
      p.mulBy (Pairing.wordAt message.data 64) = .ok r ∧ r.onCurve ∧
      frame.output = Pairing.encode r := by
  refine ⟨Point.mulBy_base hp n, Point.mulBy_add_base hp m n, ?_⟩
  obtain ⟨r, hr, -, hcurve⟩ := Point.mulBy_base hp (Pairing.wordAt message.data 64)
  obtain ⟨frame, w', hrun, herror, houtput⟩ :=
    runFrame_curveMul hp haddress hfork hgas hx hy hr runner w
  exact ⟨r, frame, w', hrun, herror, hr, hcurve, houtput⟩

def tripling : Message := { (default : Message) with
  gas := 40000
  codeAddress := some Precompile.curveMul.address
  data := Bytes.ofNat 32 1 ++ Bytes.ofNat 32 2 ++ Bytes.ofNat 32 3 }

theorem multiples_of_points_tripled :
    let env := { (default : Environment) with fork := .byzantium }
    let p : Point Base := ⟨1, 2⟩
    p.onCurve ∧ Pairing.mulCost env.fork ≤ tripling.gas ∧
    Pairing.wordAt tripling.data 0 = p.x.val ∧ Pairing.wordAt tripling.data 32 = p.y.val ∧
    (∃ r s, p.mulBy 1 = .ok r ∧ p.mulBy 2 = .ok s ∧ p.mulBy (1 + 2) = r.add s) ∧
    ∃ r frame w', runFrame runMessage tripling env { state := {} } = .ok frame w' ∧
      frame.error = none ∧ p.mulBy 3 = .ok r ∧ r.onCurve ∧ frame.output = Pairing.encode r := by
  intro env p
  have hp : p.onCurve := by decide
  have hgas : Pairing.mulCost env.fork ≤ tripling.gas := by decide
  have hx : Pairing.wordAt tripling.data 0 = p.x.val := by decide
  have hy : Pairing.wordAt tripling.data 32 = p.y.val := by decide
  have hn : Pairing.wordAt tripling.data 64 = 3 := by decide
  obtain ⟨-, hsum, hrun⟩ := multiples_of_points p hp 1 2 runMessage tripling env { state := {} } rfl
    (by decide) hgas hx hy
  rw [hn] at hrun
  exact ⟨hp, hgas, hx, hy, hsum, hrun⟩

end ExecutionLayer.Evm
