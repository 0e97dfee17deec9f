import ExecutionLayer.Proofs.Evm.Answer
import ExecutionLayer.Proofs.Crypto.Blake2b

/-! # Compression by contract

The contract takes the parameters of the compression function in bytes, is paid by the round, and
answers with the compressed state.
-/
namespace ExecutionLayer.Evm
open Blake2b
variable {env : Environment} {message : Message}

def compressionAt (b : Bytes) : Vector (BitVec 64) 8 :=
  compression (b.numberAt 0 4) (Vector.ofFn fun i => wordAt b (4 + 8 * i))
    (Vector.ofFn fun i => wordAt b (68 + 8 * i)) (wordAt b 196) (wordAt b 204) (b.get 212 = 1)

theorem Digest.blake2f_of_size {m : Machine} {data : Bytes} (hsize : data.size = 213)
    (hflag : data.get 212 = 0 ∨ data.get 212 = 1) (h : m.world.AtStep)
    (hgas : data.numberAt 0 4 ≤ m.frame.gasLeft) :
    ∃ w, blake2f data env m = .ok (littleEndian (compressionAt data))
      ⟨{ m.frame with gasLeft := m.frame.gasLeft - data.numberAt 0 4 }, w⟩ ∧ w.AtStep := by
  have hprice : data.numberAt 0 4 < Word.limit :=
    (data.numberAt_lt 0 4).trans (show 256 ^ 4 < Word.limit by decide)
  obtain ⟨w, hw, hstep⟩ := Exec.chargeGas_ok env h hgas hprice
  refine ⟨w, ?_, hstep⟩
  have hfinal : (data.get 212).toNat ≤ 1 ∧
      ((data.get 212).toNat ≠ 0 ↔ data.get 212 = 1) := by
    rcases hflag with hf | hf
    · rw [hf]
      decide
    · rw [hf]
      decide
  unfold blake2f
  rw [if_neg (not_not.mpr hsize), ofBytes_eq hsize]
  refine (bind_of_ok hw _).trans ?_
  refine (congrFun (congrFun (if_neg (Nat.not_lt.mpr hfinal.1)) env) _).trans ?_
  rw [compress_ofWords, compressionAt, decide_eq_decide.mpr hfinal.2]
  rfl

theorem Precompile.at?_blake2f {fork : Fork} (h : Fork.istanbul ≤ fork) :
    Precompile.at? fork Precompile.blake2f.address = some .blake2f := by
  revert h
  cases fork <;> decide

theorem runFrame_blake2f (haddress : message.codeAddress = some Precompile.blake2f.address)
    (hfork : Fork.istanbul ≤ env.fork) (hsize : message.data.size = 213)
    (hflag : message.data.get 212 = 0 ∨ message.data.get 212 = 1)
    (hgas : message.data.numberAt 0 4 ≤ message.gas) (runner : Runner) (w : World) :
    ∃ frame w', runFrame runner message env w = .ok frame w' ∧ frame.error = none ∧
      frame.output = littleEndian (compressionAt message.data) := by
  have hcontract : message.precompile? env = some .blake2f := by
    rw [Message.precompile?, haddress]
    exact Precompile.at?_blake2f hfork
  have hanswer (w : World) (hstep : w.AtStep) : ∃ w' : World, w'.AtStep ∧
      Precompile.blake2f.answer message.data env ⟨.ofMessage message, w⟩ =
        .ok (littleEndian (compressionAt message.data)) ⟨{ Frame.ofMessage message with
          gasLeft := message.gas - message.data.numberAt 0 4 }, w'⟩ := by
    obtain ⟨w', hrun, hstep'⟩ :=
      Digest.blake2f_of_size (m := ⟨.ofMessage message, w⟩) hsize hflag hstep hgas
    exact ⟨w', hstep', hrun⟩
  obtain ⟨w', hrun⟩ := runFrame_of_answer hcontract hanswer runner w
  exact ⟨_, w', hrun, rfl, rfl⟩

/-- For any words and any number of rounds the numbers that are computed are the words of the
compression, and the contract answers with the compression that its input asks for. -/
theorem compression_of_words (rounds : Nat) (h : Vector (BitVec 64) 8) (m : Vector (BitVec 64) 16)
    (t₀ t₁ : BitVec 64) (final : Bool) :
    (Parameters.ofLists rounds (h.toList.map BitVec.toNat) (m.toList.map BitVec.toNat) t₀.toNat
      t₁.toNat final >>= compress) = .ok (littleEndian (compression rounds h m t₀ t₁ final)) ∧
    ∀ (runner : Runner) (message : Message) (env : Environment) (w : World),
      message.codeAddress = some Precompile.blake2f.address → Fork.istanbul ≤ env.fork →
      message.data.size = 213 → (message.data.get 212 = 0 ∨ message.data.get 212 = 1) →
      message.data.numberAt 0 4 ≤ message.gas →
      ∃ frame w', runFrame runner message env w = .ok frame w' ∧ frame.error = none ∧
        frame.output = littleEndian (compressionAt message.data) := by
  refine ⟨?_, fun runner message env w haddress hfork hsize hflag hgas =>
    runFrame_blake2f haddress hfork hsize hflag hgas runner w⟩
  rw [ofLists_eq]
  refine (compress_ofWords _ _ _ _ _ _).trans ?_
  cases final <;> rfl

def twelveRounds : Message := { (default : Message) with
  gas := 12
  codeAddress := some Precompile.blake2f.address
  data := Bytes.ofList ([0, 0, 0, 12] ++ List.replicate 208 0 ++ [1]) }

set_option maxRecDepth 2000 in
theorem compression_of_words_twelve :
    let env := { (default : Environment) with fork := .istanbul }
    twelveRounds.data.size = 213 ∧ twelveRounds.data.get 212 = 1 ∧
    twelveRounds.data.numberAt 0 4 = 12 ∧
    ∃ frame w', runFrame runMessage twelveRounds env { state := {} } = .ok frame w' ∧
      frame.error = none ∧ frame.output = littleEndian (compressionAt twelveRounds.data) := by
  intro env
  have hsize : twelveRounds.data.size = 213 := by decide
  have hflag : twelveRounds.data.get 212 = 1 := by decide
  have hrounds : twelveRounds.data.numberAt 0 4 = 12 := by decide
  exact ⟨hsize, hflag, hrounds, (compression_of_words 0 (.replicate 8 0) (.replicate 16 0) 0 0
    true).2 runMessage twelveRounds env _ rfl (by decide) hsize (Or.inr hflag) hrounds.le⟩

end ExecutionLayer.Evm
