import ExecutionLayer.Proofs.AltBn128.Addition
import ExecutionLayer.Proofs.AltBn128.Pairing
import ExecutionLayer.Proofs.Crypto.Blake2b
import ExecutionLayer.Proofs.Evm.SoundStep

/-! # Precompiled contracts without faults

What a precompiled contract computes is defined on every input, and its output is not too long.
There is one exception: modular exponentiation computes with the lengths that its input names before
they are known to be sensible.
-/
namespace ExecutionLayer

theorem Sha256.size_pushWord (b : Bytes) (x : UInt32) : (pushWord b x).size = b.size + 4 := by
  simp [pushWord, ByteArray.size_push]

theorem size_sha256 (b : Bytes) : (sha256 b).size = 32 := by
  simp [sha256, Sha256.size_pushWord]

theorem Ripemd160.size_pushWord (b : Bytes) (x : UInt32) : (pushWord b x).size = b.size + 4 := by
  simp [pushWord, ByteArray.size_push]

theorem size_ripemd160 (b : Bytes) : (ripemd160 b).size = 20 := by
  simp [ripemd160, Ripemd160.size_pushWord]

theorem size_fixedBytes {w : Nat} (x : BitVec w) : (fixedBytes x).size = w / 8 :=
  Bytes.size_ofNat _ _

namespace Evm
open Exec

namespace ModExp

/-- What an exponentiation costs that names its lengths at the start of the input. -/
def priceOf (fork : Fork) (data : Bytes) : Nat :=
  cost fork (number data 0 32) (number data 64 32) (number data 32 32)
    (number data (96 + number data 0 32) (min 32 (number data 32 32)))

/-- The lengths that the input names are too large to compute with. -/
inductive Overflows (fork : Fork) (gas : Nat) (data : Bytes) : Prop
  /-- The start of the exponent is not a word. -/
  | base : Word.limit ≤ 96 + number data 0 32 → Overflows fork gas data
  /-- An exponent whose length is no possible size can be paid. -/
  | exponent : fork < Fork.berlin → ¬(number data 0 32 = 0 ∧ number data 64 32 = 0) →
      Capacity.limit ≤ number data 32 32 + Capacity.overhead → priceOf fork data ≤ gas →
      Overflows fork gas data

theorem one_le_complexity (fork : Fork) {b m : Nat} (h : ¬(b = 0 ∧ m = 0)) :
    1 ≤ complexity fork b m := by
  have hl : 1 ≤ max b m := by omega
  unfold complexity
  dsimp only
  generalize max b m = l at hl
  split
  · exact Nat.mul_pos (by omega) (by omega)
  · split
    · exact Nat.mul_pos hl hl
    · split
      · have : 64 * l ≤ l * l := Nat.mul_le_mul_right l (by omega)
        omega
      · have : 1024 * l ≤ l * l := Nat.mul_le_mul_right l (by omega)
        omega

theorem length_lt_of_complexity (fork : Fork) {b m : Nat}
    (h : complexity fork b m < Nat.pow 2 70) : max b m < Nat.pow 2 40 := by
  by_contra hge
  have hl : Nat.pow 2 40 ≤ max b m := Nat.le_of_not_lt hge
  unfold complexity at h
  dsimp only at h
  generalize max b m = l at hl h
  have h40 : Nat.pow 2 40 = 1099511627776 := by decide
  have h70 : Nat.pow 2 70 = 1180591620717411303424 := by decide
  rw [h40] at hl
  rw [h70] at h
  have hsquare : 1099511627776 * 1099511627776 ≤ l * l := Nat.mul_le_mul hl hl
  split at h
  · have hd : 137438953472 ≤ (l + 7) / 8 := by omega
    have : 137438953472 * 137438953472 ≤ (l + 7) / 8 * ((l + 7) / 8) := Nat.mul_le_mul hd hd
    omega
  · split at h
    · omega
    · split at h <;> omega

theorem one_le_iterations (e head : Nat) : 1 ≤ iterations e head := Nat.le_max_right _ _

theorem bounds_of_cost {fork : Fork} {b m e head : Nat} (hne : ¬(b = 0 ∧ m = 0))
    (h : cost fork b m e head < Nat.pow 2 64) :
    max b m < Nat.pow 2 40 ∧ (Fork.berlin ≤ fork → e + Capacity.overhead < Capacity.limit) ∧
      e < Nat.pow 2 70 := by
  have h64 : Nat.pow 2 64 = 18446744073709551616 := by decide
  have h70 : Nat.pow 2 70 = 1180591620717411303424 := by decide
  have hlimit : Capacity.limit = 9223372036854775808 := by decide
  have hoverhead : Capacity.overhead = 33 := rfl
  have hc := one_le_complexity fork hne
  have hi := one_le_iterations e head
  have hcomplexity : complexity fork b m ≤ complexity fork b m * iterations e head :=
    Nat.le_mul_of_pos_right _ hi
  have hiterations : iterations e head ≤ complexity fork b m * iterations e head :=
    Nat.le_mul_of_pos_left _ hc
  have he : 8 * (e - 32) ≤ iterations e head := (Nat.le_add_right _ _).trans (Nat.le_max_left _ _)
  unfold cost at h
  dsimp only at h
  refine ⟨length_lt_of_complexity fork ?_, fun hf => ?_, ?_⟩
  · split at h <;> omega
  · rw [if_pos hf] at h
    omega
  · split at h <;> omega

theorem number?_of_lt (data : Bytes) (start : Nat) {n : Nat}
    (h : n + Capacity.overhead < Capacity.limit) :
    number? data start n = .ok (number data start n) := by
  unfold number? Bytes.read? Capacity.allotPadded Capacity.allot
  simp only [require, h, decide_true, ↓reduceIte]
  rfl

theorem number?_of_le (data : Bytes) (start : Nat) {n : Nat}
    (h : Capacity.limit ≤ n + Capacity.overhead) : number? data start n = .error .overflow := by
  unfold number? Bytes.read? Capacity.allotPadded Capacity.allot
  simp only [require, Nat.not_lt.mpr h, decide_false, Bool.false_eq_true, ↓reduceIte]
  rfl

theorem power_of_lt (data : Bytes) {b s e m : Nat} (hb : b < Nat.pow 2 40) (hm : m < Nat.pow 2 40)
    (he : e + Capacity.overhead < Capacity.limit) (hs : s + e < Word.limit) :
    power data b s e m = .ok (if number data (s + e) m = 0 then .zeros m
      else .ofNat m (powMod (number data 96 b) (number data s e) (number data (s + e) m))) := by
  have h40 : Nat.pow 2 40 + Capacity.overhead < Capacity.limit := by decide
  have hstart : startAfter s e = .ok (s + e) := if_pos hs
  unfold power
  rw [number?_of_lt data 96 (by omega), number?_of_lt data s he, hstart]
  simp only [bind, Except.bind, number?_of_lt data (s + e) (n := m) (by omega)]
  rfl

variable {env : Environment} {n k : Nat}

def Endowed (gas n k : Nat) (m : Machine) : Prop := m.frame.message.gas = gas ∧ Sized n k m

theorem chargeGas_endowed {gas : Nat} (amount : Nat) :
    Safe env (Endowed gas n k) (chargeGas amount) fun _ m => amount ≤ gas ∧ Sized n k m := by
  refine ⟨fun m hm => ?_⟩
  have hs : Sound (fun _ => Sized n (k + amount)) (chargeGas amount env m) :=
    (chargeGas_paid amount).sound m hm.2
  have hq := (chargeGas_quiet amount).within env m
  rcases h : chargeGas amount env m with ⟨_, m₁⟩ | ⟨e | f | f, m₁⟩
  · rw [h] at hs hq
    have hpaid := hs.paid
    rw [hq.1.message, hm.1] at hpaid
    exact ⟨by omega, hs.le (Nat.le_add_right _ _)⟩
  · rw [h] at hs
    exact hs
  · rw [h] at hs
    exact hs
  · trivial

theorem power_safe (data : Bytes) {b s e m : Nat} (hb : b < Nat.pow 2 40) (hm : m < Nat.pow 2 40)
    (he : e + Capacity.overhead < Capacity.limit) (hs : s < Nat.pow 2 64) :
    Safe env (Sized n k) (Exec.ofExcept (power data b s e m)) fun out m =>
      out.size < Word.limit ∧ Sized n k m := by
  have hlimit : Nat.pow 2 40 < Word.limit := by decide
  have hword : Nat.pow 2 64 + Capacity.limit < Word.limit := by decide
  rw [power_of_lt data hb hm he (by omega)]
  refine ⟨fun _ hsized => ⟨?_, hsized⟩⟩
  split
  · rw [Bytes.size_zeros]
    omega
  · rw [Bytes.size_ofNat]
    omega

theorem run_safe {gas : Nat} (data : Bytes) (hg : gas < Nat.pow 2 64)
    (ho : ¬Overflows env.fork gas data) :
    Safe env (Endowed gas n k) (run data) fun out m => out.size < Word.limit ∧ Sized n k m := by
  have hstart : startAfter 96 (number data 0 32) = .ok (96 + number data 0 32) :=
    if_pos (Nat.lt_of_not_le fun h => ho (.base h))
  unfold run
  refine .of_except hstart ?_
  refine fork_known.bind fun _ => .of_fact fun hf => ?_
  subst hf
  refine (chargeGas_endowed _).bind fun _ => .of_fact fun hcost => .ite
    (fun _ => ⟨fun _ hm => ⟨by decide, hm⟩⟩) fun hne => ?_
  obtain ⟨hl, hexp, -⟩ := bounds_of_cost hne (Nat.lt_of_le_of_lt hcost hg)
  have he : number data 32 32 + Capacity.overhead < Capacity.limit := by
    by_cases hf : Fork.berlin ≤ env.fork
    · exact hexp hf
    · by_contra hge
      exact ho (.exponent (Nat.lt_of_not_le hf) hne (Nat.le_of_not_lt hge) hcost)
  have h40 : 96 + Nat.pow 2 40 < Nat.pow 2 64 := by decide
  exact power_safe data (by omega) (by omega) he (by omega)

theorem power_of_le (data : Bytes) {e : Nat} (b s m : Nat)
    (h : Capacity.limit ≤ e + Capacity.overhead) : power data b s e m = .error .overflow := by
  unfold power
  rcases Nat.lt_or_ge (b + Capacity.overhead) Capacity.limit with hb | hb
  · rw [number?_of_lt data 96 hb, number?_of_le data s h]
    rfl
  · rw [number?_of_le data 96 hb]
    rfl

theorem run_error {data : Bytes} {m : Machine} (hu : m.world.tracer = none)
    (hg : m.frame.gasLeft < Word.limit) (ho : Overflows env.fork m.frame.gasLeft data) :
    ∃ m', run data env m = .error (.fault .overflow) m' := by
  unfold run
  by_cases hstart : 96 + number data 0 32 < Word.limit
  · cases ho with
    | base h => exact absurd hstart (Nat.not_lt.mpr h)
    | exponent hf hne he hp =>
      have hs : (Exec.ofExcept (startAfter 96 (number data 0 32)) : Exec Nat) env m =
          .ok (96 + number data 0 32) m := by
        rw [startAfter, if_pos hstart]
        rfl
      obtain ⟨m₁, hc⟩ : ∃ m₁, chargeGas (priceOf env.fork data) env m = .ok () m₁ := by
        rw [chargeGas_eq hu hg, if_neg (Nat.not_lt.mpr hp)]
        exact ⟨_, rfl⟩
      unfold priceOf at hc
      refine ⟨m₁, ?_⟩
      dsimp only
      rw [bind_of_ok hs, bind_of_ok fork_ok, bind_of_ok hc, if_neg hne, power_of_le data _ _ _ he]
      rfl
  · have hs : (Exec.ofExcept (startAfter 96 (number data 0 32)) : Exec Nat) env m =
        .error (.fault .overflow) m := by
      rw [startAfter, if_neg hstart]
      rfl
    exact ⟨_, bind_of_error hs _⟩

end ModExp

namespace Pairing
open AltBn128
variable {env : Environment} {n k : Nat}

theorem point_safe {F : Type} [Coordinate F] (x y : F) :
    Safe env (Sized n k) (point x y) fun p m => p.onCurve ∧ Sized n k m := by
  unfold point Point.make
  dsimp only
  by_cases h : (Point.mk x y).onCurve
  · rw [if_pos h]
    exact ⟨fun _ hm => ⟨h, hm⟩⟩
  · rw [if_neg h]
    exact safe_halt

theorem size_encode (p : Point Base) : (encode p).size = 64 := by
  unfold encode
  rw [ByteArray.size_append, Bytes.size_ofNat, Bytes.size_ofNat]

theorem add_safe (data : Bytes) :
    Safe env (Sized n k) (add data) fun out m => out.size < Word.limit ∧ Sized n k m := by
  refine .after fun _ => .after fun _ => .after fun _ => .after fun _ => .after fun _ =>
    .after fun _ => (point_safe _ _).bind fun _ => .of_fact fun hp => (point_safe _ _).bind
      fun _ => .of_fact fun hq => ?_
  obtain ⟨r, hr, -⟩ := Point.add_base hp hq
  refine .of_except hr ⟨fun _ hm => ⟨?_, hm⟩⟩
  rw [size_encode]
  decide

theorem mulBy_ok {p : Point Base} (hp : p.onCurve) (n : Nat) : ∃ r, p.mulBy n = .ok r :=
  (Point.mulBy_base hp n).imp fun _ h => h.1

theorem mul_safe (data : Bytes) :
    Safe env (Sized n k) (mul data) fun out m => out.size < Word.limit ∧ Sized n k m := by
  refine .after fun _ => .after fun _ => .after fun _ => .after fun _ =>
    (point_safe _ _).bind fun p => .of_fact fun hp => ?_
  obtain ⟨r, hr⟩ := mulBy_ok hp _
  refine .of_except hr ⟨fun _ hm => ⟨?_, hm⟩⟩
  rw [size_encode]
  decide

theorem pairAt_safe (data : Bytes) (start : Nat) (acc : Dodecic) :
    Retains env n k (pairAt data start acc) := by
  refine .after fun _ => .after fun _ => .after fun _ => .after fun _ => .after fun _ =>
    .after fun _ => (point_safe _ _).bind fun _ => .of_fact fun hp => (point_safe _ _).bind
      fun _ => .of_fact fun hq => ?_
  obtain ⟨r, hr⟩ := mulBy_ok hp order
  obtain ⟨t, ht⟩ := Point.twistMulBy_ok hq order
  obtain ⟨v, hv⟩ := pairing_ok hq hp
  exact .of_except hr <| .unless fun _ => .of_except ht <| .unless fun _ =>
    .ite (fun _ => safe_pure) fun _ => .of_except hv safe_pure

instance product_retained (data : Bytes) (pairs start : Nat) (acc : Dodecic) :
    Made (.retaining env n k) (product data pairs start acc) := by
  induction pairs generalizing start acc with
  | zero => exact ⟨safe_pure⟩
  | succ pairs ih => exact ⟨(pairAt_safe data start acc).bind fun v => (ih _ v).safe⟩

theorem check_safe (data : Bytes) :
    Safe env (Sized n k) (check data) fun out m => out.size < Word.limit ∧ Sized n k m := by
  refine .after fun _ => .after fun _ => .unless fun _ => .after fun _ => ⟨fun _ hm => ⟨?_, hm⟩⟩
  rw [size_fixedBytes]
  decide

end Pairing

namespace Precompile
variable {env : Environment} {n k : Nat} {m : Machine}

theorem blake2f_safe (data : Bytes) :
    Safe env (Sized n k) (Digest.blake2f data) fun out m =>
      out.size < Word.limit ∧ Sized n k m := by
  unfold Digest.blake2f
  refine .unless fun hsize => .after fun _ => .unless fun _ => ⟨fun m hm => ?_⟩
  rw [Blake2b.ofBytes_eq (not_not.mp hsize), Blake2b.compress_ofWords]
  refine ⟨?_, hm⟩
  rw [Blake2b.size_littleEndian]
  decide

theorem pointEvaluation_safe (data : Bytes) :
    Safe env (Sized n k) (Digest.pointEvaluation data) fun out m =>
      out.size < Word.limit ∧ Sized n k m := by
  unfold Digest.pointEvaluation
  refine .unless fun _ => .after fun _ => .unless fun _ => .after fun _ =>
    .ite (fun _ => ⟨fun _ hm => ⟨?_, hm⟩⟩) fun _ => safe_halt
  unfold Digest.evaluationResult
  rw [ByteArray.size_append, Bytes.size_ofNat, Bytes.size_ofNat]
  decide

theorem answer_safe (p : Precompile) {gas : Nat} {data : Bytes} (hd : data.size < Word.limit)
    (hg : gas < Nat.pow 2 64) (ho : p = .modexp → ¬ModExp.Overflows env.fork gas data) :
    Safe env (ModExp.Endowed gas n k) (p.answer data) fun out m =>
      out.size < Word.limit ∧ Sized n k m := by
  have hsized {op : Exec Bytes} (h : Safe env (Sized n k) op fun out m =>
      out.size < Word.limit ∧ Sized n k m) :
      Safe env (ModExp.Endowed gas n k) op fun out m => out.size < Word.limit ∧ Sized n k m :=
    h.pre fun _ hm => hm.2
  have hword (base perWord : Nat) {output : Bytes} (h : output.size < Word.limit) :
      Safe env (ModExp.Endowed gas n k) (do
        Digest.chargeByWords base perWord data
        return output) fun out m => out.size < Word.limit ∧ Sized n k m :=
    hsized (.after (x := chargeGas _) fun _ => ⟨fun _ hm => ⟨h, hm⟩⟩)
  cases p with
  | ecrecover =>
    refine hsized (.after fun _ => ?_)
    cases Digest.signer? data with
    | none => exact ⟨fun _ hm => ⟨by decide, hm⟩⟩
    | some address =>
      refine ⟨fun _ hm => ⟨?_, hm⟩⟩
      rw [size_fixedBytes]
      decide
  | sha256 =>
    refine hword _ _ ?_
    rw [size_sha256]
    decide
  | ripemd160 =>
    refine hword _ _ (Nat.lt_of_le_of_lt (Bytes.size_padLeft_le _ _) ?_)
    rw [size_ripemd160]
    decide
  | identity => exact hword _ _ hd
  | modexp => exact ModExp.run_safe data hg (ho rfl)
  | curveAdd => exact hsized (Pairing.add_safe data)
  | curveMul => exact hsized (Pairing.mul_safe data)
  | pairingCheck => exact hsized (Pairing.check_safe data)
  | blake2f => exact hsized (blake2f_safe data)
  | pointEvaluation => exact hsized (pointEvaluation_safe data)

theorem run_sound (p : Precompile) (hm : Sized n k m)
    (ho : p = .modexp → ¬ModExp.Overflows env.fork m.frame.message.gas m.frame.message.data) :
    Sound (fun _ => Fit) (p.run env m) := by
  unfold run
  rw [bind_of_ok message_ok]
  refine ((answer_safe p hm.data hm.gas ho).sound m ⟨rfl, hm⟩).bind fun out m₁ _ h => ?_
  exact Sized.fit { h.2 with output := h.1 }

theorem run_modexp_error (hu : m.world.tracer = none) (hg : m.frame.gasLeft < Word.limit)
    (ho : ModExp.Overflows env.fork m.frame.gasLeft m.frame.message.data) :
    ∃ m', run .modexp env m = .error (.fault .overflow) m' := by
  obtain ⟨m', h⟩ := ModExp.run_error hu hg ho
  refine ⟨m', ?_⟩
  unfold run
  rw [bind_of_ok message_ok]
  exact bind_of_error h _

end Precompile

end Evm

end ExecutionLayer
