import ExecutionLayer.Proofs.Evm.Answer
import ExecutionLayer.Proofs.Evm.Contracts

/-! # Powers by contract

The contract for modular exponentiation reads six numbers from an input that goes on with zeros for
ever. Its price keeps the lengths small enough for all places to be words, but before Berlin not so
small that the length of an exponent would always be the size of a byte string.
-/
namespace ExecutionLayer.Evm
namespace ModExp

section Numbers
variable (data : Bytes)

def baseLength : Nat := data.numberAt 0 32

def exponentLength : Nat := data.numberAt 32 32

def modulusLength : Nat := data.numberAt 64 32

def base : Nat := data.numberAt 96 (baseLength data)

def exponent : Nat := data.numberAt (96 + baseLength data) (exponentLength data)

def modulus : Nat :=
  data.numberAt (96 + baseLength data + exponentLength data) (modulusLength data)

def Fits : Prop := exponentLength data + Capacity.overhead < Capacity.limit

/-- The output is the power, in as many bytes as the modulus has. -/
structure Answers (output : Bytes) : Prop where
  size : output.size = modulusLength data
  power : 0 < modulus data → output.toNat = base data ^ exponent data % modulus data
  fits : 0 < modulus data → base data ^ exponent data % modulus data < 256 ^ modulusLength data
  zeros : modulus data = 0 → output = .zeros (modulusLength data)

end Numbers

theorem number_eq (data : Bytes) (start size : Nat) :
    number data start size = data.numberAt start size := data.toNat_read start size

theorem priceOf_eq (fork : Fork) (data : Bytes) : priceOf fork data =
    cost fork (baseLength data) (modulusLength data) (exponentLength data)
      (data.numberAt (96 + baseLength data) (min 32 (exponentLength data))) := by
  unfold priceOf
  simp only [number_eq]
  rfl

section Paid
variable {data : Bytes}

theorem power_of_fits (hb : baseLength data < Nat.pow 2 40) (hm : modulusLength data < Nat.pow 2 40)
    (hstart : 96 + baseLength data + exponentLength data < Word.limit) (hfits : Fits data) :
    ∃ output, Answers data output ∧ power data (baseLength data) (96 + baseLength data)
      (exponentLength data) (modulusLength data) = .ok output := by
  refine ⟨_, ?_, power_of_lt data hb hm hfits hstart⟩
  simp only [number_eq]
  change Answers data (if modulus data = 0 then .zeros (modulusLength data)
    else .ofNat (modulusLength data) (powMod (base data) (exponent data) (modulus data)))
  by_cases hzero : modulus data = 0
  · rw [if_pos hzero]
    have hpos : ¬0 < modulus data := by omega
    exact ⟨Bytes.size_zeros _, fun h => absurd h hpos, fun h => absurd h hpos, fun _ => rfl⟩
  · have hpos : 0 < modulus data := Nat.pos_of_ne_zero hzero
    have hlt : base data ^ exponent data % modulus data < 256 ^ modulusLength data :=
      (Nat.mod_lt _ hpos).trans (Bytes.numberAt_lt data _ _)
    rw [if_neg hzero, powMod_eq hpos]
    exact ⟨Bytes.size_ofNat _ _, fun _ => Bytes.toNat_ofNat hlt, fun _ => hlt,
      fun h => absurd h hzero⟩

theorem run_of_paid {env : Environment} {m : Machine} (hstep : m.world.AtStep)
    (hplace : 96 + baseLength data < Word.limit) (hprice : priceOf env.fork data ≤ m.frame.gasLeft)
    (hgas : m.frame.gasLeft < Nat.pow 2 64) : ∃ w : World, w.AtStep ∧ run data env m =
      (if baseLength data = 0 ∧ modulusLength data = 0 then pure ByteArray.empty
        else Exec.ofExcept (power data (baseLength data) (96 + baseLength data)
          (exponentLength data) (modulusLength data)) : Exec Bytes) env
        ⟨{ m.frame with gasLeft := m.frame.gasLeft - priceOf env.fork data }, w⟩ := by
  have hword : Nat.pow 2 64 < Word.limit := by decide
  obtain ⟨w, hcharge, hstep'⟩ := Exec.chargeGas_ok env hstep hprice (by omega)
  have hstart : (Exec.ofExcept (startAfter 96 (baseLength data)) : Exec Nat) env m =
      .ok (96 + baseLength data) m := by
    rw [startAfter, if_pos hplace]
    rfl
  rw [priceOf_eq] at hcharge ⊢
  refine ⟨w, hstep', ?_⟩
  unfold run
  simp only [number_eq]
  rw [← baseLength, ← exponentLength, ← modulusLength, bind_of_ok hstart, bind_of_ok fork_ok,
    bind_of_ok hcharge]

end Paid

end ModExp

theorem Precompile.at?_modexp {fork : Fork} (h : Fork.byzantium ≤ fork) :
    Precompile.at? fork Precompile.modexp.address = some .modexp := by
  revert h
  cases fork <;> decide

/-- A message that asks for a power and pays for it. -/
structure ModExp.Asks (env : Environment) (message : Message) : Prop where
  address : message.codeAddress = some Precompile.modexp.address
  fork : Fork.byzantium ≤ env.fork
  gas : message.gas < Nat.pow 2 64
  place : 96 + ModExp.baseLength message.data < Word.limit
  price : ModExp.priceOf env.fork message.data ≤ message.gas

/-- The frame of a message succeeds for the price of the power, with such an output. -/
def ModExp.Succeeds (runner : Runner) (message : Message) (env : Environment) (w : World)
    (P : Bytes → Prop) : Prop :=
  ∃ frame w', runFrame runner message env w = .ok frame w' ∧ frame.error = none ∧
    frame.gasLeft = message.gas - ModExp.priceOf env.fork message.data ∧ P frame.output

section Contract
open ModExp
variable {env : Environment} {message : Message}

theorem ModExp.Asks.contract (h : Asks env message) : message.precompile? env = some .modexp := by
  rw [Message.precompile?, h.address]
  exact Precompile.at?_modexp h.fork

theorem ModExp.Asks.bounds (h : Asks env message)
    (hne : ¬(baseLength message.data = 0 ∧ modulusLength message.data = 0)) :
    max (baseLength message.data) (modulusLength message.data) < Nat.pow 2 40 ∧
      (Fork.berlin ≤ env.fork →
        exponentLength message.data + Capacity.overhead < Capacity.limit) ∧
      exponentLength message.data < Nat.pow 2 70 := by
  have hcost := Nat.lt_of_le_of_lt h.price h.gas
  rw [priceOf_eq] at hcost
  exact bounds_of_cost hne hcost

theorem ModExp.Asks.places (h : Asks env message)
    (hne : ¬(baseLength message.data = 0 ∧ modulusLength message.data = 0)) :
    96 + baseLength message.data + exponentLength message.data < Word.limit := by
  obtain ⟨hlengths, -, hexponent⟩ := h.bounds hne
  have hword : 96 + Nat.pow 2 40 + Nat.pow 2 70 < Word.limit := by decide
  omega

theorem ModExp.Asks.succeeds (h : Asks env message) {output : Bytes} {P : Bytes → Prop}
    (hP : P output) (houtput : ∀ m : Machine,
      (if baseLength message.data = 0 ∧ modulusLength message.data = 0 then pure ByteArray.empty
        else Exec.ofExcept (power message.data (baseLength message.data)
          (96 + baseLength message.data) (exponentLength message.data)
          (modulusLength message.data)) : Exec Bytes) env m = .ok output m)
    (runner : Runner) (w : World) : Succeeds runner message env w P := by
  have hanswer (w : World) (hstep : w.AtStep) : ∃ w' : World, w'.AtStep ∧
      Precompile.modexp.answer message.data env ⟨.ofMessage message, w⟩ = .ok output
        ⟨{ Frame.ofMessage message with
          gasLeft := message.gas - priceOf env.fork message.data }, w'⟩ := by
    obtain ⟨w', hstep', hrun⟩ :=
      run_of_paid (m := ⟨.ofMessage message, w⟩) hstep h.place h.price h.gas
    exact ⟨w', hstep', hrun.trans (houtput _)⟩
  obtain ⟨w', hrun⟩ := runFrame_of_answer h.contract hanswer runner w
  exact ⟨_, w', hrun, rfl, rfl, hP⟩

theorem ModExp.Asks.faults (h : Asks env message)
    (hne : ¬(baseLength message.data = 0 ∧ modulusLength message.data = 0))
    (hfits : ¬Fits message.data) (runner : Runner) (w : World) :
    ∃ w', runFrame runner message env w = .error (.fault .overflow) w' := by
  refine runFrame_of_fault h.contract (fun w hstep => ?_) runner w
  obtain ⟨w', -, hrun⟩ := run_of_paid (m := ⟨.ofMessage message, w⟩) hstep h.place h.price h.gas
  rw [if_neg hne, power_of_le _ _ _ _ (Nat.le_of_not_lt hfits)] at hrun
  exact ⟨_, hrun⟩

end Contract

/-- A message that pays for a power gets it, written in as many bytes as the modulus has, or no bytes
if base and modulus have none. No place of a number exceeds a word. Only where the length of the
exponent is no size of byte strings there is an overflow, which the price rules out from Berlin
on. -/
theorem powers_by_contract (runner : Runner) (message : Message) (env : Environment) (w : World)
    (h : ModExp.Asks env message) :
    (ModExp.baseLength message.data = 0 ∧ ModExp.modulusLength message.data = 0 →
      ModExp.Succeeds runner message env w (· = ByteArray.empty)) ∧
    (¬(ModExp.baseLength message.data = 0 ∧ ModExp.modulusLength message.data = 0) →
      96 + ModExp.baseLength message.data + ModExp.exponentLength message.data < Word.limit ∧
      (ModExp.Fits message.data →
        ModExp.Succeeds runner message env w (ModExp.Answers message.data)) ∧
      (¬ModExp.Fits message.data →
        ∃ w', runFrame runner message env w = .error (.fault .overflow) w') ∧
      (Fork.berlin ≤ env.fork → ModExp.Fits message.data)) := by
  refine ⟨fun hempty => ?_, fun hne => ⟨h.places hne, fun hfits => ?_,
    fun hfits => h.faults hne hfits runner w, (h.bounds hne).2.1⟩⟩
  · refine h.succeeds (P := (· = ByteArray.empty)) rfl (fun m => ?_) runner w
    rw [if_pos hempty]
    rfl
  · have hlengths := (h.bounds hne).1
    obtain ⟨output, hanswers, hpower⟩ :=
      ModExp.power_of_fits (by omega) (by omega) (h.places hne) hfits
    refine h.succeeds hanswers (fun m => ?_) runner w
    rw [if_neg hne, hpower]
    rfl

def fifthPower : Message := { (default : Message) with
  gas := 1000
  codeAddress := some Precompile.modexp.address
  data := Bytes.ofNat 32 1 ++ Bytes.ofNat 32 1 ++ Bytes.ofNat 32 1 ++ Bytes.ofNat 3 0x030507 }

set_option maxRecDepth 2000 in
theorem powers_by_contract_fifth :
    let env := { (default : Environment) with fork := .byzantium }
    ModExp.Asks env fifthPower ∧ ModExp.Fits fifthPower.data ∧
    ∃ frame w', runFrame runMessage fifthPower env { state := {} } = .ok frame w' ∧
      frame.error = none ∧ frame.output.size = 1 ∧ frame.output.toNat = 3 ^ 5 % 7 := by
  intro env
  obtain ⟨hb, he, hm⟩ : ModExp.baseLength fifthPower.data = 1 ∧
      ModExp.exponentLength fifthPower.data = 1 ∧ ModExp.modulusLength fifthPower.data = 1 := by
    decide
  obtain ⟨hbase, hexponent, hmodulus⟩ : ModExp.base fifthPower.data = 3 ∧
      ModExp.exponent fifthPower.data = 5 ∧ ModExp.modulus fifthPower.data = 7 := by
    decide
  have hprice : ModExp.priceOf .byzantium fifthPower.data = 0 := by
    rw [ModExp.priceOf_eq]
    decide
  have hasks : ModExp.Asks env fifthPower :=
    ⟨rfl, by decide, by decide, by rw [hb]; decide, hprice.trans_le (Nat.zero_le _)⟩
  have hfits : ModExp.Fits fifthPower.data := by
    rw [ModExp.Fits, he]
    decide
  obtain ⟨-, h⟩ := powers_by_contract runMessage fifthPower env { state := {} } hasks
  obtain ⟨-, hsucceeds, -, -⟩ := h (by rw [hb]; decide)
  obtain ⟨frame, w', hrun, herror, -, hanswers⟩ := hsucceeds hfits
  have hsize := hanswers.size
  have hpower := hanswers.power (by rw [hmodulus]; decide)
  rw [hm] at hsize
  rw [hmodulus, hbase, hexponent] at hpower
  exact ⟨hasks, hfits, frame, w', hrun, herror, hsize, hpower⟩

def longExponent : Message := { (default : Message) with
  gas := 10000000000000000000
  codeAddress := some Precompile.modexp.address
  data := Bytes.ofNat 32 0 ++ Bytes.ofNat 32 18446744073709551616 ++ Bytes.ofNat 32 1 }

set_option maxRecDepth 2000 in
/-- Not each power that is paid for is computed. -/
theorem overflow_of_long_exponent :
    let env := { (default : Environment) with fork := .byzantium }
    ModExp.Asks env longExponent ∧ ModExp.modulusLength longExponent.data = 1 ∧
    ∃ w', runFrame runMessage longExponent env { state := {} } = .error (.fault .overflow) w' := by
  intro env
  obtain ⟨hb, he, hm⟩ : ModExp.baseLength longExponent.data = 0 ∧
      ModExp.exponentLength longExponent.data = 18446744073709551616 ∧
      ModExp.modulusLength longExponent.data = 1 := by
    decide
  have hprice : ModExp.priceOf .byzantium longExponent.data ≤ 10000000000000000000 := by
    have hhead : longExponent.data.numberAt (96 + 0) (min 32 18446744073709551616) = 0 := by decide
    rw [ModExp.priceOf_eq, hb, he, hm, hhead]
    decide
  have hasks : ModExp.Asks env longExponent :=
    ⟨rfl, by decide, by decide, by rw [hb]; decide, hprice⟩
  have hfits : ¬ModExp.Fits longExponent.data := by
    rw [ModExp.Fits, he]
    decide
  exact ⟨hasks, hm, hasks.faults (by rw [hb, hm]; decide) hfits runMessage { state := {} }⟩

end ExecutionLayer.Evm
