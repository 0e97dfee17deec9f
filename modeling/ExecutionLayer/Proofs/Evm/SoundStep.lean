import ExecutionLayer.Proofs.Evm.Sound

/-! # Instructions without faults

Every instruction leaves a frame that has paid for its memory as such a frame, and has no fault. One
has to be excepted: the hash of a block is asked for by a number to which 256 is added, and the sum
may be too large for a word.
-/
namespace ExecutionLayer.Evm
open Exec Step

structure Environment.Fits (env : Environment) : Prop where
  number : env.number < Word.limit
  gasLimit : env.gasLimit < Word.limit
  gasPrice : env.gasPrice < Word.limit
  difficulty : env.difficulty < Word.limit
  chainId : env.chainId < Word.limit
  baseFeePerGas : env.baseFeePerGas < Word.limit
  blobPrice : Gas.blobPrice env.excessBlobGas < Word.limit

/-- The numbers of the environment are words, and it has the hashes of the blocks before. -/
structure Environment.Complete (env : Environment) : Prop extends env.Fits where
  hashes : min env.number 256 ≤ env.blockHashes.length

namespace Step
variable {env : Environment} {n k : Nat}

/-! ## Computing -/

theorem binary_safe (cost : Nat) {f : Word → Word → Except Fault Word}
    (h : ∀ x y, ∃ z, f x y = .ok z) : EndsFit env n k (binary cost f) := by
  refine .after fun x => .after fun y => .after fun _ => ?_
  obtain ⟨z, hz⟩ := h x y
  exact .of_except hz inferInstance

theorem ternary_safe (cost : Nat) {f : Word → Word → Word → Except Fault Word}
    (h : ∀ x y z, ∃ v, f x y z = .ok v) : EndsFit env n k (ternary cost f) := by
  refine .after fun x => .after fun y => .after fun z => .after fun _ => ?_
  obtain ⟨v, hv⟩ := h x y z
  exact .of_except hv inferInstance

theorem exp_safe : EndsFit env n k exp := by
  refine .after fun x => .after fun y => .after fun _ => .after fun _ => ?_
  obtain ⟨z, hz⟩ := Arithmetic.exp_ok x y
  exact .of_except hz inferInstance

theorem compute_safe (op : Opcode) : EndsFit env n k (compute op) := by
  cases op
  case exp => exact exp_safe
  case sdiv => exact binary_safe _ fun x y => ⟨_, Arithmetic.sdiv_eq x y⟩
  case smod => exact binary_safe _ fun x y => ⟨_, Arithmetic.smod_eq x y⟩
  case shl => exact binary_safe _ fun x y => ⟨_, Arithmetic.shl_eq x y⟩
  case sar => exact binary_safe _ fun x y => ⟨_, Arithmetic.sar_eq x y⟩
  case addmod => exact ternary_safe _ fun x y z => ⟨_, Arithmetic.addmod_eq x y z⟩
  case mulmod => exact ternary_safe _ fun x y z => ⟨_, Arithmetic.mulmod_eq x y z⟩
  all_goals
    dsimp only [compute, unary, binaryTotal]
    infer_instance

/-! ## Looking up -/

theorem queryNat_safe {value : Exec Nat}
    (h : Safe env (Sized n k) value fun v m => v < Word.limit ∧ Sized n k m) :
    EndsFit env n k (queryNat value) :=
  .after fun _ => h.bind fun _ => .of_fact fun hv => (pushNat_safe hv).bind fun _ => inferInstance

theorem queryAccount_safe (cost : Fork → Nat) {value : Account → Except Fault Word}
    (h : ∀ a : Account, a.code.size < Word.limit → ∃ v, value a = .ok v) :
    EndsFit env n k (queryAccount cost value) := by
  refine .after fun address => .after fun _ => .after fun _ =>
    state_known.bind fun s => .of_fact fun hs => ?_
  obtain ⟨m, hm, rfl⟩ := hs
  obtain ⟨v, hv⟩ := h _ (hm.codes address)
  exact .of_except hv inferInstance

theorem popNat_of_some {m : Machine} {x : Word} (hx : m.frame.stack.back? = some x) :
    popNat env m =
      .ok x.toNat { m with frame := { m.frame with stack := m.frame.stack.pop } } :=
  bind_of_ok (pop_of_some hx) _

theorem blockHash_of_some {m : Machine} {x : Word} (hu : m.world.tracer = none)
    (hlt : m.frame.gasLeft < Word.limit) (hx : m.frame.stack.back? = some x) :
    let m₁ : Machine := { m with frame := { m.frame with stack := m.frame.stack.pop } }
    blockHash env m =
      if m.frame.gasLeft < Gas.blockHash then .error (.halt .outOfGas) m₁
      else (do
        push (← ofExcept (blockHashOf env x.toNat))
        next) env { m₁ with frame := { m₁.frame with
          gasLeft := m.frame.gasLeft - Gas.blockHash } } := by
  intro m₁
  have hcharge : chargeGas Gas.blockHash env m₁ = _ := chargeGas_eq (m := m₁) hu hlt _
  rw [blockHash, bind_of_ok (popNat_of_some hx)]
  split at hcharge
  · next h => rw [if_pos h, bind_of_error hcharge]
  · next h =>
    rw [if_neg h, bind_of_ok hcharge]
    rfl

theorem blockHash_cases {m : Machine} (hm : Sized n k m) :
    Sound (fun _ => Fit) (blockHash env m) ∨
      ∃ x f, m.frame.stack.back? = some x ∧ Gas.blockHash ≤ m.frame.gasLeft ∧
        blockHashOf env x.toNat = .error f := by
  have hlimit : Nat.pow 2 64 < Word.limit := by decide
  have hlt : m.frame.gasLeft < Word.limit := by
    have := hm.gasLeft_lt
    omega
  cases hb : m.frame.stack.back? with
  | none =>
    have hpop : popNat env m = .error (.halt .stackUnderflow) m := bind_of_error (pop_of_none hb) _
    rw [blockHash, bind_of_error hpop]
    exact Or.inl hm.output
  | some x =>
    rw [blockHash_of_some hm.untraced hlt hb]
    split
    · exact Or.inl hm.output
    · next hpaid =>
      cases hhash : blockHashOf env x.toNat with
      | ok y =>
        have hpopped : Sized n k { m with frame := { m.frame with stack := m.frame.stack.pop } } :=
          { hm with }
        exact Or.inl ((inferInstance : EndsFit env n k (push y >>= fun _ => next)).sound _
          (hpopped.withGas (Nat.add_le_add_right (Nat.sub_le _ _) k)))
      | error f => exact Or.inr ⟨x, f, rfl, Nat.le_of_not_lt hpaid, hhash⟩

theorem blockHash_error {m : Machine} {x : Word} {f : Fault} (hu : m.world.tracer = none)
    (hlt : m.frame.gasLeft < Word.limit) (hx : m.frame.stack.back? = some x)
    (hpaid : Gas.blockHash ≤ m.frame.gasLeft) (hhash : blockHashOf env x.toNat = .error f) :
    ∃ m', blockHash env m = .error (.fault f) m' := by
  rw [blockHash_of_some hu hlt hx, if_neg (Nat.not_lt.mpr hpaid), hhash]
  exact ⟨_, rfl⟩

theorem lookUp_safe (henv : env.Fits) {op : Opcode} (hb : op ≠ .blockhash) (hpc : op ≠ .pc) :
    EndsFit env n k (lookUp op) := by
  have hnat {f : Machine → Nat} (h : ∀ m, Sized n k m → f m < Word.limit) {op : Exec Nat}
      (hop : ∀ m, op env m = .ok (f m) m) :
      Safe env (Sized n k) op fun v m => v < Word.limit ∧ Sized n k m := by
    refine ⟨fun m hm => ?_⟩
    rw [hop]
    exact ⟨h m hm, hm⟩
  have hc : EndsFit env n k (compute op) := compute_safe op
  cases op
  case address | caller | callvalue | origin | coinbase | timestamp | calldataload | blobhash
      | selfbalance =>
    dsimp only [lookUp, query, callDataLoad, blobHash, selfBalance]
    infer_instance
  case balance | extcodehash =>
    rw [lookUp]
    exact queryAccount_safe _ fun _ _ => ⟨_, rfl⟩
  case extcodesize =>
    rw [lookUp]
    exact queryAccount_safe _ fun _ h => ⟨_, Word.ofNat?_of_lt h⟩
  case blockhash => exact absurd rfl hb
  case pc => exact absurd rfl hpc
  case difficulty =>
    refine .after fun _ => .ite (fun _ => ?_) fun _ => ?_
    · dsimp only [query]
      infer_instance
    · exact queryNat_safe (hnat (fun _ _ => henv.difficulty) fun _ => rfl)
  case calldatasize => exact queryNat_safe (hnat (fun _ h => h.data) fun _ => rfl)
  case codesize => exact queryNat_safe (hnat (fun _ h => h.code) fun _ => rfl)
  case returndatasize => exact queryNat_safe (hnat (fun _ h => h.returnData) fun _ => rfl)
  case msize =>
    exact queryNat_safe (hnat (fun _ h => h.memory.trans_lt h.memory_lt_limit) fun _ => rfl)
  case gas =>
    refine queryNat_safe (hnat (fun m h => ?_) fun _ => rfl)
    exact (Nat.lt_of_le_of_lt (Nat.le_add_right _ _) h.gasLeft_lt).trans (by decide)
  case gasprice => exact queryNat_safe (hnat (fun _ _ => henv.gasPrice) fun _ => rfl)
  case number => exact queryNat_safe (hnat (fun _ _ => henv.number) fun _ => rfl)
  case gaslimit => exact queryNat_safe (hnat (fun _ _ => henv.gasLimit) fun _ => rfl)
  case chainid => exact queryNat_safe (hnat (fun _ _ => henv.chainId) fun _ => rfl)
  case basefee => exact queryNat_safe (hnat (fun _ _ => henv.baseFeePerGas) fun _ => rfl)
  case blobbasefee => exact queryNat_safe (hnat (fun _ _ => henv.blobPrice) fun _ => rfl)
  all_goals exact hc

/-! ## Memory -/

theorem write_safe {start size : Nat} {value : Bytes} (hv : value.size ≤ size)
    (h : size = 0 ∨ start + size ≤ n) : EndsFit env n k (do
      writeMemory start value
      next) :=
  (writeMemory_safe (by omega)).bind fun _ => inferInstance

theorem mstore_safe : EndsFit env n k mstore :=
  .after fun _ => .after fun _ => .expanding fun _ h =>
    write_safe (Bytes.size_ofNat 32 _).le (h _ (List.mem_singleton.mpr rfl))

theorem mstore8_safe : EndsFit env n k mstore8 :=
  .after fun _ => .after fun _ => .expanding fun _ h =>
    write_safe (Nat.le_refl 1) (h _ (List.mem_singleton.mpr rfl))

theorem mcopy_safe : EndsFit env n k mcopy :=
  .after fun _ => .after fun _ => .after fun _ => .expanding fun _ h =>
    (readMemory_size _ _).bind fun _ => .of_fact fun hv =>
      write_safe hv (h _ (List.mem_cons_of_mem _ (List.mem_singleton.mpr rfl)))

theorem copy_safe {source : Exec Bytes} [∀ n, Made (.retaining env n k) source] :
    EndsFit env n k (copy source) :=
  .after fun _ => .after fun _ => .after fun _ => .expanding fun _ h => .after fun _ =>
    write_safe (Bytes.size_read _ _ _).le (h _ (List.mem_singleton.mpr rfl))

theorem copyExternalCode_safe : EndsFit env n k copyExternalCode :=
  .after fun _ => .after fun _ => .after fun _ => .after fun _ => .after fun _ =>
    .expanding fun _ h => .after fun _ =>
      write_safe (Bytes.size_read _ _ _).le (h _ (List.mem_singleton.mpr rfl))

theorem copyReturnData_safe : EndsFit env n k copyReturnData := by
  refine .after fun destination => .after fun start => .after fun size =>
    (memoryExtension_safe _).bind fun e => .of_fact fun he => ?_
  refine (chargeGas_paid _).bind fun _ => .after fun f => .ite (fun _ => safe_halt) fun _ => ?_
  refine ((expandMemory_safe (k := k) he).pre fun _ h => h.le (by omega)).bind fun _ => ?_
  have hpart : (f.returnData.part start (start + size)).size ≤ size := by
    unfold Bytes.part
    rw [ByteArray.size_extract]
    omega
  exact write_safe hpart (he.covers _ (List.mem_singleton.mpr rfl))

/-! ## Storage -/

theorem startStorage_ok {s : State} (h : s.snapshots ≠ []) (a : Address) (key : Word) :
    ∃ x, s.startStorage a key = .ok x := by
  unfold State.startStorage
  split
  · exact ⟨0, rfl⟩
  · rw [List.getLast?_eq_some_getLast h]
    exact ⟨_, rfl⟩

theorem priceChange_safe (key new : Word) : Retains env n k (priceChange key new) := by
  refine .after fun _ => .after fun message => .after fun _ => .ite (fun _ => safe_pure) fun _ =>
    .after fun _ => .unless fun _ => state_known.bind fun s => .of_fact fun hs => ?_
  obtain ⟨m, hm, rfl⟩ := hs
  obtain ⟨x, hx⟩ := startStorage_ok hm.snapshots message.currentTarget key
  exact .of_except hx Made.safe

theorem setStorage_safe (key new : Word) : Safe env (Sized n k) (do
      let target := (← message).currentTarget
      onWorld (.onState .fault (State.step (·.setStorage target key new)))
      next) fun _ => Fit := by
  refine ⟨fun m hm => ?_⟩
  have htarget : (m.world.state.account? m.frame.message.currentTarget).isSome := hm.target
  let s : State := { m.world.state with
    storage := m.world.state.storage.set m.frame.message.currentTarget key new }
  have hset : onWorld (.onState .fault
      (State.step (·.setStorage m.frame.message.currentTarget key new))) env m =
        .ok () { m with world := { m.world with state := s } } := by
    simp only [onWorld, WorldOp.onState, State.step, State.setStorage, htarget, ↓reduceIte, s]
  rw [bind_of_ok message_ok, bind_of_ok hset]
  exact (inferInstance : EndsFit env n k next).sound _ (hm.world (.of_accounts rfl) rfl hm.untraced)

theorem sstore_safe : EndsFit env n k sstore :=
  .after fun key => .after fun new => (priceChange_safe key new).bind fun _ =>
    (modifyFrame_safe fun _ => rfl).bind fun _ => .after fun _ => .after fun _ =>
      setStorage_safe key new

theorem move_safe (henv : env.Fits) {op : Opcode} (hb : op ≠ .blockhash) (hpc : op ≠ .pc) :
    EndsFit env n k (move op) := by
  have hl := lookUp_safe (n := n) (k := k) henv hb hpc
  have (n i j : Nat) : Made (.retaining env n k) (modifyFrame fun f =>
      { f with stack := f.stack.swapIfInBounds i j }) := ⟨modifyFrame_safe fun _ => rfl⟩
  have (n : Nat) (topics : List Word) (data : Bytes) : Made (.retaining env n k) (modifyFrame fun f =>
      { f with logs := f.logs ++ [⟨f.message.currentTarget, topics, data⟩] }) :=
    ⟨modifyFrame_safe fun _ => rfl⟩
  have (g : Transient → Transient) : Made (.retaining env n k) (modifyTransient g) :=
    ⟨⟨fun _ h => h.world (.refl _) rfl h.untraced⟩⟩
  cases op
  case calldatacopy | codecopy => exact copy_safe
  case extcodecopy => exact copyExternalCode_safe
  case returndatacopy => exact copyReturnData_safe
  case mstore => exact mstore_safe
  case mstore8 => exact mstore8_safe
  case mcopy => exact mcopy_safe
  case sstore => exact sstore_safe
  case keccak | pop | mload | sload | tload | tstore | push | dup | swap | log =>
    dsimp only [move, keccak, dropTop, mload, sload, tload, tstore, pushImmediate, dup, swap, log]
    infer_instance
  all_goals exact hl

/-! ## Course -/

theorem setOutput_safe : Safe env (Sized n k) setOutput fun _ m => ∃ n', Sized n' k m :=
  .after fun _ => .after fun _ => .expanding fun n' _ => (readMemory_safe _ _).bind fun _ =>
    .of_fact fun ho => ⟨fun _ hm => ⟨n',
      { hm with output := Nat.lt_of_le_of_lt ho hm.memory_lt_limit }⟩⟩

theorem payDestruction_safe : Retains env n k payDestruction := by
  have (amount : Int) : Made (.retaining env n k) (addRefund amount) :=
    ⟨modifyFrame_safe fun _ => rfl⟩
  have : Made (.retaining env n k) (modifyFrame fun f =>
      { f with accountsToDelete := addressUnion f.accountsToDelete f.message.deletedAbove }) :=
    ⟨modifyFrame_safe fun _ => rfl⟩
  have : Made (.retaining env n k) payDestruction := by
    dsimp only [payDestruction, refundDestruction]
    infer_instance
  exact this.safe

theorem giveAway_safe (account beneficiary : Address) :
    Retains env n k (giveAway account beneficiary) := by
  refine ⟨fun m hm => ?_⟩
  rcases giveAway_cases env m account beneficiary with ⟨m', h, hg⟩ | ⟨f, m', h⟩
  · have hw := hm.world hg.sameCode hg.toLocal.snapshots (hg.tracer.trans hm.untraced)
    have hm' : m' = { m' with frame := _ } := congrArg (Machine.mk · m'.world) hg.frame
    rw [h, hm']
    exact { hw with }
  · rw [h]
    trivial

theorem selfdestruct_safe : EndsFit env n k selfdestruct := by
  have (address : Address) : Made (.retaining env n k) (touchIfEmpty address) := by
    have : Made (.retaining env n k) (modifyFrame fun f =>
      { f with touchedAccounts := f.touchedAccounts.insert address }) :=
        ⟨modifyFrame_safe fun _ => rfl⟩
    unfold touchIfEmpty
    infer_instance
  exact payDestruction_safe.bind fun _ => .after fun _ => (giveAway_safe _ _).bind fun _ =>
    inferInstance

theorem executeAlone_safe (henv : env.Fits) {op : Opcode} (hb : op ≠ .blockhash) (hpc : op ≠ .pc) :
    EndsFit env n k (executeAlone op) := by
  have hm := move_safe (n := n) (k := k) henv hb hpc
  cases op
  case ret => exact setOutput_safe.bind fun _ => .of_exists fun _ => inferInstance
  case revert => exact setOutput_safe.bind fun _ => .of_exists fun _ => safe_halt
  case selfdestruct => exact selfdestruct_safe
  case stop | jump | jumpi | jumpdest =>
    have (place : Nat) : Made (.retaining env n k) (modifyFrame fun f => { f with pc := place }) :=
      ⟨modifyFrame_safe fun _ => rfl⟩
    dsimp only [executeAlone, stop, jump, jumpi, jumpdest, jumpTo]
    infer_instance
  all_goals exact hm

end Step

/-! ## Frames that are asked for -/

structure Message.Fits (message : Message) : Prop where
  code : message.code.size < Word.limit
  data : message.data.size < Word.limit

/-- What is known when an instruction is done, up to the frame that it asks for. The gas of that
frame is paid, and so is the memory that its output goes to. -/
def Requested : Option Pending → Machine → Prop
  | none, m => Fit m
  | some pending, m => pending.message.Fits ∧ ∃ n, Sized n pending.message.gas m ∧
      (pending.outputSize = 0 ∨ pending.outputStart + pending.outputSize ≤ n)

namespace Step
variable {env : Environment} {n k : Nat}

theorem decline_safe : Safe env (Sized n k) decline Requested :=
  .after fun _ => (inferInstance : EndsFit env n k next).bind fun _ => ⟨fun _ h => h⟩

theorem addGas_safe (gas : Nat) : Safe env (Sized n (k + gas)) (addGas gas) fun _ => Sized n k :=
  ⟨fun _ hm => hm.withGas (by omega)⟩

theorem addGas_decline_safe (gas : Nat) : Safe env (Sized n gas) (do
    addGas gas
    decline) Requested := by
  have hg : Safe env (Sized n (0 + gas)) (addGas gas) fun _ => Sized n 0 := addGas_safe gas
  rw [Nat.zero_add] at hg
  exact hg.bind fun _ => decline_safe

theorem setReturnData_safe {b : Bytes} (h : b.size < Word.limit) :
    Retains env n k (setReturnData b) :=
  ⟨fun _ hm => { hm with returnData := h }⟩

theorem empty_size_lt : ByteArray.empty.size < Word.limit := by decide

/-! ### Calls -/

theorem enter_safe (c : Call) {r : Ranges}
    (hr : r.outputSize = 0 ∨ r.outputStart + r.outputSize ≤ n) :
    Safe env (Sized n c.gas) (enter c r) Requested := by
  refine (setReturnData_safe empty_size_lt).bind fun _ => .after fun parent =>
    .ite (fun _ => ?_) fun _ => ?_
  · exact addGas_decline_safe c.gas
  · refine (readMemory_safe _ _).bind fun data => .of_fact fun hd => ?_
    refine ⟨fun m hm => ⟨⟨hm.codes c.codeAddress, ?_⟩, n, hm, hr⟩⟩
    exact Nat.lt_of_le_of_lt hd hm.memory_lt_limit

theorem enterWithValue_safe (c : Call) {r : Ranges}
    (hr : r.outputSize = 0 ∨ r.outputStart + r.outputSize ≤ n) :
    Safe env (Sized n c.gas) (enterWithValue c r) Requested := by
  refine .after fun _ => .ite (fun _ => ?_) fun _ => enter_safe c hr
  exact (setReturnData_safe empty_size_lt).bind fun _ => addGas_decline_safe c.gas

theorem priceCall_safe (gas value memoryCost : Nat) (codeAddress : Address) (createCost : Nat) :
    Safe env (Sized n k) (priceCall gas value memoryCost codeAddress createCost) fun price m =>
      price.stipend ≤ price.cost ∧ Sized n k m := by
  refine ⟨fun m hm => ?_⟩
  have hs : Sound (fun _ => Sized n k) (priceCall gas value memoryCost codeAddress createCost env m) :=
    Made.safe.sound m hm
  rcases h : priceCall gas value memoryCost codeAddress createCost env m with
    ⟨price, m'⟩ | ⟨e | f | f, m'⟩
  · rw [h] at hs
    exact ⟨(priceCall_lt _ _ _ _ _ env m price m' h).le, hs⟩
  · rw [h] at hs
    exact hs
  · rw [h] at hs
    exact hs
  · trivial

theorem priceCall_bind_safe {gas value createCost : Nat} {codeAddress : Address}
    {e : Gas.Extension} {f : Gas.CallGas → Exec (Option Pending)}
    (hf : ∀ price k, price.stipend ≤ k → Safe env (Sized n (k + e.cost)) (f price) Requested) :
    Safe env (Sized n 0) (do
      let price ← priceCall gas value e.cost codeAddress createCost
      chargeGas (price.cost + e.cost)
      f price) Requested := by
  refine (priceCall_safe _ _ _ _ _).bind fun price => .of_fact fun hp => ?_
  refine (chargeGas_paid _).bind fun _ => ?_
  exact (hf price price.cost hp).pre fun _ hm => hm.le (by omega)

theorem expand_bind_safe {r : Ranges} {e : Gas.Extension} (he : e.Covers n r.toList)
    {stipend : Nat} (hk : stipend ≤ k) {f : Exec (Option Pending)}
    (hf : ∀ n', (r.outputSize = 0 ∨ r.outputStart + r.outputSize ≤ n') →
      Safe env (Sized n' stipend) f Requested) :
    Safe env (Sized n (k + e.cost)) (do
      expandMemory e.expandBy
      f) Requested := by
  refine (expandMemory_safe he).bind fun _ => ?_
  refine (hf _ (he.covers (r.outputStart, r.outputSize) ?_)).pre fun _ hm => hm.le hk
  exact List.mem_cons_of_mem _ (List.mem_singleton.mpr rfl)

theorem call_safe : Safe env (Sized n 0) call Requested := by
  refine .after fun gas => .after fun target => .after fun value => .after fun r =>
    (memoryExtension_safe _).bind fun e => .of_fact fun he => .after fun _ => .after fun _ => ?_
  refine priceCall_bind_safe fun price k hk => ?_
  have hrest : Safe env (Sized n (k + e.cost)) (do
      expandMemory e.expandBy
      let current := (← message).currentTarget
      enterWithValue ⟨price.stipend, value, current, target, target, true, false⟩ r) Requested :=
    expand_bind_safe he hk fun n' hr => .after fun _ =>
      enterWithValue_safe ⟨price.stipend, _, _, _, _, _, _⟩ hr
  exact .ite (fun _ => .after fun _ => hrest) fun _ => hrest

theorem callcode_safe : Safe env (Sized n 0) callcode Requested := by
  refine .after fun gas => .after fun codeAddress => .after fun value => .after fun r =>
    (memoryExtension_safe _).bind fun e => .of_fact fun he => .after fun m => .after fun _ =>
      .after fun _ => ?_
  refine priceCall_bind_safe fun price k hk => expand_bind_safe he hk fun n' hr => ?_
  exact enterWithValue_safe ⟨price.stipend, _, _, _, _, _, _⟩ hr

theorem delegatecall_safe : Safe env (Sized n 0) delegatecall Requested := by
  refine .after fun gas => .after fun codeAddress => .after fun r =>
    (memoryExtension_safe _).bind fun e => .of_fact fun he => ?_
  refine priceCall_bind_safe fun price k hk => expand_bind_safe he hk fun n' hr => ?_
  exact .after fun m => enter_safe ⟨price.stipend, _, _, _, _, _, _⟩ hr

theorem staticcall_safe : Safe env (Sized n 0) staticcall Requested := by
  refine .after fun gas => .after fun target => .after fun r =>
    (memoryExtension_safe _).bind fun e => .of_fact fun he => ?_
  refine priceCall_bind_safe fun price k hk => expand_bind_safe he hk fun n' hr => ?_
  exact .after fun m => enter_safe ⟨price.stipend, _, _, _, _, _, _⟩ hr

/-! ### Creation -/

theorem incrementNonce_safe (address : Address) :
    Retains env n k (modifyState (·.incrementNonce address)) :=
  ⟨fun _ hm => hm.world State.sameCode_incrementNonce rfl hm.untraced⟩

theorem withdrawCreateGas_safe :
    Safe env (Sized n 0) withdrawCreateGas fun gas => Sized n gas := by
  refine ⟨fun m hm => ?_⟩
  have hmax : Gas.maxCallGas m.frame.gasLeft ≤ m.frame.gasLeft := Nat.sub_le _ _
  let gas := if Fork.tangerineWhistle ≤ env.fork then Gas.maxCallGas m.frame.gasLeft
    else m.frame.gasLeft
  have hle : gas ≤ m.frame.gasLeft := by
    dsimp only [gas]
    split <;> omega
  exact hm.withGas (by omega)

theorem createAt_safe (endowment : Word) (address : Address) (start size : Nat) :
    Safe env (Sized n 0) (createAt endowment address start size) Requested := by
  refine .after fun _ => (readMemory_safe _ _).bind fun initCode => .of_fact fun hcode =>
    .unless fun _ => ?_
  have hrest : Safe env (Sized n 0) (withdrawCreateGas >>= createTail endowment address initCode)
      Requested := by
    refine withdrawCreateGas_safe.bind fun gas => .after fun _ =>
      (setReturnData_safe empty_size_lt).bind fun _ => .after fun m => .after fun _ =>
        .ite (fun _ => ?_) fun _ => ?_
    · exact addGas_decline_safe gas
    · refine .after fun _ => .ite (fun _ => ?_) fun _ => ?_
      · exact (incrementNonce_safe _).bind fun _ => decline_safe
      · refine (incrementNonce_safe _).bind fun _ => ⟨fun m hm => ⟨⟨?_, empty_size_lt⟩, n, hm, ?_⟩⟩
        · exact Nat.lt_of_le_of_lt hcode hm.memory_lt_limit
        · exact Or.inl rfl
  exact .ite (fun _ => .after fun _ => hrest) fun _ => hrest

theorem create_safe : Safe env (Sized n 0) create Requested :=
  .after fun _ => .after fun _ => .after fun _ => .after fun _ => .expanding fun _ _ =>
    .after fun _ => .after fun _ => createAt_safe _ _ _ _

theorem create2_safe : Safe env (Sized n 0) create2 Requested :=
  .after fun _ => .after fun _ => .after fun _ => .after fun _ => .after fun _ =>
    .expanding fun _ _ => .after fun _ => .after fun _ => createAt_safe _ _ _ _

theorem execute_safe (henv : env.Fits) {op : Opcode} (hb : op ≠ .blockhash) (hpc : op ≠ .pc) :
    Safe env (Sized n 0) (execute op) Requested := by
  have ha : Safe env (Sized n 0) (do executeAlone op; return none) Requested :=
    (executeAlone_safe henv hb hpc).bind fun _ => ⟨fun _ h => h⟩
  cases op
  case create => exact create_safe
  case call => exact call_safe
  case callcode => exact callcode_safe
  case delegatecall => exact delegatecall_safe
  case create2 => exact create2_safe
  case staticcall => exact staticcall_safe
  all_goals exact ha

end Step

/-! ## The instruction at the current place -/

/-- The next instruction asks, and can pay, for the hash of the block of the given number, which
comes before the current one. -/
structure AsksHash (env : Environment) (m : Machine) (number : Nat) : Prop where
  active : m.IsActive
  opcode : m.opcode? env = some .blockhash
  top : m.frame.stack.back?.map BitVec.toNat = some number
  before : number < env.number
  paid : Gas.blockHash ≤ m.frame.gasLeft

def AsksFarBack (env : Environment) (m : Machine) : Prop :=
  ∃ number, AsksHash env m number ∧ Word.limit ≤ number + 256

section Fetch
variable {env : Environment} {n k : Nat} {m : Machine}

theorem queryNat_pc_sound (hm : Sized n k m) (hpc : m.frame.pc < Word.limit) :
    Sound (fun _ => Fit) (queryNat (do return (← frame).pc) env m) := by
  unfold queryNat
  have hs : Sound (fun _ => Sized n k) (chargeGas Gas.base env m) := Made.safe.sound m hm
  refine hs.bind fun _ m₁ hcharge hm₁ => ?_
  have hsame := ((chargeGas_rests Gas.base).sustained.of_ok hcharge).pc
  have hframe : (do return (← frame).pc : Exec Nat) env m₁ = .ok m₁.frame.pc m₁ := rfl
  rw [bind_of_ok hframe, hsame]
  exact ((pushNat_safe hpc).bind fun _ => inferInstance).sound m₁ hm₁

theorem blockHashOf_of_farBack {number : Nat} (h : number < env.number)
    (hfar : Word.limit ≤ number + 256) : blockHashOf env number = .error .overflow := by
  rw [blockHashOf, if_neg (Nat.not_le.mpr h), if_pos hfar]

theorem farBack_of_blockHashOf {number : Nat} {f : Fault} (henv : env.Complete)
    (h : blockHashOf env number = .error f) : number < env.number ∧ Word.limit ≤ number + 256 := by
  have hhashes := henv.hashes
  unfold blockHashOf at h
  dsimp only at h
  grind

theorem fetch_of_farBack (hu : m.world.tracer = none) (hg : m.frame.gasLeft < Word.limit)
    (h : AsksFarBack env m) : ∃ m', fetch env m = .error (.fault .overflow) m' := by
  obtain ⟨number, hasks, hfar⟩ := h
  have hhash := blockHashOf_of_farBack hasks.before hfar
  obtain ⟨x, hx, rfl⟩ := Option.map_eq_some_iff.mp hasks.top
  obtain ⟨m', hrun⟩ := blockHash_error hu hg hx hasks.paid hhash
  rw [fetch_of_some hasks.opcode, bind_of_ok (trace_of_untraced hu _)]
  exact ⟨m', bind_of_error hrun _⟩

theorem fetch_cases (henv : env.Complete) (ha : m.IsActive) (hm : Sized n 0 m) :
    Sound Requested (fetch env m) ∨ AsksFarBack env m := by
  cases hop : m.opcode? env with
  | none =>
    rw [fetch_of_none hop]
    exact Or.inl hm.output
  | some op =>
    rw [fetch_of_some hop, bind_of_ok (trace_of_untraced hm.untraced _)]
    have halone {x : Exec Unit} (hx : Sound (fun _ => Fit) (x env m)) :
        Sound Requested ((x >>= fun _ => pure none) env m) := hx.bind fun _ _ _ h => h
    by_cases hb : op = .blockhash
    · subst hb
      rcases blockHash_cases hm with hs | ⟨x, f, hx, hpaid, hhash⟩
      · exact Or.inl (halone hs)
      · obtain ⟨hlt, hfar⟩ := farBack_of_blockHashOf henv hhash
        exact Or.inr ⟨x.toNat, ⟨ha, hop, by rw [hx]; rfl, hlt, hpaid⟩, hfar⟩
    · by_cases hpc : op = .pc
      · subst hpc
        exact Or.inl (halone (queryNat_pc_sound hm (ha.2.trans hm.code)))
      · exact Or.inl ((execute_safe henv.toFits hb hpc).sound m hm)

end Fetch

/-! ## When the frame has been run -/

theorem resume_safe {env : Environment} {n : Nat} {pending : Pending} {child : Frame}
    (hg : child.gasLeft ≤ pending.message.gas) (ho : child.output.size < Word.limit)
    (hr : pending.outputSize = 0 ∨ pending.outputStart + pending.outputSize ≤ n) :
    EndsFit env n pending.message.gas (pending.resume child) := by
  have hgas {m : Machine} (hm : Sized n pending.message.gas m) :
      Gas.memoryCost n + (m.frame.gasLeft + child.gasLeft) + 0 ≤ m.frame.message.gas := by
    have := hm.paid
    omega
  have hok : Safe env (Sized n pending.message.gas) (absorb child) fun _ => Sized n 0 :=
    .after fun _ => .after fun _ => ⟨fun _ hm => { hm with paid := hgas hm }⟩
  have hfail : Safe env (Sized n pending.message.gas) (absorbFailure child) fun _ => Sized n 0 :=
    .after fun _ => ⟨fun _ hm => { hm with paid := hgas hm }⟩
  have hrespond : EndsFit env n 0 (pending.respond child) := by
    unfold Pending.respond
    split
    · refine (setReturnData_safe ?_).bind fun _ => inferInstance
      split
      · exact ho
      · exact empty_size_lt
    · exact (setReturnData_safe ho).bind fun _ => .after fun _ =>
        write_safe (Bytes.size_part_le_stop _ _) hr
  rw [resume_eq]
  exact .ite (fun _ => hfail.bind fun _ => hrespond) fun _ => hok.bind fun _ => hrespond

end ExecutionLayer.Evm
