import ExecutionLayer.Proofs.Evm.Expansion
import ExecutionLayer.Proofs.Evm.Progress

/-! # Accesses to memory

Whatever an instruction reads or writes it has paid for before, so that the memory reaches as far as
the access does. From a memory made of whole words, an instruction does the same with checked
accesses and with those that there are.
-/
set_option synthInstance.maxSize 100000
namespace ExecutionLayer.Evm
open Exec Step
variable {start size : Nat} {b : Bytes} {P : Bytes → Prop}

def Spans (start size : Nat) (b : Bytes) : Prop := size = 0 ∨ start + size ≤ b.size

def SpansAll (ranges : List (Nat × Nat)) (b : Bytes) : Prop := ∀ r ∈ ranges, Spans r.1 r.2 b

theorem Spans.size_part (h : Spans start size b) : (b.part start (start + size)).size = size := by
  unfold Bytes.part
  rw [ByteArray.size_extract]
  rcases h with h | h <;> omega

theorem Spans.le (h : Spans start size b) {n : Nat} (hn : n ≤ size) : Spans start n b := by
  rcases h with h | h
  · exact Or.inl (by omega)
  · exact Or.inr (by omega)

theorem Spans.replaces {value b : Bytes} (h : Spans start value.size b) :
    Replaces b start value (b.splice start value) :=
  ⟨Bytes.size_splice h, fun i _ => Bytes.get_splice h i⟩

/-- From memories of which `P` holds two operations do the same, and `Q` holds of the memory that
they leave. -/
class Agrees {α : Type} (P : Bytes → Prop) (x y : Exec α) (Q : α → Bytes → Prop) : Prop where
  same : ∀ env (m : Machine), P m.frame.memory → x env m = y env m
  after : ∀ {env} {m m' : Machine} {v : α}, P m.frame.memory → y env m = .ok v m' →
    Q v m'.frame.memory

section Agrees
variable {α β : Type} {Q : α → Bytes → Prop} {R : β → Bytes → Prop} {x y : Exec α}
  {f g : α → Exec β}

theorem Agrees.bind (hx : Agrees P x y Q) (hf : ∀ a, Agrees (Q a) (f a) (g a) R) :
    Agrees P (x >>= f) (y >>= g) R where
  same env m hm := by
    cases h : y env m with
    | ok a m₁ =>
      rw [bind_of_ok h, bind_of_ok ((hx.same env m hm).trans h)]
      exact (hf a).same env m₁ (hx.after hm h)
    | error e m₁ => rw [bind_of_error h, bind_of_error ((hx.same env m hm).trans h)]
  after hm h := by
    obtain ⟨a, m₁, hy, hg⟩ := of_bind_ok h
    exact (hf a).after (hx.after hm hy) hg

theorem Agrees.of_fact {A : Prop} (h : A → Agrees P x y Q) : Agrees (fun b => A ∧ P b) x y Q where
  same env m hm := (h hm.1).same env m hm.2
  after hm hy := (h hm.1).after hm.2 hy

theorem Made.agrees [h : Made (.sustaining InPlace) x] : Agrees P x x fun _ => P where
  same _ _ _ := rfl
  after hm hx := by
    rw [(h.sustained.of_ok hx).memory]
    exact hm

instance [Made (.sustaining InPlace) x] [hf : ∀ a, Agrees P (f a) (g a) R] :
    Agrees P (x >>= f) (x >>= g) R := Made.agrees.bind hf

instance (priority := high) (x : Exec α) : Agrees P x x fun _ _ => True where
  same _ _ _ := rfl
  after _ _ := trivial

instance (h : Halt) : Agrees P (halt h) (halt h) Q where
  same _ _ _ := rfl
  after _ h := by cases h

instance {c : Prop} [Decidable c] {x' y' : Exec α} [hx : Agrees P x y Q] [hy : Agrees P x' y' Q] :
    Agrees P (if c then x else x') (if c then y else y') Q := by
  split
  · exact hx
  · exact hy

end Agrees

/-- The memory reaches as far as a range does. -/
class Includes (P : Bytes → Prop) (start size : Nat) : Prop where
  spans : ∀ {b}, P b → Spans start size b

section Includes
variable {value : Bytes}

instance {ranges : List (Nat × Nat)} : Includes (SpansAll ((start, size) :: ranges)) start size :=
  ⟨fun h => h _ List.mem_cons_self⟩

instance {r : Nat × Nat} {ranges : List (Nat × Nat)} [hc : Includes (SpansAll ranges) start size] :
    Includes (SpansAll (r :: ranges)) start size :=
  ⟨fun h => hc.spans fun _ hr => h _ (List.mem_cons_of_mem _ hr)⟩

instance {r : Ranges} : Includes (SpansAll r.toList) r.inputStart r.inputSize :=
  inferInstanceAs (Includes (SpansAll [_, _]) _ _)

instance {r : Ranges} : Includes (SpansAll r.toList) r.outputStart r.outputSize :=
  inferInstanceAs (Includes (SpansAll [_, _]) _ _)

instance : Includes P start 0 := ⟨fun _ => Or.inl rfl⟩

theorem Includes.of_size [h : Includes P start size] (hsize : value.size = size) :
    Includes P start value.size := hsize ▸ h

instance {x : Word} [Includes P start 32] : Includes P start (fixedBytes x).size :=
  .of_size (Bytes.size_ofNat _ _)

instance {x : UInt8} [h : Includes P start 1] : Includes P start (Bytes.ofList [x]).size := h

instance {place : Nat} [Includes P start size] : Includes P start (value.read place size).size :=
  .of_size (Bytes.size_read _ _ _)

end Includes

section Accesses
variable {alarm : Stop} {n : Nat} {β : Type} {R : β → Bytes → Prop}

instance {ranges : List (Nat × Nat)} {f g : Gas.Extension → Exec β}
    [hf : Agrees (·.size = n) (f (Gas.extendMemory n ranges)) (g (Gas.extendMemory n ranges)) R] :
    Agrees (·.size = n) (memoryExtension ranges >>= f) (memoryExtension ranges >>= g) R := by
  have hx : Agrees (·.size = n) (memoryExtension ranges) (memoryExtension ranges) fun e b =>
      e = Gas.extendMemory n ranges ∧ b.size = n := by
    refine ⟨fun _ _ _ => rfl, fun hm h => ?_⟩
    cases h
    exact ⟨by rw [← hm], hm⟩
  exact hx.bind fun _ => .of_fact fun he => he ▸ hf

variable [hn : Fact (32 ∣ n)]

instance expand_agrees (ranges : List (Nat × Nat)) :
    Agrees (·.size = n) ((Port.checked alarm).expand (Gas.extendMemory n ranges).expandBy)
      (expandMemory (Gas.extendMemory n ranges).expandBy) fun _ => SpansAll ranges := by
  have he := Gas.extendMemory_covers hn.out ranges
  have hcheck : (Port.checked alarm).expand (Gas.extendMemory n ranges).expandBy =
      expandMemory (Gas.extendMemory n ranges).expandBy := if_pos he.dvd
  rw [hcheck]
  refine ⟨fun _ _ _ => rfl, fun {env m m' _} hm h r hr => ?_⟩
  have hsize : m'.frame.memory.size = n + (Gas.extendMemory n ranges).expandBy := by
    rw [(of_expandMemory_ok h).2, hm]
  have hcovers := he.covers r hr
  rwa [← hsize] at hcovers

instance charge_agrees (amount : Nat) (ranges : List (Nat × Nat)) :
    Agrees (·.size = n) (chargeVia (.checked alarm) amount ranges) (chargeWithMemory amount ranges)
      fun _ => SpansAll ranges := by
  unfold chargeVia chargeWithMemory
  infer_instance

instance {amount : Nat} {ranges : List (Nat × Nat)} {f g : Unit → Exec β}
    [hf : ∀ a, Agrees (SpansAll ranges) (f a) (g a) R] : Agrees (·.size = n)
      (chargeVia (.checked alarm) amount ranges >>= f) (chargeWithMemory amount ranges >>= g) R :=
  (charge_agrees amount ranges).bind hf

instance {ranges : List (Nat × Nat)} {f g : Unit → Exec β}
    [hf : ∀ a, Agrees (SpansAll ranges) (f a) (g a) R] : Agrees (·.size = n)
      ((Port.checked alarm).expand (Gas.extendMemory n ranges).expandBy >>= f)
      (expandMemory (Gas.extendMemory n ranges).expandBy >>= g) R := (expand_agrees ranges).bind hf

omit hn

theorem read_agrees [h : Includes P start size] :
    Agrees P ((Port.checked alarm).read start size) (readMemory start size) fun value b =>
      value.size = size ∧ P b where
  same env m hm := by
    have hread : readMemory start size env m =
        .ok (m.frame.memory.part start (start + size)) m := rfl
    change (readMemory start size >>= fun value =>
      if value.size = size then pure value else throw alarm) env m = _
    rw [bind_of_ok hread, if_pos (h.spans hm).size_part, hread]
    rfl
  after hm hread := by
    cases hread
    exact ⟨(h.spans hm).size_part, hm⟩

theorem write_agrees {value : Bytes} [h : Includes P start value.size] :
    Agrees P ((Port.checked alarm).write start value) (writeMemory start value) fun _ _ => True where
  same env m hm := by
    change (if Replaces m.frame.memory start value (m.frame.memory.splice start value) then
      writeMemory start value else throw alarm : Exec Unit) env m = _
    rw [if_pos (h.spans hm).replaces]
  after _ _ := trivial

instance {f g : Bytes → Exec β} [Includes P start size] [hf : ∀ a, Agrees P (f a) (g a) R] :
    Agrees P ((Port.checked alarm).read start size >>= f) (readMemory start size >>= g) R :=
  read_agrees.bind fun a => .of_fact fun _ => hf a

instance {value : Bytes} {x : Exec β} [Includes P start value.size] :
    Agrees P ((Port.checked alarm).write start value >>= fun _ => x)
      (writeMemory start value >>= fun _ => x) fun _ _ => True :=
  write_agrees.bind fun _ => inferInstance

end Accesses

section Memory
variable (alarm : Stop) {n : Nat} [Fact (32 ∣ n)]

theorem mcopy_agrees : Agrees (·.size = n) (mcopyVia (.checked alarm)) mcopy fun _ _ => True := by
  have (destination source size : Nat) : Agrees
      (SpansAll [(source, size), (destination, size)])
      (do (Port.checked alarm).write destination (← (Port.checked alarm).read source size); next)
      (do writeMemory destination (← readMemory source size); next) fun _ _ => True := by
    refine read_agrees.bind fun value => .of_fact fun hvalue => ?_
    have : Includes (SpansAll [(source, size), (destination, size)]) destination value.size :=
      .of_size hvalue
    infer_instance
  unfold mcopyVia mcopy
  infer_instance

theorem copyReturnData_agrees :
    Agrees (·.size = n) (copyReturnDataVia (.checked alarm)) copyReturnData fun _ _ => True := by
  have (f : Frame) (destination start size : Nat) : Agrees (·.size = n)
      (if f.returnData.size < start + size then halt .outOfBoundsRead else do
        (Port.checked alarm).expand (Gas.extendMemory n [(destination, size)]).expandBy
        (Port.checked alarm).write destination (f.returnData.part start (start + size))
        next)
      (if f.returnData.size < start + size then halt .outOfBoundsRead else do
        expandMemory (Gas.extendMemory n [(destination, size)]).expandBy
        writeMemory destination (f.returnData.part start (start + size))
        next) fun _ _ => True := by
    split
    · infer_instance
    · next hle =>
      have : Includes (SpansAll [(destination, size)]) destination
          (f.returnData.part start (start + size)).size :=
        .of_size (Spans.size_part (Or.inr (Nat.le_of_not_lt hle)))
      infer_instance
  dsimp only [copyReturnDataVia, copyReturnData]
  infer_instance

theorem executeAlone_agrees (op : Opcode) :
    Agrees (·.size = n) (executeAloneVia (.checked alarm) op) (executeAlone op)
      fun _ _ => True := by
  have hout : Agrees (·.size = n) (setOutputVia (.checked alarm)) setOutput fun _ _ => True := by
    unfold setOutputVia setOutput
    infer_instance
  cases op
  case mcopy => exact mcopy_agrees alarm
  case returndatacopy => exact copyReturnData_agrees alarm
  case ret | revert => exact hout.bind fun _ => inferInstance
  all_goals
    dsimp only [executeAloneVia, executeAlone, moveVia, move, keccakVia, keccak, copyVia, copy,
      copyExternalCodeVia, copyExternalCode, mloadVia, mload, mstoreVia, mstore, mstore8Via, mstore8,
      logVia, log]
    infer_instance

end Memory

/-- The output of the frame that is asked for has its place in the memory. -/
def Reserved : Option Pending → Bytes → Prop
  | none, _ => True
  | some pending, b => Spans pending.outputStart pending.outputSize b

section Frames
variable {n : Nat} [Fact (32 ∣ n)]

instance : Agrees P (next >>= fun _ => pure none) (next >>= fun _ => pure none) Reserved where
  same _ _ _ := rfl
  after _ h := by
    cases h
    trivial

instance {message : Message} [hc : Includes P start size] :
    Agrees P (pure (some ⟨message, start, size⟩)) (pure (some ⟨message, start, size⟩)) Reserved where
  same _ _ _ := rfl
  after hm h := by
    cases h
    exact hc.spans hm

theorem execute_agrees (alarm : Stop) (op : Opcode) :
    Agrees (·.size = n) (executeVia (.checked alarm) op) (execute op) Reserved := by
  have ha : Agrees (·.size = n) (do executeAloneVia (.checked alarm) op; return none)
      (do executeAlone op; return none) Reserved :=
    (executeAlone_agrees alarm op).bind fun _ => ⟨fun _ _ _ => rfl, fun _ h => by cases h; trivial⟩
  have (g : State → State) : Made (.sustaining InPlace) (modifyState g) :=
    ⟨Logic.Writing.modifyState g⟩
  cases op
  case create | create2 | call | callcode | delegatecall | staticcall =>
    dsimp only [executeVia, execute, createVia, create, create2Via, create2, createAtVia, createAt,
      callVia, call, callcodeVia, callcode, delegatecallVia, delegatecall, staticcallVia, staticcall,
      enterWithValueVia, enterWithValue, enterVia, enter, decline]
    infer_instance
  all_goals exact ha

end Frames

section Steps
variable (alarm : Stop)

theorem fetch_agrees :
    Agrees (32 ∣ ·.size) (fetchVia (.checked alarm)) fetch Reserved := by
  refine Agrees.bind (Q := fun _ b => 32 ∣ b.size) ⟨fun _ _ _ => rfl, fun hm h => ?_⟩
    fun _ => Made.agrees.bind fun _ => ?_
  · cases h
    exact hm
  cases Opcode.decode _ _ with
  | none => exact inferInstance
  | some op =>
    refine Made.agrees.bind fun _ => ⟨fun env m hm => ?_, fun {env m m' v} hm h => ?_⟩
    · have := Fact.mk hm
      exact (execute_agrees alarm op).same env m rfl
    · have := Fact.mk hm
      exact (execute_agrees alarm op).after rfl h

theorem resume_agrees (pending : Pending) (child : Frame) :
    Agrees (Reserved (some pending)) (pending.resumeVia (.checked alarm) child)
      (pending.resume child) fun _ _ => True := by
  have : Includes (Reserved (some pending)) pending.outputStart
      (child.output.part 0 pending.outputSize).size :=
    ⟨fun h => Spans.le h (Bytes.size_part_le_stop _ _)⟩
  have hrespond : Agrees (Reserved (some pending)) (pending.respondVia (.checked alarm) child)
      (pending.respond child) fun _ _ => True := by
    unfold Pending.respondVia Pending.respond
    cases pending.message.target <;> dsimp only <;> infer_instance
  rw [resume_eq]
  dsimp only [Pending.resumeVia]
  infer_instance

theorem attend_agrees (runner : Runner) (pending : Option Pending) :
    Agrees (Reserved pending) (attendVia (.checked alarm) runner pending) (attend runner pending)
      fun _ _ => True := by
  cases pending with
  | none => exact ⟨fun _ _ _ => rfl, fun _ _ => trivial⟩
  | some pending =>
    exact Made.agrees.bind fun child =>
      (resume_agrees alarm pending child).bind fun _ => inferInstance

theorem step_agrees (runner : Runner) :
    Agrees (32 ∣ ·.size) (stepVia (.checked alarm) runner) (stepInstruction runner)
      fun _ _ => True := (fetch_agrees alarm).bind fun pending => attend_agrees alarm runner pending

end Steps

end ExecutionLayer.Evm
