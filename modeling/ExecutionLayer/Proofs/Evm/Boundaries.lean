import ExecutionLayer.Proofs.Evm.Access
import ExecutionLayer.Proofs.Evm.Reach

/-! # Where instructions begin

Read from its start, code falls into instructions; the bytes that belong to a push are none.
Execution never gets out of step with this reading: a frame is always at a place where an
instruction begins.
-/
namespace ExecutionLayer.Evm
open Exec Step Relation
variable {fork : Fork} {i : Nat} {op : Opcode}

/-- The number of bytes that belong to a byte of the code, if it is a push of the fork. -/
def immediatesOf (fork : Fork) (b : UInt8) : Nat :=
  ((Opcode.decode fork b).map Opcode.immediates).getD 0

inductive IsBoundary (fork : Fork) (code : Bytes) : Nat → Prop
  | start : IsBoundary fork code 0
  | next {i : Nat} : IsBoundary fork code i → i < code.size →
      IsBoundary fork code (i + 1 + immediatesOf fork (code.get i))

theorem IsBoundary.next_le {code : Bytes} (hi : IsBoundary fork code i) :
    ∀ {j : Nat}, IsBoundary fork code j → j < code.size → j < i →
      j + 1 + immediatesOf fork (code.get j) ≤ i := by
  induction hi with
  | start => exact fun _ _ hlt => absurd hlt (Nat.not_lt_zero _)
  | @next i hi hsize ih =>
    intro j hj hjsize hlt
    -- Nothing begins between `i` and what follows it.
    have hgap {k : Nat} (hk : IsBoundary fork code k) (hik : i < k) :
        i + 1 + immediatesOf fork (code.get i) ≤ k := by
      induction hk with
      | start => exact absurd hik (Nat.not_lt_zero _)
      | @next k hk hksize ihk =>
        rcases Nat.lt_trichotomy k i with hki | rfl | hki
        · have := ih hk hksize hki
          omega
        · exact le_rfl
        · have := ihk hki
          omega
    rcases Nat.lt_trichotomy j i with hji | rfl | hji
    · have := ih hj hjsize hji
      omega
    · exact le_rfl
    · have := hgap hj hji
      omega

set_option maxRecDepth 4000 in
theorem immediates_ofByte? (b : UInt8) :
    ((Opcode.ofByte? b).map Opcode.immediates).getD 0 = immediateSize b := by
  have hall : ∀ k : Fin 256, ((Opcode.ofByte? (UInt8.ofNat k)).map Opcode.immediates).getD 0 =
      immediateSize (UInt8.ofNat k) := by decide
  have hb := hall ⟨b.toNat, b.toNat_lt⟩
  rwa [UInt8.ofNat_toNat] at hb

theorem since_le_or_immediates (fork : Fork) (op : Opcode) :
    op.since ≤ fork ∨ op.immediates = 0 := by
  cases op
  case push n =>
    by_cases hn : n = 0
    · exact Or.inr (congrArg Fin.val hn)
    · left
      have hsince : (Opcode.push n).since = .frontier := by
        unfold Opcode.since
        split <;> simp_all
      rw [hsince]
      cases fork <;> decide
  all_goals exact Or.inr rfl

theorem immediatesOf_eq (fork : Fork) (b : UInt8) : immediatesOf fork b = immediateSize b := by
  rw [← immediates_ofByte?, immediatesOf, Opcode.decode]
  cases Opcode.ofByte? b with
  | none => rfl
  | some op =>
    dsimp only
    split
    · rfl
    · next hsince => exact ((since_le_or_immediates fork op).resolve_left hsince).symm

theorem immediatesOf_of_decode {b : UInt8}
    (h : Opcode.decode fork b = some op) : immediatesOf fork b = op.immediates := by
  rw [immediatesOf, h]
  rfl

/-- The marks of all places before `i` are right. -/
structure Marked (fork : Fork) (code : Bytes) (i : Nat) (marks : Bytes) : Prop where
  boundary : IsBoundary fork code i
  size : marks.size = i
  right : ∀ j < i, marks.get j = 1 ↔ IsBoundary fork code j ∧ j < code.size ∧ code.get j = 0x5b

theorem Marked.next {code marks : Bytes} (h : Marked fork code i marks)
    (hi : i < code.size) : Marked fork code (i + 1 + immediateSize (code.get i))
      (marks.push (if code.get i = 0x5b then 1 else 0) ++
        Bytes.zeros (immediateSize (code.get i))) := by
  have hnext := h.boundary.next hi
  rw [immediatesOf_eq] at hnext
  have hpushed : (marks.push (if code.get i = 0x5b then 1 else 0)).size = i + 1 := by
    rw [ByteArray.size_push, h.size]
  refine ⟨hnext, ?_, fun j hj => ?_⟩
  · rw [ByteArray.size_append, Bytes.size_zeros, hpushed]
  · rw [Bytes.get_append, Bytes.get_zeros, hpushed]
    rcases Nat.lt_trichotomy j i with hji | rfl | hij
    · rw [if_pos (by omega), Bytes.get_push, if_neg (by rw [h.size]; omega)]
      exact h.right j hji
    · rw [if_pos (Nat.lt_succ_self j), Bytes.get_push, if_pos h.size.symm]
      constructor
      · intro hmark
        refine ⟨h.boundary, hi, ?_⟩
        by_contra hne
        rw [if_neg hne] at hmark
        exact absurd hmark (by decide)
      · rintro ⟨-, -, hbyte⟩
        rw [if_pos hbyte]
    · -- The byte belongs to the instruction at `i`, so none begins there.
      rw [if_neg (by omega)]
      refine ⟨fun hmark => absurd hmark (by decide), ?_⟩
      rintro ⟨hboundary, -, -⟩
      have hle := hboundary.next_le h.boundary hi hij
      rw [immediatesOf_eq] at hle
      omega

theorem Marked.markFrom {code marks : Bytes} (h : Marked fork code i marks) :
    ∃ n, code.size ≤ n ∧ Marked fork code n (markFrom code i marks) := by
  fun_induction Evm.markFrom code i marks with
  | case1 i marks hi b size marks' ih =>
    have hb : b = code.get i := by
      unfold Bytes.get
      rw [dif_pos hi]
    have hnext := h.next hi
    rw [← hb] at hnext
    apply ih
    -- Nothing is added behind an instruction without bytes of its own.
    split
    · next hzero =>
      have hempty : immediateSize b = 0 := hzero
      rw [hempty, Bytes.append_zeros_zero] at hnext
      rw [hzero]
      exact hnext
    · exact hnext
  | case2 i marks hi => exact ⟨i, Nat.le_of_not_lt hi, h⟩

theorem isDestination_iff (fork : Fork) (code : Bytes) (i : Nat) :
    isDestination (markDestinations code) i = true ↔
      IsBoundary fork code i ∧ i < code.size ∧ code.get i = 0x5b := by
  have hstart : Marked fork code 0 ByteArray.empty :=
    ⟨.start, rfl, fun _ hlt => absurd hlt (Nat.not_lt_zero _)⟩
  obtain ⟨n, hn, hmarked⟩ := hstart.markFrom
  rw [isDestination, decide_eq_true_iff]
  by_cases hi : i < n
  · exact hmarked.right i hi
  · rw [markDestinations, Bytes.get_of_size_le (by rw [hmarked.size]; omega)]
    exact ⟨fun hmark => absurd hmark (by decide), fun h => by omega⟩

theorem mem_jumpDestinations_iff (fork : Fork) (code : Bytes) (i : Nat) :
    i ∈ jumpDestinations code ↔ IsBoundary fork code i ∧ i < code.size ∧ code.get i = 0x5b := by
  rw [jumpDestinations, List.mem_filter, List.mem_range, isDestination_iff fork]
  exact ⟨And.right, fun h => ⟨h.2.1, h⟩⟩

/-- The frame is at a boundary of its code, whose destinations it has marked; its stack is within
the limit, and its memory is made of words. -/
structure Frame.Ordered (fork : Fork) (f : Frame) : Prop where
  destinations : f.destinations = markDestinations f.code
  boundary : IsBoundary fork f.code f.pc
  stack : f.stack.size ≤ stackLimit
  words : 32 ∣ f.memory.size

theorem Frame.ordered_ofMessage (fork : Fork) (message : Message) :
    (Frame.ofMessage message).Ordered fork := ⟨rfl, .start, Nat.zero_le _, Nat.dvd_zero 32⟩

structure Leaves (env : Environment) (m m' : Machine) : Prop extends Orderly m m' where
  boundary : IsBoundary env.fork m.frame.code m'.frame.pc

section Ordered
variable {env : Environment} {m m' : Machine}

theorem Frame.Ordered.leaves (h : m.frame.Ordered env.fork) (hl : Leaves env m m') :
    m'.frame.Ordered env.fork where
  destinations := by rw [hl.destinations, hl.code, h.destinations]
  boundary := hl.code.symm ▸ hl.boundary
  stack := hl.stack h.stack
  words := hl.words h.words

theorem Frame.Ordered.unmoved (h : m.frame.Ordered env.fork) (hu : Unmoved m m') :
    Leaves env m m' := ⟨hu.toOrderly, hu.pc.symm ▸ h.boundary⟩

theorem Frame.Ordered.isBoundary_of_lands (h : m.frame.Ordered env.fork)
    (hsize : m.frame.pc < m.frame.code.size) (hop : m.opcode? env = some op)
    {v : Option Pending} {pc : Nat} (hl : Lands op v m.frame.pc m.frame.destinations pc) :
    IsBoundary env.fork m.frame.code pc := by
  cases v with
  | none =>
    rcases hl with rfl | rfl | hd
    · exact h.boundary
    · rw [← immediatesOf_of_decode hop]
      exact h.boundary.next hsize
    · rw [h.destinations] at hd
      exact ((isDestination_iff env.fork _ _).mp hd).1
  | some pending =>
    obtain ⟨rfl, -⟩ := hl
    exact h.boundary

theorem Frame.Ordered.fetch_cases (h : m.frame.Ordered env.fork) (hop : m.opcode? env = some op) :
    (∃ v m', fetch env m = .ok v m' ∧ Orderly m m' ∧
      Lands op v m.frame.pc m.frame.destinations m'.frame.pc) ∨
      ∃ e m', fetch env m = .error e m' ∧ Unmoved m m' := by
  -- With checked accesses the instruction does the same, and there it is known where it leads.
  have hsame : fetch env m = (trace (.opStart op) >>= fun _ =>
      executeVia (.checked (.fault .brokenInvariant)) op) env m := by
    rw [fetch_of_some hop]
    have := Fact.mk h.words
    exact ((Made.agrees.bind fun _ => execute_agrees _ op).same env m rfl).symm
  have hmoves : Moves (Lands op) (trace (.opStart op) >>= fun _ =>
      executeVia (.checked (.fault .brokenInvariant)) op) := by
    have := execute_moves (.fault .brokenInvariant) op
    infer_instance
  rw [hsame]
  cases he : (trace (.opStart op) >>= fun _ =>
      executeVia (.checked (.fault .brokenInvariant)) op) env m with
  | ok v m' => exact Or.inl ⟨v, m', rfl, hmoves.moved he⟩
  | error e m' => exact Or.inr ⟨e, m', rfl, hmoves.stopped he⟩

theorem Frame.Ordered.fetch_leaves (h : m.frame.Ordered env.fork)
    (hsize : m.frame.pc < m.frame.code.size) : Leaves env m (endOf (fetch env m)) := by
  cases hop : m.opcode? env with
  | none =>
    rw [fetch_of_none hop]
    exact h.unmoved (refl m)
  | some op =>
    rcases h.fetch_cases hop with ⟨v, m', hf, ho, hl⟩ | ⟨e, m', hf, hu⟩
    · rw [hf]
      exact ⟨ho, h.isBoundary_of_lands hsize hop hl⟩
    · rw [hf]
      exact h.unmoved hu

theorem Frame.Ordered.of_pending (h : m.frame.Ordered env.fork)
    (hsize : m.frame.pc < m.frame.code.size) {pending : Pending}
    (hf : fetch env m = .ok (some pending) m') :
    m'.frame.pc = m.frame.pc ∧ IsBoundary env.fork m.frame.code (m.frame.pc + 1) := by
  obtain ⟨op, hop, -⟩ := of_fetch_ok hf
  rcases h.fetch_cases hop with ⟨v, m₁, hf₁, -, hl⟩ | ⟨e, m₁, hf₁, -⟩
  · rw [hf] at hf₁
    cases hf₁
    have hnext := h.boundary.next hsize
    rw [immediatesOf_of_decode hop, hl.2] at hnext
    exact ⟨hl.1, hnext⟩
  · rw [hf] at hf₁
    cases hf₁

theorem attend_orderly {v : Option Pending} (h : Reserved v m.frame.memory) (runner : Runner) :
    Orderly m (endOf (attend runner v env m)) ∧
      ((endOf (attend runner v env m)).frame.pc = m.frame.pc ∨
        v.isSome ∧ (endOf (attend runner v env m)).frame.pc = m.frame.pc + 1) := by
  cases v with
  | none =>
    have hu := (Made.sustained : Sustains Unmoved (trace .opEnd)).ends env m
    exact ⟨hu.toOrderly, Or.inl hu.pc⟩
  | some pending =>
    cases hlaunch : launch runner pending.message env m.world with
    | error e w =>
      rw [attend_of_error hlaunch]
      exact ⟨⟨rfl, rfl, id, id, le_rfl⟩, Or.inl rfl⟩
    | ok child w =>
      rw [attend_of_ok hlaunch]
      have hsame := (resume_agrees (.fault .brokenInvariant) pending child).same env
        { m with world := w } h
      have hadvances := resume_advances (.fault .brokenInvariant) pending child
      cases hr : pending.resume child env { m with world := w } with
      | error e m₁ =>
        have hu := hadvances.stopped (hsame.trans hr)
        rw [bind_of_error hr]
        exact ⟨⟨hu.code, hu.destinations, hu.stack, hu.words, hu.grows⟩, Or.inl hu.pc⟩
      | ok _ m₁ =>
        obtain ⟨ho, hpc⟩ := hadvances.moved (hsame.trans hr)
        have hu := (Made.sustained : Sustains Unmoved (trace .opEnd)).ends env m₁
        have ho' := IsTrans.trans _ _ _ ho hu.toOrderly
        rw [bind_of_ok hr]
        exact ⟨⟨ho'.code, ho'.destinations, ho'.stack, ho'.words, ho'.grows⟩,
          Or.inr ⟨rfl, hu.pc.trans hpc⟩⟩

theorem Frame.Ordered.step_leaves (h : m.frame.Ordered env.fork)
    (hsize : m.frame.pc < m.frame.code.size) (runner : Runner) :
    Leaves env m (endOf (stepInstruction runner env m)) := by
  have hfetch := h.fetch_leaves hsize
  unfold stepInstruction
  cases hf : fetch env m with
  | error e m₁ =>
    rw [hf] at hfetch
    rw [bind_of_error hf]
    exact hfetch
  | ok v m₁ =>
    rw [hf] at hfetch
    rw [bind_of_ok hf]
    have hreserved := (fetch_agrees (.fault .brokenInvariant)).after h.words hf
    obtain ⟨ho, hpc⟩ := attend_orderly hreserved runner
    refine ⟨IsTrans.trans _ _ _ hfetch.toOrderly ho, ?_⟩
    rcases hpc with hpc | ⟨hsome, hpc⟩
    · rw [hpc]
      exact hfetch.boundary
    · -- Only an instruction that has waited for a frame goes on here.
      obtain ⟨pending, rfl⟩ := Option.isSome_iff_exists.mp hsome
      obtain ⟨hwaits, hnext⟩ := h.of_pending hsize hf
      rw [hpc, hwaits]
      exact hnext

theorem Frame.Ordered.of_step (h : m.frame.Ordered env.fork) (hs : StepsTo runMessage env m m') :
    m'.frame.Ordered env.fork := by
  have hl := h.step_leaves hs.active.2 runMessage
  rw [hs.step] at hl
  exact h.leaves hl

end Ordered

def Reached (env : Environment) (message : Message) (w : World) (m : Machine) : Prop :=
  ∃ m₀, Opens env message w m₀ ∧ Reaches env (fun _ _ => True) m₀ m

/-- The message is sent on the way: it is the first one, or an instruction asks for it. -/
inductive Dispatches (env : Environment) (message : Message) (w : World) : Message → World → Prop
  | self : Dispatches env message w message w
  | below {m m₁ : Machine} {pending : Pending} : Reached env message w m → m.IsActive →
      fetch env m = .ok (some pending) m₁ → Dispatches env message w pending.message m₁.world

/-- The frame is there at some time when a message is run: before an instruction, when it has asked
for another frame, after it or where it has stopped, or at the end of a precompiled contract. -/
inductive Occurs (env : Environment) (message : Message) (w : World) : Frame → Prop
  | running {m : Machine} : Reached env message w m → Occurs env message w m.frame
  | fetched {m : Machine} : Reached env message w m → m.IsActive →
      Occurs env message w (endOf (fetch env m)).frame
  | stepped {m : Machine} : Reached env message w m → m.IsActive →
      Occurs env message w (endOf (stepInstruction runMessage env m)).frame
  | contract {sent : Message} {w₁ w₂ : World} {contract : Precompile} :
      Dispatches env message w sent w₁ → openFrame sent env w₁ = .ok () w₂ →
      sent.precompile? env = some contract →
      Occurs env message w (endOf (runBody runMessage sent env ⟨.ofMessage sent, w₂⟩)).frame

section Occurs
variable {env : Environment} {message : Message} {w : World} {m m' : Machine}

theorem Reaches.ordered {K : Message → World → Prop} (h : Reaches env K m m')
    (hm : m.frame.Ordered env.fork) : m'.frame.Ordered env.fork := by
  induction h with
  | refl => exact hm
  | next hs _ ih => exact ih (hm.of_step hs)
  | enter _ _ _ ho _ ih => exact ih (ho.frame ▸ Frame.ordered_ofMessage _ _)

theorem Reached.ordered (h : Reached env message w m) : m.frame.Ordered env.fork := by
  obtain ⟨m₀, ho, hr⟩ := h
  exact hr.ordered (ho.frame ▸ Frame.ordered_ofMessage _ _)

theorem Occurs.ordered {frame : Frame} (h : Occurs env message w frame) :
    frame.Ordered env.fork := by
  cases h with
  | running hr => exact hr.ordered
  | fetched hr ha => exact hr.ordered.leaves (hr.ordered.fetch_leaves ha.2)
  | stepped hr ha => exact hr.ordered.leaves (hr.ordered.step_leaves ha.2 runMessage)
  | @contract sent w₁ w₂ contract _ _ hc =>
    rw [runBody_of_some hc]
    have hbody : Sustains Unmoved (do
      trace .precompileStart; contract.run; trace .precompileEnd) := Made.sustained
    have hs := Frame.ordered_ofMessage env.fork sent
    exact hs.leaves (hs.unmoved (hbody.ends env ⟨.ofMessage sent, w₂⟩))

end Occurs

/-- For any code the destinations are the places where a `JUMPDEST` begins as an instruction, and
these are the marks that frames go by. Whenever a message is run, each frame that occurs is at a
place where an instruction of its code begins, so never among the bytes that belong to a push. -/
theorem execution_at_boundaries (fork : Fork) (code : Bytes) (i : Nat) {env : Environment}
    {message : Message} {w : World} {frame : Frame} (h : Occurs env message w frame) :
    (i ∈ jumpDestinations code ↔ IsBoundary fork code i ∧ i < code.size ∧ code.get i = 0x5b) ∧
    (isDestination frame.destinations i = true ↔ i ∈ jumpDestinations frame.code) ∧
    IsBoundary env.fork frame.code frame.pc ∧
    ∀ j, IsBoundary env.fork frame.code j → j < frame.code.size →
      ¬(j < frame.pc ∧ frame.pc < j + 1 + immediatesOf env.fork (frame.code.get j)) := by
  have hordered := h.ordered
  refine ⟨mem_jumpDestinations_iff fork code i, ?_, hordered.boundary, ?_⟩
  · rw [hordered.destinations, isDestination_iff env.fork, mem_jumpDestinations_iff env.fork]
  · rintro j hj hsize ⟨hbefore, hwithin⟩
    have hle := hordered.boundary.next_le hj hsize hbefore
    omega

/-- Code whose first push holds the byte of a destination, and which jumps to one behind. -/
def jumping : Message :=
  { (default : Message) with
    code := ⟨#[0x60, 0x5b, 0x60, 5, 0x56, 0x5b, 0x00]⟩
    gas := 100
    target := some 0x10
    currentTarget := 0x10 }

/-- Three instructions later the frame is at the destination. The byte of the push is none. -/
theorem execution_at_boundaries_jumping :
    let env := { (default : Environment) with fork := .cancun }
    ∃ m, Reached env jumping { state := default } m ∧ m.frame.pc = 5 ∧
      (5 ∈ jumpDestinations jumping.code ↔
        IsBoundary .cancun jumping.code 5 ∧ 5 < jumping.code.size ∧ jumping.code.get 5 = 0x5b) ∧
      (isDestination m.frame.destinations 1 = true ↔ 1 ∈ jumpDestinations m.frame.code) ∧
      IsBoundary .cancun m.frame.code m.frame.pc ∧ jumpDestinations jumping.code = [5] := by
  intro env
  have hrun : okWith (fun _ w => (advance env 3 ⟨.ofMessage jumping, w⟩).any fun m =>
      decide (m.frame.pc = 5)) (openFrame jumping env { state := default }) = true := by decide +kernel
  obtain ⟨_, w, hopen, hrun⟩ := of_okWith hrun
  obtain ⟨m, hadvance, hpc⟩ := (Option.any_eq_true _ _).mp hrun
  have hreached : Reached env jumping { state := default } m :=
    ⟨⟨.ofMessage jumping, w⟩, ⟨rfl, hopen, rfl⟩, .of_advance hadvance⟩
  have hfive := execution_at_boundaries .cancun jumping.code 5 (.running hreached)
  have hone := execution_at_boundaries .cancun jumping.code 1 (.running hreached)
  exact ⟨m, hreached, of_decide_eq_true hpc, hfive.1, hone.2.1, hone.2.2.1, by decide +kernel⟩

end ExecutionLayer.Evm
