import ExecutionLayer.Proofs.Evm.Tally
import ExecutionLayer.Proofs.Transaction.Parts
import Mathlib.Data.Finset.Card

/-! # Refunds for destructions

Before London the first destruction of an account is refunded. A frame knows the accounts that it
has marked for deletion, those that frames below have handed on, and those that frames above had
marked when it began. So its refunds count the accounts that it has marked and those above have not.
-/
namespace ExecutionLayer
open Evm

namespace Evm
open Exec Step Relation

/-! ## Marked accounts -/

def marked (s : AddressSet) : Finset Address := s.toList.toFinset

section Marked
variable (s t : AddressSet) (a : Address)

@[simp] theorem mem_marked : a ∈ marked s ↔ a ∈ s := by
  rw [marked, List.mem_toFinset, Std.ExtTreeSet.mem_toList]

theorem card_marked : (marked s).card = s.size := by
  have hnodup : s.toList.Nodup := by
    refine s.distinct_toList.imp fun hne heq => hne ?_
    rw [heq, Std.compare_eq_iff_eq]
  rw [marked, List.toFinset_card_of_nodup hnodup, Std.ExtTreeSet.length_toList]

theorem marked_empty : marked ∅ = ∅ := by
  ext a
  simp

theorem marked_addressUnion : marked (addressUnion s t) = marked s ∪ marked t := by
  ext a
  simp [mem_addressUnion]

theorem marked_insert : marked (s.insert a) = insert a (marked s) := by
  ext b
  rw [mem_marked, Std.ExtTreeSet.mem_insert, Std.compare_eq_iff_eq, Finset.mem_insert, mem_marked,
    eq_comm]

end Marked

/-! ## Destructions -/

namespace Ledger

def known (l : Ledger) : AddressSet := addressUnion l.accountsToDelete l.message.deletedAbove

/-- What is refunded if the current account is destroyed. -/
def reward (l : Ledger) : Int := if l.message.currentTarget ∈ l.known then 0 else 24000

def destroyed (l : Ledger) : Ledger :=
  { l with
    refund := l.refund + l.reward
    accountsToDelete := l.known.insert l.message.currentTarget }

/-- The accounts that are marked for deletion and were not when the frame began. -/
def own (l : Ledger) : Finset Address := marked l.accountsToDelete \ marked l.message.deletedAbove

theorem card_own_destroyed (l : Ledger) :
    24000 * (l.destroyed.own.card : Int) = 24000 * l.own.card + l.reward := by
  have hmem : l.message.currentTarget ∈ l.known ↔ l.message.currentTarget ∈
      marked l.accountsToDelete ∪ marked l.message.deletedAbove := by
    rw [← marked_addressUnion, mem_marked, known]
  have hdestroyed : l.destroyed.own = insert l.message.currentTarget
      (marked l.accountsToDelete ∪ marked l.message.deletedAbove) \ marked l.message.deletedAbove := by
    unfold own destroyed known
    rw [marked_insert, marked_addressUnion]
  unfold reward
  by_cases hk : l.message.currentTarget ∈ l.known
  · have hown : l.destroyed.own = l.own := by
      rw [hdestroyed, Finset.insert_eq_of_mem (hmem.mp hk), Finset.union_sdiff_right, own]
    rw [if_pos hk, hown, add_zero]
  · have hnot := Finset.notMem_union.mp fun h => hk (hmem.mpr h)
    have hown : l.destroyed.own = insert l.message.currentTarget l.own := by
      rw [hdestroyed, Finset.insert_sdiff_of_notMem _ hnot.2, Finset.union_sdiff_right, own]
    have hnew : l.message.currentTarget ∉ l.own := fun h => hnot.1 (Finset.mem_sdiff.mp h).1
    rw [if_neg hk, hown, Finset.card_insert_of_notMem hnew]
    omega

theorem card_own_resumed {fork : Fork} (hfork : fork ≠ .daoFork) (l : Ledger) {child : Frame}
    (hchild : child.message.deletedAbove = addressUnion l.message.deletedAbove l.accountsToDelete)
    (he : child.error = none) :
    (l.resumed fork child).own.card = l.own.card + child.ledger.own.card := by
  let A := marked l.accountsToDelete
  let D := marked l.message.deletedAbove
  let C := marked child.accountsToDelete
  have hresumed : (l.resumed fork child).own = (A ∪ C) \ D := by
    unfold own
    rw [resumed_of_kept l he, if_neg hfork, marked_addressUnion]
  have hbelow : child.ledger.own = C \ (D ∪ A) := by
    unfold own Frame.ledger
    rw [hchild, marked_addressUnion]
  have hsplit : (A ∪ C) \ D = A \ D ∪ C \ (D ∪ A) := by
    ext a
    simp only [Finset.mem_sdiff, Finset.mem_union]
    tauto
  have hdisjoint : Disjoint (A \ D) (C \ (D ∪ A)) := by
    refine Finset.disjoint_left.mpr fun a ha hc => ?_
    exact (Finset.mem_sdiff.mp hc).2 (Finset.mem_union_right _ (Finset.mem_sdiff.mp ha).1)
  rw [hresumed, hbelow, hsplit, Finset.card_union_of_disjoint hdisjoint]
  rfl

end Ledger

section Destruction
variable {env : Environment} {m m' : Machine}

theorem payDestruction_ledger (hfork : env.fork < Fork.london) {beneficiary : Address}
    (h : payDestruction env m = .ok beneficiary m') : m'.frame.ledger =
      { m.frame.ledger with
        refund := m.frame.ledger.refund + m.frame.ledger.reward
        accountsToDelete := m.frame.ledger.known } := by
  obtain ⟨m₁, m₂, hq₁, hrefund, hq₂⟩ := of_payDestruction_ok h
  have hrefunded := of_refundDestruction_ok hrefund
  rw [if_pos hfork] at hrefunded
  rw [hq₂.ledger, hrefunded, ← hq₁.ledger]
  rfl

theorem selfdestruct_ledger (hfork : env.fork < Fork.london)
    (h : selfdestruct env m = .ok () m') : m'.frame.ledger = m.frame.ledger.destroyed := by
  obtain ⟨beneficiary, m₅, hpay, h⟩ := of_bind_ok h
  have hpaid := payDestruction_ledger hfork hpay
  -- Once the destruction is paid for, the account is marked.
  obtain ⟨_, _, hm, h⟩ := of_bind_ok h
  cases hm
  obtain ⟨_, m₆, h₆, h⟩ := of_bind_ok h
  obtain ⟨_, m₇, h₇, h₈⟩ := of_bind_ok h
  have hmarked : m₆.frame.ledger = { m₅.frame.ledger with
      accountsToDelete := m₅.frame.accountsToDelete.insert m₅.frame.message.currentTarget } := by
    have hcancun : ¬Fork.cancun ≤ env.fork := fun hc =>
      absurd (show Fork.cancun < Fork.london from Nat.lt_of_le_of_lt hc hfork) (by decide)
    rw [giveAway, bind_of_ok fork_ok, if_neg hcancun, destroy_apply] at h₆
    split at h₆
    · cases h₆
      rfl
    · cases h₆
  have htouch : m₇.frame.ledger = m₆.frame.ledger := ((touchIfEmpty_idle beneficiary).of_ok h₇).ledger
  have hdeleted : m₅.frame.accountsToDelete = _ := congrArg Ledger.accountsToDelete hpaid
  have hmessage : m₅.frame.message = _ := congrArg Ledger.message hpaid
  rw [(quiet_of_ok h₈).ledger, htouch, hmarked, hpaid, hdeleted, hmessage]
  rfl

theorem fetch_destroyed (hfork : env.fork < Fork.london) (hop : m.opcode? env = some .selfdestruct)
    {p : Option Pending} (h : fetch env m = .ok p m') :
    m'.frame.ledger = m.frame.ledger.destroyed ∧ m'.frame.running = false := by
  rw [fetch_of_some hop] at h
  obtain ⟨_, m₁, htrace, h⟩ := of_bind_ok h
  obtain ⟨_, _, hexecute, h⟩ := of_bind_ok h
  cases h
  have hdestroy : selfdestruct env m₁ = .ok () m' := hexecute
  have hended := selfdestruct_ended env m₁
  rw [hdestroy] at hended
  rw [selfdestruct_ledger hfork hdestroy, of_trace_ok htrace]
  exact ⟨rfl, hended.2.1⟩

theorem deletedAbove_of_fetch {pending : Pending} {m₁ : Machine}
    (h : fetch env m = .ok (some pending) m₁) : pending.message.deletedAbove =
      addressUnion m.frame.message.deletedAbove m.frame.accountsToDelete := by
  rcases (fetch_effect h).asks with ⟨hcall, -⟩ | ⟨hcreate, -⟩
  · exact hcall.deletedAbove
  · exact hcreate.deletedAbove

end Destruction

/-! ## Refunds by instruction -/

/-- What an instruction of the given kind adds to the refund of its frame. -/
def refundBy (env : Environment) (op : Opcode) (m m' : Machine) : Int :=
  if m.opcode? env = some op then m'.frame.refund - m.frame.refund else 0

def countOf (env : Environment) (op : Opcode) (m _ : Machine) : Int :=
  if m.opcode? env = some op then 1 else 0

section Refunds
variable {env : Environment} {message : Message} {w w' : World} {m m' : Machine} {frame : Frame}

theorem refund_potential (env : Environment) : Potential env (fun _ => True)
    (fun m m' => refundBy env .sstore m m' + 1 * refundBy env .selfdestruct m m')
    Ledger.refund where
  start _ := rfl
  alone {m m'} _ _ h := by
    change m'.frame.refund = m.frame.refund + _
    unfold refundBy
    by_cases hs : m.opcode? env = some .sstore
    · rw [if_pos hs, if_neg (by rw [hs]; decide)]
      omega
    by_cases hd : m.opcode? env = some .selfdestruct
    · rw [if_neg hs, if_pos hd]
      omega
    obtain ⟨op, hop, -⟩ := of_fetch_ok h
    have hi := fetch_idle hop (fun hop' => hs (hop' ▸ hop)) (fun hop' => hd (hop' ▸ hop)) h
    rw [if_neg hs, if_neg hd, hi.refund]
    omega
  resumed {m pending m₁ child} _ _ _ _ he := by
    rw [Ledger.resumed_of_kept _ he]
    rfl

theorem destruction_potential (hfork : env.fork < Fork.london) (hdao : env.fork ≠ .daoFork) :
    Potential env (fun _ => True) (refundBy env .selfdestruct)
      (fun l => 24000 * (l.own.card : Int)) where
  start message := by
    have hown : (Frame.ofMessage message).ledger.own = ∅ := by
      unfold Ledger.own
      exact (congrArg (· \ _) marked_empty).trans (Finset.empty_sdiff _)
    rw [hown]
    rfl
  alone {m m'} _ _ h := by
    unfold refundBy
    by_cases hd : m.opcode? env = some .selfdestruct
    · obtain ⟨hl, -⟩ := fetch_destroyed hfork hd h
      have hrefund : m'.frame.refund = m.frame.refund + m.frame.ledger.reward :=
        congrArg Ledger.refund hl
      have hcard := m.frame.ledger.card_own_destroyed
      rw [if_pos hd, hl]
      omega
    · have hu := fetch_unmarked hd h
      have hown : m'.frame.ledger.own = m.frame.ledger.own := by
        unfold Ledger.own Frame.ledger
        rw [hu.accountsToDelete, hu.message]
      rw [if_neg hd, hown, add_zero]
  resumed {m pending m₁ child} _ _ h hm he := by
    have hcard := m.frame.ledger.card_own_resumed hdao
      ((congrArg Message.deletedAbove hm).trans (deletedAbove_of_fetch h)) he
    rw [hcard]
    push_cast
    ring

/-! ## The DAO fork

In the DAO fork no frame hands on the accounts that it has marked, and since a destruction ends its
frame, none has marked any as long as it runs.
-/

/-- Neither the frame nor one above it has marked an account. -/
def Frame.IsClear (f : Frame) : Prop := f.accountsToDelete = ∅ ∧ f.message.deletedAbove = ∅

theorem Ledger.resumed_of_dao (l : Ledger) (child : Frame) :
    (l.resumed .daoFork child).accountsToDelete = l.accountsToDelete ∧
      (l.resumed .daoFork child).message = l.message := by
  unfold Ledger.resumed
  split
  · exact ⟨rfl, rfl⟩
  · exact ⟨rfl, rfl⟩

theorem Frame.IsClear.known {f : Frame} (h : f.IsClear) : f.ledger.known = ∅ := by
  change addressUnion f.accountsToDelete f.message.deletedAbove = ∅
  rw [h.1, h.2]
  rfl

theorem StepsTo.isClear_or (hdao : env.fork = .daoFork) (h : StepsTo runMessage env m m')
    (hm : m.frame.IsClear) : m'.frame.IsClear ∨
      m'.frame.running = false ∧ m'.frame.ledger = m.frame.ledger.destroyed := by
  have hsame (hdeleted : m'.frame.accountsToDelete = m.frame.accountsToDelete)
      (hmessage : m'.frame.message = m.frame.message) : m'.frame.IsClear := by
    unfold Frame.IsClear
    rw [hdeleted, hmessage]
    exact hm
  rcases h.ledger with ⟨m₁, hfetch, hframe⟩ | ⟨pending, m₁, child, w, hfetch, -, hl⟩
  · by_cases hd : m.opcode? env = some .selfdestruct
    · obtain ⟨hl, hrunning⟩ := fetch_destroyed (by rw [hdao]; decide) hd hfetch
      exact Or.inr ⟨hframe ▸ hrunning, hframe ▸ hl⟩
    · have hu := fetch_unmarked hd hfetch
      exact Or.inl (hsame (hframe ▸ hu.accountsToDelete) (hframe ▸ hu.message))
  · obtain ⟨hdeleted, hmessage⟩ := m.frame.ledger.resumed_of_dao child
    rw [← hdao, ← hl] at hdeleted hmessage
    exact Or.inl (hsame hdeleted hmessage)

theorem isClear_invariant (hdao : env.fork = .daoFork) : Invariant env Frame.IsClear where
  next {m m'} h hm ha := by
    rcases h.isClear_or hdao hm with hclear | ⟨hrunning, -⟩
    · exact hclear
    · exact absurd (hrunning.symm.trans ha.1) (by decide)
  enter {m pending m₁} _ hm h := by
    refine ⟨rfl, ?_⟩
    change pending.message.deletedAbove = ∅
    rw [deletedAbove_of_fetch h, hm.1, hm.2]
    rfl

theorem dao_potential (hdao : env.fork = .daoFork) : Potential env Frame.IsClear
    (fun m m' => refundBy env .selfdestruct m m' + -24000 * countOf env .selfdestruct m m')
    (fun _ => 0) where
  start _ := rfl
  alone {m m'} _ hm h := by
    unfold refundBy countOf
    by_cases hd : m.opcode? env = some .selfdestruct
    · obtain ⟨hl, -⟩ := fetch_destroyed (by rw [hdao]; decide) hd h
      have hrefund : m'.frame.refund = m.frame.refund + m.frame.ledger.reward :=
        congrArg Ledger.refund hl
      have hreward : m.frame.ledger.reward = 24000 := by
        rw [Ledger.reward, hm.known]
        exact if_neg Std.ExtTreeSet.not_mem_empty
      rw [if_pos hd, if_pos hd]
      omega
    · rw [if_neg hd, if_neg hd]
      rfl
  resumed _ _ _ _ _ := rfl

theorem launch_deletes_dao (hdao : env.fork = .daoFork) (hm : message.deletedAbove = ∅)
    (h : launch runMessage message env w = .ok frame w') (he : frame.error = none) {a : Address}
    (ha : a ∈ frame.accountsToDelete) : a = message.currentTarget := by
  obtain ⟨hfail, -⟩ | ⟨w₁, m, hs⟩ := launch_cases h
  · rw [he] at hfail
    cases hfail
  rw [hs.accountsToDelete] at ha
  have hclear {f : Frame} (hf : f.IsClear) : a ∉ f.accountsToDelete := by
    rw [hf.1]
    exact Std.ExtTreeSet.not_mem_empty
  rcases hs.steps.cases_tail with rfl | ⟨m₁, hsteps, hlast⟩
  · exact absurd ha (hclear ⟨rfl, hm⟩)
  · have hm₁ := (isClear_invariant hdao).steps hsteps (fun _ => ⟨rfl, hm⟩) hlast.active
    rcases hlast.isClear_or hdao hm₁ with hc | ⟨-, hdestroyed⟩
    · exact absurd ha (hclear hc)
    · have hdeleted : m.frame.accountsToDelete =
          m₁.frame.ledger.known.insert m₁.frame.message.currentTarget :=
        congrArg Ledger.accountsToDelete hdestroyed
      have htarget : m₁.frame.message = message :=
        (steps_local hsteps (containsBelow env _)).1.message
      rw [hdeleted, hm₁.known, htarget, Std.ExtTreeSet.mem_insert,
        Std.compare_eq_iff_eq] at ha
      rcases ha with ha | ha
      · exact ha.symm
      · exact absurd ha Std.ExtTreeSet.not_mem_empty

/-! ## Messages -/

/-- What the instructions of a kind add to the refund, in the frames of a message that are kept. -/
def Message.refundsBy (env : Environment) (op : Opcode) (message : Message) (w : World) : Int :=
  tally env (refundBy env op) message w

/-- How often instructions of a kind are executed, in the frames of a message that are kept. -/
def Message.timesOf (env : Environment) (op : Opcode) (message : Message) (w : World) : Int :=
  tally env (countOf env op) message w

theorem refund_of_launch (h : launch runMessage message env w = .ok frame w')
    (he : frame.error = none) : frame.refund =
      message.refundsBy env .sstore w + message.refundsBy env .selfdestruct w := by
  have htally := (refund_potential env).tally_eq (invariant_true env) trivial h he
  rw [tally_add_mul, one_mul] at htally
  exact htally.symm

theorem destructions_of_launch (hfork : env.fork < Fork.london) (hdao : env.fork ≠ .daoFork)
    (hm : message.deletedAbove = ∅) (h : launch runMessage message env w = .ok frame w')
    (he : frame.error = none) :
    message.refundsBy env .selfdestruct w = 24000 * (frame.accountsToDelete.size : Int) := by
  have htally := (destruction_potential hfork hdao).tally_eq (invariant_true env) trivial h he
  have hown : frame.ledger.own.card = frame.accountsToDelete.size := by
    change (marked frame.accountsToDelete \ marked frame.message.deletedAbove).card = _
    rw [message_of_launch h, hm, marked_empty, Finset.sdiff_empty, card_marked]
  rw [Message.refundsBy, htally, hown]

theorem dao_destructions_of_launch (hdao : env.fork = .daoFork) (hm : message.deletedAbove = ∅)
    (h : launch runMessage message env w = .ok frame w') (he : frame.error = none) :
    message.refundsBy env .selfdestruct w = 24000 * message.timesOf env .selfdestruct w := by
  have htally := (dao_potential hdao).tally_eq (isClear_invariant hdao) ⟨rfl, hm⟩ h he
  rw [tally_add_mul] at htally
  unfold Message.refundsBy Message.timesOf
  omega

end Refunds

end Evm

/-! ## Transactions -/

namespace Transaction

/-- Before London, if the outermost frame of a transaction succeeds, its refund is what the stores
and the destructions have added in the frames that were kept. Destructions have added 24000 for each
account that is marked for deletion in the end, however often and by which frames it was destroyed.
Only in the DAO fork, where frames do not hand on the accounts that they have marked, each
destruction has added this amount, and at most the account of the outermost frame is marked. -/
theorem destructions_refunded_once (env : Environment) (tx : Transaction) (s s₁ s₂ : State)
    (message : Message) (outcome : Outcome) (hfork : env.fork < Fork.london)
    (hprepare : tx.prepare env s = .ok message s₁)
    (hrun : BlockOp.runMachine env (runCall message) s₁ = .ok outcome s₂)
    (hkept : outcome.error = none) :
    (outcome.refund.toNat : Int) = message.refundsBy env .sstore { state := s₁ } +
      message.refundsBy env .selfdestruct { state := s₁ } ∧
    (env.fork ≠ .daoFork → message.refundsBy env .selfdestruct { state := s₁ } =
      24000 * (outcome.accountsToDelete.size : Int)) ∧
    (env.fork = .daoFork →
      message.refundsBy env .selfdestruct { state := s₁ } =
        24000 * message.timesOf env .selfdestruct { state := s₁ } ∧
      ∀ a ∈ outcome.accountsToDelete, a = message.currentTarget) := by
  obtain ⟨w, hcall, -⟩ := of_runMachine_ok hrun
  obtain ⟨r, hrequest⟩ := of_prepare_ok hprepare
  have hm := (Request.describes_of_ok hrequest).deletedAbove
  rcases of_runCall_ok hcall with ⟨-, rfl, -⟩ | ⟨-, frame, w₁, hlaunch, hc⟩
  · cases hkept
  · have he : frame.error = none := hc.error.symm.trans hkept
    have hdeleted : outcome.accountsToDelete = frame.accountsToDelete := by
      rw [hc.accountsToDelete, he]
      rfl
    rw [hc.refund he, hdeleted]
    exact ⟨refund_of_launch hlaunch he,
      fun hdao => destructions_of_launch hfork hdao hm hlaunch he,
      fun hdao => ⟨dao_destructions_of_launch hdao hm hlaunch he,
        fun a ha => launch_deletes_dao hdao hm hlaunch he ha⟩⟩

def calling (account : UInt8) : List UInt8 :=
  [0x60, 0, 0x60, 0, 0x60, 0, 0x60, 0, 0x60, 0, 0x61, 9, account, 0x61, 0x4e, 0x20, 0xf1]

/-- The account `0x901` destroys itself. `0x902` calls it and fails, and `0x900` calls `0x902` once
and `0x901` twice. -/
def beforeDestructions : State :=
  ((beforeTransfer ⟨(calling 2 ++ calling 1 ++ calling 1).toArray⟩ 1).setCode 0x901
    ⟨#[0x33, 0xff]⟩).setCode 0x902 ⟨(calling 1 ++ [0xfe]).toArray⟩

def transferEnvironment (fork : Fork) : Environment :=
  { (default : Environment) with
    fork := fork
    origin := 0xa94f5374fce5edbc8e2a8697c15331677e6ebf0b
    gasPrice := 10 }

/-- Of three destructions of one account one is undone and one is refunded. -/
theorem destructions_refunded_once_again :
    let env := transferEnvironment .byzantium
    env.fork < Fork.london ∧ ∃ message s₁ outcome s₂,
      transfer.prepare env beforeDestructions = .ok message s₁ ∧
      BlockOp.runMachine env (runCall message) s₁ = .ok outcome s₂ ∧ outcome.error = none ∧
      outcome.accountsToDelete.size = 1 ∧
      message.refundsBy env .selfdestruct { state := s₁ } = 24000 := by
  intro env
  have hrun : okWith (fun message s₁ => okWith
      (fun outcome _ => outcome.error.isNone && outcome.accountsToDelete.size == 1)
      (BlockOp.runMachine env (runCall message) s₁))
      (transfer.prepare env beforeDestructions) = true := by decide +kernel
  obtain ⟨message, s₁, hprepare, hrun⟩ := of_okWith hrun
  obtain ⟨outcome, s₂, hrun, hend⟩ := of_okWith hrun
  obtain ⟨hkept, hsize⟩ := Bool.and_eq_true_iff.mp hend
  have hkept : outcome.error = none := Option.isNone_iff_eq_none.mp hkept
  have hsize : outcome.accountsToDelete.size = 1 := beq_iff_eq.mp hsize
  have hfork : env.fork < Fork.london := by decide
  obtain ⟨-, hrefunds, -⟩ := destructions_refunded_once env transfer beforeDestructions s₁ s₂
    message outcome hfork hprepare hrun hkept
  refine ⟨hfork, message, s₁, outcome, s₂, hprepare, hrun, hkept, hsize, ?_⟩
  rw [hrefunds (by decide), hsize]
  rfl

/-- In the DAO fork two destructions of one account are refunded, which is not deleted. -/
theorem destructions_refunded_twice :
    let env := transferEnvironment .daoFork
    ∃ message s₁ outcome s₂, transfer.prepare env beforeDestructions = .ok message s₁ ∧
      BlockOp.runMachine env (runCall message) s₁ = .ok outcome s₂ ∧ outcome.error = none ∧
      outcome.accountsToDelete.size = 0 ∧
      message.refundsBy env .selfdestruct { state := s₁ } = 48000 := by
  intro env
  have hrun : okWith (fun message s₁ => message.refundsBy env .selfdestruct { state := s₁ } == 48000
      && okWith (fun outcome _ => outcome.error.isNone && outcome.accountsToDelete.size == 0)
        (BlockOp.runMachine env (runCall message) s₁))
      (transfer.prepare env beforeDestructions) = true := by decide +kernel
  obtain ⟨message, s₁, hprepare, hrun⟩ := of_okWith hrun
  obtain ⟨hrefunds, hrun⟩ := Bool.and_eq_true_iff.mp hrun
  obtain ⟨outcome, s₂, hrun, hend⟩ := of_okWith hrun
  obtain ⟨hkept, hsize⟩ := Bool.and_eq_true_iff.mp hend
  exact ⟨message, s₁, outcome, s₂, hprepare, hrun, Option.isNone_iff_eq_none.mp hkept,
    beq_iff_eq.mp hsize, beq_iff_eq.mp hrefunds⟩

end Transaction

end ExecutionLayer
