import ExecutionLayer.Proofs.State.Tables
import ExecutionLayer.Proofs.State.World
import ExecutionLayer.State.Session

/-! # Snapshots are copies

Instead of referring to copies of tables one may keep whole copies of the world, and return to the
latest one. No command tells the difference: every reply is the same, errors included, and so are
the roots once all copies are given up.
-/
namespace ExecutionLayer.State

/-- The commands that read or write the state at one place, or concern the whole of it. -/
def Command.isDirect : Command → Bool
  | close | moveEther _ _ _ | createEther _ _ | withdraw _ _ | setBalance _ _ | touch _
  | incrementNonce _ | setCode _ _ | destroyEmpty _ | applyDao | dump => false
  | _ => true

/-- The state that a command leaves behind if states are values. -/
def next (s : State) : Command → State
  | .begin => s.begin
  | .commit => s.commit.toOption.getD s
  | .rollback => s.rollback.toOption.getD s
  | command => (command.apply s).2

/-- The world and copies of it. -/
structure Copies where
  current : World
  earlier : List World
  created : Address → Bool

namespace Copies

def write (c : Copies) (f : World → World) : Except Fault Reply × Copies :=
  (.ok .done, { c with current := f c.current })

/-- Gives up the latest copy and goes on with the given world. -/
def close (c : Copies) (world : World) (rest : List World) : Except Fault Reply × Copies :=
  (.ok .done, ⟨world, rest, if rest.isEmpty then fun _ => false else c.created⟩)

noncomputable def answer (c : Copies) : Command → Except Fault Reply
  | .account a => .ok (.account (some ((c.current.accounts a).getD .empty)))
  | .accountOptional a => .ok (.account (c.current.accounts a))
  | .accountExists a => .ok (.truth (c.current.accounts a).isSome)
  | .hasCodeOrNonce a => .ok (.truth ((c.current.accounts a).getD .empty).hasCodeOrNonce)
  | .isEmpty a => .ok (.truth ((c.current.accounts a).getD .empty).isEmpty)
  | .existsAndIsEmpty a => .ok (.truth ((c.current.accounts a).any Account.isEmpty))
  | .isAlive a => .ok (.truth ((c.current.accounts a).any fun x => !x.isEmpty))
  | .getStorage a key => .ok (.word (c.current.storage a key))
  | .getTransient a key => .ok (.word (c.current.transient a key))
  | .startStorage a key =>
    if c.created a then .ok (.word 0)
    else
      match c.earlier.getLast? with
      | some first => .ok (.word (first.storage a key))
      | none => .error .indexOutOfRange
  | .storageRoot a =>
    if c.earlier.isEmpty then .ok (.hash (c.current.storageRoot keccak256 a))
    else .error .brokenInvariant
  | .root =>
    if c.earlier.isEmpty then .ok (.hash (c.current.root keccak256)) else .error .brokenInvariant
  | _ => .ok .done

noncomputable def run (c : Copies) : Command → Except Fault Reply × Copies
  | .begin => (.ok .done, { c with earlier := c.current :: c.earlier })
  | .commit =>
    match c.earlier with
    | [] => (.error .indexOutOfRange, c)
    | _ :: rest => c.close c.current rest
  | .rollback =>
    match c.earlier with
    | [] => (.error .indexOutOfRange, c)
    | copy :: rest => c.close copy rest
  | .setAccount a x => c.write (·.setAccount a x)
  | .destroyAccount a => c.write fun w => (w.destroyStorage a).setAccount a none
  | .destroyStorage a => c.write (·.destroyStorage a)
  | .setStorage a key value =>
    if (c.current.accounts a).isSome then c.write (·.setStorage a key value)
    else (.error .brokenInvariant, c)
  | .setTransient a key value => c.write (·.setTransient a key value)
  | .markCreated a => (.ok .done, { c with created := Function.update c.created a true })
  | command => (c.answer command, c)

def ofState (s : State) : Copies := ⟨.ofMaps s.accounts s.storage ∅, [], s.created.contains⟩

end Copies

/-! ## Single commands -/

namespace Store
variable {fork : Fork} {st : Store} {command : Command}

def handles (st : Store) : List Handle := st.current :: st.snapshots

def refs (st : Store) : List Nat := st.handles.flatMap fun h => [h.storage, h.transient]

/-- No table is shared, and no slot is kept that holds zero. -/
structure IsSound (st : Store) : Prop where
  opened : st.isOpen = true
  apart : st.tables.Apart st.refs
  accounts : (st.handles.map Handle.accounts).Nodup
  known : ∀ h ∈ st.handles, h.accounts < st.tables.accounts.size
  noZeros : ∀ h ∈ st.handles, (st.tables.storageAt h.storage).NoZeros

def world (st : Store) (h : Handle) : World :=
  .ofMaps (st.tables.accountsAt h.accounts) (st.tables.storageAt h.storage)
    (st.tables.storageAt h.transient)

theorem world_congr {st st' : Store} {p q : Handle}
    (ha : st'.tables.accountsAt p.accounts = st.tables.accountsAt q.accounts)
    (hs : st'.tables.storageAt p.storage = st.tables.storageAt q.storage)
    (ht : st'.tables.storageAt p.transient = st.tables.storageAt q.transient) :
    st'.world p = st.world q := by
  unfold world
  rw [ha, hs, ht]

def copies (st : Store) : Copies :=
  ⟨st.world st.current, st.snapshots.map st.world, st.created.contains⟩

/-- The same reply is given as by the copies, and both are still the same afterwards, as is the
state that is read. -/
def Matches (x : Except Fault Reply × Store) (y : Except Fault Reply × Copies) (s : State) : Prop :=
  x.1 = y.1 ∧ x.2.IsSound ∧ x.2.copies = y.2 ∧ x.2.view = s

namespace IsSound

theorem change (h : st.IsSound) {m : Tables} (created : Std.ExtTreeSet Address)
    (hapart : m.Apart st.refs) (hsize : m.accounts.size = st.tables.accounts.size)
    (hz : (m.storageAt st.current.storage).NoZeros)
    (hkeep : ∀ p ∈ st.snapshots, m.accountsAt p.accounts = st.tables.accountsAt p.accounts ∧
      m.storageAt p.storage = st.tables.storageAt p.storage ∧
      m.storageAt p.transient = st.tables.storageAt p.transient) :
    IsSound { st with tables := m, created := created } ∧
      copies { st with tables := m, created := created } =
        ⟨.ofMaps (m.accountsAt st.current.accounts) (m.storageAt st.current.storage)
          (m.storageAt st.current.transient), st.copies.earlier, created.contains⟩ ∧
      view { st with tables := m, created := created } =
        ⟨m.accountsAt st.current.accounts, m.storageAt st.current.storage, st.view.snapshots,
          created⟩ := by
  refine ⟨⟨h.opened, hapart, h.accounts, hsize ▸ h.known, List.forall_mem_cons.mpr
    ⟨hz, fun p hp => ?_⟩⟩, ?_, ?_⟩
  · exact (hkeep p hp).2.1 ▸ h.noZeros p (List.mem_cons_of_mem _ hp)
  · refine congrArg (fun earlier => Copies.mk _ earlier _) (List.map_congr_left fun p hp => ?_)
    obtain ⟨ha, hs, ht⟩ := hkeep p hp
    exact world_congr ha hs ht
  · refine congrArg (fun earlier => State.mk _ _ earlier _) (List.map_congr_left fun p hp => ?_)
    exact congrArg₂ Snapshot.mk (hkeep p hp).1 (hkeep p hp).2.1

/-- Through the references of a snapshot nothing is seen of a change through a current one. -/
theorem kept (h : st.IsSound) {m : Tables} {ref : Nat} {storage : Storage}
    (hm : Tables.Rewrites st.refs st.tables m ref storage)
    (href : ref = st.current.storage ∨ ref = st.current.transient) :
    ∀ p ∈ st.snapshots, m.storageAt p.storage = st.tables.storageAt p.storage ∧
      m.storageAt p.transient = st.tables.storageAt p.transient := by
  have hnodup : (st.current.storage :: st.current.transient ::
      st.snapshots.flatMap fun p => [p.storage, p.transient]).Nodup := h.apart.nodup
  simp only [List.nodup_cons, List.mem_cons, not_or] at hnodup
  have hother : ∀ r ∈ st.snapshots.flatMap (fun p => [p.storage, p.transient]),
      m.storageAt r = st.tables.storageAt r := by
    intro r hr
    refine hm.elsewhere r (List.mem_append_right _ hr) fun heq => ?_
    rcases href with rfl | rfl
    · exact hnodup.1.2 (heq ▸ hr)
    · exact hnodup.2.1 (heq ▸ hr)
  intro p hp
  exact ⟨hother _ (List.mem_flatMap.mpr ⟨p, hp, by simp⟩),
    hother _ (List.mem_flatMap.mpr ⟨p, hp, by simp⟩)⟩

theorem storage_ne (h : st.IsSound) : st.current.storage ≠ st.current.transient := by
  have hnodup : (st.current.storage :: st.current.transient :: _).Nodup := h.apart.nodup
  exact fun heq => (List.nodup_cons.mp hnodup).1 (heq ▸ List.mem_cons_self)

theorem refs_current (st : Store) {ref : Nat}
    (href : ref = st.current.storage ∨ ref = st.current.transient) : ref ∈ st.refs := by
  rcases href with rfl | rfl <;> simp [refs, handles]

/-- A slot is written in the current storage or transient storage. -/
theorem setSlot_matches (h : st.IsSound) {ref : Nat} {storage transient : Storage}
    (href : ref = st.current.storage ∨ ref = st.current.transient) (a : Address) (key value : Word)
    (hstorage : (st.tables.setSlot ref a key value).storageAt st.current.storage = storage)
    (htransient : (st.tables.setSlot ref a key value).storageAt st.current.transient = transient)
    (hz : storage.NoZeros) {f : World → World} (hworld : World.ofMaps
      (st.tables.accountsAt st.current.accounts) storage transient = f st.copies.current) :
    Matches (st.setSlot ref a key value) (st.copies.write f)
      { st.view with storage := storage } := by
  have hm := Tables.rewrites_setSlot h.apart (refs_current st href) a key value
  have hsame := st.tables.accounts_setSlot ref a key value
  have haccounts (r : Nat) := congrArg (·[r]?.getD ∅) hsame
  obtain ⟨hsound, hcopies, hview⟩ := h.change st.created hm.apart (congrArg Array.size hsame)
    (hstorage ▸ hz) fun p hp => ⟨haccounts _, h.kept hm href p hp⟩
  refine ⟨rfl, hsound, hcopies.trans (congrArg (fun w => Copies.mk w _ _) ?_), hview.trans ?_⟩
  · rw [hstorage, htransient, ← hworld]
    exact congrArg (fun accounts => World.ofMaps accounts storage transient) (haccounts _)
  · rw [hstorage]
    exact congrArg (fun accounts => State.mk accounts storage _ _) (haccounts _)

theorem setStorage_matches (h : st.IsSound) (a : Address) (key value : Word) :
    Matches (st.setSlot st.current.storage a key value)
      (st.copies.write (·.setStorage a key value))
      { st.view with storage := st.view.storage.set a key value } := by
  have hm := Tables.rewrites_setSlot h.apart (refs_current st (Or.inl rfl)) a key value
  exact h.setSlot_matches (Or.inl rfl) a key value hm.here
    (hm.elsewhere _ (refs_current st (Or.inr rfl)) h.storage_ne.symm)
    ((h.noZeros _ List.mem_cons_self).set a key value) (World.ofMaps_set ..)

theorem setTransient_matches (h : st.IsSound) (a : Address) (key value : Word) :
    Matches (st.setSlot st.current.transient a key value)
      (st.copies.write (·.setTransient a key value)) st.view := by
  have hm := Tables.rewrites_setSlot h.apart (refs_current st (Or.inr rfl)) a key value
  exact h.setSlot_matches (Or.inr rfl) a key value
    (hm.elsewhere _ (refs_current st (Or.inl rfl)) h.storage_ne) hm.here
    (h.noZeros _ List.mem_cons_self) (World.ofMaps_set_transient ..)

/-- Accounts are changed, and storage is given up. -/
theorem assign (h : st.IsSound) {s : State} (hz : s.storage.NoZeros)
    (hsub : ∀ (a : Address) slots, s.storage[a]? = some slots →
      st.view.storage[a]? = some slots) :
    (st.assign s).IsSound ∧ (st.assign s).copies =
      ⟨.ofMaps s.accounts s.storage (st.tables.storageAt st.current.transient),
        st.copies.earlier, s.created.contains⟩ ∧
      (st.assign s).view = { s with snapshots := st.view.snapshots } := by
  have hread (r : Nat) : (st.assign s).tables.accountsAt r =
      if st.current.accounts = r then s.accounts else st.tables.accountsAt r := by
    change (st.tables.accounts.setIfInBounds st.current.accounts s.accounts)[r]?.getD ∅ = _
    rw [Array.getElem?_setIfInBounds, if_pos (h.known _ List.mem_cons_self)]
    split <;> rfl
  have hm : Tables.Rewrites st.refs st.tables (st.assign s).tables st.current.storage
      s.storage := by
    have hapart : (st.tables.setAccounts st.current.accounts s.accounts).Apart st.refs :=
      ⟨h.apart.nodup, h.apart.known, h.apart.placed, h.apart.alone⟩
    have hm : Tables.Rewrites _ _ (st.assign s).tables st.current.storage s.storage :=
      Tables.rewrites_setDirectory hapart List.mem_cons_self s.storage.contains (fun a => ?_)
        fun a => ?_
    · exact ⟨hm.apart, hm.here, hm.elsewhere⟩
    · rw [Std.ExtTreeMap.getElem?_filter']
      change _ = if s.storage.contains a then (st.tables.directoryAt _)[a]? else none
      cases (st.tables.directoryAt st.current.storage)[a]? with
      | none => exact (ite_self none).symm
      | some place => rfl
    · rw [Std.ExtTreeMap.contains_eq_isSome_getElem?]
      cases hs : s.storage[a]? with
      | none => rfl
      | some slots => exact (hsub a slots hs).symm
  have hother : ∀ p ∈ st.snapshots,
      (st.assign s).tables.accountsAt p.accounts = st.tables.accountsAt p.accounts := by
    refine fun p hp => (hread _).trans (if_neg fun heq => ?_)
    exact (List.nodup_cons.mp h.accounts).1 (heq ▸ List.mem_map_of_mem hp)
  have hhere := (hread _).trans (if_pos rfl)
  obtain ⟨hsound, hcopies, hview⟩ := h.change s.created hm.apart Array.size_setIfInBounds
    (hm.here ▸ hz) fun p hp => ⟨hother p hp, h.kept hm (Or.inl rfl) p hp⟩
  refine ⟨hsound, hcopies.trans (congrArg (fun w => Copies.mk w _ _) ?_), hview.trans ?_⟩
  · rw [hm.here, hm.elsewhere _ (refs_current st (Or.inr rfl)) h.storage_ne.symm]
    exact congrArg (fun accounts => World.ofMaps accounts _ _) hhere
  · rw [hm.here]
    exact congrArg (fun accounts => State.mk accounts _ _ _) hhere

theorem begin_matches (h : st.IsSound) :
    Matches (.ok .done, st.begin) (st.copies.run .begin) st.view.begin := by
  obtain ⟨hapart, hstorage, htransient, hkeep⟩ := Tables.add_spec h.apart
    (st.tables.accountsAt st.current.accounts) (st.tables.storageAt st.current.storage)
    (st.tables.storageAt st.current.transient)
  have hperm (a b c d : Nat) (l : List Nat) :
      (a :: b :: c :: d :: l).Perm (d :: c :: a :: b :: l) := by
    refine List.perm_iff_count.mpr fun r => ?_
    simp only [List.count_cons]
    omega
  have hread := Tables.accountsAt_add st.tables (st.tables.accountsAt st.current.accounts)
    (st.tables.storageAt st.current.storage) (st.tables.storageAt st.current.transient)
  have hnew : st.begin.world (st.tables.copy st.current).2 = st.world st.current :=
    world_congr ((hread _).trans (if_pos rfl)) hstorage htransient
  have hold : ∀ p ∈ st.handles, (st.begin.tables.storageAt p.storage).NoZeros ∧
      st.begin.snapshotAt p = st.snapshotAt p ∧ st.begin.world p = st.world p := by
    intro p hp
    have ha := (hread p.accounts).trans (if_neg (Nat.ne_of_lt (h.known p hp)))
    have hs := hkeep p.storage (List.mem_flatMap.mpr ⟨p, hp, by simp⟩)
    have ht := hkeep p.transient (List.mem_flatMap.mpr ⟨p, hp, by simp⟩)
    exact ⟨hs ▸ h.noZeros p hp, congrArg₂ Snapshot.mk ha hs, world_congr ha hs ht⟩
  obtain ⟨hcurrent, hearlier⟩ := List.forall_mem_cons.mp hold
  refine ⟨rfl, ⟨h.opened, hapart.mono fun r => Nat.le_of_eq ((hperm _ _ _ _ _).count_eq r), ?_, ?_,
    ?_⟩, ?_, ?_⟩
  · have hfresh : st.tables.accounts.size ∉ st.handles.map Handle.accounts := by
      intro hm
      obtain ⟨p, hp, heq⟩ := List.mem_map.mp hm
      exact Nat.ne_of_lt (h.known p hp) heq
    exact (List.Perm.swap _ _ _).nodup_iff.mp (List.nodup_cons.mpr ⟨hfresh, h.accounts⟩)
  · have hsize : st.begin.tables.accounts.size = st.tables.accounts.size + 1 := Array.size_push ..
    obtain ⟨hfirst, hrest⟩ := List.forall_mem_cons.mp h.known
    rw [hsize]
    exact List.forall_mem_cons.mpr ⟨Nat.lt_succ_of_lt hfirst, List.forall_mem_cons.mpr
      ⟨Nat.lt_succ_self _, fun p hp => Nat.lt_succ_of_lt (hrest p hp)⟩⟩
  · have hfirst := h.noZeros _ List.mem_cons_self
    exact List.forall_mem_cons.mpr ⟨hcurrent.1, List.forall_mem_cons.mpr
      ⟨hstorage ▸ hfirst, fun p hp => (hearlier p hp).1⟩⟩
  · have hmap := List.map_congr_left fun p hp => (hearlier p hp).2.2
    exact congrArg₂ (Copies.mk · · st.created.contains) hcurrent.2.2
      (congrArg₂ List.cons hnew hmap)
  · have hmap := List.map_congr_left fun p hp => (hearlier p hp).2.1
    have hnew := congrArg₂ Snapshot.mk ((hread _).trans (if_pos rfl)) hstorage
    exact congrArg₂ (fun now earlier => State.mk now.accounts now.storage earlier st.created)
      hcurrent.2.1 (congrArg₂ List.cons hnew hmap)

theorem close_matches (h : st.IsSound) {current : Handle} {rest : List Handle}
    (hsub : (current :: rest).Sublist st.handles) :
    Matches (st.close current rest) (st.copies.close (st.world current) (rest.map st.world))
      (closeSnapshot ⟨(st.snapshotAt current).accounts, (st.snapshotAt current).storage, [],
        st.created⟩ (rest.map st.snapshotAt)) := by
  refine ⟨rfl, ⟨h.opened, h.apart.mono fun r => (hsub.flatMap _).count_le r,
    h.accounts.sublist (hsub.map _), fun p hp => h.known p (hsub.subset hp),
    fun p hp => h.noZeros p (hsub.subset hp)⟩, congrArg (Copies.mk _ _) (funext fun a => ?_), ?_⟩
  · cases rest with
    | nil =>
      change (∅ : Std.ExtTreeSet Address).contains a = false
      simp
    | cons p rest => rfl
  · cases rest <;> rfl

theorem startStorage_answer (st : Store) (a : Address) (key : Word) :
    st.copies.answer (.startStorage a key) = (st.view.startStorage a key).map .word := by
  have hcreated : st.copies.created a = st.view.created.contains a := rfl
  have hfirst : st.copies.earlier.getLast? = st.snapshots.getLast?.map st.world :=
    List.getLast?_map
  have hlast : st.view.snapshots.getLast? = st.snapshots.getLast?.map st.snapshotAt :=
    List.getLast?_map
  rw [Copies.answer, startStorage, hcreated, hfirst, hlast]
  split
  · rfl
  · cases st.snapshots.getLast? <;> rfl

theorem isEmpty_earlier (st : Store) :
    st.copies.earlier.isEmpty = st.view.snapshots.isEmpty := by
  simp [copies, view]

theorem storageRoot_answer (h : st.IsSound) (a : Address) :
    st.copies.answer (.storageRoot a) = (st.view.storageRoot keccak256 a).map .hash := by
  have hroot := World.storageRoot_ofMaps (s := st.view) keccak256
    (st.tables.storageAt st.current.transient) (h.noZeros _ List.mem_cons_self) a
  rw [Copies.answer, isEmpty_earlier, State.storageRoot]
  split
  · exact congrArg (fun x => Except.ok (Reply.hash x)) hroot
  · rfl

theorem root_answer (h : st.IsSound) :
    st.copies.answer .root = (st.view.root keccak256).map .hash := by
  have hroot := World.root_ofMaps (s := st.view) keccak256
    (st.tables.storageAt st.current.transient) (h.noZeros _ List.mem_cons_self)
  rw [Copies.answer, isEmpty_earlier, State.root]
  split
  · exact congrArg (fun x => Except.ok (Reply.hash x)) hroot
  · rfl

theorem kept_matches (h : st.IsSound) (reply : Except Fault Reply) :
    Matches (reply, st.assign st.view) (reply, st.copies) st.view :=
  ⟨rfl, h.assign (s := st.view) (h.noZeros _ List.mem_cons_self) fun _ _ hs => hs⟩

theorem ask_matches (h : st.IsSound) {f : State → Except Fault Reply}
    (hask : command.onState = Command.onState.ask f)
    (hrun : st.onOpen command = ((command.apply st.view).1, st.assign (command.apply st.view).2))
    (hanswer : st.copies.run command = (f st.view, st.copies))
    (hnext : st.view.next command = (command.apply st.view).2) :
    Matches (st.onOpen command) (st.copies.run command) (st.view.next command) := by
  have happly : command.apply st.view = (f st.view, st.view) := by
    have hget : Command.onState.ask f st.view = _ := seq_apply get _ st.view
    rw [Command.apply, hask, hget]
    dsimp only [get, getThe, MonadStateOf.get, EStateM.get]
    cases f st.view <;> rfl
  rw [hrun, hnext, happly, hanswer]
  exact h.kept_matches _

theorem written_matches (h : st.IsSound) {s : State} (f : World → World) (hz : s.storage.NoZeros)
    (hsub : ∀ (a : Address) slots, s.storage[a]? = some slots → st.view.storage[a]? = some slots)
    (hworld : World.ofMaps s.accounts s.storage (st.tables.storageAt st.current.transient) =
      f st.copies.current) (hcreated : s.created = st.created)
    (hsnapshots : s.snapshots = st.view.snapshots) :
    Matches (.ok .done, st.assign s) (st.copies.write f) s := by
  obtain ⟨hsound, hcopies, hview⟩ := h.assign hz hsub
  refine ⟨rfl, hsound, hcopies.trans ?_, hview.trans ?_⟩
  · rw [hworld, hcreated]
    rfl
  · rw [← hsnapshots]

theorem onOpen_matches (h : st.IsSound) (hd : command.isDirect = true)
    (hne : ∀ a key value, command ≠ .getTransient a key ∧ command ≠ .setTransient a key value) :
    Matches (st.onOpen command) (st.copies.run command) (st.view.next command) := by
  have hz : st.view.storage.NoZeros := h.noZeros _ List.mem_cons_self
  have herased (a b : Address) (slots : Slots) (hs : (st.view.storage.erase a)[b]? = some slots) :
      st.view.storage[b]? = some slots := by
    rw [Std.ExtTreeMap.getElem?_erase] at hs
    split at hs
    · cases hs
    · exact hs
  have hearlier : st.copies.earlier = st.snapshots.map st.world := rfl
  have hview : st.view.snapshots = st.snapshots.map st.snapshotAt := rfl
  cases command with
  | begin => exact h.begin_matches
  | commit =>
    rw [onOpen, Copies.run, next, commit, hearlier, hview]
    cases hs : st.snapshots with
    | nil => exact ⟨rfl, h, rfl, rfl⟩
    | cons p rest =>
      refine h.close_matches ?_
      rw [handles, hs]
      exact (List.sublist_cons_self p rest).cons_cons _
  | rollback =>
    rw [onOpen, Copies.run, next, rollback, hearlier, hview]
    cases hs : st.snapshots with
    | nil => exact ⟨rfl, h, rfl, rfl⟩
    | cons p rest =>
      refine h.close_matches ?_
      rw [handles, hs]
      exact List.sublist_cons_self _ _
  | account a | accountOptional a | accountExists a | hasCodeOrNonce a | isEmpty a
  | existsAndIsEmpty a | isAlive a | getStorage a key => exact h.kept_matches _
  | startStorage a key =>
    exact h.ask_matches rfl rfl (congrArg (·, _) (startStorage_answer st a key)) rfl
  | storageRoot a => exact h.ask_matches rfl rfl (congrArg (·, _) (h.storageRoot_answer a)) rfl
  | root => exact h.ask_matches rfl rfl (congrArg (·, _) h.root_answer) rfl
  | setAccount a y =>
    have hworld := World.ofMaps_setAccount (st.tables.storageAt st.current.transient)
      st.view.storage st.view a y
    cases y <;> exact h.written_matches (·.setAccount a _) hz (fun _ _ hs => hs) hworld rfl rfl
  | destroyAccount a =>
    refine h.written_matches (fun w => (w.destroyStorage a).setAccount a none) (hz.erase a)
      (herased a) ?_ rfl rfl
    exact (World.ofMaps_setAccount _ _ (st.view.destroyStorage a) a none).trans
      (congrArg (·.setAccount a none) (World.ofMaps_erase _ _ _ a))
  | destroyStorage a =>
    exact h.written_matches (·.destroyStorage a) (hz.erase a) (herased a)
      (World.ofMaps_erase _ _ _ a) rfl rfl
  | markCreated a =>
    obtain ⟨hsound, hcopies, hview⟩ := h.assign (s := st.view.markCreated a) hz fun _ _ hs => hs
    refine ⟨rfl, hsound, hcopies.trans (congrArg (Copies.mk _ _) (funext fun b => ?_)), hview⟩
    change (st.created.insert a).contains b = Function.update st.created.contains a true b
    by_cases hab : a = b
    · subst hab
      simp
    · simp [Std.ExtTreeSet.contains_insert, hab, Function.update_of_ne (Ne.symm hab)]
  | setStorage a key value =>
    have hnext : st.view.next (.setStorage a key value) = if (st.view.account? a).isSome then
        { st.view with storage := st.view.storage.set a key value } else st.view := by
      change (Command.apply _ st.view).2 = _
      rw [Command.apply, Command.onState, Command.onState.attempt, seq_apply, step, setStorage]
      by_cases hc : (st.view.account? a).isSome = true
      · rw [if_pos hc, if_pos hc]
        rfl
      · rw [if_neg hc, if_neg hc]
    rw [onOpen, Copies.run, hnext]
    change Matches (if (st.view.account? a).isSome then _ else _)
      (if (st.view.account? a).isSome then _ else _) _
    split
    · exact h.setStorage_matches a key value
    · exact ⟨rfl, h, rfl, rfl⟩
  | getTransient a key => exact absurd rfl (hne a key 0).1
  | setTransient a key value => exact absurd rfl (hne a key value).2
  | close | moveEther | createEther | withdraw | setBalance | touch | incrementNonce | setCode
  | destroyEmpty | applyDao | dump => cases hd

theorem run_matches (h : st.IsSound) (hk : command.isKnown fork = true)
    (hd : command.isDirect = true) :
    Matches (st.run fork command) (st.copies.run command) (st.view.next command) := by
  have hopen := h.onOpen_matches hd
  unfold run
  rw [hk, h.opened]
  simp only [Bool.not_true, Bool.false_eq_true, if_false, if_true]
  cases command with
  | getTransient a key => exact ⟨rfl, h, rfl, rfl⟩
  | setTransient a key value => exact h.setTransient_matches a key value
  | _ => exact hopen (by simp)

theorem start (s : State) (hz : s.storage.NoZeros) : (Store.ofState (some s)).IsSound ∧
    (Store.ofState (some s)).copies = Copies.ofState s ∧
      (Store.ofState (some s)).view = { s with snapshots := [] } := by
  obtain ⟨hapart, hstorage, htransient, -⟩ := Tables.add_spec (Tables.apart_nil {}) s.accounts
    s.storage ∅
  refine ⟨⟨rfl, hapart.mono fun r => Nat.le_of_eq ((List.Perm.swap _ _ []).count_eq r),
    List.nodup_singleton _, List.forall_mem_singleton.mpr Nat.zero_lt_one,
    List.forall_mem_singleton.mpr (hstorage ▸ hz)⟩, ?_, ?_⟩
  · exact congrArg₂ (fun p q => (⟨.ofMaps s.accounts p q, [], _⟩ : Copies)) hstorage htransient
  · exact congrArg (fun storage => State.mk s.accounts storage [] s.created) hstorage

end IsSound
end Store

/-! ## Runs -/

section Runs
variable {σ : Type} (run : σ → Command → Except Fault Reply × σ)

def replies (x : σ) : List Command → List (Except Fault Reply)
  | [] => []
  | command :: commands => (run x command).1 :: replies (run x command).2 commands

def after (x : σ) (commands : List Command) : σ :=
  commands.foldl (fun x command => (run x command).2) x

theorem after_cons (x : σ) (command : Command) (commands : List Command) :
    after run x (command :: commands) = after run (run x command).2 commands := rfl

theorem after_append (x : σ) (l l' : List Command) :
    after run x (l ++ l') = after run (after run x l) l' := List.foldl_append

end Runs

variable {fork : Fork} {st : Store} {commands : List Command}

theorem Store.IsSound.runs_match (h : st.IsSound)
    (hc : ∀ command ∈ commands, command.isKnown fork = true ∧ command.isDirect = true) :
    replies (Store.run fork) st commands = replies Copies.run st.copies commands ∧
      (after (Store.run fork) st commands).IsSound ∧
      (after (Store.run fork) st commands).copies = after Copies.run st.copies commands ∧
      (after (Store.run fork) st commands).view = commands.foldl next st.view := by
  induction commands generalizing st with
  | nil => exact ⟨rfl, h, rfl, rfl⟩
  | cons command commands ih =>
    obtain ⟨⟨hk, hd⟩, hrest⟩ := List.forall_mem_cons.mp hc
    obtain ⟨hreply, hsound, hcopies, hview⟩ := h.run_matches hk hd
    obtain ⟨hreplies, hafter⟩ := ih hsound hrest
    rw [hcopies] at hreplies hafter
    rw [hview] at hafter
    exact ⟨by rw [replies, replies, hreply, hreplies], hafter⟩

namespace Copies
variable {c c' : Copies} {command : Command} {first : World}

/-- The first copy is still there, and the accounts that count as created are those that did, and
those that satisfy `P`. -/
def Keeps (first : World) (P : Address → Prop) (c c' : Copies) : Prop :=
  c'.earlier.getLast? = some first ∧ ∀ a, c'.created a = true ↔ c.created a = true ∨ P a

theorem keeps_of_same {P : Address → Prop} (hP : ∀ a, ¬ P a)
    (hfirst : c.earlier.getLast? = some first) (hearlier : c'.earlier = c.earlier)
    (hcreated : c'.created = c.created) : Keeps first P c c' := by
  rw [Keeps, hearlier, hcreated]
  exact ⟨hfirst, fun a => (or_iff_left (hP a)).symm⟩

theorem keeps_close {P : Address → Prop} (hP : ∀ a, ¬ P a) {copy : World} {rest : List World}
    (hfirst : c.earlier.getLast? = some first) (hcopy : c.earlier = copy :: rest)
    (hopen : rest ≠ []) (world : World) : Keeps first P c (c.close world rest).2 := by
  have hrest : ¬ rest.isEmpty = true := by simpa using hopen
  rw [hcopy, List.getLast?_cons_of_ne_nil hopen] at hfirst
  refine ⟨hfirst, fun a => ?_⟩
  rw [close, if_neg hrest]
  exact (or_iff_left (hP a)).symm

theorem keeps_run (hfirst : c.earlier.getLast? = some first)
    (hopen : (c.run command).2.earlier ≠ []) :
    Keeps first (fun a => command = .markCreated a) c (c.run command).2 := by
  have hne : c.earlier ≠ [] := by
    rintro hnil
    simp [hnil] at hfirst
  obtain ⟨copy, rest, hcopy⟩ := List.exists_cons_of_ne_nil hne
  cases command with
  | begin =>
    refine ⟨?_, fun a => by simp [run]⟩
    exact (List.getLast?_cons_of_ne_nil hne).trans hfirst
  | commit | rollback =>
    rw [run, hcopy] at hopen ⊢
    exact keeps_close (fun a h => by cases h) hfirst hcopy hopen _
  | markCreated a =>
    refine ⟨hfirst, fun b => ?_⟩
    by_cases hab : a = b
    · simp [run, hab]
    · simp [run, hab, Function.update_of_ne (Ne.symm hab)]
  | setStorage a key value =>
    rw [run]
    split <;> exact keeps_of_same (fun a h => by cases h) hfirst rfl rfl
  | _ => exact keeps_of_same (fun a h => by cases h) hfirst rfl rfl

theorem keeps_after {commands : List Command} (hfirst : c.earlier.getLast? = some first)
    (hopen : ∀ p, p <+: commands → (after run c p).earlier ≠ []) :
    Keeps first (fun a => .markCreated a ∈ commands) c (after run c commands) := by
  induction commands generalizing c with
  | nil => exact keeps_of_same (fun a h => by cases h) hfirst rfl rfl
  | cons command commands ih =>
    obtain ⟨hkept, hcreated⟩ := keeps_run hfirst (hopen [command] (by simp))
    obtain ⟨hlast, hall⟩ := ih hkept fun p hp => hopen (command :: p) (by simpa using hp)
    refine ⟨hlast, fun a => ?_⟩
    rw [after_cons, hall, hcreated]
    simp only [List.mem_cons, or_assoc, eq_comm]

theorem Keeps.answer_startStorage {P : Address → Prop} (h : Keeps first P c c') (a : Address)
    (key : Word) :
    (c.created a = true ∨ P a → c'.answer (.startStorage a key) = .ok (.word 0)) ∧
      (¬ (c.created a = true ∨ P a) →
        c'.answer (.startStorage a key) = .ok (.word (first.storage a key))) := by
  rw [← h.2 a, answer, h.1]
  exact ⟨fun hc => if_pos hc, fun hc => if_neg hc⟩

end Copies

theorem Store.IsSound.startStorage_after (h : st.IsSound) (hf : Fork.istanbul ≤ fork)
    (hc : ∀ command ∈ commands, command.isKnown fork = true ∧ command.isDirect = true)
    (hclosed : st.snapshots = [])
    (hopen : ∀ p, p <+: commands → (after (Store.run fork) st (.begin :: p)).snapshots ≠ [])
    (a : Address) (key : Word) :
    (st.created.contains a = true ∨ .markCreated a ∈ commands →
        ((after (Store.run fork) st (.begin :: commands)).run fork (.startStorage a key)).1 =
          .ok (.word 0)) ∧
      (¬ (st.created.contains a = true ∨ .markCreated a ∈ commands) →
        ((after (Store.run fork) st (.begin :: commands)).run fork (.startStorage a key)).1 =
          (st.run fork (.getStorage a key)).1) := by
  have hcs (p : List Command) (hp : p <+: commands) : ∀ command ∈ .begin :: p,
      command.isKnown fork = true ∧ command.isDirect = true :=
    List.forall_mem_cons.mpr ⟨⟨rfl, rfl⟩, fun command hm => hc command (hp.subset hm)⟩
  have hk : Command.isKnown fork (.startStorage a key) = true := decide_eq_true hf
  obtain ⟨-, hsound, hcopies, -⟩ := h.runs_match (hcs commands List.prefix_rfl)
  -- The copy made at the start is the first one, as there are no others.
  have hnil : st.copies.earlier = [] := by rw [Store.copies, hclosed, List.map_nil]
  have hkeeps : Copies.Keeps st.copies.current (fun a => .markCreated a ∈ commands) st.copies
      (after Copies.run st.copies (.begin :: commands)) := by
    refine Copies.keeps_after (c := (st.copies.run .begin).2) ?_ fun p hp hnone => hopen p hp ?_
    · rw [Copies.run, hnil]
      rfl
    · rw [← after_cons, ← (h.runs_match (hcs p hp)).2.2.1] at hnone
      exact List.map_eq_nil_iff.mp hnone
  rw [(hsound.run_matches hk rfl).1, (h.run_matches rfl rfl).1, hcopies]
  exact hkeeps.answer_startStorage a key

theorem after_session (session : Session) (commands : List Command) :
    replies (Session.run fork) session commands =
        replies (Store.run fork) session.store commands ∧
      (after (Session.run fork) session commands).store =
        after (Store.run fork) session.store commands := by
  induction commands generalizing session with
  | nil => exact ⟨rfl, rfl⟩
  | cons command commands ih =>
    obtain ⟨hreplies, hafter⟩ := ih (session.run fork command).2
    exact ⟨congrArg (List.cons _) hreplies, hafter⟩

def Session.start (s : State) : Session := { state := some s }

/-- A session cannot be told from one that keeps copies of the world: it gives the same replies, and
holds the same afterwards. The state in its tables is the one that results from states as values.
From when a first snapshot is opened, and as long as it is open, the earlier value of a slot is the
one that was read before, and zero if the account has been marked as created. -/
theorem snapshots_are_copies {s : State} (hz : s.storage.NoZeros)
    (hc : ∀ command ∈ commands, command.isKnown fork = true ∧ command.isDirect = true) :
    replies (Session.run fork) (.start s) commands =
        replies Copies.run (.ofState s) commands ∧
    (after (Session.run fork) (.start s) commands).store.copies =
        after Copies.run (.ofState s) commands ∧
    (after (Session.run fork) (.start s) commands).store.view =
        commands.foldl next { s with snapshots := [] } ∧
    ∀ before rest, commands = before ++ .begin :: rest → Fork.istanbul ≤ fork →
      (after (Session.run fork) (.start s) before).store.snapshots = [] →
      (∀ p, p <+: rest →
        (after (Session.run fork) (.start s) (before ++ .begin :: p)).store.snapshots ≠ []) →
      ∀ a key,
        ((after (Session.run fork) (.start s) before).store.created.contains a = true ∨
            .markCreated a ∈ rest →
          ((after (Session.run fork) (.start s) commands).run fork (.startStorage a key)).1 =
            .ok (.word 0)) ∧
        (¬ ((after (Session.run fork) (.start s) before).store.created.contains a = true ∨
            .markCreated a ∈ rest) →
          ((after (Session.run fork) (.start s) commands).run fork (.startStorage a key)).1 =
            ((after (Session.run fork) (.start s) before).run fork (.getStorage a key)).1) := by
  obtain ⟨hstart, hcopies, hview⟩ := Store.IsSound.start s hz
  obtain ⟨hreplies, -, hafter, hnext⟩ := hstart.runs_match hc
  have hstore (x : Session) (l : List Command) : (after (Session.run fork) x l).store = _ :=
    (after_session x l).2
  rw [hcopies] at hreplies hafter
  refine ⟨(after_session _ _).1.trans hreplies, (congrArg Store.copies (hstore _ _)).trans hafter,
    (congrArg Store.view (hstore _ _)).trans (hview ▸ hnext),
    fun before rest hsplit hf hclosed hopen a key => ?_⟩
  subst hsplit
  obtain ⟨hbefore, hrest⟩ := List.forall_mem_append.mp hc
  have hsound := (hstart.runs_match hbefore).2.1
  simp only [Session.run, after_append, hstore] at hclosed hopen ⊢
  exact hsound.startStorage_after hf (List.forall_mem_cons.mp hrest).2 hclosed hopen a key

def oneSlot : State := { storage := Storage.set ∅ 1 2 5 }

/-- Storage is destroyed, transient storage is written, and both come back. -/
def detour : List Command :=
  [.begin, .destroyStorage 1, .setTransient 1 2 7, .getStorage 1 2, .rollback, .getStorage 1 2,
    .getTransient 1 2]

/-- The replies on a detour, and the value that can be read during it. -/
theorem snapshots_are_copies_detour :
    replies (Session.run .cancun) (.start oneSlot) detour =
      [.ok .done, .ok .done, .ok .done, .ok (.word 0), .ok .done, .ok (.word 5),
        .ok (.word 0)] ∧
    ((after (Session.run .cancun) (.start oneSlot) [.begin, .destroyStorage 1]).run .cancun
      (.startStorage 1 2)).1 = .ok (.word 5) := by
  have hz : oneSlot.storage.NoZeros :=
    Storage.NoZeros.set (fun a key => by simp [Storage.slot?_empty]) 1 2 5
  have hslot : oneSlot.storage.get 1 2 = 5 := by
    rw [oneSlot, Storage.get_set]
    rfl
  have hdetour : ∀ command ∈ detour,
      command.isKnown .cancun = true ∧ command.isDirect = true := by decide
  have hdestroy : ∀ command ∈ [Command.begin, .destroyStorage 1],
      command.isKnown .cancun = true ∧ command.isDirect = true := by decide
  have hread : replies (Session.run .cancun) (.start oneSlot) [.getStorage 1 2] =
      [.ok (.word 5)] := by
    rw [(snapshots_are_copies hz (by decide)).1, ← hslot]
    rfl
  constructor
  · have hcopies : replies Copies.run (.ofState oneSlot) detour =
        [.ok .done, .ok .done, .ok .done, .ok (.word 0), .ok .done,
          .ok (.word (oneSlot.storage.get 1 2)), .ok (.word 0)] := rfl
    rw [(snapshots_are_copies hz hdetour).1, hcopies, hslot]
  · obtain ⟨-, -, -, hstart⟩ := snapshots_are_copies hz hdestroy
    have hopen : ∀ p, p <+: [Command.destroyStorage 1] → (after (Session.run .cancun)
        (.start oneSlot) ([] ++ .begin :: p)).store.snapshots ≠ [] := by
      intro p hp
      rcases List.prefix_cons_iff.mp hp with rfl | ⟨q, rfl, hq⟩
      · exact List.cons_ne_nil _ _
      · rw [List.prefix_nil.mp hq]
        exact List.cons_ne_nil _ _
    have hnot : ¬ (oneSlot.created.contains 1 = true ∨
        Command.markCreated 1 ∈ [Command.destroyStorage 1]) := by
      simp [oneSlot]
    rw [(hstart [] [.destroyStorage 1] rfl (by decide) rfl hopen 1 2).2 hnot]
    exact List.head_eq_of_cons_eq hread

end ExecutionLayer.State
