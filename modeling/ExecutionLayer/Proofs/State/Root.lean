import ExecutionLayer.Proofs.Trie.Root
import ExecutionLayer.State.Root

/-! # The root of a state determines accounts and storage

The entry of an account holds nonce, balance, the hash of its code and the root of its storage, so
the binding of tries is used twice: for the accounts and, below each of them, for the slots. Storage
that belongs to no account has no part in the root.
-/
namespace ExecutionLayer

namespace State
open Trie (Pairs Placeable placeAll pairPreimages)

def slotsOf (s : State) (address : Address) : Slots := s.storage[address]?.getD ∅

def slotPairs (slots : Slots) : Pairs :=
  slots.toList.map fun e => (fixedBytes e.1, Rlp.encode (.ofWord e.2))

theorem getStorage_eq (s : State) (address : Address) (key : Word) :
    s.getStorage address key = (s.slotsOf address)[key]?.getD 0 := by
  unfold getStorage Storage.get slotsOf
  cases s.storage[address]? with
  | none => simp
  | some slots => rfl

theorem slotPaths_eq (hash : Bytes → Hash) (slots : Slots) :
    slotPaths hash slots = placeAll hash true (slotPairs slots) := by
  rw [slotPaths, placeAll, slotPairs, List.foldl_map]

theorem storageHash_eq (hash : Bytes → Hash) (s : State) (address : Address) :
    s.storageHash hash address =
      Trie.Node.root hash (Trie.build hash (placeAll hash true (slotPairs (s.slotsOf address)))) := by
  unfold storageHash slotsOf
  cases s.storage[address]? with
  | none =>
    have hnil : slotPairs ∅ = [] := by
      rw [slotPairs, Std.ExtTreeMap.toList_eq_nil_iff.mpr rfl, List.map_nil]
    rw [Option.getD_none, hnil, placeAll, List.foldl_nil, Trie.build]
    rfl
  | some slots =>
    change slotsRoot hash slots = _
    rw [slotsRoot, slotPaths_eq, Option.getD_some]

theorem size_fixedBytes {w : Nat} (x : BitVec w) : (fixedBytes x).size = w / 8 := by
  change (fixedBytes x).toList.length = w / 8
  rw [toList_fixedBytes, BigEndian.length_digits]

/-- Entries of maps whose keys are written in full. -/
theorem placeable_map {w : Nat} (hw : w = 8 * (w / 8)) (hsize : w / 8 < 2 ^ 60) {β : Type}
    {entries : List (BitVec w × β)} (h : entries.Pairwise fun a b => ¬ compare a.1 b.1 = .eq)
    {f : BitVec w × β → Rlp.Item} (hf : ∀ e ∈ entries, (Rlp.encode (f e)).length < 2 ^ 60) :
    Placeable (entries.map fun e => (fixedBytes e.1, Rlp.encode (f e))) where
  distinct := by
    rw [List.map_map]
    refine List.pairwise_map.mpr (h.imp fun hne he => hne ?_)
    exact Std.compare_eq_iff_eq.mpr (fixedBytes_inj hw (congrArg Bytes.toList he))
  keySize := List.forall_mem_map.mpr fun e _ => (size_fixedBytes e.1).trans_lt hsize
  valueLength := List.forall_mem_map.mpr hf
  nonempty := List.forall_mem_map.mpr fun _ _ => Rlp.encode_ne_nil _

theorem length_encode_ofWord_le (x : Word) : (Rlp.encode (.ofWord x)).length ≤ 41 := by
  have hd : (BigEndian.digits (byteLength x.toNat) x.toNat).length ≤ 32 :=
    Rlp.length_ofNat_le x.isLt
  have hb := Trie.Node.length_encode_bytes_le (u := BigEndian.digits (byteLength x.toNat) x.toNat)
    (by omega)
  exact hb.trans (by omega)

theorem placeable_slotPairs (slots : Slots) : Placeable (slotPairs slots) :=
  placeable_map (by decide) (by decide) Std.ExtTreeMap.distinct_keys_toList fun e _ =>
    (length_encode_ofWord_le e.2).trans_lt (by decide)

theorem mem_slotPairs {slots : Slots} {key value : Word} :
    (fixedBytes key, Rlp.encode (.ofWord value)) ∈ slotPairs slots ↔ slots[key]? = some value := by
  unfold slotPairs
  constructor
  · intro h
    obtain ⟨e, he, heq⟩ := List.mem_map.mp h
    obtain ⟨hk, hv⟩ := Prod.mk.inj heq
    have hk : e.1 = key := fixedBytes_inj (by decide) (congrArg Bytes.toList hk)
    have hlt (x : Word) : (Rlp.encode (.ofWord x)).length < 2 ^ 64 :=
      (length_encode_ofWord_le x).trans_lt (by decide)
    have hv : e.2 = value := Rlp.Item.ofWord_inj (Rlp.encode_inj (hlt _) (hlt _) hv)
    rw [← hk, ← hv]
    exact Std.ExtTreeMap.mem_toList_iff_getElem?_eq_some.mp he
  · intro h
    exact List.mem_map.mpr
      ⟨(key, value), Std.ExtTreeMap.mem_toList_iff_getElem?_eq_some.mpr h, rfl⟩

theorem getElem?_slots_eq {hash : Bytes → Hash} {strings : List Bytes}
    (hc : ¬ Collides hash strings) {a b : Slots}
    (hsa : pairPreimages hash true (slotPairs a) ⊆ strings)
    (hsb : pairPreimages hash true (slotPairs b) ⊆ strings)
    (h : Trie.Node.root hash (Trie.build hash (placeAll hash true (slotPairs a))) =
      Trie.Node.root hash (Trie.build hash (placeAll hash true (slotPairs b)))) (key : Word) :
    a[key]? = b[key]? := by
  have hmem := Trie.mem_iff_of_placeAll_root_eq hc (placeable_slotPairs a) (placeable_slotPairs b)
    hsa hsb h
  refine Option.ext fun value => ?_
  rw [← mem_slotPairs, ← mem_slotPairs]
  exact hmem _

def accountPairs (hash : Bytes → Hash) (s : State) : Pairs :=
  s.accounts.toList.map fun e =>
    (fixedBytes e.1, (e.2.encode hash (s.storageHash hash e.1)).toList)

/-- The strings that are hashed while the root of a state is computed: addresses, codes and keys of
slots, and the nodes of the trie of accounts and of the tries of their storage. -/
def hashedStrings (hash : Bytes → Hash) (s : State) : List Bytes :=
  pairPreimages hash true (s.accountPairs hash) ++
    s.accounts.toList.flatMap fun e =>
      e.2.code :: pairPreimages hash true (slotPairs (s.slotsOf e.1))

theorem accountPaths_eq (hash : Bytes → Hash) (s : State) :
    s.accountPaths hash = placeAll hash true (s.accountPairs hash) := by
  rw [accountPaths, placeAll, accountPairs, List.foldl_map]

theorem length_encode_account_le {a : Account} (h : a.nonce < 2 ^ 64) (hash : Bytes → Hash)
    (root : Hash) : (Rlp.encode (a.item hash root)).length ≤ 200 := by
  have hn : (BigEndian.digits (byteLength a.nonce) a.nonce).length ≤ 8 :=
    Rlp.length_ofNat_le h
  have hnonce := Trie.Node.length_encode_bytes_le
    (u := BigEndian.digits (byteLength a.nonce) a.nonce) (by omega)
  have hbalance := length_encode_ofWord_le a.balance
  have hroot := Trie.Node.length_encode_ofFixed_le root
  have hcode := Trie.Node.length_encode_ofFixed_le (hash a.code)
  have hall : (Rlp.encodeAll [.ofNat a.nonce, .ofWord a.balance, .ofFixed root,
      .ofFixed (hash a.code)]).length ≤ 140 := by
    simp only [Rlp.encodeAll, List.length_append, List.length_nil]
    change (Rlp.encode (.bytes (BigEndian.digits _ _))).length + _ ≤ _
    omega
  have hheader := Rlp.length_header_le 192 (hall.trans_lt (by decide))
  rw [Account.item, Rlp.encode, Rlp.wrap, List.length_append]
  omega

theorem encode_account_inj {hash : Bytes → Hash} {a b : Account} {root root' : Hash}
    (ha : a.nonce < 2 ^ 64) (hb : b.nonce < 2 ^ 64)
    (h : (a.encode hash root).toList = (b.encode hash root').toList) :
    a.nonce = b.nonce ∧ a.balance = b.balance ∧ root = root' ∧ hash a.code = hash b.code := by
  have hlt {c : Account} (hc : c.nonce < 2 ^ 64) (r : Hash) :
      (Rlp.encode (c.item hash r)).length < 2 ^ 64 :=
    (length_encode_account_le hc hash r).trans_lt (by decide)
  have hi := Rlp.encode_inj (hlt ha root) (hlt hb root') h
  simp only [Account.item, Rlp.Item.list.injEq, List.cons.injEq, and_true] at hi
  exact ⟨Rlp.Item.ofNat_inj hi.1, Rlp.Item.ofWord_inj hi.2.1, Rlp.Item.ofFixed_inj hi.2.2.1,
    Rlp.Item.ofFixed_inj hi.2.2.2⟩

theorem nonce_lt_of_mem {s : State} (h : ∀ a, (s.account a).nonce < 2 ^ 64)
    {e : Address × Account} (he : e ∈ s.accounts.toList) : e.2.nonce < 2 ^ 64 := by
  have hg : s.accounts[e.1]? = some e.2 := Std.ExtTreeMap.mem_toList_iff_getElem?_eq_some.mp he
  have hn := h e.1
  rwa [account, account?, hg, Option.getD_some] at hn

theorem placeable_accountPairs {s : State} (h : ∀ a, (s.account a).nonce < 2 ^ 64)
    (hash : Bytes → Hash) : Placeable (s.accountPairs hash) :=
  placeable_map (f := fun e : Address × Account => e.2.item hash (s.storageHash hash e.1))
    (by decide) (by decide) Std.ExtTreeMap.distinct_keys_toList fun _ he =>
      (length_encode_account_le (nonce_lt_of_mem h he) hash _).trans_lt (by decide)

theorem account_carries {hash : Bytes → Hash} {strings : List Bytes} (hc : ¬ Collides hash strings)
    {s t : State} (hs : ∀ a, (s.account a).nonce < 2 ^ 64) (ht : ∀ a, (t.account a).nonce < 2 ^ 64)
    (hss : s.hashedStrings hash ⊆ strings) (hts : t.hashedStrings hash ⊆ strings)
    (hst : ∀ e, e ∈ s.accountPairs hash → e ∈ t.accountPairs hash) {address : Address} {a : Account}
    (ha : s.account? address = some a) : t.account? address = some a ∧
      ∀ key, s.getStorage address key = t.getStorage address key := by
  have hmem : (address, a) ∈ s.accounts.toList :=
    Std.ExtTreeMap.mem_toList_iff_getElem?_eq_some.mpr ha
  obtain ⟨⟨address', b⟩, hb, heq⟩ := List.mem_map.mp
    (hst _ (List.mem_map.mpr ⟨(address, a), hmem, rfl⟩))
  obtain ⟨hk, hv⟩ := Prod.mk.inj heq
  have hk : address' = address := fixedBytes_inj (by decide) (congrArg Bytes.toList hk)
  subst hk
  obtain ⟨hnonce, hbalance, hroot, hcode⟩ :=
    encode_account_inj (nonce_lt_of_mem ht hb) (nonce_lt_of_mem hs hmem) hv
  have hown {u : State} (hus : u.hashedStrings hash ⊆ strings) {e : Address × Account}
      (he : e ∈ u.accounts.toList) : e.2.code :: pairPreimages hash true
        (slotPairs (u.slotsOf e.1)) ⊆ strings :=
    fun x hx => hus (List.mem_append_right _ (List.mem_flatMap.mpr ⟨e, he, hx⟩))
  have hcode : b.code = a.code := eq_of_not_collides hc (hown hts hb (List.mem_cons_self ..))
    (hown hss hmem (List.mem_cons_self ..)) hcode
  have hba : b = a := by
    cases a
    cases b
    simp_all
  refine ⟨hba ▸ Std.ExtTreeMap.mem_toList_iff_getElem?_eq_some.mp hb, fun key => ?_⟩
  rw [storageHash_eq, storageHash_eq] at hroot
  rw [getStorage_eq, getStorage_eq, getElem?_slots_eq hc
    (fun x hx => hown hss hmem (List.mem_cons_of_mem _ hx))
    (fun x hx => hown hts hb (List.mem_cons_of_mem _ hx)) hroot.symm]

theorem eq_of_hashAll_eq {hash : Bytes → Hash} {s t : State}
    (hs : ∀ a, (s.account a).nonce < 2 ^ 64) (ht : ∀ a, (t.account a).nonce < 2 ^ 64)
    (h : s.hashAll hash = t.hashAll hash) :
    ((∀ a, s.account? a = t.account? a) ∧
      ∀ a, s.accountExists a → ∀ key, s.getStorage a key = t.getStorage a key) ∨
      Collides hash (s.hashedStrings hash ++ t.hashedStrings hash) := by
  by_cases hc : Collides hash (s.hashedStrings hash ++ t.hashedStrings hash)
  · exact Or.inr hc
  · left
    have hss : s.hashedStrings hash ⊆ s.hashedStrings hash ++ t.hashedStrings hash :=
      List.subset_append_left _ _
    have hts : t.hashedStrings hash ⊆ s.hashedStrings hash ++ t.hashedStrings hash :=
      List.subset_append_right _ _
    rw [hashAll, hashAll, accountPaths_eq, accountPaths_eq] at h
    have hmem := Trie.mem_iff_of_placeAll_root_eq hc (placeable_accountPairs hs hash)
      (placeable_accountPairs ht hash) (fun x hx => hss (List.mem_append_left _ hx))
      (fun x hx => hts (List.mem_append_left _ hx)) h
    refine ⟨fun a => Option.ext fun x => ⟨fun hx => ?_, fun hx => ?_⟩, fun a ha key => ?_⟩
    · exact (account_carries hc hs ht hss hts (fun e => (hmem e).mp) hx).1
    · exact (account_carries hc ht hs hts hss (fun e => (hmem e).mpr) hx).1
    · obtain ⟨x, hx⟩ := Option.isSome_iff_exists.mp ha
      exact (account_carries hc hs ht hss hts (fun e => (hmem e).mp) hx).2 key

end State

/-- Roots bind what they are roots of, for any function in the place of the hash. Tries whose
entries can be encoded have roots, and if two tries of one kind have the same root then they hold
the same encoded values under the same keys, or two different strings that were hashed on the way
have the same hash. The same holds of states, whose roots bind the accounts and the storage of
every account. -/
theorem root_binding (hash : Bytes → Hash) :
    (∀ (V W : Type) (encodeA : Bytes → V → Except Fault Bytes)
      (encodeB : Bytes → W → Except Fault Bytes) (a : Trie V) (b : Trie W),
      a.secured = b.secured → a.Encodable encodeA → b.Encodable encodeB →
      ∃ ra rb, a.root hash encodeA = .ok ra ∧ b.root hash encodeB = .ok rb ∧
        (ra = rb →
          (∀ key value, a.Holds encodeA key value ↔ b.Holds encodeB key value) ∨
            Collides hash (a.hashedStrings hash encodeA ++ b.hashedStrings hash encodeB))) ∧
    ∀ s t : State, s.snapshots = [] → t.snapshots = [] →
      (∀ a, (s.account a).nonce < 2 ^ 64) → (∀ a, (t.account a).nonce < 2 ^ 64) →
      ∃ rs rt, s.root hash = .ok rs ∧ t.root hash = .ok rt ∧
        (rs = rt →
          ((∀ a, s.account? a = t.account? a) ∧
            ∀ a, s.accountExists a → ∀ key, s.getStorage a key = t.getStorage a key) ∨
            Collides hash (s.hashedStrings hash ++ t.hashedStrings hash)) := by
  constructor
  · intro V W encodeA encodeB a b hsec ha hb
    obtain ⟨as, _, hra, _⟩ := ha.exists_pairs hash
    obtain ⟨bs, _, hrb, _⟩ := hb.exists_pairs hash
    refine ⟨_, _, hra, hrb, fun h => Trie.holds_iff_of_root_eq hsec ha hb ?_⟩
    rw [hra, hrb, h]
  · intro s t hs ht hns hnt
    refine ⟨s.hashAll hash, t.hashAll hash, by simp [State.root, hs], by simp [State.root, ht], ?_⟩
    exact fun h => State.eq_of_hashAll_eq hns hnt h

/-- Two orders of the same entries, one key of which extends the other one, and a state before and
after its first nonce. -/
theorem root_binding_two_orders :
    let hash : Bytes → Hash := fun b => BitVec.ofNat 256 b.toNat
    let encode : Bytes → Bytes → Except Fault Bytes := fun _ value => .ok value
    let short : Bytes × Bytes := (.ofList [1], .ofList [7])
    let long : Bytes × Bytes := (.ofList [1, 2], .ofList [8, 9])
    let a : Trie Bytes := ⟨false, .empty, [short, long]⟩
    let b : Trie Bytes := ⟨false, .empty, [long, short]⟩
    let s : State := {}
    let t : State := s.incrementNonce 3
    (∃ ra rb, a.root hash encode = .ok ra ∧ b.root hash encode = .ok rb ∧
      (ra = rb → (∀ key value, a.Holds encode key value ↔ b.Holds encode key value) ∨
        Collides hash (a.hashedStrings hash encode ++ b.hashedStrings hash encode))) ∧
    ∃ rs rt, s.root hash = .ok rs ∧ t.root hash = .ok rt ∧
      (rs = rt → ((∀ a, s.account? a = t.account? a) ∧
          ∀ a, s.accountExists a → ∀ key, s.getStorage a key = t.getStorage a key) ∨
        Collides hash (s.hashedStrings hash ++ t.hashedStrings hash)) := by
  intro hash encode short long a b s t
  have ha : a.Encodable encode := ⟨by decide, by decide, by simp [a, short, long, encode]; decide⟩
  have hb : b.Encodable encode := ⟨by decide, by decide, by simp [b, short, long, encode]; decide⟩
  have hs (address : Address) : (s.account address).nonce < 2 ^ 64 := by
    simp [s, State.account, State.account?, Account.empty]
  have ht (address : Address) : (t.account address).nonce < 2 ^ 64 := by
    simp only [t, s, State.incrementNonce, State.modifyAccount, State.setAccount, State.account,
      State.account?, Std.ExtTreeMap.getElem?_insert]
    split <;> simp [Account.empty]
  have h := root_binding hash
  exact ⟨h.1 Bytes Bytes encode encode a b rfl ha hb, h.2 s t rfl rfl hs ht⟩

end ExecutionLayer
