import ExecutionLayer.Genesis
import ExecutionLayer.Proofs.Hex
import ExecutionLayer.Proofs.Rlp.Fields
import ExecutionLayer.Proofs.State.Payment
import ExecutionLayer.Proofs.Trie.Contents

/-! # The first state reads back

What the entries of a configuration say is an allocation: accounts at addresses, with fields that may
be left out. Entries whose texts write their values are placed one after the other, and read back
afterwards. But the balance may not be left out, and a slot may only be listed to be empty.
-/
namespace ExecutionLayer.Genesis
open Text (Writes)

/-- What an entry says, as values. -/
structure Allocation where
  address : Address
  nonce? : Option Nat
  balance? : Option Word
  code? : Option Bytes
  slots : List (Word × Word)

def Allocation.account (a : Allocation) : Account where
  nonce := a.nonce?.getD 0
  balance := a.balance?.getD 0
  code := a.code?.getD ByteArray.empty

/-- The text is of decimal digits, not too many, and writes the number. -/
def SpellsDecimal (s : String) (n : Nat) : Prop :=
  s.toList ≠ [] ∧ s.toList.length ≤ Text.maxDecimals ∧ Writes 10 s.toList n

/-- The texts of an entry write the values of an allocation, with or without the mark for hexadecimal
digits. -/
structure Entry.Says (e : Entry) (a : Allocation) : Prop where
  address : ∃ cs, Hex.Spells e.address cs a.address.toNat ∧ cs.length ≤ 40
  nonce : Option.Rel SpellsDecimal e.nonce? a.nonce?
  balance : Option.Rel (fun s balance => SpellsDecimal s balance.toNat ∨
    ∃ cs ≠ [], s.toList = '0' :: 'x' :: cs ∧ Writes 16 cs balance.toNat) e.balance? a.balance?
  code : Option.Rel (fun s code => ∃ cs, Hex.Spells s cs code.toNat ∧ cs.length = 2 * code.size)
    e.code? a.code?
  storage : e.storage.Forall₂ (fun s slot =>
    (∃ cs, Hex.Spells s.1 cs slot.1.toNat ∧ cs.length ≤ 64) ∧
      ∃ cs ≠ [], Hex.Spells s.2 cs slot.2.toNat) a.slots

section Reading
variable {e : Entry} {a : Allocation}

theorem SpellsDecimal.integer? {s : String} {n : Nat} (h : SpellsDecimal s n) :
    Text.integer? 10 s = some (n : Int) := h.2.2.integer? h.1 fun _ => h.2.1

theorem toWordAnyBase_eq {s : String} {balance : Word} (h : SpellsDecimal s balance.toNat ∨
    ∃ cs ≠ [], s.toList = '0' :: 'x' :: cs ∧ Writes 16 cs balance.toNat) :
    Hex.toWordAnyBase s = .ok balance := by
  have hadmits : (Integer.Kind.fixed 256).admits balance.toNat = true := by
    have hlt : (balance.toNat : Int) < (2 ^ 256 : Nat) := Int.ofNat_lt.mpr balance.isLt
    simpa [Integer.Kind.admits] using hlt
  have hword : BitVec.ofNat 256 balance.toNat = balance := by
    rw [BitVec.ofNat_toNat, BitVec.setWidth_eq]
  unfold Hex.toWordAnyBase
  rcases h with h | ⟨cs, hne, hs, hwrites⟩
  · have hmark : ¬Hex.hasMark s = true := by
      intro hmark
      obtain ⟨rest, hrest⟩ := Hex.hasMark_iff.mp hmark
      exact (h.2.2.isPlainDigit 'x' (by simp [← hrest])).mark.1 rfl
    have hmake : (Integer.Kind.fixed 256).make balance.toNat = .ok balance.toNat := if_pos hadmits
    rw [if_neg hmark, h.integer?]
    exact (except_of_ok hmake _).trans (congrArg Except.ok hword)
  · rw [if_pos (Hex.hasMark_iff.mpr ⟨cs, hs.symm⟩),
      except_of_ok (Hex.Spells.toInteger ⟨Or.inr hs, hwrites⟩ hne hadmits)]
    exact congrArg Except.ok hword

theorem admits_natural (n : Nat) : Integer.Kind.natural.admits n = true :=
  decide_eq_true (Int.natCast_nonneg n)

theorem Entry.Says.nonceOf (h : e.Says a) : nonceOf (e.nonce?.getD "0") = .ok (a.nonce?.getD 0) := by
  have hread : Text.integer? 10 (e.nonce?.getD "0") = some ((a.nonce?.getD 0 : Nat) : Int) := by
    have hnonce := h.nonce
    cases hs : e.nonce? <;> cases hn : a.nonce? <;> rw [hs, hn] at hnonce <;> cases hnonce
    · rfl
    · next hspells => exact hspells.integer?
  rw [Genesis.nonceOf, hread]
  exact if_pos (admits_natural _)

theorem Entry.Says.toBytes (h : e.Says a) :
    Hex.toBytes (e.code?.getD "0x") = .ok (a.code?.getD ByteArray.empty) := by
  have hcode := h.code
  cases hs : e.code? <;> cases hn : a.code? <;> rw [hs, hn] at hcode <;> cases hcode
  · have hmark : Hex.dropMark "0x" = [] := by
      rw [Hex.dropMark, if_pos (Hex.hasMark_iff.mpr ⟨[], rfl⟩)]
      rfl
    exact congrArg Hex.decode hmark
  · next hspells =>
    obtain ⟨cs, hspells, hlength⟩ := hspells
    obtain ⟨b, hb, hsize, hvalue⟩ := Hex.decode_eq hspells.2 hlength
    rw [Option.getD_some, Option.getD_some, Hex.toBytes, hspells.dropMark_eq, hb,
      Bytes.ext_toNat hsize hvalue]

theorem Entry.Says.account_eq (h : e.Says a) (hb : a.balance? ≠ none) :
    e.account = .ok a.account := by
  have hbalance := h.balance
  rw [Entry.account, except_of_ok h.nonceOf]
  cases hs : e.balance? <;> cases hn : a.balance? <;> rw [hs, hn] at hbalance <;> cases hbalance
  · contradiction
  · next hspells =>
    refine (except_of_ok (toWordAnyBase_eq hspells) _).trans ((except_of_ok h.toBytes _).trans ?_)
    rw [Allocation.account, hn]
    rfl

theorem Entry.Says.account_error (h : e.Says a) (hb : a.balance? = none) :
    e.account = .error .missingComponent := by
  have hbalance := h.balance
  rw [Entry.account, except_of_ok h.nonceOf]
  rw [hb] at hbalance
  cases hs : e.balance? <;> rw [hs] at hbalance <;> cases hbalance
  rfl

/-! ## Placing -/

def setSlot (t : Trie Trie.Content) (slot : Word × Word) : Trie Trie.Content :=
  t.set (fixedBytes slot.1) (.natural slot.2.toNat)

def Allocation.placed (p : Placed) (a : Allocation) : Placed where
  state := p.state.setAccount a.address (some a.account)
  storage := p.storage.insert a.address (a.slots.foldl setSlot (p.slots a.address))

theorem placeSlot_eq {s : String × String} {slot : Word × Word} (t : Trie Trie.Content)
    (hkey : ∃ cs, Hex.Spells s.1 cs slot.1.toNat ∧ cs.length ≤ 64)
    (hvalue : ∃ cs ≠ [], Hex.Spells s.2 cs slot.2.toNat) :
    placeSlot t s = .ok (setSlot t slot) := by
  obtain ⟨cs, hspells, hlength⟩ := hkey
  obtain ⟨b, hb, hsize, hnumber⟩ := hspells.toSized_filled (k := 32) hlength
  obtain rfl : fixedBytes slot.1 = b := by
    rw [← fixedBytes_ofNat (w := 256) (by decide) hsize, hnumber, BitVec.ofNat_toNat,
      BitVec.setWidth_eq]
  obtain ⟨cs', hne, hspells'⟩ := hvalue
  rw [placeSlot, Hex.toBytes32, except_of_ok hb,
    except_of_ok (hspells'.toInteger hne (admits_natural _))]
  rfl

theorem foldlM_placeSlot {texts : List (String × String)} {slots : List (Word × Word)}
    (h : texts.Forall₂ (fun s slot => (∃ cs, Hex.Spells s.1 cs slot.1.toNat ∧ cs.length ≤ 64) ∧
      ∃ cs ≠ [], Hex.Spells s.2 cs slot.2.toNat) slots) (t : Trie Trie.Content) :
    texts.foldlM placeSlot t = .ok (slots.foldl setSlot t) := by
  induction h generalizing t with
  | nil => rfl
  | cons hslot _ ih =>
    rw [List.foldlM_cons, except_of_ok (placeSlot_eq t hslot.1 hslot.2), ih]
    rfl

theorem Entry.Says.toAddress (h : e.Says a) : Hex.toAddress e.address = .ok a.address := by
  obtain ⟨cs, hspells, hlength⟩ := h.address
  exact hspells.toAddress hlength

theorem Entry.Says.place_eq (h : e.Says a) (hb : a.balance? ≠ none) (p : Placed) :
    place p e = .ok (a.placed p) := by
  rw [place, except_of_ok h.toAddress, except_of_ok (h.account_eq hb),
    except_of_ok (foldlM_placeSlot h.storage _)]
  rfl

theorem Entry.Says.place_error (h : e.Says a) (hb : a.balance? = none) (p : Placed) :
    place p e = .error .missingComponent := by
  rw [place, except_of_ok h.toAddress, except_of_error (h.account_error hb)]

variable {es : List Entry} {as : List Allocation}

theorem foldlM_place (h : es.Forall₂ Entry.Says as) (hb : ∀ a ∈ as, a.balance? ≠ none) (p : Placed) :
    es.foldlM place p = .ok (as.foldl Allocation.placed p) := by
  induction h generalizing p with
  | nil => rfl
  | @cons e a es as hentries _ ih =>
    rw [List.foldlM_cons, except_of_ok (hentries.place_eq (hb a List.mem_cons_self) p)]
    exact ih (fun a' ha' => hb a' (List.mem_cons_of_mem a ha')) _

theorem foldlM_place_error (h : es.Forall₂ Entry.Says as) (hb : ∃ a ∈ as, a.balance? = none)
    (p : Placed) : es.foldlM place p = .error .missingComponent := by
  induction h generalizing p with
  | nil => simp at hb
  | @cons e a es as hentries _ ih =>
    rw [List.foldlM_cons]
    by_cases ha : a.balance? = none
    · rw [except_of_error (hentries.place_error ha p)]
    · rw [except_of_ok (hentries.place_eq ha p)]
      obtain ⟨a', ha', hnone⟩ := hb
      refine ih ⟨a', (List.mem_cons.mp ha').resolve_left ?_, hnone⟩ _
      rintro rfl
      exact ha hnone

end Reading

/-! ## What has been placed -/

section Placing
variable {as : List Allocation}

theorem state_foldl_placed (p : Placed) : (as.foldl Allocation.placed p).state =
    { p.state with accounts := (as.foldl Allocation.placed p).state.accounts } := by
  induction as generalizing p with
  | nil => rfl
  | cons a as ih => exact ih (a.placed p)

def Placed.at (p : Placed) (address : Address) : Option Account × Trie Trie.Content :=
  (p.state.account? address, p.slots address)

theorem at_foldl_of_notMem (p : Placed) {address : Address} (h : address ∉ as.map (·.address)) :
    (as.foldl Allocation.placed p).at address = p.at address := by
  induction as generalizing p with
  | nil => rfl
  | cons a as ih =>
    rw [List.map_cons, List.mem_cons, not_or] at h
    rw [List.foldl_cons, ih (a.placed p) h.2, Placed.at, Placed.slots, Allocation.placed,
      State.account?_setAccount_of_ne _ (Ne.symm h.1), Std.ExtTreeMap.getElem?_insert,
      if_neg (by simpa using Ne.symm h.1)]
    rfl

theorem at_foldl (p : Placed) (has : (as.map (·.address)).Nodup)
    (hp : ∀ a ∈ as, p.slots a.address = ⟨true, .word 0, []⟩) {a : Allocation} (ha : a ∈ as) :
    (as.foldl Allocation.placed p).at a.address =
      (some a.account, a.slots.foldl setSlot ⟨true, .word 0, []⟩) := by
  induction as generalizing p with
  | nil => cases ha
  | cons b as ih =>
    rw [List.map_cons, List.nodup_cons] at has
    rcases List.mem_cons.mp ha with rfl | ha
    · rw [List.foldl_cons, at_foldl_of_notMem _ has.1, Placed.at, Placed.slots, Allocation.placed,
        State.account?, State.setAccount, Std.ExtTreeMap.getElem?_insert_self,
        Std.ExtTreeMap.getElem?_insert_self, hp a List.mem_cons_self]
      rfl
    · refine ih (b.placed p) has.2 (fun c hc => ?_) ha
      have hne : b.address ≠ c.address := fun h => has.1 (List.mem_map.mpr ⟨c, hc, h.symm⟩)
      rw [Placed.slots, Allocation.placed, Std.ExtTreeMap.getElem?_insert,
        if_neg (by simpa using hne)]
      exact hp c (List.mem_cons_of_mem b hc)

theorem slots_cases (has : (as.map (·.address)).Nodup) (address : Address) :
    (∃ a ∈ as, a.address = address ∧ (as.foldl Allocation.placed {}).slots address =
      a.slots.foldl setSlot ⟨true, .word 0, []⟩) ∨
    (as.foldl Allocation.placed {}).slots address = ⟨true, .word 0, []⟩ := by
  by_cases h : address ∈ as.map (·.address)
  · obtain ⟨a, ha, rfl⟩ := List.mem_map.mp h
    exact Or.inl ⟨a, ha, rfl, (Prod.mk.inj (at_foldl {} has (fun _ _ => rfl) ha)).2⟩
  · exact Or.inr (Prod.mk.inj (at_foldl_of_notMem {} h)).2

/-! ## Storage of numbers without width -/

section Naturals
open Trie
variable {t : Trie Content} {slots : List (Word × Word)}

def Naturals (t : Trie Content) : Prop := ∀ e ∈ t.entries, ∃ n, e.2 = .natural n

theorem Naturals.setSlot (h : Naturals t) (slot : Word × Word) : Naturals (setSlot t slot) := by
  intro e he
  unfold Genesis.setSlot Trie.set at he
  split at he
  · exact h e (List.mem_of_mem_filter he)
  · rcases mem_replace he with rfl | he
    · exact ⟨_, rfl⟩
    · exact h e he

theorem Naturals.foldl (h : Naturals t) : Naturals (slots.foldl Genesis.setSlot t) := by
  induction slots generalizing t with
  | nil => exact h
  | cons slot slots ih => exact ih (h.setSlot slot)

theorem Naturals.root (h : Naturals t) (hash : Bytes → Hash) :
    t.root hash (Content.encode hash none) =
      if t.entries = [] then .ok (emptyRoot hash) else .error .brokenInvariant := by
  unfold Trie.root node prepare
  cases he : t.entries with
  | nil =>
    have hbuild : build hash [] = none := by rw [build]
    rw [if_pos rfl]
    exact congrArg (Except.ok ∘ Node.root hash) hbuild
  | cons e entries =>
    obtain ⟨n, hn⟩ := h e (he ▸ List.mem_cons_self)
    rw [List.foldlM_cons, hn, if_neg (List.cons_ne_nil e entries)]
    rfl

theorem foldl_setSlot_of_zero (ht : t.default = .word 0) (h : t.entries = [])
    (hslots : ∀ slot ∈ slots, slot.2 = 0) : (slots.foldl setSlot t).entries = [] := by
  induction slots generalizing t with
  | nil => exact h
  | cons slot slots ih =>
    have hzero : (Content.natural slot.2.toNat == t.default) = true := by
      rw [hslots slot List.mem_cons_self, ht]
      rfl
    refine ih ?_ ?_ fun s hs => hslots s (List.mem_cons_of_mem slot hs)
    · rw [setSlot, default_set, ht]
    · rw [setSlot, Trie.set, if_pos hzero, h]
      rfl

theorem mem_replace_self {key : Bytes} {value : Content} {entries : List (Bytes × Content)} :
    (key, value) ∈ replace key value entries := by
  induction entries with
  | nil => exact List.mem_cons_self
  | cons e entries ih =>
    rw [replace]
    split
    · exact List.mem_cons_self
    · exact List.mem_cons_of_mem e ih

theorem mem_replace_of_ne {key : Bytes} {value : Content} {entries : List (Bytes × Content)}
    {e : Bytes × Content} (h : e ∈ entries) (hne : e.1 ≠ key) : e ∈ replace key value entries := by
  induction entries with
  | nil => cases h
  | cons first entries ih =>
    rw [replace]
    split
    · next hkey =>
      rcases List.mem_cons.mp h with rfl | h
      · exact absurd (eq_of_beq hkey) hne
      · exact List.mem_cons_of_mem _ h
    · rcases List.mem_cons.mp h with rfl | h
      · exact List.mem_cons_self
      · exact List.mem_cons_of_mem first (ih h)

theorem mem_foldl_setSlot {e : Bytes × Content} (h : e ∈ t.entries)
    (hslots : ∀ slot ∈ slots, e.1 ≠ fixedBytes slot.1) : e ∈ (slots.foldl setSlot t).entries := by
  induction slots generalizing t with
  | nil => exact h
  | cons slot slots ih =>
    have hne := hslots slot List.mem_cons_self
    refine ih ?_ fun s hs => hslots s (List.mem_cons_of_mem slot hs)
    unfold setSlot Trie.set
    split
    · exact List.mem_filter.mpr ⟨h, by simpa using hne⟩
    · exact mem_replace_of_ne h hne

theorem foldl_setSlot_ne_nil (ht : t.default = .word 0) (hkeys : (slots.map (·.1)).Nodup)
    (hfull : ∃ slot ∈ slots, slot.2 ≠ 0) : (slots.foldl setSlot t).entries ≠ [] := by
  obtain ⟨slot, hslot, hne⟩ := hfull
  induction slots generalizing t with
  | nil => cases hslot
  | cons first slots ih =>
    rw [List.map_cons, List.nodup_cons] at hkeys
    rcases List.mem_cons.mp hslot with rfl | hslot
    · have hzero : ¬(Content.natural slot.2.toNat == t.default) = true := by
        rw [ht]
        exact fun h => hne (BitVec.eq_of_toNat_eq (of_decide_eq_true h))
      rw [List.foldl_cons]
      refine List.ne_nil_of_mem (mem_foldl_setSlot
        (e := (fixedBytes slot.1, .natural slot.2.toNat)) ?_ fun s hs h => ?_)
      · rw [setSlot, Trie.set, if_neg hzero]
        exact mem_replace_self
      · exact hkeys.1 (List.mem_map.mpr ⟨s, hs,
          (fixedBytes_inj (by decide) (congrArg Bytes.toList h)).symm⟩)
    · refine ih ?_ hkeys.2 hslot
      rw [setSlot, default_set, ht]

end Naturals

/-! ## Roots -/

theorem foldlM_error {α β : Type} {f : β → α → Except Fault β} {l : List α} {e : Fault}
    (hcases : ∀ x ∈ l, ∀ b, (∃ c, f b x = .ok c) ∨ f b x = .error e)
    (h : ∃ x ∈ l, ∀ b, f b x = .error e) (b : β) : l.foldlM f b = .error e := by
  induction l generalizing b with
  | nil => simp at h
  | cons x l ih =>
    rw [List.foldlM_cons]
    rcases hcases x List.mem_cons_self b with ⟨c, hc⟩ | he
    · rw [except_of_ok hc]
      refine ih (fun y hy => hcases y (List.mem_cons_of_mem x hy)) ?_ c
      obtain ⟨y, hy, hfail⟩ := h
      refine ⟨y, (List.mem_cons.mp hy).resolve_left ?_, hfail⟩
      rintro rfl
      cases hc.symm.trans (hfail b)
    · exact except_of_error he _

theorem root_of_full {p : Placed} (hash : Bytes → Hash) (hn : ∀ a, Naturals (p.slots a))
    {a : Address} (ha : p.state.account? a ≠ none) (hfull : (p.slots a).entries ≠ []) :
    p.root hash = .error .brokenInvariant := by
  obtain ⟨account, hget⟩ := Option.ne_none_iff_exists'.mp ha
  refine except_of_error (foldlM_error (fun x _ b => ?_) ⟨(a, account), ?_, fun b => ?_⟩ []) _
  · rw [(hn x.1).root hash]
    split
    · exact Or.inl ⟨_, rfl⟩
    · exact Or.inr rfl
  · exact Std.ExtTreeMap.mem_toList_iff_getElem?_eq_some.mpr hget
  · rw [(hn a).root hash, if_neg hfull]
    rfl

theorem root_of_empty {p : Placed} (hash : Bytes → Hash) (hs : p.state.storage = ∅)
    (hempty : ∀ a, (p.slots a).entries = []) : p.root hash = .ok (p.state.hashAll hash) := by
  have hroot (a : Address) : (p.slots a).root hash (Trie.Content.encode hash none) =
      .ok (p.state.storageHash hash a) := by
    have hn : Naturals (p.slots a) := fun e he => by
      rw [hempty] at he
      cases he
    rw [hn.root hash, if_pos (hempty a), State.storageHash, hs]
    rfl
  unfold Placed.root
  simp only [hroot]
  exact congrArg (· >>= _) (List.foldlM_pure ..)

end Placing

/-! ## The first block -/

theorem header_eq {fork : Fork} (hfork : fork < Fork.shanghai) (g : Genesis) {p : Placed} {root : Hash}
    (h : p.root keccak256 = .ok root) : ∃ h, g.header fork p = .ok h ∧ h.stateRoot = root := by
  have hrequire : require (fork < Fork.shanghai) .wrongType = .ok () :=
    if_pos (decide_eq_true hfork)
  rw [header, except_of_ok h]
  exact ⟨_, except_of_ok hrequire _, rfl⟩

section First
variable {fork : Fork} {g : Genesis} {as : List Allocation}
  (hentries : g.accounts.Forall₂ Entry.Says as)
include hentries

theorem block_of_missing (hb : ∃ a ∈ as, a.balance? = none) :
    g.block fork = .error .missingComponent := by
  rw [block, except_of_error (foldlM_place_error hentries hb {})]

variable (has : (as.map (·.address)).Nodup) (hb : ∀ a ∈ as, a.balance? ≠ none)
include has hb

theorem block_of_full (hslots : ∀ a ∈ as, (a.slots.map (·.1)).Nodup)
    (hfull : ∃ a ∈ as, ∃ slot ∈ a.slots, slot.2 ≠ 0) :
    g.block fork = .error .brokenInvariant := by
  have hempty : Naturals ⟨true, .word 0, []⟩ := fun e he => by cases he
  have hn (address : Address) : Naturals ((as.foldl Allocation.placed {}).slots address) := by
    rcases slots_cases has address with ⟨a, -, -, h⟩ | h
    · exact h ▸ hempty.foldl
    · exact h ▸ hempty
  obtain ⟨a, ha, hslot⟩ := hfull
  obtain ⟨haccount, hat⟩ := Prod.mk.inj (at_foldl {} has (fun _ _ => rfl) ha)
  have hroot := root_of_full keccak256 hn (by simp [haccount])
    (hat ▸ foldl_setSlot_ne_nil rfl (hslots a ha) hslot)
  rw [block, except_of_ok (foldlM_place hentries hb {}), header, except_of_error hroot]
  rfl

theorem block_of_empty (hfork : fork < Fork.shanghai)
    (hzero : ∀ a ∈ as, ∀ slot ∈ a.slots, slot.2 = 0) :
    ∃ header, g.block fork = .ok (⟨header, [], [], []⟩, (as.foldl Allocation.placed {}).state) ∧
      (as.foldl Allocation.placed {}).state.root keccak256 = .ok header.stateRoot := by
  have hempty (address : Address) : ((as.foldl Allocation.placed {}).slots address).entries = [] := by
    rcases slots_cases has address with ⟨a, ha, -, h⟩ | h
    · exact h ▸ foldl_setSlot_of_zero rfl rfl (hzero a ha)
    · exact h ▸ rfl
  have hplaced := root_of_empty keccak256 (by rw [state_foldl_placed]) hempty
  have hroot : (as.foldl Allocation.placed {}).state.root keccak256 =
      .ok ((as.foldl Allocation.placed {}).state.hashAll keccak256) := by
    rw [State.root, state_foldl_placed]
    rfl
  obtain ⟨h, hheader, hstateRoot⟩ := header_eq hfork g hplaced
  refine ⟨h, ?_, hstateRoot ▸ hroot⟩
  rw [block, except_of_ok (foldlM_place hentries hb {}), except_of_ok hheader]
  rfl

end First

/-- The first block exists if no balance is left out and all slots that are listed are empty, and then
all accounts and slots read back as they were allocated, under the root that the header holds. A
balance that is left out is missed, and a slot that is not empty keeps the state from having a root. -/
theorem first_state_reads_back (fork : Fork) (hfork : fork < Fork.shanghai) (g : Genesis)
    (as : List Allocation) (hentries : g.accounts.Forall₂ Entry.Says as)
    (has : (as.map (·.address)).Nodup) (hslots : ∀ a ∈ as, (a.slots.map (·.1)).Nodup) :
    ((∃ a ∈ as, a.balance? = none) → g.block fork = .error .missingComponent) ∧
    ((∀ a ∈ as, a.balance? ≠ none) → (∃ a ∈ as, ∃ slot ∈ a.slots, slot.2 ≠ 0) →
      g.block fork = .error .brokenInvariant) ∧
    ((∀ a ∈ as, a.balance? ≠ none) → (∀ a ∈ as, ∀ slot ∈ a.slots, slot.2 = 0) →
      ∃ block s, g.block fork = .ok (block, s) ∧ s.root keccak256 = .ok block.header.stateRoot ∧
        (∀ a ∈ as, s.account? a.address = some a.account) ∧
        (∀ a ∈ as, ∀ slot ∈ a.slots, s.getStorage a.address slot.1 = slot.2) ∧
        ∀ address ∉ as.map (·.address), s.account? address = none) := by
  refine ⟨block_of_missing hentries, fun hb => block_of_full hentries has hb hslots,
    fun hb hzero => ?_⟩
  obtain ⟨header, hblock, hroot⟩ := block_of_empty hentries has hb hfork hzero
  refine ⟨_, _, hblock, hroot, fun a ha => ?_, fun a ha slot hslot => ?_, fun address h => ?_⟩
  · exact (Prod.mk.inj (at_foldl {} has (fun _ _ => rfl) ha)).1
  rotate_left
  · exact (Prod.mk.inj (at_foldl_of_notMem {} h)).1
  rw [hzero a ha slot hslot, State.getStorage, state_foldl_placed]
  rfl

def single (balance? : Option String) (value : String) : Genesis where
  chainId := 1
  difficulty := 131072
  extraData := ByteArray.empty
  gasLimit := 5000
  nonce := 66
  timestamp := 0
  accounts := [⟨"0x1", none, balance?, none, [("0x2", value)]⟩]

theorem writes_digit {base d : Nat} {c : Char} (h : Text.hexValue? c = some d) (hd : d < base) :
    Writes base [c] d := ⟨[d], .cons ⟨h, hd⟩ .nil, by simp⟩

theorem says_single {balance? : Option String} {amount? : Option Word} {value : String} {x : Word}
    (hbalance : Option.Rel (fun s balance => SpellsDecimal s balance.toNat) balance? amount?)
    (hvalue : ∃ cs ≠ [], Hex.Spells value cs x.toNat) :
    (single balance? value).accounts.Forall₂ Entry.Says [⟨1, none, amount?, none, [(2, x)]⟩] := by
  have hone : Hex.Spells "0x1" ['1'] 1 := ⟨Or.inr rfl, writes_digit rfl (by decide)⟩
  have htwo : Hex.Spells "0x2" ['2'] 2 := ⟨Or.inr rfl, writes_digit rfl (by decide)⟩
  refine .cons ⟨⟨_, hone, by decide⟩, .none, ?_, .none, .cons ⟨⟨_, htwo, by decide⟩, hvalue⟩ .nil⟩ .nil
  cases hbalance with
  | none => exact .none
  | some h => exact .some (Or.inl h)

theorem spellsDecimal_seven : SpellsDecimal "7" (7 : Word).toNat :=
  ⟨by decide, by decide, writes_digit rfl (by decide)⟩

theorem spells_zero : ∃ cs ≠ [], Hex.Spells "0x0" cs (0 : Word).toNat :=
  ⟨['0'], by decide, Or.inr rfl, writes_digit rfl (by decide)⟩

theorem first_state_reads_back_single : ∃ block s,
    (single (some "7") "0x0").block .paris = .ok (block, s) ∧
      s.root keccak256 = .ok block.header.stateRoot ∧
      s.account? 1 = some { nonce := 0, balance := 7, code := ByteArray.empty } ∧
      s.getStorage 1 2 = 0 := by
  have hentries := says_single (.some spellsDecimal_seven) spells_zero
  obtain ⟨block, s, hblock, hroot, haccount, hslot, -⟩ :=
    (first_state_reads_back .paris (by decide) _ _ hentries (by decide) (by decide)).2.2 (by decide)
      (by simp)
  have hone := haccount _ List.mem_cons_self
  have htwo := hslot _ List.mem_cons_self _ List.mem_cons_self
  exact ⟨block, s, hblock, hroot, hone, htwo⟩

/-- Neither an account without a balance nor one with a slot that is not empty can be allocated. -/
theorem first_state_refused : (single none "0x0").block .frontier = .error .missingComponent ∧
    (single (some "7") "0x3").block .frontier = .error .brokenInvariant := by
  have hthree : ∃ cs ≠ [], Hex.Spells "0x3" cs (3 : Word).toNat :=
    ⟨['3'], by decide, Or.inr rfl, writes_digit rfl (by decide)⟩
  exact ⟨block_of_missing (says_single .none spells_zero) ⟨_, List.mem_cons_self, rfl⟩,
    block_of_full (says_single (.some spellsDecimal_seven) hthree) (by decide) (by decide) (by decide)
      ⟨_, List.mem_cons_self, _, List.mem_cons_self, by decide⟩⟩

end ExecutionLayer.Genesis
