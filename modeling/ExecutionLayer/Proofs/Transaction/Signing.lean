import ExecutionLayer.Proofs.Transaction.Replay
import Mathlib.Data.List.Basic

/-! # What signed bytes tell

A transaction is signed in one of five forms. The bytes tell the form and all fields but those of
the signature, so that no signature can be taken for one of another kind, or of the same kind with
other fields.
-/
namespace ExecutionLayer.Transaction
open Rlp (Item)
open Function (Injective)
variable {a b tx : Transaction}

/-- The forms in which transactions are signed. A legacy transaction is signed with or without the
id of a chain, the others name theirs among their fields. -/
inductive SigningForm where
  | plain
  | guarded (chain : BitVec 64)
  | accessList
  | feeMarket
  | blob
deriving DecidableEq, Repr

namespace SigningForm
variable {f g : SigningForm}

def type? : SigningForm → Option UInt8
  | plain | guarded _ => none
  | accessList => some 1
  | feeMarket => some 2
  | blob => some 3

def bytes (f : SigningForm) (tx : Transaction) : Except Fault Bytes :=
  match f with
  | plain => tx.legacyPreimage
  | guarded chain => tx.protectedPreimage chain.toNat
  | accessList => tx.accessListPreimage
  | feeMarket => tx.feeMarketPreimage
  | blob => tx.blobPreimage

def chainItems : SigningForm → List Item
  | guarded chain => [.ofNat chain.toNat, .ofNat 0, .ofNat 0]
  | _ => []

theorem type?_lt (f : SigningForm) : ∀ t ∈ f.type?, t.toNat < 192 := by
  cases f <;> simp [type?]

theorem bytes_eq (h : tx.type? = f.type?) :
    f.bytes tx = .ok (preimage f.type? (tx.unsignedItems ++ f.chainItems)) := by
  unfold Transaction.type? at h
  cases hk : tx.kind <;> cases f <;>
    simp_all [type?, bytes, chainItems, legacyPreimage, protectedPreimage, legacyFields, gasPrice,
      accessListPreimage, accessListFields, feeMarketPreimage, feeMarketFields, blobPreimage,
      blobFields, unsignedItems, bind, Except.bind, pure, Except.pure]

end SigningForm

theorem ofNat_injective : Injective Item.ofNat := fun _ _ => Item.ofNat_inj

theorem ofWord_injective : Injective Item.ofWord := fun _ _ => Item.ofWord_inj

theorem ofFixed_injective {w : Nat} (hw : w = 8 * (w / 8)) :
    Injective (Item.ofFixed : BitVec w → Item) :=
  fun _ _ h => fixedBytes_inj hw (Item.bytes.inj h)

theorem ofBytes_injective : Injective Item.ofBytes :=
  fun _ _ h => Bytes.ext_toList (Item.bytes.inj h)

theorem ofFixed_address_ne_nil (address : Address) : Item.ofFixed address ≠ .bytes [] := by
  intro h
  have hlength := congrArg List.length (Item.bytes.inj h)
  rw [toList_fixedBytes, BigEndian.length_digits] at hlength
  cases hlength

theorem recipientItem_injective : Injective recipientItem := by
  intro x y h
  cases x with
  | none =>
    cases y with
    | none => rfl
    | some address => exact absurd h.symm (ofFixed_address_ne_nil address)
  | some address =>
    cases y with
    | none => exact absurd h (ofFixed_address_ne_nil address)
    | some other => rw [ofFixed_injective rfl h]

theorem hashItems_injective : Injective fun hashes : List Hash => hashes.map Item.ofFixed :=
  List.map_injective_iff.mpr (ofFixed_injective rfl)

theorem accessItem_injective : Injective accessItem := by
  intro x y h
  cases x <;> cases y <;>
    simp_all [accessItem, (ofFixed_injective (w := 160) rfl).eq_iff,
      hashItems_injective.eq_iff]

theorem accessListItem_injective : Injective accessListItem :=
  fun _ _ h => List.map_injective_iff.mpr accessItem_injective (Item.list.inj h)

def Kind.unsigned : Kind → Kind
  | .legacy price _ => .legacy price 0
  | .accessList chain price l _ => .accessList chain price l 0
  | .feeMarket chain priority fee l _ => .feeMarket chain priority fee l 0
  | .blob chain priority fee l blobFee hashes _ => .blob chain priority fee l blobFee hashes 0

def unsigned (tx : Transaction) : Transaction :=
  { tx with kind := tx.kind.unsigned, r := 0, s := 0 }

theorem unsignedItems_unsigned (tx : Transaction) :
    tx.unsigned.unsignedItems = tx.unsignedItems := by
  unfold unsigned unsignedItems Kind.unsigned
  cases tx.kind <;> rfl

theorem unsigned_eq_of_unsignedItems (htype : a.type? = b.type?)
    (h : a.unsignedItems = b.unsignedItems) : a.unsigned = b.unsigned := by
  obtain ⟨nonce, gas, recipient, value, data, kind, r, s⟩ := a
  obtain ⟨nonce', gas', recipient', value', data', kind', r', s'⟩ := b
  cases kind <;> cases kind' <;>
    simp_all [type?, unsigned, Kind.unsigned, unsignedItems, payloadItems, ofNat_injective.eq_iff,
      ofWord_injective.eq_iff, ofBytes_injective.eq_iff, recipientItem_injective.eq_iff,
      accessListItem_injective.eq_iff, hashItems_injective.eq_iff, BitVec.toNat_inj]

theorem length_unsignedItems (h : a.type? = b.type?) :
    a.unsignedItems.length = b.unsignedItems.length := by
  unfold type? at h
  unfold unsignedItems
  cases ha : a.kind <;> cases hb : b.kind <;> simp_all [payloadItems]

theorem SigningForm.eq_of_chainItems {f g : SigningForm} (htype : f.type? = g.type?)
    (h : f.chainItems = g.chainItems) : f = g := by
  cases f <;> cases g <;>
    simp_all [SigningForm.type?, chainItems, ofNat_injective.eq_iff, BitVec.toNat_inj]

/-- Transactions are signed in the forms of their kinds without a failure, and the bytes that are
signed are the same if and only if form and transaction are, but for the signatures. -/
theorem signed_bytes_eq_iff {f g : SigningForm} (hf : a.type? = f.type?) (hg : b.type? = g.type?) :
    ∃ x y, f.bytes a = .ok x ∧ g.bytes b = .ok y ∧
      (x.size < 2 ^ 64 → (x = y ↔ f = g ∧ a.unsigned = b.unsigned)) := by
  refine ⟨_, _, SigningForm.bytes_eq hf, SigningForm.bytes_eq hg, fun hsize => ⟨fun h => ?_, ?_⟩⟩
  · -- The two legacy forms have no number in front; the number of their items tells them apart.
    obtain ⟨htype, hitems⟩ := preimage_inj f.type?_lt g.type?_lt hsize h
    have hkinds : a.type? = b.type? := hf.trans (htype.trans hg.symm)
    obtain ⟨hfields, hchain⟩ := List.append_inj hitems (length_unsignedItems hkinds)
    exact ⟨SigningForm.eq_of_chainItems htype hchain, unsigned_eq_of_unsignedItems hkinds hfields⟩
  · rintro ⟨rfl, h⟩
    rw [← unsignedItems_unsigned a, h, unsignedItems_unsigned]

/-- A payment of 5 at a gas price of 10, with the given parts of a signature. -/
def paying (v r : Word) : Transaction :=
  { (default : Transaction) with
    gas := 21000, recipient := some 1, value := 5, kind := .legacy 10 v, r := r, s := 1 }

/-- Two signatures of one payment are for the same bytes, unless one of them is for chain 1. -/
theorem signed_bytes_eq_iff_payment :
    (paying 27 1).type? = SigningForm.plain.type? ∧
    (∃ x, SigningForm.plain.bytes (paying 27 1) = .ok x ∧
      SigningForm.plain.bytes (paying 28 2) = .ok x) ∧
    ∃ x y, SigningForm.plain.bytes (paying 27 1) = .ok x ∧
      (SigningForm.guarded 1).bytes (paying 37 2) = .ok y ∧ x ≠ y := by
  have hsize {x : Bytes} (hx : SigningForm.plain.bytes (paying 27 1) = .ok x) :
      x.size < 2 ^ 64 := by
    rw [SigningForm.bytes_eq rfl] at hx
    rw [← Except.ok.inj hx]
    decide +kernel
  refine ⟨rfl, ?_, ?_⟩
  · obtain ⟨x, y, hx, hy, hiff⟩ := signed_bytes_eq_iff (a := paying 27 1) (b := paying 28 2)
      (f := .plain) (g := .plain) rfl rfl
    exact ⟨x, hx, ((hiff (hsize hx)).mpr ⟨rfl, rfl⟩) ▸ hy⟩
  · obtain ⟨x, y, hx, hy, hiff⟩ := signed_bytes_eq_iff (a := paying 27 1) (b := paying 37 2)
      (f := .plain) (g := .guarded 1) rfl rfl
    exact ⟨x, y, hx, hy, fun h => absurd ((hiff (hsize hx)).mp h).1 (by decide)⟩

end ExecutionLayer.Transaction
