import ExecutionLayer.Trie.Nibble
import Mathlib.Tactic.Linarith

/-! # Paths are determined by their forms

The nibbles of a byte string determine it, and the packed form of a path determines the path and
whether it belongs to a leaf. The flag is read as one or two nibbles in front of the path.
-/
namespace ExecutionLayer.Trie

def IsPath (path : List UInt8) : Prop := ∀ n ∈ path, n < 16

theorem IsPath.tail {n : UInt8} {path : List UInt8} (h : IsPath (n :: path)) : IsPath path :=
  fun k hk => h k (List.mem_cons_of_mem n hk)

theorem IsPath.cons {n : UInt8} {path : List UInt8} (hn : n < 16) (h : IsPath path) :
    IsPath (n :: path) := by
  intro k hk
  rcases List.mem_cons.mp hk with rfl | hk
  · exact hn
  · exact h k hk

theorem toNat_highNibble (b : UInt8) : (b >>> 4).toNat = b.toNat / 16 := by
  simp [UInt8.toNat_shiftRight, Nat.shiftRight_eq_div_pow]

theorem toNat_lowNibble (b : UInt8) : (b &&& 15).toNat = b.toNat % 16 := by
  rw [UInt8.toNat_and]
  exact Nat.and_two_pow_sub_one_eq_mod _ 4

theorem isPath_nibbles (bs : List UInt8) : IsPath (nibbles bs) := by
  induction bs with
  | nil => intro n hn; cases hn
  | cons b bs ih =>
    have hb := b.toNat_lt
    refine IsPath.cons ?_ (IsPath.cons ?_ ih)
    · change (b >>> 4).toNat < 16
      rw [toNat_highNibble]
      omega
    · change (b &&& 15).toNat < 16
      rw [toNat_lowNibble]
      omega

@[simp] theorem length_nibbles (bs : List UInt8) : (nibbles bs).length = 2 * bs.length := by
  induction bs with
  | nil => rfl
  | cons b bs ih =>
    simp only [nibbles, List.length_cons, ih]
    omega

theorem nibbles_inj {as bs : List UInt8} (h : nibbles as = nibbles bs) : as = bs := by
  induction as generalizing bs with
  | nil =>
    cases bs with
    | nil => rfl
    | cons b bs => simp [nibbles] at h
  | cons a as ih =>
    cases bs with
    | nil => simp [nibbles] at h
    | cons b bs =>
      simp only [nibbles, List.cons.injEq] at h
      obtain ⟨hhigh, hlow, hrest⟩ := h
      have hhigh := congrArg UInt8.toNat hhigh
      have hlow := congrArg UInt8.toNat hlow
      rw [toNat_highNibble, toNat_highNibble] at hhigh
      rw [toNat_lowNibble, toNat_lowNibble] at hlow
      have hab : a = b := UInt8.toNat_inj.mp (by omega)
      rw [hab, ih hrest]

theorem toNat_pair {a b : UInt8} (ha : a < 16) (hb : b < 16) :
    (16 * a + b).toNat = 16 * a.toNat + b.toNat := by
  have ha : a.toNat < 16 := ha
  have hb : b.toNat < 16 := hb
  simp only [UInt8.toNat_add, UInt8.toNat_mul, UInt8.reduceToNat]
  omega

theorem pair_inj {a b c d : UInt8} (ha : a < 16) (hb : b < 16) (hc : c < 16) (hd : d < 16)
    (h : 16 * a + b = 16 * c + d) : a = c ∧ b = d := by
  have hn := congrArg UInt8.toNat h
  rw [toNat_pair ha hb, toNat_pair hc hd] at hn
  have hb : b.toNat < 16 := hb
  have hd : d.toNat < 16 := hd
  exact ⟨UInt8.toNat_inj.mp (by omega), UInt8.toNat_inj.mp (by omega)⟩

theorem length_pack (path : List UInt8) : (pack path).length = path.length / 2 := by
  fun_induction pack path with
  | case1 a b rest ih =>
    simp only [List.length_cons, ih]
    omega
  | case2 path hne =>
    match path with
    | [] => rfl
    | [a] => simp
    | a :: b :: rest => exact (hne a b rest rfl).elim

theorem pack_inj {as bs : List UInt8} (ha : as.length % 2 = 0) (hb : bs.length % 2 = 0)
    (na : IsPath as) (nb : IsPath bs) (h : pack as = pack bs) : as = bs := by
  fun_induction pack as generalizing bs with
  | case1 a b rest ih =>
    match bs with
    | [] => simp [pack] at h
    | [c] => simp at hb
    | c :: d :: rest' =>
      simp only [pack, List.cons.injEq] at h
      simp only [List.length_cons] at ha hb
      obtain ⟨rfl, rfl⟩ := pair_inj (na a (by simp)) (na b (by simp)) (nb c (by simp))
        (nb d (by simp)) h.1
      rw [ih (by omega) (by omega) na.tail.tail nb.tail.tail h.2]
  | case2 as hne =>
    match as with
    | [a] => simp at ha
    | a :: b :: rest => exact (hne a b rest rfl).elim
    | [] =>
      match bs with
      | [] => rfl
      | [c] => simp at hb
      | c :: d :: rest' => simp [pack] at h

/-- A path behind its flag, which takes up two nibbles if the path has an even length. -/
def flagged (path : List UInt8) (leaf : Bool) : List UInt8 :=
  if path.length % 2 = 0 then pathFlag leaf path :: 0 :: path else pathFlag leaf path :: path

theorem compact_eq (path : List UInt8) (leaf : Bool) :
    compact path leaf = pack (flagged path leaf) := by
  unfold compact flagged
  rcases Nat.mod_two_eq_zero_or_one path.length with hp | hp
  · simp [hp, pack]
  · cases path with
    | nil => simp at hp
    | cons first rest => simp only [hp, Nat.one_ne_zero, ↓reduceIte]

theorem pathFlag_lt (leaf : Bool) (path : List UInt8) : pathFlag leaf path < 16 := by
  unfold pathFlag
  rcases Nat.mod_two_eq_zero_or_one path.length with hp | hp <;>
    cases leaf <;> simp only [hp] <;> decide

theorem length_flagged (path : List UInt8) (leaf : Bool) :
    (flagged path leaf).length % 2 = 0 ∧ (flagged path leaf).length ≤ path.length + 2 := by
  unfold flagged
  split <;> simp only [List.length_cons] <;> omega

theorem isPath_flagged {path : List UInt8} (h : IsPath path) (leaf : Bool) :
    IsPath (flagged path leaf) := by
  unfold flagged
  split
  · exact (h.cons (by decide)).cons (pathFlag_lt leaf path)
  · exact h.cons (pathFlag_lt leaf path)

theorem flagged_inj {p q : List UInt8} {leaf leaf' : Bool}
    (h : flagged p leaf = flagged q leaf') : p = q ∧ leaf = leaf' := by
  unfold flagged pathFlag at h
  rcases Nat.mod_two_eq_zero_or_one p.length with hp | hp <;>
    rcases Nat.mod_two_eq_zero_or_one q.length with hq | hq <;>
    cases leaf <;> cases leaf' <;> simp_all

theorem compact_inj {p q : List UInt8} {leaf leaf' : Bool} (hp : IsPath p) (hq : IsPath q)
    (h : compact p leaf = compact q leaf') : p = q ∧ leaf = leaf' := by
  rw [compact_eq, compact_eq] at h
  exact flagged_inj (pack_inj (length_flagged p leaf).1 (length_flagged q leaf').1
    (isPath_flagged hp leaf) (isPath_flagged hq leaf') h)

theorem length_compact_le (path : List UInt8) (leaf : Bool) :
    (compact path leaf).length ≤ path.length / 2 + 1 := by
  have hl := (length_flagged path leaf).2
  rw [compact_eq, length_pack]
  omega

end ExecutionLayer.Trie
