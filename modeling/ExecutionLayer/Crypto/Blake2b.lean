import ExecutionLayer.Bytes

/-! # The compression function of BLAKE2b

The function takes its number of rounds as an argument. It computes with numbers: only sums and
left shifts are reduced to 64 bits, which is all that is needed while every argument has 64 bits.
Larger arguments are carried along, and the result is refused if a word of it is too large.
-/
namespace ExecutionLayer.Blake2b

structure Parameters where
  rounds : Nat
  state : Vector Nat 8
  message : Vector Nat 16
  (offsetLow offsetHigh : Nat)
  final : Nat
deriving DecidableEq

def initialVector : Vector Nat 8 := ⟨#[
  0x6a09e667f3bcc908, 0xbb67ae8584caa73b, 0x3c6ef372fe94f82b, 0xa54ff53a5f1d36f1,
  0x510e527fade682d1, 0x9b05688c2b3e6c1f, 0x1f83d9abfb41bd6b, 0x5be0cd19137e2179], rfl⟩

def sigma : Vector (Vector (Fin 16) 16) 10 := ⟨#[
  ⟨#[0, 1, 2, 3, 4, 5, 6, 7, 8, 9, 10, 11, 12, 13, 14, 15], rfl⟩,
  ⟨#[14, 10, 4, 8, 9, 15, 13, 6, 1, 12, 0, 2, 11, 7, 5, 3], rfl⟩,
  ⟨#[11, 8, 12, 0, 5, 2, 15, 13, 10, 14, 3, 6, 7, 1, 9, 4], rfl⟩,
  ⟨#[7, 9, 3, 1, 13, 12, 11, 14, 2, 6, 5, 10, 4, 0, 15, 8], rfl⟩,
  ⟨#[9, 0, 5, 7, 2, 4, 10, 15, 14, 1, 11, 12, 6, 8, 3, 13], rfl⟩,
  ⟨#[2, 12, 6, 10, 0, 11, 8, 3, 4, 13, 7, 5, 15, 14, 1, 9], rfl⟩,
  ⟨#[12, 5, 1, 15, 14, 13, 4, 10, 0, 7, 6, 3, 9, 2, 8, 11], rfl⟩,
  ⟨#[13, 11, 7, 14, 12, 1, 3, 9, 5, 0, 15, 4, 8, 6, 2, 10], rfl⟩,
  ⟨#[6, 15, 14, 9, 11, 3, 0, 8, 12, 2, 13, 7, 1, 4, 10, 5], rfl⟩,
  ⟨#[10, 2, 8, 4, 7, 6, 1, 5, 15, 11, 9, 14, 3, 12, 13, 0], rfl⟩], rfl⟩

def limit : Nat := Nat.pow 2 64

def rotate (n x : Nat) : Nat := (x >>> n) ^^^ ((x <<< (64 - n)) % limit)

/-- Mixes two words of the message into four words of the work vector. -/
def mix (v : Vector Nat 17) (a b c d : Fin 16) (x y : Nat) : Vector Nat 17 :=
  let v := v.set a ((v[a] + v[b] + x) % limit)
  let v := v.set d (rotate 32 (v[d] ^^^ v[a]))
  let v := v.set c ((v[c] + v[d]) % limit)
  let v := v.set b (rotate 24 (v[b] ^^^ v[c]))
  let v := v.set a ((v[a] + v[b] + y) % limit)
  let v := v.set d (rotate 16 (v[d] ^^^ v[a]))
  let v := v.set c ((v[c] + v[d]) % limit)
  v.set b (rotate 63 (v[b] ^^^ v[c]))

def round (message : Vector Nat 16) (v : Vector Nat 17) (r : Nat) : Vector Nat 17 :=
  let s := sigma.get ⟨r % 10, Nat.mod_lt _ (by decide)⟩
  let v := mix v 0 4 8 12 message[s[0]] message[s[1]]
  let v := mix v 1 5 9 13 message[s[2]] message[s[3]]
  let v := mix v 2 6 10 14 message[s[4]] message[s[5]]
  let v := mix v 3 7 11 15 message[s[6]] message[s[7]]
  let v := mix v 0 5 10 15 message[s[8]] message[s[9]]
  let v := mix v 1 6 11 12 message[s[10]] message[s[11]]
  let v := mix v 2 7 8 13 message[s[12]] message[s[13]]
  mix v 3 4 9 14 message[s[14]] message[s[15]]

/-- The work vector before the first round. The initial vector is put in place of seven words of
sixteen, so that the last word remains behind it. -/
def start (p : Parameters) : Vector Nat 17 :=
  let v : Vector Nat 17 := p.state ++ initialVector ++ #v[0]
  let v := v.set 12 (p.offsetLow ^^^ v[12])
  let v := v.set 13 (p.offsetHigh ^^^ v[13])
  if p.final = 0 then v else v.set 14 (v[14] ^^^ (limit - 1))

def rounds (message : Vector Nat 16) : Nat → Nat → Vector Nat 17 → Vector Nat 17
  | 0, _, v => v
  | n + 1, r, v => rounds message n (r + 1) (round message v r)

def result (p : Parameters) : Vector Nat 8 :=
  let v := rounds p.message p.rounds 0 (start p)
  Vector.ofFn fun i : Fin 8 => p.state[i] ^^^ v[i.val] ^^^ v[i.val + 8]

def compress (p : Parameters) : Except Fault Bytes :=
  let words := (result p).toList
  if words.all (· < limit) then
    .ok (words.foldl (fun b n => b ++ Bytes.ofNatLittle 8 n) ByteArray.empty)
  else .error .notAWord

/-- Takes words from lists, of which the first may be longer than needed. The message is only
looked at if there are rounds. -/
def Parameters.ofLists (rounds : Nat) (state message : List Nat) (offsetLow offsetHigh : Nat)
    (final : Bool) : Except Fault Parameters := do
  require (8 ≤ state.length && (rounds = 0 || 16 ≤ message.length)) .indexOutOfRange
  return {
    rounds := rounds
    state := Vector.ofFn fun i : Fin 8 => state.getD i 0
    message := Vector.ofFn fun i : Fin 16 => message.getD i 0
    offsetLow := offsetLow
    offsetHigh := offsetHigh
    final := if final then 1 else 0 }

/-- The little-endian word of eight bytes that starts at byte `start`; what lies behind the end
is left out. -/
def word (b : Bytes) (start : Nat) : Nat := Bytes.toNatLittle (b.extract start (start + 8))

/-- Reads parameters from four bytes for the rounds, then the state, the message and the offset in
little-endian words, and all that follows as the final flag. -/
def Parameters.ofBytes (b : Bytes) : Parameters where
  rounds := Bytes.toNat (b.extract 0 4)
  state := Vector.ofFn fun i : Fin 8 => word b (4 + 8 * i)
  message := Vector.ofFn fun i : Fin 16 => word b (68 + 8 * i)
  offsetLow := word b 196
  offsetHigh := word b 204
  final := Bytes.toNat (b.extract 212 b.size)

/-- Reads `count` little-endian words of eight bytes. A negative position counts from the end. -/
def splitWords (b : Bytes) (start : Int) (count : Int) : List Nat :=
  (List.range count.toNat).map fun (i : Nat) =>
    (b.slice (start + 8 * i) (start + 8 * i + 8)).toNatLittle

end ExecutionLayer.Blake2b
