import Walstream.Framing.Layout

/-!
# SHA-256

The digest of a byte string, computed on numbers: a block is a number of 512 bits, its
message schedule a window of sixteen words in one number.

- `sha256`: the eight words of the digest.
-/

namespace Framing

namespace Sha256

/-- Go on with the value of `n`: evaluation stops here until it is known. -/
def force {α : Type} (n : Nat) (next : Nat → α) : α :=
  match n with
  | 0 => next 0
  | n + 1 => next (n + 1)

@[simp] theorem force_eq {α : Type} (n : Nat) (next : Nat → α) : force n next = next n := by
  cases n <;> rfl

/-- The low 32 bits. -/
def word (n : Nat) : Nat := n % 0x100000000

/-- The word twice in a row: its rotations are the words inside. -/
def twice (w : Nat) : Nat := w * 0x100000001

/-- Three rotations of a word to the right. -/
def rotations (w i j k : Nat) : Nat :=
  force (twice w) fun w => word (w >>> i ^^^ w >>> j ^^^ w >>> k)

/-- Two rotations of a word and a shift. -/
def shifts (w i j k : Nat) : Nat :=
  force (twice w) fun ww => word (ww >>> i ^^^ ww >>> j) ^^^ w >>> k

/-- The window after the next word of the message schedule. -/
def schedule (window : Nat) : Nat :=
  force (word (window >>> 448)) fun w₁ =>
  force (word (window >>> 32)) fun w₁₄ =>
  (window % 2 ^ 480) <<< 32 +
    word (window >>> 480 + shifts w₁ 7 18 3 + word (window >>> 192) + shifts w₁₄ 17 19 10)

/-- The eight words of the hash value. -/
structure Hash where
  (a b c d e f g h : Nat)
  deriving DecidableEq, Repr

/-- The first 32 bits of the fractional parts of the square roots of the first 8 primes. -/
def initial : Hash where
  a := 0x6a09e667
  b := 0xbb67ae85
  c := 0x3c6ef372
  d := 0xa54ff53a
  e := 0x510e527f
  f := 0x9b05688c
  g := 0x1f83d9ab
  h := 0x5be0cd19

/-- The first 32 bits of the fractional parts of the cube roots of the first 64 primes. -/
def constants : List Nat := [
  0x428a2f98, 0x71374491, 0xb5c0fbcf, 0xe9b5dba5, 0x3956c25b, 0x59f111f1, 0x923f82a4, 0xab1c5ed5,
  0xd807aa98, 0x12835b01, 0x243185be, 0x550c7dc3, 0x72be5d74, 0x80deb1fe, 0x9bdc06a7, 0xc19bf174,
  0xe49b69c1, 0xefbe4786, 0x0fc19dc6, 0x240ca1cc, 0x2de92c6f, 0x4a7484aa, 0x5cb0a9dc, 0x76f988da,
  0x983e5152, 0xa831c66d, 0xb00327c8, 0xbf597fc7, 0xc6e00bf3, 0xd5a79147, 0x06ca6351, 0x14292967,
  0x27b70a85, 0x2e1b2138, 0x4d2c6dfc, 0x53380d13, 0x650a7354, 0x766a0abb, 0x81c2c92e, 0x92722c85,
  0xa2bfe8a1, 0xa81a664b, 0xc24b8b70, 0xc76c51a3, 0xd192e819, 0xd6990624, 0xf40e3585, 0x106aa070,
  0x19a4c116, 0x1e376c08, 0x2748774c, 0x34b0bcb5, 0x391c0cb3, 0x4ed8aa4a, 0x5b9cca4f, 0x682e6ff3,
  0x748f82ee, 0x78a5636f, 0x84c87814, 0x8cc70208, 0x90befffa, 0xa4506ceb, 0xbef9a3f7, 0xc67178f2]

/-- The rounds with these constants, from the oldest word of the window on. -/
def rounds : List Nat → (window : Nat) → Hash → Hash
  | [], _, s => s
  | k :: ks, window, ⟨a, b, c, d, e, f, g, h⟩ =>
    let choice := e &&& f ^^^ (0xffffffff - e) &&& g
    let majority := a &&& b ^^^ c &&& (a ^^^ b)
    force (h + rotations e 6 11 25 + choice + k + window >>> 480) fun t₁ =>
    force (word (d + t₁)) fun e' =>
    force (word (t₁ + rotations a 2 13 22 + majority)) fun a' =>
    force (schedule window) fun window =>
    rounds ks window ⟨a', a, b, c, e', e, f, g⟩

/-- The hash value after one more block. -/
def compress (s : Hash) (block : Nat) : Hash :=
  match s, rounds constants block s with
  | ⟨a, b, c, d, e, f, g, h⟩, ⟨a', b', c', d', e', f', g', h'⟩ =>
    force (word (a + a')) fun a => force (word (b + b')) fun b =>
    force (word (c + c')) fun c => force (word (d + d')) fun d =>
    force (word (e + e')) fun e => force (word (f + f')) fun f =>
    force (word (g + g')) fun g => force (word (h + h')) fun h =>
    ⟨a, b, c, d, e, f, g, h⟩

/-- The length of the message in bits, in eight bytes. -/
def bitLength (message : Bytes) : Bytes :=
  (List.range 8).reverse.map fun i => UInt8.ofNat ((8 * message.length) >>> (8 * i))

/-- A message is completed by a bit that is set, zeros and its length. -/
def padded (message : Bytes) : Bytes :=
  message ++ 128 :: (List.replicate ((119 - message.length % 64) % 64) 0 : Bytes) ++
    bitLength message

/-- This many blocks of 64 bytes. -/
def blocks : Nat → Bytes → List Nat
  | 0, _ => []
  | count + 1, bytes => bigEndian (bytes.take 64) :: blocks count (bytes.drop 64)

/-- The hash value of a message. -/
def hash (message : Bytes) : Hash :=
  (blocks ((message.length + 72) / 64) (padded message)).foldl compress initial

def Hash.words (s : Hash) : List Nat := [s.a, s.b, s.c, s.d, s.e, s.f, s.g, s.h]

end Sha256

/-- The eight words of the digest. -/
def sha256 (message : Bytes) : List Nat := (Sha256.hash message).words

@[simp] theorem length_sha256 (message : Bytes) : (sha256 message).length = 8 := rfl

/-- The digest of the text "abc". -/
example : sha256 [97, 98, 99] = [0xba7816bf, 0x8f01cfea, 0x414140de, 0x5dae2223, 0xb00361a3,
    0x96177a9c, 0xb410ff61, 0xf20015ad] := by decide +kernel

end Framing
