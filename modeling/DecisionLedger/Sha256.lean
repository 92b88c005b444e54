import DecisionLedger.Bytes

/-! # SHA-256

The hash of the secure hash standard over byte strings: the message is padded to whole blocks of 64
bytes, each block is spread into 64 words, and 64 rounds mix them into eight chaining words.
-/

namespace DecisionLedger.Sha256

/-- The eight chaining words. -/
structure Chaining where
  a : UInt32
  b : UInt32
  c : UInt32
  d : UInt32
  e : UInt32
  f : UInt32
  g : UInt32
  h : UInt32
  deriving Repr, DecidableEq

/-- The chaining words before the first block. -/
def start : Chaining where
  a := 0x6a09e667
  b := 0xbb67ae85
  c := 0x3c6ef372
  d := 0xa54ff53a
  e := 0x510e527f
  f := 0x9b05688c
  g := 0x1f83d9ab
  h := 0x5be0cd19

def roundConstants : List UInt32 :=
  [0x428a2f98, 0x71374491, 0xb5c0fbcf, 0xe9b5dba5, 0x3956c25b, 0x59f111f1, 0x923f82a4, 0xab1c5ed5,
   0xd807aa98, 0x12835b01, 0x243185be, 0x550c7dc3, 0x72be5d74, 0x80deb1fe, 0x9bdc06a7, 0xc19bf174,
   0xe49b69c1, 0xefbe4786, 0x0fc19dc6, 0x240ca1cc, 0x2de92c6f, 0x4a7484aa, 0x5cb0a9dc, 0x76f988da,
   0x983e5152, 0xa831c66d, 0xb00327c8, 0xbf597fc7, 0xc6e00bf3, 0xd5a79147, 0x06ca6351, 0x14292967,
   0x27b70a85, 0x2e1b2138, 0x4d2c6dfc, 0x53380d13, 0x650a7354, 0x766a0abb, 0x81c2c92e, 0x92722c85,
   0xa2bfe8a1, 0xa81a664b, 0xc24b8b70, 0xc76c51a3, 0xd192e819, 0xd6990624, 0xf40e3585, 0x106aa070,
   0x19a4c116, 0x1e376c08, 0x2748774c, 0x34b0bcb5, 0x391c0cb3, 0x4ed8aa4a, 0x5b9cca4f, 0x682e6ff3,
   0x748f82ee, 0x78a5636f, 0x84c87814, 0x8cc70208, 0x90befffa, 0xa4506ceb, 0xbef9a3f7, 0xc67178f2]

def rotate (word amount : UInt32) : UInt32 :=
  (word >>> amount) ||| (word <<< (32 - amount))

/-- The function of the message schedule on the word fifteen places back. -/
def spread15 (word : UInt32) : UInt32 :=
  rotate word 7 ^^^ rotate word 18 ^^^ (word >>> 3)

/-- The function of the message schedule on the word two places back. -/
def spread2 (word : UInt32) : UInt32 :=
  rotate word 17 ^^^ rotate word 19 ^^^ (word >>> 10)

/-- Add `count` words to a schedule whose latest word comes first. -/
def extend : (count : Nat) → (schedule : List UInt32) → List UInt32
  | 0, schedule => schedule
  | count + 1, schedule =>
    let word := spread2 (schedule.getD 1 0) + schedule.getD 6 0 + spread15 (schedule.getD 14 0) +
      schedule.getD 15 0
    extend count (word :: schedule)

/-- Four bytes make a word, the most significant first. -/
def words : Bytes → List UInt32
  | a :: b :: c :: d :: rest =>
    ((a.toUInt32 <<< 24) ||| (b.toUInt32 <<< 16) ||| (c.toUInt32 <<< 8) ||| d.toUInt32) ::
      words rest
  | _ => []

/-- One round with its schedule word and constant added up in `input`. -/
def round (state : Chaining) (input : UInt32) : Chaining :=
  let { a, b, c, d, e, f, g, h } := state
  let first := h + (rotate e 6 ^^^ rotate e 11 ^^^ rotate e 25) + ((e &&& f) ^^^ (~~~ e &&& g)) +
    input
  let second := (rotate a 2 ^^^ rotate a 13 ^^^ rotate a 22) +
    ((a &&& b) ^^^ (a &&& c) ^^^ (b &&& c))
  { a := first + second, b := a, c := b, d := c, e := d + first, f := e, g := f, h := g }

/-- Mix one block of 64 bytes into the chaining words. -/
def compress (state : Chaining) (block : Bytes) : Chaining :=
  let schedule := (extend 48 (words block).reverse).reverse
  let mixed := (List.zipWith (· + ·) roundConstants schedule).foldl round state
  { a := state.a + mixed.a, b := state.b + mixed.b, c := state.c + mixed.c, d := state.d + mixed.d,
    e := state.e + mixed.e, f := state.f + mixed.f, g := state.g + mixed.g, h := state.h + mixed.h }

/-- Mix `count` blocks of a message in order. -/
def absorb : (count : Nat) → Chaining → Bytes → Chaining
  | 0, state, _ => state
  | count + 1, state, message => absorb count (compress state (message.take 64)) (message.drop 64)

/-- A one bit, the fewest zero bytes that complete a block, and the length in bits. -/
def padding (length : Nat) : Bytes :=
  0x80 :: (List.replicate ((119 - length % 64) % 64) 0 ++ Bytes.bigEndian 8 (8 * length))

def hash (message : Bytes) : Bytes :=
  let padded := message ++ padding message.length
  let { a, b, c, d, e, f, g, h } := absorb (padded.length / 64) start padded
  [a, b, c, d, e, f, g, h].flatMap fun word => Bytes.bigEndian 4 word.toNat

@[simp] theorem length_hash (message : Bytes) : (hash message).length = 32 := by
  simp [hash]

end DecisionLedger.Sha256
