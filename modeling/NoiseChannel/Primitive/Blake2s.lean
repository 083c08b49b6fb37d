import NoiseChannel.Primitive.WordGrid

/-!
# BLAKE2s

The digest with 32 bytes of output and no key. The working grid holds the chaining words in its
upper half and the initial words in its lower half, with the number of bytes hashed so far and the
mark of the last block mixed in.
-/

namespace NoiseChannel.Blake2s

/-- The eight chaining words, in two rows. -/
structure State where
  /-- The first four words. -/
  upper : Row
  /-- The last four words. -/
  lower : Row
deriving DecidableEq, Repr

/-- The initial words, those of SHA-256. -/
def initialWords : State :=
  ⟨⟨0x6a09e667, 0xbb67ae85, 0x3c6ef372, 0xa54ff53a⟩,
    ⟨0x510e527f, 0x9b05688c, 0x1f83d9ab, 0x5be0cd19⟩⟩

/-- The initial words with the parameters mixed in: 32 bytes of output, no key, no tree. -/
def initial : State := ⟨initialWords.upper.xor ⟨0x01010020, 0, 0, 0⟩, initialWords.lower⟩

/-- The order in which the rounds take the message words. -/
def schedule : List (List Nat) := [
  [0, 1, 2, 3, 4, 5, 6, 7, 8, 9, 10, 11, 12, 13, 14, 15],
  [14, 10, 4, 8, 9, 15, 13, 6, 1, 12, 0, 2, 11, 7, 5, 3],
  [11, 8, 12, 0, 5, 2, 15, 13, 10, 14, 3, 6, 7, 1, 9, 4],
  [7, 9, 3, 1, 13, 12, 11, 14, 2, 6, 5, 10, 4, 0, 15, 8],
  [9, 0, 5, 7, 2, 4, 10, 15, 14, 1, 11, 12, 6, 8, 3, 13],
  [2, 12, 6, 10, 0, 11, 8, 3, 4, 13, 7, 5, 15, 14, 1, 9],
  [12, 5, 1, 15, 14, 13, 4, 10, 0, 7, 6, 3, 9, 2, 8, 11],
  [13, 11, 7, 14, 12, 1, 3, 9, 5, 0, 15, 4, 8, 6, 2, 10],
  [6, 15, 14, 9, 11, 3, 0, 8, 12, 2, 13, 7, 1, 4, 10, 5],
  [10, 2, 8, 4, 7, 6, 1, 5, 15, 11, 9, 14, 3, 12, 13, 0]]

/-- The mixing step, run in all four columns at once with one row of message words for each half. -/
def columnStep (x y : Row) (g : Grid) : Grid :=
  let a := (g.r0.add g.r1).add x
  let d := (g.r3.xor a).map (turnRight 16)
  let c := g.r2.add d
  let b := (g.r1.xor c).map (turnRight 12)
  let a := (a.add b).add y
  let d := (d.xor a).map (turnRight 8)
  let c := c.add d
  let b := (b.xor c).map (turnRight 7)
  ⟨a, b, c, d⟩

/-- One round: the first eight words of `order` stir the columns, the others the diagonals. -/
def round (words : List UInt32) (g : Grid) (order : List Nat) : Grid :=
  let pick (i : Nat) : UInt32 := words.getD (order.getD i 0) 0
  let g := columnStep ⟨pick 0, pick 2, pick 4, pick 6⟩ ⟨pick 1, pick 3, pick 5, pick 7⟩ g
  g.alongDiagonals
    (columnStep ⟨pick 8, pick 10, pick 12, pick 14⟩ ⟨pick 9, pick 11, pick 13, pick 15⟩)

/-- Compresses one block of 64 bytes into the chaining words; `count` bytes have been hashed with
it, and `last` marks the final block. -/
def compress (s : State) (block : Bytes) (count : Nat) (last : Bool) : State :=
  let mark : Row :=
    ⟨UInt32.ofNat count, UInt32.ofNat (count / UInt32.size), if last then 0xffffffff else 0, 0⟩
  let g : Grid := ⟨s.upper, s.lower, initialWords.upper, initialWords.lower.xor mark⟩
  let g := schedule.foldl (round block.wordsLE) g
  ⟨(s.upper.xor g.r0).xor g.r2, (s.lower.xor g.r1).xor g.r3⟩

/-- Absorbs the remaining blocks of a message, of which `count` bytes have been hashed already. -/
def absorb (s : State) (count : Nat) : List Bytes → State
  | [] => compress s (Bytes.zeros 64) count true
  | [block] => compress s (block.padTo 64) (count + block.length) true
  | block :: blocks => absorb (compress s block (count + 64) false) (count + 64) blocks

/-- The 32-byte digest of a message. -/
def digest (message : Bytes) : Bytes :=
  let s := absorb initial 0 (message.chunks 64)
  s.upper.toBytes ++ s.lower.toBytes

@[simp] theorem length_digest (message : Bytes) : (digest message).length = 32 := by
  simp [digest]

end NoiseChannel.Blake2s
