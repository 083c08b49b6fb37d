import NoiseChannel.Primitive.WordGrid

/-!
# ChaCha20 and Poly1305

The stream cipher with a key of 32 and a nonce of twelve bytes: a block of 64 keystream bytes is
the sum of a grid, filled from constants, key, block counter and nonce, and the same grid after ten
double rounds. Beside it the one-time authenticator: the message, in blocks of sixteen bytes, is
evaluated as a polynomial modulo `2 ^ 130 - 5` at a point `r`, and a pad `s` is added modulo
`2 ^ 128`.
-/

namespace NoiseChannel

namespace ChaCha20

/-! ## The stream cipher -/

/-- The quarter round, run in all four columns at once. -/
def columnRound (g : Grid) : Grid :=
  let a := g.r0.add g.r1
  let d := (g.r3.xor a).map (turnLeft 16)
  let c := g.r2.add d
  let b := (g.r1.xor c).map (turnLeft 12)
  let a := a.add b
  let d := (d.xor a).map (turnLeft 8)
  let c := c.add d
  let b := (b.xor c).map (turnLeft 7)
  ⟨a, b, c, d⟩

/-- One round down the columns and one down the diagonals. -/
def doubleRound (g : Grid) : Grid := Grid.alongDiagonals columnRound (columnRound g)

/-- The words that spell "expand 32-byte k". -/
def constants : Row := ⟨0x61707865, 0x3320646e, 0x79622d32, 0x6b206574⟩

/-- The grid before the rounds, for a 32-byte key and a 12-byte nonce. -/
def initialGrid (key nonce : Bytes) (counter : UInt32) : Grid :=
  let k := key.wordsLE
  let n := nonce.wordsLE
  ⟨constants, Row.ofWords k 0, Row.ofWords k 4, ⟨counter, n.getD 0 0, n.getD 1 0, n.getD 2 0⟩⟩

/-- The block of 64 keystream bytes with the given counter. -/
def block (key nonce : Bytes) (counter : UInt32) : Bytes :=
  let g := initialGrid key nonce counter
  ((Nat.repeat doubleRound 10 g).add g).toBytes

/-- The first `n` keystream bytes of the blocks from `counter` on. -/
def keystream (key nonce : Bytes) (counter : Nat) (n : Nat) : Bytes :=
  let blocks := (List.range ((n + 63) / 64)).map fun i =>
    block key nonce (UInt32.ofNat (counter + i))
  blocks.flatten.take n

end ChaCha20

namespace Poly1305

/-! ## The authenticator -/

/-- The modulus `2 ^ 130 - 5`. -/
def modulus : Nat := Nat.pow 2 130 - 5

/-- Clears the 22 bits that a point must not have. -/
def clamp (r : Nat) : Nat := r &&& 0x0ffffffc0ffffffc0ffffffc0fffffff

/-- A block as a number, with a one behind its last byte. -/
def coefficient (block : Bytes) : Nat := block.toNatLE + Nat.pow 256 block.length

/-- The sixteen-byte authenticator of `message` under a 32-byte one-time key. -/
def tag (key message : Bytes) : Bytes :=
  let r := clamp (Bytes.toNatLE (key.take 16))
  let s := Bytes.toNatLE ((key.drop 16).take 16)
  let sum := (message.chunks 16).foldl (fun acc block => (acc + coefficient block) * r % modulus) 0
  Bytes.ofNatLE 16 (sum + s)

@[simp] theorem length_tag (key message : Bytes) : (tag key message).length = 16 := by
  simp [tag]

end Poly1305

end NoiseChannel
