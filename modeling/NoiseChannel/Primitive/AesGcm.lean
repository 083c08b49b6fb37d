import NoiseChannel.Bytes

/-!
# AES with a 256-bit key, and GHASH

What Galois/Counter Mode is made of. AES is the block cipher in its encrypting direction, the only one
that counter mode needs; a block is a list of sixteen bytes, column after column.

GHASH is the authenticator: blocks of sixteen bytes are the coefficients of a polynomial over the
field of `2 ^ 128` elements, evaluated at a point by Horner's rule. A block is read as a number with
its first bit highest, so the bit of weight `2 ^ 127` is the coefficient of `1` in the field element
and multiplication by `x` is a shift to the right.
-/

namespace NoiseChannel

namespace Aes256

/-! ## Substitution and rows -/

/-- The substitution of a byte, by its value: the inverse in the field of 256 elements, followed by
an affine map. -/
def substitution : Array UInt8 := #[
  0x63, 0x7c, 0x77, 0x7b, 0xf2, 0x6b, 0x6f, 0xc5, 0x30, 0x01, 0x67, 0x2b, 0xfe, 0xd7, 0xab, 0x76,
  0xca, 0x82, 0xc9, 0x7d, 0xfa, 0x59, 0x47, 0xf0, 0xad, 0xd4, 0xa2, 0xaf, 0x9c, 0xa4, 0x72, 0xc0,
  0xb7, 0xfd, 0x93, 0x26, 0x36, 0x3f, 0xf7, 0xcc, 0x34, 0xa5, 0xe5, 0xf1, 0x71, 0xd8, 0x31, 0x15,
  0x04, 0xc7, 0x23, 0xc3, 0x18, 0x96, 0x05, 0x9a, 0x07, 0x12, 0x80, 0xe2, 0xeb, 0x27, 0xb2, 0x75,
  0x09, 0x83, 0x2c, 0x1a, 0x1b, 0x6e, 0x5a, 0xa0, 0x52, 0x3b, 0xd6, 0xb3, 0x29, 0xe3, 0x2f, 0x84,
  0x53, 0xd1, 0x00, 0xed, 0x20, 0xfc, 0xb1, 0x5b, 0x6a, 0xcb, 0xbe, 0x39, 0x4a, 0x4c, 0x58, 0xcf,
  0xd0, 0xef, 0xaa, 0xfb, 0x43, 0x4d, 0x33, 0x85, 0x45, 0xf9, 0x02, 0x7f, 0x50, 0x3c, 0x9f, 0xa8,
  0x51, 0xa3, 0x40, 0x8f, 0x92, 0x9d, 0x38, 0xf5, 0xbc, 0xb6, 0xda, 0x21, 0x10, 0xff, 0xf3, 0xd2,
  0xcd, 0x0c, 0x13, 0xec, 0x5f, 0x97, 0x44, 0x17, 0xc4, 0xa7, 0x7e, 0x3d, 0x64, 0x5d, 0x19, 0x73,
  0x60, 0x81, 0x4f, 0xdc, 0x22, 0x2a, 0x90, 0x88, 0x46, 0xee, 0xb8, 0x14, 0xde, 0x5e, 0x0b, 0xdb,
  0xe0, 0x32, 0x3a, 0x0a, 0x49, 0x06, 0x24, 0x5c, 0xc2, 0xd3, 0xac, 0x62, 0x91, 0x95, 0xe4, 0x79,
  0xe7, 0xc8, 0x37, 0x6d, 0x8d, 0xd5, 0x4e, 0xa9, 0x6c, 0x56, 0xf4, 0xea, 0x65, 0x7a, 0xae, 0x08,
  0xba, 0x78, 0x25, 0x2e, 0x1c, 0xa6, 0xb4, 0xc6, 0xe8, 0xdd, 0x74, 0x1f, 0x4b, 0xbd, 0x8b, 0x8a,
  0x70, 0x3e, 0xb5, 0x66, 0x48, 0x03, 0xf6, 0x0e, 0x61, 0x35, 0x57, 0xb9, 0x86, 0xc1, 0x1d, 0x9e,
  0xe1, 0xf8, 0x98, 0x11, 0x69, 0xd9, 0x8e, 0x94, 0x9b, 0x1e, 0x87, 0xe9, 0xce, 0x55, 0x28, 0xdf,
  0x8c, 0xa1, 0x89, 0x0d, 0xbf, 0xe6, 0x42, 0x68, 0x41, 0x99, 0x2d, 0x0f, 0xb0, 0x54, 0xbb, 0x16]

/-- Substitutes one byte. -/
def subByte (b : UInt8) : UInt8 := substitution.getD b.toNat 0

/-- The product of a byte with `x` in the field of 256 elements. -/
def timesX (b : UInt8) : UInt8 := if b < 0x80 then b <<< 1 else (b <<< 1) ^^^ 0x1b

/-- For each place of a block, the place whose byte moves there when row `i` turns left by `i`. -/
def rowShift : List Nat := [0, 5, 10, 15, 4, 9, 14, 3, 8, 13, 2, 7, 12, 1, 6, 11]

/-- Turns row `i` of a block left by `i` places. -/
def shiftRows (block : Bytes) : Bytes := rowShift.map fun i => block.getD i 0

/-- Multiplies every column by the fixed polynomial `3 x ^ 3 + x ^ 2 + x + 2`. -/
def mixColumns : Bytes → Bytes
  | a :: b :: c :: d :: rest =>
    let all := a ^^^ b ^^^ c ^^^ d
    (a ^^^ all ^^^ timesX (a ^^^ b)) :: (b ^^^ all ^^^ timesX (b ^^^ c)) ::
      (c ^^^ all ^^^ timesX (c ^^^ d)) :: (d ^^^ all ^^^ timesX (d ^^^ a)) :: mixColumns rest
  | _ => []

/-! ## Key expansion -/

/-- Adds up words from left to right, starting from `start`: every word is the exclusive or of the
one before it and the old word in its place. -/
def chain (start : Bytes) : List Bytes → List Bytes
  | [] => []
  | w :: ws => let next := Bytes.xor start w; next :: chain next ws

/-- The eight key words that follow the eight words `group`, with round constant `rc`. -/
def nextGroup (rc : UInt8) (group : List Bytes) : List Bytes :=
  let last := group.getLastD []
  let turned := Bytes.xor ((last.drop 1 ++ last.take 1).map subByte) [rc, 0, 0, 0]
  let low := chain turned (group.take 4)
  low ++ chain ((low.getLastD []).map subByte) (group.drop 4)

/-- The round constants: the powers of `x`. -/
def roundConstants : List UInt8 := [0x01, 0x02, 0x04, 0x08, 0x10, 0x20, 0x40]

/-- The groups of key words that follow `group`, one for each round constant. -/
def laterGroups : List UInt8 → List Bytes → List (List Bytes)
  | [], _ => []
  | rc :: rcs, group => let next := nextGroup rc group; next :: laterGroups rcs next

/-- The fifteen round keys of a 32-byte key. -/
def roundKeys (key : Bytes) : List Bytes :=
  let first := key.chunks 4
  let words := (first :: laterGroups roundConstants first).flatten
  (Bytes.chunks 16 words.flatten).take 15

/-! ## Encryption -/

/-- One round under the round key `k`. -/
def round (block k : Bytes) : Bytes := Bytes.xor (mixColumns (shiftRows (block.map subByte))) k

/-- Encrypts one block under given round keys: the first is added before the rounds, and the round
of the last mixes no columns. -/
def encryptWith (keys : List Bytes) (block : Bytes) : Bytes :=
  let start := Bytes.xor block (keys.headD [])
  let inner := (keys.drop 1).dropLast.foldl round start
  Bytes.xor (shiftRows (inner.map subByte)) (keys.getLastD [])

end Aes256

namespace Ghash

/-! ## The authenticator -/

/-- What replaces `x ^ 128`: the element `1 + x + x ^ 2 + x ^ 7`. -/
def reduction : Nat := 0xe1 <<< 120

/-- The product of a field element with `x`. -/
def timesX (v : Nat) : Nat := if v.testBit 0 then (v >>> 1) ^^^ reduction else v >>> 1

/-- The product of two field elements, summed over the bits of the first from the highest on. -/
def mul (a b : Nat) : Nat :=
  ((List.range 128).foldl
    (fun (sum, v) i => (if a.testBit (127 - i) then sum ^^^ v else sum, timesX v)) (0, b)).1

/-- The value at `point` of the polynomial whose coefficients are the blocks of `data`, a multiple
of sixteen bytes long. -/
def eval (point : Nat) (data : Bytes) : Nat :=
  (data.chunks 16).foldl (fun acc block => mul (acc ^^^ block.toNatBE) point) 0

end Ghash

end NoiseChannel
