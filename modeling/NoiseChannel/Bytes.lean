/-!
# Byte strings

Byte strings are lists of bytes. This module holds what the ciphers, digests and wire formats share:
numbers as base-256 digits in either order, bytewise exclusive or, zero padding, cutting into
chunks, and writing into an area of fixed size that a caller lends.
-/

namespace NoiseChannel

/-- A byte string. -/
abbrev Bytes := List UInt8

namespace Bytes

/-! ## Numbers as digits -/

/-- The `n` lowest base-256 digits of `k`, lowest first. -/
def ofNatLE : Nat → Nat → Bytes
  | 0, _ => []
  | n + 1, k => UInt8.ofNat k :: ofNatLE n (k / 256)

/-- The `n` lowest base-256 digits of `k`, highest first. -/
def ofNatBE (n k : Nat) : Bytes := (ofNatLE n k).reverse

/-- The number whose base-256 digits, lowest first, are given. -/
def toNatLE : Bytes → Nat
  | [] => 0
  | b :: bs => b.toNat + 256 * toNatLE bs

/-- The number whose base-256 digits, highest first, are given. -/
def toNatBE (bs : Bytes) : Nat := toNatLE bs.reverse

@[simp] theorem length_ofNatLE (n k : Nat) : (ofNatLE n k).length = n := by
  induction n generalizing k with
  | zero => rfl
  | succ n ih => simp [ofNatLE, ih]

@[simp] theorem length_ofNatBE (n k : Nat) : (ofNatBE n k).length = n := by
  simp [ofNatBE]

/-! ## Exclusive or -/

/-- Bytewise exclusive or, as long as the shorter argument. -/
def xor (a b : Bytes) : Bytes := List.zipWith (· ^^^ ·) a b

@[simp] theorem length_xor (a b : Bytes) : (xor a b).length = min a.length b.length := by
  simp [xor]

/-- A second exclusive or with the same bytes undoes the first. -/
theorem xor_xor_cancel {a k : Bytes} (h : a.length ≤ k.length) : xor (xor a k) k = a := by
  induction a generalizing k with
  | nil => simp [xor]
  | cons b bs ih =>
    cases k with
    | nil => simp at h
    | cons c cs =>
      have hbyte : b ^^^ c ^^^ c = b := by
        rw [UInt8.xor_assoc, UInt8.xor_self, UInt8.xor_zero]
      have hrest : xor (xor bs cs) cs = bs := ih (Nat.le_of_succ_le_succ h)
      show (b ^^^ c ^^^ c) :: xor (xor bs cs) cs = b :: bs
      rw [hbyte, hrest]

/-! ## Zeros and padding -/

/-- `n` zero bytes. -/
def zeros (n : Nat) : Bytes := List.replicate n 0

@[simp] theorem length_zeros (n : Nat) : (zeros n).length = n := by
  simp [zeros]

/-- `bs` followed by as many zeros as bring it to at least `n` bytes. -/
def padTo (n : Nat) (bs : Bytes) : Bytes := bs ++ zeros (n - bs.length)

/-- `bs` followed by the fewest zeros that make its length a multiple of `n`. -/
def padToMultiple (n : Nat) (bs : Bytes) : Bytes := bs ++ zeros ((n - bs.length % n) % n)

/-! ## Chunks -/

/-- At most `fuel` chunks of `n` bytes from the front, the last one possibly shorter. -/
def chunksUpTo (n : Nat) : Nat → Bytes → List Bytes
  | _, [] => []
  | 0, _ => []
  | fuel + 1, bs => bs.take n :: chunksUpTo n fuel (bs.drop n)

/-- `bs` cut into chunks of `n` bytes, the last one possibly shorter. -/
def chunks (n : Nat) (bs : Bytes) : List Bytes := chunksUpTo n bs.length bs

/-! ## Areas lent by a caller -/

/-- `area` with `data` written over it from index `pos` on. Its size is kept when `data` fits. -/
def overwrite (area : Bytes) (pos : Nat) (data : Bytes) : Bytes :=
  area.take pos ++ data ++ area.drop (pos + data.length)

theorem length_overwrite {area data : Bytes} {pos : Nat} (h : pos + data.length ≤ area.length) :
    (area.overwrite pos data).length = area.length := by
  simp [overwrite]
  omega

/-- What lies behind the data that are written over an area is untouched. -/
theorem drop_overwrite {area data : Bytes} {pos n : Nat} (h : pos + data.length ≤ n) :
    (area.overwrite pos data).drop n = area.drop n := by
  have hfront : (area.take pos ++ data).length ≤ n := by
    rw [List.length_append, List.length_take]
    omega
  unfold overwrite
  rw [List.drop_append, List.drop_of_length_le hfront, List.nil_append, List.drop_drop,
    List.length_append, List.length_take]
  by_cases hpos : pos ≤ area.length
  · congr 1
    omega
  · rw [List.drop_of_length_le (by omega), List.drop_of_length_le (by omega)]

end Bytes

end NoiseChannel
