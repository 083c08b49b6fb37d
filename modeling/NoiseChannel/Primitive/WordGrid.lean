import NoiseChannel.Bytes

/-!
# Grids of words

Both ChaCha20 and BLAKE2s stir a square of four rows of four 32-bit words: first down the columns,
then down the diagonals. A column step acts on whole rows at once; the diagonals are brought into
the columns by turning the rows, and back afterwards.
-/

namespace NoiseChannel

/-- The 32-bit words of a byte string, each of four bytes with the lowest first. -/
def Bytes.wordsLE (bs : Bytes) : List UInt32 := (bs.chunks 4).map fun c => UInt32.ofNat c.toNatLE

/-- The 32-bit words of a byte string, each of four bytes with the highest first. -/
def Bytes.wordsBE (bs : Bytes) : List UInt32 := (bs.chunks 4).map fun c => UInt32.ofNat c.toNatBE

/-- A word with its bits turned left by `n` places, `0 < n < 32`. -/
def turnLeft (n : UInt32) (w : UInt32) : UInt32 := (w <<< n) ||| (w >>> (32 - n))

/-- A word with its bits turned right by `n` places, `0 < n < 32`. -/
def turnRight (n : UInt32) (w : UInt32) : UInt32 := (w >>> n) ||| (w <<< (32 - n))

/-- Four words side by side. -/
structure Row where
  c0 : UInt32
  c1 : UInt32
  c2 : UInt32
  c3 : UInt32
deriving DecidableEq, Repr

namespace Row

/-- Applies `f` in every column. -/
def map (f : UInt32 → UInt32) (r : Row) : Row := ⟨f r.c0, f r.c1, f r.c2, f r.c3⟩

/-- Combines two rows column by column. -/
def map₂ (f : UInt32 → UInt32 → UInt32) (r s : Row) : Row :=
  ⟨f r.c0 s.c0, f r.c1 s.c1, f r.c2 s.c2, f r.c3 s.c3⟩

/-- Column-wise sum modulo `2 ^ 32`. -/
def add : Row → Row → Row := map₂ (· + ·)

def xor : Row → Row → Row := map₂ (· ^^^ ·)

/-- Every word moved one column to the left, the first to the end. -/
def shift (r : Row) : Row := ⟨r.c1, r.c2, r.c3, r.c0⟩

/-- The row of the four words that start at index `i`; absent words are zero. -/
def ofWords (ws : List UInt32) (i : Nat) : Row :=
  ⟨ws.getD i 0, ws.getD (i + 1) 0, ws.getD (i + 2) 0, ws.getD (i + 3) 0⟩

/-- The four words, each as four bytes with the lowest first. -/
def toBytes (r : Row) : Bytes :=
  [r.c0, r.c1, r.c2, r.c3].flatMap fun w => Bytes.ofNatLE 4 w.toNat

@[simp] theorem length_toBytes (r : Row) : r.toBytes.length = 16 := by
  simp [toBytes]

end Row

/-- Four rows of four words. -/
structure Grid where
  r0 : Row
  r1 : Row
  r2 : Row
  r3 : Row
deriving DecidableEq, Repr

namespace Grid

/-- Combines two grids word by word with sums modulo `2 ^ 32`. -/
def add (g h : Grid) : Grid := ⟨g.r0.add h.r0, g.r1.add h.r1, g.r2.add h.r2, g.r3.add h.r3⟩

/-- Brings the diagonals into the columns: row `i` moves `i` places to the left. -/
def slant (g : Grid) : Grid := ⟨g.r0, g.r1.shift, g.r2.shift.shift, g.r3.shift.shift.shift⟩

/-- Undoes `slant`. -/
def unslant (g : Grid) : Grid := ⟨g.r0, g.r1.shift.shift.shift, g.r2.shift.shift, g.r3.shift⟩

/-- Applies a column step to the diagonals. -/
def alongDiagonals (step : Grid → Grid) (g : Grid) : Grid := (step g.slant).unslant

/-- The sixteen words row by row, each as four bytes with the lowest first. -/
def toBytes (g : Grid) : Bytes := g.r0.toBytes ++ g.r1.toBytes ++ g.r2.toBytes ++ g.r3.toBytes

@[simp] theorem length_toBytes (g : Grid) : g.toBytes.length = 64 := by
  simp [toBytes]

end Grid

end NoiseChannel
