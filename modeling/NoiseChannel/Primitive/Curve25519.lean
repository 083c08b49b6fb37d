import NoiseChannel.Bytes

/-!
# Curve25519

The function of RFC 7748: multiplication of a point of the curve `y ^ 2 = x ^ 3 + 486662 x ^ 2 + x`,
given by its first coordinate, by a scalar. The Montgomery ladder walks the bits of the scalar from
the highest down and keeps two points in projective coordinates that differ by the given one.
-/

namespace NoiseChannel.Curve25519

/-- The order `2 ^ 255 - 19` of the field. -/
def prime : Nat := Nat.pow 2 255 - 19

def add (a b : Nat) : Nat := (a + b) % prime

def sub (a b : Nat) : Nat := (a + (prime - b % prime)) % prime

def mul (a b : Nat) : Nat := a * b % prime

/-- The power of `a` whose exponent is the number in the `n` lowest bits of `e`, times
`acc ^ (2 ^ n)`. -/
def powBits (a e : Nat) : Nat → Nat → Nat
  | 0, acc => acc
  | n + 1, acc =>
    let square := mul acc acc
    powBits a e n (if e.testBit n then mul square a else square)

/-- The inverse of a field element, zero for zero. -/
def inverse (a : Nat) : Nat := powBits a (prime - 2) 255 1

/-- The two points of the ladder, each a quotient `x / z`. -/
structure Ladder where
  /-- Numerator of the lower point. -/
  x2 : Nat
  /-- Denominator of the lower point. -/
  z2 : Nat
  /-- Numerator of the upper point. -/
  x3 : Nat
  /-- Denominator of the upper point. -/
  z3 : Nat

namespace Ladder

/-- The two points exchanged if `b`. -/
def swapIf (b : Bool) (l : Ladder) : Ladder := if b then ⟨l.x3, l.z3, l.x2, l.z2⟩ else l

/-- Doubles the lower point and adds it to the upper one, for points that differ by the one with
first coordinate `u`. -/
def step (u : Nat) (l : Ladder) : Ladder :=
  let a := add l.x2 l.z2
  let aa := mul a a
  let b := sub l.x2 l.z2
  let bb := mul b b
  let e := sub aa bb
  let c := add l.x3 l.z3
  let d := sub l.x3 l.z3
  let da := mul d a
  let cb := mul c b
  let s := add da cb
  let t := sub da cb
  ⟨mul aa bb, mul e (add aa (mul 121665 e)), mul s s, mul u (mul t t)⟩

/-- Walks the `n` lowest bits of the scalar `k`, the highest of them first. -/
def climb (u k : Nat) : Nat → Ladder → Ladder
  | 0, l => l
  | n + 1, l =>
    let b := k.testBit n
    climb u k n (((l.swapIf b).step u).swapIf b)

end Ladder

/-- The scalar that 32 secret bytes stand for: a multiple of eight with its highest bit in place
254. -/
def clamp (secret : Bytes) : Nat :=
  (secret.toNatLE &&& (Nat.pow 2 255 - 8)) ||| Nat.pow 2 254

/-- The first coordinate that 32 public bytes stand for; their highest bit is ignored. -/
def coordinate (point : Bytes) : Nat := point.toNatLE % Nat.pow 2 255 % prime

/-- The 32 bytes of the first coordinate of a point times a secret scalar. -/
def scalarMult (secret point : Bytes) : Bytes :=
  let u := coordinate point
  let l := Ladder.climb u (clamp secret) 255 ⟨1, 0, u, 1⟩
  Bytes.ofNatLE 32 (mul l.x2 (inverse l.z2))

/-- The point of first coordinate nine, from which public keys are made. -/
def basePoint : Bytes := 9 :: Bytes.zeros 31

@[simp] theorem length_scalarMult (secret point : Bytes) :
    (scalarMult secret point).length = 32 := by
  simp [scalarMult]

end NoiseChannel.Curve25519
