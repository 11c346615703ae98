import Paydesk.Bytes.Basic

/-!
The group of points on the curve y² = x³ + 7 over the integers modulo a prime,
and the keys that are multiples of its base point.
-/

namespace Paydesk.Keys

/-- The number of elements of the field of coordinates. -/
def fieldSize : Nat := 0xfffffffffffffffffffffffffffffffffffffffffffffffffffffffefffffc2f

/-- The number of points, and so of distinct multiples of the base point. -/
def groupOrder : Nat := 0xfffffffffffffffffffffffffffffffebaaedce6af48a03bbfd25e8cd0364141

/-- The binary digits of a number below `2 ^ width`, the highest one first. -/
def binaryDigits (width n : Nat) : List Bool :=
  ((List.range width).map n.testBit).reverse

/-- A power modulo `m`, by squaring. -/
def powMod (base exponent m : Nat) : Nat :=
  (binaryDigits 256 exponent).foldl
    (fun r digit => let square := r * r % m; if digit then square * base % m else square) (1 % m)

/-- The inverse of a number modulo a prime. -/
def inverseMod (n m : Nat) : Nat := powMod n (m - 2) m

namespace Coordinate

def add (a b : Nat) : Nat := (a + b) % fieldSize

def sub (a b : Nat) : Nat := (a + (fieldSize - b % fieldSize)) % fieldSize

def mul (a b : Nat) : Nat := a * b % fieldSize

end Coordinate

/-- A point of the curve, as the fractions `x / z²` and `y / z³`; the neutral
point has `z = 0`. -/
structure Point where
  x : Nat
  y : Nat
  z : Nat

namespace Point

open Coordinate

def neutral : Point := ⟨1, 1, 0⟩

def base : Point :=
  ⟨0x79be667ef9dcbbac55a06295ce870b07029bfcdb2dce28d959f2815b16f81798,
    0x483ada7726a3c4655da4fbfc0e1108a8fd17b448a68554199c47d08ffb10d4b8, 1⟩

def double (p : Point) : Point :=
  if p.z == 0 || p.y == 0 then neutral
  else
    let ySquare := mul p.y p.y
    let s := mul 4 (mul p.x ySquare)
    let m := mul 3 (mul p.x p.x)
    let x := sub (mul m m) (mul 2 s)
    ⟨x, sub (mul m (sub s x)) (mul 8 (mul ySquare ySquare)), mul 2 (mul p.y p.z)⟩

def add (p q : Point) : Point :=
  if p.z == 0 then q
  else if q.z == 0 then p
  else
    let pz2 := mul p.z p.z
    let qz2 := mul q.z q.z
    let u := mul p.x qz2
    let s := mul p.y (mul qz2 q.z)
    let h := sub (mul q.x pz2) u
    let r := sub (mul q.y (mul pz2 p.z)) s
    if h == 0 then if r == 0 then p.double else neutral
    else
      let h2 := mul h h
      let h3 := mul h2 h
      let v := mul u h2
      let x := sub (sub (mul r r) h3) (mul 2 v)
      ⟨x, sub (mul r (sub v x)) (mul s h3), mul h (mul p.z q.z)⟩

/-- The sum of `n` copies of a point, for `n` below `2 ^ 256`. -/
def multiply (p : Point) (n : Nat) : Point :=
  (binaryDigits 256 n).foldl (fun r digit => if digit then r.double.add p else r.double) neutral

/-- The two coordinates of a point other than the neutral one. -/
def coordinates (p : Point) : Nat × Nat :=
  let inverse := inverseMod p.z fieldSize
  let square := Coordinate.mul inverse inverse
  (Coordinate.mul p.x square, Coordinate.mul p.y (Coordinate.mul square inverse))

/-- The 33 bytes that stand for a point: its `x`, and which of the two `y`. -/
def compressed (p : Point) : Bytes :=
  let (x, y) := p.coordinates
  (if y % 2 = 0 then 0x02 else 0x03) :: Bytes.bigEndian 32 x

end Point

/-- Whether a point of the curve has this `x`, which is when `x³ + 7` is a
square. -/
def isAbscissa (x : Nat) : Bool :=
  let square := (x * x * x + 7) % fieldSize
  let root := powMod square ((fieldSize + 1) / 4) fieldSize
  x < fieldSize && root * root % fieldSize == square

/-- Whether bytes stand for a point: the short form, or both coordinates after
`0x04` or, with the parity of `y`, after `0x06` or `0x07`. -/
def isPublicKey (bs : Bytes) : Bool :=
  match bs with
  | tag :: rest =>
      let x := Bytes.toNat (rest.take 32)
      if rest.length = 32 then (tag == 0x02 || tag == 0x03) && isAbscissa x
      else if rest.length = 64 then
        let y := Bytes.toNat (rest.drop 32)
        (tag == 0x04 || (tag == 0x06 && y % 2 == 0) || (tag == 0x07 && y % 2 == 1)) &&
          x < fieldSize && y < fieldSize && y * y % fieldSize == (x * x * x + 7) % fieldSize
      else false
  | [] => false

/-- A number of times the base point is taken. -/
structure SecretKey where
  scalar : Nat
  pos : 0 < scalar
  lt : scalar < groupOrder
deriving DecidableEq

namespace SecretKey

def ofNat? (n : Nat) : Option SecretKey :=
  if h : 0 < n ∧ n < groupOrder then some ⟨n, h.1, h.2⟩ else none

def ofBytes? (bs : Bytes) : Option SecretKey :=
  if bs.length = 32 then ofNat? bs.toNat else none

def bytes (key : SecretKey) : Bytes := Bytes.bigEndian 32 key.scalar

def publicKey (key : SecretKey) : Bytes := (Point.base.multiply key.scalar).compressed

end SecretKey

end Paydesk.Keys
