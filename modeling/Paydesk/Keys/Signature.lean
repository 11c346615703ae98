import Paydesk.Hash.Hmac
import Paydesk.Keys.Curve
import Paydesk.Numbers

/-!
Signatures whose nonce is drawn from the key and the message, so that the same
message always gets the same signature.
-/

namespace Paydesk.Keys

structure Signature where
  r : Nat
  s : Nat
deriving DecidableEq, Repr

namespace Signature

/-- The generator of nonces: a key and the last value drawn. -/
structure NonceSource where
  key : Bytes
  value : Bytes

namespace NonceSource

def update (g : NonceSource) (more : Bytes) : NonceSource :=
  let key := Hash.hmacSha256 g.key (g.value ++ more)
  ⟨key, Hash.hmacSha256 key g.value⟩

def ofSeed (seed : Bytes) : NonceSource :=
  let start : NonceSource := ⟨List.replicate 32 0, List.replicate 32 1⟩
  (start.update (0 :: seed)).update (1 :: seed)

/-- The next value drawn, and the source after it. -/
def draw (g : NonceSource) : Bytes × NonceSource :=
  let value := Hash.hmacSha256 g.key g.value
  (value, (⟨g.key, value⟩ : NonceSource).update [0])

end NonceSource

/-- The signature with a given nonce, with the lower one of the two values of
`s`. -/
def withNonce? (key : SecretKey) (digest nonce : Nat) : Option Signature :=
  if nonce = 0 ∨ groupOrder ≤ nonce then none
  else
    let r := (Point.base.multiply nonce).coordinates.1 % groupOrder
    let s := inverseMod nonce groupOrder * ((digest + r * key.scalar) % groupOrder) % groupOrder
    if r = 0 ∨ s = 0 then none
    else some ⟨r, if groupOrder / 2 < s then groupOrder - s else s⟩

/-- The signature with the first nonce drawn that gives one. Each draw fails
with a chance of about one in `2 ^ 127`. -/
def firstOf (key : SecretKey) (digest : Nat) : Nat → NonceSource → Signature
  | 0, _ => ⟨0, 0⟩
  | attempts + 1, source =>
      let (value, source) := source.draw
      match withNonce? key digest value.toNat with
      | some signature => signature
      | none => firstOf key digest attempts source

/-- Signs a digest of 32 bytes. Extra bytes select another nonce. -/
def sign (key : SecretKey) (digest extra : Bytes) : Signature :=
  let n := digest.toNat % groupOrder
  firstOf key n 8 (.ofSeed (key.bytes ++ Bytes.bigEndian 32 n ++ extra))

/-- Whether `r` takes no more than 32 bytes when it is written with a sign. -/
def isLow (signature : Signature) : Bool := signature.r < twoTo 255

/-- Tries one nonce after another until `r` is low. Every other one is. -/
def lowFrom (key : SecretKey) (digest : Bytes) : Nat → Nat → Signature
  | 0, counter => sign key digest (Bytes.littleEndian 32 counter)
  | attempts + 1, counter =>
      let signature := sign key digest (if counter = 0 then [] else Bytes.littleEndian 32 counter)
      if signature.isLow then signature else lowFrom key digest attempts (counter + 1)

def signLow (key : SecretKey) (digest : Bytes) : Signature := lowFrom key digest 256 0

/-- A positive integer with its length, without needless leading zeros but with
one where the highest bit would be taken for a sign. -/
def signedInteger (n : Nat) : Bytes :=
  let digits := (Bytes.bigEndian 33 n).dropWhile (· == 0)
  let digits := match digits with
    | [] => [0]
    | b :: _ => if b < 0x80 then digits else 0 :: digits
  UInt8.ofNat digits.length :: digits

/-- The two integers, each behind its tag, as one sequence. -/
def encode (signature : Signature) : Bytes :=
  let body := 0x02 :: signedInteger signature.r ++ 0x02 :: signedInteger signature.s
  0x30 :: UInt8.ofNat body.length :: body

end Signature

end Paydesk.Keys
