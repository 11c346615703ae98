import Paydesk.Hash.Sha256

namespace Paydesk.Hash.Ripemd160

structure State where
  a : UInt32
  b : UInt32
  c : UInt32
  d : UInt32
  e : UInt32

def State.initial : State := ⟨0x67452301, 0xefcdab89, 0x98badcfe, 0x10325476, 0xc3d2e1f0⟩

def rotateLeft (x : UInt32) (n : UInt32) : UInt32 := (x <<< n) ||| (x >>> (32 - n))

/-- The mixing function of each of the five groups of rounds. -/
def mix (group : Nat) (x y z : UInt32) : UInt32 :=
  match group with
  | 0 => x ^^^ y ^^^ z
  | 1 => (x &&& y) ||| ((~~~ x) &&& z)
  | 2 => (x ||| (~~~ y)) ^^^ z
  | 3 => (x &&& z) ||| (y &&& (~~~ z))
  | _ => x ^^^ (y ||| (~~~ z))

def leftWords : Array Nat :=
  #[0, 1, 2, 3, 4, 5, 6, 7, 8, 9, 10, 11, 12, 13, 14, 15,
    7, 4, 13, 1, 10, 6, 15, 3, 12, 0, 9, 5, 2, 14, 11, 8,
    3, 10, 14, 4, 9, 15, 8, 1, 2, 7, 0, 6, 13, 11, 5, 12,
    1, 9, 11, 10, 0, 8, 12, 4, 13, 3, 7, 15, 14, 5, 6, 2,
    4, 0, 5, 9, 7, 12, 2, 10, 14, 1, 3, 8, 11, 6, 15, 13]

def rightWords : Array Nat :=
  #[5, 14, 7, 0, 9, 2, 11, 4, 13, 6, 15, 8, 1, 10, 3, 12,
    6, 11, 3, 7, 0, 13, 5, 10, 14, 15, 8, 12, 4, 9, 1, 2,
    15, 5, 1, 3, 7, 14, 6, 9, 11, 8, 12, 2, 10, 0, 4, 13,
    8, 6, 4, 1, 3, 11, 15, 0, 5, 12, 2, 13, 9, 7, 10, 14,
    12, 15, 10, 4, 1, 5, 8, 7, 6, 2, 13, 14, 0, 3, 9, 11]

def leftShifts : Array UInt32 :=
  #[11, 14, 15, 12, 5, 8, 7, 9, 11, 13, 14, 15, 6, 7, 9, 8,
    7, 6, 8, 13, 11, 9, 7, 15, 7, 12, 15, 9, 11, 7, 13, 12,
    11, 13, 6, 7, 14, 9, 13, 15, 14, 8, 13, 6, 5, 12, 7, 5,
    11, 12, 14, 15, 14, 15, 9, 8, 9, 14, 5, 6, 8, 6, 5, 12,
    9, 15, 5, 11, 6, 8, 13, 12, 5, 12, 13, 14, 11, 8, 5, 6]

def rightShifts : Array UInt32 :=
  #[8, 9, 9, 11, 13, 15, 15, 5, 7, 7, 8, 11, 14, 14, 12, 6,
    9, 13, 15, 7, 12, 8, 9, 11, 7, 7, 12, 7, 6, 15, 13, 11,
    9, 7, 15, 11, 8, 6, 6, 14, 12, 13, 5, 14, 13, 13, 7, 5,
    15, 5, 8, 11, 14, 14, 6, 14, 6, 9, 12, 9, 12, 5, 15, 8,
    8, 5, 12, 9, 12, 5, 14, 6, 8, 13, 6, 5, 15, 13, 11, 11]

def leftConstants : Array UInt32 := #[0, 0x5a827999, 0x6ed9eba1, 0x8f1bbcdc, 0xa953fd4e]

def rightConstants : Array UInt32 := #[0x50a28be6, 0x5c4dd124, 0x6d703ef3, 0x7a6d76e9, 0]

def step (s : State) (group : Nat) (word constant shift : UInt32) : State :=
  let t := rotateLeft (s.a + mix group s.b s.c s.d + word + constant) shift + s.e
  ⟨s.e, t, s.b, rotateLeft s.c 10, s.d⟩

def compress (s : State) (block : Array UInt32) : State :=
  let left := (List.range 80).foldl (fun t j =>
    step t (j / 16) (block.getD (leftWords.getD j 0) 0) (leftConstants.getD (j / 16) 0)
      (leftShifts.getD j 0)) s
  let right := (List.range 80).foldl (fun t j =>
    step t (4 - j / 16) (block.getD (rightWords.getD j 0) 0) (rightConstants.getD (j / 16) 0)
      (rightShifts.getD j 0)) s
  ⟨s.b + left.c + right.d, s.c + left.d + right.e, s.d + left.e + right.a, s.e + left.a + right.b,
    s.a + left.b + right.c⟩

/-- The little-endian words of a byte string. -/
def words : Bytes → List UInt32
  | a :: b :: c :: d :: bs =>
      (a.toUInt32 ||| (b.toUInt32 <<< 8) ||| (c.toUInt32 <<< 16) ||| (d.toUInt32 <<< 24)) :: words bs
  | _ => []

def pad (message : Bytes) : Bytes :=
  let n := message.length
  message ++ 0x80 :: List.replicate ((119 - n % 64) % 64) 0 ++ Bytes.littleEndian 8 (n * 8)

def compressAll (s : State) : Nat → List UInt32 → State
  | 0, _ => s
  | n + 1, ws => compressAll (compress s (ws.take 16).toArray) n (ws.drop 16)

def State.bytes (s : State) : Bytes :=
  [s.a, s.b, s.c, s.d, s.e].flatMap fun w => Bytes.littleEndian 4 w.toNat

end Paydesk.Hash.Ripemd160

namespace Paydesk.Hash

/-- The RIPEMD-160 digest. -/
def ripemd160 (message : Bytes) : Bytes :=
  let padded := Ripemd160.pad message
  (Ripemd160.compressAll .initial (padded.length / 64) (Ripemd160.words padded)).bytes

/-- The digest under which keys and scripts are paid to: RIPEMD-160 of SHA-256. -/
def hash160 (message : Bytes) : Bytes := ripemd160 (sha256 message)

end Paydesk.Hash
