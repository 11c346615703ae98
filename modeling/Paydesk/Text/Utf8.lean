import Paydesk.Bytes.Basic

namespace Paydesk.Text.Utf8

/-- The UTF-8 form of a character. -/
def encodeChar (c : Char) : Bytes :=
  let n := c.toNat
  if n < 0x80 then [UInt8.ofNat n]
  else if n < 0x800 then [UInt8.ofNat (0xc0 + n / 64), UInt8.ofNat (0x80 + n % 64)]
  else if n < 0x10000 then
    [UInt8.ofNat (0xe0 + n / 4096), UInt8.ofNat (0x80 + n / 64 % 64), UInt8.ofNat (0x80 + n % 64)]
  else
    [UInt8.ofNat (0xf0 + n / 262144), UInt8.ofNat (0x80 + n / 4096 % 64),
      UInt8.ofNat (0x80 + n / 64 % 64), UInt8.ofNat (0x80 + n % 64)]

def encode (s : String) : Bytes := s.toList.flatMap encodeChar

/-- How many bytes follow a first byte, and the range of the first of them. -/
def following? (b : Nat) : Option (Nat × Nat × Nat) :=
  if b < 0x80 then some (0, 0x80, 0xbf)
  else if 0xc2 ≤ b && b ≤ 0xdf then some (1, 0x80, 0xbf)
  else if b == 0xe0 then some (2, 0xa0, 0xbf)
  else if b == 0xed then some (2, 0x80, 0x9f)
  else if 0xe1 ≤ b && b ≤ 0xef then some (2, 0x80, 0xbf)
  else if b == 0xf0 then some (3, 0x90, 0xbf)
  else if 0xf1 ≤ b && b ≤ 0xf3 then some (3, 0x80, 0xbf)
  else if b == 0xf4 then some (3, 0x80, 0x8f)
  else none

/-- How a character read from bytes came out: whole, cut off by the end, or
broken after a number of good bytes. -/
inductive Piece
  | char (code size : Nat)
  | cut
  | broken (size : Nat)
deriving DecidableEq

/-- Reads the bytes after the first one of a character. -/
def continuation (code size : Nat) : Nat → Nat → Nat → Bytes → Piece
  | 0, _, _, _ => .char code size
  | _ + 1, _, _, [] => .cut
  | k + 1, low, high, b :: bs =>
      if low ≤ b.toNat && b.toNat ≤ high then
        continuation (code * 64 + b.toNat % 64) (size + 1) k 0x80 0xbf bs
      else .broken size

def firstBits (b k : Nat) : Nat :=
  match k with
  | 0 => b
  | 1 => b % 32
  | 2 => b % 16
  | _ => b % 8

/-- The character at the front of bytes that begin with `b`. -/
def piece (b : UInt8) (bs : Bytes) : Piece :=
  match following? b.toNat with
  | none => .broken 1
  | some (k, low, high) => continuation (firstBits b.toNat k) 1 k low high bs

/-- Where bytes stop being UTF-8: a sequence of a given length that is invalid,
or one that the end cuts off. -/
structure DecodeError where
  index : Nat
  invalid : Option Nat
deriving DecidableEq, Repr

def DecodeError.message (e : DecodeError) : String :=
  match e.invalid with
  | some length => s!"invalid utf-8 sequence of {length} bytes from index {e.index}"
  | none => s!"incomplete utf-8 byte sequence from index {e.index}"

/-- Bytes left over from the last character are skipped one at a time. -/
def decodeFrom (index skip : Nat) (done : List Char) : Bytes → Except DecodeError (List Char)
  | [] => .ok done.reverse
  | b :: bs =>
      match skip with
      | skip + 1 => decodeFrom (index + 1) skip done bs
      | 0 =>
          match piece b bs with
          | .char code size => decodeFrom (index + 1) (size - 1) (Char.ofNat code :: done) bs
          | .cut => .error ⟨index, none⟩
          | .broken size => .error ⟨index, some size⟩

def decode (bs : Bytes) : Except DecodeError (List Char) := decodeFrom 0 0 [] bs

/-- Decodes with U+FFFD in the place of every sequence that is no character. -/
def decodeLossyFrom (skip : Nat) : Bytes → List Char
  | [] => []
  | b :: bs =>
      match skip with
      | skip + 1 => decodeLossyFrom skip bs
      | 0 =>
          match piece b bs with
          | .char code size => Char.ofNat code :: decodeLossyFrom (size - 1) bs
          | .cut => '\ufffd' :: decodeLossyFrom bs.length bs
          | .broken size => '\ufffd' :: decodeLossyFrom (size - 1) bs

def decodeLossy (bs : Bytes) : String := String.ofList (decodeLossyFrom 0 bs)

end Paydesk.Text.Utf8
