import Paydesk.Bytes.Basic

namespace Paydesk.Base64

/-- The digits for the values below 64. -/
def alphabet : List Char :=
  "ABCDEFGHIJKLMNOPQRSTUVWXYZabcdefghijklmnopqrstuvwxyz0123456789+/".toList

def digit (n : Nat) : Char := alphabet.getD n '='

def value? (c : Char) : Option Nat :=
  if 'A' ≤ c && c ≤ 'Z' then some (c.toNat - 0x41)
  else if 'a' ≤ c && c ≤ 'z' then some (c.toNat - 0x61 + 26)
  else if '0' ≤ c && c ≤ '9' then some (c.toNat - 0x30 + 52)
  else if c == '+' then some 62
  else if c == '/' then some 63
  else none

/-- Four digits for each three bytes; the last group is filled up with `=`. -/
def encodeChars : Bytes → List Char
  | [] => []
  | [a] =>
      let n := a.toNat * 16
      [digit (n / 64), digit (n % 64), '=', '=']
  | [a, b] =>
      let n := (a.toNat * 256 + b.toNat) * 4
      [digit (n / 4096), digit (n / 64 % 64), digit (n % 64), '=']
  | a :: b :: c :: bs =>
      let n := (a.toNat * 256 + b.toNat) * 256 + c.toNat
      digit (n / 262144) :: digit (n / 4096 % 64) :: digit (n / 64 % 64) :: digit (n % 64) ::
        encodeChars bs

def encode (bs : Bytes) : String := String.ofList (encodeChars bs)

/-- Reads groups of four digits. Only the last group may be filled up, and the
bits that it does not use have to be zero. -/
def decodeLoop (acc : Bytes) : List Char → Option Bytes
  | [] => some acc.reverse
  | [a, b, '=', '='] =>
      match value? a, value? b with
      | some a, some b =>
          if b % 16 = 0 then some (UInt8.ofNat (a * 4 + b / 16) :: acc).reverse else none
      | _, _ => none
  | [a, b, c, '='] =>
      match value? a, value? b, value? c with
      | some a, some b, some c =>
          if c % 4 = 0 then
            some (UInt8.ofNat (b % 16 * 16 + c / 4) :: UInt8.ofNat (a * 4 + b / 16) :: acc).reverse
          else none
      | _, _, _ => none
  | a :: b :: c :: d :: cs =>
      match value? a, value? b, value? c, value? d with
      | some a, some b, some c, some d =>
          decodeLoop (UInt8.ofNat (c % 4 * 64 + d) :: UInt8.ofNat (b % 16 * 16 + c / 4) ::
            UInt8.ofNat (a * 4 + b / 16) :: acc) cs
      | _, _, _, _ => none
  | _ => none

def decodeChars? (cs : List Char) : Option Bytes := decodeLoop [] cs

def decode? (s : String) : Option Bytes := decodeChars? s.toList

end Paydesk.Base64
