import Paydesk.Bytes.Basic
import Paydesk.Text.Blank

namespace Paydesk.Hex

def digit (n : Nat) : Char :=
  if n < 10 then Char.ofNat (0x30 + n) else Char.ofNat (0x57 + n)

/-- Two digits for each byte, in lower case. -/
def encodeChars : Bytes → List Char
  | [] => []
  | b :: bs => digit (b.toNat / 16) :: digit (b.toNat % 16) :: encodeChars bs

def encode (bs : Bytes) : String := String.ofList (encodeChars bs)

/-- The value of a digit in either case. -/
def value? (c : Char) : Option Nat :=
  if Text.isAsciiDigit c then some (Text.digitValue c)
  else if 'a' ≤ c && c ≤ 'f' then some (c.toNat - 0x57)
  else if 'A' ≤ c && c ≤ 'F' then some (c.toNat - 0x37)
  else none

def decodeLoop (acc : Bytes) : List Char → Option Bytes
  | [] => some acc.reverse
  | [_] => none
  | a :: b :: cs =>
      match value? a, value? b with
      | some a, some b => decodeLoop (UInt8.ofNat (a * 16 + b) :: acc) cs
      | _, _ => none

/-- Reads pairs of digits. -/
def decodeChars? (cs : List Char) : Option Bytes := decodeLoop [] cs

def decode? (s : String) : Option Bytes := decodeChars? s.toList

end Paydesk.Hex
