import Paydesk.Bytes.Basic
import Paydesk.Hash.Sha256

namespace Paydesk.Base58

/-- The digits for the values below 58. -/
def alphabet : List Char :=
  "123456789ABCDEFGHJKLMNPQRSTUVWXYZabcdefghijkmnopqrstuvwxyz".toList

def digit (n : Nat) : Char := alphabet.getD n '1'

def value? (c : Char) : Option Nat :=
  let i := alphabet.idxOf c
  if i < 58 then some i else none

/-- The digits of a number, the highest one first; none for zero. -/
def digits (n : Nat) : List Char :=
  if h : n = 0 then []
  else
    have : n / 58 < n := Nat.div_lt_self (Nat.pos_of_ne_zero h) (by decide)
    digits (n / 58) ++ [digit (n % 58)]

/-- The base-256 digits of a number, the lowest one first. -/
def bytesOf (n : Nat) : Bytes :=
  if h : n = 0 then []
  else
    have : n / 256 < n := Nat.div_lt_self (Nat.pos_of_ne_zero h) (by decide)
    UInt8.ofNat (n % 256) :: bytesOf (n / 256)

/-- One `1` for each leading zero byte, then the digits of the number that the
bytes write. -/
def encode (bs : Bytes) : String :=
  String.ofList ((bs.takeWhile (· == 0)).map (fun _ => '1') ++ digits bs.toNat)

def decode? (s : String) : Option Bytes := do
  let cs := s.toList
  let values ← cs.mapM value?
  let n := values.foldl (fun n v => n * 58 + v) 0
  some ((cs.takeWhile (· == '1')).map (fun _ => 0) ++ (bytesOf n).reverse)

def checksum (bs : Bytes) : Bytes := (Hash.doubleSha256 bs).take 4

def encodeChecked (bs : Bytes) : String := encode (bs ++ checksum bs)

/-- The bytes in front of a checksum that fits them. -/
def decodeChecked? (s : String) : Option Bytes := do
  let bs ← decode? s
  if bs.length < 4 then none
  else
    let body := bs.take (bs.length - 4)
    if checksum body = bs.drop (bs.length - 4) then some body else none

end Paydesk.Base58
