import Paydesk.Bytes.Hex
import Paydesk.Text.Utf8

namespace Paydesk.Text.Form

/-- Decodes `%` with two hexadecimal digits; any other `%` stands for itself. -/
def percentDecode : Bytes → Bytes
  | 0x25 :: a :: b :: bs =>
      match Hex.value? (Char.ofNat a.toNat), Hex.value? (Char.ofNat b.toNat) with
      | some x, some y => UInt8.ofNat (x * 16 + y) :: percentDecode bs
      | _, _ => 0x25 :: percentDecode (a :: b :: bs)
  | b :: bs => b :: percentDecode bs
  | [] => []

/-- A name or a value, in which a plus sign stands for a blank. -/
def decodePart (part : List Char) : String :=
  Utf8.decodeLossy (percentDecode ((Utf8.encode (String.ofList part)).map fun b =>
    if b = 0x2b then 0x20 else b))

/-- The pairs of a query: between ampersands, a name up to the first equals sign
and the value after it. -/
def parse (query : String) : List (String × String) :=
  (segments (· == '&') query.toList).map fun pair =>
    (decodePart (pair.takeWhile (· != '=')), decodePart ((pair.dropWhile (· != '=')).drop 1))

end Paydesk.Text.Form
