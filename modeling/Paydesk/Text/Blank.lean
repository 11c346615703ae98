import Paydesk.Numbers

namespace Paydesk.Text

/-- The characters with the Unicode property `White_Space`. -/
def isBlank (c : Char) : Bool :=
  (0x09 ≤ c.toNat && c.toNat ≤ 0x0d) || c.toNat == 0x20 || c.toNat == 0x85 ||
    c.toNat == 0xa0 || c.toNat == 0x1680 || (0x2000 ≤ c.toNat && c.toNat ≤ 0x200a) ||
    c.toNat == 0x2028 || c.toNat == 0x2029 || c.toNat == 0x202f || c.toNat == 0x205f ||
    c.toNat == 0x3000

/-- Text without the blanks at its two ends. -/
def trim (cs : List Char) : List Char :=
  ((cs.dropWhile isBlank).reverse.dropWhile isBlank).reverse

/-- The number of bytes of the UTF-8 form. -/
def byteLength (cs : List Char) : Nat :=
  total (cs.map Char.utf8Size)

/-- The maximal runs of characters that are no separators. -/
def segments (isSeparator : Char → Bool) : List Char → List (List Char)
  | [] => []
  | c :: cs =>
      if isSeparator c then segments isSeparator cs
      else match cs with
        | [] => [[c]]
        | d :: _ =>
            if isSeparator d then [c] :: segments isSeparator cs
            else match segments isSeparator cs with
              | [] => [[c]]
              | run :: runs => (c :: run) :: runs

/-- Joins texts with a separator between neighbours. -/
def joinWith (separator : List Char) : List (List Char) → List Char
  | [] => []
  | [run] => run
  | run :: runs => run ++ separator ++ joinWith separator runs

def isAscii (c : Char) : Bool := c.toNat < 128

def isAsciiDigit (c : Char) : Bool := 0x30 ≤ c.toNat && c.toNat ≤ 0x39

def isAsciiLetter (c : Char) : Bool :=
  (0x41 ≤ c.toNat && c.toNat ≤ 0x5a) || (0x61 ≤ c.toNat && c.toNat ≤ 0x7a)

/-- The value of a decimal digit. -/
def digitValue (c : Char) : Nat := c.toNat - 0x30

/-- Upper case for the ASCII letters, everything else unchanged. -/
def upper (s : String) : String := String.ofList (s.toList.map Char.toUpper)

/-- Lower case for the ASCII letters, everything else unchanged. -/
def lower (s : String) : String := String.ofList (s.toList.map Char.toLower)

end Paydesk.Text
