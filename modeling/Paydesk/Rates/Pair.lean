import Paydesk.Text.Blank

namespace Paydesk.Rates

/-- The currency codes recognised when a pair is written without a separator
and its left side is not three letters long. -/
def knownCurrencies : List String :=
  ["AED", "ARS", "AUD", "BGN", "BRL", "CAD", "CHF", "CLP", "CNY", "COP", "CZK", "DKK", "EUR",
    "GBP", "HKD", "HUF", "IDR", "ILS", "INR", "ISK", "JPY", "KES", "KRW", "MXN", "MYR", "NGN",
    "NOK", "NZD", "PEN", "PHP", "PKR", "PLN", "RON", "RUB", "SAR", "SEK", "SGD", "THB", "TRY",
    "TWD", "UAH", "USD", "VND", "ZAR",
    "BTC", "SATS", "LTC", "ETH", "DOGE", "DASH", "BCH", "XMR", "ZEC", "USDT", "USDC", "LBTC",
    "MONA", "GRS", "VTC", "DAI"]

def isKnownCurrency (code : String) : Bool :=
  knownCurrencies.contains (Text.upper code)

/-- An ordered pair of currency codes in upper case. -/
structure Pair where
  left : String
  right : String
deriving DecidableEq, Repr, Inhabited

namespace Pair

/-- The pair of two codes, whatever their case. -/
def of (left right : String) : Pair := ⟨Text.upper left, Text.upper right⟩

def inverse (p : Pair) : Pair := ⟨p.right, p.left⟩

/-- The code that stands for any currency in a rule. -/
def wildcard : String := "X"

def hasWildcard (p : Pair) : Bool := p.left == wildcard || p.right == wildcard

def isIdentity (p : Pair) : Bool := p.left == p.right

def render (p : Pair) : String := p.left ++ "_" ++ p.right

instance : ToString Pair := ⟨render⟩

/-- Pairs are ordered by the left code, then by the right one. -/
def compare (p q : Pair) : Ordering :=
  (Ord.compare p.left q.left).then (Ord.compare p.right q.right)

instance : Ord Pair := ⟨compare⟩

inductive ParseError
  | tooLong (length : Nat)
  | invalidFormat (text : String)
deriving DecidableEq, Repr

/-- The longest text that is read as a pair, in bytes. -/
def maxLength : Nat := 12

def ParseError.message : ParseError → String
  | .tooLong length =>
      s!"currency pair is {length} characters long, at most {maxLength} allowed"
  | .invalidFormat text => s!"invalid currency pair '{text}'"

def isSeparator (c : Char) : Bool := c == '_' || c == '-'

/-- Splits a pair written without a separator: in the middle of six letters,
else behind a known currency of three or four letters. -/
def splitCode? (code : List Char) : Option Pair :=
  if !code.all Text.isAscii || code.length < 6 || 10 < code.length then none
  else if code.length == 6 then
    some (of (String.ofList (code.take 3)) (String.ofList (code.drop 3)))
  else
    ([3, 4].find? fun k => isKnownCurrency (String.ofList (code.take k))).map fun k =>
      of (String.ofList (code.take k)) (String.ofList (code.drop k))

/-- Reads a pair. Two codes stand between separators, of which any number may
follow another; further codes belong to the right side. -/
def parse (text : String) : Except ParseError Pair :=
  let cs := Text.trim text.toList
  if maxLength < Text.byteLength cs then .error (.tooLong (Text.byteLength cs))
  else
    match Text.segments isSeparator cs with
    | [] => .error (.invalidFormat (String.ofList cs))
    | [code] =>
        match splitCode? code with
        | some pair => .ok pair
        | none => .error (.invalidFormat (String.ofList cs))
    | left :: right => .ok (of (String.ofList left) (String.ofList (Text.joinWith ['_'] right)))

def parse? (text : String) : Option Pair := (parse text).toOption

end Pair

end Paydesk.Rates
