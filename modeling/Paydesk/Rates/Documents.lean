import Paydesk.Decimal.Read
import Paydesk.Rates.Quotes
import Paydesk.Text.Json

namespace Paydesk.Rates

open Text

/-- A pair is written as the text of its two codes. -/
def Pair.toJson (p : Pair) : Json := .string p.render

def Pair.ofJson? (value : Json) : Option Pair := value.string?.bind Pair.parse?

def Spread.toJson (s : Spread) : Json :=
  .object [("bid", .string s.bid.render), ("ask", .string s.ask.render)]

def Quote.toJson (q : Quote) : Json :=
  .object [("exchange", .string q.exchange), ("pair", q.pair.toJson),
    ("bid_ask", .ofOption Spread.toJson q.spread)]

/-- A plain decimal, or one with an exponent. -/
def decimalOfText? (text : String) : Option Decimal :=
  match Decimal.read text.toList with
  | .ok d => some d
  | .error _ => Decimal.readScientific? text.toList

def decimalOfJson? (value : Json) : Option Decimal := value.string?.bind decimalOfText?

/-- A spread is an object with two sides, each once, or the list of them. -/
def Spread.ofJson? : Json → Option Spread
  | .object fields =>
      match fields.filter (·.1 == "bid"), fields.filter (·.1 == "ask") with
      | [(_, bid)], [(_, ask)] => sides? bid ask
      | _, _ => none
  | .array [bid, ask] => sides? bid ask
  | _ => none
where
  sides? (bid ask : Json) : Option Spread := do
    (make (← decimalOfJson? bid) (← decimalOfJson? ask)).toOption

end Paydesk.Rates
