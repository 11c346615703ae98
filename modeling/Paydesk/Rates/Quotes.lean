import Paydesk.Order.Table
import Paydesk.Rates.Pair
import Paydesk.Rates.Spread

namespace Paydesk.Rates

/-- A pair on an exchange, and its spread once that is known. -/
structure Quote where
  exchange : String
  pair : Pair
  spread : Option Spread
deriving DecidableEq, Inhabited

def Quote.render (q : Quote) : String :=
  match q.spread with
  | some spread => s!"{q.exchange}({q.pair.render}) == {spread.render}"
  | none => s!"{q.exchange}({q.pair.render})"

/-- Where a quote is kept: the exchange in lower case, and the pair. -/
structure QuoteKey where
  exchange : String
  pair : Pair
deriving DecidableEq, Inhabited

namespace QuoteKey

def of (exchange : String) (pair : Pair) : QuoteKey := ⟨Text.lower exchange, pair⟩

def compare (a b : QuoteKey) : Ordering :=
  (Ord.compare a.exchange b.exchange).then (Ord.compare a.pair b.pair)

instance : Ord QuoteKey := ⟨compare⟩

end QuoteKey

/-- Quotes in the order of their exchanges and pairs. A pair of a currency with
itself is never quoted. -/
structure Quotes where
  table : Table QuoteKey (Option Spread)
deriving DecidableEq, Inhabited

namespace Quotes

def empty : Quotes := ⟨[]⟩

def size (qs : Quotes) : Nat := qs.table.length

def isEmpty (qs : Quotes) : Bool := qs.table.isEmpty

def toList (qs : Quotes) : List Quote :=
  qs.table.map fun (key, spread) => ⟨key.exchange, key.pair, spread⟩

/-- Adds a quote, or replaces the spread of the one under its key. -/
def add (qs : Quotes) (q : Quote) : Quotes :=
  if q.pair.isIdentity then qs
  else ⟨qs.table.insert (.of q.exchange q.pair) q.spread⟩

def set (qs : Quotes) (exchange : String) (pair : Pair) (spread : Spread) : Quotes :=
  qs.add ⟨exchange, pair, some spread⟩

def get? (qs : Quotes) (exchange : String) (pair : Pair) : Option Spread :=
  (qs.table.find? (.of exchange pair)).join

def contains (qs : Quotes) (exchange : String) (pair : Pair) : Bool :=
  qs.table.contains (.of exchange pair)

def ofList (quotes : List Quote) : Quotes := quotes.foldl add empty

/-- Adds the quotes of another collection, except that an unknown spread never
takes the place of one that is there. -/
def extend (qs other : Quotes) : Quotes :=
  other.toList.foldl (fun qs q =>
    if q.spread.isNone && qs.contains q.exchange q.pair then qs else qs.add q) qs

/-- Takes over every spread that the source knows for a quote of this
collection. -/
def fetchFrom (qs : Quotes) (source : String → Pair → Option Spread) : Quotes :=
  qs.toList.foldl (fun qs q =>
    match source q.exchange q.pair with
    | some spread => qs.set q.exchange q.pair spread
    | none => qs) qs

end Quotes

end Paydesk.Rates
