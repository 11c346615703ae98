import Paydesk.Decimal.Arithmetic

namespace Paydesk.Rates

/-- The two sides of a quote. -/
structure Spread where
  bid : Decimal
  ask : Decimal
deriving DecidableEq, Inhabited

namespace Spread

/-- A spread whose sides would be in the wrong order. -/
structure Inverted where
  bid : Decimal
  ask : Decimal
deriving DecidableEq

def Inverted.message (e : Inverted) : String :=
  s!"bid {e.bid.render} is greater than ask {e.ask.render}"

def make (bid ask : Decimal) : Except Inverted Spread :=
  if ask.lt bid then .error ⟨bid, ask⟩ else .ok ⟨bid, ask⟩

/-- A spread without width. -/
def point (value : Decimal) : Spread := ⟨value, value⟩

def isPoint (s : Spread) : Bool := s.bid.sameValue s.ask

/-- Equality of the sides as numbers. -/
def sameValue (s t : Spread) : Bool := s.bid.sameValue t.bid && s.ask.sameValue t.ask

def render (s : Spread) : String :=
  if s.isPoint then s.bid.render else s!"({s.bid.render}, {s.ask.render})"

instance : ToString Spread := ⟨render⟩

/-- Half of the sum of the sides, if the sum fits. -/
def center? (s : Spread) : Option Decimal := do
  (← s.bid.add? s.ask).div? .two

/-- The two numbers in their order: reciprocals that are rounded can come out
the wrong way round. -/
def ordered (a b : Decimal) : Spread := if a.le b then ⟨a, b⟩ else ⟨b, a⟩

/-- The spread of the reciprocals. -/
def inverse? (s : Spread) : Option Spread := do
  let bid ← Decimal.one.div? s.ask
  let ask ← Decimal.one.div? s.bid
  some (ordered bid ask)

def add? (s t : Spread) : Option Spread := do
  let bid ← s.bid.add? t.bid
  let ask ← s.ask.add? t.ask
  some ⟨bid, ask⟩

def sub? (s t : Spread) : Option Spread := do
  let bid ← s.bid.sub? t.ask
  let ask ← s.ask.sub? t.bid
  some ⟨bid, ask⟩

/-- The first of the smallest numbers. -/
def least (d : Decimal) (ds : List Decimal) : Decimal :=
  ds.foldl (fun best d => if d.lt best then d else best) d

/-- The last of the greatest numbers. -/
def greatest (d : Decimal) (ds : List Decimal) : Decimal :=
  ds.foldl (fun best d => if d.lt best then best else d) d

/-- All products of a side with a side lie between the least and the greatest. -/
def mul? (s t : Spread) : Option Spread := do
  let p ← s.bid.mul? t.bid
  let q ← s.bid.mul? t.ask
  let r ← s.ask.mul? t.bid
  let v ← s.ask.mul? t.ask
  some ⟨least p [q, r, v], greatest p [q, r, v]⟩

/-- Whether zero lies between the sides. -/
def touchesZero (s : Spread) : Bool := s.bid.le .zero && Decimal.zero.le s.ask

/-- The product with the reciprocal of the divisor. -/
def div? (s t : Spread) : Option Spread :=
  if t.touchesZero then none else t.inverse?.bind s.mul?

end Spread

end Paydesk.Rates
