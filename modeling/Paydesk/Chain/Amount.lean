namespace Paydesk.Chain.Amount

/-- The satoshis in a coin. -/
def coin : Nat := 100000000

/-- All that there will ever be. -/
def maxMoney : Nat := 21000000 * coin

/-- An amount in coins, with eight places if it is not whole. -/
def render (satoshis : Nat) : String :=
  let rest := satoshis % coin
  let places := if rest = 0 then ""
    else "." ++ String.ofList ((Nat.toDigits 10 (coin + rest)).drop 1)
  s!"{satoshis / coin}{places} BTC"

end Paydesk.Chain.Amount
