namespace Paydesk.Chain

/-- The chains. All but the first one are for tests. -/
inductive Network
  | bitcoin
  | testnet
  | testnet4
  | signet
  | regtest
deriving DecidableEq, Repr

namespace Network

def all : List Network := [.bitcoin, .testnet, .testnet4, .signet, .regtest]

def name : Network → String
  | .bitcoin => "bitcoin"
  | .testnet => "testnet"
  | .testnet4 => "testnet4"
  | .signet => "signet"
  | .regtest => "regtest"

def read? (name : String) : Option Network := all.find? (·.name == name)

def isMain (network : Network) : Bool := network = .bitcoin

end Network

end Paydesk.Chain
