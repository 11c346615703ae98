import Paydesk.Chain.Address
import Paydesk.Node.Line
import Paydesk.Payjoin.Call

/-!
What a node and its wallets tell: outputs, coins with their keys, addresses, and
what becomes of a transaction.
-/

namespace Paydesk.Node

open Chain Wallet Payjoin Service Text

/-- Each receiving wallet is a wallet of the node under the same name. -/
structure Client where
  settings : NodeSettings
  network : Network
  masterKey : Option Keys.ExtendedKey
  /-- The contents of files. -/
  contents : String → Option String

/-- The satoshis in a number of coins with at most eight places. -/
def satoshis? (value : Json) : Option Nat := do
  let .number literal := value | none
  let cs := literal.toList
  let whole := cs.takeWhile (· != '.')
  let places := (cs.dropWhile (· != '.')).drop 1
  let digits := whole ++ places ++ List.replicate (8 - places.length) '0'
  let sum := digits.foldl (fun n c => n * 10 + digitValue c) 0
  if whole.isEmpty || 8 < places.length || !digits.all isAsciiDigit then none else some sum

def scriptOf? (value : Json) : Option Script := value.string?.bind Hex.decode?

/-- The output that is known at a place, unless it is spent or unknown. -/
def outputOf? : Json → Option (Option TxOut)
  | .null => some none
  | value => do
      let amount ← (value.get? "value").bind satoshis?
      let script ← ((value.get? "scriptPubKey").bind (·.get? "hex")).bind scriptOf?
      some (some ⟨amount, script⟩)

/-- A coin, and whether the wallet has the keys for it. -/
def unspentOf? (value : Json) : Option (OutPoint × TxOut × Bool) := do
  let txid ← ((value.get? "txid").bind Json.string?).bind readId?
  let vout ← (value.get? "vout").bind Json.nat?
  let amount ← (value.get? "amount").bind satoshis?
  let script ← (value.get? "scriptPubKey").bind scriptOf?
  let spendable ← (value.get? "spendable").bind Json.bool?
  some (⟨txid, vout⟩, ⟨amount, script⟩, spendable)

/-- How the node calls the addresses of a type. -/
def addressType : ScriptType → String
  | .segwit => "bech32"
  | .segwitP2sh => "p2sh-segwit"
  | .legacy => "legacy"

def hasType (type : ScriptType) (script : Script) : Bool :=
  match type with
  | .segwit => Script.isPayToWitnessKeyHash script
  | .segwitP2sh => Script.isPayToScriptHash script
  | .legacy => Script.isPayToKeyHash script

namespace Client

def call (c : Client) (wallet : Option String) (method : String) (params : List Json) :
    Talk Json := do
  let authorization ← (authorization c.settings c.contents : Except Fault (Option String))
  Talk.send ⟨pathOf (endpoint c.settings.host wallet), authorization, method, params⟩

def output (c : Client) (o : OutPoint) : Talk (Option TxOut) := do
  let value ← c.call none "gettxout" [.string (renderId o.txid), .ofNat o.vout, .bool true]
  Talk.expect (outputOf? value)

def previousOutputs (c : Client) (tx : Transaction) : Talk (List (Option TxOut)) :=
  tx.outPoints.mapM c.output

def isSpent (c : Client) (o : OutPoint) : Talk Bool := do return (← c.output o).isNone

/-- Asks whether a transaction would be taken. -/
def probe (c : Client) (tx : Transaction) : Talk BroadcastResult := do
  let value ← c.call none "testmempoolaccept" [.strings [Hex.encode tx.encode]]
  match ← Talk.expect value.array? with
  | [] => return ⟨false, some "no mempool acceptance result"⟩
  | result :: _ =>
      if ← Talk.expect ((result.get? "allowed").bind Json.bool?) then return ⟨true, none⟩
      else
        let reason := (result.get? "reject-reason").bind Json.string?
        return ⟨false, some (reason.getD "rejected")⟩

/-- Hands a transaction over. A refusal is an answer. -/
def relay (c : Client) (tx : Transaction) : Talk BroadcastResult :=
  tryCatchThe Fault
    (do
      let value ← c.call none "sendrawtransaction" [.string (Hex.encode tx.encode)]
      let _ ← Talk.expect (value.string?.bind readId?)
      return ⟨true, none⟩)
    fun fault => match fault with
      | .refused message => return ⟨false, some message⟩
      | .failed => throw .failed

def broadcast (c : Client) (tx : Transaction) (testOnly : Bool) : Talk BroadcastResult :=
  if testOnly then c.probe tx else c.relay tx

/-- The path to the key of an address, if the wallet knows it. -/
def keyPath? (c : Client) (wallet : String) (address : Address) : Talk (Option Keys.KeyPath) := do
  let value ← c.call (some wallet) "getaddressinfo" [.string address.render]
  match value.get? "hdkeypath" with
  | none | some .null => return none
  | some path => return some (← Talk.expect (path.string?.bind Keys.KeyPath.read?))

def coin? (c : Client) (account : Account) (value : Json) : Talk (Option Coin) := do
  let (outPoint, output, spendable) ← Talk.expect (unspentOf? value)
  if !spendable || !hasType account.scriptType output.script then return none
  let some address := Address.ofScript? c.network output.script | return none
  return (← c.keyPath? account.wallet address).map (⟨outPoint, output, ·⟩)

/-- The confirmed coins of a wallet that have the type of an account and a known
key. -/
def listUnspent (c : Client) (account : Account) : Talk (List Coin) := do
  let value ← c.call (some account.wallet) "listunspent"
    [.ofNat 1, .ofNat 9999999, .array [], .bool false]
  return (← (← Talk.expect value.array?).mapM (c.coin? account)).filterMap id

def changeScript (c : Client) (account : Account) : Talk Script := do
  let value ← c.call (some account.wallet) "getrawchangeaddress"
    [.string (addressType account.scriptType)]
  let address ← Talk.expect (value.string?.bind Address.read?)
  if address.isFor c.network then return address.script else throw .failed

def signingKey (c : Client) (_ : Account) : Talk (Option Keys.ExtendedKey) := return c.masterKey

end Client

end Paydesk.Node
