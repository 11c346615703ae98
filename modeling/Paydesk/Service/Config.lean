import Paydesk.Chain.Network
import Paydesk.Keys.Extended
import Paydesk.Numbers
import Paydesk.Payjoin.Submission
import Paydesk.Payjoin.Sweep
import Paydesk.Service.Layers
import Paydesk.Service.Options
import Paydesk.Text.Toml.Document

namespace Paydesk.Service

open Chain Text

/-- How to reach the node. -/
structure NodeSettings where
  host : String
  cookiePath : Option String
  user : Option String
  password : Option String
deriving DecidableEq, Repr

/-- Times are in seconds, and the fee rate is for a thousand units of weight. -/
structure Config where
  listenAddress : String
  timeout : Nat
  databasePath : String
  node : NodeSettings
  network : Network
  code : String
  broadcastDelay : Nat
  staleTimeout : Nat
  sweepInterval : Nat
  relayRate : Nat
  masterKey : Option Keys.ExtendedKey

inductive ConfigError
  | unreadable
  | wrongType
  | unknownNetwork (name : String)
  | badKey (error : Keys.ExtendedKey.ReadError)
  | foreignKey (network : Network)
  | feeRateTooHigh
  | notNodeSettings (found : String)
  | tooFewNodeSettings (count : Nat)
deriving DecidableEq, Repr

namespace ConfigError

/-- What is said about an error, if it is more than its kind. -/
def message? : ConfigError → Option String
  | .unreadable | .wrongType => none
  | .unknownNetwork name => some s!"invalid network {name}: failed to parse {name} as network"
  | .badKey e => some ("invalid master key: " ++ e.message)
  | .foreignKey network => some ("the master key is not for " ++ network.name)
  | .feeRateTooHigh => some "min_relay_fee_rate overflows"
  | .notNodeSettings found =>
      some ("invalid type: " ++ found ++ ", expected struct BitcoindConfig")
  | .tooFewNodeSettings count =>
      some s!"invalid length {count}, expected struct BitcoindConfig with 4 elements"

end ConfigError

namespace Config

def defaultListenNumber : Nat := 8080

def listenAddressOf (number : Nat) : String := s!"[::]:{number}"

def defaults : Layer := [
  ("listen_addr", .string (listenAddressOf defaultListenNumber)),
  ("timeout", .integer 30),
  ("db_path", .string "payjoin.sqlite"),
  ("bitcoind", .table [("rpc_host", .string "http://localhost:8332")]),
  ("network", .string "bitcoin"),
  ("crypto_code", .string "BTC"),
  ("broadcast_delay", .integer (Payjoin.Settings.defaultDelay / 1000 : Nat)),
  ("stale_timeout", .integer (Payjoin.Sweep.defaultTimeout / 1000 : Nat)),
  ("rebroadcast_interval", .integer (Payjoin.Sweep.defaultInterval / 1000 : Nat)),
  ("min_relay_fee_rate", .integer 1)]

/-- Puts the options on top of all other settings. -/
def addOptions (settings : Layer) (o : Options) : Layer :=
  let text (value : Option String) : Option Toml := value.map .string
  [(["listen_addr"], text (o.listenOn.map listenAddressOf)),
    (["timeout"], o.timeout.map fun n => .integer (n : Int)),
    (["db_path"], text o.databasePath),
    (["bitcoind", "rpc_host"], text o.nodeHost),
    (["bitcoind", "cookie"], text o.cookiePath),
    (["bitcoind", "rpc_user"], text o.nodeUser),
    (["bitcoind", "rpc_password"], text o.nodePassword),
    (["network"], text o.network),
    (["crypto_code"], text o.code),
    (["master_key"], text o.masterKey)].foldl
      (fun settings (path, value) => settings.addOption path value) settings

/-- A value that has to be there. -/
def get (settings : Layer) (key : String) : Toml := (Toml.lookup? key settings).getD (.table [])

def textOf (value : Toml) : Except ConfigError String :=
  match textOf? value with
  | some s => .ok s
  | none => .error .wrongType

def countOf (value : Toml) : Except ConfigError Nat :=
  match countOf? value with
  | some n => .ok n
  | none => .error .wrongType

/-- The settings of the node: a table, or the list of its four values. -/
def nodeOf (value : Toml) : Except ConfigError NodeSettings := do
  match value with
  | .table entries =>
      let optional (key : String) := (Toml.lookup? key entries).mapM textOf
      return ⟨← textOf (get entries "rpc_host"), ← optional "cookie", ← optional "rpc_user",
        ← optional "rpc_password"⟩
  | .array items =>
      let texts ← (items.take 4).mapM textOf
      match texts with
      | [host, cookie, user, password] => return ⟨host, some cookie, some user, some password⟩
      | _ => .error (.tooFewNodeSettings texts.length)
  | other => .error (.notNodeSettings (describe other))

def networkOf (settings : Layer) : Except ConfigError Network := do
  let name ← textOf (get settings "network")
  match Network.read? name with
  | some network => .ok network
  | none => .error (.unknownNetwork name)

def masterKeyOf (settings : Layer) : Except ConfigError (Option Keys.ExtendedKey) := do
  let some value := Toml.lookup? "master_key" settings | return none
  match Keys.ExtendedKey.read (← textOf value) with
  | .ok key => return some key
  | .error e => .error (.badKey e)

/-- The fee rate, given in satoshis for a virtual byte. -/
def relayRateOf (settings : Layer) : Except ConfigError Nat := do
  let rate ← countOf (get settings "min_relay_fee_rate")
  if rate * 250 < limit64 then return rate * 250 else .error .feeRateTooHigh

/-- Reads settings. The network and what goes with it is looked at first. -/
def ofSettings (settings : Layer) : Except ConfigError Config := do
  let network ← networkOf settings
  let masterKey ← masterKeyOf settings
  if let some key := masterKey then
    if key.mainNetwork ≠ network.isMain then .error (.foreignKey network)
  let relayRate ← relayRateOf settings
  return {
    listenAddress := ← textOf (get settings "listen_addr")
    timeout := ← countOf (get settings "timeout")
    databasePath := ← textOf (get settings "db_path")
    node := ← nodeOf (get settings "bitcoind")
    network
    code := Case.upper (← textOf (get settings "crypto_code"))
    broadcastDelay := ← countOf (get settings "broadcast_delay")
    staleTimeout := ← countOf (get settings "stale_timeout")
    sweepInterval := ← countOf (get settings "rebroadcast_interval")
    relayRate
    masterKey }

/-- The configuration from the options and the text of a settings file, if there
is one. -/
def make (options : Options) (file : Option String) : Except ConfigError Config := do
  let document ← match file with
    | none => pure []
    | some text =>
        match Toml.parse? text with
        | some document => pure document
        | none => .error .unreadable
  ofSettings (addOptions (defaults.addDocument document) options)

/-- What an endpoint needs of the configuration. -/
def endpoint (c : Config) (blind : Payjoin.Blind) : Payjoin.Settings :=
  .of c.code (c.broadcastDelay * 1000) c.relayRate blind

end Config

end Paydesk.Service
