import Paydesk.Main
import Paydesk.Node.Client
import Paydesk.Proofs.Payjoin.Identity
import Paydesk.Proofs.Payjoin.Overflow
import Paydesk.Proofs.Payjoin.Races
import Paydesk.Proofs.Payjoin.RelayFloor
import Paydesk.Proofs.Rates.Derivation
import Paydesk.Proofs.Rates.Interpreter
import Paydesk.Proofs.Rates.Reloading
import Paydesk.Proofs.Rates.Widening
import Paydesk.Proofs.Rates.Written
import Paydesk.Proofs.Simulation.Schedule
import Paydesk.Rates.Documents
import Paydesk.Rates.Rule
import Paydesk.Proofs.Samples.Sender
import Paydesk.Service.Routing
import Paydesk.Proofs.Decimal.Limits
import Paydesk.Proofs.Rates.Division
import Paydesk.Proofs.Rates.Violations
import Paydesk.Proofs.Payjoin.Settling
import Paydesk.Proofs.Payjoin.Reordering
import Paydesk.Proofs.Payjoin.Completion
import Paydesk.Proofs.Payjoin.Formats
import Paydesk.Proofs.Bytes.Hex
import Paydesk.Proofs.Chain.Encoding
import Paydesk.Proofs.Text.Json
import Paydesk.Proofs.Invoices.Rows
import Paydesk.Proofs.Invoices.Agreement
import Paydesk.Proofs.Payjoin.Recording
import Paydesk.Proofs.Payjoin.Selection
import Paydesk.Proofs.Rates.Factors
import Paydesk.Proofs.Rates.Inverses
import Paydesk.Proofs.Rates.Updates
import Paydesk.Proofs.Rates.Markers
import Paydesk.Proofs.Rates.Appending
import Paydesk.Proofs.Rates.Layout
import Paydesk.Proofs.Rates.Failures
import Paydesk.Proofs.Payjoin.Payees
import Paydesk.Proofs.Payjoin.Ordering
import Paydesk.Proofs.Payjoin.Decoys
import Paydesk.Proofs.Rates.Collections
import Paydesk.Proofs.Payjoin.Parameters
import Paydesk.Proofs.Rates.Stack
