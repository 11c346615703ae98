import Paydesk.Payjoin.Sweep
import Paydesk.Payjoin.Turn
import Paydesk.Simulation.World

/-!
Submissions and sweeps on one desk, under a clock that moves only when all of
them wait, and then to the next moment at which one goes on.
-/

namespace Paydesk.Simulation

open Chain Payjoin

inductive Result
  | proposal (p : Proposal)
  | failure (f : Failure)
  | swept (relayed : List Bytes)
  | overflow

/-- A sweep is made once, or again at some moment and then in intervals. -/
inductive Origin
  | once (id : Nat)
  | every (interval next : Nat)
deriving DecidableEq, Repr

/-- What goes on next. Jobs that end with a result have a number. -/
inductive Job
  | submission (id : Nat) (phase : Phase) (holdings : Holdings)
  | closing (id : Nat) (failure : Failure) (fallback : Transaction)
  | cancelling (id : Nat)
  | relayLater (fallback : Transaction)
  | relaying (fallback : Transaction)
  | sweeping (origin : Origin) (timeout : Nat) (phase : Sweep.Phase)
  | sweepAt (interval timeout due : Nat)

/-- The call that a job waits for. The others only wait for their time. -/
def Job.call? : Job → Option Call
  | .submission _ phase _ => some phase.call
  | .closing _ _ fallback | .relaying fallback => some (.broadcast fallback false)
  | .sweeping _ _ phase => some phase.call
  | .cancelling _ | .relayLater _ | .sweepAt .. => none

/-- The number of the job that everything else waits for. -/
def mainJob : Nat := 0

def Job.isMain : Job → Bool
  | .submission id .. | .closing id .. | .sweeping (.once id) .. => id = mainJob
  | _ => false

structure Entry where
  due : Nat
  job : Job

/-- Whether a submission waits for a call. -/
def Entry.isOf (id : Nat) (e : Entry) : Bool :=
  match e.job with
  | .submission other .. => id == other
  | _ => false

/-- Of two jobs that go on at the same moment the main one is first. -/
def Entry.isBefore (a b : Entry) : Bool :=
  a.due < b.due || (a.due == b.due && a.job.isMain && !b.job.isMain)

/-- Puts a job behind those that were there before it. -/
def schedule (e : Entry) : List Entry → List Entry
  | [] => [e]
  | other :: entries =>
      if e.isBefore other then e :: other :: entries else other :: schedule e entries

structure Broadcast where
  tx : Transaction
  testOnly : Bool
deriving DecidableEq, Repr

structure State where
  settings : Settings
  world : World
  desk : Desk
  now : Nat
  waiting : List Entry
  results : List (Nat × Result)
  broadcasts : List Broadcast
  sweepsStopped : Bool

namespace State

def new (settings : Settings) (world : World) : State where
  settings := settings
  world := world
  desk := ⟨.empty, [], []⟩
  now := 0
  waiting := []
  results := []
  broadcasts := []
  sweepsStopped := false

def result? (s : State) (id : Nat) : Option Result := s.results.lookup id

end State

abbrev Run := StateM State

namespace Run

def finish (id : Nat) (result : Result) : Run Unit :=
  modify fun s => { s with results := (id, result) :: s.results }

def wakeAt (due : Nat) (job : Job) : Run Unit :=
  modify fun s => { s with waiting := schedule ⟨due, job⟩ s.waiting }

def ask (call : Call) : Run call.Outcome :=
  modifyGet fun s =>
    let (outcome, world) := s.world.answer call
    (outcome, { s with world })

/-- Begins the call of a job. Tells whether it takes no time. -/
def begin (job : Job) : Run Bool := do
  let some call := job.call? | return true
  let s ← get
  let broadcasts := match call with
    | .broadcast tx testOnly => s.broadcasts ++ [⟨tx, testOnly⟩]
    | _ => s.broadcasts
  let (delay, world) := s.world.takeDelay (.of call)
  set { s with broadcasts, world }
  if delay = 0 then return true
  wakeAt (s.now + delay) job
  return false

/-- Takes over what a turn of a submission left. -/
def endTurn (id : Nat) (turn : Turn) : Run (Option Job) := do
  let s ← get
  set { s with desk := turn.desk }
  if let some fallback := turn.later then wakeAt (s.now + s.settings.delay) (.relayLater fallback)
  match turn.stage with
  | .waiting phase holdings => return some (.submission id phase holdings)
  | .closing failure fallback => return some (.closing id failure fallback)
  | .ended (.ok proposal) => do
      finish id (.proposal proposal)
      return none
  | .ended (.error failure) => do
      finish id (.failure failure)
      return none
  | .cutOff _ => do
      finish id .overflow
      return none

def sweepStep (origin : Origin) (timeout : Nat) : Sweep.Step → Run (Option Job)
  | .wait phase => return some (.sweeping origin timeout phase)
  | .finished relayed => do
      match origin with
      | .once id => finish id (.swept relayed)
      | .every interval next =>
          if !(← get).sweepsStopped then wakeAt next (.sweepAt interval timeout next)
      return none

def onDesk {α : Type} (action : StateM Desk α) : Run α :=
  modifyGet fun s =>
    let (a, desk) := action.run s.desk
    (a, { s with desk })

/-- Stops a submission at the call that it waits for. -/
def cancel (id : Nat) : Run (Option Job) := do
  let s ← get
  match s.waiting.find? (·.isOf id) with
  | some ⟨_, .submission _ _ holdings⟩ =>
      set { s with waiting := s.waiting.filter (!·.isOf id) }
      endTurn id (.cancel s.desk holdings)
  | _ => return none

/-- What a job does when its call is answered or its time has come. Gives the
job that goes on from there. -/
def proceed : Job → Run (Option Job)
  | .submission id phase holdings => do
      let outcome ← ask phase.call
      let s ← get
      endTurn id (.answer s.settings s.now s.desk phase holdings outcome)
  | .closing id failure fallback => do
      let _ ← ask (.broadcast fallback false)
      endTurn id (.close (← get).desk failure)
  | .cancelling id => cancel id
  | .relayLater fallback => return some (.relaying fallback)
  | .relaying fallback => do
      let _ ← ask (.broadcast fallback false)
      return none
  | .sweeping origin timeout phase => do
      let outcome ← ask phase.call
      sweepStep origin timeout (← onDesk (Sweep.resume timeout (← get).now phase outcome))
  | .sweepAt interval timeout due => do
      if (← get).sweepsStopped then return none
      sweepStep (.every interval (due + interval)) timeout
        (← onDesk (Sweep.start timeout (← get).now))

/-- More calls than any run makes. -/
def maxCalls : Nat := 0x1000000000000000

/-- Runs a job up to the first call that takes time. -/
def follow : Nat → Option Job → Run Unit
  | 0, _ | _, none => return
  | fuel + 1, some job => do
      if ← begin job then follow fuel (← proceed job)

/-- Goes from one moment to the next, as long as there are some to come. -/
def wakeWhile (more : State → Entry → Bool) : Nat → Run Unit
  | 0 => return
  | fuel + 1 => do
      let s ← get
      match s.waiting with
      | [] => return
      | e :: waiting =>
          if more s e then
            set { s with waiting, now := max s.now e.due }
            follow maxCalls (← proceed e.job)
            wakeWhile more fuel

/-- Waits until some jobs have ended. -/
def await (ids : List Nat) : Run (List (Option Result)) := do
  wakeWhile (fun s _ => ids.any fun id => (s.result? id).isNone) maxCalls
  let s ← get
  set { s with results := [] }
  return ids.map s.result?

end Run

/-- A request to the endpoint of some currency, and when its sender stops
waiting: right away, or some milliseconds later. -/
structure Visit where
  code : String
  request : Except RequestError Request
  gone : Bool
  patience : Option Nat

namespace Run

def receive (id : Nat) (v : Visit) : Run Unit := do
  let s ← get
  follow maxCalls (← endTurn id (.arrive s.settings s.desk v.code v.request v.gone))

def startVisit (id : Nat) (v : Visit) : Run Unit := do
  if let (.ok _, false, some patience) := (v.request, v.gone, v.patience) then
    wakeAt ((← get).now + patience) (.cancelling id)
  receive id v

/-- Has random choices drawn from some words from now on. -/
def setWords (words : Words) : Run Unit :=
  modify fun s => { s with desk := { s.desk with words } }

def submit (words : Words) (v : Visit) : Run (Option Result) := do
  setWords words
  startVisit mainJob v
  return (← await [mainJob]).head?.join

/-- Submissions at the same time, begun in order. -/
def submitAll (words : Words) (visits : List Visit) : Run (List (Option Result)) := do
  setWords words
  let ids := List.range' (mainJob + 1) visits.length
  (ids.zip visits).forM fun (id, v) => startVisit id v
  await ids

def sweep (timeout : Nat) : Run (Option Result) := do
  let step ← onDesk (Sweep.start timeout (← get).now)
  follow maxCalls (← sweepStep (.once mainJob) timeout step)
  return (← await [mainJob]).head?.join

/-- Sweeps now, and then in intervals. -/
def startSweeps (interval timeout : Nat) : Run Unit := do
  let s ← get
  set { s with sweepsStopped := false }
  if interval = 0 then return
  follow maxCalls (← proceed (.sweepAt interval timeout s.now))

def stopSweeps : Run Unit :=
  modify fun s =>
    let isSweep (e : Entry) : Bool := match e.job with
      | .sweepAt .. => true
      | _ => false
    { s with waiting := s.waiting.filter (!isSweep ·), sweepsStopped := true }

/-- Lets time pass. -/
def advance (duration : Nat) : Run Unit := do
  let stop := (← get).now + duration
  wakeWhile (fun _ e => e.due ≤ stop) maxCalls
  modify fun s => { s with now := max s.now stop }

/-- The broadcasts since the last time. -/
def takeBroadcasts : Run (List Broadcast) :=
  modifyGet fun s => (s.broadcasts, { s with broadcasts := [] })

end Run

end Paydesk.Simulation
