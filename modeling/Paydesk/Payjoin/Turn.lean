import Paydesk.Payjoin.Submission

/-!
A submission from one call to the next. It gives back what it holds as soon as
it fails, and tells the sender after its fallback was relayed.
-/

namespace Paydesk.Payjoin

open Chain

/-- How far a submission is: it waits for a call of its own or for the relay of
its fallback, or it has ended. One that was cut off never goes on, and what it
held stays locked. -/
inductive Stage
  | waiting (phase : Phase) (holdings : Holdings)
  | closing (failure : Failure) (fallback : Transaction)
  | ended (result : Except Failure Proposal)
  | cutOff (holdings : Holdings)

/-- What a submission leaves when it stops to wait, or for good: perhaps there is
a fallback to be broadcast later. -/
structure Turn where
  stage : Stage
  desk : Desk
  later : Option Transaction

namespace Turn

/-- Gives back what a submission holds. -/
def fail (s : Session) (failure : Failure) : Turn :=
  let (desk, fallback) := Submission.release s.desk s.holdings
  ⟨fallback.elim (.ended (.error failure)) (.closing failure), desk, none⟩

def of (s : Session) : Step → Turn
  | .wait phase => ⟨.waiting phase s.holdings, s.desk, none⟩
  | .failed failure => fail s failure
  | .finished proposal fallback => ⟨.ended (.ok proposal), s.desk, some fallback⟩
  | .overflow => ⟨.cutOff s.holdings, s.desk, none⟩

/-- A request comes in, whose sender may be gone already. -/
def arrive (settings : Settings) (desk : Desk) (code : String)
    (request : Except RequestError Request) (gone : Bool) : Turn :=
  match request with
  | .error e => ⟨.ended (.error (.rejected e.reply)), desk, none⟩
  | .ok request =>
      if gone then ⟨.ended (.error Submission.cancelled), desk, none⟩
      else of ⟨desk, .none⟩ (Submission.start settings code request)

/-- The call of a phase is answered. -/
def answer (settings : Settings) (now : Nat) (desk : Desk) (phase : Phase) (holdings : Holdings)
    (outcome : phase.call.Outcome) : Turn :=
  let (step, session) := (Submission.resume settings now phase outcome).run ⟨desk, holdings⟩
  of session step

/-- The sender does not wait for the call of a phase. -/
def cancel (desk : Desk) (holdings : Holdings) : Turn := fail ⟨desk, holdings⟩ Submission.cancelled

/-- The fallback was relayed, or could not be; that makes no difference. -/
def close (desk : Desk) (failure : Failure) : Turn := ⟨.ended (.error failure), desk, none⟩

end Turn

end Paydesk.Payjoin
