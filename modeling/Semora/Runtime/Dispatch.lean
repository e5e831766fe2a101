import Semora.Runtime.Entry

/-! Host commands and the transition table that routes them. -/

namespace Semora
open Semora.Lib Semora.Store Semora.Transcript

inductive Command
  | prompt (text : String) (promptId : Option String)
  | answer (pendingId : String) (payload : Answer)
  | recover
deriving DecidableEq

/-- What a transition comes back with. -/
inductive Applied
  | outcome (outcome : Outcome)
  | enqueued (inputId : String)
deriving DecidableEq

/-- One row of a router's table: the commands it takes, the states it accepts (`none` accepts every
state unobserved), and what it runs. -/
structure Transition where
  applies : Command → Bool
  states : Option (List String)
  apply : Command → Option String → Program Applied

namespace Dispatch

variable (rt : AgentRuntime) (e : Execution) (agent : Agent) (controls : Option String)
variable (rulesVersion : String)

def invalidTransition {α : Type} (state : String) (command : Command) : Program α :=
  let name := match command with
    | .prompt .. => "Prompt"
    | .answer .. => "Answer"
    | .recover => "Recover"
  .raise (.other s!"{name} is invalid while the run is '{state}'")

def unsupported {α : Type} : Program α := .raise (.other "AssertionError")

/-- The state already observed, or a fresh observation. -/
def named (state : Option String) : Program String :=
  match state with
  | some state => return state
  | none => rt.state e

/-- `Prompt` → `run`. -/
def startRun : Transition where
  applies
    | .prompt .. => true
    | _ => false
  states := none
  apply command _ := match command with
    | .prompt text promptId => do
      let outcome ← rt.run e agent (some text) { controls, rulesVersion, promptId }
      return .outcome outcome
    | _ => unsupported

/-- `Prompt` behind a live worker → `submit`. -/
def queueSteer : Transition where
  applies
    | .prompt .. => true
    | _ => false
  states := none
  apply command _ := match command with
    | .prompt text promptId => do
      let instant ← now
      let item ← rt.submit e ⟨"user_prompt", .userPrompt (.str text) (.int instant), promptId⟩
      return .enqueued (item.originId.getD "")
    | _ => unsupported

/-- `Answer` → `resume`, a missing park being an invalid transition. -/
def resumeApproval : Transition where
  applies
    | .answer .. => true
    | _ => false
  states := none
  apply command state := match command with
    | .answer pendingId payload =>
      (do
        let outcome ← rt.resume e pendingId payload agent controls rulesVersion
        return Applied.outcome outcome).tryCatch fun error =>
          match error with
          | .lookupError _ => do
            let state ← named rt e state
            invalidTransition state command
          | error => .raise error
    | _ => unsupported

/-- `Recover` on a parked run → `recover` from the committed transcript. -/
def recoverInterrupted : Transition where
  applies
    | .recover => true
    | _ => false
  states := some ["waiting", "resuming"]
  apply _ _ := do
    let history ← rt.committedHistory e
    let outcome ← rt.recover e agent history controls rulesVersion
    return .outcome outcome

/-- `Recover` on an open, unparked round → a prompt-less `run`. -/
def replayJournal : Transition where
  applies
    | .recover => true
    | _ => false
  states := some ["interrupted"]
  apply _ _ := do
    let outcome ← rt.run e agent none { controls, rulesVersion }
    return .outcome outcome

/-- Offer the command to the rows that accept the observed state, in order; contention hands it
to the next one. -/
def offer (command : Command) (state : Option String) :
    List Transition → Option Exn → Program Applied
  | [], some contended => .raise contended
  | [], none => do
    let state ← named rt e state
    invalidTransition state command
  | row :: rows, contended =>
    if row.states.all (fun states => state.any (fun s => s ∈ states)) then
      (row.apply command state).tryCatch fun error =>
        match error with
        | .store (.contended b) => offer command state rows (some (.store (.contended b)))
        | error => .raise error
    else offer command state rows contended

/-- Observe the state only if a candidate row declares the states it accepts. -/
def observe (candidates : List Transition) : Program (Option String) :=
  if candidates.any (fun row => row.states.isSome) then do
    let state ← rt.state e
    return some state
  else return none

/-- Route one command through a table. -/
def route (rows : List Transition) (command : Command) : Program Applied := do
  let candidates := rows.filter (fun row => row.applies command)
  let state ← observe rt e candidates
  offer rt e command state candidates none

/-- The table of `default_router`. -/
def defaultRouter : List Transition :=
  [resumeApproval rt e agent controls rulesVersion, recoverInterrupted rt e agent controls rulesVersion,
    replayJournal rt e agent controls rulesVersion, startRun rt e agent controls rulesVersion,
    queueSteer rt e]

end Dispatch

/-- Route a host command to the transition the run's durable state allows. -/
def AgentRuntime.dispatch (rt : AgentRuntime) (e : Execution) (agent : Agent) (command : Command)
    (controls : Option String) (rulesVersion : String) : Program Applied :=
  if rt.executionStore ∧ rt.transcript then
    Dispatch.route rt e (Dispatch.defaultRouter rt e agent controls rulesVersion) command
  else .raise (.typeError "dispatch requires AgentRuntime(execution_store=..., transcript=...)")

end Semora
