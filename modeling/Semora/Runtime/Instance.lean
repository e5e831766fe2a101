import Semora.Runtime.Dispatch

/-! The class agent: an instance is bound to one run, and drives it through its class's runtime. -/

namespace Semora
open Semora.Lib Semora.Store Semora.Transcript

/-- A branch as a caller names it: its id, or a whole execution context. -/
inductive BranchId
  | id (branchId : String)
  | context (e : Execution)
deriving DecidableEq

/-- `branch_id.branch_id if isinstance(branch_id, ExecutionContext) else branch_id`. -/
def BranchId.narrowed : BranchId → String
  | id branchId => branchId
  | context e => e.branchId

/-- `_execution_context` of what the caller passed. -/
def BranchId.execution (branchId : BranchId) (conversationId : Option String) : Execution :=
  match branchId with
  | id branchId => ⟨branchId, conversationId, none⟩
  | context e => executionContext e conversationId

/-- One operation, with what both interfaces take besides the branch. -/
inductive Operation
  | run (prompt : Option String) (options : Options) (conversationId : Option String)
  | resume (answer : Answer) (pendingId controls : Option String) (rulesVersion : String)
      (conversationId : Option String)
  | recover (history : Option (List ModelMessage)) (controls : Option String) (rulesVersion : String)
      (conversationId : Option String)
  | fork (source : BranchId) (at_ : Option Uuid) (prompt : Option String)
      (history : Option (List ModelMessage)) (regate : Bool) (options : Options)
      (sourceConversationId conversationId : Option String)
  | dispatch (command : Command) (controls : Option String) (rulesVersion : String)
      (conversationId : Option String)
  | submit (item : PendingInput)
  | state
  | pending

namespace Operation

/-- The conversation the caller names beside the branch. -/
def conversationId : Operation → Option String
  | run _ _ conversationId | resume _ _ _ _ conversationId | recover _ _ _ conversationId
  | fork _ _ _ _ _ _ _ conversationId | dispatch _ _ _ conversationId => conversationId
  | submit _ | state | pending => none

/-- Whether the operation may drive an attempt, and so name a subject to a control plane. -/
def drives : Operation → Bool
  | submit _ | state | pending => false
  | _ => true

end Operation

/-- What an operation comes back with. -/
inductive Reply
  | outcome (outcome : Outcome)
  | suspended (pending : List (String × String))
  | enqueued (inputId : String)
  | queued (item : PendingInput)
  | named (state : String)
  | pairs (pending : List (String × String))
deriving DecidableEq

def Reply.ofApplied : Applied → Reply
  | .outcome o => .outcome o
  | .enqueued id => .enqueued id

namespace AgentRuntime

variable (rt : AgentRuntime) (agent : Agent)

/-- The runtime's method for an operation, at one execution. An answer that names no request goes
to the first undecided one, and a recovery without a history takes the transcript's. -/
def serve (e : Execution) : Operation → Program Reply
  | .run prompt options _ => do
    let outcome ← rt.run e agent prompt options
    return .outcome outcome
  | .resume answer pendingId controls rulesVersion _ => do
    let resumed (pendingId : String) : Program Reply := do
      let outcome ← rt.resume e pendingId answer agent controls rulesVersion
      return .outcome outcome
    match pendingId with
    | some pendingId => resumed pendingId
    | none => do
      let undecided ← rt.pending e
      match undecided with
      | [] => .raise (.lookupError s!"branch {quoted e.branchId} has nothing parked")
      | (pendingId, _) :: _ => resumed pendingId
  | .recover (some history) controls rulesVersion _ => do
    let outcome ← rt.recover e agent history controls rulesVersion
    return .outcome outcome
  | .recover none controls rulesVersion _ => do
    let applied ← rt.dispatch e agent .recover controls rulesVersion
    return .ofApplied applied
  | .fork source at_ prompt history regate options sourceConversationId _ => do
    let outcome ← rt.fork (source.execution sourceConversationId) at_ e agent prompt history regate
      options
    return .outcome outcome
  | .dispatch command controls rulesVersion _ => do
    let applied ← rt.dispatch e agent command controls rulesVersion
    return .ofApplied applied
  | .submit item => do
    let item ← rt.submit e item
    return .queued item
  | .state => do
    let state ← rt.state e
    return .named state
  | .pending => do
    let undecided ← rt.pending e
    return .pairs undecided

end AgentRuntime

/-- A park comes back as an outcome, where the operation drives an attempt. -/
def settled (op : Operation) (attempt : Program Reply) : Program Reply :=
  if op.drives then
    attempt.tryCatch fun error =>
      match error with
      | .agentSuspended pending => return .suspended pending
      | error => .raise error
  else attempt

/-- One instance of a class agent: what its class defines, and the run it is bound to. -/
structure ClassAgent where
  runtime : AgentRuntime
  agent : Agent
  branchId : Option String := none

namespace ClassAgent

/-- `__init__`, as far as the run goes. -/
def new (runtime : AgentRuntime) (agent : Agent) (branchId : Option BranchId) : ClassAgent :=
  { runtime, agent, branchId := branchId.map BranchId.narrowed }

/-- `_bind`: the run the instance is for, set once. -/
def bind (self : ClassAgent) (branchId : Option BranchId) (minted : String) :
    Except Exn (String × ClassAgent) :=
  match self.branchId, branchId.map BranchId.narrowed with
  | none, some "" | none, none => .ok (minted, { self with branchId := some minted })
  | none, some wanted => .ok (wanted, { self with branchId := some wanted })
  | some bound, none => .ok (bound, self)
  | some bound, some wanted =>
    if wanted = bound then .ok (bound, self)
    else .error (.runtimeError
      s!"the instance is bound to run {quoted bound}; make another for {quoted wanted}")

/-- What one operation of the instance runs, once it is bound. -/
def perform (self : ClassAgent) (bound : String) (op : Operation) : Program Reply :=
  settled op (self.runtime.serve self.agent ((BranchId.id bound).execution op.conversationId) op)

/-- Operations of one instance, one after the other, each with the branch it names. -/
def session (self : ClassAgent) (minted : String) :
    List (Option BranchId × Operation) → List (Program Reply)
  | [] => []
  | (branchId, op) :: calls =>
    match self.bind branchId minted with
    | .ok (bound, self) => self.perform bound op :: session self minted calls
    | .error e => .raise e :: session self minted calls

end ClassAgent

end Semora
