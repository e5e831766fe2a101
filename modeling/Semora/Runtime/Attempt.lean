import Semora.Graph

/-! One attempt at a run: under a lease, over the committed conversation, until it ends or parks. -/

namespace Semora
open Semora.Lib Semora.Store Semora.Transcript

/-- The durable coordinate of one execution. -/
structure Execution where
  branchId : String
  conversationId : Option String := none
  subject : Option String := none
deriving DecidableEq

/-- The conversation a transcript is kept under: the branch's own where none is named. -/
def Execution.conversation (e : Execution) : String :=
  match e.conversationId with
  | some "" | none => e.branchId
  | some conversation => conversation

/-- The context as given, with a conversation named separately filled in if it had none. -/
def executionContext (e : Execution) (conversationId : Option String) : Execution :=
  match e.conversationId with
  | some _ => e
  | none => { e with conversationId }

structure Agent extends PydanticAI where
  /-- The control plane the agent carries as methods. -/
  own : Option String := none

structure Outcome where
  output : Output
  stopReason : StopReason
  messages : List ModelMessage
deriving DecidableEq

structure AgentRuntime where
  executionStore : Bool := true
  transcript : Bool := true
  leaseTtl : ℚ := 60
  retryRunning : Bool := false

/-- What a caller may pass to one attempt. -/
structure Options where
  controls : Option String := none
  rulesVersion : String := ""
  promptId : Option String := none
  messageHistory : Option (List ModelMessage) := none
  results : DeferredToolResults := []
  resumed : List (String × Resumed) := []
  regate : List String := []
deriving DecidableEq

namespace AgentRuntime

variable (rt : AgentRuntime)

/-- The ledger as this execution sees it: its conversation's view when it names one. -/
def storeFor (e : Execution) : Option View :=
  if rt.executionStore then some ⟨e.conversationId⟩ else none

def requireStore (e : Execution) : Program View :=
  match rt.storeFor e with
  | some store => return store
  | none => .raise (.typeError "this needs a ledger; pass execution_store=")

/-- Run `body` under the branch lease. -/
def lease {α : Type} (e : Execution) (body : Nat → Program α) : Program α :=
  match rt.storeFor e with
  | none => body 0
  | some store => do
    let owner ← perform .uuid4
    let token ← perform (.ledger (.acquire (store.filed e.branchId) owner rt.leaseTtl))
    if token = 0 then
      .raise (.store (.contended e.branchId))
    else
      (body token).finally_ (perform (.ledger (.release (store.filed e.branchId) owner)))

/-- Token counts keyed by the model that answered last. -/
def usageOf (a : Attempt) : List (String × UsageFields) :=
  if a.usage.1 + a.usage.2 = 0 then []
  else [(((latestResponse a.messages).bind (fun found => found.1.modelName)).getD "",
    ⟨a.usage.1, a.usage.2, a.usage.1 + a.usage.2⟩)]

/-- The calls of a parked round with what was asked about each. -/
def parkedCalls (requests : DeferredToolRequests) : Option (List (ToolCall × Request)) :=
  requests.approvals.mapM (fun call =>
    (fetch call.toolCallId requests.metadata).map (fun request => (call, request)))

def pendingPairs (parked : List (ToolCall × Request)) : List (String × String) :=
  parked.map (fun item => (item.2.pendingId.getD "", item.1.toolCallId))

/-- What parking a round writes: one index per call, and the continuation. -/
def parkWrites (conversation : String) (first : String) (continuation : Continuation) :
    List (String × Value) :=
  continuation.calls.map (fun item => (Effects.suspendKey item.1.toolCallId, .activeCall first)) ++
    [(Effects.activeSuspension, .suspension
      { state := .waiting, conversationId := conversation, callId := first, continuation
        callIds := continuation.calls.map (fun item => item.1.toolCallId), answers := [] })]

/-- Ask `on_suspend` about every parked call. -/
def suspendAll (plane : String) (here : Ctx) (messages : List ModelMessage)
    (completed : List (String × Json)) : List (ToolCall × Request) → Program Unit
  | [] => return ()
  | (call, request) :: parked => do
    Effects.ask plane (.onSuspend here call request messages completed)
    suspendAll plane here messages completed parked

/-- Ask the control plane, if there is one, about a round that is about to park. -/
def announce (eff : Effects) (a : Attempt) (parked : List (ToolCall × Request)) : Program Unit :=
  match eff.controls with
  | none => return ()
  | some plane =>
    suspendAll plane { turn := a.turn, messages := a.messages, callsMade := [], text := ""
                       subject := eff.subject } a.messages (roundResults a.messages) parked

/-- Commit the continuation of a parked round. -/
def persist (e : Execution) (conversation first : String) (continuation : Continuation)
    (token : Nat) : Program Unit :=
  match rt.storeFor e with
  | none => return ()
  | some store => do
    let _ ← perform (.ledger (.commitTransition (store.filed e.branchId)
      { controls := parkWrites conversation first continuation } token))
    return ()

/-- Persist every parked call of the round in one transition, then announce it. -/
def park {α : Type} (e : Execution) (conversation : String) (eff : Effects)
    (requests : DeferredToolRequests) (token : Nat) : Program α :=
  if requests.calls ≠ [] then
    .raise (.runtimeError "only a pre_tool_use permission gate may suspend a tool request")
  else match parkedCalls requests with
  | none => .raise (.lookupError "a deferred call without its request")
  | some [] => .raise (.lookupError "a parked round without a call")
  | some ((call, request) :: rest) =>
    let parked := (call, request) :: rest
    if ¬ ((pendingPairs parked).map Prod.fst).Nodup then
      .raise (.valueError "a parked round reuses a pending_id")
    else do
      let a ← attempt
      announce eff a parked
      rt.persist e conversation call.toolCallId
        { calls := parked, messages := a.messages, completed := roundResults a.messages
          rulesVersion := eff.rulesVersion, turn := a.turn, subject := eff.subject } token
      .raise (.agentSuspended (pendingPairs parked))

/-- Open the conversation and settle which history the attempt continues. -/
def openBranch (e : Execution) (messageHistory : Option (List ModelMessage)) :
    Program (List ModelMessage) :=
  if rt.transcript then do
    Branch.opening e.conversation e.branchId
    match messageHistory with
    | none => do
      let a ← attempt
      return a.branch.messages
    | some history => do
      Branch.replace e.conversation history
      return history
  else return messageHistory.getD []

/-- The prompt this attempt delivers: none if an earlier attempt under its id already did. -/
def admitPrompt (e : Execution) (token : Nat) (prompt promptId : Option String) :
    Program (Option String) :=
  match prompt, promptId, rt.storeFor e with
  | some text, some id, some store => do
    let instant ← now
    let item : PendingInput := ⟨"user_prompt", .userPrompt (.str text) (.int instant), some id⟩
    let inserted ← store.enqueueInput e.branchId id (.input item)
    if inserted then
      store.admitInputs e.branchId [id] token
      return some text
    else return none
  | prompt, _, _ => return prompt

/-- The boundary one attempt runs behind. -/
def effectsOf (e : Execution) (token : Nat) (agent : Agent) (options : Options) : Effects :=
  { store := rt.storeFor e
    branchId := e.branchId
    token
    controls := options.controls <|> agent.own
    retryRunning := rt.retryRunning
    rulesVersion := options.rulesVersion
    subject := e.subject.getD ""
    resumed := options.resumed
    inputs := rt.storeFor e
    record := if rt.transcript then some ⟨e.conversation⟩ else none
    regate := options.regate }

/-- Commit the attempt's final history. -/
def replaceFinal (e : Execution) : Program Unit :=
  if rt.transcript then do
    let a ← attempt
    Branch.replace e.conversation a.messages
  else return ()

def closeRecord (e : Execution) (stopReason : StopReason) (a : Attempt) : Program Unit :=
  if rt.transcript then closed e.conversation e.branchId stopReason a.callsMade.length (usageOf a)
  else return ()

/-- Close the run record and name the outcome. -/
def close (e : Execution) (output : Output) : Program Outcome := do
  let a ← attempt
  let stopReason := a.stopReason.getD .completed
  rt.closeRecord e stopReason a
  return ⟨output, stopReason, a.messages⟩

/-- Drive an attempt while the caller owns the branch lease. -/
def attemptRun (e : Execution) (token : Nat) (agent : Agent) (prompt : Option String)
    (options : Options) : Program Outcome := do
  update (fun _ => {})
  let history ← rt.openBranch e options.messageHistory
  let prompt ← rt.admitPrompt e token prompt options.promptId
  let eff := rt.effectsOf e token agent options
  let output ← agent.run eff (prompt.map Json.str) history options.results
  rt.replaceFinal e
  match output with
  | .deferred requests => rt.park e e.conversation eff requests token
  | output => rt.close e output

end AgentRuntime

end Semora
