import Semora.Runtime.Attempt

/-! The entry points of the runtime: `run`, `resume`, `recover`, `fork`, `submit` and what a host
may observe. -/

namespace Semora
open Semora.Lib Semora.Store Semora.Transcript

namespace AgentRuntime

variable (rt : AgentRuntime)

/-- The live continuation in a step, if it holds one. -/
def liveSuspension : Step Value → Option Suspension
  | .done (.suspension active) => some active
  | _ => none

/-- The live continuation, or none when nothing is parked. -/
def active (e : Execution) : Program (Option Suspension) := do
  let store ← rt.requireStore e
  let record ← store.read e.branchId Effects.activeSuspension
  return liveSuspension record

/-- The undecided `(pending_id, tool_call_id)` pairs of a continuation, in model order. -/
def undecided (active : Suspension) : List (String × String) :=
  pendingPairs (active.continuation.calls.filter
    (fun item => (fetch item.1.toolCallId active.answers).isNone))

/-- The id an input is queued under: its own, or a new one. -/
def inputIdOf (item : PendingInput) : Program String :=
  match item.originId with
  | none | some "" => perform .uuid4
  | some id => return id

/-- Durably queue one input for the branch's next model boundary. -/
def submit (e : Execution) (item : PendingInput) : Program PendingInput := do
  let originId ← inputIdOf item
  let normalized := { item with originId := some originId }
  let store ← rt.requireStore e
  let _ ← store.enqueueInput e.branchId originId (.input normalized)
  return normalized

/-- Queue a prompt aimed at a parked run, and announce the park again. -/
def queueBehind {α : Type} (e : Execution) (active : Suspension) (text : String)
    (promptId : Option String) : Program α := do
  let instant ← now
  let _ ← rt.submit e ⟨"user_prompt", .userPrompt (.str text) (.int instant), promptId⟩
  if undecided active = [] then
    .raise (.store (.contended e.branchId))
  else .raise (.agentSuspended (undecided active))

/-- Drive one attempt at a run under its lease. -/
def run (e : Execution) (agent : Agent) (prompt : Option String) (options : Options) :
    Program Outcome :=
  match prompt with
  | none => rt.lease e (fun token => rt.attemptRun e token agent none options)
  | some text =>
    if rt.executionStore then do
      let parked ← rt.active e
      match parked with
      | some active => rt.queueBehind e active text options.promptId
      | none => rt.lease e (fun token => rt.attemptRun e token agent (some text) options)
    else rt.lease e (fun token => rt.attemptRun e token agent (some text) options)

/-- What an answer makes of the call it decides. -/
def approvalOf (answer : Answer) : Approval :=
  if answer.type = some "error" then
    .denied (match answer.message with
      | none | some "" => "denied"
      | some message => message)
  else .approved answer.args

/-- The decisions for every parked call; none if an answer is missing. -/
def approvals (parked : List (ToolCall × Request)) (answers : List (String × Answer)) :
    Option DeferredToolResults :=
  parked.mapM (fun item => (fetch item.1.toolCallId answers).map
    (fun answer => (item.1.toolCallId, approvalOf answer)))

def resumedCalls (active : Suspension) (answers : List (String × Answer)) :
    List (String × Resumed) :=
  active.continuation.calls.filterMap (fun item => (fetch item.1.toolCallId answers).map
    (fun answer => (item.1.toolCallId, ⟨answer, item.2, active.continuation.rulesVersion⟩)))

/-- The execution a continuation was parked in: the conversation it remembers, unless that is
only the transcript's fallback. -/
def rejoined (e : Execution) (active : Suspension) : Execution :=
  executionContext e
    (if active.conversationId = e.branchId then none else some active.conversationId)

/-- Finish a fully answered continuation after resume or recovery. -/
def finalize (e : Execution) (token : Nat) (agent : Agent) (active : Suspension)
    (answers : List (String × Answer)) (controls : Option String) (rulesVersion : String) :
    Program Outcome := do
  let store ← rt.requireStore e
  match approvals active.continuation.calls answers with
  | none => .raise (.lookupError "an answer is missing")
  | some results => do
    store.writeControl e.branchId Effects.activeSuspension
      (.suspension { active with state := .resuming, answers }) token
    let outcome ← rt.attemptRun (rejoined e active) token agent none
      { controls, rulesVersion, messageHistory := some active.continuation.messages, results
        resumed := resumedCalls active answers }
    store.writeControl e.branchId Effects.activeSuspension
      (.completed active.callId active.callIds) token
    return outcome

/-- The parked call an external pending id names; of several, the last. -/
def callOf (active : Suspension) (pendingId : String) : Option ToolCall :=
  (active.continuation.calls.reverse.find?
    (fun item => item.2.pendingId.getD "" = pendingId)).map Prod.fst

/-- Record an answer, and finalize once every parked call has one. -/
def resumeLeased (e : Execution) (token : Nat) (pendingId : String) (answer : Answer)
    (agent : Agent) (controls : Option String) (rulesVersion : String) : Program Outcome := do
  let store ← rt.requireStore e
  let parked ← rt.active e
  match parked.bind (fun active => (callOf active pendingId).map (fun call => (active, call))) with
  | none => .raise (.lookupError s!"no active suspension for pending id {quoted pendingId}")
  | some (active, call) => do
    let answers := upsert call.toolCallId answer active.answers
    store.writeControl e.branchId Effects.activeSuspension
      (.suspension { active with answers }) token
    if undecided { active with answers } = [] then
      rt.finalize e token agent active answers controls rulesVersion
    else .raise (.agentSuspended (undecided { active with answers }))

/-- Route an answer by its suspension's external `pending_id`. -/
def resume (e : Execution) (pendingId : String) (answer : Answer) (agent : Agent)
    (controls : Option String) (rulesVersion : String) : Program Outcome := do
  let _ ← rt.requireStore e
  rt.lease e (fun token => rt.resumeLeased e token pendingId answer agent controls rulesVersion)

/-- Whether a history's open calls belong to the round the ledger recorded last. -/
def matchesRound (history : List ModelMessage) : Step Value → Bool
  | .done (.pendingRound calls _) =>
    (unansweredToolCalls history).all (fun call => call.toolCallId ∈ calls.map ToolCall.toolCallId)
  | _ => true

def recoverLeased (e : Execution) (token : Nat) (agent : Agent) (history : List ModelMessage)
    (controls : Option String) (rulesVersion : String) : Program Outcome :=
  let again := rt.attemptRun e token agent none
    { controls, rulesVersion, messageHistory := some history }
  match rt.storeFor e with
  | none => again
  | some store => do
    let parked ← rt.active e
    match parked with
    | some active =>
      if undecided active = [] then
        rt.finalize e token agent active active.answers controls rulesVersion
      else .raise (.agentSuspended (undecided active))
    | none => do
      let recorded ← store.read e.branchId Effects.pendingRound
      if matchesRound history recorded then again
      else .raise (.valueError "agent history does not match the recorded pending round")

/-- Finish an interrupted run from the transcript the dead worker committed. -/
def recover (e : Execution) (agent : Agent) (history : List ModelMessage)
    (controls : Option String) (rulesVersion : String) : Program Outcome :=
  rt.lease e (fun token => rt.recoverLeased e token agent history controls rulesVersion)

/-- Copy what the source run made of its open calls, and say which were finished. -/
def copyCalls (source target : View) (src dst : Execution) (token : Nat) :
    List ToolCall → Program (List String)
  | [] => return []
  | call :: calls => do
    let key := Effects.stepKey call.toolCallId
    let record ← source.read src.branchId key
    match record with
    | .absent => copyCalls source target src dst token calls
    | .running => do
      let _ ← target.start dst.branchId key token
      copyCalls source target src dst token calls
    | .done value => do
      let inserted ← target.start dst.branchId key token
      if inserted then do
        target.finishEffect dst.branchId key value token
        let copied ← copyCalls source target src dst token calls
        return call.toolCallId :: copied
      else copyCalls source target src dst token calls

/-- Where a fork starts: the given history, a cursor, or the tip of the active branch. -/
def forkHistory (src : Execution) (at_ : Option Uuid) (history : Option (List ModelMessage)) :
    Program (List ModelMessage) :=
  match history with
  | some history => return history
  | none =>
    if rt.transcript then do
      let entries ← perform (.readEntries src.conversation)
      match at_ with
      | none => return messagesOf entries
      | some uuid =>
        match messagesAt entries (some uuid) with
        | some messages => return messages
        | none => .raise (.lookupError "transcript cursor does not exist")
    else .raise (.typeError "fork without history= requires AgentRuntime(transcript=...)")

/-- The copies a fork makes, where it can see both ledgers. -/
def copyRound (src dst : Execution) (token : Nat) (history : List ModelMessage) :
    Program (List String) :=
  match rt.storeFor src, rt.storeFor dst with
  | some source, some target => copyCalls source target src dst token (unansweredToolCalls history)
  | _, _ => return []

/-- Start `dst` from one point of the source's transcript. -/
def fork (src : Execution) (at_ : Option Uuid) (dst : Execution) (agent : Agent)
    (prompt : Option String) (history : Option (List ModelMessage)) (regate : Bool)
    (options : Options) : Program Outcome := do
  let history ← rt.forkHistory src at_ history
  rt.lease dst (fun token => do
    let copied ← rt.copyRound src dst token history
    rt.attemptRun dst token agent prompt
      { options with messageHistory := some history, regate := if regate then copied else [] })

/-- What is parked, as far as there is a ledger to say. -/
def parkedOn (e : Execution) : Program (Option Suspension) :=
  if rt.executionStore then rt.active e else return none

/-- Name the run's durable state from one observation. -/
def state (e : Execution) : Program String := do
  let parked ← rt.parkedOn e
  match parked with
  | some active => return active.state.text
  | none =>
    if rt.transcript then do
      let record ← perform (.readBranch e.branchId)
      match record with
      | none => return "fresh"
      | some fields => return if fields.endedAt.isSome then "completed" else "interrupted"
    else return "idle"

/-- The committed model history of the run's conversation. -/
def committedHistory (e : Execution) : Program (List ModelMessage) :=
  if rt.transcript then do
    let entries ← perform (.readEntries e.conversation)
    return messagesOf entries
  else .raise (.typeError "committed_history requires AgentRuntime(transcript=...)")

/-- The undecided pairs of a parked branch, in model order. -/
def pending (e : Execution) : Program (List (String × String)) :=
  if rt.executionStore then do
    let parked ← rt.active e
    match parked with
    | some active => return undecided active
    | none => return []
  else return []

end AgentRuntime

end Semora
