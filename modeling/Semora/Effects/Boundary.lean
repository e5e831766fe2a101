import Semora.Effects.Keys
import Semora.Transcript.Writer

/-! The execution boundary: replay committed effects and expose uncertain execution. Every tool
call and every model request is a durable step, and the control points are asked here. -/

namespace Semora
open Semora.Lib Semora.Store Semora.Transcript

/-- The ledger as one execution sees it: a branch of a conversation is filed under both names. -/
structure View where
  conversationId : Option String
deriving DecidableEq

namespace View

def filed (v : View) (branchId : String) : String :=
  match v.conversationId with
  | none => branchId
  | some conversation => conversation ++ "/" ++ branchId

variable (v : View) (branchId : String)

def read (key : String) : Program (Step Value) := perform (.ledger (.read (v.filed branchId) key))

def start (key : String) (token : Nat) : Program Bool :=
  perform (.ledger (.start (v.filed branchId) key token))

def finishEffect (key : String) (value : Value) (token : Nat) : Program Unit :=
  perform (.ledger (.finishEffect (v.filed branchId) key value token))

def writeControl (key : String) (value : Value) (token : Nat) : Program Unit :=
  perform (.ledger (.writeControl (v.filed branchId) key value token))

def forget (key : String) (token : Nat) : Program Unit :=
  perform (.ledger (.forget (v.filed branchId) key token))

def listInputs : Program (List (InputRecord Value)) :=
  perform (.ledger (.listInputs (v.filed branchId)))

def claimInput (inputId : String) (token : Nat) : Program Unit :=
  perform (.ledger (.claimInput (v.filed branchId) inputId token))

def admitInputs (inputIds : List String) (token : Nat) : Program Unit :=
  perform (.ledger (.admitInputs (v.filed branchId) inputIds token))

def discardInputs (inputIds : List String) (token : Nat) : Program Unit :=
  perform (.ledger (.discardInputs (v.filed branchId) inputIds token))

def enqueueInput (inputId : String) (value : Value) : Program Bool :=
  perform (.ledger (.enqueueInput (v.filed branchId) inputId value))

end View

/-- What a parked call comes back with: the answer, the request it answers, the rules then. -/
structure Resumed where
  answer : Answer
  request : Request
  rulesVersion : String
deriving DecidableEq

/-- What `record` writes to: the conversation of the attempt's transcript branch. -/
structure Recorder where
  conversation : String
deriving DecidableEq

/-- The ledger, the branch, the token and the policy one attempt runs under. Its mutable fields
are part of `Attempt`. `controls` names the control plane, if there is one. -/
structure Effects where
  store : Option View
  branchId : String
  token : Nat := 0
  controls : Option String := none
  retryRunning : Bool := false
  rulesVersion : String := ""
  subject : String := ""
  resumed : List (String × Resumed) := []
  inputs : Option View := none
  record : Option Recorder := none
  regate : List String := []
deriving DecidableEq

/-- The requests a parked round ends with. -/
structure DeferredToolRequests where
  calls : List ToolCall
  approvals : List ToolCall
  metadata : List (String × Request)
deriving DecidableEq

inductive Output
  | text (content : String)
  | value (value : Json)
  | deferred (requests : DeferredToolRequests)
deriving DecidableEq

def Output.isDeferred : Output → Bool
  | deferred _ => true
  | _ => false

/-- A person's decision about one deferred call. -/
inductive Approval
  | approved (overrideArgs : Option (List (String × Json)))
  | denied (message : String)
deriving DecidableEq

/-- The decisions a run is continued with, by call id. -/
abbrev DeferredToolResults := List (String × Approval)

/-- A node of the agent graph. A round resumed after a park carries the decisions for it. -/
inductive Node
  | userPrompt
  | modelRequest (request : ModelRequest)
  | callTools (response : ModelResponse) (results : DeferredToolResults)
deriving DecidableEq

/-- Where a node leads: to another node, or to the end of the run. -/
inductive NodeResult
  | node (next : Node)
  | finish (output : Output)
deriving DecidableEq

namespace Effects

/-- The model-visible stand-in for a call behind a suspension. -/
def notExecuted : Json :=
  .str "not executed: an earlier call in this round awaits approval; reissue it once that is decided"

/-- What a model request's key is derived from. -/
def modelStepBody (request : RequestContext) : Json :=
  (Json.dict [("model", .str request.modelId), ("tools", .list request.tools),
    ("messages", stripped (.list (request.messages.map encodeMessage)))]).canonical

/-- Derive one model effect id from its model, tools, and model-visible context. -/
def modelStepKey (digest : Json → String) (request : RequestContext) : String :=
  modelKey (digest (modelStepBody request))

/-- Of one model's requests, the key is derived from the messages alone, up to what replays vary. -/
theorem modelStepBody_iff {modelId : String} {tools : List Json}
    (messages messages' : List ModelMessage) :
    modelStepBody ⟨modelId, tools, messages⟩ = modelStepBody ⟨modelId, tools, messages'⟩ ↔
      messages.map body = messages'.map body := by
  have hlist : ∀ ms : List ModelMessage,
      (stripped (.list (ms.map encodeMessage))).canonical = .list (ms.map body) := by
    intro ms
    simp only [stripped, Json.without, Json.canonical, Json.list.injEq]
    induction ms with
    | nil => rfl
    | cons m ms ih =>
      simp only [List.map_cons, Json.withoutList, Json.canonicalList, ih]
      rfl
  have h₁ : ¬ ("tools" : String) ≤ "messages" := by decide
  have h₂ : ¬ ("model" : String) ≤ "messages" := by decide
  have h₃ : ("model" : String) ≤ "tools" := by decide
  simp [modelStepBody, Json.canonical, Json.canonicalItems, Json.place, hlist, h₁, h₂, h₃]

variable (eff : Effects)

/-- The context shown to a control point. -/
def ctx (pending : List ModelMessage) : Program Ctx := do
  let a ← attempt
  let messages := a.messages ++ pending
  return { turn := a.runStep, messages, callsMade := a.callsMade, text := lastText messages
           subject := eff.subject }

def made (call : ToolCall) (refused : Bool) : Program Unit :=
  update (fun a => { a with callsMade := a.callsMade ++ [⟨call, refused⟩] })

/-- Ask one control point of plane `plane`. -/
def ask (plane : String) (q : Question) : Program q.Reply := perform (.ask plane q)

/-! The tool boundary. -/

/-- A step of this branch; absent without a ledger. -/
def readStep (key : String) : Program (Step Value) :=
  match eff.store with
  | none => return .absent
  | some store => store.read eff.branchId key

/-- Whether this run's ledger already holds the call's finished effect. -/
def recorded (call : ToolCall) : Program Bool := do
  let step ← eff.readStep (stepKey call.toolCallId)
  return step.status = "done"

/-- What the gate answers once the policy has: an approval tool asks a person, and behind a
suspension only another suspension is kept. -/
def gated (a : Attempt) (call : ToolCall) (decision : ToolDecision) : ToolDecision :=
  let decision :=
    if decision = .continue ∧ call.toolName ∈ a.approvalTools then
      .suspend { pendingId := some call.toolCallId }
    else decision
  match decision with
  | .suspend request => .suspend request
  | decision => if a.suspendedThisRound then .deny notExecuted else decision

/-- What the policy says of a call; without one, everything may run. -/
def policy (here : Ctx) (call : ToolCall) : Program ToolDecision :=
  match eff.controls with
  | none => return .continue
  | some plane => ask plane (.preToolUse here call)

def gate (here : Ctx) (call : ToolCall) : Program ToolDecision := do
  let decision ← eff.policy here call
  let a ← attempt
  return gated a call decision

/-- Ask `on_resume` about an approved call that still has to run. -/
def resumeDecision (here : Ctx) (call : ToolCall) : Program ToolDecision :=
  match fetch call.toolCallId eff.resumed, eff.controls with
  | some resumed, some plane => ask plane (.onResume here call
      ⟨resumed.answer, resumed.request, resumed.rulesVersion, eff.rulesVersion⟩)
  | _, _ => return .continue

/-- Whether the call is answered from its record, past any gate. -/
def replayed (call : ToolCall) : Program Bool :=
  if call.toolCallId ∈ eff.regate then return false else eff.recorded call

/-- `args` is what will run: an answer may have replaced the model's arguments. -/
def withArgs (call : ToolCall) : Json → ToolCall
  | .dict items => { call with args := .dict items }
  | _ => call

/-- The verdict on one call: a recorded call passes, an approved one is revalidated, any other
goes through the gate. -/
def verdict (approved : Bool) (call : ToolCall) (args : Json) :
    Program (ToolCall × ToolDecision) := do
  let here ← eff.ctx []
  let replayed ← eff.replayed call
  if replayed then
    return (call, .continue)
  else if approved then do
    let decision ← eff.resumeDecision here (withArgs call args)
    return (withArgs call args, decision)
  else do
    let decision ← eff.gate here call
    return (call, decision)

/-- Carry a verdict out: a denial is a result the model sees, a suspension parks first. -/
def enforce (call : ToolCall) (args : Json) : ToolDecision → Program Json
  | .deny result => do
    made call true
    .raise (.skipToolExecution result)
  | .suspend request =>
    if request.pendingId.getD "" = "" then
      .raise (.valueError s!"suspension of {quoted call.toolCallId} carries no pending_id")
    else do
      update (fun a => { a with suspendedThisRound := true })
      made call true
      .raise (.approvalRequired request)
  | .continue => do
    made call false
    return args

def beforeToolExecute (approved : Bool) (call : ToolCall) (args : Json) : Program Json := do
  let (call, decision) ← eff.verdict approved call args
  enforce call args decision

/-- Take the intent of a step back. -/
def clearIntent (key : Option String) : Program Unit :=
  match eff.store, key with
  | some store, some key => store.forget eff.branchId key eff.token
  | _, _ => return ()

/-- Commit the result of a step. -/
def finishStep (key : Option String) (record : Record) : Program Unit :=
  match eff.store, key with
  | some store, some key => store.finishEffect eff.branchId key (.toolResult record) eff.token
  | _, _ => return ()

/-- The one catch boundary: what a tool that raised leaves as its record. -/
def caught (key : Option String) (error : Exn) : Program Record :=
  if error.nothingHappened then do
    eff.clearIntent key
    .raise error
  else if error.runtimeSignal ∨ error.isException = false then .raise error
  else return .failed error.text

/-- Run the tool and make its outcome the call's record. -/
def execute (key : Option String) (args : Json) (handler : Json → Program Json) : Program Record := do
  let record ← ((do
    let value ← handler args
    return Record.ok value).tryCatch (eff.caught key))
  -- A cancellation between `handler` and here leaves the step `running`, which is the truth.
  eff.finishStep key record
  return record

/-- Show a result to `post_tool_use` and keep what the hook leaves of it. -/
def project (plane : String) (call : ToolCall) (record : Record) : Program Record := do
  let here ← eff.ctx []
  match record with
  | .ok value =>
    let value' ← ask plane (.postToolUse here call value)
    return .ok value'
  | .failed error =>
    let _ ← ask plane (.postToolUse here call
      (.dict [("type", .str "error"), ("message", .str error)]))
    return .failed error

/-- Journal a projection. -/
def journal (key : String) (projected : Record) : Program Unit :=
  match eff.store with
  | none => return ()
  | some store => store.writeControl eff.branchId key (.hooked projected) eff.token

/-- Replay the model-visible projection, or journal a copy of the effect result. -/
def journalOnce (call : ToolCall) (record : Record) : Program Record := do
  let journaled ← eff.readStep (afterKey call.toolCallId)
  match journaled with
  | .done (.hooked projection) => return projection
  | .done _ => .raise (.valueError "journal completion has no recorded model-visible result")
  | _ =>
    match eff.controls with
    | none => return record
    | some plane => do
      let projected ← eff.project plane call record
      eff.journal (afterKey call.toolCallId) projected
      return projected

/-- The record a finished step answers with. -/
def stepRecord : Value → Program Record
  | .toolResult record => return record
  | _ => .raise (.other "a tool step holds no tool record")

/-- Intend, run and record one tool step that is not recorded yet. -/
def runStep (store : View) (key : String) (args : Json) (handler : Json → Program Json) :
    Program Record := do
  let inserted ← store.start eff.branchId key eff.token
  if inserted then
    eff.execute (some key) args handler
  else
    .raise (.store (.indeterminate eff.branchId key))

/-- Answer from the record, refuse to guess, or run the tool once. -/
def runOrReplay (call : ToolCall) (args : Json) (handler : Json → Program Json) :
    Program Record :=
  match eff.store with
  | none => eff.execute none args handler
  | some store => do
    let key := stepKey call.toolCallId
    let step ← store.read eff.branchId key
    match step with
    | .done value => stepRecord value
    | .running =>
      if eff.retryRunning then
        store.forget eff.branchId key eff.token
        eff.runStep store key args handler
      else
        .raise (.store (.indeterminate eff.branchId key))
    | .absent => eff.runStep store key args handler

def wrapToolExecute (call : ToolCall) (args : Json) (handler : Json → Program Json) :
    Program Json := do
  let step ← eff.runOrReplay call args handler
  let record ← eff.journalOnce call step
  match record with
  | .ok value => return value
  | .failed error => .raise (.toolFailed error)

/-! The model boundary. -/

/-- A request that raised is known not to have exposed output; a cancelled one is not. -/
def unasked (store : View) (key : String) (error : Exn) : Program ModelResponse :=
  if error = .cancelled then .raise error
  else do
    store.forget eff.branchId key eff.token
    .raise error

/-- Ask the provider once, under an intent that only a reported failure clears. -/
def requestOnce (store : View) (key : String) (request : RequestContext)
    (handler : RequestContext → Program ModelResponse) : Program ModelResponse := do
  let inserted ← store.start eff.branchId key eff.token
  if inserted then do
    let response ← (handler request).tryCatch (eff.unasked store key)
    store.finishEffect eff.branchId key (.modelResult response) eff.token
    return response
  else
    .raise (.store (.indeterminate eff.branchId key))

/-- Execute or replay one model request as a durable step. -/
def wrapModelRequest (digest : Json → String) (request : RequestContext)
    (handler : RequestContext → Program ModelResponse) : Program ModelResponse :=
  match eff.store with
  | none => handler request
  | some store => do
    let key := modelStepKey digest request
    let step ← store.read eff.branchId key
    match step with
    | .done (.modelResult response) => return response
    | .done _ => .raise (.other "a model step holds no response")
    | .running =>
      if eff.retryRunning then
        store.forget eff.branchId key eff.token
        eff.requestOnce store key request handler
      else
        .raise (.store (.indeterminate eff.branchId key))
    | .absent => eff.requestOnce store key request handler

end Effects

end Semora
