import Semora.Effects.Turn

/-! The agent graph that drives the hooks. What Pydantic AI decides on its own, from the messages
alone, is a parameter; the order in which it enters nodes and calls hooks is written out. -/

namespace Semora
open Semora.Lib Semora.Store

/-- What became of one call of a round. -/
inductive CallOutcome
  | returned (value : Json)
  | failed (error : String)
  | skipped (result : Json)
  | denied (message : String)
  | retry (message : String)
  | approval (metadata : Request)
  | deferred
deriving DecidableEq

/-- What a round of calls leads to. `appended` is what the graph adds to the history as it ends. -/
inductive Settled
  | next (parts : List RequestPart)
  | finish (output : Output) (appended : List ModelMessage)
deriving DecidableEq

/-- Pydantic AI with one agent's model and tools. -/
structure PydanticAI where
  /-- The digest of a canonical JSON text. -/
  digest : Json → String
  modelId : String
  tools : List Json
  /-- The tools declared `requires_approval=True`. -/
  unapproved : List String
  /-- The history to keep and the first node, from the history, the prompt and the decisions a
  run is given. -/
  enter : List ModelMessage → Option Json → DeferredToolResults → Except Exn (List ModelMessage × Node)
  /-- The calls a round runs, with the decision about each that has one. -/
  round : ModelResponse → List ModelMessage → DeferredToolResults → List (ToolCall × Option Approval)
  /-- The arguments a call runs with, or why they are refused. -/
  validate : ToolCall → Option (List (String × Json)) → Except String Json
  /-- Run the calls of a round, one after the other or side by side. -/
  gather : List (Program (ToolCall × CallOutcome)) → Program (List (ToolCall × CallOutcome))
  settle : ModelResponse → List (ToolCall × CallOutcome) → List ModelMessage → Except Exn Settled
  /-- The usage limits bound a run; here they bound the nodes it goes through. -/
  nodeLimit : Nat

namespace PydanticAI

section
variable (ai : PydanticAI)

def requestContext (messages : List ModelMessage) : RequestContext :=
  ⟨ai.modelId, ai.tools, messages⟩

/-- Route every tool that asks for approval through the gate. -/
def prepareTools : Program Unit :=
  update (fun a => { a with approvalTools := ai.unapproved })

end

/-- How a raised signal answers its call; any other exception ends the run. -/
def caught (call : ToolCall) : Exn → Program (ToolCall × CallOutcome)
  | .skipToolExecution result => return (call, .skipped result)
  | .approvalRequired metadata => return (call, .approval metadata)
  | .callDeferred => return (call, .deferred)
  | .modelRetry message => return (call, .retry message)
  | .toolFailed error => return (call, .failed error)
  | error => .raise error

/-- One call through the hooks. -/
def throughHooks (eff : Effects) (approved : Bool) (call : ToolCall) (args : Json) :
    Program (ToolCall × CallOutcome) :=
  (do
    let args ← eff.beforeToolExecute approved call args
    let value ← eff.wrapToolExecute call args (fun args => perform (.handle call args))
    return (call, CallOutcome.returned value)).tryCatch (caught call)

section
variable (ai : PydanticAI) (eff : Effects)

/-- One call of a round: a denial is its answer, the rest runs behind the hooks. -/
def executeCall (call : ToolCall) (approval : Option Approval) : Program (ToolCall × CallOutcome) :=
  match approval with
  | some (.denied message) => return (call, .denied message)
  | some (.approved override) =>
    match ai.validate call override with
    | .error message => return (call, .retry message)
    | .ok args => throughHooks eff true call args
  | none =>
    match ai.validate call none with
    | .error message => return (call, .retry message)
    | .ok args => throughHooks eff false call args

/-- Where the run begins. -/
def enterNode (prompt : Option Json) (results : DeferredToolResults) : Program NodeResult := do
  let a ← attempt
  match ai.enter a.messages prompt results with
  | .error error => .raise error
  | .ok (messages, node) =>
    let request := match node with
      | .modelRequest request => some request
      | _ => none
    let reentered := match node with
      | .callTools .. => true
      | _ => messages.length < a.messages.length
    update (fun a => { a with messages, request, reentered })
    ai.prepareTools
    return .node node

/-- Append the request to the history, ask the model, append its response. Adjacent requests go to
the model as they are: Pydantic AI joins them into one before the hooks see them, which leaves the
last request and the parts at its end where they are. -/
def requestNode (request : ModelRequest) : Program NodeResult := do
  update (fun a => { a with
    messages := a.messages ++ [.request request]
    request := none
    reentered := false
    runStep := a.runStep + 1 })
  ai.prepareTools
  let a ← attempt
  let response ← eff.wrapModelRequest ai.digest (ai.requestContext a.messages)
    (fun request => perform (.provide request))
  update (fun a => { a with
    messages := a.messages ++ [.response response]
    usage := (a.usage.1 + response.inputTokens, a.usage.2 + response.outputTokens) })
  return .node (.callTools response [])

/-- Run the round's calls and settle what they lead to. -/
def callToolsNode (response : ModelResponse) (results : DeferredToolResults) :
    Program NodeResult := do
  let a ← attempt
  let outcomes ← ai.gather ((ai.round response a.messages results).map
    (fun item => ai.executeCall eff item.1 item.2))
  match ai.settle response outcomes a.messages with
  | .error error => .raise error
  | .ok (.next parts) => return .node (.modelRequest { parts })
  | .ok (.finish output appended) =>
    update (fun a => { a with
      messages := a.messages ++ appended
      closing := a.closing || !appended.isEmpty })
    return .finish output

/-- What a node does when its wrapper lets it run. -/
def runNode (prompt : Option Json) (results : DeferredToolResults) : Node → Program NodeResult
  | .userPrompt => ai.enterNode prompt results
  | .modelRequest request => ai.requestNode eff request
  | .callTools response results => ai.callToolsNode eff response results

/-- Take the next node in hand. -/
def advance (next : Node) : Program Unit :=
  update (fun a => match next with
    | .modelRequest request => if a.request.isSome then a else
        { a with request := some request, reentered := false }
    | _ => a)

def iterate (prompt : Option Json) (results : DeferredToolResults) :
    Nat → Node → Program Output
  | 0, _ => .raise (.other "the next request would exceed the request limit")
  | fuel + 1, node => do
    let result ← eff.wrapNodeRun node (ai.runNode eff prompt results)
    match result with
    | .finish output => return output
    | .node next => do
      advance next
      iterate prompt results fuel next

/-- One run of the agent over a history. -/
def run (prompt : Option Json) (history : List ModelMessage) (results : DeferredToolResults) :
    Program Output := do
  update (fun a => { a with messages := history, running := true })
  let output ← ai.iterate eff prompt results ai.nodeLimit .userPrompt
  update (fun a => { a with request := none, reentered := false, closing := false })
  return output

end

/-! The plainest agent: calls run in order, everything validates, text ends a run. -/

namespace Standard

/-- Where a run begins: a new request for a prompt; without one, the round a history still owes,
or its trailing request again. -/
def enter (history : List ModelMessage) (prompt : Option Json) (results : DeferredToolResults) :
    Except Exn (List ModelMessage × Node) :=
  match prompt, latestResponse history, history.getLast? with
  | some text, _, _ =>
    if unansweredToolCalls history ≠ [] then
      .error (.other "the message history contains unprocessed tool calls")
    else .ok (history, .modelRequest { parts := [.userPrompt text .null] })
  | none, some (response, []), _ => .ok (history, .callTools response results)
  | none, some (response, _), some (.request request) =>
    if results = [] then .ok (history.dropLast, .modelRequest request)
    else .ok (history, .callTools response results)
  | none, none, some (.request request) => .ok (history.dropLast, .modelRequest request)
  | _, _, _ => .error (.other "no prompt and no history")

/-- The calls still open, or those a person decided about. -/
def round (response : ModelResponse) (messages : List ModelMessage) (results : DeferredToolResults) :
    List (ToolCall × Option Approval) :=
  (response.calls.filter (fun call => call ∈ unansweredToolCalls messages)).map
    (fun call => (call, fetch call.toolCallId results))

/-- Run one call after the other. -/
def gather : List (Program (ToolCall × CallOutcome)) → Program (List (ToolCall × CallOutcome))
  | [] => return []
  | call :: calls => do
    let outcome ← call
    let outcomes ← gather calls
    return outcome :: outcomes

/-- The part that answers a call, if the model gets an answer. -/
def answer : ToolCall × CallOutcome → Option RequestPart
  | (call, .returned value) => some (.toolReturn call.toolName value call.toolCallId .null)
  | (call, .failed error) => some (.toolReturn call.toolName (.str error) call.toolCallId .null)
  | (call, .skipped result) => some (.toolReturn call.toolName result call.toolCallId .null)
  | (call, .denied message) => some (.toolReturn call.toolName (.str message) call.toolCallId .null)
  | (call, .retry message) => some (.other "retry-prompt"
      [("content", .str message), ("tool_call_id", .str call.toolCallId)])
  | (_, .approval _) | (_, .deferred) => none

def parked (outcomes : List (ToolCall × CallOutcome)) : DeferredToolRequests where
  calls := outcomes.filterMap (fun
    | (call, .deferred) => some call
    | _ => none)
  approvals := outcomes.filterMap (fun
    | (call, .approval _) => some call
    | _ => none)
  metadata := outcomes.filterMap (fun
    | (call, .approval request) => some (call.toolCallId, request)
    | _ => none)

def settle (response : ModelResponse) (outcomes : List (ToolCall × CallOutcome))
    (_ : List ModelMessage) : Except Exn Settled :=
  let answers := outcomes.filterMap answer
  let appended : List ModelMessage := if answers = [] then [] else [.request { parts := answers }]
  if outcomes.any (fun item => (answer item).isNone) then
    .ok (.finish (.deferred (parked outcomes)) appended)
  else if answers = [] then
    .ok (.finish (.text (String.join (response.parts.filterMap ResponsePart.text?))) [])
  else .ok (.next answers)

end Standard

def standard (digest : Json → String) (unapproved : List String) (nodeLimit : Nat) : PydanticAI where
  digest
  modelId := "model"
  tools := []
  unapproved
  enter := Standard.enter
  round := Standard.round
  validate call override := .ok (match override with
    | some args => .dict args
    | none => call.args)
  gather := Standard.gather
  settle := Standard.settle
  nodeLimit

end PydanticAI

end Semora
