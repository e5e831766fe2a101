import Semora.Json

/-! Model messages, as far as the runtime looks into them. -/

namespace Semora
open Semora.Lib

/-- One model-issued tool call. Its `toolCallId` names its durable step. -/
structure ToolCall where
  toolName : String
  args : Json
  toolCallId : String
deriving DecidableEq

inductive RequestPart
  | userPrompt (content : Json) (timestamp : Json)
  | toolReturn (toolName : String) (content : Json) (toolCallId : String) (timestamp : Json)
  /-- A retry prompt, a system prompt, or any other part nothing here looks into. -/
  | other (kind : String) (fields : List (String × Json))
deriving DecidableEq

inductive ResponsePart
  | text (content : String)
  | toolCall (call : ToolCall)
  /-- A thinking part, or any other part nothing here looks into. -/
  | other (kind : String) (fields : List (String × Json))
deriving DecidableEq

/-- `ModelRequest.metadata`: the queued inputs the request carried, and what others keep there. -/
structure Metadata where
  inputIds : Option (List String) := none
  rest : List (String × Json) := []
deriving DecidableEq

/-- `fields` are the remaining fields, by name: the instructions, and what Pydantic AI stamps. -/
structure ModelRequest where
  parts : List RequestPart
  metadata : Option Metadata := none
  fields : List (String × Json) := []
deriving DecidableEq

structure ModelResponse where
  parts : List ResponsePart
  modelName : Option String := none
  inputTokens : Nat := 0
  outputTokens : Nat := 0
  fields : List (String × Json) := []
deriving DecidableEq

inductive ModelMessage
  | request (r : ModelRequest)
  | response (r : ModelResponse)
deriving DecidableEq

namespace ToolCall

def encode (call : ToolCall) : List (String × Json) :=
  [("tool_name", .str call.toolName), ("args", call.args), ("tool_call_id", .str call.toolCallId)]

end ToolCall

namespace RequestPart

def encode : RequestPart → Json
  | userPrompt content timestamp =>
    .dict [("content", content), ("timestamp", timestamp), ("part_kind", .str "user-prompt")]
  | toolReturn toolName content callId timestamp =>
    .dict [("tool_name", .str toolName), ("content", content), ("tool_call_id", .str callId),
      ("timestamp", timestamp), ("part_kind", .str "tool-return")]
  | other kind fields => .dict (fields ++ [("part_kind", .str kind)])

def isUserPrompt : RequestPart → Bool
  | userPrompt .. => true
  | _ => false

end RequestPart

namespace ResponsePart

def encode : ResponsePart → Json
  | text content => .dict [("content", .str content), ("part_kind", .str "text")]
  | toolCall call => .dict (call.encode ++ [("part_kind", .str "tool-call")])
  | other kind fields => .dict (fields ++ [("part_kind", .str kind)])

def call? : ResponsePart → Option ToolCall
  | toolCall call => some call
  | _ => none

def text? : ResponsePart → Option String
  | text content => some content
  | _ => none

end ResponsePart

def Metadata.encode (m : Metadata) : Json :=
  .dict (match m.inputIds with
    | none => m.rest
    | some ids => m.rest ++ [("input_ids", .list (ids.map .str))])

/-- `to_jsonable_python(message)`. -/
def encodeMessage : ModelMessage → Json
  | .request r =>
    .dict ([("parts", .list (r.parts.map RequestPart.encode)), ("kind", .str "request"),
      ("metadata", match r.metadata with
        | none => .null
        | some m => m.encode)] ++ r.fields)
  | .response r =>
    .dict ([("parts", .list (r.parts.map ResponsePart.encode)), ("kind", .str "response"),
      ("model_name", match r.modelName with
        | none => .null
        | some name => .str name),
      ("usage", .dict [("input_tokens", .int r.inputTokens),
        ("output_tokens", .int r.outputTokens)])] ++ r.fields)

/-- Message fields excluded from deterministic entry identifiers. -/
def volatile : List String :=
  ["timestamp", "run_id", "branch_id", "conversation_id", "usage", "provider_details",
    "provider_response_id", "provider_name", "provider_url", "finish_reason", "model_name"]

/-- Remove fields that vary across equivalent conversation replays. -/
def stripped (value : Json) : Json := value.without volatile

/-- Two messages are the same up to volatile fields: how `Branch.replace` compares them. -/
def same (m m' : ModelMessage) : Prop :=
  (stripped (encodeMessage m)).eqv (stripped (encodeMessage m'))

instance (m m' : ModelMessage) : Decidable (same m m') := inferInstanceAs (Decidable (Json.eqv _ _))

@[refl] theorem same.refl (m : ModelMessage) : same m m := rfl

@[symm] theorem same.symm {m m' : ModelMessage} (h : same m m') : same m' m := Eq.symm h

theorem same.trans {m m' m'' : ModelMessage} (h : same m m') (h' : same m' m'') : same m m'' :=
  Eq.trans h h'

/-- The calls a response asks for, in order. -/
def ModelResponse.calls (r : ModelResponse) : List ToolCall := r.parts.filterMap ResponsePart.call?

/-- The call ids a message returns a tool result for. -/
def returnedIds : ModelMessage → List String
  | .request r => r.parts.filterMap (fun
    | .toolReturn _ _ id _ => some id
    | _ => none)
  | .response _ => []

/-- Split a history at its latest model response: the response, and the messages after it. -/
def latestResponse : List ModelMessage → Option (ModelResponse × List ModelMessage)
  | [] => none
  | message :: later =>
    match latestResponse later with
    | some found => some found
    | none =>
      match message with
      | .response r => some (r, later)
      | .request _ => none

/-- Calls in the latest model response that have no following tool return. -/
def unansweredToolCalls (history : List ModelMessage) : List ToolCall :=
  match latestResponse history with
  | none => []
  | some (r, later) => r.calls.filter (fun call => call.toolCallId ∉ later.flatMap returnedIds)

/-- Results of the calls that completed in the latest round, in model order. -/
def roundResults (messages : List ModelMessage) : List (String × Json) :=
  match latestResponse messages with
  | none => []
  | some (_, later) => later.flatMap (fun
    | .request r => r.parts.filterMap (fun
      | .toolReturn _ content id _ => some (id, content)
      | _ => none)
    | .response _ => [])

/-- Queued inputs already in model-visible history, by the request that carried them. -/
def representedInputs (messages : List ModelMessage) : List String :=
  messages.flatMap (fun
    | .request r => ((r.metadata.getD {}).inputIds).getD []
    | .response _ => [])

/-- The text of the latest response. -/
def lastText (messages : List ModelMessage) : String :=
  match latestResponse messages with
  | none => ""
  | some (r, _) => String.join (r.parts.filterMap ResponsePart.text?)

end Semora
