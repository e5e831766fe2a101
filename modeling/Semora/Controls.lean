import Semora.Messages

/-! The decisions a control plane is asked for, and the signals that stop an attempt. -/

namespace Semora

/-- Why a run ended. -/
inductive StopReason
  | completed
  | aborted
  | tool
  | policy
  | suspended
deriving DecidableEq

def StopReason.text : StopReason → String
  | completed => "completed"
  | aborted => "aborted"
  | tool => "tool"
  | policy => "policy"
  | suspended => "suspended"

/-- One queued request part plus the provenance a bare part cannot preserve. -/
structure PendingInput where
  kind : String
  part : RequestPart
  originId : Option String := none
deriving DecidableEq

/-- What a gate asks a person. It must carry a `pendingId`. -/
structure Request where
  pendingId : Option String
  fields : List (String × Json) := []
deriving DecidableEq

/-- A person's answer: `type` `"error"` denies, `args` replaces the model's arguments. -/
structure Answer where
  type : Option String := none
  message : Option String := none
  args : Option (List (String × Json)) := none
  fields : List (String × Json) := []
deriving DecidableEq

/-- One call an attempt made, as controls are shown it. -/
structure CallMade where
  call : ToolCall
  refused : Bool
deriving DecidableEq

/-- The run context every control point is given. -/
structure Ctx where
  turn : Nat
  messages : List ModelMessage
  callsMade : List CallMade
  text : String
  subject : String
deriving DecidableEq

inductive ToolDecision
  | continue
  | deny (result : Json)
  | suspend (request : Request)
deriving DecidableEq

namespace ToolDecision

def denies : ToolDecision → Bool
  | .deny _ => true
  | _ => false

def asks : ToolDecision → Option Request
  | .suspend request => some request
  | _ => none

end ToolDecision

/-- A permission stage: a named function of context and call, or `Permissions` over stages. -/
inductive PreToolUse
  | gate (name : String) (decide : Ctx → ToolCall → ToolDecision)
  | permissions (stages : List PreToolUse)

mutual

/-- What a stage decides of a call, and the stages that were asked for it, in order. -/
def PreToolUse.decision (ctx : Ctx) (call : ToolCall) : PreToolUse → ToolDecision × List String
  | .gate name decide => (decide ctx call, [name])
  | .permissions stages => evaluate ctx call none stages

/-- Evaluate all stages needed to produce the final decision: a denial ends it, and of the
suspensions the first is remembered. -/
def PreToolUse.evaluate (ctx : Ctx) (call : ToolCall) (asked : Option Request) :
    List PreToolUse → ToolDecision × List String
  | [] =>
    (match asked with
      | some request => .suspend request
      | none => .continue, [])
  | stage :: stages =>
    let (decision, names) := stage.decision ctx call
    match decision with
    | .deny result => (.deny result, names)
    | .suspend request =>
      let (decision, more) := evaluate ctx call (asked.or (some request)) stages
      (decision, names ++ more)
    | .continue =>
      let (decision, more) := evaluate ctx call asked stages
      (decision, names ++ more)

end

/-- An answer and the policy versions needed for revalidation. -/
structure ResumeInput where
  answer : Answer
  request : Request
  suspendedRulesVersion : String
  currentRulesVersion : String
deriving DecidableEq

inductive TurnDecision
  | proceed (steers : List RequestPart)
  | halt (reason : StopReason)
deriving DecidableEq

inductive Screened
  | inputs (items : List PendingInput)
  | halt (reason : StopReason)
deriving DecidableEq

/-- One control point asked, with its arguments. -/
inductive Question
  | onInputs (ctx : Ctx) (inputs : List PendingInput)
  | beforeModel (ctx : Ctx)
  | preToolUse (ctx : Ctx) (call : ToolCall)
  | postToolUse (ctx : Ctx) (call : ToolCall) (result : Json)
  | beforeFinish (ctx : Ctx) (reason : StopReason)
  | onResume (ctx : Ctx) (call : ToolCall) (resume : ResumeInput)
  | onSuspend (ctx : Ctx) (call : ToolCall) (request : Request) (snapshot : List ModelMessage)
      (completed : List (String × Json))
deriving DecidableEq

/-- What each control point returns. `post_tool_use` may rewrite the result it is given in place:
its reply is the value it leaves there. -/
@[reducible] def Question.Reply : Question → Type
  | onInputs .. => Screened
  | beforeModel .. => TurnDecision
  | preToolUse .. => ToolDecision
  | postToolUse .. => Json
  | beforeFinish .. => TurnDecision
  | onResume .. => ToolDecision
  | onSuspend .. => Unit

end Semora
