import Semora.Controls
import Semora.Lib.Safety
import Semora.Store.Calls
import Semora.Transcript.Store

/-! The operations the runtime is made of, and the world they act on: the ledger, the transcript,
the objects of the attempt in hand, and everything outside that only answers. -/

namespace Semora
open Semora.Lib Semora.Store Semora.Transcript

/-- A tool call's effect as the ledger keeps it. -/
inductive Record
  | ok (value : Json)
  | failed (error : String)
deriving DecidableEq

/-- The continuation of a parked round. -/
structure Continuation where
  calls : List (ToolCall × Request)
  messages : List ModelMessage
  completed : List (String × Json)
  rulesVersion : String
  turn : Nat
  subject : String
deriving DecidableEq

inductive SuspensionState
  | waiting
  | resuming
deriving DecidableEq

def SuspensionState.text : SuspensionState → String
  | waiting => "waiting"
  | resuming => "resuming"

/-- A live record under the active-suspension key. -/
structure Suspension where
  state : SuspensionState
  conversationId : String
  callId : String
  continuation : Continuation
  callIds : List String
  answers : List (String × Answer)
deriving DecidableEq

/-- What the runtime stores in the ledger. -/
inductive Value
  | modelResult (response : ModelResponse)
  | toolResult (record : Record)
  | hooked (record : Record)
  | pendingRound (calls : List ToolCall) (turn : Nat)
  | activeCall (callId : String)
  | suspension (active : Suspension)
  | completed (callId : String) (callIds : List String)
  | input (item : PendingInput)
deriving DecidableEq

/-- The exceptions that cross the modelled code. -/
inductive Exn
  | store (e : StoreError)
  | agentSuspended (pending : List (String × String))
  | controlSignal (text : String)
  | approvalRequired (metadata : Request)
  | callDeferred
  | modelRetry (message : String)
  | skipToolExecution (result : Json)
  | toolFailed (error : String)
  | lookupError (message : String)
  | valueError (message : String)
  | runtimeError (message : String)
  | typeError (message : String)
  /-- `asyncio.CancelledError`: a crash, not a report. -/
  | cancelled
  /-- A `BaseException` that is not an `Exception`, other than a cancellation. -/
  | exit
  | other (message : String)
deriving DecidableEq

/-- `str(error)`, for the errors whose text reaches the model. -/
def Exn.text : Exn → String
  | toolFailed m | lookupError m | valueError m | runtimeError m | typeError m | other m
  | modelRetry m | controlSignal m => m
  | store (.effectConflict b k r) =>
    "effect '" ++ k ++ "' of branch '" ++ b ++ "' cannot complete: " ++ r
  | store (.valueError m) => m
  | _ => ""

/-- Signals a tool raises before any side effect. -/
def Exn.nothingHappened : Exn → Bool
  | approvalRequired _ | callDeferred | modelRetry _ => true
  | _ => false

/-- Ledger signals, never converted into a tool result. -/
def Exn.runtimeSignal : Exn → Bool
  | agentSuspended _ | controlSignal _ => true
  | store (.indeterminate ..) | store (.fenced ..) | store (.contended ..) => true
  | _ => false

/-- Whether `except Exception` catches it. -/
def Exn.isException : Exn → Bool
  | cancelled | exit => false
  | _ => true

/-- A model request as it leaves for the provider. -/
structure RequestContext where
  modelId : String
  tools : List Json
  messages : List ModelMessage
deriving DecidableEq

/-- An attempt's chain position and what it knows of the conversation. -/
structure Branch where
  messages : List ModelMessage := []
  uuids : List Uuid := []
  parentUuid : Option Uuid := none
deriving DecidableEq

/-- The mutable objects of one attempt: the agent graph's state, the `Effects` and the
`_InputSession` fields, and the `Branch`. Of the graph, `messages` is the history and `request`
the request of the node in hand, which the history does not hold yet. `running`, `reentered` and
`closing` only observe it: the run has begun; the node in hand was taken out of the history; the
last round closed the history with its tool returns. -/
structure Attempt where
  messages : List ModelMessage := []
  request : Option ModelRequest := none
  runStep : Nat := 0
  usage : Nat × Nat := (0, 0)
  running : Bool := false
  reentered : Bool := false
  closing : Bool := false
  callsMade : List CallMade := []
  stopReason : Option StopReason := none
  turn : Nat := 0
  suspendedThisRound : Bool := false
  prefetched : List PendingInput := []
  approvalTools : List String := []
  seen : List String := []
  branch : Branch := {}
deriving DecidableEq

/-- What the model has been shown, or is about to be. -/
def Attempt.visible (a : Attempt) : List ModelMessage :=
  a.messages ++ (a.request.map ModelMessage.request).toList

/-- One operation. `ask` names the control plane asked; `get` and `modify` are the attempt's own
memory. -/
inductive Op
  | ledger (c : Call Value)
  | append (entry : Entry)
  | readEntries (conversationId : String)
  | recordBranch (branchId : String) (fields : BranchFields)
  | readBranch (branchId : String)
  | recordModelUsage (branchId model : String) (counts : UsageFields)
  | handle (call : ToolCall) (args : Json)
  | provide (request : RequestContext)
  | ask (plane : String) (question : Question)
  | uuid4
  | now
  | get
  | modify (f : Attempt → Attempt)

@[reducible] def Op.Res : Op → Type
  | ledger c => c.Reply
  | append _ => Bool
  | readEntries _ => List Entry
  | recordBranch .. => Unit
  | readBranch _ => Option BranchFields
  | recordModelUsage .. => Unit
  | handle .. => Json
  | provide _ => ModelResponse
  | ask _ q => q.Reply
  | uuid4 => String
  | now => Nat
  | get => Attempt
  | modify _ => Unit

abbrev Program := Prog Op Op.Res Exn

def perform (o : Op) : Program o.Res := .op o

/-- The attempt's own memory. -/
def attempt : Program Attempt := perform .get

def update (f : Attempt → Attempt) : Program Unit := perform (.modify f)

/-- A reading of the wall clock. -/
def now : Program Nat := perform .now

/-- The durable stores, and the instants they have seen: `instant` counts the operations made,
so that nothing outside has to answer the same question twice alike. -/
structure World where
  store : MemorySteps Value := {}
  transcript : MemoryTranscript := {}
  instant : Nat := 0
deriving DecidableEq

/-- Everything outside: tools, providers, controls, clocks and identifiers, each asked at one
instant. The lease clock never goes backwards and no identifier is handed out twice. -/
structure Outside where
  handle : Nat → ToolCall → Json → Except Exn Json
  provide : Nat → RequestContext → Except Exn ModelResponse
  ask : Nat → String → (q : Question) → Except Exn q.Reply
  clock : Nat → ℚ
  uuid4 : Nat → String
  clock_mono : ∀ n, clock n ≤ clock (n + 1)
  uuid4_fresh : ∀ n m, uuid4 n = uuid4 m → n = m
  uuid4_nonempty : ∀ n, uuid4 n ≠ ""

/-- An outside with the given answers, a clock that ticks and numbered identifiers. -/
def Outside.answering (handle : Nat → ToolCall → Json → Except Exn Json)
    (provide : Nat → RequestContext → Except Exn ModelResponse)
    (ask : Nat → String → (q : Question) → Except Exn q.Reply) : Outside where
  handle
  provide
  ask
  clock n := n
  uuid4 n := String.ofList (List.replicate (n + 1) 'f')
  clock_mono n := by simp
  uuid4_fresh n m h := by
    have hlen := congrArg (fun s => s.toList.length) h
    simpa using hlen
  uuid4_nonempty n h := by
    have hlen := congrArg (fun s => s.toList.length) h
    simp at hlen

/-- An outside of which nothing is asked. -/
def Outside.unasked : Outside :=
  .answering (fun _ _ _ => .ok .null) (fun _ _ => .ok { parts := [] })
    (fun _ _ _ => .error (.other "not asked"))

/-- What one operation replies, and what it leaves of the world and of the attempt's memory. -/
def step (out : Outside) (o : Op) (w : World) (a : Attempt) : Except Exn o.Res × World × Attempt :=
  let w' := { w with instant := w.instant + 1 }
  match o with
  | .ledger c =>
    let done := c.exec (out.clock w.instant) (out.clock (w.instant + 1)) w.store
    (done.1.mapError .store, { w' with store := done.2 }, a)
  | .append e => (.ok (w.transcript.append e).1,
      { w' with transcript := (w.transcript.append e).2 }, a)
  | .readEntries c => (.ok (w.transcript.read c), w', a)
  | .recordBranch b fields =>
    (.ok (), { w' with transcript := w.transcript.recordBranch b fields }, a)
  | .readBranch b => (.ok (w.transcript.readBranch b), w', a)
  | .recordModelUsage b m counts =>
    (.ok (), { w' with transcript := w.transcript.recordModelUsage b m counts }, a)
  | .handle call args => (out.handle w.instant call args, w', a)
  | .provide r => (out.provide w.instant r, w', a)
  | .ask plane q => (out.ask w.instant plane q, w', a)
  | .uuid4 => (.ok (out.uuid4 w.instant), w', a)
  | .now => (.ok w.instant, w', a)
  | .get => (.ok a, w', a)
  | .modify f => (.ok (), w', f a)

theorem step_instant (out : Outside) (o : Op) (w : World) (a : Attempt) :
    (step out o w a).2.1.instant = w.instant + 1 := by
  cases o <;> rfl

end Semora
