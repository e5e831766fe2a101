import Semora.Effects.Boundary

/-! The turn-level control points, around the graph's nodes. -/

namespace Semora
open Semora.Lib Semora.Store Semora.Transcript

/-! The durable input queue, as one leased attempt drains it. -/

namespace InputSession

variable (store : View) (branchId : String) (token : Nat)

def decodeInput : Value → Program PendingInput
  | .input item => return item
  | _ => .raise (.other "an input row holds no input")

/-- Whether a row is passed over: decided, in history already, or claimed by this attempt. -/
def skipped (represented seen : List String) (row : InputRecord Value) : Bool :=
  row.status = .discarded ∨ row.status = .admitted ∨ row.inputId ∈ represented ∨ row.inputId ∈ seen

def claimRows (represented : List String) :
    List (InputRecord Value) → Program (List PendingInput)
  | [] => return []
  | row :: rows => do
    let a ← attempt
    if skipped represented a.seen row then
      claimRows represented rows
    else
      store.claimInput branchId row.inputId token
      update (fun a => { a with seen := a.seen ++ [row.inputId] })
      let item ← decodeInput row.value
      let items ← claimRows represented rows
      return item :: items

/-- Claim inputs not already represented in model-visible history. -/
def claim (represented : List String) : Program (List PendingInput) := do
  let rows ← store.listInputs branchId
  claimRows store branchId token represented rows

def originIds (items : List PendingInput) : List String := items.filterMap PendingInput.originId

def admit_ (items : List PendingInput) : Program Unit :=
  if originIds items = [] then return ()
  else store.admitInputs branchId (originIds items) token

def discard (items : List PendingInput) : Program Unit :=
  if originIds items = [] then return ()
  else store.discardInputs branchId (originIds items) token

end InputSession

namespace Effects

variable (eff : Effects)

/-- End the run here, with the text so far. -/
def halt (reason : StopReason) : Program NodeResult := do
  update (fun a => { a with stopReason := some reason })
  let a ← attempt
  return .finish (.text (lastText a.messages))

/-- The queued inputs for this boundary: those a finish already claimed, then the queue's. -/
def drain : Program (List PendingInput) := do
  let a ← attempt
  update (fun a => { a with prefetched := [] })
  match eff.inputs with
  | none => return a.prefetched
  | some store => do
    let claimed ← InputSession.claim store eff.branchId eff.token (representedInputs a.messages)
    return a.prefetched ++ claimed

/-- The request's own user parts as inputs. -/
def userInputs (request : ModelRequest) : List PendingInput :=
  (request.parts.filter RequestPart.isUserPrompt).map (fun part => ⟨"user", part, none⟩)

/-- The pending inputs a screen removed for good. -/
def dropped (pending screened : List PendingInput) : List PendingInput :=
  pending.filter (fun item => match item.originId with
    | none => false
    | some id => id ≠ "" ∧ id ∉ InputSession.originIds screened)

/-- Ask `on_inputs`, and discard what it dropped. -/
def screen (plane : String) (here : Ctx) (pending inputs : List PendingInput) :
    Program Screened :=
  if inputs = [] then return .inputs []
  else do
    let answer ← ask plane (.onInputs here inputs)
    match answer, eff.inputs with
    | .inputs screened, some store =>
      InputSession.discard store eff.branchId eff.token (dropped pending screened)
      return .inputs screened
    | answer, _ => return answer

/-- The context a boundary decides on: the history, and the request unless it ends with it. -/
def boundaryCtx (request : ModelRequest) : Program Ctx := do
  let a ← attempt
  eff.ctx (if a.messages.getLast? = some (.request request) then [] else [.request request])

/-- What enters context at this boundary, and the steers behind it: screened before
`before_model` is asked. -/
def steered (request : ModelRequest) (pending : List PendingInput) :
    Program (Except StopReason (List PendingInput × List RequestPart)) :=
  let inputs := userInputs request ++ pending
  match eff.controls with
  | none => return .ok (inputs, [])
  | some plane => do
    let here ← eff.boundaryCtx request
    let screened ← eff.screen plane here pending inputs
    match screened with
    | .halt reason => return .error reason
    | .inputs inputs => do
      let decision ← ask plane (.beforeModel here)
      match decision with
      | .halt reason => return .error reason
      | .proceed steers => return .ok (inputs, steers)

/-- The request rewritten in place: its user parts give way to the inputs and the steers. -/
def rewritten (request : ModelRequest) (inputs : List PendingInput) (steers : List RequestPart) :
    ModelRequest :=
  { request with
    parts := request.parts.filter (fun part => !part.isUserPrompt) ++
      inputs.map PendingInput.part ++ steers
    metadata :=
      if InputSession.originIds inputs = [] then request.metadata
      else some { request.metadata.getD {} with inputIds := some (InputSession.originIds inputs) } }

/-- Persist one message in the shape the model sees it. -/
def recordMessage (message : ModelMessage) : Program Unit :=
  match eff.record with
  | none => return ()
  | some recorder => Branch.append recorder.conversation [message]

/-- Mark the queued inputs of a boundary admitted. -/
def admitInputs (inputs : List PendingInput) : Program Unit :=
  match eff.inputs with
  | none => return ()
  | some store => InputSession.admit_ store eff.branchId eff.token inputs

/-- Screen, steer, and commit one ordered input group at the model boundary. -/
def admit_ (request : ModelRequest) (handler : Node → Program NodeResult) :
    Program NodeResult := do
  let pending ← eff.drain
  let decision ← eff.steered request pending
  match decision with
  | .error reason => halt reason
  | .ok (inputs, steers) => do
    let request := rewritten request inputs steers
    update (fun a => { a with request := some request })
    eff.recordMessage (.request request)
    eff.admitInputs inputs
    handler (.modelRequest request)

/-- Commit call order before the first policy check or external effect. -/
def recordPending (response : ModelResponse) : Program Unit := do
  let a ← attempt
  match eff.store with
  | none => return ()
  | some store =>
    if response.calls = [] then return ()
    else
      store.writeControl eff.branchId Effects.pendingRound
        (.pendingRound response.calls a.runStep) eff.token

/-- Claim what was queued while the turn was finishing. -/
def lateInputs : Program (List PendingInput) := do
  let a ← attempt
  match eff.inputs with
  | none => return []
  | some store => InputSession.claim store eff.branchId eff.token (representedInputs a.messages)

/-- A verifier that says "not done yet" gets another round. A parked run is not a finish. -/
def decideFinish : NodeResult → Program NodeResult
  | .node next => return .node next
  | .finish output =>
    if output.isDeferred then return .finish output
    else do
      let late ← eff.lateInputs
      if late ≠ [] then
        -- The steer cancels the stop; it is committed only beside the next model call.
        update (fun a => { a with prefetched := late })
        return .node (.modelRequest { parts := [] })
      else
        match eff.controls with
        | none => do
          update (fun a => { a with stopReason := some .completed })
          return .finish output
        | some plane => do
          let here ← eff.ctx []
          let decision ← ask plane (.beforeFinish here .completed)
          match decision with
          | .proceed steers => return .node (.modelRequest { parts := steers })
          | .halt reason => do
            update (fun a => { a with stopReason := some reason })
            return .finish output

/-- Record the assistant turn of a round that did not park. After the round, never before. -/
def recordTurn (response : ModelResponse) : NodeResult → Program Unit
  | .finish (.deferred _) => return ()
  | _ => eff.recordMessage (.response response)

/-- Admit inputs, steer the model, record the round, and verify the finish. -/
def wrapNodeRun (node : Node) (handler : Node → Program NodeResult) : Program NodeResult := do
  update (fun a => { a with turn := a.runStep })
  match node with
  | .modelRequest request => eff.admit_ request handler
  | .callTools response _ => do
    update (fun a => { a with suspendedThisRound := false })
    eff.recordPending response
    let result ← handler node
    eff.recordTurn response result
    eff.decideFinish result
  | .userPrompt => handler node

end Effects

end Semora
