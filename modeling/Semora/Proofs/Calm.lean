import Semora.Proofs.Operations
import Semora.Proofs.Own

/-! The requests a thread has made or replayed, and the counts it has written, apart from all else
that an attempt does. -/

namespace Semora.Proofs.Usage
open Semora.Lib Semora.Store Semora.Transcript

/-! What a thread has done. -/

def isModelKey (key : String) : Bool := "agent:model:".toList.isPrefixOf key.toList

/-- The responses of the requests made to the provider. -/
def made (did : List Done) : List ModelResponse :=
  did.filterMap (fun
    | ⟨.provide _, .ok response⟩ => some response
    | _ => none)

/-- The responses heard: those of the requests made and those replayed from the ledger. -/
def heardOf : Done → Option ModelResponse
  | ⟨.provide _, .ok response⟩ => some response
  | ⟨.ledger (.read _ key), .ok (.done (.modelResult response))⟩ =>
    if isModelKey key then some response else none
  | _ => none

def heard (did : List Done) : List ModelResponse := did.filterMap heardOf

def wroteOf (branchId : String) : Done → Option (String × UsageFields)
  | ⟨.recordModelUsage b model counts, _⟩ => if b = branchId then some (model, counts) else none
  | _ => none

/-- The counts written to the branch. -/
def wrote (branchId : String) (did : List Done) : List (String × UsageFields) :=
  did.filterMap (wroteOf branchId)

theorem isModelKey_modelKey (digest : String) : isModelKey (Effects.modelKey digest) = true := by
  simp [isModelKey, Effects.modelKey]

theorem isModelKey_stepKey (id : String) : isModelKey (Effects.stepKey id) = false := by
  simp [isModelKey, Effects.stepKey, List.isPrefixOf]

theorem isModelKey_afterKey (id : String) : isModelKey (Effects.afterKey id) = false := by
  simp [isModelKey, Effects.afterKey, List.isPrefixOf]

/-- The operation neither makes nor replays a request, and writes no counts. -/
def Still : Op → Prop
  | .provide _ | .recordModelUsage .. => False
  | .ledger (.read _ key) => isModelKey key = false
  | _ => True

/-- Neither does it change what the attempt counts, or its messages. -/
def Calm : Op → Prop
  | .modify f => ∀ a, (f a).usage = a.usage ∧ (f a).messages = a.messages
  | o => Still o

theorem still_heard {o : Op} (h : Still o) (r : Except Exn o.Res) : heardOf ⟨o, r⟩ = none := by
  cases o with
  | provide request => exact False.elim h
  | ledger c =>
    cases c with
    | read b key =>
      have hkey : isModelKey key = false := h
      cases r with
      | error e => rfl
      | ok step =>
        cases step with
        | done value => cases value <;> simp [heardOf, hkey]
        | _ => rfl
    | _ => rfl
  | _ => rfl

theorem still_wrote (branchId : String) {o : Op} (h : Still o) (r : Except Exn o.Res) :
    wroteOf branchId ⟨o, r⟩ = none := by
  cases o with
  | recordModelUsage b model counts => exact False.elim h
  | _ => rfl

theorem Calm.still {o : Op} (h : Calm o) : Still o := by
  cases o with
  | modify f => trivial
  | _ => exact h

/-! What an attempt does besides its requests. -/

section
variable {eff : Effects}

theorem calm_op {o : Op} (h : Calm o) : (perform o).AllOps Calm := (Prog.allOps_op o).mpr h

theorem calm_update {f : Attempt → Attempt}
    (h : ∀ a, (f a).usage = a.usage ∧ (f a).messages = a.messages) : (update f).AllOps Calm :=
  calm_op h

theorem calm_attempt : attempt.AllOps Calm := calm_op trivial

theorem calm_ctx (messages : List ModelMessage) : (eff.ctx messages).AllOps Calm :=
  Prog.allOps_bind calm_attempt (fun _ => trivial)

theorem calm_ask (plane : String) (q : Question) : (Effects.ask plane q).AllOps Calm :=
  calm_op trivial

/-! The tool boundary. -/

theorem calm_readStep {key : String} (h : isModelKey key = false) :
    (eff.readStep key).AllOps Calm := by
  unfold Effects.readStep
  split
  · trivial
  · exact calm_op h

theorem calm_verdict (approved : Bool) (call : ToolCall) (args : Json) :
    (eff.verdict approved call args).AllOps Calm := by
  have hreplayed : (eff.replayed call).AllOps Calm := by
    unfold Effects.replayed
    split
    · trivial
    · exact Prog.allOps_bind (calm_readStep (isModelKey_stepKey _)) (fun _ => trivial)
  have hresume : ∀ here call, (eff.resumeDecision here call).AllOps Calm := by
    intro here call
    unfold Effects.resumeDecision
    split
    · exact calm_ask _ _
    · trivial
  have hgate : ∀ here, (eff.gate here call).AllOps Calm := by
    intro here
    have hpolicy : (eff.policy here call).AllOps Calm := by
      unfold Effects.policy
      split
      · trivial
      · exact calm_ask _ _
    exact Prog.allOps_bind hpolicy (fun _ => Prog.allOps_bind calm_attempt (fun _ => trivial))
  apply Prog.allOps_bind (calm_ctx _)
  intro here
  apply Prog.allOps_bind hreplayed
  intro replayed
  split
  · trivial
  · split
    · exact Prog.allOps_bind (hresume _ _) (fun _ => trivial)
    · exact Prog.allOps_bind (hgate _) (fun _ => trivial)

theorem calm_enforce (call : ToolCall) (args : Json) (decision : ToolDecision) :
    (Effects.enforce call args decision).AllOps Calm := by
  have hmade : ∀ refused, (Effects.made call refused).AllOps Calm :=
    fun refused => calm_update (fun _ => ⟨rfl, rfl⟩)
  unfold Effects.enforce
  split
  · exact Prog.allOps_bind (hmade true) (fun _ => trivial)
  · split
    · trivial
    · apply Prog.allOps_bind
      · exact calm_update (fun _ => ⟨rfl, rfl⟩)
      intro _
      exact Prog.allOps_bind (hmade true) (fun _ => trivial)
  · exact Prog.allOps_bind (hmade false) (fun _ => trivial)

theorem calm_execute (call : ToolCall) (key : Option String) (args : Json) :
    (eff.execute key args (fun args => perform (.handle call args))).AllOps Calm := by
  have hclear : (eff.clearIntent key).AllOps Calm := by
    unfold Effects.clearIntent
    split
    · exact calm_op trivial
    · trivial
  have hfinish : ∀ record, (eff.finishStep key record).AllOps Calm := by
    intro record
    unfold Effects.finishStep
    split
    · exact calm_op trivial
    · trivial
  apply Prog.allOps_bind
  · apply Prog.allOps_tryCatch
    · exact Prog.allOps_bind (calm_op trivial) (fun _ => trivial)
    · intro error
      unfold Effects.caught
      split
      · exact Prog.allOps_bind hclear (fun _ => trivial)
      · split <;> trivial
  · intro record
    exact Prog.allOps_bind (hfinish record) (fun _ => trivial)

theorem calm_runOrReplay (call : ToolCall) (args : Json) :
    (eff.runOrReplay call args (fun args => perform (.handle call args))).AllOps Calm := by
  have hrun : ∀ v key, (eff.runStep v key args
      (fun args => perform (.handle call args))).AllOps Calm := by
    intro v key
    apply Prog.allOps_bind
    · exact calm_op trivial
    intro inserted
    split
    · exact calm_execute call _ args
    · trivial
  unfold Effects.runOrReplay
  split
  · exact calm_execute call none args
  · apply Prog.allOps_bind
    · exact calm_op (isModelKey_stepKey _)
    intro step
    split
    · rename_i value
      cases value <;> trivial
    · split
      · exact Prog.allOps_bind (calm_op trivial) (fun _ => hrun _ _)
      · trivial
    · exact hrun _ _

theorem calm_journalOnce (call : ToolCall) (record : Record) :
    (eff.journalOnce call record).AllOps Calm := by
  have hproject : ∀ plane, (eff.project plane call record).AllOps Calm := by
    intro plane
    apply Prog.allOps_bind (calm_ctx _)
    intro here
    cases record with
    | ok value => exact Prog.allOps_bind (calm_ask _ _) (fun _ => trivial)
    | failed error => exact Prog.allOps_bind (calm_ask _ _) (fun _ => trivial)
  have hjournal : ∀ key projected, (eff.journal key projected).AllOps Calm := by
    intro key projected
    unfold Effects.journal
    split
    · trivial
    · exact calm_op trivial
  apply Prog.allOps_bind (calm_readStep (isModelKey_afterKey _))
  intro journaled
  split
  · trivial
  · trivial
  · split
    · trivial
    · apply Prog.allOps_bind (hproject _)
      intro projected
      exact Prog.allOps_bind (hjournal _ _) (fun _ => trivial)

theorem calm_executeCall (ai : PydanticAI) (call : ToolCall) (approval : Option Approval) :
    (ai.executeCall eff call approval).AllOps Calm := by
  have hwrap : ∀ args, (eff.wrapToolExecute call args
      (fun args => perform (.handle call args))).AllOps Calm := by
    intro args
    apply Prog.allOps_bind (calm_runOrReplay call args)
    intro step
    apply Prog.allOps_bind (calm_journalOnce call step)
    intro record
    cases record <;> trivial
  have hhooks : ∀ approved args, (PydanticAI.throughHooks eff approved call args).AllOps Calm := by
    intro approved args
    apply Prog.allOps_tryCatch
    · apply Prog.allOps_bind
      · exact Prog.allOps_bind (calm_verdict _ _ _) (fun _ => calm_enforce _ _ _)
      · intro args
        exact Prog.allOps_bind (hwrap args) (fun _ => trivial)
    · intro error
      cases error <;> trivial
  unfold PydanticAI.executeCall
  split
  · trivial
  · split
    · trivial
    · exact hhooks _ _
  · split
    · trivial
    · exact hhooks _ _

/-! The turn-level control points. -/

theorem calm_claim (store : View) (branchId : String) (token : Nat) (represented : List String) :
    (InputSession.claim store branchId token represented).AllOps Calm := by
  apply Prog.allOps_bind
  · exact calm_op trivial
  intro rows
  induction rows with
  | nil => trivial
  | cons row rows ih =>
    apply Prog.allOps_bind calm_attempt
    intro a
    split
    · exact ih
    · apply Prog.allOps_bind
      · exact calm_op trivial
      intro _
      apply Prog.allOps_bind
      · exact calm_update (fun _ => ⟨rfl, rfl⟩)
      intro _
      apply Prog.allOps_bind
      · cases row.value <;> trivial
      · intro item
        exact Prog.allOps_bind ih (fun _ => trivial)

theorem calm_drain : eff.drain.AllOps Calm := by
  apply Prog.allOps_bind calm_attempt
  intro a
  apply Prog.allOps_bind
  · exact calm_update (fun _ => ⟨rfl, rfl⟩)
  intro _
  split
  · trivial
  · exact Prog.allOps_bind (calm_claim _ _ _ _) (fun _ => trivial)

theorem calm_screen (plane : String) (here : Ctx) (pending inputs : List PendingInput) :
    (eff.screen plane here pending inputs).AllOps Calm := by
  unfold Effects.screen
  split
  · trivial
  · apply Prog.allOps_bind (calm_ask _ _)
    intro answer
    split
    · apply Prog.allOps_bind
      · unfold InputSession.discard
        split
        · trivial
        · exact calm_op trivial
      · exact fun _ => trivial
    · trivial

theorem calm_steered (request : ModelRequest) (pending : List PendingInput) :
    (eff.steered request pending).AllOps Calm := by
  unfold Effects.steered
  split
  · trivial
  · apply Prog.allOps_bind (Prog.allOps_bind calm_attempt (fun _ => calm_ctx _))
    intro here
    apply Prog.allOps_bind (calm_screen _ _ _ _)
    intro screened
    split
    · trivial
    · apply Prog.allOps_bind (calm_ask _ _)
      intro decision
      cases decision <;> trivial

theorem calm_appendLeaf (c : String) (leaf : Option Uuid) : (appendLeaf c leaf).AllOps Calm :=
  Prog.allOps_bind (calm_op trivial)
    (fun _ => Prog.allOps_bind (calm_op trivial) (fun _ => trivial))

theorem calm_append (c : String) (messages : List ModelMessage) :
    (Branch.append c messages).AllOps Calm := by
  induction messages with
  | nil => trivial
  | cons message messages ih =>
    have hrecord : (record c message).AllOps Calm := by
      apply Prog.allOps_bind calm_attempt
      intro a
      apply Prog.allOps_bind
      · exact calm_op trivial
      intro instant
      apply Prog.allOps_bind
      · exact calm_op trivial
      intro appended
      apply Prog.allOps_bind
      · exact calm_update (fun _ => ⟨rfl, rfl⟩)
      intro _
      apply Prog.allOps_bind
      · unfold relink
        split
        · trivial
        · exact calm_appendLeaf c _
      · exact fun _ => trivial
    apply Prog.allOps_bind hrecord
    intro _
    exact Prog.allOps_bind (calm_update (fun _ => ⟨rfl, rfl⟩)) (fun _ => ih)

theorem calm_replace (c : String) (desired : List ModelMessage) :
    (Branch.replace c desired).AllOps Calm := by
  apply Prog.allOps_bind calm_attempt
  intro a
  apply Prog.allOps_bind
  · unfold Branch.cut
    split
    · apply Prog.allOps_bind
      · exact Prog.allOps_bind (calm_appendLeaf c _) (fun _ => calm_update (fun _ => ⟨rfl, rfl⟩))
      · exact fun _ => calm_update (fun _ => ⟨rfl, rfl⟩)
    · trivial
  · exact fun _ => calm_append c _

theorem calm_recordMessage (message : ModelMessage) :
    (eff.recordMessage message).AllOps Calm := by
  unfold Effects.recordMessage
  split
  · trivial
  · exact calm_append _ [message]

theorem calm_admitInputs (inputs : List PendingInput) : (eff.admitInputs inputs).AllOps Calm := by
  unfold Effects.admitInputs InputSession.admit_
  split
  · trivial
  · split
    · trivial
    · exact calm_op trivial

theorem calm_halt (reason : StopReason) : (Effects.halt reason).AllOps Calm :=
  Prog.allOps_bind (calm_update (fun _ => ⟨rfl, rfl⟩))
    (fun _ => Prog.allOps_bind calm_attempt (fun _ => trivial))

theorem calm_recordPending (response : ModelResponse) :
    (eff.recordPending response).AllOps Calm := by
  apply Prog.allOps_bind calm_attempt
  intro a
  split
  · trivial
  · split
    · trivial
    · exact calm_op trivial

theorem calm_decideFinish (result : NodeResult) : (eff.decideFinish result).AllOps Calm := by
  have hlate : eff.lateInputs.AllOps Calm := by
    apply Prog.allOps_bind calm_attempt
    intro a
    split
    · trivial
    · exact calm_claim _ _ _ _
  cases result with
  | node next => trivial
  | finish output =>
    simp only [Effects.decideFinish]
    split
    · trivial
    · apply Prog.allOps_bind hlate
      intro late
      split
      · exact Prog.allOps_bind (calm_update (fun _ => ⟨rfl, rfl⟩)) (fun _ => trivial)
      · split
        · exact Prog.allOps_bind (calm_update (fun _ => ⟨rfl, rfl⟩)) (fun _ => trivial)
        · apply Prog.allOps_bind (calm_ctx _)
          intro here
          apply Prog.allOps_bind (calm_ask _ _)
          intro decision
          cases decision with
          | proceed steers => trivial
          | halt reason =>
            exact Prog.allOps_bind (calm_update (fun _ => ⟨rfl, rfl⟩)) (fun _ => trivial)

theorem calm_recordTurn (response : ModelResponse) (result : NodeResult) :
    (eff.recordTurn response result).AllOps Calm := by
  unfold Effects.recordTurn
  split
  · trivial
  · exact calm_recordMessage _

end

end Semora.Proofs.Usage
