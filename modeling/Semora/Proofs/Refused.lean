import Semora.Lib.Refusal
import Semora.Proofs.Performs

/-! A worker whose write the ledger refused: it writes no more of the conversation or the run
record, and its attempt ends in the exception. -/

namespace Semora.Proofs
open Semora.Lib Semora.Store Semora.Transcript

/-- The ledger refused the operation for its token. -/
def Refused : (o : Op) → Except Exn o.Res → Prop
  | .ledger c, .error (.store (.fenced ..)) => c.token?.isSome
  | _, _ => False

/-- The operation presents no token. -/
def Unfenced : Op → Prop
  | .ledger c => c.token? = none
  | _ => True

/-- The operation writes nothing into a transcript. -/
def Unpublished : Op → Prop
  | .append _ | .recordBranch .. | .recordModelUsage .. => False
  | _ => True

def Exn.Fenced : Exn → Prop
  | .store (.fenced ..) => True
  | _ => False

/-- A refusal anywhere in the program ends it. -/
abbrev Heeding {α : Type} (p : Program α) : Prop := Prog.Heeds Refused Unpublished Exn.Fenced p

/-- An exception that is no outcome of its call ends the round, whatever else runs in it. -/
def Propagates (ai : PydanticAI) : Prop :=
  ∀ calls : List (Program (ToolCall × CallOutcome)),
    (∀ call ∈ calls, Heeding call ∧ call.AllOps Unpublished) → Heeding (ai.gather calls)

theorem propagates_standard (digest : Json → String) (unapproved : List String) (nodeLimit : Nat) :
    Propagates (.standard digest unapproved nodeLimit) := by
  intro calls hcalls
  simp only [PydanticAI.standard]
  induction calls with
  | nil => trivial
  | cons call calls ih =>
    apply Prog.heeds_bind (hcalls call List.mem_cons_self).1
    intro outcome
    apply Prog.heeds_bind (ih (fun c hc => hcalls c (List.mem_cons_of_mem _ hc)))
    intro outcomes
    trivial

theorem heeding_op (o : Op) : Heeding (perform o) := by
  apply Prog.heeds_op
  intro r hr
  unfold Refused at hr
  split at hr
  · exact ⟨_, rfl, trivial⟩
  · exact hr.elim

theorem unrefused {o : Op} (h : Unfenced o) (r : Except Exn o.Res) : ¬ Refused o r := by
  intro hr
  unfold Refused at hr
  split at hr
  · have hnone : (_ : Call Value).token? = none := h
    rw [hnone] at hr
    cases hr
  · exact hr

/-- A program that presents no token. -/
theorem heeding_unfenced {α : Type} {p : Program α} (h : p.AllOps Unfenced) : Heeding p :=
  Prog.heeds_unrefused (h.mono (fun _ => unrefused))

/-- A program that stays behind a boundary with neither ledger nor queue presents no token. -/
theorem unfenced_bare {α : Type} {eff : Effects} {quiet : Bool} {reach : Reach} {p : Program α}
    (hstore : eff.store = none) (hinputs : eff.inputs = none) (h : Within eff quiet reach p) :
    p.AllOps Unfenced := by
  apply h.mono
  intro o ho
  cases ho <;> first | trivial | simp_all

/-- A boundary that only records. -/
def recording (conversation : String) : Effects where
  store := none
  branchId := ""
  token := 0
  inputs := none
  record := some ⟨conversation⟩

theorem unfenced_append (conversation : String) (messages : List ModelMessage) :
    (Branch.append conversation messages).AllOps Unfenced := by
  have hwithin : Within (recording conversation) false .mute (Branch.append conversation messages) :=
    within_append rfl messages
  exact unfenced_bare rfl rfl hwithin

theorem unfenced_replace (conversation : String) (desired : List ModelMessage) :
    (Branch.replace conversation desired).AllOps Unfenced := by
  have hwithin : Within (recording conversation) false .mute (Branch.replace conversation desired) :=
    within_replace rfl desired
  exact unfenced_bare rfl rfl hwithin

/-- A program that lets the conversation alone publishes nothing. -/
theorem unpublished_quiet {eff : Effects} {reach : Reach} {o : Op} (h : Performs eff true reach o) :
    Unpublished o := by
  cases h with
  | append entry recorder h conversation loud => cases loud
  | _ => trivial

/-! The tool boundary. -/

section
variable (eff : Effects)

theorem heeding_readStep (key : String) : Heeding (eff.readStep key) := by
  unfold Effects.readStep
  split
  · trivial
  · exact heeding_op _

theorem heeding_verdict (approved : Bool) (call : ToolCall) (args : Json) :
    Heeding (eff.verdict approved call args) := by
  apply Prog.heeds_bind
  · exact Prog.heeds_bind (heeding_op _) (fun _ => trivial)
  · intro here
    apply Prog.heeds_bind
    · unfold Effects.replayed
      split
      · trivial
      · exact Prog.heeds_bind (heeding_readStep eff _) (fun _ => trivial)
    · intro replayed
      split
      · trivial
      · split
        · apply Prog.heeds_bind
          · unfold Effects.resumeDecision
            split
            · exact heeding_op _
            · trivial
          · intro decision
            trivial
        · apply Prog.heeds_bind
          · apply Prog.heeds_bind
            · unfold Effects.policy
              split
              · trivial
              · exact heeding_op _
            · intro decision
              exact Prog.heeds_bind (heeding_op _) (fun _ => trivial)
          · intro decision
            trivial

theorem heeding_enforce (call : ToolCall) (args : Json) (decision : ToolDecision) :
    Heeding (Effects.enforce call args decision) := by
  have hmade : ∀ refused, Heeding (Effects.made call refused) := fun refused => heeding_op _
  unfold Effects.enforce
  split
  · exact Prog.heeds_bind (hmade true) (fun _ => trivial)
  · split
    · trivial
    · apply Prog.heeds_bind (heeding_op _)
      intro _
      exact Prog.heeds_bind (hmade true) (fun _ => trivial)
  · exact Prog.heeds_bind (hmade false) (fun _ => trivial)

theorem heeding_clearIntent (key : Option String) : Heeding (eff.clearIntent key) := by
  unfold Effects.clearIntent
  split
  · exact heeding_op _
  · trivial

theorem heeding_finishStep (key : Option String) (record : Record) :
    Heeding (eff.finishStep key record) := by
  unfold Effects.finishStep
  split
  · exact heeding_op _
  · trivial

theorem heeding_execute (key : Option String) (args : Json) (call : ToolCall) :
    Heeding (eff.execute key args (fun args => perform (.handle call args))) := by
  apply Prog.heeds_bind
  · apply Prog.heeds_guarded
    · apply Prog.allOps_bind
      · exact (Prog.allOps_op _).mpr (fun _ => id)
      · intro value
        trivial
    · intro error
      unfold Effects.caught
      split
      · exact Prog.heeds_bind (heeding_clearIntent eff key) (fun _ => trivial)
      · split <;> trivial
  · intro record
    exact Prog.heeds_bind (heeding_finishStep eff key record) (fun _ => trivial)

theorem heeding_runStep (store : View) (key : String) (args : Json) (call : ToolCall) :
    Heeding (eff.runStep store key args (fun args => perform (.handle call args))) := by
  apply Prog.heeds_bind (heeding_op _)
  intro inserted
  split
  · exact heeding_execute eff _ args call
  · trivial

theorem heeding_runOrReplay (call : ToolCall) (args : Json) :
    Heeding (eff.runOrReplay call args (fun args => perform (.handle call args))) := by
  unfold Effects.runOrReplay
  split
  · exact heeding_execute eff none args call
  · rename_i store _
    apply Prog.heeds_bind (heeding_op _)
    intro step
    split
    · rename_i value
      unfold Effects.stepRecord
      split <;> trivial
    · split
      · exact Prog.heeds_bind (heeding_op _) (fun _ => heeding_runStep eff store _ args call)
      · trivial
    · exact heeding_runStep eff store _ args call

theorem heeding_journalOnce (call : ToolCall) (record : Record) :
    Heeding (eff.journalOnce call record) := by
  apply Prog.heeds_bind (heeding_readStep eff _)
  intro journaled
  split
  · trivial
  · trivial
  · split
    · trivial
    · rename_i plane _
      apply Prog.heeds_bind
      · apply Prog.heeds_bind
        · exact Prog.heeds_bind (heeding_op _) (fun _ => trivial)
        · intro here
          cases record with
          | ok value => exact Prog.heeds_bind (heeding_op _) (fun _ => trivial)
          | failed error => exact Prog.heeds_bind (heeding_op _) (fun _ => trivial)
      · intro projected
        apply Prog.heeds_bind
        · unfold Effects.journal
          split
          · trivial
          · exact heeding_op _
        · intro _
          trivial

theorem heeding_executeCall (ai : PydanticAI) (call : ToolCall) (approval : Option Approval) :
    Heeding (ai.executeCall eff call approval) := by
  have hhooks : ∀ approved args, Heeding (PydanticAI.throughHooks eff approved call args) := by
    intro approved args
    apply Prog.heeds_tryCatch
    · apply Prog.heeds_bind
      · apply Prog.heeds_bind (heeding_verdict eff approved call args)
        intro verdict
        exact heeding_enforce _ _ _
      · intro args
        apply Prog.heeds_bind
        · apply Prog.heeds_bind (heeding_runOrReplay eff call args)
          intro step
          apply Prog.heeds_bind (heeding_journalOnce eff call step)
          intro record
          cases record <;> trivial
        · intro value
          trivial
    · intro error
      cases error <;> trivial
    · intro error hfenced
      cases error with
      | store error =>
        cases error with
        | fenced => exact hfenced
        | _ => exact hfenced.elim
      | _ => exact hfenced.elim
  unfold PydanticAI.executeCall
  split
  · trivial
  · split
    · trivial
    · exact hhooks _ _
  · split
    · trivial
    · exact hhooks _ _

/-! The model boundary. -/

theorem heeding_requestOnce (store : View) (key : String) (request : RequestContext) :
    Heeding (eff.requestOnce store key request (fun request => perform (.provide request))) := by
  apply Prog.heeds_bind (heeding_op _)
  intro inserted
  split
  · apply Prog.heeds_bind
    · apply Prog.heeds_guarded
      · exact (Prog.allOps_op _).mpr (fun _ => id)
      · intro error
        unfold Effects.unasked
        split
        · trivial
        · exact Prog.heeds_bind (heeding_op _) (fun _ => trivial)
    · intro response
      exact Prog.heeds_bind (heeding_op _) (fun _ => trivial)
  · trivial

theorem heeding_wrapModelRequest (digest : Json → String) (request : RequestContext) :
    Heeding (eff.wrapModelRequest digest request (fun request => perform (.provide request))) := by
  unfold Effects.wrapModelRequest
  split
  · exact heeding_op _
  · rename_i store _
    apply Prog.heeds_bind (heeding_op _)
    intro step
    split
    · trivial
    · trivial
    · split
      · exact Prog.heeds_bind (heeding_op _) (fun _ => heeding_requestOnce eff store _ request)
      · trivial
    · exact heeding_requestOnce eff store _ request

/-! The turn-level control points. -/

theorem heeding_claim (store : View) (represented : List String) :
    Heeding (InputSession.claim store eff.branchId eff.token represented) := by
  have hrows : ∀ rows,
      Heeding (InputSession.claimRows store eff.branchId eff.token represented rows) := by
    intro rows
    induction rows with
    | nil => trivial
    | cons row rows ih =>
      apply Prog.heeds_bind (heeding_op _)
      intro a
      split
      · exact ih
      · apply Prog.heeds_bind (heeding_op _)
        intro _
        apply Prog.heeds_bind (heeding_op _)
        intro _
        apply Prog.heeds_bind
        · unfold InputSession.decodeInput
          split <;> trivial
        · intro item
          exact Prog.heeds_bind ih (fun _ => trivial)
  exact Prog.heeds_bind (heeding_op _) hrows

theorem heeding_drain : Heeding eff.drain := by
  apply Prog.heeds_bind (heeding_op _)
  intro a
  apply Prog.heeds_bind (heeding_op _)
  intro _
  split
  · trivial
  · exact Prog.heeds_bind (heeding_claim eff _ _) (fun _ => trivial)

theorem heeding_lateInputs : Heeding eff.lateInputs := by
  apply Prog.heeds_bind (heeding_op _)
  intro a
  split
  · trivial
  · exact heeding_claim eff _ _

theorem heeding_screen (plane : String) (here : Ctx) (pending inputs : List PendingInput) :
    Heeding (eff.screen plane here pending inputs) := by
  unfold Effects.screen
  split
  · trivial
  · apply Prog.heeds_bind (heeding_op _)
    intro answer
    split
    · apply Prog.heeds_bind
      · unfold InputSession.discard
        split
        · trivial
        · exact heeding_op _
      · intro _
        trivial
    · trivial

theorem heeding_steered (request : ModelRequest) (pending : List PendingInput) :
    Heeding (eff.steered request pending) := by
  unfold Effects.steered
  split
  · trivial
  · apply Prog.heeds_bind
    · exact Prog.heeds_bind (heeding_op _) (fun _ => Prog.heeds_bind (heeding_op _) (fun _ => trivial))
    · intro here
      apply Prog.heeds_bind (heeding_screen eff _ _ _ _)
      intro screened
      split
      · trivial
      · apply Prog.heeds_bind (heeding_op _)
        intro decision
        split <;> trivial

theorem heeding_recordMessage (message : ModelMessage) : Heeding (eff.recordMessage message) := by
  unfold Effects.recordMessage
  split
  · trivial
  · exact heeding_unfenced (unfenced_append _ _)

theorem heeding_admitInputs (inputs : List PendingInput) : Heeding (eff.admitInputs inputs) := by
  unfold Effects.admitInputs InputSession.admit_
  split
  · trivial
  · split
    · trivial
    · exact heeding_op _

theorem heeding_admit (request : ModelRequest) {handler : Node → Program NodeResult}
    (hhandler : ∀ node, Heeding (handler node)) : Heeding (eff.admit_ request handler) := by
  apply Prog.heeds_bind (heeding_drain eff)
  intro pending
  apply Prog.heeds_bind (heeding_steered eff _ _)
  intro decision
  split
  · exact Prog.heeds_bind (heeding_op _) (fun _ => Prog.heeds_bind (heeding_op _) (fun _ => trivial))
  · apply Prog.heeds_bind (heeding_op _)
    intro _
    apply Prog.heeds_bind (heeding_recordMessage eff _)
    intro _
    exact Prog.heeds_bind (heeding_admitInputs eff _) (fun _ => hhandler _)

theorem heeding_recordPending (response : ModelResponse) : Heeding (eff.recordPending response) := by
  apply Prog.heeds_bind (heeding_op _)
  intro a
  split
  · trivial
  · split
    · trivial
    · exact heeding_op _

theorem heeding_decideFinish (result : NodeResult) : Heeding (eff.decideFinish result) := by
  cases result with
  | node next => trivial
  | finish output =>
    unfold Effects.decideFinish
    simp only
    split
    · trivial
    · apply Prog.heeds_bind (heeding_lateInputs eff)
      intro late
      split
      · exact Prog.heeds_bind (heeding_op _) (fun _ => trivial)
      · split
        · exact Prog.heeds_bind (heeding_op _) (fun _ => trivial)
        · apply Prog.heeds_bind
          · exact Prog.heeds_bind (heeding_op _) (fun _ => trivial)
          · intro here
            apply Prog.heeds_bind (heeding_op _)
            intro decision
            split
            · trivial
            · exact Prog.heeds_bind (heeding_op _) (fun _ => trivial)

theorem heeding_wrapNodeRun (node : Node) {handler : Node → Program NodeResult}
    (hhandler : ∀ node, Heeding (handler node)) : Heeding (eff.wrapNodeRun node handler) := by
  apply Prog.heeds_bind (heeding_op _)
  intro _
  split
  · exact heeding_admit eff _ hhandler
  · rename_i response results
    apply Prog.heeds_bind (heeding_op _)
    intro _
    apply Prog.heeds_bind (heeding_recordPending eff _)
    intro _
    apply Prog.heeds_bind (hhandler _)
    intro result
    apply Prog.heeds_bind
    · unfold Effects.recordTurn
      split
      · trivial
      · exact heeding_recordMessage eff _
    · intro _
      exact heeding_decideFinish eff result
  · exact hhandler _

/-! The agent graph. -/

variable {ai : PydanticAI}

theorem heeding_runNode (propagates : Propagates ai) (prompt : Option Json)
    (results : DeferredToolResults) (node : Node) : Heeding (ai.runNode eff prompt results node) := by
  cases node with
  | userPrompt =>
    apply Prog.heeds_bind (heeding_op _)
    intro a
    split
    · trivial
    · apply Prog.heeds_bind (heeding_op _)
      intro _
      exact Prog.heeds_bind (heeding_op _) (fun _ => trivial)
  | modelRequest request =>
    apply Prog.heeds_bind (heeding_op _)
    intro _
    apply Prog.heeds_bind (heeding_op _)
    intro _
    apply Prog.heeds_bind (heeding_op _)
    intro a
    apply Prog.heeds_bind (heeding_wrapModelRequest eff _ _)
    intro response
    exact Prog.heeds_bind (heeding_op _) (fun _ => trivial)
  | callTools response results =>
    apply Prog.heeds_bind (heeding_op _)
    intro a
    apply Prog.heeds_bind
    · apply propagates
      intro call hcall
      obtain ⟨item, -, rfl⟩ := List.mem_map.mp hcall
      have hwithin : Within eff true .effects (ai.executeCall eff item.1 item.2) :=
        within_executeCall ai item.1 item.2
      exact ⟨heeding_executeCall eff ai item.1 item.2, hwithin.mono (fun _ => unpublished_quiet)⟩
    · intro outcomes
      split
      · trivial
      · trivial
      · exact Prog.heeds_bind (heeding_op _) (fun _ => trivial)

theorem heeding_iterate (propagates : Propagates ai) (prompt : Option Json)
    (results : DeferredToolResults) (fuel : Nat) (node : Node) :
    Heeding (ai.iterate eff prompt results fuel node) := by
  induction fuel generalizing node with
  | zero => trivial
  | succ fuel ih =>
    apply Prog.heeds_bind
    · exact heeding_wrapNodeRun eff node (heeding_runNode eff propagates prompt results)
    · intro result
      cases result with
      | finish output => trivial
      | node next =>
        apply Prog.heeds_bind (heeding_op _)
        intro _
        exact ih next

theorem heeding_run (propagates : Propagates ai) (prompt : Option Json)
    (history : List ModelMessage) (results : DeferredToolResults) :
    Heeding (ai.run eff prompt history results) := by
  apply Prog.heeds_bind (heeding_op _)
  intro _
  apply Prog.heeds_bind (heeding_iterate eff propagates _ _ _ _)
  intro output
  exact Prog.heeds_bind (heeding_op _) (fun _ => trivial)

end

/-! A whole attempt. -/

section
variable (rt : AgentRuntime) (e : Execution)

theorem unfenced_openBranch (messageHistory : Option (List ModelMessage)) :
    (rt.openBranch e messageHistory).AllOps Unfenced := by
  have hop : ∀ o, Unfenced o → (perform o).AllOps Unfenced := fun o h => (Prog.allOps_op o).mpr h
  unfold AgentRuntime.openBranch
  split
  · apply Prog.allOps_bind
    · apply Prog.allOps_bind (hop (.readEntries _) trivial)
      intro entries
      apply Prog.allOps_bind
      · exact Prog.allOps_bind (hop .now trivial) (fun _ => hop (.recordBranch ..) trivial)
      · intro _
        exact hop (.modify _) trivial
    · intro _
      split
      · exact Prog.allOps_bind (hop .get trivial) (fun _ => trivial)
      · exact Prog.allOps_bind (unfenced_replace _ _) (fun _ => trivial)
  · trivial

theorem unfenced_replaceFinal : (rt.replaceFinal e).AllOps Unfenced := by
  unfold AgentRuntime.replaceFinal
  split
  · exact Prog.allOps_bind ((Prog.allOps_op _).mpr trivial) (fun _ => unfenced_replace _ _)
  · trivial

theorem heeding_admitPrompt (token : Nat) (prompt promptId : Option String) :
    Heeding (rt.admitPrompt e token prompt promptId) := by
  unfold AgentRuntime.admitPrompt
  split
  · apply Prog.heeds_bind (heeding_op _)
    intro instant
    apply Prog.heeds_bind (heeding_op _)
    intro inserted
    split
    · exact Prog.heeds_bind (heeding_op _) (fun _ => trivial)
    · trivial
  · trivial

theorem heeding_park {α : Type} {conversation : String} {eff : Effects}
    {requests : DeferredToolRequests} {token : Nat} :
    Heeding (rt.park (α := α) e conversation eff requests token) := by
  unfold AgentRuntime.park
  split
  · trivial
  · split
    · trivial
    · trivial
    · simp only
      split
      · trivial
      · apply Prog.heeds_bind (heeding_op _)
        intro a
        apply Prog.heeds_bind
        · have hwithin : ∀ parked, Within (recording conversation) false .mute
              (AgentRuntime.announce eff a parked) := within_announce eff a
          exact heeding_unfenced (unfenced_bare rfl rfl (hwithin _))
        · intro _
          apply Prog.heeds_bind
          · unfold AgentRuntime.persist
            split
            · trivial
            · exact Prog.heeds_bind (heeding_op _) (fun _ => trivial)
          · intro _
            trivial

/-- An attempt whose token is refused publishes nothing behind that. -/
theorem heeding_attemptRun (token : Nat) {agent : Agent}
    (propagates : Propagates agent.toPydanticAI) (prompt : Option String) (options : Options) :
    Heeding (rt.attemptRun e token agent prompt options) := by
  have hop : ∀ o, Unfenced o → (perform o).AllOps Unfenced := fun o h => (Prog.allOps_op o).mpr h
  have hclose : ∀ output, Heeding (rt.close e output) := by
    intro output
    apply Prog.heeds_bind (heeding_op _)
    intro a
    apply Prog.heeds_bind
    · apply heeding_unfenced
      unfold AgentRuntime.closeRecord
      split
      · apply Prog.allOps_bind (hop .now trivial)
        intro instant
        apply Prog.allOps_bind (hop (.recordBranch ..) trivial)
        intro _
        induction AgentRuntime.usageOf a with
        | nil => trivial
        | cons item usage ih =>
          exact Prog.allOps_bind (hop (.recordModelUsage ..) trivial) (fun _ => ih)
      · trivial
    · intro _
      trivial
  apply Prog.heeds_bind (heeding_op _)
  intro _
  apply Prog.heeds_bind (heeding_unfenced (unfenced_openBranch rt e _))
  intro history
  apply Prog.heeds_bind (heeding_admitPrompt rt e token _ _)
  intro prompt
  apply Prog.heeds_bind (heeding_run _ propagates _ _ _)
  intro output
  apply Prog.heeds_bind (heeding_unfenced (unfenced_replaceFinal rt e))
  intro _
  cases output with
  | deferred requests => exact heeding_park rt e
  | text content => exact hclose _
  | value value => exact hclose _

end

end Semora.Proofs
