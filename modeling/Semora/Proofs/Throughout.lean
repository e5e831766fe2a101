import Semora.Lib.Compositional
import Semora.Proofs.Performs
import Semora.Runtime.Instance

/-! A property of programs that composition keeps, carried through every call of the runtime: what
is left to show of it is what the nodes of the agent do. -/

namespace Semora.Proofs.Throughout
open Semora.Lib Semora.Store Semora.Transcript

instance : Nonempty Exn := ⟨.exit⟩

/-- The update leaves alone what the boundary keeps for itself. -/
def Apart (f : Attempt → Attempt) : Prop :=
  ∀ a, (f a).approvalTools = a.approvalTools ∧ (f a).prefetched = a.prefetched ∧
    (f a).seen = a.seen ∧ (f a).stopReason = a.stopReason

/-- Nobody is asked, and the ledger is left alone. -/
def Plain : Op → Prop
  | .ledger _ | .handle .. | .provide _ | .ask .. => False
  | .modify f => Apart f
  | _ => True

/-- What the runtime does beside the lease of a branch: it looks, and it queues. -/
def Loose : Op → Prop
  | .ledger (.read ..) | .ledger (.enqueueInput ..) => True
  | .now | .uuid4 | .readEntries _ | .readBranch _ => True
  | _ => False

/-- What the runtime does itself, outside the nodes of the agent. -/
def Outer : Op → Prop
  | .handle .. | .provide _ => False
  | .ask _ (.onSuspend ..) => True
  | .ask .. => False
  | .modify f => Apart f
  | .ledger (.listInputs _) | .ledger (.claimInput ..) | .ledger (.admitInputs ..)
  | .ledger (.discardInputs ..) | .ledger (.forget ..) => False
  | _ => True

theorem outer_plain {o : Op} (h : Plain o) : Outer o := by
  cases o with
  | ledger | handle | provide | ask => exact h.elim
  | modify => exact h
  | _ => trivial

theorem outer_loose {o : Op} (h : Loose o) : Outer o := by
  cases o with
  | ledger c => cases c <;> first | exact h.elim | trivial
  | handle | provide | ask | modify => exact h.elim
  | _ => trivial

theorem plain_perform {o : Op} (h : Plain o) : (perform o).AllOps Plain := (Prog.allOps_op o).mpr h

theorem loose_perform {o : Op} (h : Loose o) : (perform o).AllOps Loose := (Prog.allOps_op o).mpr h

theorem outer_perform {o : Op} (h : Outer o) : (perform o).AllOps Outer := (Prog.allOps_op o).mpr h

theorem plain_update {f : Attempt → Attempt} (h : Apart f) : (update f).AllOps Plain :=
  plain_perform (o := .modify f) h

theorem apart_rfl {f : Attempt → Attempt} (tools : ∀ a, (f a).approvalTools = a.approvalTools)
    (prefetched : ∀ a, (f a).prefetched = a.prefetched) (seen : ∀ a, (f a).seen = a.seen)
    (stopReason : ∀ a, (f a).stopReason = a.stopReason) : Apart f :=
  fun a => ⟨tools a, prefetched a, seen a, stopReason a⟩

/-! The transcript. -/

theorem plain_appendLeaf (conversation : String) (leaf : Option Uuid) :
    (appendLeaf conversation leaf).AllOps Plain :=
  Prog.allOps_bind (plain_perform (o := .now) trivial) (fun _ =>
    Prog.allOps_bind (plain_perform (o := .append _) trivial) (fun _ => trivial))

theorem plain_append (conversation : String) (messages : List ModelMessage) :
    (Branch.append conversation messages).AllOps Plain := by
  induction messages with
  | nil => trivial
  | cons message messages ih =>
    refine Prog.allOps_bind ?_ (fun _ => Prog.allOps_bind
      (plain_update (apart_rfl (fun _ => rfl) (fun _ => rfl) (fun _ => rfl) (fun _ => rfl)))
      (fun _ => ih))
    refine Prog.allOps_bind (plain_perform (o := .get) trivial) (fun a =>
      Prog.allOps_bind (plain_perform (o := .now) trivial) (fun instant =>
      Prog.allOps_bind (plain_perform (o := .append _) trivial) (fun appended =>
      Prog.allOps_bind
        (plain_update (apart_rfl (fun _ => rfl) (fun _ => rfl) (fun _ => rfl) (fun _ => rfl)))
        (fun _ => Prog.allOps_bind ?_ (fun _ => trivial)))))
    unfold relink
    split
    · trivial
    · exact plain_appendLeaf _ _

theorem plain_replace (conversation : String) (desired : List ModelMessage) :
    (Branch.replace conversation desired).AllOps Plain := by
  refine Prog.allOps_bind (plain_perform (o := .get) trivial) (fun a =>
    Prog.allOps_bind ?_ (fun _ => plain_append _ _))
  unfold Branch.cut
  split
  · refine Prog.allOps_bind (Prog.allOps_bind (plain_appendLeaf _ _) (fun _ => ?_)) (fun _ => ?_)
    · exact plain_update (apart_rfl (fun _ => rfl) (fun _ => rfl) (fun _ => rfl) (fun _ => rfl))
    · exact plain_update (apart_rfl (fun _ => rfl) (fun _ => rfl) (fun _ => rfl) (fun _ => rfl))
  · trivial

theorem plain_opening (conversation branchId : String) :
    (Branch.opening conversation branchId).AllOps Plain := by
  refine Prog.allOps_bind (plain_perform (o := .readEntries _) trivial) (fun entries =>
    Prog.allOps_bind ?_ (fun _ => ?_))
  · exact Prog.allOps_bind (plain_perform (o := .now) trivial)
      (fun _ => plain_perform (o := .recordBranch ..) trivial)
  · exact plain_update (apart_rfl (fun _ => rfl) (fun _ => rfl) (fun _ => rfl) (fun _ => rfl))

section
variable {rt : AgentRuntime} {e : Execution} {token : Nat}

theorem plain_openBranch (messageHistory : Option (List ModelMessage)) :
    (rt.openBranch e messageHistory).AllOps Plain := by
  unfold AgentRuntime.openBranch
  split
  · refine Prog.allOps_bind (plain_opening _ _) (fun _ => ?_)
    split
    · exact Prog.allOps_bind (plain_perform (o := .get) trivial) (fun _ => trivial)
    · exact Prog.allOps_bind (plain_replace _ _) (fun _ => trivial)
  · trivial

theorem plain_replaceFinal : (rt.replaceFinal e).AllOps Plain := by
  unfold AgentRuntime.replaceFinal
  split
  · exact Prog.allOps_bind (plain_perform (o := .get) trivial) (fun _ => plain_replace _ _)
  · trivial

/-! How an attempt ends. -/

theorem outer_park {α : Type} {conversation : String} {eff : Effects}
    {requests : DeferredToolRequests} :
    (rt.park (α := α) e conversation eff requests token).AllOps Outer := by
  have hsuspend : ∀ plane here messages completed parked,
      (AgentRuntime.suspendAll plane here messages completed parked).AllOps Outer := by
    intro plane here messages completed parked
    induction parked with
    | nil => trivial
    | cons item parked ih =>
      exact Prog.allOps_bind (outer_perform (o := .ask _ (.onSuspend ..)) trivial) (fun _ => ih)
  unfold AgentRuntime.park
  split
  · trivial
  · split
    · trivial
    · trivial
    · simp only
      split
      · trivial
      · refine Prog.allOps_bind (outer_perform (o := .get) trivial) (fun a =>
          Prog.allOps_bind ?_ (fun _ => Prog.allOps_bind ?_ (fun _ => trivial)))
        · unfold AgentRuntime.announce
          split
          · trivial
          · exact hsuspend _ _ _ _ _
        · unfold AgentRuntime.persist
          split
          · trivial
          · exact Prog.allOps_bind (outer_perform (o := .ledger (.commitTransition ..)) trivial)
              (fun _ => trivial)

theorem plain_close {output : Output} : (rt.close e output).AllOps Plain := by
  refine Prog.allOps_bind (plain_perform (o := .get) trivial) (fun a =>
    Prog.allOps_bind ?_ (fun _ => trivial))
  unfold AgentRuntime.closeRecord
  split
  · refine Prog.allOps_bind (plain_perform (o := .now) trivial) (fun _ =>
      Prog.allOps_bind (plain_perform (o := .recordBranch ..) trivial) (fun _ => ?_))
    induction AgentRuntime.usageOf a with
    | nil => trivial
    | cons item usage ih =>
      exact Prog.allOps_bind (plain_perform (o := .recordModelUsage ..) trivial) (fun _ => ih)
  · trivial

/-! What the entry points do besides. -/

theorem loose_requireStore : (rt.requireStore e).AllOps Loose := by
  unfold AgentRuntime.requireStore
  split <;> trivial

theorem loose_active : (rt.active e).AllOps Loose :=
  Prog.allOps_bind loose_requireStore (fun _ =>
    Prog.allOps_bind (loose_perform (o := .ledger (.read ..)) trivial) (fun _ => trivial))

theorem loose_submit (item : PendingInput) : (rt.submit e item).AllOps Loose := by
  refine Prog.allOps_bind ?_ (fun id => Prog.allOps_bind loose_requireStore (fun _ =>
    Prog.allOps_bind (loose_perform (o := .ledger (.enqueueInput ..)) trivial) (fun _ => trivial)))
  unfold AgentRuntime.inputIdOf
  split
  · exact loose_perform (o := .uuid4) trivial
  · exact loose_perform (o := .uuid4) trivial
  · trivial

theorem loose_queueBehind {α : Type} (active : Suspension) (text : String)
    (promptId : Option String) :
    (rt.queueBehind (α := α) e active text promptId).AllOps Loose := by
  refine Prog.allOps_bind (loose_perform (o := .now) trivial) (fun _ =>
    Prog.allOps_bind (loose_submit _) (fun _ => ?_))
  split <;> trivial

theorem loose_forkHistory (src : Execution) (at_ : Option Uuid)
    (history : Option (List ModelMessage)) : (rt.forkHistory src at_ history).AllOps Loose := by
  unfold AgentRuntime.forkHistory
  split
  · trivial
  · split
    · refine Prog.allOps_bind (loose_perform (o := .readEntries _) trivial) (fun entries => ?_)
      split
      · trivial
      · split <;> trivial
    · trivial

theorem loose_state : (rt.state e).AllOps Loose := by
  refine Prog.allOps_bind ?_ (fun parked => ?_)
  · unfold AgentRuntime.parkedOn
    split
    · exact loose_active
    · trivial
  · split
    · trivial
    · split
      · refine Prog.allOps_bind (loose_perform (o := .readBranch _) trivial) (fun record => ?_)
        split <;> trivial
      · trivial

theorem loose_committedHistory : (rt.committedHistory e).AllOps Loose := by
  unfold AgentRuntime.committedHistory
  split
  · exact Prog.allOps_bind (loose_perform (o := .readEntries _) trivial) (fun _ => trivial)
  · trivial

theorem loose_pending : (rt.pending e).AllOps Loose := by
  unfold AgentRuntime.pending
  split
  · refine Prog.allOps_bind loose_active (fun parked => ?_)
    split <;> trivial
  · trivial

/-! What a fork copies. -/

theorem outer_copyCalls (source target : View) (src dst : Execution) (calls : List ToolCall) :
    (AgentRuntime.copyCalls source target src dst token calls).AllOps Outer := by
  induction calls with
  | nil => trivial
  | cons call calls ih =>
    refine Prog.allOps_bind (outer_perform (o := .ledger (.read ..)) trivial) (fun record => ?_)
    cases record with
    | absent => exact ih
    | running =>
      exact Prog.allOps_bind (outer_perform (o := .ledger (.start ..)) trivial) (fun _ => ih)
    | done value =>
      refine Prog.allOps_bind (outer_perform (o := .ledger (.start ..)) trivial)
        (fun inserted => ?_)
      split
      · exact Prog.allOps_bind (outer_perform (o := .ledger (.finishEffect ..)) trivial)
          (fun _ => Prog.allOps_bind ih (fun _ => trivial))
      · exact ih

theorem outer_copyRound (src dst : Execution) (history : List ModelMessage) :
    (rt.copyRound src dst token history).AllOps Outer := by
  unfold AgentRuntime.copyRound
  split
  · exact outer_copyCalls _ _ _ _ _
  · trivial

end

/-! What the boundary does around a node without asking anybody. -/

/-- No tool, no provider and no control point is reached, no input is settled, and neither the
tools that need an approval nor the reason to stop change. -/
def Still : Op → Prop
  | .handle .. | .provide _ | .ask .. => False
  | .ledger (.admitInputs ..) | .ledger (.discardInputs ..) => False
  | .modify f => ∀ a, (f a).approvalTools = a.approvalTools ∧ (f a).stopReason = a.stopReason
  | _ => True

theorem still_perform {o : Op} (h : Still o) : (perform o).AllOps Still := (Prog.allOps_op o).mpr h

theorem still_update {f : Attempt → Attempt}
    (h : ∀ a, (f a).approvalTools = a.approvalTools ∧ (f a).stopReason = a.stopReason) :
    (update f).AllOps Still :=
  still_perform (o := .modify f) h

theorem still_attempt : attempt.AllOps Still := still_perform (o := .get) trivial

section
variable {eff : Effects}

theorem still_ctx (messages : List ModelMessage) : (eff.ctx messages).AllOps Still :=
  Prog.allOps_bind still_attempt (fun _ => trivial)

theorem still_boundaryCtx (request : ModelRequest) : (eff.boundaryCtx request).AllOps Still :=
  Prog.allOps_bind still_attempt (fun _ => still_ctx _)

theorem still_plain {o : Op} (h : Plain o) : Still o := by
  cases o with
  | ledger | handle | provide | ask => exact h.elim
  | modify => exact fun a => ⟨(h a).1, (h a).2.2.2⟩
  | _ => trivial

theorem still_recordMessage (message : ModelMessage) :
    (eff.recordMessage message).AllOps Still := by
  unfold Effects.recordMessage
  split
  · trivial
  · exact (plain_append _ _).mono (fun _ => still_plain)

theorem still_recordTurn (response : ModelResponse) (result : NodeResult) :
    (eff.recordTurn response result).AllOps Still := by
  unfold Effects.recordTurn
  split
  · trivial
  · exact still_recordMessage _

theorem still_recordPending (response : ModelResponse) :
    (eff.recordPending response).AllOps Still := by
  refine Prog.allOps_bind still_attempt (fun a => ?_)
  split
  · trivial
  · split
    · trivial
    · exact still_perform (o := .ledger (.writeControl ..)) trivial

theorem still_claimRows (store : View) (branchId : String) (token : Nat)
    (represented : List String) (rows : List (InputRecord Value)) :
    (InputSession.claimRows store branchId token represented rows).AllOps Still := by
  induction rows with
  | nil => trivial
  | cons row rows ih =>
    refine Prog.allOps_bind still_attempt (fun a => ?_)
    split
    · exact ih
    · refine Prog.allOps_bind (still_perform (o := .ledger (.claimInput ..)) trivial) (fun _ =>
        Prog.allOps_bind (still_update (fun _ => ⟨rfl, rfl⟩)) (fun _ =>
          Prog.allOps_bind ?_ (fun item => Prog.allOps_bind ih (fun _ => trivial))))
      cases row.value <;> trivial

theorem still_claim (store : View) (branchId : String) (token : Nat) (represented : List String) :
    (InputSession.claim store branchId token represented).AllOps Still :=
  Prog.allOps_bind (still_perform (o := .ledger (.listInputs _)) trivial)
    (fun rows => still_claimRows _ _ _ _ rows)

theorem still_drain : eff.drain.AllOps Still := by
  refine Prog.allOps_bind still_attempt (fun a =>
    Prog.allOps_bind (still_update (fun _ => ⟨rfl, rfl⟩)) (fun _ => ?_))
  split
  · trivial
  · exact Prog.allOps_bind (still_claim _ _ _ _) (fun _ => trivial)

theorem still_lateInputs : eff.lateInputs.AllOps Still := by
  refine Prog.allOps_bind still_attempt (fun a => ?_)
  split
  · trivial
  · exact still_claim _ _ _ _

/-- An input is settled. -/
def Settling : Op → Prop
  | .ledger (.admitInputs ..) | .ledger (.discardInputs ..) => True
  | _ => False

theorem settling_discard (store : View) (branchId : String) (token : Nat)
    (items : List PendingInput) :
    (InputSession.discard store branchId token items).AllOps Settling := by
  unfold InputSession.discard
  split
  · trivial
  · exact (Prog.allOps_op (Op.ledger (.discardInputs ..))).mpr trivial

theorem settling_admitInputs (inputs : List PendingInput) :
    (eff.admitInputs inputs).AllOps Settling := by
  unfold Effects.admitInputs InputSession.admit_
  split
  · trivial
  · split
    · trivial
    · exact (Prog.allOps_op (Op.ledger (.admitInputs ..))).mpr trivial

/-! What the nodes do that enter the graph and ask the model. -/

/-- No tool is run, nobody is asked but the provider, the inputs and the transcript are left alone,
and the tools that need an approval are the agent's if they were. -/
def Requested (ai : PydanticAI) : Op → Prop
  | .get | .provide _ => True
  | .modify f => ∀ a, a.approvalTools = ai.unapproved → (f a).approvalTools = ai.unapproved
  | .ledger (.read ..) | .ledger (.start ..) | .ledger (.finishEffect ..) | .ledger (.forget ..) =>
    True
  | _ => False

section
variable {ai : PydanticAI}

theorem requested_update {f : Attempt → Attempt}
    (h : ∀ a, a.approvalTools = ai.unapproved → (f a).approvalTools = ai.unapproved) :
    (update f).AllOps (Requested ai) :=
  (Prog.allOps_op (Op.modify f)).mpr h

theorem requested_attempt : attempt.AllOps (Requested ai) := (Prog.allOps_op Op.get).mpr trivial

theorem requested_requestOnce (store : View) (key : String) (context : RequestContext) :
    (eff.requestOnce store key context
      (fun request => perform (.provide request))).AllOps (Requested ai) := by
  refine Prog.allOps_bind ((Prog.allOps_op (Op.ledger (.start ..))).mpr trivial) (fun inserted => ?_)
  split
  · refine Prog.allOps_bind (Prog.allOps_tryCatch ((Prog.allOps_op (Op.provide _)).mpr trivial)
      (fun error => ?_)) (fun response => Prog.allOps_bind
        ((Prog.allOps_op (Op.ledger (.finishEffect ..))).mpr trivial) (fun _ => trivial))
    unfold Effects.unasked
    split
    · trivial
    · exact Prog.allOps_bind ((Prog.allOps_op (Op.ledger (.forget ..))).mpr trivial)
        (fun _ => trivial)
  · trivial

theorem requested_requestNode (request : ModelRequest) :
    (ai.requestNode eff request).AllOps (Requested ai) := by
  refine Prog.allOps_bind (requested_update (fun _ h => h)) (fun _ =>
    Prog.allOps_bind (requested_update (fun _ _ => rfl)) (fun _ =>
    Prog.allOps_bind requested_attempt (fun a => Prog.allOps_bind ?_ (fun response =>
    Prog.allOps_bind (requested_update (fun _ h => h)) (fun _ => trivial)))))
  unfold Effects.wrapModelRequest
  split
  · exact (Prog.allOps_op (Op.provide _)).mpr trivial
  · refine Prog.allOps_bind ((Prog.allOps_op (Op.ledger (.read ..))).mpr trivial) (fun step => ?_)
    cases step with
    | done value => cases value <;> trivial
    | running =>
      simp only
      split
      · exact Prog.allOps_bind ((Prog.allOps_op (Op.ledger (.forget ..))).mpr trivial)
          (fun _ => requested_requestOnce _ _ _)
      · trivial
    | absent => exact requested_requestOnce _ _ _

theorem requested_enterNode (prompt : Option Json) (results : DeferredToolResults) :
    (ai.enterNode prompt results).AllOps (Requested ai) := by
  refine Prog.allOps_bind requested_attempt (fun a => ?_)
  split
  · trivial
  · exact Prog.allOps_bind (requested_update (fun _ h => h)) (fun _ =>
      Prog.allOps_bind (requested_update (fun _ _ => rfl)) (fun _ => trivial))

end

end

/-! What a call of a round does. -/

/-- The tool, its step, and the questions asked about it; the inputs, the provider and the
transcript are left alone. -/
def Called : Op → Prop
  | .handle .. => True
  | .ask _ (.preToolUse ..) | .ask _ (.onResume ..) | .ask _ (.postToolUse ..) => True
  | .modify f => ∀ a, (f a).approvalTools = a.approvalTools ∧ (f a).stopReason = a.stopReason ∧
      (f a).prefetched = a.prefetched ∧ (f a).seen = a.seen
  | .get => True
  | .ledger (.read ..) | .ledger (.start ..) | .ledger (.finishEffect ..) | .ledger (.forget ..)
  | .ledger (.writeControl ..) => True
  | _ => False

theorem called_perform {o : Op} (h : Called o) : (perform o).AllOps Called :=
  (Prog.allOps_op o).mpr h

theorem called_attempt : attempt.AllOps Called := called_perform (o := .get) trivial

theorem called_update {f : Attempt → Attempt} (h : ∀ a, (f a).approvalTools = a.approvalTools ∧
    (f a).stopReason = a.stopReason ∧ (f a).prefetched = a.prefetched ∧ (f a).seen = a.seen) :
    (update f).AllOps Called :=
  called_perform (o := .modify f) h

section
variable {eff : Effects} {call : ToolCall}

theorem called_ctx (messages : List ModelMessage) : (eff.ctx messages).AllOps Called :=
  Prog.allOps_bind called_attempt (fun _ => trivial)

theorem called_readStep (key : String) : (eff.readStep key).AllOps Called := by
  unfold Effects.readStep
  split
  · trivial
  · exact called_perform (o := .ledger (.read ..)) trivial

theorem called_verdict (approved : Bool) (args : Json) :
    (eff.verdict approved call args).AllOps Called := by
  have hreplayed : (eff.replayed call).AllOps Called := by
    unfold Effects.replayed
    split
    · trivial
    · exact Prog.allOps_bind (called_readStep _) (fun _ => trivial)
  have hresume : ∀ here call, (eff.resumeDecision here call).AllOps Called := by
    intro here call
    unfold Effects.resumeDecision
    split
    · exact called_perform (o := .ask _ (.onResume ..)) trivial
    · trivial
  have hgate : ∀ here, (eff.gate here call).AllOps Called := by
    intro here
    refine Prog.allOps_bind ?_ (fun _ => Prog.allOps_bind called_attempt (fun _ => trivial))
    unfold Effects.policy
    split
    · trivial
    · exact called_perform (o := .ask _ (.preToolUse ..)) trivial
  refine Prog.allOps_bind (called_ctx _) (fun here => Prog.allOps_bind hreplayed (fun replayed => ?_))
  split
  · trivial
  · split
    · exact Prog.allOps_bind (hresume _ _) (fun _ => trivial)
    · exact Prog.allOps_bind (hgate _) (fun _ => trivial)

theorem called_enforce (args : Json) (decision : ToolDecision) :
    (Effects.enforce call args decision).AllOps Called := by
  have hmade : ∀ refused, (Effects.made call refused).AllOps Called := fun _ =>
    called_update (fun _ => ⟨rfl, rfl, rfl, rfl⟩)
  cases decision with
  | «continue» => exact Prog.allOps_bind (hmade _) (fun _ => trivial)
  | deny result => exact Prog.allOps_bind (hmade _) (fun _ => trivial)
  | suspend request =>
    simp only [Effects.enforce]
    split
    · trivial
    · exact Prog.allOps_bind (called_update (fun _ => ⟨rfl, rfl, rfl, rfl⟩))
        (fun _ => Prog.allOps_bind (hmade _) (fun _ => trivial))

theorem called_runOrReplay (args : Json) :
    (eff.runOrReplay call args (fun args => perform (.handle call args))).AllOps Called := by
  have hforget : ∀ (store : View) key, (store.forget eff.branchId key eff.token).AllOps Called :=
    fun _ _ => called_perform (o := .ledger (.forget ..)) trivial
  have hexecute : ∀ key, (eff.execute key args
      (fun args => perform (.handle call args))).AllOps Called := by
    intro key
    refine Prog.allOps_bind (Prog.allOps_tryCatch (Prog.allOps_bind
      (called_perform (o := .handle call args) trivial) (fun _ => trivial)) (fun error => ?_))
      (fun record => Prog.allOps_bind ?_ (fun _ => trivial))
    · unfold Effects.caught
      split
      · refine Prog.allOps_bind ?_ (fun _ => trivial)
        unfold Effects.clearIntent
        split
        · exact hforget _ _
        · trivial
      · split <;> trivial
    · unfold Effects.finishStep
      split
      · exact called_perform (o := .ledger (.finishEffect ..)) trivial
      · trivial
  have hrun : ∀ store key, (eff.runStep store key args
      (fun args => perform (.handle call args))).AllOps Called := by
    intro store key
    refine Prog.allOps_bind (called_perform (o := .ledger (.start ..)) trivial) (fun inserted => ?_)
    split
    · exact hexecute _
    · trivial
  unfold Effects.runOrReplay
  split
  · exact hexecute _
  · refine Prog.allOps_bind (called_perform (o := .ledger (.read ..)) trivial) (fun step => ?_)
    cases step with
    | done value => cases value <;> trivial
    | running =>
      simp only
      split
      · exact Prog.allOps_bind (hforget _ _) (fun _ => hrun _ _)
      · trivial
    | absent => exact hrun _ _

theorem called_journalOnce (record : Record) : (eff.journalOnce call record).AllOps Called := by
  have hproject : ∀ plane, (eff.project plane call record).AllOps Called := by
    intro plane
    refine Prog.allOps_bind (called_ctx _) (fun here => ?_)
    cases record with
    | ok value =>
      exact Prog.allOps_bind (called_perform (o := .ask _ (.postToolUse ..)) trivial)
        (fun _ => trivial)
    | failed error =>
      exact Prog.allOps_bind (called_perform (o := .ask _ (.postToolUse ..)) trivial)
        (fun _ => trivial)
  refine Prog.allOps_bind (called_readStep _) (fun journaled => ?_)
  split
  · trivial
  · trivial
  · split
    · trivial
    · refine Prog.allOps_bind (hproject _) (fun projected =>
        Prog.allOps_bind ?_ (fun _ => trivial))
      unfold Effects.journal
      split
      · trivial
      · exact called_perform (o := .ledger (.writeControl ..)) trivial

theorem called_executeCall (ai : PydanticAI) (approval : Option Approval) :
    (ai.executeCall eff call approval).AllOps Called := by
  have hhooks : ∀ approved args,
      (PydanticAI.throughHooks eff approved call args).AllOps Called := by
    intro approved args
    refine Prog.allOps_tryCatch ?_ (fun error => by cases error <;> trivial)
    refine Prog.allOps_bind (Prog.allOps_bind (called_verdict _ _)
      (fun asked => called_enforce _ _)) (fun args => Prog.allOps_bind ?_ (fun _ => trivial))
    refine Prog.allOps_bind (called_runOrReplay args) (fun step =>
      Prog.allOps_bind (called_journalOnce step) (fun record => ?_))
    cases record <;> trivial
  unfold PydanticAI.executeCall
  split
  · trivial
  · split
    · trivial
    · exact hhooks _ _
  · split
    · trivial
    · exact hhooks _ _

end

/-! The whole from its parts. -/

/-- What the caller itself passes to the attempts of an operation. -/
def controls : Operation → Option String
  | .run _ options _ | .fork _ _ _ _ _ options _ _ => options.controls
  | .resume _ _ controls _ _ | .recover _ controls _ _ | .dispatch _ controls _ _ => controls
  | .submit _ | .state | .pending => none

def results : Operation → DeferredToolResults
  | .run _ options _ | .fork _ _ _ _ _ options _ _ => options.results
  | _ => []

def resumed : Operation → List (String × Resumed)
  | .run _ options _ | .fork _ _ _ _ _ options _ _ => options.resumed
  | _ => []

/-- The options of an attempt that the operation begins itself. -/
structure Hosted (op : Operation) (options : Options) : Prop where
  controls : options.controls = controls op
  results : options.results = results op
  resumed : options.resumed = resumed op

/-- The options of an attempt that a recovery begins. -/
structure Unaided (op : Operation) : Prop where
  results : results op = []
  resumed : resumed op = []

/-! The lease, and what is done under it. -/

/-- A property that composition keeps, of what is done beside the lease and of what is done under
it where that is as `B` says of the token. -/
structure Driven (K : (α : Type) → Program α → Prop) (B : Nat → (α : Type) → Program α → Prop)
    (rt : AgentRuntime) (e : Execution) : Prop where
  compositional : Prog.Compositional K
  loose : ∀ o, Loose o → K o.Res (perform o)
  lease : ∀ {α : Type} {body : Nat → Program α}, (∀ token, B token α (body token)) →
    K α (rt.lease e body)

/-- What an operation does under the lease. -/
structure Bodies (B : Nat → (α : Type) → Program α → Prop) (rt : AgentRuntime) (agent : Agent)
    (e : Execution) (op : Operation) : Prop where
  attempts : ∀ token prompt options, Hosted op options →
    B token _ (rt.attemptRun e token agent prompt options)
  forks : ∀ token src prompt history (regate : Bool) options, Hosted op options →
    B token _ ((rt.copyRound src e token history).bind (fun copied =>
      rt.attemptRun e token agent prompt
        { options with messageHistory := some history, regate := if regate then copied else [] }))
  resumes : ∀ token pendingId answer rulesVersion,
    B token _ (rt.resumeLeased e token pendingId answer agent (controls op) rulesVersion)
  recovers : Unaided op → ∀ token history rulesVersion,
    B token _ (rt.recoverLeased e token agent history (controls op) rulesVersion)

section
variable {K : (α : Type) → Program α → Prop} {B : Nat → (α : Type) → Program α → Prop}
variable {rt : AgentRuntime} {e : Execution} {agent : Agent}

theorem Driven.of_loose (h : Driven K B rt e) {α : Type} {p : Program α} (hp : p.AllOps Loose) :
    K α p :=
  h.compositional.ofAllOps hp h.loose

theorem Driven.run (h : Driven K B rt e) {prompt : Option String} {options : Options}
    (attempt : ∀ token prompt, B token _ (rt.attemptRun e token agent prompt options)) :
    K _ (rt.run e agent prompt options) := by
  have hk := h.compositional
  unfold AgentRuntime.run
  split
  · exact h.lease (fun token => attempt token _)
  · split
    · refine hk.bind (h.of_loose loose_active) (fun parked => ?_)
      split
      · exact h.of_loose (loose_queueBehind _ _ _)
      · exact h.lease (fun token => attempt token _)
    · exact h.lease (fun token => attempt token _)

theorem Driven.resume (h : Driven K B rt e) {pendingId : String} {answer : Answer}
    {controls : Option String} {rulesVersion : String}
    (resumed : ∀ token,
      B token _ (rt.resumeLeased e token pendingId answer agent controls rulesVersion)) :
    K _ (rt.resume e pendingId answer agent controls rulesVersion) :=
  h.compositional.bind (h.of_loose loose_requireStore) (fun _ => h.lease resumed)

theorem Driven.fork (h : Driven K B rt e) {src : Execution} {at_ : Option Uuid}
    {prompt : Option String} {history : Option (List ModelMessage)} {regate : Bool}
    {options : Options}
    (forked : ∀ token history, B token _ ((rt.copyRound src e token history).bind (fun copied =>
      rt.attemptRun e token agent prompt
        { options with messageHistory := some history, regate := if regate then copied else [] }))) :
    K _ (rt.fork src at_ e agent prompt history regate options) :=
  h.compositional.bind (h.of_loose (loose_forkHistory _ _ _))
    (fun history => h.lease (fun token => forked token history))

theorem Driven.named (h : Driven K B rt e) (state : Option String) :
    K _ (Dispatch.named rt e state) := by
  unfold Dispatch.named
  split
  · exact h.compositional.ret _
  · exact h.of_loose loose_state

theorem Driven.invalid (h : Driven K B rt e) {α : Type} (state : Option String)
    (command : Command) : K α ((Dispatch.named rt e state).bind
      (fun state => Dispatch.invalidTransition state command)) :=
  h.compositional.bind (h.named state) (fun _ => h.compositional.raise _)

theorem Driven.offer (h : Driven K B rt e) {command : Command} {state : Option String}
    {rows : List Transition} {contended : Option Exn}
    (hrows : ∀ row ∈ rows, K _ (row.apply command state)) :
    K _ (Dispatch.offer rt e command state rows contended) := by
  have hk := h.compositional
  induction rows generalizing contended with
  | nil =>
    cases contended with
    | none => exact h.invalid state command
    | some error => exact hk.raise _
  | cons row rows ih =>
    have hrest : ∀ contended, K _ (Dispatch.offer rt e command state rows contended) :=
      fun _ => ih (fun row hrow => hrows row (List.mem_cons_of_mem _ hrow))
    unfold Dispatch.offer
    split
    · refine hk.tryCatch (hrows row List.mem_cons_self) (fun error => ?_)
      split
      · exact hrest _
      · exact hk.raise _
    · exact hrest _

theorem Driven.dispatch (h : Driven K B rt e) {command : Command} {controls : Option String}
    {rulesVersion : String}
    (attempt : ∀ token prompt options, options.controls = controls → options.results = [] →
      options.resumed = [] → B token _ (rt.attemptRun e token agent prompt options))
    (resumed : ∀ token pendingId answer,
      B token _ (rt.resumeLeased e token pendingId answer agent controls rulesVersion))
    (recovered : ∀ token history,
      B token _ (rt.recoverLeased e token agent history controls rulesVersion)) :
    K _ (rt.dispatch e agent command controls rulesVersion) := by
  have hk := h.compositional
  unfold AgentRuntime.dispatch
  split
  · refine hk.bind ?_ (fun state => h.offer ?_)
    · unfold Dispatch.observe
      split
      · exact hk.bind (h.of_loose loose_state) (fun _ => hk.ret _)
      · exact hk.ret _
    · intro row hrow
      have hmem := (List.mem_filter.mp hrow).1
      simp only [Dispatch.defaultRouter, List.mem_cons, List.not_mem_nil, or_false] at hmem
      rcases hmem with rfl | rfl | rfl | rfl | rfl
      · cases command with
        | answer pendingId payload =>
          refine hk.tryCatch (hk.bind (h.resume (fun token => resumed token _ _))
            (fun _ => hk.ret _)) (fun error => ?_)
          split
          · exact h.invalid state _
          · exact hk.raise _
        | prompt => exact hk.raise _
        | recover => exact hk.raise _
      · exact hk.bind (h.of_loose loose_committedHistory) (fun history =>
          hk.bind (h.lease (fun token => recovered token history)) (fun _ => hk.ret _))
      · exact hk.bind (h.run (fun token prompt => attempt token prompt _ rfl rfl rfl))
          (fun _ => hk.ret _)
      · cases command with
        | prompt text promptId =>
          exact hk.bind (h.run (fun token prompt => attempt token prompt _ rfl rfl rfl))
            (fun _ => hk.ret _)
        | answer => exact hk.raise _
        | recover => exact hk.raise _
      · cases command with
        | prompt text promptId =>
          exact hk.bind (h.loose .now trivial) (fun _ =>
            hk.bind (h.of_loose (loose_submit _)) (fun _ => hk.ret _))
        | answer => exact hk.raise _
        | recover => exact hk.raise _
  · exact hk.raise _

/-- Every operation of the runtime. -/
theorem Driven.serve (h : Driven K B rt e) {op : Operation} (bodies : Bodies B rt agent e op) :
    K _ (rt.serve agent e op) := by
  have hk := h.compositional
  have hdispatch : Unaided op → ∀ command rulesVersion,
      K _ (rt.dispatch e agent command (controls op) rulesVersion) := by
    intro unaided command rulesVersion
    refine h.dispatch ?_ (fun token pendingId answer => bodies.resumes token pendingId answer _)
      (fun token history => bodies.recovers unaided token history _)
    intro token prompt options hcontrols hresults hresumed
    exact bodies.attempts token prompt options
      ⟨hcontrols, hresults.trans unaided.results.symm, hresumed.trans unaided.resumed.symm⟩
  cases op with
  | run prompt options conversationId =>
    exact hk.bind (h.run (fun token prompt => bodies.attempts token prompt _ ⟨rfl, rfl, rfl⟩))
      (fun _ => hk.ret _)
  | resume answer pendingId controls rulesVersion conversationId =>
    have hresume : ∀ pendingId, K _ ((rt.resume e pendingId answer agent controls rulesVersion).bind
        (fun outcome => .ret (Reply.outcome outcome))) := fun pendingId =>
      hk.bind (h.resume (fun token => bodies.resumes token _ _ _)) (fun _ => hk.ret _)
    cases pendingId with
    | some pendingId => exact hresume pendingId
    | none =>
      refine hk.bind (h.of_loose loose_pending) (fun undecided => ?_)
      split
      · exact hk.raise _
      · exact hresume _
  | recover history controls rulesVersion conversationId =>
    cases history with
    | some history =>
      exact hk.bind (h.lease (fun token => bodies.recovers ⟨rfl, rfl⟩ token history _))
        (fun _ => hk.ret _)
    | none => exact hk.bind (hdispatch ⟨rfl, rfl⟩ _ _) (fun _ => hk.ret _)
  | fork source at_ prompt history regate options sourceConversationId conversationId =>
    exact hk.bind (h.fork (fun token history => bodies.forks token _ _ history regate _
      ⟨rfl, rfl, rfl⟩)) (fun _ => hk.ret _)
  | dispatch command controls rulesVersion conversationId =>
    exact hk.bind (hdispatch ⟨rfl, rfl⟩ _ _) (fun _ => hk.ret _)
  | submit item => exact hk.bind (h.of_loose (loose_submit _)) (fun _ => hk.ret _)
  | state => exact hk.bind (h.of_loose loose_state) (fun _ => hk.ret _)
  | pending => exact hk.bind (h.of_loose loose_pending) (fun _ => hk.ret _)

/-- And every operation of a class agent, for which a park is an outcome. -/
theorem Driven.settled (h : Driven K B rt e) {op : Operation} (bodies : Bodies B rt agent e op) :
    K _ (settled op (rt.serve agent e op)) := by
  unfold Semora.settled
  split
  · refine h.compositional.tryCatch (h.serve bodies) (fun error => ?_)
    split
    · exact h.compositional.ret _
    · exact h.compositional.raise _
  · exact h.serve bodies

end

/-! The same throughout. -/

/-- A property that composition keeps, and that all the runtime does itself has. -/
structure Carried (K : (α : Type) → Program α → Prop) : Prop where
  compositional : Prog.Compositional K
  outer : ∀ o, Outer o → K o.Res (perform o)

/-- What the attempts and the finalizations of an operation have. -/
structure Parts (K : (α : Type) → Program α → Prop) (rt : AgentRuntime) (agent : Agent)
    (op : Operation) : Prop where
  attempts : ∀ e token prompt options, Hosted op options →
    K _ (rt.attemptRun e token agent prompt options)
  finalizes : ∀ e token active answers rulesVersion,
    K _ (rt.finalize e token agent active answers (controls op) rulesVersion)

section
variable {K : (α : Type) → Program α → Prop} {rt : AgentRuntime} {e : Execution} {token : Nat}
variable {agent : Agent}

theorem Carried.of_outer (h : Carried K) {α : Type} {p : Program α} (hp : p.AllOps Outer) :
    K α p :=
  h.compositional.ofAllOps hp h.outer

theorem Carried.of_plain (h : Carried K) {α : Type} {p : Program α} (hp : p.AllOps Plain) :
    K α p :=
  h.of_outer (hp.mono (fun _ => outer_plain))

theorem Carried.of_loose (h : Carried K) {α : Type} {p : Program α} (hp : p.AllOps Loose) :
    K α p :=
  h.of_outer (hp.mono (fun _ => outer_loose))

theorem Carried.attemptRun (h : Carried K) {prompt : Option String} {options : Options}
    (begin : K Unit (update fun _ => {}))
    (admits : K _ (rt.admitPrompt e token prompt options.promptId))
    (run : ∀ prompt history, K _
      (agent.run (rt.effectsOf e token agent options) prompt history options.results)) :
    K _ (rt.attemptRun e token agent prompt options) := by
  have hk := h.compositional
  refine hk.bind begin (fun _ => hk.bind (h.of_plain (plain_openBranch _)) (fun history =>
    hk.bind admits (fun prompt => hk.bind (run _ _) (fun output =>
      hk.bind (h.of_plain plain_replaceFinal) (fun _ => ?_)))))
  split
  · exact h.of_outer outer_park
  · exact h.of_plain plain_close

theorem Carried.finalize (h : Carried K) {active : Suspension}
    {answers : List (String × Answer)} {controls : Option String} {rulesVersion : String}
    (attempt : ∀ results, AgentRuntime.approvals active.continuation.calls answers = some results →
      K _ (rt.attemptRun (AgentRuntime.rejoined e active) token agent none
        { controls, rulesVersion, messageHistory := some active.continuation.messages, results
          resumed := AgentRuntime.resumedCalls active answers })) :
    K _ (rt.finalize e token agent active answers controls rulesVersion) := by
  have hk := h.compositional
  refine hk.bind (h.of_loose loose_requireStore) (fun store => ?_)
  split
  · exact hk.raise _
  · rename_i results hresults
    exact hk.bind (h.outer (.ledger (.writeControl ..)) trivial) (fun _ =>
      hk.bind (attempt results hresults) (fun outcome =>
        hk.bind (h.outer (.ledger (.writeControl ..)) trivial) (fun _ => hk.ret outcome)))

theorem Carried.driven (h : Carried K) : Driven K (fun _ => K) rt e where
  compositional := h.compositional
  loose o ho := h.outer o (outer_loose ho)
  lease := by
    intro α body hbody
    have hk := h.compositional
    unfold AgentRuntime.lease
    split
    · exact hbody 0
    · refine hk.bind (h.outer .uuid4 trivial) (fun owner =>
        hk.bind (h.outer (.ledger (.acquire ..)) trivial) (fun token => ?_))
      split
      · exact hk.raise _
      · exact hk.finally_ (hbody token) (h.outer (.ledger (.release ..)) trivial)

theorem Carried.bodies (h : Carried K) {op : Operation} (parts : Parts K rt agent op) :
    Bodies (fun _ => K) rt agent e op where
  attempts := parts.attempts e
  forks := by
    intro token src prompt history regate options hosted
    refine h.compositional.bind (h.of_outer (outer_copyRound _ _ _)) (fun copied => ?_)
    exact parts.attempts e token prompt _ ⟨hosted.controls, hosted.results, hosted.resumed⟩
  resumes := by
    intro token pendingId answer rulesVersion
    have hk := h.compositional
    refine hk.bind (h.of_loose loose_requireStore) (fun store =>
      hk.bind (h.of_loose loose_active) (fun parked => ?_))
    split
    · exact hk.raise _
    · refine hk.bind (h.outer (.ledger (.writeControl ..)) trivial) (fun _ => ?_)
      split
      · exact parts.finalizes e token _ _ _
      · exact hk.raise _
  recovers := by
    intro unaided token history rulesVersion
    have hk := h.compositional
    have hagain := parts.attempts e token none
      { controls := controls op, rulesVersion, messageHistory := some history }
      ⟨rfl, unaided.results.symm, unaided.resumed.symm⟩
    unfold AgentRuntime.recoverLeased
    simp only
    split
    · exact hagain
    · refine hk.bind (h.of_loose loose_active) (fun parked => ?_)
      split
      · split
        · exact parts.finalizes e token _ _ _
        · exact hk.raise _
      · refine hk.bind (h.outer (.ledger (.read ..)) trivial) (fun recorded => ?_)
        split
        · exact hagain
        · exact hk.raise _

theorem Carried.serve (h : Carried K) {op : Operation} (parts : Parts K rt agent op) :
    K _ (rt.serve agent e op) :=
  h.driven.serve (h.bodies parts)

theorem Carried.settled (h : Carried K) {op : Operation} (parts : Parts K rt agent op) :
    K _ (settled op (rt.serve agent e op)) :=
  h.driven.settled (h.bodies parts)

/-- The nodes of the agent, one after the other: `N` holds of each node that is come to. -/
theorem iterate_of (hk : Prog.Compositional K) {ai : PydanticAI} {eff : Effects}
    {prompt : Option Json} {results : DeferredToolResults} {N : Node → Prop}
    (node : ∀ node, N node → K _ (eff.wrapNodeRun node (ai.runNode eff prompt results)))
    (leads : ∀ node, N node → (eff.wrapNodeRun node (ai.runNode eff prompt results)).AllRets
      (fun result => ∀ next, result = .node next → N next))
    (advance : ∀ next, K _ (PydanticAI.advance next)) (fuel : Nat) {start : Node}
    (hstart : N start) : K _ (ai.iterate eff prompt results fuel start) := by
  induction fuel generalizing start with
  | zero => exact hk.raise _
  | succ fuel ih =>
    refine hk.bindRets (node start hstart) (leads start hstart) (fun result hresult => ?_)
    cases result with
    | finish output => exact hk.ret _
    | node next => exact hk.bind (advance next) (fun _ => ih (hresult next rfl))

/-- A run of the agent is left with how it asks the provider and how it runs the calls of a round. -/
theorem run_of (hk : Prog.Compositional K) {ai : PydanticAI} {eff : Effects}
    (mute : ∀ o, Performs eff false .mute o → K o.Res (perform o))
    (requests : ∀ context, K _ (eff.wrapModelRequest ai.digest context
      (fun context => perform (.provide context))))
    (rounds : ∀ calls : List (ToolCall × Option Approval),
      K _ (ai.gather (calls.map (fun item => ai.executeCall eff item.1 item.2))))
    (prompt : Option Json) (history : List ModelMessage) (results : DeferredToolResults) :
    K _ (ai.run eff prompt history results) := by
  have hmute : ∀ {α : Type} {p : Program α}, Within eff false .mute p → K α p := fun hp =>
    hk.ofAllOps hp mute
  have htalk : ∀ {f : Attempt → Attempt}, (∀ a, (f a).seen = a.seen) → K Unit (update f) :=
    fun hf => hmute (within_talk hf)
  have hnode : ∀ node, K _ (ai.runNode eff prompt results node) := by
    intro node
    cases node with
    | userPrompt =>
      refine hk.bind (hmute within_attempt) (fun a => ?_)
      split
      · exact hk.raise _
      · exact hk.bind (htalk (fun _ => rfl)) (fun _ =>
          hk.bind (htalk (fun _ => rfl)) (fun _ => hk.ret _))
    | modelRequest request =>
      exact hk.bind (htalk (fun _ => rfl)) (fun _ => hk.bind (htalk (fun _ => rfl)) (fun _ =>
        hk.bind (hmute within_attempt) (fun a => hk.bind (requests _) (fun response =>
          hk.bind (htalk (fun _ => rfl)) (fun _ => hk.ret _)))))
    | callTools response results =>
      refine hk.bind (hmute within_attempt) (fun a => hk.bind (rounds _) (fun outcomes => ?_))
      split
      · exact hk.raise _
      · exact hk.ret _
      · exact hk.bind (htalk (fun _ => rfl)) (fun _ => hk.ret _)
  have hwrapped : ∀ node, K _ (eff.wrapNodeRun node (ai.runNode eff prompt results)) := by
    intro node
    refine hk.bind (htalk (fun _ => rfl)) (fun _ => ?_)
    cases node with
    | userPrompt => exact hnode _
    | modelRequest request =>
      refine hk.bind (hmute within_drain) (fun pending =>
        hk.bind (hmute (within_steered _ _)) (fun decision => ?_))
      split
      · exact hmute (within_halt _)
      · exact hk.bind (htalk (fun _ => rfl)) (fun _ =>
          hk.bind (hmute (within_recordMessage _)) (fun _ =>
            hk.bind (hmute (within_admitInputs _)) (fun _ => hnode _)))
    | callTools response results =>
      exact hk.bind (htalk (fun _ => rfl)) (fun _ => hk.bind (hmute (within_recordPending _))
        (fun _ => hk.bind (hnode _) (fun result => hk.bind (hmute (within_recordTurn _ _))
          (fun _ => hmute (within_decideFinish _)))))
  refine hk.bind (htalk (fun _ => rfl)) (fun _ => hk.bind ?_ (fun output =>
    hk.bind (htalk (fun _ => rfl)) (fun _ => hk.ret _)))
  refine iterate_of hk (N := fun _ => True) (fun node _ => hwrapped node)
    (fun node _ => by simpa using Prog.allRets_any _)
    (fun next => htalk (fun a => ?_)) _ trivial
  cases next with
  | modelRequest request => exact apply_ite Attempt.seen _ _ _ |>.trans (ite_self _)
  | userPrompt | callTools => rfl

end

end Semora.Proofs.Throughout
