import Semora.Proofs.Performs

/-! What holds of every operation of a tool call, or of a model request, whatever it says of each. -/

namespace Semora.Proofs
open Semora.Lib Semora.Store Semora.Transcript

/-- The inputs an attempt has in hand, and the context it makes of them. -/
def core (a : Attempt) :
    (List ModelMessage × Option ModelRequest) × Bool × List PendingInput × List String :=
  ((a.messages, a.request), a.running, a.prefetched, a.seen)

/-- `P` admits whatever an attempt does at the boundary of a call or of a model request. -/
structure Serves (eff : Effects) (P : Op → Prop) : Prop where
  get : P .get
  ask : ∀ plane q, P (.ask plane q)
  set : ∀ f : Attempt → Attempt, (∀ a, core (f a) = core a ∧ talk (f a) = talk a) → P (.modify f)
  handle : ∀ call args, P (.handle call args)
  provide : ∀ r, P (.provide r)
  read : ∀ v, eff.store = some v → ∀ k, P (.ledger (.read (v.filed eff.branchId) k))
  start : ∀ v, eff.store = some v → ∀ k, P (.ledger (.start (v.filed eff.branchId) k eff.token))
  finishEffect : ∀ v, eff.store = some v → ∀ k value,
    P (.ledger (.finishEffect (v.filed eff.branchId) k value eff.token))
  forget : ∀ v, eff.store = some v → ∀ k, P (.ledger (.forget (v.filed eff.branchId) k eff.token))
  writeControl : ∀ v, eff.store = some v → ∀ k value,
    P (.ledger (.writeControl (v.filed eff.branchId) k value eff.token))

/-- `P` admits what is done at the boundary of one call, up to its journal. -/
structure Carries (eff : Effects) (call : ToolCall) (P : Op → Prop) : Prop where
  get : P .get
  set : ∀ f : Attempt → Attempt, (∀ a, core (f a) = core a ∧ talk (f a) = talk a) → P (.modify f)
  gate : ∀ plane here, P (.ask plane (.preToolUse here call))
  revalidate : ∀ plane here args resume,
    P (.ask plane (.onResume here (Effects.withArgs call args) resume))
  handle : ∀ args, P (.handle call args)
  read : ∀ v, eff.store = some v →
    P (.ledger (.read (v.filed eff.branchId) (Effects.stepKey call.toolCallId)))
  start : ∀ v, eff.store = some v →
    P (.ledger (.start (v.filed eff.branchId) (Effects.stepKey call.toolCallId) eff.token))
  finishEffect : ∀ v, eff.store = some v → ∀ value, P (.ledger
    (.finishEffect (v.filed eff.branchId) (Effects.stepKey call.toolCallId) value eff.token))
  forget : ∀ v, eff.store = some v →
    P (.ledger (.forget (v.filed eff.branchId) (Effects.stepKey call.toolCallId) eff.token))

/-- `P` admits what the journal of one call does. -/
structure Journals (eff : Effects) (call : ToolCall) (P : Op → Prop) : Prop where
  get : P .get
  read : ∀ v, eff.store = some v →
    P (.ledger (.read (v.filed eff.branchId) (Effects.afterKey call.toolCallId)))
  ask : ∀ plane here result, P (.ask plane (.postToolUse here call result))
  writeControl : ∀ v, eff.store = some v → ∀ value, P (.ledger
    (.writeControl (v.filed eff.branchId) (Effects.afterKey call.toolCallId) value eff.token))

section
variable {eff : Effects} {P : Op → Prop} {call : ToolCall}

theorem allOps_ctx (get : P .get) (messages : List ModelMessage) : (eff.ctx messages).AllOps P :=
  Prog.allOps_bind ((Prog.allOps_op _).mpr get) (fun _ => trivial)

theorem allOps_readStep {key : String}
    (read : ∀ v, eff.store = some v → P (.ledger (.read (v.filed eff.branchId) key))) :
    (eff.readStep key).AllOps P := by
  unfold Effects.readStep
  split
  · trivial
  · exact (Prog.allOps_op _).mpr (read _ ‹_›)

section
variable (h : Carries eff call P)
include h

theorem carries_verdict (approved : Bool) (args : Json) :
    (eff.verdict approved call args).AllOps P := by
  have hreplayed : (eff.replayed call).AllOps P := by
    unfold Effects.replayed
    split
    · trivial
    · exact Prog.allOps_bind (allOps_readStep h.read) (fun _ => trivial)
  have hresume : ∀ here,
      (eff.resumeDecision here (Effects.withArgs call args)).AllOps P := by
    intro here
    unfold Effects.resumeDecision
    split
    · exact (Prog.allOps_op _).mpr (h.revalidate _ here args _)
    · trivial
  have hgate : ∀ here, (eff.gate here call).AllOps P := by
    intro here
    have hpolicy : (eff.policy here call).AllOps P := by
      unfold Effects.policy
      split
      · trivial
      · exact (Prog.allOps_op _).mpr (h.gate _ here)
    exact Prog.allOps_bind hpolicy
      (fun _ => Prog.allOps_bind ((Prog.allOps_op _).mpr h.get) (fun _ => trivial))
  apply Prog.allOps_bind (allOps_ctx h.get _)
  intro here
  apply Prog.allOps_bind hreplayed
  intro replayed
  split
  · trivial
  · split
    · exact Prog.allOps_bind (hresume _) (fun _ => trivial)
    · exact Prog.allOps_bind (hgate _) (fun _ => trivial)

theorem carries_enforce (asked : ToolCall) (args : Json) (decision : ToolDecision) :
    (Effects.enforce asked args decision).AllOps P := by
  have hmade : ∀ refused, (Effects.made asked refused).AllOps P :=
    fun refused => (Prog.allOps_op _).mpr (h.set _ (fun _ => ⟨rfl, rfl⟩))
  unfold Effects.enforce
  split
  · exact Prog.allOps_bind (hmade true) (fun _ => trivial)
  · split
    · trivial
    · apply Prog.allOps_bind
      · exact (Prog.allOps_op _).mpr (h.set _ (fun _ => ⟨rfl, rfl⟩))
      · intro _
        exact Prog.allOps_bind (hmade true) (fun _ => trivial)
  · exact Prog.allOps_bind (hmade false) (fun _ => trivial)

theorem carries_execute {key : Option String}
    (hkey : key = none ∨ key = some (Effects.stepKey call.toolCallId)) (args : Json) :
    (eff.execute key args (fun args => perform (.handle call args))).AllOps P := by
  have hhandle : (do
      let value ← perform (.handle call args)
      return Record.ok value).AllOps P :=
    Prog.allOps_bind ((Prog.allOps_op _).mpr (h.handle args)) (fun _ => trivial)
  have hclear : (eff.clearIntent key).AllOps P := by
    unfold Effects.clearIntent
    split
    · rcases hkey with hk | hk
      · cases hk
      · cases hk
        exact (Prog.allOps_op _).mpr (h.forget _ ‹_›)
    · trivial
  have hfinish : ∀ record, (eff.finishStep key record).AllOps P := by
    intro record
    unfold Effects.finishStep
    split
    · rcases hkey with hk | hk
      · cases hk
      · cases hk
        exact (Prog.allOps_op _).mpr (h.finishEffect _ ‹_› _)
    · trivial
  apply Prog.allOps_bind
  · apply Prog.allOps_tryCatch hhandle
    intro error
    unfold Effects.caught
    split
    · exact Prog.allOps_bind hclear (fun _ => trivial)
    · split <;> trivial
  · intro record
    exact Prog.allOps_bind (hfinish record) (fun _ => trivial)

theorem carries_runOrReplay (args : Json) :
    (eff.runOrReplay call args (fun args => perform (.handle call args))).AllOps P := by
  have hrun : ∀ v, eff.store = some v → (eff.runStep v (Effects.stepKey call.toolCallId) args
      (fun args => perform (.handle call args))).AllOps P := by
    intro v hv
    apply Prog.allOps_bind ((Prog.allOps_op _).mpr (h.start v hv))
    intro inserted
    split
    · exact carries_execute h (.inr rfl) args
    · trivial
  unfold Effects.runOrReplay
  split
  · exact carries_execute h (.inl rfl) args
  · rename_i v hv
    apply Prog.allOps_bind ((Prog.allOps_op _).mpr (h.read v hv))
    intro step
    split
    · rename_i value
      cases value <;> trivial
    · split
      · exact Prog.allOps_bind ((Prog.allOps_op _).mpr (h.forget v hv)) (fun _ => hrun v hv)
      · trivial
    · exact hrun v hv

end

theorem journals_journalOnce (h : Journals eff call P) (record : Record) :
    (eff.journalOnce call record).AllOps P := by
  have hproject : ∀ plane, (eff.project plane call record).AllOps P := by
    intro plane
    apply Prog.allOps_bind (allOps_ctx h.get _)
    intro here
    cases record with
    | ok value => exact Prog.allOps_bind ((Prog.allOps_op _).mpr (h.ask _ _ _)) (fun _ => trivial)
    | failed error =>
      exact Prog.allOps_bind ((Prog.allOps_op _).mpr (h.ask _ _ _)) (fun _ => trivial)
  have hjournal : ∀ projected,
      (eff.journal (Effects.afterKey call.toolCallId) projected).AllOps P := by
    intro projected
    unfold Effects.journal
    split
    · trivial
    · exact (Prog.allOps_op _).mpr (h.writeControl _ ‹_› _)
  apply Prog.allOps_bind (allOps_readStep h.read)
  intro journaled
  split
  · trivial
  · trivial
  · split
    · trivial
    · apply Prog.allOps_bind (hproject _)
      intro projected
      exact Prog.allOps_bind (hjournal _) (fun _ => trivial)

/-- One call of a round, whose boundary names no other call. -/
theorem carries_executeCall (h : Carries eff call P) (h' : Journals eff call P) (ai : PydanticAI)
    (approval : Option Approval) : (ai.executeCall eff call approval).AllOps P := by
  have hwrap : ∀ args, (eff.wrapToolExecute call args
      (fun args => perform (.handle call args))).AllOps P := by
    intro args
    apply Prog.allOps_bind (carries_runOrReplay h args)
    intro step
    apply Prog.allOps_bind (journals_journalOnce h' step)
    intro record
    cases record <;> trivial
  have hhooks : ∀ approved args, (PydanticAI.throughHooks eff approved call args).AllOps P := by
    intro approved args
    apply Prog.allOps_tryCatch
    · apply Prog.allOps_bind
      · exact Prog.allOps_bind (carries_verdict h _ _) (fun _ => carries_enforce h _ _ _)
      · intro args
        exact Prog.allOps_bind (hwrap args) (fun _ => trivial)
    · intro error
      cases error <;> trivial
  unfold PydanticAI.executeCall
  split
  · trivial
  · split
    · trivial
    · exact hhooks _ _
  · split
    · trivial
    · exact hhooks _ _

end

section
variable {eff : Effects} {P : Op → Prop} (h : Serves eff P)
include h

/-- One call of a round. -/
theorem serves_executeCall (ai : PydanticAI) (call : ToolCall) (approval : Option Approval) :
    (ai.executeCall eff call approval).AllOps P := by
  apply carries_executeCall
  · exact ⟨h.get, h.set, fun _ _ => h.ask _ _, fun _ _ _ _ => h.ask _ _, h.handle call,
      fun v hv => h.read v hv _, fun v hv => h.start v hv _, fun v hv => h.finishEffect v hv _,
      fun v hv => h.forget v hv _⟩
  · exact ⟨h.get, fun v hv => h.read v hv _, fun _ _ _ => h.ask _ _,
      fun v hv => h.writeControl v hv _⟩

/-- One model request. -/
theorem serves_wrapModelRequest (digest : Json → String) (request : RequestContext) :
    (eff.wrapModelRequest digest request (fun request => perform (.provide request))).AllOps P := by
  have hprovide : (perform (.provide request)).AllOps P := (Prog.allOps_op _).mpr (h.provide request)
  have hrequest : ∀ v, eff.store = some v → ∀ key, (eff.requestOnce v key request
      (fun request => perform (.provide request))).AllOps P := by
    intro v hv key
    apply Prog.allOps_bind ((Prog.allOps_op _).mpr (h.start v hv _))
    intro inserted
    split
    · apply Prog.allOps_bind
      · apply Prog.allOps_tryCatch hprovide
        intro error
        unfold Effects.unasked
        split
        · trivial
        · exact Prog.allOps_bind ((Prog.allOps_op _).mpr (h.forget v hv _)) (fun _ => trivial)
      · intro response
        exact Prog.allOps_bind ((Prog.allOps_op _).mpr (h.finishEffect v hv _ _)) (fun _ => trivial)
    · trivial
  unfold Effects.wrapModelRequest
  split
  · exact hprovide
  · rename_i v hv
    apply Prog.allOps_bind ((Prog.allOps_op _).mpr (h.read v hv _))
    intro step
    split
    · trivial
    · trivial
    · split
      · exact Prog.allOps_bind ((Prog.allOps_op _).mpr (h.forget v hv _))
          (fun _ => hrequest v hv _)
      · trivial
    · exact hrequest v hv _

theorem serves_recordPending (response : ModelResponse) :
    (eff.recordPending response).AllOps P := by
  apply Prog.allOps_bind ((Prog.allOps_op _).mpr h.get)
  intro a
  split
  · trivial
  · split
    · trivial
    · exact (Prog.allOps_op _).mpr (h.writeControl _ ‹_› _ _)

end

/-- Parking a round writes its index and its continuation, in one transition. -/
theorem allOps_park_writes {P : Op → Prop} {rt : AgentRuntime} {e : Execution} {token : Nat}
    {α : Type} {conversation : String} {eff : Effects} {requests : DeferredToolRequests}
    (get : P .get) (ask : ∀ plane q, P (.ask plane q))
    (commit : ∀ v, rt.storeFor e = some v → ∀ first continuation, P (.ledger
      (.commitTransition (v.filed e.branchId)
        { controls := AgentRuntime.parkWrites conversation first continuation } token))) :
    (rt.park (α := α) e conversation eff requests token).AllOps P := by
  have hsuspend : ∀ plane here messages completed parked,
      (AgentRuntime.suspendAll plane here messages completed parked).AllOps P := by
    intro plane here messages completed parked
    induction parked with
    | nil => trivial
    | cons item parked ih =>
      exact Prog.allOps_bind ((Prog.allOps_op _).mpr (ask _ _)) (fun _ => ih)
  have hannounce : ∀ a parked, (AgentRuntime.announce eff a parked).AllOps P := by
    intro a parked
    unfold AgentRuntime.announce
    split
    · trivial
    · exact hsuspend _ _ _ _ _
  have hpersist : ∀ first continuation,
      (rt.persist e conversation first continuation token).AllOps P := by
    intro first continuation
    unfold AgentRuntime.persist
    split
    · trivial
    · exact Prog.allOps_bind ((Prog.allOps_op _).mpr (commit _ ‹_› _ _)) (fun _ => trivial)
  unfold AgentRuntime.park
  split
  · trivial
  · split
    · trivial
    · trivial
    · dsimp only
      split
      · trivial
      · apply Prog.allOps_bind ((Prog.allOps_op _).mpr get)
        intro a
        apply Prog.allOps_bind (hannounce a _)
        intro _
        exact Prog.allOps_bind (hpersist _ _) (fun _ => trivial)

/-- Parking a round writes controls, and no input. -/
theorem allOps_park {P : Op → Prop} {rt : AgentRuntime} {e : Execution} {token : Nat} {α : Type}
    {conversation : String} {eff : Effects} {requests : DeferredToolRequests} (get : P .get)
    (ask : ∀ plane q, P (.ask plane q))
    (commit : ∀ v, rt.storeFor e = some v → ∀ controls,
      P (.ledger (.commitTransition (v.filed e.branchId) { controls } token))) :
    (rt.park (α := α) e conversation eff requests token).AllOps P :=
  allOps_park_writes get ask (fun v hv _ _ => commit v hv _)

end Semora.Proofs
