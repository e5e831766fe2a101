import Semora.Proofs.Performs
import Semora.Store.Branches

/-! Which branch, which conversation and which run record the operations of an attempt are about. -/

namespace Semora.Proofs
open Semora.Lib Semora.Store Semora.Transcript

/-- The name an execution's branch is filed under in the ledger. -/
def filedName (e : Execution) : String := (View.mk e.conversationId).filed e.branchId

/-- The operation is about the execution's branch, conversation or run record, or about none. -/
def Addresses (e : Execution) : Op → Prop
  | .ledger c => c.branchId = filedName e
  | .append entry => entry.conversationId = e.conversation
  | .readEntries conversation => conversation = e.conversation
  | .recordBranch b _ | .readBranch b | .recordModelUsage b _ _ => b = e.branchId
  | _ => True

section
variable {rt : AgentRuntime} {e : Execution}

theorem storeFor_view {v : View} (h : rt.storeFor e = some v) : v.filed e.branchId = filedName e := by
  unfold AgentRuntime.storeFor at h
  split at h
  · rw [← Option.some.inj h]
    rfl
  · cases h

variable (token : Nat) (agent : Agent) (options : Options)

theorem performs_addresses {quiet : Bool} {reach : Reach} {o : Op}
    (h : Performs (rt.effectsOf e token agent options) quiet reach o) : Addresses e o := by
  cases h with
  | append entry recorder h conversation loud =>
    simp only [AgentRuntime.effectsOf] at h
    split at h
    · rw [← Option.some.inj h] at conversation
      exact conversation
    · cases h
  | read v h | start v h | finishEffect v h | forget v h | writeControl v h => exact storeFor_view h
  | listInputs v h | claimInput v h | admitInputs v h | discardInputs v h | enqueueInput v h =>
    exact storeFor_view h
  | get | modify | now | ask | handle | provide => trivial

theorem addresses_within {quiet : Bool} {reach : Reach} {α : Type} {p : Program α}
    (h : Within (rt.effectsOf e token agent options) quiet reach p) : p.AllOps (Addresses e) :=
  Prog.AllOps.mono h (fun _ => performs_addresses token agent options)

include token agent options in
theorem addresses_openBranch (history : Option (List ModelMessage)) :
    (rt.openBranch e history).AllOps (Addresses e) := by
  unfold AgentRuntime.openBranch
  split
  · rename_i h
    have hopening : (Branch.opening e.conversation e.branchId).AllOps (Addresses e) := by
      refine Prog.allOps_bind ((Prog.allOps_op _).mpr rfl) (fun entries => ?_)
      refine Prog.allOps_bind ?_ (fun _ => (Prog.allOps_op _).mpr trivial)
      exact Prog.allOps_bind ((Prog.allOps_op _).mpr trivial) (fun _ => (Prog.allOps_op _).mpr rfl)
    refine Prog.allOps_bind hopening (fun _ => ?_)
    cases history with
    | none => exact Prog.allOps_bind ((Prog.allOps_op _).mpr trivial) (fun _ => trivial)
    | some history =>
      have hreplace : Within (rt.effectsOf e token agent options) false .mute
          (Branch.replace e.conversation history) :=
        within_replace (effectsOf_record rt e token agent options h) history
      exact Prog.allOps_bind (addresses_within token agent options hreplace) (fun _ => trivial)
  · trivial

include agent options in
theorem addresses_park {α : Type} {requests : DeferredToolRequests} {eff : Effects} :
    (rt.park (α := α) e e.conversation eff requests token).AllOps (Addresses e) := by
  have hannounce : ∀ a parked, Within (rt.effectsOf e token agent options) true .mute
      (AgentRuntime.announce eff a parked) := within_announce eff
  unfold AgentRuntime.park
  split
  · trivial
  · split
    · trivial
    · trivial
    · simp only
      split
      · trivial
      · refine Prog.allOps_bind ((Prog.allOps_op _).mpr trivial) (fun a =>
          Prog.allOps_bind ?_ (fun _ => Prog.allOps_bind ?_ (fun _ => trivial)))
        · exact addresses_within token agent options (hannounce a _)
        · unfold AgentRuntime.persist
          split
          · trivial
          · rename_i hstore
            exact Prog.allOps_bind ((Prog.allOps_op _).mpr (storeFor_view hstore)) (fun _ => trivial)

theorem addresses_close {output : Output} : (rt.close e output).AllOps (Addresses e) := by
  refine Prog.allOps_bind ((Prog.allOps_op _).mpr trivial) (fun a =>
    Prog.allOps_bind ?_ (fun _ => trivial))
  unfold AgentRuntime.closeRecord
  split
  · refine Prog.allOps_bind ((Prog.allOps_op _).mpr trivial) (fun _ =>
      Prog.allOps_bind ((Prog.allOps_op _).mpr rfl) (fun _ => ?_))
    induction AgentRuntime.usageOf a with
    | nil => trivial
    | cons item usage ih => exact Prog.allOps_bind ((Prog.allOps_op _).mpr rfl) (fun _ => ih)
  · trivial

/-- An attempt is about its own execution and nothing else. -/
theorem addresses_attemptRun (gathers : Gathers agent.toPydanticAI) (prompt : Option String) :
    (rt.attemptRun e token agent prompt options).AllOps (Addresses e) := by
  have hprompt : Within (rt.effectsOf e token agent options) true .mute
      (rt.admitPrompt e token prompt options.promptId) := within_admitPrompt rt e token agent options _ _
  have hfinal : Within (rt.effectsOf e token agent options) false .mute (rt.replaceFinal e) :=
    within_replaceFinal rt e token agent options
  refine Prog.allOps_bind ((Prog.allOps_op _).mpr trivial) (fun _ => ?_)
  refine Prog.allOps_bind (addresses_openBranch token agent options _) (fun history => ?_)
  refine Prog.allOps_bind (addresses_within token agent options hprompt) (fun prompt => ?_)
  refine Prog.allOps_bind (addresses_within token agent options (within_run gathers _ _ _))
    (fun output => ?_)
  refine Prog.allOps_bind (addresses_within token agent options hfinal) (fun _ => ?_)
  cases output with
  | deferred requests => exact addresses_park token agent options
  | text | value => exact addresses_close

end

end Semora.Proofs
