/-! The names of durable steps and of control records. -/

namespace Semora.Effects

/-- Control key holding the latest model-issued call order. -/
def pendingRound : String := "agent:pending-round"

/-- Control key holding the run-level continuation of a parked round. -/
def activeSuspension : String := "agent:active-suspension"

/-- The durable step of one tool call. -/
def stepKey (callId : String) : String := "tool:" ++ callId

/-- The marker that `post_tool_use` already crossed its boundary for one call. -/
def afterKey (callId : String) : String := "after:" ++ callId

/-- Per-call index into the one run-level continuation. -/
def suspendKey (callId : String) : String := "suspend:" ++ callId

/-- The durable step of one model request, from the digest of what was asked. -/
def modelKey (digest : String) : String := "agent:model:" ++ digest

/-- The keys the runtime files effects under. -/
def EffectKey (key : String) : Prop :=
  (∃ callId, key = stepKey callId) ∨ ∃ digest, key = modelKey digest

/-- The keys the runtime files control records under. -/
def ControlKey (key : String) : Prop :=
  (∃ callId, key = afterKey callId) ∨ (∃ callId, key = suspendKey callId) ∨
    key = pendingRound ∨ key = activeSuspension

theorem effect_control {effect control : String} (he : EffectKey effect)
    (hc : ControlKey control) : effect ≠ control := by
  intro h
  subst h
  rcases he with ⟨c, rfl⟩ | ⟨d, rfl⟩ <;>
  rcases hc with ⟨c', h⟩ | ⟨c', h⟩ | h | h <;>
  · have hl := congrArg String.toList h
    simp [stepKey, modelKey, afterKey, suspendKey, pendingRound, activeSuspension] at hl

/-- The records a round writes are not the continuation. -/
theorem afterKey_active (callId : String) : afterKey callId ≠ activeSuspension := by
  intro h
  have hl := congrArg String.toList h
  simp [afterKey, activeSuspension] at hl

theorem pendingRound_active : pendingRound ≠ activeSuspension := by decide

theorem stepKey_injective {a b : String} (h : stepKey a = stepKey b) : a = b := by
  have hl := congrArg String.toList h
  simp only [stepKey, String.toList_append, List.append_cancel_left_eq] at hl
  exact String.toList_inj.mp hl

theorem modelKey_injective {a b : String} (h : modelKey a = modelKey b) : a = b := by
  have hl := congrArg String.toList h
  simp only [modelKey, String.toList_append, List.append_cancel_left_eq] at hl
  exact String.toList_inj.mp hl

end Semora.Effects
