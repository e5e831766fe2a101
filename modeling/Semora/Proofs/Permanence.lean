import Mathlib.Tactic.NormNum
import Semora.Effects.Keys
import Semora.Store.Calls

/-! A step that is done stays done, with the value it was finished with. -/

namespace Semora.Proofs.Permanence
open Semora.Lib Semora.Store Semora.Effects MemorySteps

variable {V : Type}

/-- The keys a call overwrites without asking what they hold. -/
def controlKeys : Call V → List String
  | .writeControl _ k _ _ => [k]
  | .commitTransition _ tr _ => tr.controls.map Prod.fst
  | _ => []

variable {s : MemorySteps V} {b k : String} {v : V} {t : Nat}

theorem step_of_done (h : s.step b k = .done v) : s.entries.get? (b, k) = some (.done v) := by
  unfold step at h
  cases hg : s.entries.get? (b, k) with
  | none => simp [hg] at h
  | some st => simpa [hg] using h

theorem fence_cases (s : MemorySteps V) (b : String) (t : Nat) {α : Type}
    (w : Except StoreError α × MemorySteps V) :
    (Stale s b t ∧ s.fenced b t w = (.error (.fenced b t (s.issued b)), s)) ∨
      (¬ Stale s b t ∧ s.fenced b t w = w) := by
  by_cases h : Stale s b t
  · exact .inl ⟨h, fenced_stale h.1 h.2⟩
  · refine .inr ⟨h, fenced_ok ?_⟩
    unfold Stale at h
    omega

variable [BEq V]

/-- Offering another value for a finished step is refused, wherever it is listed. -/
theorem checkEffects_conflict {b' : String} {effects : List (EffectCompletion V)}
    (seen : List String) (completed : List (String × V)) {effect : EffectCompletion V}
    (hm : effect ∈ effects) (hd : s.step b' effect.key = .done v) (hv : (v == effect.value) = false) :
    ∃ e, s.checkEffects b' effects seen completed = .error e := by
  induction effects generalizing seen completed with
  | nil => cases hm
  | cons first rest ih =>
    unfold checkEffects
    split
    · exact ⟨_, rfl⟩
    · rcases List.mem_cons.mp hm with rfl | hm
      · simp [hd, hv]
      · split
        · split
          · exact ih _ _ hm
          · exact ⟨_, rfl⟩
        · split
          · exact ih _ _ hm
          · exact ⟨_, rfl⟩

/-- Every listed effect was checked. -/
theorem checkEffects_seen {b' : String} {effects : List (EffectCompletion V)}
    {seen seen' : List String} {completed completed' : List (String × V)}
    (h : s.checkEffects b' effects seen completed = .ok (seen', completed')) :
    ∀ e ∈ effects, e.key ∈ seen' := by
  suffices hs : (∀ key ∈ seen, key ∈ seen') ∧ ∀ e ∈ effects, e.key ∈ seen' from hs.2
  induction effects generalizing seen completed with
  | nil =>
    cases h
    exact ⟨fun _ hk => hk, by simp⟩
  | cons effect rest ih =>
    have step : ∀ completed₁,
        s.checkEffects b' rest (seen ++ [effect.key]) completed₁ = .ok (seen', completed') →
        (∀ key ∈ seen, key ∈ seen') ∧ ∀ e ∈ effect :: rest, e.key ∈ seen' := by
      intro completed₁ h₁
      obtain ⟨hseen, hrest⟩ := ih h₁
      refine ⟨fun key hk => hseen key (List.mem_append_left _ hk), ?_⟩
      intro e he
      rcases List.mem_cons.mp he with rfl | he
      · exact hseen _ (List.mem_append_right _ (List.mem_singleton_self _))
      · exact hrest e he
    unfold checkEffects at h
    split at h
    · cases h
    · split at h
      · split at h
        · exact step _ h
        · cases h
      · split at h
        · exact step _ h
        · cases h

/-- One call keeps a finished step, unless it writes that very key as a control record. -/
theorem step_kept (c : Call V) (now now' : ℚ) (h : s.step b k = .done v)
    (hk : c.branchId = b → k ∉ controlKeys c) : (c.exec now now' s).2.step b k = .done v := by
  have htouch := exec_touch c now now' s b k
  rw [step_of_done h] at htouch
  unfold MemorySteps.step
  generalize (c.exec now now' s).2.entries.get? (b, k) = st at htouch
  cases htouch with
  | same => rfl
  | control _ v' t hc =>
    subst hc
    exact absurd (List.mem_singleton_self _) (hk rfl)
  | forget _ t _ undone => exact absurd rfl (undone v)
  | transition _ tr v' t hc undone =>
    subst hc
    rcases undone with hm | ⟨-, hu⟩
    · exact absurd hm (hk rfl)
    · exact absurd rfl (hu v)

/-- A finished step stays finished over any run that keeps its key out of the control records. -/
theorem run_kept {later : List (Event V)} {u : MemorySteps V} (run : Run s later u)
    (h : s.step b k = .done v)
    (hk : ∀ e ∈ later, e.call.branchId = b → k ∉ controlKeys e.call) :
    u.step b k = .done v := by
  induction run with
  | nil => exact h
  | @call t u events c now now' reply run later order done ih =>
    have hprev := ih (fun e he => hk e (List.mem_append_left _ he))
    have hstep := step_kept c now now' hprev (hk _ (List.mem_append_right _ List.mem_cons_self))
    rw [done] at hstep
    exact hstep

/-- What every method makes of a step of branch `b` that is done with `v`. -/
structure Permanent (s : MemorySteps V) (b k : String) (v : V) : Prop where
  read : s.read b k = .done v
  /-- `start` returns `False`, or is fenced off. -/
  start : ∀ t, (s.start b k t).2 = s ∧ (s.start b k t).1 ≠ .ok true ∧
    (¬ Stale s b t → (s.start b k t).1 = .ok false)
  forget : ∀ t, (s.forget b k t).2 = s
  /-- The recorded value may be offered again by a live token, and nothing else. -/
  finish : ∀ value t, (s.finishEffect b k value t).2 = s ∧
    ((s.finishEffect b k value t).1 = .ok () ↔ (v == value) = true ∧ ¬ Stale s b t)
  transition : ∀ tr t, (∃ e ∈ tr.effects, e.key = k) →
    (s.commitTransition b tr t).2.step b k = .done v
  conflict : ∀ tr t, (∃ e ∈ tr.effects, e.key = k ∧ (v == e.value) = false) →
    (∃ error, (s.commitTransition b tr t).1 = .error error) ∧ (s.commitTransition b tr t).2 = s

/-- A transition that lists a key both as effect and as control is refused. -/
theorem transition_overlap {tr : ExecutionTransition V} (he : ∃ e ∈ tr.effects, e.key = k)
    (hk : k ∈ tr.controls.map Prod.fst) : (s.commitTransition b tr t).2 = s := by
  obtain ⟨e, he, hek⟩ := he
  apply fenced_unchanged
  split
  · rfl
  · rename_i seen completed hcheck
    have hmem : k ∈ seen.filter (fun key => key ∈ tr.controls.map Prod.fst) := by
      simp only [List.mem_filter, decide_eq_true_eq]
      exact ⟨hek ▸ checkEffects_seen hcheck e he, hk⟩
    dsimp only
    rw [if_pos (List.ne_nil_of_mem hmem)]

theorem permanent_of_done (h : s.step b k = .done v) : Permanent s b k v := by
  refine ⟨h, ?_, ?_, ?_, ?_, ?_⟩
  · intro t
    unfold start
    simp only [step_of_done h]
    rcases fence_cases s b t (.ok false, s) with ⟨hs, he⟩ | ⟨hs, he⟩ <;> simp [he, hs]
  · intro t
    unfold forget
    simp only [h]
    rcases fence_cases s b t (.ok (), s) with ⟨-, he⟩ | ⟨-, he⟩ <;> simp [he]
  · intro value t
    unfold finishEffect
    simp only [h]
    rcases fence_cases s b t
      (if (v == value) = true then (.ok (), s) else (.error (.effectConflict b k
        "a different result is already committed"), s)) with ⟨hs, he⟩ | ⟨hs, he⟩
    · simp [he, hs]
    · rw [he]
      split <;> simp_all
  · intro tr t hnamed
    obtain ⟨e, he, hek⟩ := hnamed
    by_cases hk : k ∈ tr.controls.map Prod.fst
    · rw [transition_overlap ⟨e, he, hek⟩ hk]
      exact h
    · exact step_kept (.commitTransition b tr t) 0 0 h (fun _ => hk)
  · intro tr t hother
    obtain ⟨e, he, hek, hv⟩ := hother
    obtain ⟨error, hcheck⟩ := checkEffects_conflict [] [] he (hek ▸ h) hv
    unfold commitTransition
    rw [hcheck]
    rcases fence_cases s b t (.error error, s) with ⟨-, hf⟩ | ⟨-, hf⟩
    · exact ⟨⟨_, congrArg Prod.fst hf⟩, congrArg Prod.snd hf⟩
    · exact ⟨⟨_, congrArg Prod.fst hf⟩, congrArg Prod.snd hf⟩

/-- The value a step was finished with is its value for good, in every ledger a run can lead to;
and the runtime's own control keys never name an effect. -/
theorem committed_permanent {later : List (Event V)} {s u : MemorySteps V} {b k : String}
    {v : V} (run : Run s later u) (h : s.step b k = .done v)
    (hk : ∀ e ∈ later, k ∉ controlKeys e.call) :
    Permanent u b k v ∧
      ∀ effect control, EffectKey effect → ControlKey control → effect ≠ control :=
  ⟨permanent_of_done (run_kept run h (fun e he _ => hk e he)), fun _ _ => effect_control⟩

/-- A call that was carried out, by the worker that holds the first token. -/
def carriedOut : MemorySteps String :=
  final {} [(.acquire "run" "worker" 60, 0, 0), (.start "run" "tool:c1" 1, 1, 1),
    (.finishEffect "run" "tool:c1" "sent" 1, 2, 2)]

/-- Everything that may be tried against it. -/
def afterDone : List (Call String × ℚ × ℚ) :=
  [(.writeControl "run" "after:c1" "hooked" 1, 3, 3), (.forget "run" "tool:c1" 1, 4, 4),
    (.finishEffect "run" "tool:c1" "other" 1, 5, 5), (.start "run" "tool:c1" 1, 6, 6),
    (.commitTransition "run" { effects := [⟨"tool:c1", "other", .running⟩] } 1, 7, 7)]

theorem committed_permanent_done : Permanent (final carriedOut afterDone) "run" "tool:c1" "sent" ∧
    ∀ effect control, EffectKey effect → ControlKey control → effect ≠ control :=
  committed_permanent (run_timed carriedOut afterDone 3 (by norm_num [afterDone, Timed]))
    (by decide) (by decide)

end Semora.Proofs.Permanence
