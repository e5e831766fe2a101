import Semora.Lib.Phases
import Semora.Proofs.Own
import Semora.Proofs.Performs

/-! A round whose calls are taken one after the other: what runs behind a call that the policy has
suspended. -/

namespace Semora.Proofs.Behind
open Semora.Lib Semora.Store Effects

abbrev Item := ToolCall × Option Approval

/-- The tool was invoked. -/
def Handled (d : Done) : Prop := ∃ call args, d.op = .handle call args

/-- Nothing an operation does to the attempt takes back that the round is suspended. -/
def KeepsFlag : Op → Prop
  | .modify f => ∀ a, a.suspendedThisRound = true → (f a).suspendedThisRound = true
  | _ => True

/-- One operation more, and it did not invoke the tool. -/
def Quiet (s s' : Own) : Prop := (∀ d ∈ s.done, ¬ Handled d) → ∀ d ∈ s'.done, ¬ Handled d

/-- `on_resume` lets the call go on. -/
def continues (id : String) : (o : Op) → Except Exn o.Res → Bool
  | .ask _ (.onResume _ call _), .ok .continue => call.toolCallId = id
  | _, _ => false

/-- Whether `on_resume` is asked about the call once a person has approved it. -/
def Asked (eff : Effects) (call : ToolCall) : Prop :=
  fetch call.toolCallId eff.resumed ≠ none ∧ eff.controls ≠ none

/-- `on_resume` has let the call go on, where it is asked. -/
def Revalidated (eff : Effects) (call : ToolCall) (did : List Done) : Prop :=
  Asked eff call → ∃ d ∈ did, continues call.toolCallId d.op d.reply = true

/-- A person approved the call, and it was revalidated. -/
def Cleared (eff : Effects) (item : Item) (did : List Done) : Prop :=
  (∃ override, item.2 = some (.approved override)) ∧ Revalidated eff item.1 did

/-- The finished record of the call was read. -/
def Replayed (eff : Effects) (call : ToolCall) (did : List Done) : Prop :=
  ∃ v, eff.store = some v ∧ Own.Finished (v.filed eff.branchId) (stepKey call.toolCallId) did

/-- A call that was not run is suspended or refused, or has a stand-in; what else is an answer
comes from its record, or is an error that something raised. -/
def Answered (eff : Effects) (call : ToolCall) (did : List Done) : CallOutcome → Prop
  | .returned _ => Replayed eff call did
  | .failed error => Replayed eff call did ∨ ∃ d ∈ did, d.Raised (.toolFailed error)
  | .deferred => ∃ d ∈ did, d.Raised .callDeferred
  | .skipped _ | .denied _ | .retry _ | .approval _ => True

section
variable {eff : Effects} {call : ToolCall} {s : Own} {α : Type}

theorem Revalidated.mono {did did' : List Done} (h : Revalidated eff call did)
    (hgrows : did <+: did') : Revalidated eff call did' := by
  intro hasked
  obtain ⟨d, hd, hcontinues⟩ := h hasked
  exact ⟨d, hgrows.subset hd, hcontinues⟩

theorem Replayed.mono {did did' : List Done} (h : Replayed eff call did) (hgrows : did <+: did') :
    Replayed eff call did' := by
  obtain ⟨v, hv, hfinished⟩ := h
  exact ⟨v, hv, hfinished.mono hgrows⟩

theorem keeping_steps {p : Program α} (h : p.AllOps KeepsFlag) (hs : s.attempt.suspendedThisRound) :
    Prog.safe Own.exec Eq (fun _ _ => True) p
      (fun _ (s' : Own) => s'.attempt.suspendedThisRound = true) s := by
  refine Prog.safe_of_allOps (I := fun s' : Own => s'.attempt.suspendedThisRound = true)
    (fun a b he ha => he ▸ ha) ?_ h hs
  intro o ho a r b ha he
  obtain ⟨-, rfl⟩ := he
  refine ⟨trivial, ?_⟩
  cases o with
  | modify f => exact ho _ ha
  | _ => exact ha

theorem quiet_step {o : Op} {r : Except Exn o.Res} {s' : Own} (ho : ∀ c j, o ≠ .handle c j)
    (h : Own.exec o s r s') : Quiet s s' := by
  obtain ⟨-, rfl⟩ := h
  intro hs d hd
  rcases List.mem_append.mp hd with hd | hd
  · exact hs d hd
  · rw [List.mem_singleton.mp hd]
    exact fun ⟨c, j, he⟩ => ho c j he

/-- What keeps to the steps invokes no tool. -/
theorem quiet_within {p : Program α} {quiet : Bool} (h : Within eff quiet .steps p) (s : Own) :
    Prog.safe Own.exec Eq Quiet p (fun _ _ => True) s := by
  refine Prog.safe_of_allOps (I := fun _ => True) (fun _ _ _ _ => trivial) ?_ h trivial
  intro o ho a r b _ he
  refine ⟨quiet_step ?_ he, trivial⟩
  rintro c j rfl
  cases ho with
  | handle _ _ hout => cases hout

/-! The flag. -/

theorem keeping_perform {o : Op} (h : KeepsFlag o) : (perform o).AllOps KeepsFlag :=
  (Prog.allOps_op o).mpr h

theorem keeping_ctx (pending : List ModelMessage) : (eff.ctx pending).AllOps KeepsFlag :=
  Prog.allOps_bind (keeping_perform trivial) (fun _ => trivial)

theorem keeping_readStep (key : String) : (eff.readStep key).AllOps KeepsFlag := by
  unfold readStep
  split
  · trivial
  · exact keeping_perform trivial

theorem keeping_verdict (approved : Bool) (args : Json) :
    (eff.verdict approved call args).AllOps KeepsFlag := by
  refine Prog.allOps_bind (keeping_ctx _) (fun here => Prog.allOps_bind ?_ (fun replayed => ?_))
  · unfold replayed
    split
    · trivial
    · exact Prog.allOps_bind (keeping_readStep _) (fun _ => trivial)
  · split
    · trivial
    · split
      · refine Prog.allOps_bind ?_ (fun _ => trivial)
        unfold resumeDecision
        split
        · exact keeping_perform trivial
        · trivial
      · refine Prog.allOps_bind (Prog.allOps_bind ?_ (fun decision =>
          Prog.allOps_bind (keeping_perform trivial) (fun _ => trivial))) (fun _ => trivial)
        unfold policy
        split
        · trivial
        · exact keeping_perform trivial

theorem keeping_made (asked : ToolCall) (refused : Bool) :
    (made asked refused).AllOps KeepsFlag :=
  keeping_perform (fun _ h => h)

theorem keeping_enforce (asked : ToolCall) (args : Json) (decision : ToolDecision) :
    (enforce asked args decision).AllOps KeepsFlag := by
  cases decision with
  | «continue» => exact Prog.allOps_bind (keeping_made _ _) (fun _ => trivial)
  | deny result => exact Prog.allOps_bind (keeping_made _ _) (fun _ => trivial)
  | suspend request =>
    dsimp only [enforce]
    split
    · trivial
    · exact Prog.allOps_bind (keeping_perform (fun _ _ => rfl))
        (fun _ => Prog.allOps_bind (keeping_made _ _) (fun _ => trivial))

theorem keeping_journalOnce (record : Record) : (eff.journalOnce call record).AllOps KeepsFlag := by
  refine Prog.allOps_bind (keeping_readStep _) (fun journaled => ?_)
  split
  · trivial
  · trivial
  · split
    · trivial
    · refine Prog.allOps_bind (Prog.allOps_bind (keeping_ctx _) (fun here => ?_))
        (fun projected => Prog.allOps_bind ?_ (fun _ => trivial))
      · cases record <;> exact Prog.allOps_bind (keeping_perform trivial) (fun _ => trivial)
      · unfold journal
        split
        · trivial
        · exact keeping_perform trivial

theorem keeping_execute (key : Option String) (args : Json) :
    (eff.execute key args (fun args => perform (.handle call args))).AllOps KeepsFlag := by
  refine Prog.allOps_bind (Prog.allOps_tryCatch ?_ (fun error => ?_))
    (fun record => Prog.allOps_bind ?_ (fun _ => trivial))
  · exact Prog.allOps_bind (keeping_perform trivial) (fun _ => trivial)
  · unfold Effects.caught
    split
    · refine Prog.allOps_bind ?_ (fun _ => trivial)
      unfold clearIntent
      split
      · exact keeping_perform trivial
      · trivial
    · split <;> trivial
  · unfold finishStep
    split
    · exact keeping_perform trivial
    · trivial

theorem keeping_runStep (store : View) (key : String) (args : Json) :
    (eff.runStep store key args (fun args => perform (.handle call args))).AllOps KeepsFlag := by
  refine Prog.allOps_bind (keeping_perform trivial) (fun inserted => ?_)
  split
  · exact keeping_execute _ _
  · trivial

theorem keeping_wrap (args : Json) :
    (eff.wrapToolExecute call args (fun args => perform (.handle call args))).AllOps KeepsFlag := by
  refine Prog.allOps_bind ?_ (fun step => Prog.allOps_bind (keeping_journalOnce step) (fun record => ?_))
  · unfold runOrReplay
    split
    · exact keeping_execute _ _
    · refine Prog.allOps_bind (keeping_perform trivial) (fun step => ?_)
      split
      · rename_i value
        cases value <;> trivial
      · split
        · exact Prog.allOps_bind (keeping_perform trivial) (fun _ => keeping_runStep _ _ _)
        · trivial
      · exact keeping_runStep _ _ _
  · cases record <;> trivial

theorem keeping_executeCall (ai : PydanticAI) (approval : Option Approval) :
    (ai.executeCall eff call approval).AllOps KeepsFlag := by
  have hhooks : ∀ approved args,
      (PydanticAI.throughHooks eff approved call args).AllOps KeepsFlag := by
    intro approved args
    refine Prog.allOps_tryCatch ?_ (fun e => by cases e <;> trivial)
    exact Prog.allOps_bind (Prog.allOps_bind (keeping_verdict _ _)
      (fun asked => keeping_enforce _ _ _)) (fun args => Prog.allOps_bind (keeping_wrap _)
        (fun _ => trivial))
  unfold PydanticAI.executeCall
  split
  · trivial
  · split
    · trivial
    · exact hhooks _ _
  · split
    · trivial
    · exact hhooks _ _

/-! What a call does behind a suspension. -/

theorem safe_any (p : Program α) (s : Own) :
    Prog.safe Own.exec Eq (fun _ _ => True) p (fun _ s' => s.done <+: s'.done) s := by
  have hany : Prog.safe Own.exec Eq (fun _ _ => True) p (fun _ _ => True) s :=
    Prog.safe_of_allOps (I := fun _ => True) (fun _ _ _ _ => trivial)
      (fun _ _ _ _ _ _ _ => ⟨trivial, trivial⟩) (Prog.allOps_any p) trivial
  exact Prog.safe_post (Own.safe_grown hany) (fun _ _ ⟨_, hgrown⟩ => hgrown)

theorem replayed_behind (hs : s.attempt.suspendedThisRound) :
    Prog.safe Own.exec Eq (fun _ _ => True) (eff.replayed call)
      (fun r (s' : Own) => (r = .ok true → Replayed eff call s'.done) ∧
        s'.attempt.suspendedThisRound = true) s := by
  unfold replayed
  split
  · exact ⟨nofun, hs⟩
  · unfold recorded readStep
    split
    · exact ⟨nofun, hs⟩
    · rename_i v hv
      rw [Prog.bind_eq, Prog.safe_bind]
      refine (Prog.safe_op _ _ _).mpr ?_
      rintro _ rfl r _ ⟨-, rfl⟩
      refine ⟨trivial, ?_⟩
      cases r with
      | error e => exact ⟨nofun, hs⟩
      | ok step =>
        refine ⟨fun hdone => ?_, hs⟩
        cases step with
        | done value => exact ⟨v, hv, value, List.mem_append_right _ List.mem_cons_self⟩
        | absent | running => simp [Step.status] at hdone

/-- The gate lets nothing run behind a suspension. -/
theorem gated_behind {a : Attempt} (h : a.suspendedThisRound = true) (decision : ToolDecision) :
    gated a call decision ≠ .continue := by
  unfold gated
  simp only [h, ↓reduceIte]
  split <;> simp

theorem gate_behind (hs : s.attempt.suspendedThisRound) (here : Ctx) :
    Prog.safe Own.exec Eq (fun _ _ => True) (eff.gate here call)
      (fun r _ => r ≠ .ok .continue) s := by
  have hpolicy : (eff.policy here call).AllOps KeepsFlag := by
    unfold policy
    split
    · trivial
    · exact keeping_perform trivial
  unfold gate
  rw [Prog.bind_eq, Prog.safe_bind]
  refine Prog.safe_post (keeping_steps hpolicy hs) (fun r s₁ hs₁ => ?_)
  cases r with
  | error e => nofun
  | ok decision =>
    dsimp only
    rw [Prog.bind_eq, Prog.safe_bind]
    refine (Prog.safe_op _ _ _).mpr ?_
    rintro _ rfl r _ ⟨hreply, -⟩
    refine ⟨trivial, ?_⟩
    cases r with
    | error e => nofun
    | ok a =>
      obtain rfl : a = s₁.attempt := Except.ok.inj hreply
      exact fun h => gated_behind hs₁ decision (Except.ok.inj h)

theorem resumeDecision_behind (here : Ctx) {asked : ToolCall}
    (hasked : asked.toolCallId = call.toolCallId) :
    Prog.safe Own.exec Eq (fun _ _ => True) (eff.resumeDecision here asked)
      (fun r s' => r = .ok .continue → Revalidated eff call s'.done) s := by
  unfold resumeDecision
  split
  · refine (Prog.safe_op _ _ _).mpr ?_
    rintro _ rfl r _ ⟨-, rfl⟩
    refine ⟨trivial, ?_⟩
    rintro rfl -
    exact ⟨_, List.mem_append_right _ List.mem_cons_self, decide_eq_true hasked⟩
  · rename_i hnone
    rintro - ⟨hresumed, hcontrols⟩
    obtain ⟨resumed, hresumed⟩ := Option.ne_none_iff_exists'.mp hresumed
    obtain ⟨plane, hcontrols⟩ := Option.ne_none_iff_exists'.mp hcontrols
    exact absurd hcontrols (hnone resumed plane (hasked ▸ hresumed))

/-- Only its record or an approval lets a call go on behind a suspension. -/
def Passed (eff : Effects) (approved : Bool) (call : ToolCall) (did : List Done) : Prop :=
  Replayed eff call did ∨ approved = true ∧ Revalidated eff call did

theorem withArgs_id (call : ToolCall) (args : Json) :
    (withArgs call args).toolCallId = call.toolCallId := by
  cases args <;> rfl

theorem verdict_behind (hs : s.attempt.suspendedThisRound) (approved : Bool) (args : Json) :
    Prog.safe Own.exec Eq (fun _ _ => True) (eff.verdict approved call args)
      (fun r s' => ∀ asked, r = .ok (asked, .continue) → Passed eff approved call s'.done) s := by
  unfold verdict
  rw [Prog.bind_eq, Prog.safe_bind]
  refine Prog.safe_post (keeping_steps (keeping_ctx _) hs) (fun r s₁ hs₁ => ?_)
  cases r with
  | error e => nofun
  | ok here =>
    dsimp only
    rw [Prog.bind_eq, Prog.safe_bind]
    refine Prog.safe_post (replayed_behind hs₁) (fun r s₂ ⟨hreplayed, hs₂⟩ => ?_)
    cases r with
    | error e => nofun
    | ok replayed =>
      cases replayed with
      | true => exact fun _ _ => .inl (hreplayed rfl)
      | false =>
        cases approved with
        | true =>
          simp only [Bool.false_eq_true, ↓reduceIte, Prog.bind_eq, Prog.safe_bind]
          refine Prog.safe_post (resumeDecision_behind here (withArgs_id call args))
            (fun r s₃ hcontinue => ?_)
          cases r with
          | error e => nofun
          | ok decision =>
            rintro asked ⟨⟩
            exact .inr ⟨rfl, hcontinue rfl⟩
        | false =>
          simp only [Bool.false_eq_true, ↓reduceIte, Prog.bind_eq, Prog.safe_bind]
          refine Prog.safe_post (gate_behind hs₂ here) (fun r s₃ hstopped => ?_)
          cases r with
          | error e => nofun
          | ok decision =>
            rintro asked ⟨⟩
            exact absurd rfl hstopped

theorem enforce_stops {asked : ToolCall} {args : Json} {decision : ToolDecision}
    (h : decision ≠ .continue) : (enforce asked args decision).AllRets (fun _ => False) := by
  cases decision with
  | «continue» => exact absurd rfl h
  | deny result => exact Prog.allRets_then _ (fun _ => trivial)
  | suspend request =>
    dsimp only [enforce]
    split
    · trivial
    · exact Prog.allRets_then _ (fun _ => Prog.allRets_then _ (fun _ => trivial))

theorem before_behind (hs : s.attempt.suspendedThisRound) (approved : Bool) (args : Json) :
    Prog.safe Own.exec Eq (fun _ _ => True) (eff.beforeToolExecute approved call args)
      (fun r s' => ∀ args', r = .ok args' → Passed eff approved call s'.done) s := by
  unfold beforeToolExecute
  rw [Prog.bind_eq, Prog.safe_bind]
  refine Prog.safe_post (verdict_behind hs approved args) (fun r s₁ hpassed => ?_)
  cases r with
  | error e => nofun
  | ok verdict =>
    obtain ⟨asked, decision⟩ := verdict
    by_cases hdecision : decision = .continue
    · subst hdecision
      refine Prog.safe_post (safe_any _ s₁) (fun r s₂ hgrown args' _ => ?_)
      rcases hpassed asked rfl with hreplayed | ⟨happroved, hrevalidated⟩
      · exact .inl (hreplayed.mono hgrown)
      · exact .inr ⟨happroved, hrevalidated.mono hgrown⟩
    · refine Prog.safe_post (Prog.safe_rets (enforce_stops hdecision) (safe_any _ s₁))
        (fun r s₂ ⟨_, hnone⟩ args' hr => ?_)
      exact (hnone args' hr).elim

/-- A call with a finished record is answered from it. -/
theorem wrap_replayed (h : Replayed eff call s.done) (args : Json) :
    Prog.safe Own.exec Eq Quiet
      (eff.wrapToolExecute call args (fun args => perform (.handle call args)))
      (fun _ _ => True) s := by
  obtain ⟨v, hv, hfinished⟩ := h
  unfold wrapToolExecute runOrReplay
  rw [hv]
  simp only [Prog.bind_eq, Prog.safe_bind]
  refine (Prog.safe_op _ _ _).mpr ?_
  rintro _ rfl r s₁ he
  refine ⟨quiet_step (by simp) he, ?_⟩
  obtain ⟨value, rfl⟩ := he.1 hfinished
  cases value with
  | toolResult record =>
    dsimp only [stepRecord]
    rw [Prog.pure_eq, Prog.safe_ret]
    have hjournal : Within eff true .steps (eff.journalOnce call record) :=
      within_journalOnce (by decide) call record
    refine Prog.safe_post (quiet_within hjournal s₁) (fun r s₂ _ => ?_)
    cases r with
    | error e => trivial
    | ok record => cases record <;> trivial
  | _ => trivial

/-! What is raised on the way. -/

/-- A signal that leaves a call without an answer. -/
def Deferring (e : Exn) : Prop := e = .callDeferred ∨ ∃ request, e = .approvalRequired request

variable {P : Exn → Prop}

theorem raises_ctx (messages : List ModelMessage) : Prog.Raises (eff.ctx messages) P :=
  Prog.raises_bind (Prog.raises_op _ _) (fun _ => trivial)

theorem raises_readStep (key : String) : Prog.Raises (eff.readStep key) P := by
  unfold readStep
  split
  · trivial
  · exact Prog.raises_op _ _

theorem raises_verdict (approved : Bool) (args : Json) :
    Prog.Raises (eff.verdict approved call args) P := by
  refine Prog.raises_bind (raises_ctx _) (fun here => Prog.raises_bind ?_ (fun replayed => ?_))
  · unfold replayed
    split
    · trivial
    · exact Prog.raises_bind (raises_readStep _) (fun _ => trivial)
  · split
    · trivial
    · split
      · refine Prog.raises_bind ?_ (fun _ => trivial)
        unfold resumeDecision
        split
        · exact Prog.raises_op _ _
        · trivial
      · refine Prog.raises_bind (Prog.raises_bind ?_ (fun decision =>
          Prog.raises_bind (Prog.raises_op _ _) (fun _ => trivial))) (fun _ => trivial)
        unfold policy
        split
        · trivial
        · exact Prog.raises_op _ _

theorem raises_enforce (asked : ToolCall) (args : Json) (decision : ToolDecision) :
    Prog.Raises (enforce asked args decision)
      (fun e => e ≠ .callDeferred ∧ ∀ error, e ≠ .toolFailed error) := by
  cases decision with
  | «continue» => exact Prog.raises_bind (Prog.raises_op _ _) (fun _ => trivial)
  | deny result => exact Prog.raises_bind (Prog.raises_op _ _) (fun _ => ⟨nofun, nofun⟩)
  | suspend request =>
    dsimp only [enforce]
    split
    · exact ⟨nofun, nofun⟩
    · exact Prog.raises_bind (Prog.raises_op _ _)
        (fun _ => Prog.raises_bind (Prog.raises_op _ _) (fun _ => ⟨nofun, nofun⟩))

theorem raises_before (approved : Bool) (args : Json) :
    Prog.Raises (eff.beforeToolExecute approved call args)
      (fun e => e ≠ .callDeferred ∧ ∀ error, e ≠ .toolFailed error) :=
  Prog.raises_bind (raises_verdict approved args) (fun _ => raises_enforce _ _ _)

theorem raises_execute (key : Option String) (args : Json) :
    Prog.Raises (eff.execute key args (fun args => perform (.handle call args)))
      (fun e => ¬ Deferring e) := by
  -- The catch boundary raises what it was given, or an operation of its own has raised.
  have hcaught : ∀ (Q : Exn → Prop) e, Q e → Prog.Raises (eff.caught key e) Q := by
    intro Q e hQ
    unfold Effects.caught
    split
    · refine Prog.raises_bind ?_ (fun _ => hQ)
      unfold clearIntent
      split
      · exact Prog.raises_op _ _
      · trivial
    · split
      · exact hQ
      · trivial
  refine Prog.raises_bind (Prog.raises_tryCatch ?_ (fun e he => hcaught _ e he) ?_)
    (fun record => Prog.raises_bind ?_ (fun _ => trivial))
  · exact Prog.raises_bind (Prog.raises_op _ _) (fun _ => trivial)
  · exact fun e => hcaught _ e (.inr rfl)
  · unfold finishStep
    split
    · exact Prog.raises_op _ _
    · trivial

theorem raises_journalOnce (record : Record) :
    Prog.Raises (eff.journalOnce call record) (fun e => ¬ Deferring e) := by
  refine Prog.raises_bind (raises_readStep _) (fun journaled => ?_)
  split
  · trivial
  · simp [Prog.Raises, Deferring]
  · split
    · trivial
    · refine Prog.raises_bind (Prog.raises_bind (raises_ctx _) (fun here => ?_))
        (fun projected => Prog.raises_bind ?_ (fun _ => trivial))
      · cases record <;> exact Prog.raises_bind (Prog.raises_op _ _) (fun _ => trivial)
      · unfold journal
        split
        · trivial
        · exact Prog.raises_op _ _

theorem raises_runStep (store : View) (key : String) (args : Json) :
    Prog.Raises (eff.runStep store key args (fun args => perform (.handle call args)))
      (fun e => ¬ Deferring e) := by
  refine Prog.raises_bind (Prog.raises_op _ _) (fun inserted => ?_)
  split
  · exact raises_execute _ _
  · simp [Prog.Raises, Deferring]

theorem raises_wrap (args : Json) :
    Prog.Raises (eff.wrapToolExecute call args (fun args => perform (.handle call args)))
      (fun e => ¬ Deferring e) := by
  refine Prog.raises_bind ?_ (fun step => Prog.raises_bind (raises_journalOnce step) (fun record => ?_))
  · unfold runOrReplay
    split
    · exact raises_execute _ _
    · refine Prog.raises_bind (Prog.raises_op _ _) (fun step => ?_)
      split
      · rename_i value
        cases value <;> simp [stepRecord, Prog.Raises, Deferring]
      · split
        · exact Prog.raises_bind (Prog.raises_op _ _) (fun _ => raises_runStep _ _ _)
        · simp [Prog.Raises, Deferring]
      · exact raises_runStep _ _ _
  · cases record <;> simp [Prog.Raises, Deferring]

/-! One call of a round. -/

/-- No handler was invoked, or the call was cleared. -/
def Ruled (eff : Effects) (item : Item) (did : List Done) : Prop :=
  (∀ d ∈ did, ¬ Handled d) ∨ Cleared eff item did

def Ruling (eff : Effects) (item : Item) (s s' : Own) : Prop :=
  Ruled eff item s.done → Ruled eff item s'.done

variable {item : Item}

/-- Where every operation is quiet or comes behind a clearance. -/
theorem ruling_quiet {p : Program α} {Q : Except Exn α → Own → Prop}
    (h : Prog.safe Own.exec Eq Quiet p Q s) : Prog.safe Own.exec Eq (Ruling eff item) p Q s := by
  induction p generalizing s with
  | ret a => exact h
  | raise e => exact h
  | call o k ih =>
    rintro _ rfl r s' he
    obtain ⟨hquiet, hk⟩ := h _ rfl r s' he
    refine ⟨?_, ih r hk⟩
    rintro (hnone | ⟨happroved, hrevalidated⟩)
    · exact .inl (hquiet hnone)
    · exact .inr ⟨happroved, hrevalidated.mono (Own.exec_grows he)⟩

theorem ruling_cleared (p : Program α) (h : Cleared eff item s.done) :
    Prog.safe Own.exec Eq (Ruling eff item) p (fun _ s' => Cleared eff item s'.done) s := by
  refine Prog.safe_of_allOps (I := fun s' : Own => Cleared eff item s'.done)
    (fun a b he ha => he ▸ ha) ?_ (Prog.allOps_any p) h
  rintro o - a r b ⟨happroved, hrevalidated⟩ he
  have hb : Cleared eff item b.done := ⟨happroved, hrevalidated.mono (Own.exec_grows he)⟩
  exact ⟨fun _ => .inr hb, hb⟩

/-- What a signal leaves as the call's answer. -/
theorem caught_answered {e : Exn} {G : Own → Own → Prop} {did : List Done}
    (hfailed : ∀ error, e = .toolFailed error → Replayed eff call did ∨ ∃ d ∈ did, d.Raised e)
    (hdeferred : e = .callDeferred → ∃ d ∈ did, d.Raised e) :
    Prog.safe Own.exec Eq G (PydanticAI.caught call e)
      (fun r _ => ∀ c o, r = .ok (c, o) → Answered eff call did o) s := by
  cases e with
  | toolFailed error =>
    rintro c o ⟨⟩
    exact hfailed error rfl
  | callDeferred =>
    rintro c o ⟨⟩
    exact hdeferred rfl
  | skipToolExecution | approvalRequired | modelRetry =>
    rintro c o ⟨⟩
    trivial
  | _ => nofun

theorem hooks_behind {approved : Bool} (args : Json)
    (happroved : approved = true → ∃ override, item.2 = some (.approved override))
    (hs : s.attempt.suspendedThisRound) :
    Prog.safe Own.exec Eq (Ruling eff item) (PydanticAI.throughHooks eff approved item.1 args)
      (fun r s' => Cleared eff item s'.done ∨
        ∀ c o, r = .ok (c, o) → Answered eff item.1 s'.done o) s := by
  have hcaught : ∀ {e : Exn} {t : Own},
      (∀ error, e = .toolFailed error →
        Replayed eff item.1 t.done ∨ ∃ d ∈ t.done, d.Raised e) →
      (e = .callDeferred → ∃ d ∈ t.done, d.Raised e) →
      Prog.safe Own.exec Eq (Ruling eff item) (PydanticAI.caught item.1 e)
        (fun r s' => Cleared eff item s'.done ∨
          ∀ c o, r = .ok (c, o) → Answered eff item.1 s'.done o) t := by
    intro e t hfailed hdeferred
    have hanswered := caught_answered (s := t) (G := Ruling eff item) hfailed hdeferred
    cases e <;> exact .inr hanswered
  have hwithin : Within eff true .steps (eff.beforeToolExecute approved item.1 args) :=
    Prog.allOps_bind (within_verdict (by decide) _ _ _) (fun _ => within_enforce _ _ _)
  have hbefore := Prog.safe_and (quiet_within hwithin s) (Prog.safe_and (before_behind hs approved args)
    (Own.safe_raises (raises_before approved args) s))
  unfold PydanticAI.throughHooks
  rw [Prog.safe_tryCatch, Prog.bind_eq, Prog.safe_bind]
  refine Prog.safe_post (ruling_quiet (Prog.safe_mono hbefore (fun _ _ h => h.1) (fun _ _ h => h)))
    (fun r s₁ ⟨_, hpassed, hraised⟩ => ?_)
  cases r with
  | error e =>
    refine hcaught (fun error he => .inr ?_) (fun he => ?_)
    · rcases hraised e rfl with ⟨-, hnone⟩ | hd
      · exact absurd he (hnone error)
      · exact hd
    · rcases hraised e rfl with ⟨hnone, -⟩ | hd
      · exact absurd he hnone
      · exact hd
  | ok args' =>
    dsimp only
    rw [Prog.bind_eq, Prog.safe_bind]
    rcases hpassed args' rfl with hreplayed | ⟨happrove, hrevalidated⟩
    · have hwrap := Prog.safe_and (Own.safe_grown (wrap_replayed hreplayed args'))
        (Own.safe_raises (raises_wrap args') s₁)
      refine Prog.safe_post
        (ruling_quiet (Prog.safe_mono hwrap (fun _ _ h => h.1) (fun _ _ h => h)))
        (fun r s₂ ⟨⟨_, hgrown⟩, hraised⟩ => ?_)
      cases r with
      | ok value =>
        right
        rintro c o ⟨⟩
        exact hreplayed.mono hgrown
      | error e =>
        refine hcaught (fun _ _ => .inl (hreplayed.mono hgrown)) (fun he => ?_)
        rcases hraised e rfl with hnone | hd
        · exact absurd (.inl he) hnone
        · exact hd
    · refine Prog.safe_post (ruling_cleared _ ⟨happroved happrove, hrevalidated⟩)
        (fun r s₂ hcleared => ?_)
      cases r with
      | ok value => exact .inl hcleared
      | error e =>
        dsimp only
        refine Prog.safe_post (ruling_cleared _ hcleared) (fun _ _ h => .inl h)

/-- A call behind a suspension: it is not run unless it was cleared. -/
theorem executeCall_behind (ai : PydanticAI) (hs : s.attempt.suspendedThisRound) :
    Prog.safe Own.exec Eq (Ruling eff item) (ai.executeCall eff item.1 item.2)
      (fun r s' => Cleared eff item s'.done ∨
        ∀ c o, r = .ok (c, o) → Answered eff item.1 s'.done o) s := by
  have htrivial : ∀ o : CallOutcome, (∀ did, Answered eff item.1 did o) →
      Prog.safe Own.exec Eq (Ruling eff item) (.ret (item.1, o))
        (fun r s' => Cleared eff item s'.done ∨
          ∀ c o, r = .ok (c, o) → Answered eff item.1 s'.done o) s := by
    intro o ho
    right
    rintro c o' ⟨⟩
    exact ho _
  unfold PydanticAI.executeCall
  split
  · exact htrivial _ (fun _ => trivial)
  · rename_i override happroval
    split
    · exact htrivial _ (fun _ => trivial)
    · exact hooks_behind _ (fun _ => ⟨override, happroval⟩) hs
  · split
    · exact htrivial _ (fun _ => trivial)
    · exact hooks_behind _ nofun hs

/-! The flag is up behind every suspension. -/

theorem enforce_flags (asked : ToolCall) (args : Json) (decision : ToolDecision) :
    Prog.safe Own.exec Eq (fun _ _ => True) (enforce asked args decision)
      (fun r (s' : Own) => ∀ request, r = .error (.approvalRequired request) →
        s'.attempt.suspendedThisRound = true ∨
          ∃ d ∈ s'.done, d.Raised (.approvalRequired request)) s := by
  have hother : ∀ {p : Program Json}, Prog.Raises p (fun e => ∀ request, e ≠ .approvalRequired request) →
      Prog.safe Own.exec Eq (fun _ _ => True) p
        (fun r (s' : Own) => ∀ request, r = .error (.approvalRequired request) →
          s'.attempt.suspendedThisRound = true ∨
            ∃ d ∈ s'.done, d.Raised (.approvalRequired request)) s := by
    intro p hp
    refine Prog.safe_post (Own.safe_raises hp s) (fun r s' hraised request hr => ?_)
    rcases hraised _ hr with hnone | hd
    · exact absurd rfl (hnone request)
    · exact .inr hd
  cases decision with
  | «continue» => exact hother (Prog.raises_bind (Prog.raises_op _ _) (fun _ => trivial))
  | deny result => exact hother (Prog.raises_bind (Prog.raises_op _ _) (fun _ => nofun))
  | suspend request =>
    dsimp only [enforce]
    split
    · exact hother (p := .raise _) nofun
    · rw [Prog.bind_eq, Prog.safe_bind]
      refine (Prog.safe_op _ _ _).mpr ?_
      rintro _ rfl r s₁ ⟨-, rfl⟩
      refine ⟨trivial, ?_⟩
      cases r with
      | error e =>
        rintro request ⟨⟩
        exact .inr ⟨_, List.mem_append_right _ List.mem_cons_self, rfl⟩
      | ok _ =>
        refine Prog.safe_post (keeping_steps (Prog.allOps_bind (keeping_made asked true) ?_) rfl)
          (fun _ _ hflag _ _ => .inl hflag)
        exact fun _ => trivial

theorem before_flags (approved : Bool) (args : Json) :
    Prog.safe Own.exec Eq (fun _ _ => True) (eff.beforeToolExecute approved call args)
      (fun r (s' : Own) => ∀ request, r = .error (.approvalRequired request) →
        s'.attempt.suspendedThisRound = true ∨
          ∃ d ∈ s'.done, d.Raised (.approvalRequired request)) s := by
  unfold beforeToolExecute
  rw [Prog.bind_eq, Prog.safe_bind]
  refine Prog.safe_post (Own.safe_raises (raises_verdict (P := fun _ => False) approved args) s)
    (fun r s₁ hraised => ?_)
  cases r with
  | error e =>
    rintro request ⟨⟩
    exact .inr ((hraised _ rfl).resolve_left id)
  | ok verdict => exact enforce_flags _ _ _

theorem executeCall_flags (ai : PydanticAI) (approval : Option Approval) :
    Prog.safe Own.exec Eq (fun _ _ => True) (ai.executeCall eff call approval)
      (fun r (s' : Own) => ∀ c request, r = .ok (c, .approval request) →
        s'.attempt.suspendedThisRound = true ∨
          ∃ d ∈ s'.done, d.Raised (.approvalRequired request)) s := by
  have hhooks : ∀ approved args,
      Prog.safe Own.exec Eq (fun _ _ => True) (PydanticAI.throughHooks eff approved call args)
        (fun r (s' : Own) => ∀ c request, r = .ok (c, .approval request) →
          s'.attempt.suspendedThisRound = true ∨
            ∃ d ∈ s'.done, d.Raised (.approvalRequired request)) s := by
    intro approved args
    have hcaught : ∀ {e : Exn} {t : Own},
        (∀ request, e = .approvalRequired request →
          t.attempt.suspendedThisRound = true ∨ ∃ d ∈ t.done, d.Raised e) →
        Prog.safe Own.exec Eq (fun _ _ => True) (PydanticAI.caught call e)
          (fun r (s' : Own) => ∀ c request, r = .ok (c, .approval request) →
            s'.attempt.suspendedThisRound = true ∨
              ∃ d ∈ s'.done, d.Raised (.approvalRequired request)) t := by
      intro e t h
      cases e with
      | approvalRequired request =>
        rintro c _ ⟨⟩
        exact h request rfl
      | _ => rintro c _ ⟨⟩
    unfold PydanticAI.throughHooks
    rw [Prog.safe_tryCatch, Prog.bind_eq, Prog.safe_bind]
    refine Prog.safe_post (before_flags approved args) (fun r s₁ hflag => ?_)
    cases r with
    | error e => exact hcaught (fun request he => he ▸ hflag request (he ▸ rfl))
    | ok args' =>
      dsimp only
      rw [Prog.bind_eq, Prog.safe_bind]
      refine Prog.safe_post (Own.safe_raises (raises_wrap args') s₁) (fun r s₂ hraised => ?_)
      cases r with
      | ok value => rintro c _ ⟨⟩
      | error e =>
        refine hcaught (fun request he => .inr ?_)
        exact (hraised e rfl).resolve_left (fun h => h (.inr ⟨request, he⟩))
  unfold PydanticAI.executeCall
  split
  · rintro c _ ⟨⟩
  · split
    · rintro c _ ⟨⟩
    · exact hhooks _ _
  · split
    · rintro c _ ⟨⟩
    · exact hhooks _ _

end

/-! The round. -/

/-- What a thread did about one call of the round, and what is left to do. -/
structure Stretch where
  item : Item
  did : List Done
  left : Program (ToolCall × CallOutcome)

/-- The policy suspended the call: it is parked, and not for a signal that something raised. -/
def Suspended (x : Stretch) : Prop :=
  ∃ c request, x.left = .ret (c, .approval request) ∧
    ∀ d ∈ x.did, ¬ d.Raised (.approvalRequired request)

/-- No handler of the call was invoked, and its answer needed none. -/
def Stands (eff : Effects) (x : Stretch) : Prop :=
  (∀ d ∈ x.did, ¬ Handled d) ∧ ∀ c o, x.left = .ret (c, o) → Answered eff x.item.1 x.did o

section
variable (out : Outside) (owner : Nat → Nat) (i : Nat) (ai : PydanticAI) (eff : Effects)

/-- The thread has the call of the stretch in hand. -/
structure Worked (x : Stretch) (s t : Scene) : Prop where
  runs : Prog.Runs (exec out owner i) (Others out owner i) (ai.executeCall eff x.item.1 x.item.2)
    s x.left t
  logged : log i t.events = log i s.events ++ x.did.map (eventOf i)

/-- The calls are taken one after the other, as far as the thread has got. -/
inductive Round : List Item → Scene → List Stretch → Scene → Prop
  | unbegun {items s t} (meanwhile : Others out owner i s t) : Round items s [] t
  | under {x items s t} (worked : Worked out owner i ai eff x s t) : Round (x.item :: items) s [x] t
  | past {x items s t u xs outcome} (worked : Worked out owner i ai eff x s t)
      (ended : x.left = .ret outcome) (rest : Round items t xs u) :
      Round (x.item :: items) s (x :: xs) u

/-- Between these scenes the thread took these calls, and invoked no handler besides. -/
structure Taken (items : List Item) (s : Scene) (xs : List Stretch) (t : Scene) : Prop where
  round : ∃ s₁ t₁, Round out owner i ai eff items s₁ xs t₁
  logged : ∃ first last : List Done, (∀ d ∈ first ++ last, ¬ Handled d) ∧
    log i t.events =
      log i s.events ++ (first ++ xs.flatMap Stretch.did ++ last).map (eventOf i)

end

section
variable {out : Outside} {self : Nat → Nat} {i : Nat} {ai : PydanticAI} {eff : Effects}
variable {s t u : Scene} {x : Stretch} {xs : List Stretch} {items : List Item}

/-- What a thread has done about a call is all that its own view needs. -/
theorem Worked.viewed (h : Worked out self i ai eff x s t) :
    Prog.Runs Own.exec Eq (ai.executeCall eff x.item.1 x.item.2) ⟨s.attempts (self i), []⟩
      x.left ⟨t.attempts (self i), x.did⟩ :=
  (runs_did h.runs h.logged).runs

/-- What is safe on the thread's own view. -/
theorem Worked.safe (h : Worked out self i ai eff x s t)
    {G : Own → Own → Prop} {Q : Except Exn (ToolCall × CallOutcome) → Own → Prop} {I : Own → Prop}
    (hsafe : Prog.safe Own.exec Eq G (ai.executeCall eff x.item.1 x.item.2) Q
      ⟨s.attempts (self i), []⟩) (hG : ∀ a b, G a b → I a → I b) (hi : I ⟨s.attempts (self i), []⟩) :
    Prog.safe Own.exec Eq G x.left Q ⟨t.attempts (self i), x.did⟩ ∧
      I ⟨t.attempts (self i), x.did⟩ :=
  Prog.safe_runs (fun _ => rfl) (fun _ _ _ => Eq.trans) (fun _ _ _ hq he => he ▸ hq)
    (fun _ _ he ha => he ▸ ha) hG hsafe hi h.viewed

theorem Worked.behind (h : Worked out self i ai eff x s t)
    (hs : (s.attempts (self i)).suspendedThisRound = true) :
    Cleared eff x.item x.did ∨ Stands eff x := by
  have hsafe : Prog.safe Own.exec Eq (Ruling eff x.item) (ai.executeCall eff x.item.1 x.item.2)
      (fun r s' => Cleared eff x.item s'.done ∨
        ∀ c o, r = .ok (c, o) → Answered eff x.item.1 s'.done o) ⟨s.attempts (self i), []⟩ :=
    executeCall_behind ai hs
  obtain ⟨hleft, hruled⟩ := h.safe (I := fun a => Ruled eff x.item a.done) hsafe (fun _ _ h => h)
    (.inl (fun d hd => nomatch hd))
  rcases hruled with hnone | hcleared
  · by_cases hcleared : Cleared eff x.item x.did
    · exact .inl hcleared
    · refine .inr ⟨hnone, fun c o hended => ?_⟩
      rw [hended] at hleft
      exact (hleft.resolve_left hcleared) c o rfl
  · exact .inl hcleared

theorem Worked.keeps (h : Worked out self i ai eff x s t)
    (hs : (s.attempts (self i)).suspendedThisRound = true) {outcome : ToolCall × CallOutcome}
    (hended : x.left = .ret outcome) : (t.attempts (self i)).suspendedThisRound = true := by
  have hkeeps : (ai.executeCall eff x.item.1 x.item.2).AllOps KeepsFlag :=
    keeping_executeCall ai x.item.2
  have hsteps := keeping_steps (s := ⟨s.attempts (self i), []⟩) hkeeps hs
  obtain ⟨hleft, -⟩ := h.safe (I := fun _ => True) hsteps (fun _ _ _ _ => trivial) trivial
  rw [hended] at hleft
  exact hleft

theorem Worked.flags (h : Worked out self i ai eff x s t) (hsuspended : Suspended x) :
    (t.attempts (self i)).suspendedThisRound = true := by
  obtain ⟨c, request, hended, hnone⟩ := hsuspended
  obtain ⟨hleft, -⟩ := h.safe (I := fun _ => True)
    (executeCall_flags (s := ⟨s.attempts (self i), []⟩) ai x.item.2) (fun _ _ _ _ => trivial) trivial
  rw [hended] at hleft
  rcases hleft c request rfl with hflag | ⟨d, hd, hraised⟩
  · exact hflag
  · exact absurd hraised (hnone d hd)

/-- Behind the flag every call of the round stands, unless it was cleared. -/
theorem Round.behind (h : Round out self i ai eff items s xs t)
    (hs : (s.attempts (self i)).suspendedThisRound = true) :
    ∀ y ∈ xs, Cleared eff y.item y.did ∨ Stands eff y := by
  induction h with
  | unbegun => exact fun _ hy => nomatch hy
  | under worked =>
    intro y hy
    rw [List.mem_singleton.mp hy]
    exact worked.behind hs
  | past worked hended _ ih =>
    intro y hy
    rcases List.mem_cons.mp hy with rfl | hy
    · exact worked.behind hs
    · exact ih (worked.keeps hs hended) y hy

theorem Round.pairwise (h : Round out self i ai eff items s xs t) :
    xs.Pairwise (fun x y => Suspended x → Cleared eff y.item y.did ∨ Stands eff y) := by
  induction h with
  | unbegun => exact .nil
  | under => exact List.pairwise_singleton _ _
  | past worked hended rest ih =>
    refine .cons (fun y hy hsuspended => ?_) ih
    exact rest.behind (worked.flags hsuspended) y hy

/-- Where nothing is left to do, only others move. -/
theorem others_ended {α : Type} {a : α} {q : Program α}
    (run : Prog.Runs (exec out self i) (Others out self i) (.ret a) s q t) :
    q = .ret a ∧ Others out self i s t := by
  induction run with
  | refl => exact ⟨rfl, .refl s⟩
  | env _ move ih =>
    obtain ⟨hq, hmoved⟩ := ih
    exact ⟨hq, hmoved.trans move⟩
  | op _ _ ih =>
    obtain ⟨hq, -⟩ := ih
    cases hq

theorem Worked.of_runs {item : Item} {left : Program (ToolCall × CallOutcome)}
    (run : Prog.Runs (exec out self i) (Others out self i) (ai.executeCall eff item.1 item.2)
      s left t) : ∃ did, Worked out self i ai eff ⟨item, did, left⟩ s t := by
  obtain ⟨did, hviewed, -⟩ := runs_own run
  exact ⟨did, run, hviewed.logged⟩

/-- A run of the calls, one after the other, is a round. -/
theorem gather_round {q : Program (List (ToolCall × CallOutcome))}
    (run : Prog.Runs (exec out self i) (Others out self i)
      (PydanticAI.Standard.gather (items.map (fun item => ai.executeCall eff item.1 item.2))) s q t) :
    ∃ xs, Round out self i ai eff items s xs t := by
  induction items generalizing s q with
  | nil => exact ⟨[], .unbegun (others_ended run).2⟩
  | cons item items ih =>
    rcases Prog.runs_stages run with ⟨left, hcall, -⟩ | ⟨outcome, u, hcall, hrest⟩
    · obtain ⟨did, hworked⟩ := Worked.of_runs hcall
      exact ⟨_, .under hworked⟩
    · obtain ⟨did, hworked⟩ := Worked.of_runs hcall
      rcases Prog.runs_stages hrest with ⟨left, hcalls, -⟩ | ⟨outcomes, v, hcalls, hend⟩
      · obtain ⟨xs, hround⟩ := ih hcalls
        exact ⟨_, .past hworked rfl hround⟩
      · obtain ⟨xs, hround⟩ := ih (hcalls.trans (.env (.refl _ _) (others_ended hend).2))
        exact ⟨_, .past hworked rfl hround⟩

theorem Round.logged (h : Round out self i ai eff items s xs t) :
    log i t.events = log i s.events ++ (xs.flatMap Stretch.did).map (eventOf i) := by
  induction h with
  | unbegun meanwhile => exact meanwhile.same.2.1.trans (List.append_nil _).symm
  | under worked =>
    rw [worked.logged]
    simp
  | past worked _ _ ih =>
    rw [ih, worked.logged, List.flatMap_cons, List.map_append, List.append_assoc]

theorem handles_none {α : Type} {p q : Program α} (h : p.AllOps (fun o => ∀ c j, o ≠ .handle c j))
    (run : Prog.Runs (exec out self i) (Others out self i) p s q t) :
    ∃ done : List Done, (∀ d ∈ done, ¬ Handled d) ∧
      log i t.events = log i s.events ++ done.map (eventOf i) := by
  obtain ⟨done, hviewed, -⟩ := runs_own run
  refine ⟨done, ?_, hviewed.logged⟩
  intro d hd hhandled
  obtain ⟨c, j, ho⟩ := hhandled
  exact (hviewed.played.allOps h).1 d hd c j ho

/-- What the policy has suspended, nothing else of the round runs behind, but what is exempt. -/
def StandBehind (exempt : Item → List Done → Prop) (eff : Effects) (xs : List Stretch) : Prop :=
  xs.Pairwise (fun x y => Suspended x → exempt y.item y.did ∨ Stands eff y)

variable {response : ModelResponse} {results : DeferredToolResults} {q : Program NodeResult}

/-- A run of the round's node takes the calls of the round, one after the other. -/
theorem node_taken (sequential : ai.gather = PydanticAI.Standard.gather)
    (run : Prog.Runs (exec out self i) (Others out self i) (ai.callToolsNode eff response results)
      s q t) :
    ∃ xs, Taken out self i ai eff
      (ai.round response (s.attempts (self i)).messages results) s xs t := by
  rcases Prog.runs_stages run with ⟨_, hread, -⟩ | ⟨a, u, hread, hrest⟩
  · obtain ⟨done, hnone, hlogged⟩ := handles_none ((Prog.allOps_op _).mpr (by simp)) hread
    refine ⟨[], ⟨t, t, .unbegun (.refl t)⟩, done, [], ?_, ?_⟩
    · rwa [List.append_nil]
    · rw [hlogged]
      simp
  obtain ⟨first, hfirst, hlogged⟩ := handles_none ((Prog.allOps_op _).mpr (by simp)) hread
  obtain rfl : a = s.attempts (self i) := by
    obtain ⟨done, hviewed, -⟩ := runs_own hread
    have hsafe : Prog.safe Own.exec Eq (fun _ _ => True) attempt
        (fun r _ => r = .ok (s.attempts (self i))) ⟨s.attempts (self i), []⟩ := by
      refine (Prog.safe_op _ _ _).mpr ?_
      rintro _ rfl r _ ⟨hreply, -⟩
      exact ⟨trivial, hreply⟩
    have hread := (Prog.safe_runs (I := fun _ => True) (fun _ => rfl) (fun _ _ _ => Eq.trans)
      (fun _ _ _ hq _ => hq) (fun _ _ _ _ => trivial) (fun _ _ _ _ => trivial) hsafe trivial
      hviewed.runs).1
    exact Except.ok.inj hread
  rw [sequential] at hrest
  rcases Prog.runs_stages hrest with ⟨_, hcalls, -⟩ | ⟨outcomes, v, hcalls, hend⟩
  · obtain ⟨xs, hround⟩ := gather_round hcalls
    refine ⟨xs, ⟨u, t, hround⟩, first, [], ?_, ?_⟩
    · rwa [List.append_nil]
    · rw [hround.logged, hlogged]
      simp
  · obtain ⟨xs, hround⟩ := gather_round hcalls
    obtain ⟨last, hlast, hlogged'⟩ := handles_none (by
      split
      · trivial
      · trivial
      · exact Prog.allOps_bind ((Prog.allOps_op _).mpr (by simp)) (fun _ => trivial)) hend
    refine ⟨xs, ⟨u, v, hround⟩, first, last, ?_, ?_⟩
    · intro d hd
      rcases List.mem_append.mp hd with hd | hd
      · exact hfirst d hd
      · exact hlast d hd
    · rw [hlogged', hround.logged, hlogged]
      simp

/-- Whatever is sent to the tools while a round is taken call by call: nothing runs behind a call
that the policy has suspended, but what a person approved and `on_resume` let go on. -/
theorem nothing_behind (sequential : ai.gather = PydanticAI.Standard.gather)
    (run : Prog.Runs (exec out self i) (Others out self i) (ai.callToolsNode eff response results)
      s q t) :
    let items := ai.round response (s.attempts (self i)).messages results
    (∃ xs, Taken out self i ai eff items s xs t) ∧
      ∀ xs, Taken out self i ai eff items s xs t → StandBehind (Cleared eff) eff xs := by
  refine ⟨node_taken sequential run, ?_⟩
  rintro xs ⟨⟨s₁, t₁, hround⟩, -⟩
  exact hround.pairwise

end

/-! A round of two approved calls, of which the policy suspends the first once more. -/

def first : ToolCall := ⟨"send", .dict [], "a"⟩

def second : ToolCall := ⟨"send", .dict [], "b"⟩

def reviewing : Outside :=
  .answering (fun _ _ _ => .ok .null) (fun _ _ => .ok { parts := [] })
    (fun _ _ q => match q with
      | .onResume _ call _ =>
        .ok (if call.toolCallId = "a" then .suspend { pendingId := some "a-again" } else .continue)
      | .postToolUse _ _ result => .ok result
      | _ => .error (.other "not asked"))

def approvals : DeferredToolResults := [("a", .approved none), ("b", .approved none)]

def reviewed : Effects where
  store := some ⟨none⟩
  branchId := "run"
  controls := some "plane"
  resumed := [("a", ⟨{}, { pendingId := some "a" }, ""⟩), ("b", ⟨{}, { pendingId := some "b" }, ""⟩)]

def twice : PydanticAI := .standard (fun _ => "") [] 8

def batch : ModelResponse := { parts := [.toolCall first, .toolCall second] }

def answeredScene : Scene :=
  ⟨{}, fun _ => { messages := [.request { parts := [.userPrompt (.str "go") .null] },
    .response batch] }, []⟩

/-- The scene behind a program that runs alone. -/
def behind {α : Type} (p : Program α) (s : Scene) : Scene :=
  (p.eval (Scene.perform reviewing id 0) s).2

def historyRead : Scene := behind attempt answeredScene

def firstTaken : Scene := behind (twice.executeCall reviewed first (some (.approved none))) historyRead

def secondTaken : Scene := behind (twice.executeCall reviewed second (some (.approved none))) firstTaken

/-- What the thread did between two scenes. -/
def between (s t : Scene) : List Done :=
  (t.events.drop s.events.length).map (fun e => ⟨e.op, e.reply⟩)

def firstStretch : Stretch where
  item := (first, some (.approved none))
  did := between historyRead firstTaken
  left := .ofExcept ((twice.executeCall reviewed first (some (.approved none))).eval
    (Scene.perform reviewing id 0) historyRead).1

def secondStretch : Stretch where
  item := (second, some (.approved none))
  did := between firstTaken secondTaken
  left := .ofExcept ((twice.executeCall reviewed second (some (.approved none))).eval
    (Scene.perform reviewing id 0) firstTaken).1

def nodeEnded : Scene := behind (twice.callToolsNode reviewed batch approvals) answeredScene

theorem reviewed_run : Prog.Runs (exec reviewing id 0) (Others reviewing id 0)
    (twice.callToolsNode reviewed batch approvals) answeredScene
    (.ofExcept ((twice.callToolsNode reviewed batch approvals).eval
      (Scene.perform reviewing id 0) answeredScene).1) nodeEnded :=
  (Prog.Runs.refl _ _).eval

theorem reviewed_taken : Taken reviewing id 0 twice reviewed
    (twice.round batch (answeredScene.attempts (id 0)).messages approvals) answeredScene
    [firstStretch, secondStretch] nodeEnded where
  round := by
    have hfirst : Worked reviewing id 0 twice reviewed firstStretch historyRead firstTaken :=
      ⟨(Prog.Runs.refl _ _).eval, rfl⟩
    have hsecond : Worked reviewing id 0 twice reviewed secondStretch firstTaken secondTaken :=
      ⟨(Prog.Runs.refl _ _).eval, rfl⟩
    have hitems : twice.round batch (answeredScene.attempts (id 0)).messages approvals =
        [firstStretch.item, secondStretch.item] := by decide +kernel
    rw [hitems]
    exact ⟨historyRead, secondTaken, .past hfirst rfl (.under hsecond)⟩
  logged := by
    refine ⟨between answeredScene historyRead, between secondTaken nodeEnded, ?_, rfl⟩
    have hquiet : (between answeredScene historyRead ++ between secondTaken nodeEnded).all
        (fun d => match d.op with
          | .handle .. => false
          | _ => true) = true := by decide +kernel
    rintro d hd ⟨c, j, ho⟩
    have := List.all_eq_true.mp hquiet d hd
    simp [ho] at this

/-- Nothing runs behind a suspension, but behind the first of these calls the second is run. -/
theorem approved_behind : ¬ ∀ (out : Outside) (self : Nat → Nat) (i : Nat) (ai : PydanticAI)
    (eff : Effects) (response : ModelResponse) (results : DeferredToolResults) (s t : Scene)
    (q : Program NodeResult), ai.gather = PydanticAI.Standard.gather →
    Prog.Runs (exec out self i) (Others out self i) (ai.callToolsNode eff response results) s q t →
    let items := ai.round response (s.attempts (self i)).messages results
    (∃ xs, Taken out self i ai eff items s xs t) ∧
      ∀ xs, Taken out self i ai eff items s xs t → StandBehind (fun _ _ => False) eff xs := by
  intro h
  have hbehind := (h _ _ _ _ _ _ _ _ _ _ rfl reviewed_run).2 _ reviewed_taken
  have hsuspended : Suspended firstStretch := by
    refine ⟨first, { pendingId := some "a-again" }, rfl, ?_⟩
    have hnone : firstStretch.did.all (fun d => match d.reply with
      | .ok _ => true
      | .error e => e ≠ .approvalRequired { pendingId := some "a-again" }) = true := by
        decide +kernel
    intro d hd hraised
    have := List.all_eq_true.mp hnone d hd
    simp [show d.reply = _ from hraised] at this
  have hrun : secondStretch.did.any (fun d => match d.op with
      | .handle .. => true
      | _ => false) = true := by decide +kernel
  obtain ⟨d, hd, hhandle⟩ := List.any_eq_true.mp hrun
  obtain ⟨hquiet, -⟩ :=
    ((List.pairwise_cons.mp hbehind).1 secondStretch List.mem_cons_self hsuspended).resolve_left id
  apply hquiet d hd
  cases ho : d.op <;> simp [ho] at hhandle
  exact ⟨_, _, ho⟩

/-- It is run because it was approved, and let go on when `on_resume` was asked about it. -/
theorem approved_cleared : StandBehind (Cleared reviewed) reviewed [firstStretch, secondStretch] :=
  (nothing_behind rfl reviewed_run).2 _ reviewed_taken

end Semora.Proofs.Behind
