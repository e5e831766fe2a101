import Semora.Proofs.Order
import Semora.Proofs.Throughout

/-! Complete mediation: no tool runs but by a decision that was asked for and given before it. -/

namespace Semora.Proofs.Mediated
open Semora.Lib Semora.Store Semora.Transcript
open Semora.Proofs.Order (Follows Grows grows_true Ordered acts ordered_of_safe follows_exec)

/-- Pydantic AI runs the calls of a round side by side or in any order, performs nothing of its own
meanwhile, and takes a decision about a call from nowhere but the results it was given. -/
structure Decides (ai : PydanticAI) : Prop where
  weaves : Prog.Weaves ai.gather
  round : ∀ response messages results call approval,
    (call, some approval) ∈ ai.round response messages results →
      (call.toolCallId, approval) ∈ results
  enter : ∀ history prompt results messages response results',
    ai.enter history prompt results = .ok (messages, .callTools response results') →
      results' ⊆ results

/-- Running one call after the other is one way of running them side by side. -/
theorem weaves_standard : Prog.Weaves PydanticAI.Standard.gather := by
  intro calls
  induction calls with
  | nil =>
    intro done q hplayed
    obtain ⟨rfl, -⟩ := Prog.played_ended (r := .ok []) hplayed
    exact ⟨[], .nil _ (by simp), by simp⟩
  | cons call calls ih =>
    intro done q hplayed
    rcases Prog.played_bind hplayed with ⟨call', hcall⟩ | ⟨front, rest, outcome, rfl, hcall, hrest⟩
    · refine ⟨[done], ?_, ?_⟩
      · simpa using (Prog.Merge.nil [] (by simp)).first done
      · intro part hpart
        rw [List.mem_singleton.mp hpart]
        exact ⟨call, List.mem_cons_self, call', hcall⟩
    · have hgather : ∃ q', Prog.Played (PydanticAI.Standard.gather calls) rest q' := by
        rcases Prog.played_bind hrest with ⟨q', hq⟩ | ⟨front', rest', outcomes, rfl, hall, hend⟩
        · exact ⟨q', hq⟩
        · obtain ⟨rfl, -⟩ := Prog.played_ended (r := .ok (outcome :: outcomes)) hend
          rw [List.append_nil]
          exact ⟨_, hall⟩
      obtain ⟨q', hq⟩ := hgather
      obtain ⟨parts, hmerge, hparts⟩ := ih rest q' hq
      refine ⟨front :: parts, hmerge.first front, ?_⟩
      intro part hpart
      rcases List.mem_cons.mp hpart with rfl | hpart
      · exact ⟨call, List.mem_cons_self, _, hcall⟩
      · obtain ⟨call', hcall', hplayed'⟩ := hparts part hpart
        exact ⟨call', List.mem_cons_of_mem _ hcall', hplayed'⟩

theorem mem_of_fetch {α : Type} {k : String} {v : α} {items : List (String × α)}
    (h : fetch k items = some v) : (k, v) ∈ items := by
  induction items with
  | nil => cases h
  | cons item items ih =>
    unfold fetch at h
    split at h
    · rename_i hk
      cases h
      subst hk
      exact List.mem_cons_self
    · exact List.mem_cons_of_mem _ (ih h)

theorem decides_standard (digest : Json → String) (unapproved : List String) (nodeLimit : Nat) :
    Decides (.standard digest unapproved nodeLimit) where
  weaves := weaves_standard
  round := by
    intro response messages results call approval hmem
    obtain ⟨call', -, heq⟩ := List.mem_map.mp hmem
    obtain ⟨rfl, hfetch⟩ := Prod.mk.inj heq
    exact mem_of_fetch hfetch
  enter := by
    intro history prompt results messages response results' henter
    simp only [PydanticAI.standard, PydanticAI.Standard.enter] at henter
    split at henter
    · split at henter <;> cases henter
    · cases henter
      exact List.Subset.refl _
    · split at henter <;> cases henter
      exact List.Subset.refl _
    · cases henter
    · cases henter

/-- Something was asked, and the answer was to go on. -/
def Continued (plane : String) (call : ToolCall) (done : List Done) : Prop :=
  ∃ here, (⟨.ask plane (.preToolUse here call), .ok .continue⟩ : Done) ∈ done

def Revalidated (plane : String) (call : ToolCall) (resume : ResumeInput) (done : List Done) :
    Prop :=
  ∃ here, (⟨.ask plane (.onResume here call resume), .ok .continue⟩ : Done) ∈ done

/-- Why a call may run with these arguments: the policy let the model's own arguments through and
the tool needs no person, or a person approved the call and the current policy agreed. -/
inductive Granted (ai : PydanticAI) (eff : Effects) (results : DeferredToolResults)
    (done : List Done) (call : ToolCall) (args : Json) : Prop
  | policy (asked : ∀ plane, eff.controls = some plane → Continued plane call done)
      (free : call.toolName ∉ ai.unapproved) (runs : ai.validate call none = .ok args)
  | person (override : Option (List (String × Json)))
      (given : (call.toolCallId, .approved override) ∈ results)
      (asked : ∀ plane resumed, eff.controls = some plane →
        fetch call.toolCallId eff.resumed = some resumed →
        Revalidated plane (Effects.withArgs call args)
          ⟨resumed.answer, resumed.request, resumed.rulesVersion, eff.rulesVersion⟩ done)
      (runs : ai.validate call override = .ok args)

/-- A call passes the boundary if it may run or if its record answers it. -/
def Cleared (ai : PydanticAI) (eff : Effects) (results : DeferredToolResults) (done : List Done)
    (call : ToolCall) (args : Json) : Prop :=
  Granted ai eff results done call args ∨
    ∃ v, eff.store = some v ∧
      Own.Finished (v.filed eff.branchId) (Effects.stepKey call.toolCallId) done

/-- An operation that runs a tool runs it by the rule. -/
def Handles (rule : List Done → ToolCall → Json → Prop) (done : List Done) (d : Done) : Prop :=
  ∀ call args r, d = ⟨.handle call args, r⟩ → rule done call args

abbrev Mediates (rule : List Done → ToolCall → Json → Prop) (s s' : Own) : Prop :=
  Follows (Handles rule) s s'

/-- What the calls of a round do to one another. -/
structure Company (s s' : Own) : Prop where
  done : s.done <+: s'.done
  tools : s'.attempt.approvalTools = s.attempt.approvalTools

/-- What each step of a call of a round guarantees. -/
structure Steps (rule : List Done → ToolCall → Json → Prop) (s s' : Own) : Prop where
  mediates : Mediates rule s s'
  company : Company s s'

section
variable {ai : PydanticAI} {eff : Effects} {results : DeferredToolResults}
variable {done done' : List Done} {call : ToolCall} {args : Json} {s s' : Own}
variable {rule : List Done → ToolCall → Json → Prop}

theorem company_refl (s : Own) : Company s s := ⟨List.prefix_rfl, rfl⟩

theorem company_trans (s s' s'' : Own) (h : Company s s') (h' : Company s' s'') : Company s s'' :=
  ⟨h.done.trans h'.done, h'.tools.trans h.tools⟩

theorem Granted.mono (h : Granted ai eff results done call args) (hdone : done <+: done') :
    Granted ai eff results done' call args := by
  cases h with
  | policy asked free runs =>
    refine .policy (fun plane hplane => ?_) free runs
    obtain ⟨here, hmem⟩ := asked plane hplane
    exact ⟨here, hdone.subset hmem⟩
  | person override given asked runs =>
    refine .person override given (fun plane resumed hplane hresumed => ?_) runs
    obtain ⟨here, hmem⟩ := asked plane resumed hplane hresumed
    exact ⟨here, hdone.subset hmem⟩

theorem Cleared.mono (h : Cleared ai eff results done call args) (hdone : done <+: done') :
    Cleared ai eff results done' call args := by
  rcases h with h | ⟨v, hv, hfinished⟩
  · exact .inl (h.mono hdone)
  · exact .inr ⟨v, hv, hfinished.mono hdone⟩

/-- No tool runs, and the tools that need an approval stay what they are. -/
def Quiet : Op → Prop
  | .handle .. => False
  | .modify f => ∀ a, (f a).approvalTools = a.approvalTools
  | _ => True

theorem quiet_step {o : Op} {r : Except Exn o.Res} (ho : Quiet o) (he : Own.exec o s r s') :
    Steps rule s s' := by
  obtain ⟨-, rfl⟩ := he
  refine ⟨⟨_, rfl, ?_⟩, List.prefix_append _ _, ?_⟩
  · intro call args r' hd
    obtain ⟨rfl, -⟩ := Prog.Done.mk.inj hd
    exact ho.elim
  · cases o with
    | modify f => exact ho _
    | _ => rfl

/-- What holds of a call in company keeps holding while it does nothing of note. -/
theorem safe_quiet {α : Type} {p : Program α} (hp : p.AllOps Quiet) {J : Own → Prop}
    (stable : ∀ s s', Company s s' → J s → J s') (h : J s) :
    Prog.safe Own.exec Company (Steps rule) p (fun _ s' => J s') s := by
  refine Prog.safe_of_allOps stable ?_ hp h
  intro o ho a r b hJ he
  have hstep : Steps rule a b := quiet_step ho he
  exact ⟨hstep, stable a b hstep.company hJ⟩

theorem safe_quiet_op {o : Op} (ho : Quiet o) {Q : Except Exn o.Res → Own → Prop}
    (h : ∀ s₁ r, Company s s₁ → Own.Replies s₁ o r →
      Q r ⟨Own.after s₁.attempt o, s₁.done ++ [⟨o, r⟩]⟩) :
    Prog.safe Own.exec Company (Steps rule) (perform o) Q s := by
  apply (Prog.safe_op o Q s).mpr
  intro s₁ hs₁ r s₂ he
  refine ⟨quiet_step ho he, ?_⟩
  obtain ⟨hreplies, rfl⟩ := he
  exact h s₁ r hs₁ hreplies

theorem quiet_still {α : Type} {p : Program α} (hp : p.AllOps Throughout.Still) :
    p.AllOps Quiet := by
  refine hp.mono (fun o ho => ?_)
  cases o with
  | modify f => exact fun a => (ho a).1
  | handle => exact ho
  | _ => trivial

/-! The gate. -/

theorem safe_replayed :
    Prog.safe Own.exec Company (Steps rule) (eff.replayed call) (fun r s' => r = .ok true →
      ∃ v, eff.store = some v ∧
        Own.Finished (v.filed eff.branchId) (Effects.stepKey call.toolCallId) s'.done) s := by
  unfold Effects.replayed
  split
  · simp
  · unfold Effects.recorded Effects.readStep
    split
    · simp [Step.status]
    · rename_i v hv
      apply (Prog.safe_bind _ _ _ _).mpr
      refine safe_quiet_op (o := .ledger (.read ..)) trivial (fun s₁ r hs₁ hreplies => ?_)
      cases r with
      | error error => simp
      | ok step =>
        intro hdone
        cases step with
        | done value => exact ⟨v, hv, value, by simp⟩
        | absent => simp [Step.status] at hdone
        | running => simp [Step.status] at hdone

theorem gated_continue {a : Attempt} {decision : ToolDecision}
    (h : Effects.gated a call decision = .continue) :
    decision = .continue ∧ call.toolName ∉ a.approvalTools := by
  unfold Effects.gated at h
  by_cases hasks : decision = .continue ∧ call.toolName ∈ a.approvalTools
  · simp [hasks] at h
  · simp only [if_neg hasks] at h
    cases decision with
    | «continue» => exact ⟨rfl, fun hmem => hasks ⟨rfl, hmem⟩⟩
    | deny result =>
      by_cases hbehind : a.suspendedThisRound = true
      · simp [hbehind] at h
      · simp [hbehind] at h
    | suspend request => cases h

theorem safe_gate (here : Ctx) (hready : s.attempt.approvalTools = ai.unapproved) :
    Prog.safe Own.exec Company (Steps rule) (eff.gate here call) (fun r s' => r = .ok .continue →
      (∀ plane, eff.controls = some plane → Continued plane call s'.done) ∧
        call.toolName ∉ ai.unapproved) s := by
  have hpolicy : Prog.safe Own.exec Company (Steps rule) (eff.policy here call) (fun r s' =>
      s'.attempt.approvalTools = ai.unapproved ∧ (r = .ok .continue →
        ∀ plane, eff.controls = some plane → Continued plane call s'.done)) s := by
    unfold Effects.policy
    split
    · rename_i hnone
      refine ⟨hready, fun _ plane hplane => ?_⟩
      rw [hnone] at hplane
      cases hplane
    · rename_i plane hsome
      refine safe_quiet_op (o := .ask ..) trivial (fun s₁ r hs₁ _ => ⟨hs₁.tools.trans hready, ?_⟩)
      intro hr plane' hplane'
      rw [hsome] at hplane'
      cases hplane'
      subst hr
      exact ⟨here, by simp⟩
  apply (Prog.safe_bind _ _ _ _).mpr
  apply Prog.safe_post hpolicy
  intro r s₁ h
  cases r with
  | error error => simp
  | ok decision =>
    apply (Prog.safe_bind _ _ _ _).mpr
    refine safe_quiet_op (o := .get) trivial (fun s₂ r hs₂ hreplies => ?_)
    have hattempt : r = .ok s₂.attempt := hreplies
    subst hattempt
    intro hcontinue
    obtain ⟨rfl, hfree⟩ := gated_continue (Except.ok.inj hcontinue)
    refine ⟨fun plane hplane => ?_, ?_⟩
    · obtain ⟨here', hmem⟩ := h.2 rfl plane hplane
      exact ⟨here', List.mem_append_left _ (hs₂.done.subset hmem)⟩
    · rw [← h.1, ← hs₂.tools]
      exact hfree

theorem safe_resumeDecision (here : Ctx) :
    Prog.safe Own.exec Company (Steps rule) (eff.resumeDecision here call) (fun r s' =>
      r = .ok .continue → ∀ plane resumed, eff.controls = some plane →
        fetch call.toolCallId eff.resumed = some resumed → Revalidated plane call
          ⟨resumed.answer, resumed.request, resumed.rulesVersion, eff.rulesVersion⟩ s'.done) s := by
  unfold Effects.resumeDecision
  split
  · rename_i resumed plane hresumed hplane
    refine safe_quiet_op (o := .ask ..) trivial (fun s₁ r hs₁ _ hr plane' resumed' hplane' => ?_)
    intro hresumed'
    obtain rfl := Option.some.inj (hplane.symm.trans hplane')
    obtain rfl := Option.some.inj (hresumed.symm.trans hresumed')
    subst hr
    exact ⟨here, by simp⟩
  · rename_i hnone
    intro _ plane resumed hplane hresumed
    exact absurd hplane (hnone resumed plane hresumed)

/-- How a call comes by its arguments. -/
def Meant (ai : PydanticAI) (results : DeferredToolResults) (approved : Bool) (call : ToolCall)
    (args : Json) : Prop :=
  if approved then ∃ override, (call.toolCallId, .approved override) ∈ results ∧
    ai.validate call override = .ok args
  else ai.validate call none = .ok args

theorem withArgs_id (call : ToolCall) (args : Json) :
    (Effects.withArgs call args).toolCallId = call.toolCallId := by
  cases args <;> rfl

def Ready (ai : PydanticAI) (s : Own) : Prop := s.attempt.approvalTools = ai.unapproved

theorem ready_carried (s s' : Own) (h : Company s s') (hready : Ready ai s) : Ready ai s' :=
  h.tools.trans hready

theorem safe_verdict {approved : Bool} (hready : Ready ai s)
    (hmeant : Meant ai results approved call args) :
    Prog.safe Own.exec Company (Steps rule) (eff.verdict approved call args) (fun r s' =>
      ∀ asked, r = .ok (asked, .continue) → Cleared ai eff results s'.done call args) s := by
  apply (Prog.safe_bind _ _ _ _).mpr
  apply Prog.safe_post (safe_quiet (quiet_still (Throughout.still_ctx [])) ready_carried hready)
  intro r s₁ hready₁
  cases r with
  | error error => simp
  | ok here =>
    apply (Prog.safe_bind _ _ _ _).mpr
    apply Prog.safe_post (Prog.safe_carry safe_replayed ready_carried
      (fun a b h => ready_carried a b h.company) hready₁)
    intro r s₂ h₂
    cases r with
    | error error => simp
    | ok replayed =>
      cases replayed with
      | true =>
        intro asked _
        exact .inr (h₂.1 rfl)
      | false =>
        cases approved with
        | true =>
          obtain ⟨override, hgiven, hruns⟩ := hmeant
          apply (Prog.safe_bind _ _ _ _).mpr
          apply Prog.safe_post (safe_resumeDecision here)
          intro r s₃ h₃
          cases r with
          | error error => simp
          | ok decision =>
            intro asked hasked
            obtain ⟨-, rfl⟩ := Prod.mk.inj (Except.ok.inj hasked)
            refine .inl (.person override hgiven (fun plane resumed hplane hresumed => ?_) hruns)
            exact h₃ rfl plane resumed hplane ((withArgs_id call args).symm ▸ hresumed)
        | false =>
          apply (Prog.safe_bind _ _ _ _).mpr
          apply Prog.safe_post (safe_gate here h₂.2)
          intro r s₃ h₃
          cases r with
          | error error => simp
          | ok decision =>
            intro asked hasked
            obtain ⟨-, rfl⟩ := Prod.mk.inj (Except.ok.inj hasked)
            obtain ⟨hasked', hfree⟩ := h₃ rfl
            exact .inl (.policy hasked' hfree hmeant)

theorem cleared_carried (s s' : Own) (h : Company s s')
    (hc : Cleared ai eff results s.done call args) : Cleared ai eff results s'.done call args :=
  hc.mono h.done

theorem quiet_update {f : Attempt → Attempt} (h : ∀ a, (f a).approvalTools = a.approvalTools) :
    (update f).AllOps Quiet :=
  (Prog.allOps_op (Op.modify f)).mpr h

theorem quiet_made (refused : Bool) : (Effects.made call refused).AllOps Quiet :=
  quiet_update (fun _ => rfl)

theorem safe_idle {α : Type} {p : Program α} (hp : p.AllOps Quiet) :
    Prog.safe Own.exec Company (Steps rule) p (fun _ _ => True) s :=
  safe_quiet hp (J := fun _ => True) (fun _ _ _ _ => trivial) trivial

/-- What comes out of the gate runs as it went in, and may run. -/
theorem safe_before {approved : Bool} (hready : Ready ai s)
    (hmeant : Meant ai results approved call args) :
    Prog.safe Own.exec Company (Steps rule) (eff.beforeToolExecute approved call args) (fun r s' =>
      ∀ args', r = .ok args' → args' = args ∧ Cleared ai eff results s'.done call args) s := by
  apply (Prog.safe_bind _ _ _ _).mpr
  apply Prog.safe_post (safe_verdict hready hmeant)
  intro r s₁ h₁
  cases r with
  | error error => simp
  | ok verdict =>
    obtain ⟨asked, decision⟩ := verdict
    cases decision with
    | deny result =>
      apply (Prog.safe_bind _ _ _ _).mpr
      apply Prog.safe_post (safe_idle (quiet_made true))
      intro r s₂ _
      cases r <;> simp
    | suspend request =>
      simp only [Effects.enforce]
      split
      · simp
      · apply (Prog.safe_bind _ _ _ _).mpr
        refine Prog.safe_post (safe_idle (quiet_update ?_)) ?_
        · exact fun _ => rfl
        intro r s₂ _
        cases r with
        | error error => simp
        | ok _ =>
          apply (Prog.safe_bind _ _ _ _).mpr
          apply Prog.safe_post (safe_idle (quiet_made true))
          intro r s₃ _
          cases r <;> simp
    | «continue» =>
      apply (Prog.safe_bind _ _ _ _).mpr
      apply Prog.safe_post (safe_quiet (quiet_made false) cleared_carried (h₁ asked rfl))
      intro r s₂ h₂
      cases r with
      | error error => simp
      | ok _ =>
        intro args' hargs
        exact ⟨(Except.ok.inj hargs).symm, h₂⟩

/-! Running a call. -/

theorem quiet_caught (key : Option String) (error : Exn) : (eff.caught key error).AllOps Quiet := by
  unfold Effects.caught
  split
  · refine Prog.allOps_bind ?_ (fun _ => trivial)
    unfold Effects.clearIntent
    split
    · exact (Prog.allOps_op (Op.ledger _)).mpr trivial
    · trivial
  · split <;> trivial

theorem quiet_finishStep (key : Option String) (record : Record) :
    (eff.finishStep key record).AllOps Quiet := by
  unfold Effects.finishStep
  split
  · exact (Prog.allOps_op (Op.ledger _)).mpr trivial
  · trivial

theorem quiet_readStep (key : String) : (eff.readStep key).AllOps Quiet := by
  unfold Effects.readStep
  split
  · trivial
  · exact (Prog.allOps_op (Op.ledger _)).mpr trivial

theorem quiet_journalOnce (call : ToolCall) (record : Record) :
    (eff.journalOnce call record).AllOps Quiet := by
  have hproject : ∀ plane, (eff.project plane call record).AllOps Quiet := by
    intro plane
    refine Prog.allOps_bind (quiet_still (Throughout.still_ctx [])) (fun here => ?_)
    cases record with
    | ok value =>
      exact Prog.allOps_bind ((Prog.allOps_op (Op.ask ..)).mpr trivial) (fun _ => trivial)
    | failed error =>
      exact Prog.allOps_bind ((Prog.allOps_op (Op.ask ..)).mpr trivial) (fun _ => trivial)
  refine Prog.allOps_bind (quiet_readStep _) (fun journaled => ?_)
  split
  · trivial
  · trivial
  · split
    · trivial
    · refine Prog.allOps_bind (hproject _) (fun projected =>
        Prog.allOps_bind ?_ (fun _ => trivial))
      unfold Effects.journal
      split
      · trivial
      · exact (Prog.allOps_op (Op.ledger _)).mpr trivial

theorem safe_handle (hrule : ∀ done, s.done <+: done → rule done call args) :
    Prog.safe Own.exec Company (Steps rule) (perform (.handle call args)) (fun _ _ => True) s := by
  apply (Prog.safe_op (Op.handle call args) _ s).mpr
  intro s₁ hs₁ r s₂ he
  obtain ⟨-, rfl⟩ := he
  refine ⟨⟨⟨_, rfl, ?_⟩, List.prefix_append _ _, rfl⟩, trivial⟩
  intro call' args' r' hd
  obtain ⟨hop, -⟩ := Prog.Done.mk.inj hd
  obtain ⟨rfl, rfl⟩ := Op.handle.inj hop
  exact hrule _ hs₁.done

theorem safe_execute (key : Option String)
    (hrule : ∀ done, s.done <+: done → rule done call args) :
    Prog.safe Own.exec Company (Steps rule)
      (eff.execute key args (fun args => perform (.handle call args))) (fun _ _ => True) s := by
  apply (Prog.safe_bind _ _ _ _).mpr
  apply (Prog.safe_tryCatch _ _ _ _).mpr
  apply (Prog.safe_bind _ _ _ _).mpr
  apply Prog.safe_post (safe_handle hrule)
  have hfinish : ∀ record s', Prog.safe Own.exec Company (Steps rule)
      ((eff.finishStep key record).bind (fun _ => .ret record)) (fun _ _ => True) s' := fun _ _ =>
    safe_idle (Prog.allOps_bind (quiet_finishStep key _) (fun _ => trivial))
  intro r s₁ _
  cases r with
  | ok value => exact hfinish _ s₁
  | error error =>
    apply Prog.safe_post (safe_idle (quiet_caught key error))
    intro r s₂ _
    cases r with
    | ok record => exact hfinish _ s₂
    | error error => trivial

theorem safe_runStep (store : View) (key : String)
    (hrule : ∀ done, s.done <+: done → rule done call args) :
    Prog.safe Own.exec Company (Steps rule)
      (eff.runStep store key args (fun args => perform (.handle call args)))
      (fun _ _ => True) s := by
  apply (Prog.safe_bind _ _ _ _).mpr
  refine safe_quiet_op (o := .ledger (.start ..)) trivial (fun s₁ r hs₁ _ => ?_)
  cases r with
  | error error => trivial
  | ok inserted =>
    simp only
    split
    · refine safe_execute _ (fun done hdone => hrule done (hs₁.done.trans ?_))
      exact (List.prefix_append _ _).trans hdone
    · trivial

/-- A call that passed the boundary runs only if it may. -/
theorem safe_runOrReplay (hcleared : Cleared ai eff results s.done call args)
    (hrule : ∀ done, s.done <+: done → Granted ai eff results done call args →
      rule done call args) :
    Prog.safe Own.exec Company (Steps rule)
      (eff.runOrReplay call args (fun args => perform (.handle call args)))
      (fun _ _ => True) s := by
  unfold Effects.runOrReplay
  split
  · rename_i hnone
    refine safe_execute _ (fun done hdone => hrule done hdone ?_)
    rcases hcleared with hgranted | ⟨v, hv, -⟩
    · exact hgranted.mono hdone
    · rw [hnone] at hv
      cases hv
  · rename_i v hsome
    apply (Prog.safe_bind _ _ _ _).mpr
    refine safe_quiet_op (o := .ledger (.read ..)) trivial (fun s₁ r hs₁ hreplies => ?_)
    cases r with
    | error error => trivial
    | ok step =>
      rcases hcleared with hgranted | ⟨v', hv', hfinished⟩
      · have hrun : ∀ s', s₁.done <+: s'.done → Prog.safe Own.exec Company (Steps rule)
            (eff.runStep v (Effects.stepKey call.toolCallId) args
              (fun args => perform (.handle call args))) (fun _ _ => True) s' := by
          intro s' hs'
          refine safe_runStep v _ (fun done hdone => ?_)
          have hall := hs₁.done.trans (hs'.trans hdone)
          exact hrule done hall (hgranted.mono hall)
        cases step with
        | done value => cases value <;> trivial
        | running =>
          simp only
          split
          · apply (Prog.safe_bind _ _ _ _).mpr
            refine safe_quiet_op (o := .ledger (.forget ..)) trivial (fun s₂ r hs₂ _ => ?_)
            cases r with
            | error error => trivial
            | ok _ => exact hrun _ ((List.prefix_append _ _).trans
                (hs₂.done.trans (List.prefix_append _ _)))
          · trivial
        | absent => exact hrun _ (List.prefix_append _ _)
      · -- The step was read as finished, and so it is read again.
        obtain rfl := Option.some.inj (hsome.symm.trans hv')
        obtain ⟨value, hvalue⟩ := hreplies (hfinished.mono hs₁.done)
        cases hvalue
        cases value <;> trivial

theorem safe_throughHooks {approved : Bool} (hready : Ready ai s)
    (hmeant : Meant ai results approved call args)
    (hrule : ∀ done, s.done <+: done → Granted ai eff results done call args →
      rule done call args) :
    Prog.safe Own.exec Company (Steps rule) (PydanticAI.throughHooks eff approved call args)
      (fun _ _ => True) s := by
  apply (Prog.safe_tryCatch _ _ _ _).mpr
  have hhandler : ∀ error s', Prog.safe Own.exec Company (Steps rule)
      (PydanticAI.caught call error) (fun _ _ => True) s' := by
    intro error s'
    cases error <;> trivial
  apply (Prog.safe_bind _ _ _ _).mpr
  apply Prog.safe_post (Prog.safe_carry (P := fun s' => s.done <+: s'.done)
    (safe_before hready hmeant) (fun a b h hs => hs.trans h.done)
    (fun a b h hs => hs.trans h.company.done) List.prefix_rfl)
  intro r s₁ h₁
  cases r with
  | error error => exact hhandler error s₁
  | ok args' =>
    obtain ⟨rfl, hcleared⟩ := h₁.1 args' rfl
    apply (Prog.safe_bind _ _ _ _).mpr
    apply (Prog.safe_bind _ _ _ _).mpr
    apply Prog.safe_post (safe_runOrReplay hcleared
      (fun done hdone => hrule done (h₁.2.trans hdone)))
    intro r s₂ _
    cases r with
    | error error => exact hhandler error s₂
    | ok step =>
      apply (Prog.safe_bind _ _ _ _).mpr
      apply Prog.safe_post (safe_idle (quiet_journalOnce call step))
      intro r s₃ _
      cases r with
      | error error => exact hhandler error s₃
      | ok record =>
        cases record with
        | ok value => trivial
        | failed error => trivial

theorem safe_executeCall {approval : Option Approval} (hready : Ready ai s)
    (hgiven : ∀ decision, approval = some decision → (call.toolCallId, decision) ∈ results)
    (hrule : ∀ done args, s.done <+: done → Granted ai eff results done call args →
      rule done call args) :
    Prog.safe Own.exec Company (Steps rule) (ai.executeCall eff call approval)
      (fun _ _ => True) s := by
  unfold PydanticAI.executeCall
  split
  · trivial
  · rename_i override
    split
    · trivial
    · rename_i args hargs
      exact safe_throughHooks hready ⟨override, hgiven _ rfl, hargs⟩
        (fun done hdone => hrule done args hdone)
  · split
    · trivial
    · rename_i args hargs
      exact safe_throughHooks hready hargs
        (fun done hdone => hrule done args hdone)

end

/-! Around the calls. -/

/-- No tool runs, and the tools that need an approval are the agent's if they were. -/
def Calm (ai : PydanticAI) : Op → Prop
  | .handle .. => False
  | .modify f => ∀ a, a.approvalTools = ai.unapproved → (f a).approvalTools = ai.unapproved
  | _ => True

/-- Where a round may begin: `J` holds of what was done, and the attempt knows the agent's tools. -/
def Among (ai : PydanticAI) (J : List Done → Prop) (s : Own) : Prop := J s.done ∧ Ready ai s

section
variable {ai : PydanticAI} {eff : Effects} {results : DeferredToolResults}
variable {rule : List Done → ToolCall → Json → Prop} {J : List Done → Prop}

theorem mediates_step {o : Op} {s s' : Own} {r : Except Exn o.Res}
    (ho : ∀ call args, o ≠ .handle call args) (he : Own.exec o s r s') : Mediates rule s s' := by
  refine follows_exec (fun call args r' hd => ?_) he
  obtain ⟨rfl, -⟩ := Prog.Done.mk.inj hd
  exact absurd rfl (ho call args)

theorem keeps_calm (hgrows : Grows J) {o : Op} (ho : Calm ai o) :
    Prog.Keeps Own.exec (Mediates rule) (Among ai J) o.Res (perform o) := by
  refine Prog.keeps_op.mpr (fun s r s' h he => ?_)
  refine ⟨mediates_step (fun call args h => ?_) he, ?_⟩
  · subst h
    exact ho
  · obtain ⟨-, rfl⟩ := he
    refine ⟨hgrows _ _ (List.prefix_append _ _) h.1, ?_⟩
    cases o with
    | modify f => exact ho _ h.2
    | _ => exact h.2

theorem calm_still {α : Type} {p : Program α} (hp : p.AllOps Throughout.Still) :
    p.AllOps (Calm ai) := by
  refine hp.mono (fun o ho => ?_)
  cases o with
  | modify f => exact fun a ha => (ho a).1.trans ha
  | handle => exact ho
  | _ => trivial

theorem calm_settling {α : Type} {p : Program α} (hp : p.AllOps Throughout.Settling) :
    p.AllOps (Calm ai) := by
  refine hp.mono (fun o ho => ?_)
  cases o with
  | ledger c => trivial
  | _ => exact ho.elim

theorem calm_update {f : Attempt → Attempt}
    (h : ∀ a, a.approvalTools = ai.unapproved → (f a).approvalTools = ai.unapproved) :
    (update f).AllOps (Calm ai) :=
  (Prog.allOps_op (Op.modify f)).mpr h

theorem calm_ask (plane : String) (q : Question) : (Effects.ask plane q).AllOps (Calm ai) :=
  (Prog.allOps_op (Op.ask plane q)).mpr trivial

theorem calm_halt (reason : StopReason) : (Effects.halt reason).AllOps (Calm ai) :=
  Prog.allOps_bind (calm_update (fun _ h => h)) (fun _ =>
    Prog.allOps_bind (calm_still Throughout.still_attempt) (fun _ => trivial))

theorem calm_steered (request : ModelRequest) (pending : List PendingInput) :
    (eff.steered request pending).AllOps (Calm ai) := by
  have hscreen : ∀ plane here inputs, (eff.screen plane here pending inputs).AllOps (Calm ai) := by
    intro plane here inputs
    unfold Effects.screen
    split
    · trivial
    · refine Prog.allOps_bind (calm_ask _ _) (fun answer => ?_)
      split
      · exact Prog.allOps_bind (calm_settling (Throughout.settling_discard _ _ _ _))
          (fun _ => trivial)
      · trivial
  unfold Effects.steered
  split
  · trivial
  · refine Prog.allOps_bind (calm_still (Throughout.still_boundaryCtx _)) (fun here =>
      Prog.allOps_bind (hscreen _ _ _) (fun screened => ?_))
    split
    · trivial
    · refine Prog.allOps_bind (calm_ask _ _) (fun decision => ?_)
      cases decision <;> trivial

theorem calm_decideFinish (result : NodeResult) : (eff.decideFinish result).AllOps (Calm ai) := by
  cases result with
  | node next => trivial
  | finish output =>
    simp only [Effects.decideFinish]
    split
    · trivial
    · refine Prog.allOps_bind (calm_still Throughout.still_lateInputs) (fun late => ?_)
      split
      · exact Prog.allOps_bind (calm_update (fun _ h => h)) (fun _ => trivial)
      · split
        · exact Prog.allOps_bind (calm_update (fun _ h => h)) (fun _ => trivial)
        · refine Prog.allOps_bind (calm_still (Throughout.still_ctx _)) (fun here =>
            Prog.allOps_bind (calm_ask _ _) (fun decision => ?_))
          cases decision with
          | proceed steers => trivial
          | halt reason => exact Prog.allOps_bind (calm_update (fun _ h => h)) (fun _ => trivial)

theorem calm_requested {α : Type} {p : Program α} (hp : p.AllOps (Throughout.Requested ai)) :
    p.AllOps (Calm ai) := by
  refine hp.mono (fun o ho => ?_)
  cases o with
  | modify f => exact ho
  | handle => exact ho
  | _ => trivial

/-- The node carries no decisions but those the run was given. -/
def Given (results : DeferredToolResults) (node : Node) : Prop :=
  ∀ response results', node = .callTools response results' → results' ⊆ results

theorem keeps_callTools (hdecides : Decides ai) (hgrows : Grows J)
    (hrule : ∀ done call args, J done → Granted ai eff results done call args →
      rule done call args)
    {response : ModelResponse} {results' : DeferredToolResults} (hgiven : results' ⊆ results) :
    Prog.Keeps Own.exec (Mediates rule) (Among ai J) _
      (ai.callToolsNode eff response results') := by
  have hk := Prog.compositional_keeps Own.exec (Mediates rule) (Among ai J)
  have hcalm : ∀ {α : Type} {p : Program α}, p.AllOps (Calm ai) →
      Prog.Keeps Own.exec (Mediates rule) (Among ai J) α p := fun hp =>
    hk.ofAllOps hp (fun _ => keeps_calm hgrows)
  refine hk.bind (hcalm (calm_still Throughout.still_attempt)) (fun a => hk.bind ?_
    (fun outcomes => ?_))
  · intro s hs
    have hcalls : ∀ call ∈ (ai.round response a.messages results').map
          (fun item => ai.executeCall eff item.1 item.2),
        ∀ s, Among ai J s → Prog.safe Own.exec Company (Steps rule) call (fun _ _ => True) s := by
      intro call hcall s hs
      obtain ⟨item, hitem, rfl⟩ := List.mem_map.mp hcall
      obtain ⟨call, approval⟩ := item
      refine safe_executeCall hs.2 (fun decision hdecision => ?_)
        (fun done args hdone h => hrule done call args (hgrows _ _ hdone hs.1) h)
      subst hdecision
      exact hgiven (hdecides.round _ _ _ _ _ hitem)
    have hweave := Prog.keeps_weave hdecides.weaves company_refl company_trans
      (fun a b (h : Steps rule a b) => h.company)
      (fun a b h (hI : Among ai J a) => ⟨hgrows _ _ h.done hI.1, ready_carried a b h hI.2⟩) hcalls
    exact Prog.safe_mono (hweave s hs) (fun _ _ h => h.mediates) (fun _ _ h => h)
  · split
    · exact hk.raise _
    · exact hk.ret _
    · exact hk.bind (hcalm (calm_update (fun _ h => h))) (fun _ => hk.ret _)

theorem keeps_node (hdecides : Decides ai) (hgrows : Grows J)
    (hrule : ∀ done call args, J done → Granted ai eff results done call args →
      rule done call args)
    (prompt : Option Json) (node : Node) (hgiven : Given results node) :
    Prog.Keeps Own.exec (Mediates rule) (Among ai J) _
      (eff.wrapNodeRun node (ai.runNode eff prompt results)) := by
  have hk := Prog.compositional_keeps Own.exec (Mediates rule) (Among ai J)
  have hcalm : ∀ {α : Type} {p : Program α}, p.AllOps (Calm ai) →
      Prog.Keeps Own.exec (Mediates rule) (Among ai J) α p := fun hp =>
    hk.ofAllOps hp (fun _ => keeps_calm hgrows)
  refine hk.bind (hcalm (calm_update (fun _ h => h))) (fun _ => ?_)
  cases node with
  | userPrompt => exact hcalm (calm_requested (Throughout.requested_enterNode prompt results))
  | modelRequest request =>
    refine hk.bind (hcalm (calm_still Throughout.still_drain)) (fun pending =>
      hk.bind (hcalm (calm_steered _ _)) (fun decision => ?_))
    split
    · exact hcalm (calm_halt _)
    · exact hk.bind (hcalm (calm_update (fun _ h => h))) (fun _ =>
        hk.bind (hcalm (calm_still (Throughout.still_recordMessage _))) (fun _ =>
          hk.bind (hcalm (calm_settling (Throughout.settling_admitInputs _))) (fun _ =>
            hcalm (calm_requested (Throughout.requested_requestNode _)))))
  | callTools response results' =>
    exact hk.bind (hcalm (calm_update (fun _ h => h))) (fun _ =>
      hk.bind (hcalm (calm_still (Throughout.still_recordPending _))) (fun _ =>
        hk.bind (keeps_callTools hdecides hgrows hrule (hgiven _ _ rfl)) (fun result =>
          hk.bind (hcalm (calm_still (Throughout.still_recordTurn _ _))) (fun _ =>
            hcalm (calm_decideFinish _)))))

/-- Where a node leads carries no other decisions. -/
theorem leads_node (hdecides : Decides ai) (prompt : Option Json) (node : Node) :
    (eff.wrapNodeRun node (ai.runNode eff prompt results)).AllRets
      (fun result => ∀ next, result = .node next → Given results next) := by
  have hfinish : ∀ output next, NodeResult.finish output = .node next → Given results next := by
    intro output next h
    cases h
  have hrequest : ∀ request next, NodeResult.node (.modelRequest request) = .node next →
      Given results next := by
    intro request next h
    cases h
    intro response results' h
    cases h
  refine Prog.allRets_then _ (fun _ => ?_)
  cases node with
  | userPrompt =>
    refine Prog.allRets_then _ (fun a => ?_)
    split
    · trivial
    · rename_i messages node henter
      refine Prog.allRets_then _ (fun _ => Prog.allRets_then _ (fun _ => ?_))
      intro next hnext response results' hcalls
      cases hnext
      exact hdecides.enter _ _ _ _ _ _ (hcalls ▸ henter)
  | modelRequest request =>
    refine Prog.allRets_then _ (fun pending => Prog.allRets_then _ (fun decision => ?_))
    split
    · exact Prog.allRets_then _ (fun _ => Prog.allRets_then _ (fun _ => hfinish _))
    · refine Prog.allRets_then _ (fun _ => Prog.allRets_then _ (fun _ =>
        Prog.allRets_then _ (fun _ => Prog.allRets_then _ (fun _ => Prog.allRets_then _ (fun _ =>
          Prog.allRets_then _ (fun a => Prog.allRets_then _ (fun response =>
            Prog.allRets_then _ (fun _ => ?_))))))))
      intro next hnext response results' hcalls
      cases hnext
      cases hcalls
      exact List.nil_subset _
  | callTools response results' =>
    refine Prog.allRets_then _ (fun _ => Prog.allRets_then _ (fun _ =>
      Prog.allRets_bind ?_ (fun result (hresult : ∀ next, result = .node next →
        Given results next) => Prog.allRets_then _ (fun _ => ?_))))
    · refine Prog.allRets_then _ (fun a => Prog.allRets_then _ (fun outcomes => ?_))
      split
      · trivial
      · exact hrequest _
      · exact Prog.allRets_then _ (fun _ => hfinish _)
    · cases result with
      | node next => exact hresult
      | finish output =>
        simp only [Effects.decideFinish]
        split
        · exact hfinish _
        · refine Prog.allRets_then _ (fun late => ?_)
          split
          · exact Prog.allRets_then _ (fun _ => hrequest _)
          · split
            · exact Prog.allRets_then _ (fun _ => hfinish _)
            · refine Prog.allRets_then _ (fun here => Prog.allRets_then _ (fun decision => ?_))
              cases decision with
              | proceed steers => exact hrequest _
              | halt reason => exact Prog.allRets_then _ (fun _ => hfinish _)

/-- No tool runs. -/
def Toolless : Op → Prop
  | .handle .. => False
  | _ => True

theorem keeps_toolless (hgrows : Grows J) {o : Op} (ho : Toolless o) :
    Prog.Keeps Own.exec (Mediates rule) (fun s => J s.done) o.Res (perform o) := by
  refine Prog.keeps_op.mpr (fun s r s' h he => ⟨mediates_step (fun call args h => ?_) he, ?_⟩)
  · subst h
    exact ho
  · obtain ⟨-, rfl⟩ := he
    exact hgrows _ _ (List.prefix_append _ _) h

theorem toolless_update (f : Attempt → Attempt) : (update f).AllOps Toolless :=
  (Prog.allOps_op (Op.modify f)).mpr trivial

/-- An attempt learns the agent's tools where its run begins. -/
theorem safe_entered (hgrows : Grows J) (prompt : Option Json) {s : Own} (h : J s.done) :
    Prog.safe Own.exec Eq (Mediates rule)
      (eff.wrapNodeRun .userPrompt (ai.runNode eff prompt results))
      (fun r s' => J s'.done ∧ ∀ result, r = .ok result → Ready ai s') s := by
  have hk := Prog.compositional_keeps Own.exec (Mediates rule) (fun s => J s.done)
  have htoolless : ∀ {α : Type} {p : Program α}, p.AllOps Toolless →
      Prog.Keeps Own.exec (Mediates rule) (fun s => J s.done) α p := fun hp =>
    hk.ofAllOps hp (fun _ => keeps_toolless hgrows)
  apply (Prog.safe_bind _ _ _ _).mpr
  apply Prog.safe_post (htoolless (toolless_update _) s h)
  intro r s₁ h₁
  cases r with
  | error error => exact ⟨h₁, by simp⟩
  | ok _ =>
    apply (Prog.safe_bind _ _ _ _).mpr
    apply Prog.safe_post (htoolless ((Prog.allOps_op Op.get).mpr trivial) s₁ h₁)
    intro r s₂ h₂
    cases r with
    | error error => exact ⟨h₂, by simp⟩
    | ok a =>
      simp only
      split
      · exact ⟨h₂, by simp⟩
      · apply (Prog.safe_bind _ _ _ _).mpr
        apply Prog.safe_post (htoolless (toolless_update _) s₂ h₂)
        intro r s₃ h₃
        cases r with
        | error error => exact ⟨h₃, by simp⟩
        | ok _ =>
          apply (Prog.safe_bind _ _ _ _).mpr
          apply (Prog.safe_op (Op.modify _) _ s₃).mpr
          intro s₄ hs₄ r s₅ he
          subst hs₄
          refine ⟨mediates_step (fun _ _ => by simp) he, ?_⟩
          obtain ⟨-, rfl⟩ := he
          cases r with
          | error error => exact ⟨hgrows _ _ (List.prefix_append _ _) h₃, by simp⟩
          | ok _ => exact ⟨hgrows _ _ (List.prefix_append _ _) h₃, fun _ _ => rfl⟩

/-- A whole run of the agent. -/
theorem keeps_run (hdecides : Decides ai) (hgrows : Grows J)
    (hrule : ∀ done call args, J done → Granted ai eff results done call args →
      rule done call args)
    (prompt : Option Json) (history : List ModelMessage) :
    Prog.Keeps Own.exec (Mediates rule) (fun s => J s.done) _
      (ai.run eff prompt history results) := by
  have hk := Prog.compositional_keeps Own.exec (Mediates rule) (fun s => J s.done)
  have hupdate : ∀ f, Prog.Keeps Own.exec (Mediates rule) (fun s => J s.done) _ (update f) :=
    fun f => keeps_toolless (o := .modify f) hgrows trivial
  refine hk.bind (hupdate _) (fun _ => hk.bind ?_ (fun output => hk.bind (hupdate _)
    (fun _ => hk.ret _)))
  intro s hs
  cases ai.nodeLimit with
  | zero => exact hs
  | succ fuel =>
    apply (Prog.safe_bind _ _ _ _).mpr
    apply Prog.safe_post (Prog.safe_rets (leads_node hdecides prompt .userPrompt)
      (safe_entered hgrows prompt hs))
    intro r s₁ h₁
    cases r with
    | error error => exact h₁.1.1
    | ok result =>
      have hamong : Among ai J s₁ := ⟨h₁.1.1, h₁.1.2 result rfl⟩
      cases result with
      | finish output => exact hamong.1
      | node next =>
        have hk' := Prog.compositional_keeps Own.exec (Mediates rule) (Among ai J)
        have hadvance : ∀ next, Prog.Keeps Own.exec (Mediates rule) (Among ai J) _
            (PydanticAI.advance next) := by
          intro next
          refine keeps_calm (o := .modify _) hgrows (fun a ha => ?_)
          cases next with
          | modelRequest request =>
            simp only
            split <;> exact ha
          | userPrompt => exact ha
          | callTools response results => exact ha
        have hrest := hk'.bind (hadvance next) (fun _ => Throughout.iterate_of hk'
          (keeps_node hdecides hgrows hrule prompt)
          (fun node _ => leads_node hdecides prompt node) hadvance fuel (h₁.2 _ rfl next rfl))
        exact Prog.safe_post (hrest s₁ hamong) (fun _ _ h => h.1)

end

/-! Every call of the runtime. -/

/-- The continuation was taken up with all its answers. -/
def TakenUp (active : Suspension) (done : List Done) : Prop :=
  active.state = .resuming ∧ ∃ b token, (⟨.ledger (.writeControl b Effects.activeSuspension
    (.suspension active) token), .ok ()⟩ : Done) ∈ done

/-- Why a tool may run with these arguments. The policy let the model's own arguments through and
the tool needs no person; or the call was parked and a person's answer approved it, with the
arguments the answer gives; or the caller itself brought the approval. Where there is a control
plane it has been asked about the call and has agreed. -/
inductive Permitted (ai : PydanticAI) (controls : Option String) (results : DeferredToolResults)
    (resumed : List (String × Resumed)) (done : List Done) (call : ToolCall) (args : Json) : Prop
  | policy (asked : ∀ plane, controls = some plane → Continued plane call done)
      (free : call.toolName ∉ ai.unapproved) (runs : ai.validate call none = .ok args)
  | answered (active : Suspension) (taken : TakenUp active done) (parked : ToolCall)
      (request : Request) (listed : (parked, request) ∈ active.continuation.calls)
      (same : parked.toolCallId = call.toolCallId) (answer : Answer)
      (found : fetch call.toolCallId active.answers = some answer)
      (approves : answer.type ≠ some "error")
      (asked : ∀ plane, controls = some plane → ∃ request' rules,
        (∃ parked', (parked', request') ∈ active.continuation.calls ∧
          parked'.toolCallId = call.toolCallId) ∧
        Revalidated plane (Effects.withArgs call args)
          ⟨answer, request', active.continuation.rulesVersion, rules⟩ done)
      (runs : ai.validate call answer.args = .ok args)
  | brought (override : Option (List (String × Json)))
      (given : (call.toolCallId, .approved override) ∈ results)
      (asked : ∀ plane back, controls = some plane →
        fetch call.toolCallId resumed = some back → ∃ rules,
          Revalidated plane (Effects.withArgs call args)
            ⟨back.answer, back.request, back.rulesVersion, rules⟩ done)
      (runs : ai.validate call override = .ok args)

section
variable {parked : List (ToolCall × Request)} {answers : List (String × Answer)}

theorem approval_answered {results : DeferredToolResults} {id : String} {approval : Approval}
    (h : AgentRuntime.approvals parked answers = some results) (hmem : (id, approval) ∈ results) :
    ∃ item ∈ parked, item.1.toolCallId = id ∧ ∃ answer, fetch id answers = some answer ∧
      approval = AgentRuntime.approvalOf answer := by
  unfold AgentRuntime.approvals at h
  induction parked generalizing results with
  | nil =>
    cases h
    cases hmem
  | cons first parked ih =>
    rw [List.mapM_cons] at h
    obtain ⟨pair, hpair, h⟩ := Option.bind_eq_some_iff.mp h
    obtain ⟨rest, hrest, h⟩ := Option.bind_eq_some_iff.mp h
    cases h
    rcases List.mem_cons.mp hmem with heq | hmem
    · obtain ⟨answer, hanswer, rfl⟩ := Option.map_eq_some_iff.mp hpair
      obtain ⟨rfl, rfl⟩ := Prod.mk.inj heq
      exact ⟨first, List.mem_cons_self, rfl, answer, hanswer, rfl⟩
    · obtain ⟨item, hitem, hid, hrest'⟩ := ih hrest hmem
      exact ⟨item, List.mem_cons_of_mem _ hitem, hid, hrest'⟩

/-- What a resumed call comes back with is its answer and one of the requests made for it. -/
theorem resumed_answered {active : Suspension} {id : String} {answer : Answer}
    (hanswer : fetch id answers = some answer)
    (hlisted : ∃ item ∈ active.continuation.calls, item.1.toolCallId = id) :
    ∃ request, fetch id (AgentRuntime.resumedCalls active answers) =
        some ⟨answer, request, active.continuation.rulesVersion⟩ ∧
      ∃ parked', (parked', request) ∈ active.continuation.calls ∧ parked'.toolCallId = id := by
  unfold AgentRuntime.resumedCalls
  generalize active.continuation.rulesVersion = rules
  generalize active.continuation.calls = calls at hlisted ⊢
  induction calls with
  | nil =>
    obtain ⟨item, hitem, -⟩ := hlisted
    cases hitem
  | cons first rest ih =>
    by_cases hid : first.1.toolCallId = id
    · refine ⟨first.2, ?_, first.1, List.mem_cons_self, hid⟩
      simp [fetch, hid, hanswer]
    · have hrest : ∃ item ∈ rest, item.1.toolCallId = id := by
        obtain ⟨item, hitem, hitem'⟩ := hlisted
        rcases List.mem_cons.mp hitem with rfl | hmem
        · exact absurd hitem' hid
        · exact ⟨item, hmem, hitem'⟩
      obtain ⟨request, hfound, parked', hmem, hparked'⟩ := ih hrest
      refine ⟨request, ?_, parked', List.mem_cons_of_mem _ hmem, hparked'⟩
      cases hfirst : fetch first.1.toolCallId answers with
      | none => simpa [hfirst] using hfound
      | some other => simpa [hfirst, fetch, Ne.symm hid] using hfound

end

section
variable {rt : AgentRuntime} {agent : Agent} {op : Operation}

/-- The rule a call of the runtime keeps to. -/
abbrev rule (agent : Agent) (op : Operation) : List Done → ToolCall → Json → Prop :=
  Permitted agent.toPydanticAI (Throughout.controls op <|> agent.own) (Throughout.results op)
    (Throughout.resumed op)

theorem carried_mediates (agent : Agent) (op : Operation) {J : List Done → Prop} (hgrows : Grows J) :
    Throughout.Carried (Prog.Keeps Own.exec (Mediates (rule agent op)) (fun s => J s.done)) where
  compositional := Prog.compositional_keeps _ _ _
  outer o ho := keeps_toolless hgrows (by
    cases o with
    | handle => exact ho
    | _ => trivial)

theorem keeps_attemptRun {J : List Done → Prop} (hdecides : Decides agent.toPydanticAI)
    (hgrows : Grows J) {e : Execution} {token : Nat} {prompt : Option String} {options : Options}
    (hrule : ∀ done call args, J done →
      Granted agent.toPydanticAI (rt.effectsOf e token agent options) options.results done call args →
      rule agent op done call args) :
    Prog.Keeps Own.exec (Mediates (rule agent op)) (fun s => J s.done) _
      (rt.attemptRun e token agent prompt options) := by
  have hcarried := carried_mediates agent op hgrows
  have hk := hcarried.compositional
  refine hcarried.attemptRun (keeps_toolless (o := .modify _) hgrows trivial) ?_
    (fun prompt history => keeps_run hdecides hgrows hrule prompt history)
  unfold AgentRuntime.admitPrompt
  split
  · refine hk.bind (keeps_toolless (o := .now) hgrows trivial) (fun instant =>
      hk.bind (keeps_toolless (o := .ledger _) hgrows trivial) (fun inserted => ?_))
    split
    · exact hk.bind (keeps_toolless (o := .ledger _) hgrows trivial) (fun _ => hk.ret _)
    · exact hk.ret _
  · exact hk.ret _

theorem grows_takenUp (active : Suspension) : Grows (TakenUp active) := by
  intro done done' hdone h
  obtain ⟨hstate, b, token, hmem⟩ := h
  exact ⟨hstate, b, token, hdone.subset hmem⟩

theorem approvalOf_approved {answer : Answer} {override : Option (List (String × Json))}
    (h : Approval.approved override = AgentRuntime.approvalOf answer) :
    answer.type ≠ some "error" ∧ answer.args = override := by
  unfold AgentRuntime.approvalOf at h
  split at h
  · cases h
  · rename_i htype
    cases h
    exact ⟨htype, rfl⟩

/-- What the boundary of an operation's own attempt grants, is permitted. -/
theorem permitted_hosted {e : Execution} {token : Nat} {options : Options}
    (hosted : Throughout.Hosted op options) {done : List Done} {call : ToolCall} {args : Json}
    (h : Granted agent.toPydanticAI (rt.effectsOf e token agent options) options.results done call
      args) : rule agent op done call args := by
  have hcontrols : (rt.effectsOf e token agent options).controls =
      (Throughout.controls op <|> agent.own) := by
    rw [← hosted.controls]
    rfl
  cases h with
  | policy asked free runs =>
    refine .policy (fun plane hplane => asked plane ?_) free runs
    rw [hcontrols]
    exact hplane
  | person override given asked runs =>
    refine .brought override (hosted.results ▸ given) (fun plane back hplane hback => ?_) runs
    refine ⟨_, asked plane back ?_ ?_⟩
    · rw [hcontrols]
      exact hplane
    · rw [← hosted.resumed] at hback
      exact hback

/-- What the boundary of a finalization grants, is permitted: the answers are those taken up. -/
theorem permitted_finalized {e : Execution} {token : Nat} {active : Suspension}
    {answers : List (String × Answer)} {rulesVersion : String} {results : DeferredToolResults}
    {messages : List ModelMessage}
    (hresults : AgentRuntime.approvals active.continuation.calls answers = some results)
    {done : List Done}
    (taken : TakenUp { active with state := .resuming, answers } done) {call : ToolCall}
    {args : Json}
    (h : Granted agent.toPydanticAI (rt.effectsOf e token agent
      { controls := Throughout.controls op, rulesVersion, messageHistory := some messages, results
        resumed := AgentRuntime.resumedCalls active answers }) results done call args) :
    rule agent op done call args := by
  cases h with
  | policy asked free runs => exact .policy asked free runs
  | person override given asked runs =>
    obtain ⟨item, hitem, hid, answer, hanswer, happroval⟩ := approval_answered hresults given
    obtain ⟨happroves, rfl⟩ := approvalOf_approved happroval
    obtain ⟨request, hresumed, hlisted⟩ := resumed_answered hanswer ⟨item, hitem, hid⟩
    refine .answered _ taken item.1 item.2 hitem hid answer hanswer happroves
      (fun plane hplane => ⟨request, rulesVersion, hlisted, ?_⟩) runs
    exact asked plane _ hplane hresumed

theorem keeps_finalize (hdecides : Decides agent.toPydanticAI) {e : Execution} {token : Nat}
    {active : Suspension} {answers : List (String × Answer)} {rulesVersion : String} :
    Prog.Keeps Own.exec (Mediates (rule agent op)) (fun _ => True) _
      (rt.finalize e token agent active answers (Throughout.controls op) rulesVersion) := by
  have hcarried := carried_mediates agent op grows_true
  intro s _
  apply (Prog.safe_bind _ _ _ _).mpr
  apply Prog.safe_post (hcarried.of_loose Throughout.loose_requireStore s trivial)
  intro r s₁ _
  cases r with
  | error error => trivial
  | ok store =>
    simp only
    split
    · trivial
    · rename_i results hresults
      apply (Prog.safe_bind _ _ _ _).mpr
      apply (Prog.safe_op (Op.ledger (.writeControl ..)) _ s₁).mpr
      intro s₂ hs₂ r s₃ he
      subst hs₂
      refine ⟨mediates_step (fun _ _ => by simp) he, ?_⟩
      obtain ⟨-, rfl⟩ := he
      cases r with
      | error error => trivial
      | ok _ =>
        apply (Prog.safe_bind _ _ _ _).mpr
        have hattempt : Prog.Keeps Own.exec (Mediates (rule agent op))
            (fun s => TakenUp { active with state := .resuming, answers } s.done) _
            (rt.attemptRun (AgentRuntime.rejoined e active) token agent none
              { controls := Throughout.controls op, rulesVersion
                messageHistory := some active.continuation.messages, results
                resumed := AgentRuntime.resumedCalls active answers }) :=
          keeps_attemptRun hdecides (grows_takenUp _)
            (fun done call args htaken h => permitted_finalized hresults htaken h)
        apply Prog.safe_post (hattempt _ ⟨rfl, _, _, List.mem_append_right _ List.mem_cons_self⟩)
        intro r s₄ _
        cases r with
        | error error => trivial
        | ok outcome =>
          have hlast := hcarried.compositional.bind
            (hcarried.outer (.ledger (.writeControl (store.filed e.branchId)
              Effects.activeSuspension (.completed active.callId active.callIds) token)) trivial)
            (fun _ => hcarried.compositional.ret outcome)
          exact hlast s₄ trivial

/-- Every operation of the runtime, and of a class agent. -/
theorem keeps_serve (rt : AgentRuntime) (op : Operation)
    (hdecides : Decides agent.toPydanticAI) (e : Execution) :
    Prog.Keeps Own.exec (Mediates (rule agent op)) (fun _ => True) _ (rt.serve agent e op) ∧
      Prog.Keeps Own.exec (Mediates (rule agent op)) (fun _ => True) _
        (settled op (rt.serve agent e op)) := by
  have hcarried := carried_mediates agent op grows_true
  have hparts : Throughout.Parts (Prog.Keeps Own.exec (Mediates (rule agent op)) (fun _ => True))
      rt agent op := {
    attempts := fun e token prompt options hosted => keeps_attemptRun hdecides grows_true
      (fun done call args _ h => permitted_hosted hosted h)
    finalizes := fun e token active answers rulesVersion => keeps_finalize hdecides }
  exact ⟨hcarried.serve hparts, hcarried.settled hparts⟩

end

/-! Among any others. -/

/-- Every tool the thread ran, it ran by the rule. -/
def RunsBy (rule : List Done → ToolCall → Json → Prop) (i : Nat) (s : Scene) : Prop :=
  ∀ before call args r after, log i s.events = before ++ ⟨i, .handle call args, r⟩ :: after →
    rule (acts before) call args

section
variable {out : Outside} {self : Nat → Nat} {i : Nat}

/-- Complete mediation: whatever an operation of the runtime does among any others, it runs no tool
but by a decision that was asked for and given before. -/
theorem runs_permitted {rt : AgentRuntime} {agent : Agent} {op : Operation} {e : Execution}
    {pool pool' : Nat → Program Reply} {s s' : Scene} (decides : Decides agent.toPydanticAI)
    (serves : pool i = rt.serve agent e op ∨ pool i = settled op (rt.serve agent e op))
    (apart : ∀ j, j ≠ i → self j ≠ self i) (fresh : log i s.events = [])
    (run : Interleaved (exec out self) (fun _ _ => False) pool s pool' s') :
    RunsBy (rule agent op) i s' := by
  obtain ⟨hserve, hsettled⟩ := keeps_serve rt op decides e
  have hsafe : ∀ a, Prog.safe Own.exec Eq (Mediates (rule agent op)) (pool i)
      (fun _ _ => True) ⟨a, []⟩ := by
    intro a
    rcases serves with h | h
    · rw [h]
      exact hserve _ trivial
    · rw [h]
      exact hsettled _ trivial
  intro before call args r after hlog
  exact ordered_of_safe hsafe apart fresh run before _ after hlog call args r rfl

end

/-- A model that sends once, a policy that asks a person, and a person's answer it agrees with. -/
def personal : Outside :=
  .answering (fun _ _ _ => .ok .null)
    (fun _ request => .ok (if request.messages.length = 1 then
      { parts := [.toolCall ⟨"send", .dict [], "c1"⟩] } else { parts := [.text "sent"] }))
    (fun _ _ q => match q with
      | .preToolUse .. => .ok (.suspend { pendingId := some "p1" })
      | .onInputs _ inputs => .ok (.inputs inputs)
      | .beforeModel _ => .ok (.proceed [])
      | .onResume .. => .ok .continue
      | .onSuspend .. => .ok ()
      | .postToolUse _ _ result => .ok result
      | .beforeFinish _ reason => .ok (.halt reason))

/-- A digest that tells requests by how many messages they hold. -/
def counted : Json → String
  | .dict ((_, .list messages) :: _) => String.ofList (List.replicate messages.length 'm')
  | _ => ""

def sender : Agent := { PydanticAI.standard counted ["send"] 8 with }

def greet : Operation := .run (some "hi") { controls := some "plane" } none

def approve : Operation := .resume { type := some "approve" } (some "p1") (some "plane") "" none

/-- A prompt that parks, and the answer to it. -/
def promptThenApprove (i : Nat) : Program Reply :=
  ({} : AgentRuntime).serve sender { branchId := "run" } (if i = 1 then approve else greet)

def approved : (Nat → Program Reply) × Scene :=
  scheduled (Scene.perform personal id) (List.replicate 62 0 ++ List.replicate 99 1)
    promptThenApprove ⟨{}, fun _ => {}, []⟩

def ran : Event → Bool
  | ⟨_, .handle .., _⟩ => true
  | _ => false

/-- The answer's thread ran the tool, by the rule. -/
theorem runs_permitted_approved : (log 1 approved.2.events).any ran = true ∧
    RunsBy (rule sender approve) 1 approved.2 := by
  refine ⟨by decide +kernel, ?_⟩
  have serves : promptThenApprove 1 =
    ({} : AgentRuntime).serve sender { branchId := "run" } approve := rfl
  have run := interleaved_scheduled (Scene.perform personal id) (fun _ _ => False)
    (List.replicate 62 0 ++ List.replicate 99 1) promptThenApprove ⟨{}, fun _ => {}, []⟩
  exact runs_permitted (decides_standard counted ["send"] 8) (.inl serves) (fun _ hj => hj) rfl run

end Semora.Proofs.Mediated
