import Semora.Proofs.Parked

/-! A park survives until it is decided, whatever is called on its branch meanwhile. -/

namespace Semora.Proofs.Parked
open Semora.Lib Semora.Store Semora.Transcript

/-- What may be called on a branch. -/
inductive Entry
  | run (agent : Agent) (prompt : Option String) (options : Options)
  | fork (src : Execution) (at_ : Option Uuid) (agent : Agent) (prompt : Option String)
      (history : Option (List ModelMessage)) (regate : Bool) (options : Options)
  | resume (pendingId : String) (answer : Answer) (agent : Agent) (controls : Option String)
      (rulesVersion : String)
  | recover (agent : Agent) (history : List ModelMessage) (controls : Option String)
      (rulesVersion : String)
  | submit (item : PendingInput)
  | dispatch (agent : Agent) (command : Command) (controls : Option String) (rulesVersion : String)

namespace Entry

def program (rt : AgentRuntime) (e : Execution) : Entry → Program Unit
  | run agent prompt options => do
    let _ ← rt.run e agent prompt options
    return ()
  | fork src at_ agent prompt history regate options => do
    let _ ← rt.fork src at_ e agent prompt history regate options
    return ()
  | resume pendingId answer agent controls rulesVersion => do
    let _ ← rt.resume e pendingId answer agent controls rulesVersion
    return ()
  | recover agent history controls rulesVersion => do
    let _ ← rt.recover e agent history controls rulesVersion
    return ()
  | submit item => do
    let _ ← rt.submit e item
    return ()
  | dispatch agent command controls rulesVersion => do
    let _ ← rt.dispatch e agent command controls rulesVersion
    return ()

/-- Whoever drives the agent leaves the stores to the hooks. -/
def Plain : Entry → Prop
  | run agent .. | fork _ _ agent .. | resume _ _ agent .. | recover agent .. | dispatch agent .. =>
    Gathers agent.toPydanticAI
  | submit _ => True

end Entry

/-- One call on the branch the ledger files under `b`, by a worker with a ledger. -/
structure Worker (b : String) where
  rt : AgentRuntime
  execution : Execution
  entry : Entry
  ledger : rt.executionStore = true
  here : View.filed ⟨execution.conversationId⟩ execution.branchId = b
  plain : entry.Plain

def Worker.program {b : String} (worker : Worker b) : Program Unit :=
  worker.entry.program worker.rt worker.execution

section
variable {out : Outside} {self : Nat → Nat} {b : String} {i : Nat} {s : Scene}
variable {rt : AgentRuntime} {e : Execution} {agent : Agent}

/-- The answer, written to the continuation one has read. -/
theorem safe_answered {t : Nat} {v : Step Value} {active : Suspension}
    (answers : List (String × Answer)) (h : Knows out b i t v s)
    (hv : AgentRuntime.liveSuspension v = some active) :
    Safe out self b i (perform (.ledger (.writeControl b Effects.activeSuspension
        (.suspension { active with answers }) t)))
      ((course out b i).Inner t (fun _ s' => (AgentRuntime.undecided { active with answers } = [] →
          (course out b i).decided t active answers s') ∧
        ∀ error, (course out b i).ends t (.error error) s')) s := by
  refine Prog.safe_either (safe_write h ?_) ?_ (fun _ _ h => h.1)
  · intro parked hparked
    obtain rfl := Option.some.inj (hv.symm.trans hparked)
    exact .inl ⟨_, rfl, rfl⟩
  · intro u s₁ h₁
    refine ⟨fun hdecided => ⟨_, (h₁.2 u rfl).1, ?_, hdecided⟩, fun _ => h₁.1⟩
    intro parked hparked
    cases hparked
    rfl

theorem safe_run (hledger : rt.executionStore = true)
    (hb : View.filed ⟨e.conversationId⟩ e.branchId = b) (gathers : Gathers agent.toPydanticAI)
    (prompt : Option String) (options : Options) (h : Idle out b i s) :
    Safe out self b i (rt.run e agent prompt options) (fun _ s' => Inv out b s') s :=
  (keeps hledger hb gathers).run prompt options h

theorem safe_resume (hledger : rt.executionStore = true)
    (hb : View.filed ⟨e.conversationId⟩ e.branchId = b) (gathers : Gathers agent.toPydanticAI)
    (pendingId : String) (answer : Answer) (controls : Option String) (rules : String)
    (h : Idle out b i s) :
    Safe out self b i (rt.resume e pendingId answer agent controls rules)
      (fun _ s' => Inv out b s') s :=
  (keeps hledger hb gathers).resume (fun _ _ _ _ _ h hv _ => safe_answered _ h hv) controls rules h

theorem safe_recover (hledger : rt.executionStore = true)
    (hb : View.filed ⟨e.conversationId⟩ e.branchId = b) (gathers : Gathers agent.toPydanticAI)
    (history : List ModelMessage) (controls : Option String) (rules : String)
    (h : Idle out b i s) :
    Safe out self b i (rt.recover e agent history controls rules)
      (fun _ s' => Inv out b s') s := by
  refine (keeps hledger hb gathers).recover ?_ history controls rules h
  intro t v active s h hv hdecided
  refine ⟨v, h, ?_, hdecided⟩
  intro parked hparked
  rw [Option.some.inj (hparked.symm.trans hv)]

theorem unlooking_step {c : Call Value} (hcalm : Calm b (.ledger c))
    (hlooks : ∀ b' k, c = .read b' k → k ≠ Effects.activeSuspension) :
    (perform (.ledger c)).AllOps (fun o => Harmless b o ∧ ∀ r, looks b ⟨i, o, r⟩ = false) := by
  refine (Prog.allOps_op _).mpr ⟨⟨hcalm, by rintro ⟨f, hf, -⟩; cases hf⟩, ?_⟩
  intro r
  cases c with
  | read b' k => simp [looks, hlooks b' k rfl]
  | _ => rfl

theorem unlooking_copyCalls (source target : View) (src dst : Execution) (token : Nat)
    (calls : List ToolCall) :
    (AgentRuntime.copyCalls source target src dst token calls).AllOps
      (fun o => Harmless b o ∧ ∀ r, looks b ⟨i, o, r⟩ = false) := by
  have hkey : ∀ call : ToolCall, Effects.stepKey call.toolCallId ≠ Effects.activeSuspension :=
    fun call => Effects.effect_control (.inl ⟨_, rfl⟩) (.inr (.inr (.inr rfl)))
  induction calls with
  | nil => trivial
  | cons call calls ih =>
    refine Prog.allOps_bind (unlooking_step (fun _ => trivial) ?_) (fun record => ?_)
    · intro b' k hk
      cases hk
      exact hkey call
    · have hstart : (target.start dst.branchId (Effects.stepKey call.toolCallId) token).AllOps
          (fun o => Harmless b o ∧ ∀ r, looks b ⟨i, o, r⟩ = false) :=
        unlooking_step (fun _ => hkey call) (by simp)
      cases record with
      | absent => exact ih
      | running => exact Prog.allOps_bind hstart (fun _ => ih)
      | done value =>
        refine Prog.allOps_bind hstart (fun inserted => ?_)
        cases inserted with
        | false => exact ih
        | true =>
          exact Prog.allOps_bind (unlooking_step (fun _ => hkey call) (by simp))
            (fun _ => Prog.allOps_bind ih (fun _ => trivial))

theorem harmless_forkHistory (src : Execution) (at_ : Option Uuid)
    (history : Option (List ModelMessage)) :
    (rt.forkHistory src at_ history).AllOps (Harmless b) := by
  unfold AgentRuntime.forkHistory
  split
  · trivial
  · split
    · refine Prog.allOps_bind (harmless_outer (by simp) (by simp)) (fun entries => ?_)
      split
      · trivial
      · split <;> trivial
    · trivial

theorem safe_fork (hledger : rt.executionStore = true)
    (hb : View.filed ⟨e.conversationId⟩ e.branchId = b) (gathers : Gathers agent.toPydanticAI)
    (src : Execution) (at_ : Option Uuid) (prompt : Option String)
    (history : Option (List ModelMessage)) (regate : Bool) (options : Options)
    (h : Idle out b i s) :
    Safe out self b i (rt.fork src at_ e agent prompt history regate options)
      (fun _ s' => Inv out b s') s := by
  refine (keeps hledger hb gathers).fork ?_ ?_ prompt regate options h
  · intro s h
    exact Prog.safe_either (safe_harmless (harmless_forkHistory src at_ history) h.inv)
      (fun _ _ hstill => h.still hstill) (fun _ _ hstill => hstill.inv)
  · intro t history s h
    have hcopy : (rt.copyRound src e t history).AllOps
        (fun o => Harmless b o ∧ ∀ r, looks b ⟨i, o, r⟩ = false) := by
      unfold AgentRuntime.copyRound
      split
      · exact unlooking_copyCalls _ _ _ _ _ _
      · trivial
    refine Prog.safe_either (safe_unlooking hcopy h.inv) ?_ (fun _ _ h => h.1.inv)
    intro copied s₁ h₁
    exact ⟨h₁.1.inv, h₁.1.tokens.trans h.mine, h₁.2.trans h.blind⟩

/-- One row of the table, and what an error of it leads to. -/
theorem safe_offered {row : Program Applied} {handler : Exn → Program Applied}
    (hrow : Safe out self b i row (fun _ s' => Inv out b s') s)
    (hhandler : ∀ error, (handler error).AllOps (Harmless b)) :
    Safe out self b i (row.tryCatch handler) (fun _ s' => Inv out b s') s := by
  refine (Prog.safe_tryCatch _ _ _ _).mpr (Prog.safe_post hrow ?_)
  intro r s₁ hi₁
  cases r with
  | ok applied => exact hi₁
  | error error =>
    exact Prog.safe_post (safe_harmless (hhandler error) hi₁) (fun _ _ h => h.inv)

theorem safe_applied {α : Type} {p : Program α} {f : α → Applied}
    (h : Safe out self b i p (fun _ s' => Inv out b s') s) :
    Safe out self b i (p.bind (fun a => Prog.ret (f a))) (fun _ s' => Inv out b s') s := by
  refine (Prog.safe_bind _ _ _ _).mpr (Prog.safe_post h ?_)
  intro r s₁ hi₁
  cases r <;> exact hi₁

theorem harmless_offer_none (command : Command) (state : Option String) (contended : Option Exn) :
    (Dispatch.offer rt e command state [] contended).AllOps (Harmless b) := by
  cases contended with
  | some error => trivial
  | none =>
    refine Prog.allOps_bind ?_ (fun _ => trivial)
    unfold Dispatch.named
    split
    · trivial
    · exact harmless_state rt e

/-- What becomes of an error of one row: contention is handed to the rows behind it. -/
theorem harmless_handed (rest : Option Exn → Program Applied)
    (hrest : ∀ contended, (rest contended).AllOps (Harmless b)) (error : Exn) :
    (match error with
      | .store (.contended b) => rest (some (.store (.contended b)))
      | error => Prog.raise error : Program Applied).AllOps (Harmless b) := by
  split
  · exact hrest _
  · trivial

theorem harmless_queueSteer (text : String) (promptId : Option String) (state : Option String) :
    ((Dispatch.queueSteer rt e).apply (.prompt text promptId) state).AllOps (Harmless b) :=
  Prog.allOps_bind (harmless_outer (by simp) (by simp)) (fun _ =>
    Prog.allOps_bind (harmless_submit rt e _) (fun _ => trivial))

theorem safe_prompt (hledger : rt.executionStore = true)
    (hb : View.filed ⟨e.conversationId⟩ e.branchId = b) (gathers : Gathers agent.toPydanticAI)
    (text : String) (promptId controls : Option String) (rules : String) (h : Idle out b i s) :
    Safe out self b i (Dispatch.offer rt e (.prompt text promptId) none
      [Dispatch.startRun rt e agent controls rules, Dispatch.queueSteer rt e] none)
      (fun _ s' => Inv out b s') s := by
  refine safe_offered (safe_applied (safe_run hledger hb gathers _ _ h)) (harmless_handed
    (Dispatch.offer rt e (.prompt text promptId) none [Dispatch.queueSteer rt e]) ?_)
  intro contended
  refine Prog.allOps_tryCatch (harmless_queueSteer text promptId none) ?_
  exact harmless_handed _ (fun _ => harmless_offer_none _ _ _)

theorem safe_answer (hledger : rt.executionStore = true)
    (hb : View.filed ⟨e.conversationId⟩ e.branchId = b) (gathers : Gathers agent.toPydanticAI)
    (pendingId : String) (payload : Answer) (controls : Option String) (rules : String)
    (h : Idle out b i s) :
    Safe out self b i (Dispatch.offer rt e (.answer pendingId payload) none
      [Dispatch.resumeApproval rt e agent controls rules] none) (fun _ s' => Inv out b s') s := by
  refine safe_offered (safe_offered (safe_applied (safe_resume hledger hb gathers _ _ _ _ h)) ?_)
    (harmless_handed _ (fun _ => harmless_offer_none _ _ _))
  intro error
  cases error with
  | lookupError message => exact Prog.allOps_bind (harmless_state rt e) (fun _ => trivial)
  | _ => trivial

theorem safe_recoverCommand (hledger : rt.executionStore = true)
    (hb : View.filed ⟨e.conversationId⟩ e.branchId = b) (gathers : Gathers agent.toPydanticAI)
    (controls : Option String) (rules name : String) (h : Idle out b i s) :
    Safe out self b i (Dispatch.offer rt e .recover (some name)
      [Dispatch.recoverInterrupted rt e agent controls rules,
        Dispatch.replayJournal rt e agent controls rules] none) (fun _ s' => Inv out b s') s := by
  have hreplay : ∀ contended, name ≠ "interrupted" → (Dispatch.offer rt e .recover (some name)
      [Dispatch.replayJournal rt e agent controls rules] contended).AllOps (Harmless b) := by
    intro contended hname
    unfold Dispatch.offer
    rw [if_neg (by simp [Dispatch.replayJournal, hname])]
    exact harmless_offer_none _ _ _
  unfold Dispatch.offer
  split
  · rename_i hparked
    have hname : name ≠ "interrupted" := by
      rintro rfl
      simp [Dispatch.recoverInterrupted] at hparked
    refine safe_offered ?_ (harmless_handed _ (fun contended => hreplay contended hname))
    refine (Prog.safe_bind _ _ _ _).mpr
      (Prog.safe_post (safe_harmless (harmless_committedHistory rt e) h.inv) ?_)
    intro r s₁ hstill
    cases r with
    | error error => exact hstill.inv
    | ok history => exact safe_applied (safe_recover hledger hb gathers _ _ _ (h.still hstill))
  · unfold Dispatch.offer
    split
    · exact safe_offered (safe_applied (safe_run hledger hb gathers _ _ h))
        (harmless_handed _ (fun _ => harmless_offer_none _ _ _))
    · exact Prog.safe_post (safe_harmless (harmless_offer_none _ _ _) h.inv) (fun _ _ h => h.inv)

theorem safe_dispatch (hledger : rt.executionStore = true)
    (hb : View.filed ⟨e.conversationId⟩ e.branchId = b) (gathers : Gathers agent.toPydanticAI)
    (command : Command) (controls : Option String) (rules : String) (h : Idle out b i s) :
    Safe out self b i (rt.dispatch e agent command controls rules) (fun _ s' => Inv out b s') s := by
  unfold AgentRuntime.dispatch
  split
  · cases command with
    | prompt text promptId => exact safe_prompt hledger hb gathers text promptId controls rules h
    | answer pendingId payload =>
      exact safe_answer hledger hb gathers pendingId payload controls rules h
    | recover =>
      have hobserve : (Dispatch.observe rt e [Dispatch.recoverInterrupted rt e agent controls rules,
          Dispatch.replayJournal rt e agent controls rules]) =
          (rt.state e).bind (fun name => Prog.ret (some name)) := rfl
      refine (Prog.safe_bind (Dispatch.observe rt e [Dispatch.recoverInterrupted rt e agent controls
        rules, Dispatch.replayJournal rt e agent controls rules]) _ _ _).mpr ?_
      rw [hobserve]
      refine (Prog.safe_bind _ _ _ _).mpr
        (Prog.safe_post (safe_harmless (harmless_state rt e) h.inv) ?_)
      intro r s₁ hstill
      cases r with
      | error error => exact hstill.inv
      | ok name => exact safe_recoverCommand hledger hb gathers controls rules name (h.still hstill)
  · exact h.inv

/-- Every call keeps its branch accounted for, and respects what is parked there. -/
theorem safe_worker (worker : Worker b) (h : Idle out b i s) :
    Safe out self b i worker.program (fun _ s' => Inv out b s') s := by
  obtain ⟨rt, e, entry, hledger, hb, hplain⟩ := worker
  have hdone : ∀ {α : Type} {p : Program α}, Safe out self b i p (fun _ s' => Inv out b s') s →
      Safe out self b i (p.bind (fun _ => Prog.ret ())) (fun _ s' => Inv out b s') s := by
    intro α p hp
    refine (Prog.safe_bind _ _ _ _).mpr (Prog.safe_post hp ?_)
    intro r s₁ hi₁
    cases r <;> exact hi₁
  cases entry with
  | run agent prompt options => exact hdone (safe_run hledger hb hplain _ _ h)
  | fork src at_ agent prompt history regate options =>
    exact hdone (safe_fork hledger hb hplain _ _ _ _ _ _ h)
  | resume pendingId answer agent controls rules =>
    exact hdone (safe_resume hledger hb hplain _ _ _ _ h)
  | recover agent history controls rules => exact hdone (safe_recover hledger hb hplain _ _ _ h)
  | submit item =>
    exact hdone (Prog.safe_post (safe_harmless (harmless_submit rt e item) h.inv)
      (fun _ _ h => h.inv))
  | dispatch agent command controls rules =>
    exact hdone (safe_dispatch hledger hb hplain _ _ _ h)

end

/-! Runs. -/

section
variable {out : Outside} {b : String} {s s' : Scene}

/-- The rest of the world moves on. -/
theorem inv_moved (h : Inv out b s) (hevents : s'.events = s.events)
    (hinstant : s.world.instant ≤ s'.world.instant)
    (hleased : ∀ l, s'.world.store.leases.get? b = some l → l.owner = "" ∨
      s.world.store.leases.get? b = some l ∨ ∃ e ∈ s.events, bid b e = some l.owner)
    (hissued : issued b s ≤ issued b s') : Inv out b s' := by
  refine ⟨?_, ?_, ?_, ?_, ?_, ?_⟩
  · intro e he owner ho
    obtain ⟨n, hn, hfresh⟩ := h.handed e (hevents ▸ he) owner ho
    exact ⟨n, by omega, hfresh⟩
  · rw [hevents]
    exact h.distinct
  · rw [hevents]
    exact h.bid
  · intro l hl
    rw [hevents]
    rcases hleased l hl with hempty | hsame | hasked
    · exact .inl hempty
    · exact h.leased l hsame
    · exact .inr hasked
  · intro i t ht
    rw [hevents] at ht
    obtain ⟨hpos, hle⟩ := h.issued i t ht
    exact ⟨hpos, hle.trans hissued⟩
  · rw [hevents]
    exact h.exclusive

theorem elsewhere_same (move : Elsewhere out b s s') :
    s'.events = s.events ∧ cell b s' = cell b s := by
  cases move with
  | renew owner ttl a asked => exact ⟨rfl, acquire_cell out owner ttl s.world a⟩
  | perform o a attempts apart =>
    refine ⟨rfl, calm_cell out ?_ s.world a⟩
    cases o with
    | ledger c => exact fun hb => absurd hb (apart c rfl)
    | _ => trivial

theorem rely_elsewhere (h : Inv out b s) (move : Elsewhere out b s s') (i : Nat) :
    Rely out b i s s' := by
  cases move with
  | renew owner ttl a asked =>
    obtain ⟨hissued, hleases⟩ := acquire_leases (b := b) out owner ttl s.world a
    have hcell := acquire_cell (b := b) out owner ttl s.world a
    refine ⟨inv_moved h rfl (Nat.le_succ _) ?_ hissued, rfl, hissued, fun _ _ _ => hcell⟩
    intro l hl
    rcases hleases l hl with rfl | hold
    · exact .inr (.inr asked)
    · exact .inr (.inl hold)
  | perform o a attempts apart =>
    have hcalm : Calm b o := by
      cases o with
      | ledger c => exact fun hb => absurd hb (apart c rfl)
      | _ => trivial
    obtain ⟨hissued, hleases⟩ := calm_leases out hcalm s.world a
    have hcell := calm_cell out hcalm s.world a
    refine ⟨inv_moved h rfl ?_ ?_ (Nat.le_of_eq hissued.symm), rfl, Nat.le_of_eq hissued.symm,
      fun _ _ _ => hcell⟩
    · rw [step_instant]
      exact Nat.le_succ _
    · intro l hl
      rcases hleases l hl with hempty | hold
      · exact .inl hempty
      · exact .inr (.inl hold)

/-- Only the holder of the newest token moves the continuation, so whoever else holds one knows
what it knew. -/
theorem rely_step {i j : Nat} {e : Event} (hij : i ≠ j) (h : Inv out b s) (hinv : Inv out b s')
    (hevents : s'.events = s.events ++ [e]) (hthread : e.thread = i)
    (hlater : issued b s ≤ issued b s')
    (hholder : cell b s' ≠ cell b s → issued b s ∈ tokens b i s.events) : Rely out b j s s' := by
  refine ⟨hinv, ?_, hlater, ?_⟩
  · rw [hevents]
    have hne : e.thread ≠ j := hthread ▸ hij
    simp [log, hne]
  · intro t ht hissued
    by_contra hne
    have hmine := hholder hne
    have hle := (h.issued j t ht).2
    have hcur : issued b s = t := by omega
    rw [hcur] at hmine
    exact hij (h.exclusive i j t hmine ht)

theorem rely_guarantee {i j : Nat} (hij : i ≠ j) (h : Inv out b s) (hg : Guarantee out b i s s') :
    Rely out b j s s' := by
  obtain ⟨e, hevents, hthread, -⟩ := hg.event
  exact rely_step hij h hg.inv hevents hthread hg.later hg.holder

theorem rely_refl (h : Inv out b s) (i : Nat) : Rely out b i s s :=
  ⟨h, rfl, Nat.le_refl _, fun _ _ _ => rfl⟩

theorem rely_trans {i : Nat} {s'' : Scene} (h : Rely out b i s s') (h' : Rely out b i s' s'') :
    Rely out b i s s'' := by
  refine ⟨h'.inv, h'.own.trans h.own, h.later.trans h'.later, ?_⟩
  intro t ht hissued
  have hmine : t ∈ tokens b i s'.events := by
    unfold tokens at ht ⊢
    rw [h.own]
    exact ht
  have hle := (h.inv.issued i t hmine).2
  have hlater := h'.later
  exact (h'.kept t hmine hissued).trans (h.kept t ht (by omega))

theorem compatible (out : Outside) (b : String) :
    Compatible (Elsewhere out b) (Inv out b) (Rely out b) (Guarantee out b)
      (fun _ (_ : Except Exn Unit) _ => True) where
  refl i s h := rely_refl h i
  trans i _ _ _ h h' := rely_trans h h'
  stable := by simp
  keeps i s s' _ h := h.inv
  other i j s s' hij h hg := rely_guarantee hij h hg
  env s s' h move := ⟨(rely_elsewhere h move 0).inv, rely_elsewhere h move⟩

end

section
variable (b : String) (active : Suspension)

/-- Since `s`, a finalization of this park has come to its end. -/
def Decided (s s' : Scene) : Prop :=
  ∃ k e, s.events.length ≤ k ∧ s'.events[k]? = some e ∧
    Finalizes b e.thread active (s'.events.take k) ∧ ends b active e

/-- Since `s`, the park has stayed: every call is listed under the id it was parked with, and no
attempt began on the branch but of its finalization. -/
structure Intact (s s' : Scene) : Prop where
  kept : ∃ active', live b s' = some active' ∧ parkOf active' = parkOf active ∧
    ∀ item ∈ active.continuation.calls,
      (AgentRuntime.callOf active' (item.2.pendingId.getD "")).isSome
  begun : ∀ k e, s.events.length ≤ k → s'.events[k]? = some e → Begins e.op →
    Finalizes b e.thread active (s'.events.take k)

end

section
variable {b : String} {active active' : Suspension} {s s' s'' : Scene} {e : Event}

theorem callOf_listed (h : parkOf active' = parkOf active) :
    ∀ item ∈ active.continuation.calls,
      (AgentRuntime.callOf active' (item.2.pendingId.getD "")).isSome := by
  intro item hitem
  have hsame : active'.continuation = active.continuation :=
    (congrArg Suspension.continuation h : (parkOf active').continuation = _)
  simp only [AgentRuntime.callOf, Option.isSome_map, List.find?_isSome, List.mem_reverse,
    decide_eq_true_eq]
  exact ⟨item, hsame ▸ hitem, rfl⟩

theorem finalizes_congr {i : Nat} {events : List Event} (h : parkOf active' = parkOf active)
    (hf : Finalizes b i active' events) : Finalizes b i active events := by
  obtain ⟨f, hmem, hr⟩ := hf
  refine ⟨f, hmem, ?_⟩
  unfold resumes at hr ⊢
  split at hr
  · rw [← h]
    exact hr
  · cases hr

theorem ends_congr (h : parkOf active' = parkOf active) (he : ends b active' e) :
    ends b active e := by
  have hcall : active'.callId = active.callId :=
    (congrArg Suspension.callId h : (parkOf active').callId = _)
  have hcalls : active'.callIds = active.callIds :=
    (congrArg Suspension.callIds h : (parkOf active').callIds = _)
  unfold ends at he ⊢
  rw [← hcall, ← hcalls]
  exact he

theorem decided_append (h : Decided b active s s') (hevents : s''.events = s'.events ++ [e]) :
    Decided b active s s'' := by
  obtain ⟨k, f, hk, hf, hfin, hend⟩ := h
  have hlt := (List.getElem?_eq_some_iff.mp hf).1
  refine ⟨k, f, hk, ?_, ?_, hend⟩
  · rw [hevents, List.getElem?_append_left hlt]
    exact hf
  · rw [hevents, List.take_append_of_le_length (Nat.le_of_lt hlt)]
    exact hfin

/-- One step of some call leaves the park as it was, or ends its finalization. -/
theorem intact_step (h : Intact b active s s') (hlen : s.events.length ≤ s'.events.length)
    (hevents : s''.events = s'.events ++ [e]) (hr : Respects b s' e s'') :
    Decided b active s s'' ∨ Intact b active s s'' := by
  obtain ⟨active', hlive, hpark, -⟩ := h.kept
  have hlast : s''.events[s'.events.length]? = some e := by
    rw [hevents]
    simp
  have htake : s''.events.take s'.events.length = s'.events := by
    rw [hevents]
    simp
  rcases hr.kept active' hlive with ⟨active'', hlive'', hpark''⟩ | ⟨hfin, hend⟩
  · refine .inr ⟨⟨active'', hlive'', hpark''.trans hpark, callOf_listed (hpark''.trans hpark)⟩, ?_⟩
    intro k f hk hf hbegins
    by_cases hlt : k < s'.events.length
    · rw [hevents, List.getElem?_append_left hlt] at hf
      rw [hevents, List.take_append_of_le_length (Nat.le_of_lt hlt)]
      exact h.begun k f hk hf hbegins
    · have hke : k = s'.events.length := by
        have := (List.getElem?_eq_some_iff.mp hf).1
        rw [hevents] at this
        simp only [List.length_append, List.length_singleton] at this
        omega
      subst hke
      rw [hlast] at hf
      cases hf
      rw [htake]
      exact finalizes_congr hpark (hr.begins hbegins active' hlive)
  · refine .inl ⟨s'.events.length, e, hlen, hlast, ?_, ends_congr hpark hend⟩
    rw [htake]
    exact finalizes_congr hpark hfin

end

/-- What has become of a park between two scenes. -/
def Survives (b : String) (active : Suspension) (s s' : Scene) : Prop :=
  Decided b active s s' ∨ Intact b active s s'

/-- Any calls on one branch, any number of them in any interleaving, each stopping wherever it
does, as long as every attempt begins fit: a park committed once survives, in every scene reached
from there, until a finalization of it has ended. -/
theorem park_survives (out : Outside) (self : Nat → Nat) {b : String} (workers : Nat → Worker b)
    (attempts : Nat → Attempt) {pool₁ pool₂ : Nat → Program Unit} {s₁ s₂ : Scene}
    (active : Suspension)
    (run₁ : Interleaved (guarded out self b) (Elsewhere out b) (fun i => (workers i).program)
      ⟨{}, attempts, []⟩ pool₁ s₁)
    (parked : live b s₁ = some active)
    (run₂ : Interleaved (guarded out self b) (Elsewhere out b) pool₁ s₁ pool₂ s₂) :
    Survives b active s₁ s₂ := by
  have hstart : Inv out b (⟨{}, attempts, []⟩ : Scene) := by
    constructor <;> simp [tokens, log]
  have hidle : ∀ i, Idle out b i (⟨{}, attempts, []⟩ : Scene) :=
    fun i => ⟨hstart, by simp [log]⟩
  obtain ⟨hinv, hsafe⟩ := interleaved_safe (compatible out b) hstart
    (fun i => Prog.safe_post (safe_worker (workers i) (hidle i)) (fun _ _ _ => trivial)) run₁
  have hkeeps : Compatible (Elsewhere out b)
      (fun s => Inv out b s ∧ s₁.events.length ≤ s.events.length ∧ Survives b active s₁ s)
      (Rely out b) (Guarantee out b) (fun _ (_ : Except Exn Unit) _ => True) := by
    have hcompat := compatible out b
    refine ⟨fun i s h => hcompat.refl i s h.1, hcompat.trans, hcompat.stable, ?_,
      fun i j s s' hij h => hcompat.other i j s s' hij h.1, ?_⟩
    · intro i s s' hkept hg
      obtain ⟨-, hlen, hsurvives⟩ := hkept
      obtain ⟨e, hevents, -, hr⟩ := hg.event
      refine ⟨hg.inv, by simp [hevents]; omega, ?_⟩
      rcases hsurvives with hdecided | hintact
      · exact .inl (decided_append hdecided hevents)
      · exact intact_step hintact hlen hevents hr
    · intro s s' hkept move
      obtain ⟨hi, hlen, hsurvives⟩ := hkept
      have hrely := rely_elsewhere hi move
      have hsame := elsewhere_same move
      refine ⟨⟨(hrely 0).inv, by rw [hsame.1]; exact hlen, ?_⟩, hrely⟩
      unfold Survives Decided
      rw [hsame.1]
      rcases hsurvives with hdecided | hintact
      · exact .inl hdecided
      · refine .inr ⟨?_, ?_⟩
        · unfold live
          rw [hsame.2]
          exact hintact.kept
        · rw [hsame.1]
          exact hintact.begun
  refine (interleaved_safe hkeeps ⟨hinv, Nat.le_refl _, .inr ⟨?_, ?_⟩⟩ hsafe run₂).1.2.2
  · exact ⟨active, parked, rfl, callOf_listed rfl⟩
  · intro k e hk he
    have := (List.getElem?_eq_some_iff.mp he).1
    omega

/-- The claim that a park survives whatever is called on its branch. -/
def AlwaysSurvives : Prop :=
  ∀ (out : Outside) (self : Nat → Nat) (b : String) (workers : Nat → Worker b)
    (attempts : Nat → Attempt) (pool₁ pool₂ : Nat → Program Unit) (s₁ s₂ : Scene)
    (active : Suspension),
    Interleaved (exec out self) (Elsewhere out b) (fun i => (workers i).program)
      ⟨{}, attempts, []⟩ pool₁ s₁ → live b s₁ = some active →
    Interleaved (exec out self) (Elsewhere out b) pool₁ s₁ pool₂ s₂ → Survives b active s₁ s₂

/-- A model that calls one tool, behind a policy that asks a person each time. -/
def asking : Outside :=
  .answering (fun _ _ _ => .ok .null)
    (fun _ _ => .ok { parts := [.toolCall ⟨"send", .dict [], "c1"⟩] })
    (fun n _ q => match q with
      | .preToolUse .. => .ok (.suspend { pendingId := some (if n < 60 then "p1" else "p2") })
      | .onInputs _ inputs => .ok (.inputs inputs)
      | .beforeModel _ => .ok (.proceed [])
      | .onResume .. => .ok .continue
      | .onSuspend .. => .ok ()
      | _ => .error (.other "not asked"))

/-- A worker whose prompt parks, and another call behind it. -/
def promptAnd (second : Entry) (plain : second.Plain) (i : Nat) : Worker "run" where
  rt := {}
  execution := { branchId := "run" }
  entry := if i = 0 then .run { PydanticAI.standard (fun _ => "") [] 8 with } (some "hi")
    { controls := some "plane" } else second
  ledger := rfl
  here := rfl
  plain := by
    split
    · exact gathers_standard _ _ _
    · exact plain

/-- A run without a prompt. -/
def promptless : Entry :=
  .run { PydanticAI.standard (fun _ => "") [] 8 with } none { controls := some "plane" }

/-- The first worker parks its round under `p1`. -/
def parkedFirst : (Nat → Program Unit) × Scene :=
  scheduled (Scene.perform asking id) (List.replicate 62 0)
    (fun i => (promptAnd promptless (gathers_standard _ _ _) i).program) ⟨{}, fun _ => {}, []⟩

def firstPark : Suspension := (live "run" parkedFirst.2).get (by decide +kernel)

/-- The second, which looks for no park, runs the round again and parks it under `p2`. -/
def parkedAgain : (Nat → Program Unit) × Scene :=
  scheduled (Scene.perform asking id) (List.replicate 33 1) parkedFirst.1 parkedFirst.2

theorem parkedAgain_unfinalized :
    parkedAgain.2.events.all (fun e => !resumes "run" firstPark e) = true := by decide +kernel

/-- The approval in flight is orphaned. -/
theorem parkedAgain_orphaned : (live "run" parkedAgain.2).all (fun active =>
    (AgentRuntime.callOf active "p1").isNone ∧ parkOf active ≠ parkOf firstPark) = true := by
  decide +kernel

theorem not_always_survives : ¬ AlwaysSurvives := by
  intro h
  have hsurvives : Survives "run" firstPark parkedFirst.2 parkedAgain.2 :=
    h asking id "run" (promptAnd promptless (gathers_standard _ _ _)) (fun _ => {}) _ _ _ _ _
      (interleaved_scheduled (Scene.perform asking id) _ _ _ _) (Option.some_get _).symm
      (interleaved_scheduled (Scene.perform asking id) _ _ _ _)
  rcases hsurvives with ⟨k, e, -, -, ⟨f, hf, hr⟩, -⟩ | ⟨⟨active, hlive, hpark, -⟩, -⟩
  · have hmem : f ∈ parkedAgain.2.events := List.mem_of_mem_take (mem_log.mp hf).1
    have := List.all_eq_true.mp parkedAgain_unfinalized f hmem
    simp [hr] at this
  · have horphaned := parkedAgain_orphaned
    rw [hlive] at horphaned
    simp only [Option.all_some, decide_eq_true_eq] at horphaned
    exact horphaned.2 hpark

/-- The person's answer. -/
def answered : Entry :=
  .resume "p1" {} { PydanticAI.standard (fun _ => "") [] 8 with } (some "plane") ""

/-- The guard of attempts, for a schedule. -/
def fitting (i : Nat) : Op → Scene → Bool
  | .modify _, s => issued "run" s ∈ tokens "run" i s.events ∧
      (looked "run" i s.events ∨ live "run" s = none)
  | _, _ => true

theorem fitting_guarded (i : Nat) (o : Op) (s : Scene) (h : fitting i o s = true) :
    guarded asking id "run" i o s (s.perform asking id i o).1 (s.perform asking id i o).2 := by
  refine ⟨rfl, ?_⟩
  rintro ⟨f, rfl, -⟩
  obtain ⟨hnewest, hlooked⟩ := of_decide_eq_true h
  refine ⟨hnewest, ?_⟩
  intro hblind
  simpa [hblind] using hlooked

/-- The round parked under `p1`, with the answer to come. -/
def parkedOnce : (Nat → Program Unit) × Scene :=
  scheduled (Scene.perform asking id) (List.replicate 62 0)
    (fun i => (promptAnd answered (gathers_standard _ _ _) i).program) ⟨{}, fun _ => {}, []⟩

def onlyPark : Suspension := (live "run" parkedOnce.2).get (by decide +kernel)

/-- The answer on its way through the finalization. -/
def underway : (Nat → Program Unit) × Scene :=
  scheduled (Scene.perform asking id) (List.replicate 40 1) parkedOnce.1 parkedOnce.2

theorem park_survives_underway : Survives "run" onlyPark parkedOnce.2 underway.2 :=
  park_survives asking id (promptAnd answered (gathers_standard _ _ _)) (fun _ => {}) onlyPark
    (interleaved_passed fitting_guarded _ _ _ _ (by decide +kernel)) (Option.some_get _).symm
    (interleaved_passed fitting_guarded _ _ _ _ (by decide +kernel))

end Semora.Proofs.Parked
