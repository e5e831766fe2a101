import Semora.Proofs.Takeover

/-! Calls that lease one branch after another and beside each other: only the one whose token is
the newest moves what is committed. -/

namespace Semora.Proofs.Takeover
open Semora.Lib Semora.Store Semora.Transcript
open Parked (Inv Calm Harmless Idle tokens issued bid)
open Scopes (Home Stays)
open Writing (Orderly Apart)
open Closing (Holds)

/-! What the calls do under a token. -/

section
variable {rt : AgentRuntime} {e : Execution} {t : Nat}

theorem leased_harmless {α : Type} {p : Program α} (h : p.AllOps (Harmless (filedName e))) :
    p.AllOps (Leased (filedName e) t) :=
  h.mono (fun _ ho => .inl ho.1)

theorem leased_park {α : Type} {conversation : String} {eff : Effects}
    {requests : DeferredToolRequests} :
    (rt.park (α := α) e conversation eff requests t).AllOps (Leased (filedName e) t) := by
  unfold AgentRuntime.park
  split
  · trivial
  · split
    · trivial
    · trivial
    · simp only
      split
      · trivial
      · apply Prog.allOps_bind
        · exact (Prog.allOps_op _).mpr (.inl trivial)
        · intro a
          have hannounce : ∀ parked, Within eff false .effects (AgentRuntime.announce eff a parked) :=
            within_announce eff a
          apply Prog.allOps_bind
          · exact leased_harmless (Parked.harmless_within (hannounce _))
          · intro _
            apply Prog.allOps_bind
            · unfold AgentRuntime.persist
              split
              · trivial
              · rename_i store hstore
                apply Prog.allOps_bind
                · exact (Prog.allOps_op _).mpr (.inr ⟨_, rfl, storeFor_view hstore, rfl⟩)
                · intro _
                  trivial
            · intro _
              trivial

theorem presents_attemptRun {agent : Agent} (gathers : Gathers agent.toPydanticAI)
    (prompt : Option String) (options : Options) :
    (rt.attemptRun e t agent prompt options).AllOps (Presents e t) := by
  have hwithin : ∀ {α : Type} {p : Program α},
      Within (rt.effectsOf e t agent options) false .effects p →
      p.AllOps (Leased (filedName e) t) := fun h => leased_harmless (Parked.harmless_within h)
  have hclose : ∀ output, (rt.close e output).AllOps (Leased (filedName e) t) :=
    fun output => leased_harmless (Parked.harmless_close rt e output)
  apply Prog.AllOps.and (Scopes.stays_attemptRun t gathers prompt options)
  apply Prog.allOps_bind
  · exact (Prog.allOps_op _).mpr (.inl trivial)
  · intro _
    apply Prog.allOps_bind (leased_harmless (Parked.harmless_openBranch rt e _))
    intro history
    apply Prog.allOps_bind (hwithin (within_admitPrompt rt e t agent options _ _))
    intro prompt
    apply Prog.allOps_bind (hwithin (within_run gathers _ _ _))
    intro output
    apply Prog.allOps_bind (hwithin (within_replaceFinal rt e t agent options))
    intro _
    cases output with
    | deferred requests => exact leased_park
    | text content => exact hclose _
    | value value => exact hclose _

/-- A leased write under the continuation key. -/
theorem presents_write {value : Value} (hparked : Scopes.ParkedIn e value) :
    (perform (.ledger (.writeControl (filedName e) Effects.activeSuspension value t))).AllOps
      (Presents e t) :=
  (Prog.allOps_op _).mpr ⟨.inr ⟨rfl, fun _ => hparked⟩, .inr ⟨_, rfl, rfl, rfl⟩⟩

theorem presents_copyCalls {target : View} (source : View) (src : Execution)
    (htarget : target.filed e.branchId = filedName e) (calls : List ToolCall) :
    (AgentRuntime.copyCalls source target src e t calls).AllOps (Presents e t) := by
  apply Prog.AllOps.and (Scopes.stays_copyCalls source src t htarget calls)
  exact (Parked.unlooking_copyCalls (i := 0) source target src e t calls).mono
    (fun _ ho => .inl ho.1.1)

theorem unpublished_copyCalls {source target : View} {src : Execution} (calls : List ToolCall) :
    (AgentRuntime.copyCalls source target src e t calls).AllOps Unpublished ∧
      Heeding (AgentRuntime.copyCalls source target src e t calls) := by
  have hcall : ∀ c, (perform (.ledger c)).AllOps Unpublished :=
    fun c => (Prog.allOps_op _).mpr trivial
  induction calls with
  | nil => exact ⟨trivial, trivial⟩
  | cons call calls ih =>
    obtain ⟨hops, hheeds⟩ := ih
    constructor
    · apply Prog.allOps_bind (hcall _)
      intro record
      cases record with
      | absent => exact hops
      | running => exact Prog.allOps_bind (hcall _) (fun _ => hops)
      | done value =>
        apply Prog.allOps_bind (hcall _)
        intro inserted
        split
        · apply Prog.allOps_bind (hcall _)
          intro _
          exact Prog.allOps_bind hops (fun _ => trivial)
        · exact hops
    · apply Prog.heeds_bind (heeding_op _)
      intro record
      cases record with
      | absent => exact hheeds
      | running => exact Prog.heeds_bind (heeding_op _) (fun _ => hheeds)
      | done value =>
        apply Prog.heeds_bind (heeding_op _)
        intro inserted
        split
        · apply Prog.heeds_bind (heeding_op _)
          intro _
          exact Prog.heeds_bind hheeds (fun _ => trivial)
        · exact hheeds

/-- The operation writes no transcript and presents no token. -/
def Aside (o : Op) : Prop := Unpublished o ∧ Unfenced o

theorem aside_active : (rt.active e).AllOps Aside := by
  unfold AgentRuntime.active AgentRuntime.requireStore
  split
  · simp only [Prog.bind_eq, Prog.pure_eq, Prog.ret_bind]
    exact Prog.allOps_bind ((Prog.allOps_op _).mpr ⟨trivial, rfl⟩) (fun _ => trivial)
  · trivial

end

section
variable {out : Outside} {e : Execution} {i t : Nat} {s s' : Scene} {rt : AgentRuntime}

/-- Where a leased call ends. -/
def Ends (out : Outside) (e : Execution) (i t : Nat) (r : Except Exn Outcome) (s : Scene) : Prop :=
  Sits out e i t s ∧ ∀ outcome, r = .ok outcome → Leads e i t s →
    Holds e.conversation outcome.messages s

theorem safe_attempts (htranscript : rt.transcript = true) {agent : Agent}
    (gathers : Gathers agent.toPydanticAI) (propagates : Propagates agent.toPydanticAI)
    (prompt : Option String) (options : Options) (h : Ready out e i t s) :
    Safe out e i (rt.attemptRun e t agent prompt options) (Ends out e i t) s :=
  safe_attempt htranscript gathers propagates prompt options
    (presents_attemptRun gathers prompt options) h

/-! Before the lease. -/

/-- Where a worker is that has not asked for the lease yet. -/
structure Waits (out : Outside) (e : Execution) (i : Nat) (s : Scene) : Prop where
  idle : Idle out (filedName e) i s
  home : Home e s.world
  orderly : Orderly e.conversation s.world
  untold : ¬ Told i s

/-- What a worker may do before it asks for the lease. -/
def Waiting (e : Execution) (o : Op) : Prop := Stays e o ∧ Calm (filedName e) o ∧ Aside o

theorem Waits.rely (h : Waits out e i s) (hr : Rely out e i s s') : Waits out e i s' := by
  refine ⟨⟨hr.inv, ?_⟩, hr.home, hr.orderly, untold_rely h.untold hr⟩
  rw [hr.own]
  exact h.idle.idle

/-- A step that leaves all that is read off the stores as it was. -/
theorem guarantee_same {o : Op} {r : Except Exn o.Res} (he : exec out id i o s r s')
    (hinv : Inv out (filedName e) s') (hlater : issued (filedName e) s ≤ issued (filedName e) s')
    (hsame : Same e s.world s'.world) (hhome : Home e s.world) : Guarantee out e i s s' := by
  obtain ⟨hevents, hworld, -⟩ := exec_events he
  have hattempts := exec_attempts he
  have hinstant : s.world.instant ≤ s'.world.instant := by
    rw [hworld, step_instant]
    exact Nat.le_succ _
  refine ⟨⟨hinv, hsame.home hhome, hlater, hinstant, ⟨_, hevents, rfl⟩, ?_, fun _ => hsame⟩,
    fun horderly => hsame.orderly horderly hinstant⟩
  intro j hj
  rw [hattempts]
  exact Function.update_of_ne hj _ _

theorem untold_op {o : Op} {r : Except Exn o.Res} (ho : Unfenced o) (h : ¬ Told i s)
    (he : exec out id i o s r s') : ¬ Told i s' := by
  rintro ⟨ev, hev, hrefused⟩
  rw [log_mine (exec_events he).1] at hev
  rcases List.mem_append.mp hev with hev | hev
  · exact h ⟨ev, hev, hrefused⟩
  · rw [List.mem_singleton.mp hev] at hrefused
    exact unrefused ho r hrefused

theorem waits_op {o : Op} {r : Except Exn o.Res} (ho : Waiting e o) (h : Waits out e i s)
    (he : exec out id i o s r s') : Guarantee out e i s s' ∧ Waits out e i s' := by
  obtain ⟨hstays, hcalm, hunpublished, hunfenced⟩ := ho
  obtain ⟨hevents, hworld, -⟩ := exec_events he
  obtain ⟨hissued, hleases⟩ := Parked.calm_leases out hcalm s.world (s.attempts i)
  have hbid := Parked.calm_bid (i := i) (r := r) hcalm
  obtain ⟨hinv, hissued, -⟩ := Parked.inv_op hbid h.idle.inv hissued hleases he
  have hsame : Same e s.world s'.world := by
    rw [hworld]
    exact same_step hcalm (unpublished hunpublished) out _ _
  have hg := guarantee_same he hinv (Nat.le_of_eq hissued.symm) hsame h.home
  refine ⟨hg, ⟨hinv, ?_⟩, hg.home, hg.orderly h.orderly, untold_op hunfenced h.untold he⟩
  intro ev hev
  rw [log_mine hevents] at hev
  rcases List.mem_append.mp hev with hev | hev
  · exact h.idle.idle ev hev
  · rw [List.mem_singleton.mp hev]
    exact hbid

theorem safe_waiting {α : Type} {p : Program α} (hp : p.AllOps (Waiting e))
    (h : Waits out e i s) : Safe out e i p (fun _ s' => Waits out e i s') s := by
  apply Prog.safe_of_allOps _ _ hp h
  · exact fun a b hr ha => ha.rely hr
  · exact fun o ho a r b ha he => waits_op ho ha he.1

/-- The lease: a token newer than all others, or none. -/
theorem safe_acquire {owner : String} (h : Waits out e i s)
    (howner : ∃ ev ∈ log i s.events, Parked.handed ev = some owner) (hnonempty : owner ≠ "") :
    Safe out e i (perform (.ledger (.acquire (filedName e) owner rt.leaseTtl)))
      (fun r s' => ∀ t, r = .ok t → t ≠ 0 → Ready out e i t s') s := by
  apply (Prog.safe_op _ _ _).mpr
  intro s₁ hr r s₂ he
  have h₁ := h.rely hr
  rw [← hr.own] at howner
  obtain ⟨-, hworld, -⟩ := exec_events he.1
  obtain ⟨hinv, hlater, hblind⟩ := Parked.acquire_op h₁.idle howner hnonempty he.1
  have hsame : Same e s₁.world s₂.world := by
    rw [hworld]
    exact ⟨rfl, rfl, Parked.acquire_cell out _ _ _ _⟩
  have hg := guarantee_same he.1 hinv hlater hsame h₁.home
  have hunfenced : Unfenced (.ledger (.acquire (filedName e) owner rt.leaseTtl)) := rfl
  refine ⟨hg, ?_⟩
  intro t ht hpos
  exact ⟨⟨hinv, hg.home, (hblind t ht hpos).1.mine⟩, hg.orderly h₁.orderly,
    untold_op hunfenced h₁.untold he.1⟩

theorem closes_error (error : Exn) (s : Scene) : Closes e i (.error error) s := by
  intro outcome houtcome
  cases houtcome

end

/-! The calls. -/

/-- What leases a branch. -/
inductive Call
  | run (agent : Agent) (prompt : Option String) (options : Options)
  | fork (src : Execution) (at_ : Option Uuid) (agent : Agent) (prompt : Option String)
      (history : Option (List ModelMessage)) (regate : Bool) (options : Options)
  | resume (pendingId : String) (answer : Answer) (agent : Agent) (controls : Option String)
      (rulesVersion : String)
  | recover (agent : Agent) (history : List ModelMessage) (controls : Option String)
      (rulesVersion : String)

namespace Call

def agent : Call → Agent
  | run agent .. | fork _ _ agent .. | resume _ _ agent .. | recover agent .. => agent

def program (rt : AgentRuntime) (e : Execution) : Call → Program Outcome
  | run agent prompt options => rt.run e agent prompt options
  | fork src at_ agent prompt history regate options =>
    rt.fork src at_ e agent prompt history regate options
  | resume pendingId answer agent controls rulesVersion =>
    rt.resume e pendingId answer agent controls rulesVersion
  | recover agent history controls rulesVersion => rt.recover e agent history controls rulesVersion

end Call

/-- A call on one execution, by a runtime over a ledger and a transcript. Pydantic AI leaves the
stores to the hooks, and an exception that is no outcome of a tool call ends the round. -/
structure Worker where
  rt : AgentRuntime
  call : Call
  ledger : rt.executionStore = true
  transcript : rt.transcript = true
  gathers : Gathers call.agent.toPydanticAI
  propagates : Propagates call.agent.toPydanticAI

section
variable {out : Outside} {e : Execution} {i : Nat} {s : Scene} {rt : AgentRuntime}

theorem waiting_allOps {α : Type} {p : Program α} (hstays : p.AllOps (Stays e))
    (hharmless : p.AllOps (Harmless (filedName e))) (haside : p.AllOps Aside) :
    p.AllOps (Waiting e) :=
  ((hstays.and hharmless).and haside).mono (fun _ ho => ⟨ho.1.1, ho.1.2.1, ho.2⟩)

theorem aside_queueBehind (active : Suspension) (text : String) (promptId : Option String) :
    (rt.queueBehind e active text promptId : Program Outcome).AllOps Aside := by
  have hop : ∀ o, Aside o → (perform o).AllOps Aside := fun o ho => (Prog.allOps_op o).mpr ho
  apply Prog.allOps_bind (hop .now ⟨trivial, trivial⟩)
  intro instant
  apply Prog.allOps_bind
  · apply Prog.allOps_bind
    · unfold AgentRuntime.inputIdOf
      split
      · exact hop .uuid4 ⟨trivial, trivial⟩
      · exact hop .uuid4 ⟨trivial, trivial⟩
      · trivial
    · intro originId
      apply Prog.allOps_bind
      · unfold AgentRuntime.requireStore
        split <;> trivial
      · intro store
        exact Prog.allOps_bind (hop (.ledger (.enqueueInput ..)) ⟨trivial, rfl⟩) (fun _ => trivial)
  · intro item
    split <;> trivial

theorem queueBehind_unended (active : Suspension) (text : String) (promptId : Option String) :
    (rt.queueBehind e active text promptId : Program Outcome).AllRets (fun _ => False) := by
  apply Prog.allRets_then
  intro instant
  apply Prog.allRets_then
  intro item
  split <;> trivial

theorem waiting_forkHistory (src : Execution) (at_ : Option Uuid)
    (history : Option (List ModelMessage)) :
    (rt.forkHistory src at_ history).AllOps (Waiting e) := by
  have hread : (perform (.readEntries src.conversation)).AllOps (Waiting e) :=
    (Prog.allOps_op _).mpr ⟨trivial, trivial, trivial, trivial⟩
  unfold AgentRuntime.forkHistory
  split
  · trivial
  · split
    · apply Prog.allOps_bind hread
      intro entries
      split
      · trivial
      · split <;> trivial
    · trivial

/-! The way of a call. -/

/-- Where a call is on its way. Under the lease it has been told of no newer one, and what it has
found parked is of its conversation. -/
def course (out : Outside) (e : Execution) (i : Nat) : Course Scene where
  idle := Waits out e i
  named owner s := Waits out e i s ∧ (∃ ev ∈ log i s.events, Parked.handed ev = some owner) ∧
    owner ≠ ""
  leased := Ready out e i
  looked t v s := Ready out e i t s ∧ ∀ active, AgentRuntime.liveSuspension v = some active →
    active.conversationId = e.conversation
  clear := Ready out e i
  decided t active _ s := Ready out e i t s ∧ active.conversationId = e.conversation
  resuming t active _ s := Ready out e i t s ∧ active.conversationId = e.conversation
  acted t _ outcome s := Sits out e i t s ∧
    (Leads e i t s → Holds e.conversation outcome.messages s)
  ends := Ends out e i
  closes := Closes e i

theorem Ready.fails {t : Nat} (h : Ready out e i t s) (error : Exn) :
    Ends out e i t (.error error) s :=
  ⟨h.toSits, by simp⟩

/-- What a call does under its token beside its attempt. -/
theorem safe_inner {α : Type} {t : Nat} {p : Program α} {M : α → Scene → Prop}
    (hp : p.AllOps (Presents e t)) (hunpublished : p.AllOps Unpublished) (hheeds : Heeding p)
    (h : Ready out e i t s) (hM : ∀ a s', Ready out e i t s' → M a s') :
    Safe out e i p ((course out e i).Inner t M) s :=
  Prog.safe_either (safe_errand hp hunpublished hheeds h) (fun a s' h' => hM a s' (h'.2 a rfl))
    (fun _ _ h' => ⟨h'.1, by simp⟩)

theorem safe_name (h : Waits out e i s) : Safe out e i (perform .uuid4)
    ((course out e i).Outer (course out e i).named) s := by
  apply (Prog.safe_op _ _ _).mpr
  intro s₁ hr r s₂ he
  have hwaiting : Waiting e .uuid4 := ⟨trivial, trivial, trivial, trivial⟩
  obtain ⟨hg, h₂⟩ := waits_op hwaiting (h.rely hr) he.1
  refine ⟨hg, ?_⟩
  cases r with
  | error error => exact closes_error _ _
  | ok owner => exact ⟨h₂, Parked.handed_uuid4 he.1⟩

/-- Letting go of the lease leaves what the outcome says of the conversation. -/
theorem safe_release {owner : String} {t : Nat} {r : Except Exn Outcome}
    (h : Ends out e i t r s) : Safe out e i (perform (.ledger (.release (filedName e) owner)))
      ((course out e i).Outer (fun _ => Closes e i r)) s := by
  have hrelease : (perform (.ledger (.release (filedName e) owner))).AllOps (Presents e t) :=
    (Prog.allOps_op _).mpr ⟨.inr ⟨rfl, trivial⟩, .inl (fun _ => trivial)⟩
  have hquiet : (perform (.ledger (.release (filedName e) owner))).AllOps Unpublished :=
    (Prog.allOps_op _).mpr trivial
  obtain ⟨hsits, hends⟩ := h
  cases r with
  | error error =>
    have htold := Prog.safe_mono (safe_told hrelease hquiet hsits) (fun _ _ hg => hg.1)
      (fun _ _ h => h)
    exact Prog.safe_either htold (fun _ _ _ => closes_error _ _) (fun _ _ _ => closes_error _ _)
  | ok outcome =>
    apply Prog.safe_either (safe_behind hrelease hquiet hsits (hends outcome rfl)) _
      (fun _ _ _ => closes_error _ _)
    intro _ s₁ h₁ outcome' houtcome hnewest
    cases houtcome
    rw [h₁.1.mine] at hnewest
    exact h₁.2 ⟨h₁.1.mine, List.mem_singleton.mp hnewest⟩

/-- Looking for the continuation finds one at home. -/
theorem safe_look {t : Nat} (h : Ready out e i t s) :
    Safe out e i (perform (.ledger (.read (filedName e) Effects.activeSuspension)))
      ((course out e i).Inner t ((course out e i).looked t)) s := by
  have hhome : Prog.safe (lawful out e i) (Rely out e i) (fun _ _ => True)
      (perform (.ledger (.read (filedName e) Effects.activeSuspension)))
      (fun r _ => ∀ v active, r = .ok v → AgentRuntime.liveSuspension v = some active →
        active.conversationId = e.conversation) s := by
    apply (Prog.safe_op _ _ _).mpr
    intro s₁ hr r s₂ he
    obtain ⟨-, -, hreply⟩ := exec_events he.1
    refine ⟨trivial, ?_⟩
    intro v active hv hactive
    subst hv
    exact hr.home active (Except.ok.inj hreply ▸ hactive)
  have hread : (perform (.ledger (.read (filedName e) Effects.activeSuspension))).AllOps
      (Presents e t) := (Prog.allOps_op _).mpr ⟨.inl ⟨_, _, rfl⟩, .inl (fun _ => trivial)⟩
  apply Prog.safe_mono (Prog.safe_and (safe_errand hread ((Prog.allOps_op _).mpr trivial)
    (heeding_op _) h) hhome) (fun _ _ hg => hg.1)
  intro r s₁ h₁
  cases r with
  | ok v => exact ⟨h₁.1.2 v rfl, fun active => h₁.2 v active rfl⟩
  | error error => exact ⟨h₁.1.1, by simp⟩

theorem leases (hledger : rt.executionStore = true) :
    Course.Leases (lawful out e i) (Rely out e i) (Guarantee out e i) (course out e i) rt e
      (filedName e) where
  here := rfl
  fails error s _ := closes_error error s
  bare h := by simp [hledger] at h
  names _ := safe_name
  acquires owner s h := by
    obtain ⟨hwaits, hhanded, hnonempty⟩ := h
    exact Prog.safe_either (safe_acquire hwaits hhanded hnonempty)
      (fun t _ h => ⟨h t rfl, fun _ => closes_error _ _⟩) (fun _ _ _ => closes_error _ _)
  releases _ _ _ _ := safe_release

/-- Every step of a call moves what is committed only under the newest token. -/
theorem steps {t : Nat} (htranscript : rt.transcript = true) {agent : Agent}
    (gathers : Gathers agent.toPydanticAI) (propagates : Propagates agent.toPydanticAI) :
    Course.Steps (lawful out e i) (Rely out e i) (Guarantee out e i) (course out e i) rt e
      (filedName e) t agent where
  here := rfl
  leased_fails error _ h := h.fails error
  looked_fails _ error _ h := h.1.fails error
  clear_fails error _ h := h.fails error
  decided_fails _ _ error _ h := h.1.fails error
  attempts prompt options s h := safe_attempts htranscript gathers propagates prompt options h
  looks _ := safe_look
  reads v s h _ := by
    have hread : (perform (.ledger (.read (filedName e) Effects.pendingRound))).AllOps
        (Presents e t) := (Prog.allOps_op _).mpr ⟨.inl ⟨_, _, rfl⟩, .inl (fun _ => trivial)⟩
    exact safe_inner hread ((Prog.allOps_op _).mpr trivial) (heeding_op _) h.1 (fun _ _ h => h)
  again options s h := safe_attempts htranscript gathers propagates none options h
  marks active answers s h := safe_inner (presents_write h.2) ((Prog.allOps_op _).mpr trivial)
    (heeding_op _) h.1 (fun _ _ h₁ => ⟨h₁, h.2⟩)
  acts active answers options s h := by
    rw [Course.rejoined_home h.2]
    exact Prog.safe_either (safe_attempts htranscript gathers propagates none options h.1)
      (fun outcome _ h => ⟨h.1, h.2 outcome rfl⟩) (fun _ _ h => ⟨h.1, by simp⟩)
  completes active outcome s h := by
    have hend : (perform (.ledger (.writeControl (filedName e) Effects.activeSuspension
        (.completed active.callId active.callIds) t))).AllOps (Presents e t) :=
      presents_write trivial
    apply Prog.safe_either (safe_behind hend ((Prog.allOps_op _).mpr trivial) h.1 h.2) _
      (fun _ _ h => ⟨h.1, by simp⟩)
    intro _ s₁ h₁
    refine ⟨h₁.1, ?_⟩
    intro outcome' houtcome
    cases houtcome
    exact h₁.2

theorem keeps (hledger : rt.executionStore = true) (htranscript : rt.transcript = true)
    {agent : Agent} (gathers : Gathers agent.toPydanticAI)
    (propagates : Propagates agent.toPydanticAI) :
    Course.Keeps (lawful out e i) (Rely out e i) (Guarantee out e i) (course out e i) rt e
      (filedName e) agent where
  toLeases := leases hledger
  peeks _ s h := by
    have hlook : (rt.active e).AllOps (Waiting e) :=
      waiting_allOps Scopes.stays_active (Parked.harmless_active rt e) aside_active
    exact Prog.safe_either (safe_waiting hlook h) (fun _ _ h => h) (fun _ _ _ => closes_error _ _)
  queues active text promptId s h := by
    have hqueue : (rt.queueBehind e active text promptId : Program Outcome).AllOps (Waiting e) :=
      waiting_allOps (Scopes.stays_queueBehind _ _ _) (Parked.harmless_queueBehind rt e _ _ _)
        (aside_queueBehind _ _ _)
    apply Prog.safe_post (Prog.safe_rets (queueBehind_unended active text promptId)
      (safe_waiting hqueue h))
    exact fun r s₁ h₁ outcome houtcome => (h₁.2 outcome houtcome).elim
  steps _ := steps htranscript gathers propagates

/-- Every call moves what is committed only under the newest token, and an outcome of it is then
what the conversation holds. -/
theorem safe_worker (worker : Worker) (h : Waits out e i s) :
    Safe out e i (worker.call.program worker.rt e) (Closes e i) s := by
  obtain ⟨rt, call, hledger, htranscript, gathers, propagates⟩ := worker
  cases call with
  | run agent prompt options =>
    exact (keeps hledger htranscript gathers propagates).run prompt options h
  | fork src at_ agent prompt history regate options =>
    refine (keeps hledger htranscript gathers propagates).fork ?_ ?_ prompt regate options h
    · intro s h
      exact Prog.safe_either (safe_waiting (waiting_forkHistory src at_ history) h)
        (fun _ _ h => h) (fun _ _ _ => closes_error _ _)
    · intro t history s h
      unfold AgentRuntime.copyRound
      split
      · rename_i htarget
        obtain ⟨hunpublished, hheeds⟩ := unpublished_copyCalls (e := e) (t := t)
          (unansweredToolCalls history)
        exact safe_inner (presents_copyCalls _ _ (storeFor_view htarget) _) hunpublished hheeds h
          (fun _ _ h => h)
      · exact h
  | resume pendingId answer agent controls rules =>
    refine (keeps hledger htranscript gathers propagates).resume ?_ controls rules h
    intro t v active call s h hv _
    exact safe_inner (presents_write (h.2 active hv)) ((Prog.allOps_op _).mpr trivial)
      (heeding_op _) h.1 (fun _ _ h₁ => ⟨fun _ => ⟨h₁, h.2 active hv⟩, h₁.fails⟩)
  | recover agent history controls rules =>
    refine (keeps hledger htranscript gathers propagates).recover ?_ history controls rules h
    exact fun t v active s h hv _ => ⟨h.1, h.2 active hv⟩

end

/-! Runs. -/

section
variable {out : Outside} {e : Execution} {s s' : Scene}

theorem rely_beside (hi : Inv out (filedName e) s) (hhome : Home e s.world)
    (horderly : Orderly e.conversation s.world) (move : Beside out e s s') (i : Nat) :
    Rely out e i s s' := by
  have hsame : Same e s.world s'.world := by
    cases move with
    | renew owner ttl a asked => exact ⟨rfl, rfl, Parked.acquire_cell out owner ttl s.world a⟩
    | perform o a calm hun => exact same_step calm hun out s.world a
  have hevents : s'.events = s.events ∧ s'.attempts = s.attempts := by
    cases move <;> exact ⟨rfl, rfl⟩
  have hinstant : s.world.instant ≤ s'.world.instant := by
    cases move <;> exact Nat.le_of_lt (by rw [step_instant]; exact Nat.lt_succ_self _)
  have hlater : issued (filedName e) s ≤ issued (filedName e) s' := by
    cases move with
    | renew owner ttl a asked => exact (Parked.acquire_leases out owner ttl s.world a).1
    | perform o a calm hun => exact Nat.le_of_eq (Parked.calm_leases out calm s.world a).1.symm
  have hinv : Inv out (filedName e) s' := by
    apply Parked.inv_moved hi hevents.1 hinstant _ hlater
    cases move with
    | renew owner ttl a asked =>
      intro l hl
      rcases (Parked.acquire_leases out owner ttl s.world a).2 l hl with rfl | hold
      · exact .inr (.inr asked)
      · exact .inr (.inl hold)
    | perform o a calm hun =>
      intro l hl
      rcases (Parked.calm_leases out calm s.world a).2 l hl with hempty | hold
      · exact .inl hempty
      · exact .inr (.inl hold)
  refine ⟨hinv, hsame.home hhome, hsame.orderly horderly hinstant, by rw [hevents.1],
    by rw [hevents.2], hinstant, ?_⟩
  intro t ht hissued
  have hle := (hi.issued i t ht).2
  exact ⟨by omega, hsame.read⟩

theorem rely_guarantee {i j : Nat} (hij : i ≠ j) (hi : Inv out (filedName e) s)
    (horderly : Orderly e.conversation s.world) (hg : Guarantee out e i s s') :
    Rely out e j s s' := by
  obtain ⟨ev, hevents, hthread⟩ := hg.event
  refine ⟨hg.inv, hg.home, hg.orderly horderly, ?_, hg.others j (Ne.symm hij), hg.instant, ?_⟩
  · rw [hevents]
    have hne : ev.thread ≠ j := hthread ▸ hij
    simp [log, hne]
  · intro t ht hissued
    have hle := (hi.issued j t ht).2
    have hlater := hg.later
    have hcur : issued (filedName e) s = t := by omega
    refine ⟨hcur, (hg.still ?_).read⟩
    rw [hcur]
    intro hmine
    exact hij (hi.exclusive i j t hmine ht)

theorem compatible (out : Outside) (e : Execution) :
    Compatible (Beside out e)
      (fun s => Inv out (filedName e) s ∧ Home e s.world ∧ Orderly e.conversation s.world)
      (Rely out e) (Guarantee out e) (Closes e) where
  refl i s h := by
    refine ⟨h.1, h.2.1, h.2.2, rfl, rfl, Nat.le_refl _, ?_⟩
    exact fun t _ ht => ⟨ht, rfl⟩
  trans i s₁ s₂ s₃ h h' := by
    refine ⟨h'.inv, h'.home, h'.orderly, h'.own.trans h.own, h'.memory.trans h.memory,
      h.instant.trans h'.instant, ?_⟩
    intro t ht hissued
    have hmine : t ∈ tokens (filedName e) i s₂.events := by
      unfold tokens at ht ⊢
      rw [h.own]
      exact ht
    obtain ⟨hissued', hread'⟩ := h'.kept t hmine hissued
    obtain ⟨hissued, hread⟩ := h.kept t ht hissued'
    exact ⟨hissued, hread'.trans hread⟩
  stable i r s s' hcloses hr := by
    intro outcome houtcome hnewest
    have hmine : issued (filedName e) s' ∈ tokens (filedName e) i s.events := by
      unfold tokens at hnewest ⊢
      rw [← hr.own]
      exact hnewest
    obtain ⟨hissued, hread⟩ := hr.kept _ hmine rfl
    have hholds := hcloses outcome houtcome (hissued ▸ hmine)
    unfold Holds Writing.committed at hholds ⊢
    rw [hread]
    exact hholds
  keeps i s s' h hg := ⟨hg.inv, hg.home, hg.orderly h.2.2⟩
  other i j s s' hij h hg := rely_guarantee hij h.1 h.2.2 hg
  env s s' h move := by
    have hrely := rely_beside h.1 h.2.1 h.2.2 move
    exact ⟨⟨(hrely 0).inv, (hrely 0).home, (hrely 0).orderly⟩, hrely⟩

end

/-- A world in which nobody is at work on the branch: its conversation is as its writers leave
one, a continuation was parked in it, and no lease is held. -/
structure Rested (e : Execution) (w : World) : Prop where
  orderly : Orderly e.conversation w
  home : Home e w
  free : ∀ l, w.store.leases.get? (filedName e) = some l → l.owner = ""

/-- What `committed_history` returns, whoever asks. -/
def recalled (out : Outside) (j : Nat) (rt : AgentRuntime) (e : Execution) (s : Scene) :
    Except Exn (List ModelMessage) :=
  ((rt.committedHistory e).eval (fun o s => s.perform out id j o) s).1

/-- What `committed_history` and `state` return is as it was. -/
def Still (out : Outside) (rt : AgentRuntime) (e : Execution) (s s' : Scene) : Prop :=
  ∀ j, recalled out j rt e s' = recalled out j rt e s ∧
    RunRecord.observed out id j rt e s' = RunRecord.observed out id j rt e s

/-- The next step of a worker whose lease was taken over moves nothing, and what a worker returned
that still has the newest token is what is committed, up to what replays vary. -/
structure Unmoved (ex : Nat → Prog.Exec Op Op.Res Exn Scene) (out : Outside) (rt : AgentRuntime)
    (e : Execution) (pool : Nat → Program Outcome) (s : Scene) : Prop where
  replaced : ∀ i o k r s', pool i = .call o k → Replaced e i s → ex i o s r s' →
    Still out rt e s s'
  closed : ∀ i outcome, pool i = .ret outcome →
    issued (filedName e) s ∈ tokens (filedName e) i s.events →
    ∀ j, ∃ history, recalled out j rt e s = .ok history ∧
      List.Forall₂ same history outcome.messages

section
variable {out : Outside} {e : Execution} {s s' : Scene} {rt : AgentRuntime}

theorem recalled_committed (htranscript : rt.transcript = true) (j : Nat) :
    recalled out j rt e s = .ok (Writing.committed e.conversation s) := by
  simp only [recalled, AgentRuntime.committedHistory, htranscript, ↓reduceIte, Prog.bind_eq,
    Prog.eval_bind, Semora.perform, Prog.eval_op]
  rfl

theorem still_same (hledger : rt.executionStore = true) (htranscript : rt.transcript = true)
    (h : Same e s.world s'.world) : Still out rt e s s' := by
  intro j
  constructor
  · rw [recalled_committed htranscript, recalled_committed htranscript]
    unfold Writing.committed
    rw [h.read]
  · have hparked : ScopedState.parked e s'.world = ScopedState.parked e s.world :=
      congrArg AgentRuntime.liveSuspension h.parked
    cases hlive : ScopedState.parked e s.world with
    | some active =>
      rw [ScopedState.observed_parked hledger hlive,
        ScopedState.observed_parked hledger (hparked.trans hlive)]
    | none =>
      rw [RunRecord.observed_unparked htranscript (ScopedState.unparked_parked hlive),
        RunRecord.observed_unparked htranscript
          (ScopedState.unparked_parked (hparked.trans hlive)), h.record]

end

/-- Any number of calls on one branch, in any interleaving and each stopping wherever it does, as
long as whoever is replaced comes to no write of the transcript before its next leased write is
refused: no step of a replaced worker moves what `committed_history` or `state` return, and what
the last worker returned is what is committed. -/
theorem replaced_unmoved (out : Outside) (e : Execution) (workers : Nat → Worker)
    (rt : AgentRuntime) (hledger : rt.executionStore = true) (htranscript : rt.transcript = true)
    {world : World} (rested : Rested e world) (attempts : Nat → Attempt)
    {pool : Nat → Program Outcome} {s : Scene}
    (run : Interleaved (lawful out e) (Beside out e)
      (fun i => (workers i).call.program (workers i).rt e) ⟨world, attempts, []⟩ pool s) :
    Unmoved (lawful out e) out rt e pool s := by
  have hstart : Inv out (filedName e) (⟨world, attempts, []⟩ : Scene) := by
    constructor
    · simp
    · simp
    · simp
    · exact fun l hl => .inl (rested.free l hl)
    · simp [tokens, log]
    · simp [tokens, log]
  have hwaits : ∀ i, Waits out e i (⟨world, attempts, []⟩ : Scene) := by
    intro i
    refine ⟨⟨hstart, by simp [log]⟩, rested.home, rested.orderly, ?_⟩
    rintro ⟨ev, hev, -⟩
    simp [log] at hev
  have hcompatible := compatible out e
  obtain ⟨hinv, hsafe⟩ := interleaved_safe hcompatible ⟨hstart, rested.home, rested.orderly⟩
    (fun i => safe_worker (workers i) (hwaits i)) run
  constructor
  · intro i o k r s' hnext hreplaced he
    have hcall := hsafe i
    rw [hnext] at hcall
    obtain ⟨hg, -⟩ := hcall s (hcompatible.refl i s hinv) r s' he
    exact still_same hledger htranscript (hg.still hreplaced.2)
  · intro i outcome hreturned hnewest j
    have hcloses := hsafe i
    rw [hreturned] at hcloses
    refine ⟨_, recalled_committed htranscript j, ?_⟩
    rw [Writing.forall₂_same]
    exact (hcloses outcome rfl hnewest).symm

/-- The claim that nothing a replaced worker does ever shows. -/
def AlwaysUnmoved : Prop :=
  ∀ (out : Outside) (e : Execution) (workers : Nat → Worker) (rt : AgentRuntime) (world : World)
    (attempts : Nat → Attempt) (pool : Nat → Program Outcome) (s : Scene),
    rt.executionStore = true → rt.transcript = true → Rested e world →
    Interleaved (exec out id) (Beside out e)
      (fun i => (workers i).call.program (workers i).rt e) ⟨world, attempts, []⟩ pool s →
    Unmoved (exec out id) out rt e pool s

/-- A model that calls one tool and then is done. -/
def callsOnce : Outside :=
  .answering (fun _ _ _ => .ok .null)
    (fun _ request => .ok { parts := if request.messages.length = 1 then
      [.toolCall ⟨"send", .dict [], "c1"⟩] else [.text "done"] })
    (fun _ _ _ => .error (.other "not asked"))

def branch : Execution := { branchId := "run" }

/-- The conversation after the prompt. -/
def prompted : List ModelMessage := [.request { parts := [.userPrompt (.str "hi") .null] }]

/-- An agent that tells its first request from the one behind the tool call. -/
def twoRequests : Agent :=
  { PydanticAI.standard (fun body => if body = Effects.modelStepBody ⟨"model", [], prompted⟩ then
      "first" else "second") [] 8 with }

/-- A worker that is prompted, and others that recover from what it has committed by the time its
tool is done. -/
def promptedAndRecovered (i : Nat) : Worker where
  rt := { leaseTtl := 1 }
  call := if i = 0 then .run twoRequests (some "hi") {} else .recover twoRequests prompted none ""
  ledger := rfl
  transcript := rfl
  gathers := by
    split <;> exact gathers_standard _ _ _
  propagates := by
    split <;> exact propagates_standard _ _ _

def played (turns : List Nat) : (Nat → Program Outcome) × Scene :=
  scheduled (Scene.perform callsOnce id) turns
    (fun i => (promptedAndRecovered i).call.program (promptedAndRecovered i).rt branch)
    ⟨{}, fun _ => {}, []⟩

/-- The first worker loses its lease once its tool is done, and the second recovers and closes. The
first has come to the record of its turn. -/
def successor : List Nat := List.replicate 48 0 ++ List.replicate 106 1 ++ List.replicate 2 0

/-- It records the turn. The entry is there already, and the marker moves the tip back to it. -/
def movedBack : List Nat := successor ++ List.replicate 4 0

theorem rested_empty (e : Execution) : Rested e {} := by
  constructor
  · constructor
    · exact .nil
    · intro entry hentry
      cases hentry
  · exact fun _ h => nomatch h
  · exact fun _ h => nomatch h

/-- What a worker came to. -/
def returned : Program Outcome → Option Outcome
  | .ret outcome => some outcome
  | _ => none

theorem returned_ret {p : Program Outcome} {outcome : Outcome} (h : returned p = some outcome) :
    p = .ret outcome := by
  cases p with
  | ret outcome' => rw [Option.some.inj h]
  | raise error => cases h
  | call o k => cases h

theorem movedBack_returned : (returned ((played movedBack).1 1)).map (fun o => o.messages.length) =
    some 4 := by
  decide +kernel

theorem movedBack_newest : issued "run" (played movedBack).2 ∈
    tokens "run" 1 (played movedBack).2.events := by
  decide +kernel

theorem movedBack_committed : (Writing.committed "run" (played movedBack).2).length = 2 := by
  decide +kernel

theorem not_always_unmoved : ¬ AlwaysUnmoved := by
  intro h
  have hmoved : Unmoved (exec callsOnce id) callsOnce {} branch (played movedBack).1
      (played movedBack).2 :=
    h callsOnce branch promptedAndRecovered {} {} (fun _ => {}) _ _ rfl rfl (rested_empty branch)
      (interleaved_scheduled (Scene.perform callsOnce id) _ _ _ _)
  obtain ⟨outcome, houtcome, hlength⟩ := Option.map_eq_some_iff.mp movedBack_returned
  obtain ⟨history, hhistory, hsame⟩ :=
    hmoved.closed 1 outcome (returned_ret houtcome) movedBack_newest 0
  have hcommitted : recalled callsOnce 0 {} branch (played movedBack).2 = _ :=
    recalled_committed rfl 0
  rw [hhistory] at hcommitted
  have hlengths := hsame.length_eq
  rw [hlength, Except.ok.inj hcommitted] at hlengths
  have htwo := movedBack_committed
  unfold branch Execution.conversation at hlengths
  simp only at hlengths
  omega

instance (e : Execution) : DecidablePred (Publishes e) := fun o =>
  match o with
  | .append entry => decEq entry.conversationId e.conversation
  | .recordBranch b _ => decEq b e.branchId
  | .ledger _ | .readEntries _ | .readBranch _ | .recordModelUsage .. | .handle .. | .provide _
  | .ask .. | .uuid4 | .now | .get | .modify _ => isFalse id

/-- The guard of replaced workers, for a schedule. -/
def lets (i : Nat) (o : Op) (s : Scene) : Bool :=
  ¬ Publishes branch o ∨ tokens "run" i s.events = [] ∨ issued "run" s ∈ tokens "run" i s.events

theorem lets_lawful (i : Nat) (o : Op) (s : Scene) (h : lets i o s = true) :
    lawful callsOnce branch i o s (s.perform callsOnce id i o).1 (s.perform callsOnce id i o).2 := by
  refine ⟨rfl, ?_⟩
  intro hpublishes hreplaced
  rcases of_decide_eq_true h with hnot | hnone | hnewest
  · exact absurd hpublishes hnot
  · exact absurd hnone hreplaced.1
  · exact absurd hnewest hreplaced.2

theorem replaced_unmoved_successor :
    Unmoved (lawful callsOnce branch) callsOnce {} branch (played successor).1
      (played successor).2 :=
  replaced_unmoved callsOnce branch promptedAndRecovered {} rfl rfl (rested_empty branch)
    (fun _ => {}) (interleaved_passed lets_lawful _ _ _ _ (by decide +kernel))

end Semora.Proofs.Takeover
