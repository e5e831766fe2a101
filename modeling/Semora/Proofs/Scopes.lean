import Semora.Proofs.Coordinates
import Semora.Proofs.ParkSurvives

/-! Calls on the branches of one ledger and one transcript: each stays with the branch, the
conversation and the run record of its own execution. -/

namespace Semora.Proofs.Scopes
open Semora.Lib Semora.Store Semora.Transcript
open Parked (Harmless harmless_active harmless_state harmless_submit harmless_queueBehind
  harmless_committedHistory harmless_offer_none)

/-- Whatever is parked under the execution's name was parked in its conversation. -/
def Home (e : Execution) (w : World) : Prop :=
  ∀ active, AgentRuntime.liveSuspension (w.store.read (filedName e) Effects.activeSuspension) =
    some active → active.conversationId = e.conversation

/-- No park, or one in the execution's conversation. -/
def ParkedIn (e : Execution) : Value → Prop
  | .suspension active => active.conversationId = e.conversation
  | _ => True

/-- What the call may leave under the continuation key. -/
def Continues (e : Execution) : Call Value → Prop
  | .finishEffect _ k value _ | .writeControl _ k value _ =>
    k = Effects.activeSuspension → ParkedIn e value
  | .commitTransition _ tr _ =>
    tr.effects = [] ∧ ∀ item ∈ tr.controls, item.1 = Effects.activeSuspension → ParkedIn e item.2
  | _ => True

/-- The operation is about the execution's own branch, conversation and run record, but for what
it only reads. -/
def Stays (e : Execution) : Op → Prop
  | .ledger c => (∃ b k, c = .read b k) ∨ c.branchId = filedName e ∧ Continues e c
  | .append entry => entry.conversationId = e.conversation
  | .recordBranch b _ | .recordModelUsage b _ _ => b = e.branchId
  | _ => True

section
variable {e e' : Execution}

/-- What one call leaves under the continuation key of the execution's branch. -/
theorem continues_home {c : Call Value} (hc : Continues e c) {w : World} (hw : Home e w)
    (now now' : ℚ) : ∀ active, AgentRuntime.liveSuspension
      ((c.exec now now' w.store).2.read (filedName e) Effects.activeSuspension) = some active →
      active.conversationId = e.conversation := by
  have hread : ∀ {s : MemorySteps Value} {v : Value},
      s.entries.get? (filedName e, Effects.activeSuspension) = some (.done v) → ParkedIn e v →
      ∀ active, AgentRuntime.liveSuspension (s.read (filedName e) Effects.activeSuspension) =
        some active → active.conversationId = e.conversation := by
    intro s v he hv active hactive
    simp only [MemorySteps.read, MemorySteps.step, he, Option.getD_some] at hactive
    cases v with
    | suspension parked => exact Option.some.inj hactive ▸ hv
    | _ => cases hactive
  by_cases htransition : ∃ b tr t, c = .commitTransition b tr t
  · obtain ⟨b, tr, t, rfl⟩ := htransition
    rcases transition_filed (s := w.store) (b := filedName e) (k := Effects.activeSuspension)
      b t hc.1 with h | ⟨item, hmem, hkey, h⟩
    · intro active hactive
      apply hw active
      simpa only [MemorySteps.read, MemorySteps.step, Call.exec, h] using hactive
    · exact hread h (hc.2 item hmem hkey)
  · intro active hactive
    have htouch := exec_touch c now now' w.store (filedName e) Effects.activeSuspension
    generalize hold : w.store.entries.get? (filedName e, Effects.activeSuspension) = st at htouch
    generalize hnew : (c.exec now now' w.store).2.entries.get?
      (filedName e, Effects.activeSuspension) = st' at htouch
    cases htouch with
    | same =>
      apply hw active
      simpa only [MemorySteps.read, MemorySteps.step, hold, hnew] using hactive
    | start => simp [MemorySteps.read, MemorySteps.step, hnew, AgentRuntime.liveSuspension] at hactive
    | forget => simp [MemorySteps.read, MemorySteps.step, hnew, AgentRuntime.liveSuspension] at hactive
    | finish v t h =>
      subst h
      exact hread hnew (hc rfl) active hactive
    | control _ v t h =>
      subst h
      exact hread hnew (hc rfl) active hactive
    | transition _ tr v t h => exact absurd ⟨_, _, _, h⟩ htransition

/-- Two executions filed under one name belong to one conversation. -/
def Consistent (e e' : Execution) : Prop :=
  filedName e = filedName e' → e.conversation = e'.conversation

/-- An operation that stays with its execution keeps the parks of every branch at home. -/
theorem stays_home {o : Op} (ho : Stays e o) (hconsistent : Consistent e e') {w : World}
    (hw : Home e' w) (out : Outside) (a : Attempt) : Home e' (step out o w a).2.1 := by
  cases o with
  | ledger c =>
    rcases ho with ⟨b, k, rfl⟩ | ⟨hb, hc⟩
    · exact hw
    · by_cases hname : filedName e = filedName e'
      · have hcontinues : Continues e' c := by
          have hparked : ∀ v, ParkedIn e v → ParkedIn e' v := by
            intro v hv
            cases v with
            | suspension active => exact hv.trans (hconsistent hname)
            | _ => trivial
          cases c with
          | finishEffect | writeControl => exact fun hk => hparked _ (hc hk)
          | commitTransition => exact ⟨hc.1, fun item hi hk => hparked _ (hc.2 item hi hk)⟩
          | _ => trivial
        exact continues_home hcontinues hw _ _
      · intro active hactive
        apply hw active
        have hagree := exec_other c (out.clock w.instant) (out.clock (w.instant + 1)) w.store
          (fun h => hname (hb.symm.trans h))
        rw [← hactive]
        exact congrArg AgentRuntime.liveSuspension (hagree.step Effects.activeSuspension).symm
  | _ => exact hw

/-- What is about the execution and disturbs no park stays. -/
theorem stays_harmless {o : Op} (haddresses : Addresses e o) (hharmless : Harmless (filedName e) o) :
    Stays e o := by
  cases o with
  | ledger c =>
    have hcalm := hharmless.1 haddresses
    refine .inr ⟨haddresses, ?_⟩
    cases c with
    | finishEffect | writeControl => exact fun hk => absurd hk hcalm
    | commitTransition => exact hcalm.elim
    | _ => trivial
  | append | recordBranch | recordModelUsage => exact haddresses
  | _ => trivial

theorem stays_allOps {α : Type} {p : Program α} (haddresses : p.AllOps (Addresses e))
    (hharmless : p.AllOps (Harmless (filedName e))) : p.AllOps (Stays e) :=
  (haddresses.and hharmless).mono (fun _ h => stays_harmless h.1 h.2)

end

/-! The calls. -/

section
variable {rt : AgentRuntime} {e : Execution}

theorem stays_op {o : Op} (h : Stays e o) : (perform o).AllOps (Stays e) := (Prog.allOps_op _).mpr h

theorem stays_persist (conversation first : String) (continuation : Continuation) (token : Nat)
    (h : conversation = e.conversation) :
    (rt.persist e conversation first continuation token).AllOps (Stays e) := by
  unfold AgentRuntime.persist
  split
  · trivial
  · rename_i store hstore
    have hcontrols : ∀ item ∈ AgentRuntime.parkWrites conversation first continuation,
        item.1 = Effects.activeSuspension → ParkedIn e item.2 := by
      intro item hitem _
      rcases List.mem_append.mp hitem with hcall | hpark
      · obtain ⟨call, -, rfl⟩ := List.mem_map.mp hcall
        trivial
      · rw [List.mem_singleton.mp hpark]
        exact h
    apply Prog.allOps_bind
    · exact stays_op (.inr ⟨storeFor_view hstore, rfl, hcontrols⟩)
    · intro inserted
      trivial

theorem stays_park {α : Type} (token : Nat) (agent : Agent) (options : Options)
    {requests : DeferredToolRequests} {eff : Effects} :
    (rt.park (α := α) e e.conversation eff requests token).AllOps (Stays e) := by
  have hannounce : ∀ a parked, Within (rt.effectsOf e token agent options) false .effects
      (AgentRuntime.announce eff a parked) := within_announce eff
  unfold AgentRuntime.park
  split
  · trivial
  · split
    · trivial
    · trivial
    · simp only
      split
      · trivial
      · apply Prog.allOps_bind
        · exact stays_op trivial
        · intro a
          apply Prog.allOps_bind
          · exact stays_allOps (addresses_within token agent options (hannounce a _))
              (Parked.harmless_within (hannounce a _))
          · intro _
            exact Prog.allOps_bind (stays_persist _ _ _ _ rfl) (fun _ => trivial)

theorem stays_attemptRun (token : Nat) {agent : Agent} (gathers : Gathers agent.toPydanticAI)
    (prompt : Option String) (options : Options) :
    (rt.attemptRun e token agent prompt options).AllOps (Stays e) := by
  have hwithin : ∀ {α : Type} {p : Program α},
      Within (rt.effectsOf e token agent options) false .effects p → p.AllOps (Stays e) :=
    fun h => stays_allOps (addresses_within token agent options h) (Parked.harmless_within h)
  have hclose : ∀ output, (rt.close e output).AllOps (Stays e) :=
    fun output => stays_allOps addresses_close (Parked.harmless_close rt e output)
  apply Prog.allOps_bind
  · exact stays_op trivial
  · intro _
    apply Prog.allOps_bind
    · exact stays_allOps (addresses_openBranch token agent options _)
        (Parked.harmless_openBranch rt e _)
    · intro history
      apply Prog.allOps_bind
      · exact hwithin (within_admitPrompt rt e token agent options _ _)
      · intro prompt
        apply Prog.allOps_bind
        · exact hwithin (within_run gathers _ _ _)
        · intro output
          apply Prog.allOps_bind
          · exact hwithin (within_replaceFinal rt e token agent options)
          · intro _
            cases output with
            | deferred requests => exact stays_park token agent options
            | text content => exact hclose _
            | value value => exact hclose _

theorem stays_requireStore : (rt.requireStore e).AllOps (Stays e) := by
  unfold AgentRuntime.requireStore
  split <;> trivial

theorem stays_active : (rt.active e).AllOps (Stays e) := by
  apply Prog.allOps_bind stays_requireStore
  intro store
  exact Prog.allOps_bind (stays_op (.inl ⟨_, _, rfl⟩)) (fun _ => trivial)

theorem stays_state : (rt.state e).AllOps (Stays e) := by
  apply Prog.allOps_bind
  · unfold AgentRuntime.parkedOn
    split
    · exact stays_active
    · trivial
  · intro parked
    split
    · trivial
    · split
      · apply Prog.allOps_bind
        · exact stays_op trivial
        · intro record
          split <;> trivial
      · trivial

theorem stays_submit (item : PendingInput) : (rt.submit e item).AllOps (Stays e) := by
  apply Prog.allOps_bind
  · unfold AgentRuntime.inputIdOf
    split
    · exact stays_op trivial
    · exact stays_op trivial
    · trivial
  · intro originId
    unfold AgentRuntime.requireStore
    split
    · rename_i store hstore
      have henqueue : ∀ value,
          (store.enqueueInput e.branchId originId value).AllOps (Stays e) :=
        fun value => stays_op (.inr ⟨storeFor_view hstore, trivial⟩)
      simp only [Prog.bind_eq, Prog.pure_eq, Prog.ret_bind]
      exact Prog.allOps_bind (henqueue _) (fun _ => trivial)
    · trivial

theorem stays_queueBehind {α : Type} (active : Suspension) (text : String)
    (promptId : Option String) :
    (rt.queueBehind e active text promptId : Program α).AllOps (Stays e) := by
  apply Prog.allOps_bind
  · exact stays_op trivial
  · intro instant
    apply Prog.allOps_bind (stays_submit _)
    intro item
    split <;> trivial

theorem stays_copyCalls {target : View} (source : View) (src : Execution) (token : Nat)
    (htarget : target.filed e.branchId = filedName e) (calls : List ToolCall) :
    (AgentRuntime.copyCalls source target src e token calls).AllOps (Stays e) := by
  have hkey : ∀ call : ToolCall, Effects.stepKey call.toolCallId ≠ Effects.activeSuspension :=
    fun call => Effects.effect_control (.inl ⟨_, rfl⟩) (.inr (.inr (.inr rfl)))
  have hstart : ∀ key, (target.start e.branchId key token).AllOps (Stays e) :=
    fun key => stays_op (.inr ⟨htarget, trivial⟩)
  induction calls with
  | nil => trivial
  | cons call calls ih =>
    have hread : ∀ key, (source.read src.branchId key).AllOps (Stays e) :=
      fun key => stays_op (.inl ⟨_, _, rfl⟩)
    apply Prog.allOps_bind (hread _)
    intro record
    cases record with
    | absent => exact ih
    | running => exact Prog.allOps_bind (hstart _) (fun _ => ih)
    | done value =>
      apply Prog.allOps_bind (hstart _)
      intro inserted
      split
      · apply Prog.allOps_bind
        · exact stays_op (.inr ⟨htarget, fun hk => absurd hk (hkey call)⟩)
        · intro _
          exact Prog.allOps_bind ih (fun _ => trivial)
      · exact ih

theorem stays_forkHistory (src : Execution) (at_ : Option Uuid)
    (history : Option (List ModelMessage)) : (rt.forkHistory src at_ history).AllOps (Stays e) := by
  unfold AgentRuntime.forkHistory
  split
  · trivial
  · split
    · apply Prog.allOps_bind
      · exact stays_op trivial
      · intro entries
        split
        · trivial
        · split <;> trivial
    · trivial

theorem stays_copyRound (src : Execution) (token : Nat) (history : List ModelMessage) :
    (rt.copyRound src e token history).AllOps (Stays e) := by
  unfold AgentRuntime.copyRound
  split
  · rename_i htarget
    exact stays_copyCalls _ _ _ (storeFor_view htarget) _
  · trivial

end

/-! Pools of calls. -/

/-- What a worker does on a branch: a call, or the renewal of a lease. -/
inductive Work
  | call (entry : Parked.Entry)
  | renew (owner : String) (ttl : ℚ)

/-- One worker's work on an execution. -/
structure Caller where
  rt : AgentRuntime
  execution : Execution
  work : Work
  plain : ∀ entry, work = .call entry → entry.Plain

def Caller.program (caller : Caller) : Program Unit :=
  match caller.work with
  | .call entry => entry.program caller.rt caller.execution
  | .renew owner ttl => do
    let _ ← perform (.ledger (.acquire (filedName caller.execution) owner ttl))
    return ()

/-- Every branch's parks are at home, and every operation stayed with its execution. -/
structure Inv (executions : Nat → Execution) (s : Scene) : Prop where
  home : ∀ i, Home (executions i) s.world
  stays : ∀ ev ∈ s.events, Stays (executions ev.thread) ev.op

section
variable {out : Outside} {self : Nat → Nat} {executions : Nat → Execution} {i : Nat} {s : Scene}

abbrev Safe (out : Outside) (self : Nat → Nat) (executions : Nat → Execution) (i : Nat) {α : Type}
    (p : Program α) (Q : Except Exn α → Scene → Prop) (s : Scene) : Prop :=
  Prog.safe (exec out self i) (fun _ s' => Inv executions s') (fun _ s' => Inv executions s') p Q s

variable (consistent : ∀ i j, Consistent (executions i) (executions j))
include consistent

theorem inv_op {o : Op} {r : Except Exn o.Res} {s' : Scene} (ho : Stays (executions i) o)
    (h : Inv executions s) (he : exec out self i o s r s') : Inv executions s' := by
  obtain ⟨hevents, hworld, -⟩ := exec_events he
  constructor
  · intro j
    rw [hworld]
    exact stays_home ho (consistent i j) (h.home j) out _
  · intro ev hev
    rw [hevents] at hev
    rcases List.mem_append.mp hev with hev | hev
    · exact h.stays ev hev
    · rw [List.mem_singleton.mp hev]
      exact ho

theorem safe_stays {α : Type} {p : Program α} (hp : p.AllOps (Stays (executions i)))
    (h : Inv executions s) : Safe out self executions i p (fun _ s' => Inv executions s') s :=
  Prog.safe_of_allOps (fun _ _ hr _ => hr)
    (fun _ ho _ _ _ hi he => ⟨inv_op consistent ho hi he, inv_op consistent ho hi he⟩) hp h

omit consistent in
theorem safe_then {α β : Type} {p : Program α} {f : α → Program β}
    (hp : Safe out self executions i p (fun _ s' => Inv executions s') s)
    (hf : ∀ a s', Inv executions s' →
      Safe out self executions i (f a) (fun _ s'' => Inv executions s'') s') :
    Safe out self executions i (p.bind f) (fun _ s' => Inv executions s') s := by
  apply (Prog.safe_bind _ _ _ _).mpr
  apply Prog.safe_post hp
  intro r s₁ h₁
  cases r with
  | ok a => exact hf a s₁ h₁
  | error error => exact h₁

omit consistent in
theorem safe_done {α β : Type} {p : Program α} {f : α → β}
    (hp : Safe out self executions i p (fun _ s' => Inv executions s') s) :
    Safe out self executions i (p.bind (fun a => Prog.ret (f a))) (fun _ s' => Inv executions s') s :=
  safe_then hp (fun _ _ h => h)

/-! The way of a call. -/

/-- Where a call is on its way: what it has found parked is at home. -/
def course (executions : Nat → Execution) (i : Nat) : Course Scene where
  idle := Inv executions
  named _ := Inv executions
  leased _ := Inv executions
  looked _ v s := Inv executions s ∧ ∀ active, AgentRuntime.liveSuspension v = some active →
    active.conversationId = (executions i).conversation
  clear _ := Inv executions
  decided _ active _ s := Inv executions s ∧
    active.conversationId = (executions i).conversation
  resuming _ active _ s := Inv executions s ∧
    active.conversationId = (executions i).conversation
  acted _ _ _ := Inv executions
  ends _ _ := Inv executions
  closes _ := Inv executions

theorem safe_step {α : Type} {p : Program α} {M : α → Scene → Prop}
    (hp : p.AllOps (Stays (executions i))) (h : Inv executions s)
    (hM : ∀ a s', Inv executions s' → M a s') :
    Safe out self executions i p (Prog.either M (fun _ => Inv executions)) s :=
  Prog.safe_either (safe_stays consistent hp h) hM (fun _ _ h => h)

/-- Looking for the continuation finds one at home. -/
theorem safe_look {t : Nat} : Safe out self executions i
    (perform (.ledger (.read (filedName (executions i)) Effects.activeSuspension)))
    ((course executions i).Inner t ((course executions i).looked t)) s := by
  apply (Prog.safe_op _ _ _).mpr
  intro s₁ h₁ r s₂ hexec
  have hread : Stays (executions i) (.ledger (.read (filedName (executions i))
      Effects.activeSuspension)) := .inl ⟨_, _, rfl⟩
  have h₂ : Inv executions s₂ := inv_op consistent hread h₁ hexec
  obtain ⟨-, -, hreply⟩ := exec_events hexec
  refine ⟨h₂, ?_⟩
  cases r with
  | error error => exact h₂
  | ok v =>
    refine ⟨h₂, ?_⟩
    intro active hactive
    exact h₁.home i active (Except.ok.inj hreply ▸ hactive)

theorem leases {rt : AgentRuntime} : Course.Leases (exec out self i)
    (fun _ s' => Inv executions s') (fun _ s' => Inv executions s') (course executions i) rt
    (executions i) (filedName (executions i)) where
  here := rfl
  fails _ _ h := h
  bare _ := ⟨fun _ h => h, fun _ _ h => h⟩
  names _ h := safe_step consistent (stays_op trivial) h (fun _ _ h => h)
  acquires _ _ h := safe_step consistent (stays_op (.inr ⟨rfl, trivial⟩)) h
    (fun _ _ h => ⟨fun _ => h, fun _ => h⟩)
  releases _ _ _ _ h := safe_step consistent (stays_op (.inr ⟨rfl, trivial⟩)) h (fun _ _ h => h)

/-- Every step of a call stays with its own branch. -/
theorem steps {t : Nat} {rt : AgentRuntime} {agent : Agent} (gathers : Gathers agent.toPydanticAI) :
    Course.Steps (exec out self i) (fun _ s' => Inv executions s')
      (fun _ s' => Inv executions s') (course executions i) rt (executions i)
      (filedName (executions i)) t agent where
  here := rfl
  leased_fails _ _ h := h
  looked_fails _ _ _ h := h.1
  clear_fails _ _ h := h
  decided_fails _ _ _ _ h := h.1
  attempts prompt options _ h :=
    safe_stays consistent (stays_attemptRun t gathers prompt options) h
  looks _ _ := safe_look consistent
  reads _ _ h _ := safe_step consistent (stays_op (.inl ⟨_, _, rfl⟩)) h.1 (fun _ _ h => h)
  again options _ h := safe_stays consistent (stays_attemptRun t gathers none options) h
  marks _ _ _ h := safe_step consistent (stays_op (.inr ⟨rfl, fun _ => h.2⟩)) h.1
    (fun _ _ h₁ => ⟨h₁, h.2⟩)
  acts active answers options _ h := by
    rw [Course.rejoined_home h.2]
    exact safe_step consistent (stays_attemptRun t gathers none options) h.1 (fun _ _ h => h)
  completes _ _ _ h := safe_step consistent (stays_op (.inr ⟨rfl, fun _ => trivial⟩)) h
    (fun _ _ h => h)

theorem keeps {rt : AgentRuntime} {agent : Agent} (gathers : Gathers agent.toPydanticAI) :
    Course.Keeps (exec out self i) (fun _ s' => Inv executions s')
      (fun _ s' => Inv executions s') (course executions i) rt (executions i)
      (filedName (executions i)) agent where
  toLeases := leases consistent
  peeks _ _ h := safe_step consistent stays_active h (fun _ _ h => h)
  queues _ _ _ _ h := safe_stays consistent (stays_queueBehind _ _ _) h
  steps _ := steps consistent gathers

theorem safe_resume {rt : AgentRuntime} {e : Execution} (he : executions i = e) (pendingId : String)
    (answer : Answer) {agent : Agent} (gathers : Gathers agent.toPydanticAI)
    (controls : Option String) (rules : String) (h : Inv executions s) :
    Safe out self executions i (rt.resume e pendingId answer agent controls rules)
      (fun _ s' => Inv executions s') s := by
  subst he
  refine (keeps consistent gathers).resume ?_ controls rules h
  intro t v active call s h hv _
  have hhome := h.2 active hv
  exact safe_step consistent (stays_op (.inr ⟨rfl, fun _ => hhome⟩)) h.1
    (fun _ _ h₁ => ⟨fun _ => ⟨h₁, hhome⟩, fun _ => h₁⟩)

theorem safe_recover {rt : AgentRuntime} {e : Execution} (he : executions i = e) {agent : Agent}
    (gathers : Gathers agent.toPydanticAI) (history : List ModelMessage)
    (controls : Option String) (rules : String) (h : Inv executions s) :
    Safe out self executions i (rt.recover e agent history controls rules)
      (fun _ s' => Inv executions s') s := by
  subst he
  exact (keeps consistent gathers).recover (fun _ _ active _ h hv _ => ⟨h.1, h.2 active hv⟩)
    history controls rules h

theorem safe_run {rt : AgentRuntime} {e : Execution} (he : executions i = e) {agent : Agent}
    (gathers : Gathers agent.toPydanticAI) (prompt : Option String) (options : Options)
    (h : Inv executions s) :
    Safe out self executions i (rt.run e agent prompt options) (fun _ s' => Inv executions s') s := by
  subst he
  exact (keeps consistent gathers).run prompt options h

/-- Every row of a table is safe, so the offer of a command to them is. -/
theorem safe_offer {rt : AgentRuntime} {e : Execution} (he : executions i = e) {command : Command}
    {state : Option String} {rows : List Transition}
    (hrows : ∀ row ∈ rows, ∀ s, Inv executions s → Safe out self executions i
      (row.apply command state) (fun _ s' => Inv executions s') s)
    (contended : Option Exn) (h : Inv executions s) :
    Safe out self executions i (Dispatch.offer rt e command state rows contended)
      (fun _ s' => Inv executions s') s := by
  induction rows generalizing contended s with
  | nil =>
    cases contended with
    | some error => exact h
    | none =>
      have hnamed : (Dispatch.named rt e state).AllOps (Stays e) := by
        unfold Dispatch.named
        split
        · trivial
        · exact stays_state
      exact safe_then (safe_stays consistent (he ▸ hnamed) h) (fun _ _ h₁ => h₁)
  | cons row rows ih =>
    have hrest : ∀ contended s, Inv executions s → Safe out self executions i
        (Dispatch.offer rt e command state rows contended) (fun _ s' => Inv executions s') s :=
      fun contended s h =>
        ih (fun row' hrow' => hrows row' (List.mem_cons_of_mem _ hrow')) contended h
    unfold Dispatch.offer
    split
    · apply (Prog.safe_tryCatch _ _ _ _).mpr
      apply Prog.safe_post (hrows row List.mem_cons_self s h)
      intro r s₁ h₁
      cases r with
      | ok applied => exact h₁
      | error error =>
        dsimp only
        split
        · exact hrest _ s₁ h₁
        · exact h₁
    · exact hrest _ s h

/-- Every row of the default table. -/
theorem safe_row {rt : AgentRuntime} {e : Execution} (he : executions i = e) {agent : Agent}
    (gathers : Gathers agent.toPydanticAI) (controls : Option String) (rules : String)
    (command : Command) (state : Option String) (row : Transition)
    (hrow : row ∈ Dispatch.defaultRouter rt e agent controls rules) (h : Inv executions s) :
    Safe out self executions i (row.apply command state) (fun _ s' => Inv executions s') s := by
  have hrun : ∀ prompt options, Safe out self executions i
      (do let outcome ← rt.run e agent prompt options; return Applied.outcome outcome)
      (fun _ s' => Inv executions s') s :=
    fun prompt options => safe_done (safe_run consistent he gathers prompt options h)
  simp only [Dispatch.defaultRouter, List.mem_cons, List.not_mem_nil, or_false] at hrow
  rcases hrow with rfl | rfl | rfl | rfl | rfl
  · cases command with
    | answer pendingId payload =>
      apply (Prog.safe_tryCatch _ _ _ _).mpr
      apply Prog.safe_post
        (safe_done (safe_resume consistent he pendingId payload gathers controls rules h))
      intro r s₁ h₁
      cases r with
      | ok applied => exact h₁
      | error error =>
        cases error with
        | lookupError =>
          have hnamed : (Dispatch.named rt e state).AllOps (Stays e) := by
            unfold Dispatch.named
            split
            · trivial
            · exact stays_state
          exact safe_then (safe_stays consistent (he ▸ hnamed) h₁) (fun _ _ h₂ => h₂)
        | _ => exact h₁
    | prompt | recover => exact h
  · have hhistory : (rt.committedHistory e).AllOps (Stays e) := by
      unfold AgentRuntime.committedHistory
      split
      · exact Prog.allOps_bind (stays_op trivial) (fun _ => trivial)
      · trivial
    apply safe_then (safe_stays consistent (he ▸ hhistory) h)
    intro history s₁ h₁
    exact safe_done (safe_recover consistent he gathers history controls rules h₁)
  · exact hrun _ _
  · cases command with
    | prompt text promptId => exact hrun _ _
    | answer | recover => exact h
  · cases command with
    | prompt text promptId =>
      have hclock : now.AllOps (Stays (executions i)) := stays_op trivial
      apply safe_then (safe_stays consistent hclock h)
      intro instant s₁ h₁
      exact safe_done (safe_stays consistent (he ▸ stays_submit _) h₁)
    | answer | recover => exact h

theorem safe_dispatch {rt : AgentRuntime} {e : Execution} (he : executions i = e) {agent : Agent}
    (gathers : Gathers agent.toPydanticAI) (command : Command) (controls : Option String)
    (rules : String) (h : Inv executions s) :
    Safe out self executions i (rt.dispatch e agent command controls rules)
      (fun _ s' => Inv executions s') s := by
  unfold AgentRuntime.dispatch
  split
  · have hobserve : ∀ candidates, (Dispatch.observe rt e candidates).AllOps (Stays e) := by
      intro candidates
      unfold Dispatch.observe
      split
      · exact Prog.allOps_bind stays_state (fun _ => trivial)
      · trivial
    apply safe_then (safe_stays consistent (he ▸ hobserve _) h)
    intro state s₁ h₁
    apply safe_offer consistent he _ none h₁
    intro row hrow s₂ h₂
    exact safe_row consistent he gathers controls rules command state row
      (List.mem_of_mem_filter hrow) h₂
  · exact h

/-- Every call stays with the branch it is made on. -/
theorem safe_caller (caller : Caller) (he : executions i = caller.execution)
    (h : Inv executions s) :
    Safe out self executions i caller.program (fun _ s' => Inv executions s') s := by
  obtain ⟨rt, e, work, plain⟩ := caller
  have he : executions i = e := he
  cases work with
  | renew owner ttl =>
    have hrenew : (perform (.ledger (.acquire (filedName e) owner ttl))).AllOps (Stays e) :=
      stays_op (.inr ⟨rfl, trivial⟩)
    subst he
    exact safe_done (safe_stays consistent hrenew h)
  | call entry =>
    have hplain := plain entry rfl
    cases entry with
    | run agent prompt options =>
      exact safe_done (safe_run consistent he hplain prompt options h)
    | fork src at_ agent prompt history regate options =>
      subst he
      refine safe_done ((keeps consistent hplain).fork ?_ ?_ prompt regate options h)
      · exact fun _ h => safe_step consistent (stays_forkHistory src at_ history) h (fun _ _ h => h)
      · exact fun t history _ h =>
          safe_step consistent (stays_copyRound src t history) h (fun _ _ h => h)
    | resume pendingId answer agent controls rules =>
      exact safe_done (safe_resume consistent he _ _ hplain _ _ h)
    | recover agent history controls rules =>
      exact safe_done (safe_recover consistent he hplain _ _ _ h)
    | submit item => exact safe_done (safe_stays consistent (he ▸ stays_submit item) h)
    | dispatch agent command controls rules =>
      exact safe_done (safe_dispatch consistent he hplain command controls rules h)

end

/-- Calls on branches of one ledger and one transcript, interleaved in any way and each stopping
wherever it does: every operation stays with its own execution. -/
theorem interleaved_stays {out : Outside} {self : Nat → Nat} {callers : Nat → Caller}
    {env : Scene → Scene → Prop}
    (consistent : ∀ i j, Consistent (callers i).execution (callers j).execution)
    (henv : ∀ s s', Inv (fun i => (callers i).execution) s → env s s' →
      Inv (fun i => (callers i).execution) s')
    {world : World} (home : ∀ i, Home (callers i).execution world) {attempts : Nat → Attempt}
    {pool : Nat → Program Unit} {s : Scene}
    (run : Interleaved (exec out self) env (fun i => (callers i).program) ⟨world, attempts, []⟩
      pool s) : Inv (fun i => (callers i).execution) s := by
  have hstart : Inv (fun i => (callers i).execution) (⟨world, attempts, []⟩ : Scene) :=
    ⟨home, by simp⟩
  have hcompatible : Compatible env (Inv (fun i => (callers i).execution))
      (fun (_ : Nat) _ s' => Inv (fun i => (callers i).execution) s')
      (fun (_ : Nat) _ s' => Inv (fun i => (callers i).execution) s')
      (fun _ (_ : Except Exn Unit) s' => Inv (fun i => (callers i).execution) s') := by
    constructor
    · exact fun _ _ h => h
    · exact fun _ _ _ _ _ h => h
    · exact fun _ _ _ _ _ h => h
    · exact fun _ _ _ _ h => h
    · exact fun _ _ _ _ _ _ h => h
    · exact fun s s' h move => ⟨henv s s' h move, fun _ => henv s s' h move⟩
  exact (interleaved_safe hcompatible hstart
    (fun i => safe_caller consistent (callers i) rfl hstart) run).1

end Semora.Proofs.Scopes
