import Semora.Proofs.Answers
import Semora.Proofs.Operations

/-! Calls that park, answer and finish rounds on one branch, each of them alone: what it writes
under the continuation key follows from what it has read there under its lease. -/

namespace Semora.Proofs.Answers
open Semora.Lib Semora.Store Semora.Transcript
open AgentRuntime (undecided callOf liveSuspension)
open Parked (Inv Calm Still Rely Knows Idle Blind cell live issued tokens bid)

/-- What a call is there for. -/
inductive Errand
  | run (prompt : Option String) (options : Options)
  | resume (pendingId : String) (payload : Answer) (controls : Option String)
      (rulesVersion : String)
  | recover (history : List ModelMessage) (controls : Option String) (rulesVersion : String)

/-- A call on the branch the ledger files under `b`, by a worker with a ledger. -/
structure Caller (b : String) where
  rt : AgentRuntime
  execution : Execution
  agent : Agent
  errand : Errand
  ledger : rt.executionStore = true
  here : View.filed ⟨execution.conversationId⟩ execution.branchId = b
  plain : Gathers agent.toPydanticAI

namespace Caller
variable {b : String} (c : Caller b)

def program : Program Outcome :=
  match c.errand with
  | .run prompt options => c.rt.run c.execution c.agent prompt options
  | .resume pendingId payload controls rulesVersion =>
    c.rt.resume c.execution pendingId payload c.agent controls rulesVersion
  | .recover history controls rulesVersion =>
    c.rt.recover c.execution c.agent history controls rulesVersion

/-- The answer the call brings. -/
def asks : Option (String × Answer) :=
  match c.errand with
  | .resume pendingId payload _ _ => some (pendingId, payload)
  | _ => none

end Caller

structure Guarantee (out : Outside) (b : String) (asks : Option (String × Answer)) (i : Nat)
    (s s' : Scene) : Prop where
  inv : Inv out b s'
  event : ∃ e, s'.events = s.events ++ [e] ∧ e.thread = i ∧
    Turn b asks (wrote b i s.events) e s s'
  later : issued b s ≤ issued b s'
  holder : cell b s' ≠ cell b s → issued b s ∈ tokens b i s.events

/-- The thread has this token and no other, and has written the continuation or not. -/
structure Under (out : Outside) (b : String) (i t : Nat) (before : Bool) (s : Scene) : Prop where
  inv : Inv out b s
  mine : tokens b i s.events = [t]
  before : wrote b i s.events = before

/-- As long as its token is the newest, the ledger holds `v` under the continuation key. -/
structure Sees (out : Outside) (b : String) (i t : Nat) (before : Bool) (v : Step Value)
    (s : Scene) : Prop extends Under out b i t before s where
  cell : issued b s = t → Parked.cell b s = v

/-- An operation of an attempt under this token: calm, or the commit of a parked round, which no
one has answered yet. -/
def Parks (b : String) (t : Nat) (o : Op) : Prop :=
  Calm b o ∨ ∃ items active, o = .ledger (.commitTransition b
    { controls := items ++ [(Effects.activeSuspension, .suspension active)] } t) ∧
      active.answers = []

section
variable {b : String} {i : Nat} {o : Op} {r : Except Exn o.Res}

theorem calm_writes (ho : Calm b o) : writes b ⟨i, o, r⟩ = none := by
  cases o with
  | ledger c =>
    cases c with
    | writeControl b' k value t =>
      cases value with
      | suspension active =>
        cases r with
        | ok u => exact if_neg (fun h => ho h.1 h.2)
        | error error => rfl
      | _ => rfl
    | _ => rfl
  | _ => rfl

theorem calm_concludes (ho : Calm b o) : concludes b ⟨i, o, r⟩ = false := by
  cases o with
  | ledger c =>
    cases c with
    | writeControl b' k value t =>
      cases value with
      | completed callId callIds =>
        cases r with
        | ok u => exact decide_eq_false (fun h => ho h.1 h.2)
        | error error => rfl
      | _ => rfl
    | commitTransition b' tr t =>
      cases r with
      | ok inserted => exact decide_eq_false (fun h => ho h.1)
      | error error => rfl
    | _ => rfl
  | _ => rfl

theorem wrote_append (events : List Event) : wrote b i (events ++ [⟨i, o, r⟩]) =
    (wrote b i events || (writes b ⟨i, o, r⟩).isSome) := by
  simp [wrote, log]

end

section
variable {out : Outside} {self : Nat → Nat} {b : String} {i t : Nat} {v : Step Value}
variable {asks : Option (String × Answer)} {before : Bool} {s s' : Scene}

theorem Under.still (h : Under out b i t before s) (hs : Still out b i s s')
    (hwrote : wrote b i s'.events = wrote b i s.events) : Under out b i t before s' :=
  ⟨hs.inv, hs.tokens.trans h.mine, hwrote.trans h.before⟩

theorem Sees.still (h : Sees out b i t before v s) (hs : Still out b i s s')
    (hwrote : wrote b i s'.events = wrote b i s.events) : Sees out b i t before v s' := by
  refine ⟨h.toUnder.still hs hwrote, ?_⟩
  intro ht
  obtain ⟨hissued, hcell⟩ := hs.kept t (by simp [h.mine]) ht
  exact hcell.trans (h.cell hissued)

theorem rely_wrote (h : Rely out b i s s') : wrote b i s'.events = wrote b i s.events := by
  unfold wrote
  rw [h.own]

theorem Under.rely (h : Under out b i t before s) (hr : Rely out b i s s') :
    Under out b i t before s' :=
  h.still (Parked.still_rely h.inv hr) (rely_wrote hr)

theorem Sees.rely (h : Sees out b i t before v s) (hr : Rely out b i s s') :
    Sees out b i t before v s' :=
  h.still (Parked.still_rely h.inv hr) (rely_wrote hr)

/-! Single operations. -/

theorem calm_turn {o : Op} {r : Except Exn o.Res} (ho : Calm b o) (hi : Inv out b s)
    (h : exec out self i o s r s') : Guarantee out b asks i s s' ∧ Still out b i s s' ∧
      wrote b i s'.events = wrote b i s.events := by
  obtain ⟨hevents, -, -⟩ := exec_events h
  obtain ⟨hstill, hissued, hcell⟩ := Parked.calm_still ho hi h
  refine ⟨⟨hstill.inv, ⟨_, hevents, rfl, .same hcell (calm_writes ho) (calm_concludes ho)⟩,
    Nat.le_of_eq hissued.symm, fun hne => absurd hcell hne⟩, hstill, ?_⟩
  rw [hevents, wrote_append, calm_writes ho]
  exact Bool.or_false _

/-- A write under the continuation key, by the one who has the token: where that is the newest, it
is what the ledger then holds, and otherwise it is refused. -/
theorem put_turn {value : Value} {r : Except Exn Unit} (h : Under out b i t before s)
    (he : exec out self i (.ledger (.writeControl b Effects.activeSuspension value t)) s r s')
    (hturn : issued b s = t → cell b s' = .done value → r = .ok () →
      Turn b asks before ⟨i, .ledger (.writeControl b Effects.activeSuspension value t), r⟩ s s') :
    Guarantee out b asks i s s' ∧ Inv out b s' ∧ tokens b i s'.events = [t] ∧
      (∀ u, r = .ok u → cell b s' = .done value) := by
  obtain ⟨hevents, -, -⟩ := exec_events he
  have hmine : t ∈ tokens b i s.events := by simp [h.mine]
  have hb : (Call.writeControl b Effects.activeSuspension value t).branchId = b := rfl
  obtain ⟨hinv, hissued, htokens, hcase⟩ := Parked.token_op hb rfl rfl h.inv hmine he
  rcases hcase with hcur | ⟨hstore, error, rfl⟩
  · obtain ⟨hok, hcell⟩ := Parked.newest_op hcur he
    refine ⟨⟨hinv, ⟨_, hevents, rfl, ?_⟩, Nat.le_of_eq hissued.symm, fun _ => hcur ▸ hmine⟩, hinv,
      htokens.trans h.mine, fun _ _ => hcell⟩
    rw [h.before]
    exact hturn hcur hcell hok
  · have hcell : cell b s' = cell b s := by
      unfold cell
      rw [hstore]
    refine ⟨⟨hinv, ⟨_, hevents, rfl, .same hcell ?_ ?_⟩, Nat.le_of_eq hissued.symm,
      fun hne => absurd hcell hne⟩, hinv, htokens.trans h.mine, fun u hu => by cases hu⟩
    · cases value <;> rfl
    · cases value <;> rfl

/-- What the commit of a parked round leaves under the continuation key. -/
theorem parked_cell {items : List (String × Value)} {active : Suspension} (hcur : issued b s = t)
    {r : Except Exn (List String)} (he : exec out self i (.ledger (.commitTransition b
      { controls := items ++ [(Effects.activeSuspension, .suspension active)] } t)) s r s') :
    (∃ inserted, r = .ok inserted) ∧ cell b s' = .done (.suspension active) := by
  obtain ⟨-, hworld, hreply⟩ := exec_events he
  have hfence : s.world.store.commitTransition b
      { controls := items ++ [(Effects.activeSuspension, .suspension active)] } t =
        (.ok [], MemorySteps.putAll b (items ++ [(Effects.activeSuspension, .suspension active)])
          s.world.store) :=
    MemorySteps.fenced_ok (.inr (Nat.le_of_eq hcur))
  refine ⟨⟨[], hreply.trans (congrArg (fun done => done.1.mapError Exn.store) hfence)⟩, ?_⟩
  unfold cell
  rw [hworld]
  refine (congrArg (fun done => done.2.read b Effects.activeSuspension) hfence).trans ?_
  simp [MemorySteps.putAll, MemorySteps.read, MemorySteps.step_put]

theorem parks_turn {o : Op} {r : Except Exn o.Res} (ho : Parks b t o)
    (h : Under out b i t before s) (he : exec out self i o s r s') :
    Guarantee out b asks i s s' ∧ Under out b i t before s' := by
  rcases ho with hcalm | ⟨items, active, rfl, hnone⟩
  · obtain ⟨hg, hstill, hwrote⟩ := calm_turn hcalm h.inv he
    exact ⟨hg, h.still hstill hwrote⟩
  · obtain ⟨hevents, -, -⟩ := exec_events he
    have hmine : t ∈ tokens b i s.events := by simp [h.mine]
    have hb : (Call.commitTransition b { controls := items ++
      [(Effects.activeSuspension, .suspension active)] } t : Call Value).branchId = b := rfl
    obtain ⟨hinv, hissued, htokens, hcase⟩ := Parked.token_op hb rfl rfl h.inv hmine he
    have hquiet : writes b ⟨i, .ledger (.commitTransition b { controls := items ++
        [(Effects.activeSuspension, .suspension active)] } t), r⟩ = none := rfl
    have hunder : Under out b i t before s' := by
      refine ⟨hinv, htokens.trans h.mine, ?_⟩
      rw [hevents, wrote_append, hquiet, h.before]
      exact Bool.or_false _
    refine ⟨⟨hinv, ⟨_, hevents, rfl, ?_⟩, Nat.le_of_eq hissued.symm, ?_⟩, hunder⟩
    · rcases hcase with hcur | ⟨hstore, error, rfl⟩
      · obtain ⟨⟨inserted, rfl⟩, hcell⟩ := parked_cell hcur he
        refine .conclude (by simp [concludes]) ?_
        intro parked hlive
        unfold live at hlive
        rw [hcell] at hlive
        cases hlive
        exact hnone
      · refine .same ?_ rfl rfl
        unfold cell
        rw [hstore]
    · intro hne
      rcases hcase with hcur | ⟨hstore, -⟩
      · exact hcur ▸ hmine
      · refine absurd ?_ hne
        unfold cell
        rw [hstore]

end

/-! Programs. -/

abbrev Safe (out : Outside) (self : Nat → Nat) (b : String) (asks : Option (String × Answer))
    (i : Nat) {α : Type} (p : Program α) (Q : Except Exn α → Scene → Prop) (s : Scene) : Prop :=
  Prog.safe (exec out self i) (Rely out b i) (Guarantee out b asks i) p Q s

section
variable {out : Outside} {self : Nat → Nat} {b : String} {i t : Nat} {v : Step Value}
variable {asks : Option (String × Answer)} {before : Bool} {s s' : Scene}

theorem safe_calm {α : Type} {p : Program α} (hp : p.AllOps (Calm b)) (hi : Inv out b s) :
    Safe out self b asks i p (fun _ s' => Still out b i s s' ∧
      wrote b i s'.events = wrote b i s.events) s := by
  refine Prog.safe_of_allOps ?_ ?_ hp
    (⟨Parked.still_refl hi, rfl⟩ : Still out b i s s ∧ wrote b i s.events = wrote b i s.events)
  · intro s₁ s₂ hr h
    exact ⟨Parked.still_trans h.1 (Parked.still_rely h.1.inv hr), (rely_wrote hr).trans h.2⟩
  · intro o ho s₁ r s₂ h he
    obtain ⟨hg, hstill, hwrote⟩ := calm_turn ho h.1.inv he
    exact ⟨hg, Parked.still_trans h.1 hstill, hwrote.trans h.2⟩

theorem safe_parks {α : Type} {p : Program α} (hp : p.AllOps (Parks b t))
    (h : Under out b i t before s) :
    Safe out self b asks i p (fun _ s' => Under out b i t before s') s := by
  refine Prog.safe_of_allOps ?_ ?_ hp h
  · intro s₁ s₂ hr h₁
    exact h₁.rely hr
  · intro o ho s₁ r s₂ h₁ he
    exact parks_turn ho h₁ he

/-- Looking for the continuation. -/
theorem safe_look (h : Under out b i t before s) :
    Safe out self b asks i (perform (.ledger (.read b Effects.activeSuspension)))
      (fun r s' => Under out b i t before s' ∧ ∀ v, r = .ok v → Sees out b i t before v s') s := by
  apply (Prog.safe_op _ _ _).mpr
  intro s₁ hr r s₂ he
  have hcalm : Calm b (.ledger (.read b Effects.activeSuspension)) := fun _ => trivial
  have h₁ := h.rely hr
  obtain ⟨hg, hstill, hwrote⟩ := calm_turn hcalm h₁.inv he
  have h₂ := h₁.still hstill hwrote
  refine ⟨hg, h₂, ?_⟩
  intro v hv
  obtain ⟨-, hworld, hreply⟩ := exec_events he
  subst hv
  cases hreply
  refine ⟨h₂, fun _ => ?_⟩
  unfold cell
  rw [hworld]
  rfl

/-- The answer, written to the continuation one has read. -/
theorem safe_answer {active : Suspension} {pendingId : String} {payload : Answer}
    {call : ToolCall} (h : Sees out b i t false v s) (hv : liveSuspension v = some active)
    (hcall : callOf active pendingId = some call) (hasks : asks = some (pendingId, payload)) :
    Safe out self b asks i (perform (.ledger (.writeControl b Effects.activeSuspension
        (.suspension (answered active call payload)) t)))
      (fun r s' => Inv out b s' ∧ ∀ u, r = .ok u →
        Sees out b i t true (.done (.suspension (answered active call payload))) s') s := by
  apply (Prog.safe_op _ _ _).mpr
  intro s₁ hr r s₂ he
  have h₁ := h.rely hr
  obtain ⟨hg, hinv, htokens, hcell⟩ := put_turn h₁.toUnder he (by
    intro hcur hcell hok
    subst hok
    refine .answer active pendingId payload call hasks rfl ?_ hcall (if_pos ⟨rfl, rfl⟩) ?_
    · unfold live
      rw [h₁.cell hcur]
      exact hv
    · unfold live
      rw [hcell]
      rfl)
  refine ⟨hg, hinv, ?_⟩
  intro u hu
  obtain ⟨hevents, -, -⟩ := exec_events he
  subst hu
  refine ⟨⟨hinv, htokens, ?_⟩, fun _ => hcell u rfl⟩
  rw [hevents, wrote_append]
  simp [writes]

/-- The write a finalization begins with. -/
theorem safe_resuming {active : Suspension} (h : Sees out b i t before v s)
    (hv : liveSuspension v = some active) (hdecided : undecided active = [])
    (hlater : asks = none ∨ before = true) :
    Safe out self b asks i (perform (.ledger (.writeControl b Effects.activeSuspension
        (.suspension (resuming active)) t)))
      (fun r s' => Inv out b s' ∧ ∀ u, r = .ok u → Under out b i t true s') s := by
  apply (Prog.safe_op _ _ _).mpr
  intro s₁ hr r s₂ he
  have h₁ := h.rely hr
  obtain ⟨hg, hinv, htokens, -⟩ := put_turn h₁.toUnder he (by
    intro hcur hcell hok
    subst hok
    refine .resume active hlater ?_ hdecided (if_pos ⟨rfl, rfl⟩) ?_
    · unfold live
      rw [h₁.cell hcur]
      exact hv
    · unfold live
      rw [hcell]
      rfl)
  refine ⟨hg, hinv, ?_⟩
  intro u hu
  obtain ⟨hevents, -, -⟩ := exec_events he
  subst hu
  refine ⟨hinv, htokens, ?_⟩
  rw [hevents, wrote_append]
  simp [writes]

/-- The write a finalization ends with. -/
theorem safe_completed {callId : String} {callIds : List String}
    (h : Under out b i t before s) :
    Safe out self b asks i (perform (.ledger (.writeControl b Effects.activeSuspension
        (.completed callId callIds) t)))
      (fun _ s' => Inv out b s') s := by
  apply (Prog.safe_op _ _ _).mpr
  intro s₁ hr r s₂ he
  obtain ⟨hg, hinv, -, -⟩ := put_turn (h.rely hr) he (by
    intro _ hcell hok
    subst hok
    refine .conclude (decide_eq_true ⟨rfl, rfl⟩) ?_
    intro active hlive
    unfold live at hlive
    rw [hcell] at hlive
    cases hlive)
  exact ⟨hg, hinv⟩

end

/-! The calls. -/

section
variable {b : String} {t : Nat} (rt : AgentRuntime) (e : Execution)

theorem parks_of_harmless {α : Type} {p : Program α} (hp : p.AllOps (Parked.Harmless b)) :
    p.AllOps (Parks b t) := hp.mono (fun _ h => .inl h.1)

theorem parks_attemptRun {agent : Agent} (gathers : Gathers agent.toPydanticAI)
    (prompt : Option String) (options : Options) :
    (rt.attemptRun e t agent prompt options).AllOps (Parks b t) := by
  have hbegin : (update (fun _ => {})).AllOps (Parks b t) := (Prog.allOps_op _).mpr (.inl trivial)
  have hpark : ∀ requests, (rt.park e e.conversation (rt.effectsOf e t agent options) requests t :
      Program Outcome).AllOps (Parks b t) := by
    intro requests
    apply allOps_park_writes
    · exact .inl trivial
    · exact fun _ _ => .inl trivial
    · intro v _ first continuation
      by_cases hb : v.filed e.branchId = b
      · rw [hb]
        exact .inr ⟨_, _, rfl, rfl⟩
      · exact .inl (fun hc => absurd hc hb)
  apply Prog.allOps_bind hbegin
  intro _
  apply Prog.allOps_bind (parks_of_harmless (Parked.harmless_openBranch rt e _))
  intro history
  apply Prog.allOps_bind (parks_of_harmless
    (Parked.harmless_within (within_admitPrompt rt e t agent options _ _)))
  intro prompt
  apply Prog.allOps_bind (parks_of_harmless (Parked.harmless_within (within_run gathers _ _ _)))
  intro output
  apply Prog.allOps_bind (parks_of_harmless
    (Parked.harmless_within (within_replaceFinal rt e t agent options)))
  intro _
  cases output with
  | deferred requests => exact hpark requests
  | text content => exact parks_of_harmless (Parked.harmless_close rt e _)
  | value value => exact parks_of_harmless (Parked.harmless_close rt e _)

end

section
variable {out : Outside} {self : Nat → Nat} {b : String} {i t : Nat} {v : Step Value}
variable {asks : Option (String × Answer)} {before : Bool} {s s' : Scene}
variable {rt : AgentRuntime} {e : Execution} {agent : Agent}

/-- A thread that has not asked for the lease, and so has written nothing. -/
structure Fresh (out : Outside) (b : String) (i : Nat) (s : Scene) : Prop extends
    Idle out b i s where
  before : wrote b i s.events = false

theorem Fresh.still (h : Fresh out b i s) (hs : Still out b i s s')
    (hwrote : wrote b i s'.events = wrote b i s.events) : Fresh out b i s' :=
  ⟨h.toIdle.still hs, hwrote.trans h.before⟩

/-- Asking for the lease under an identifier of one's own. -/
theorem safe_acquire {owner : String} {ttl : ℚ} (h : Fresh out b i s)
    (howner : ∃ e ∈ log i s.events, Parked.handed e = some owner) (hnonempty : owner ≠ "") :
    Safe out self b asks i (perform (.ledger (.acquire b owner ttl)))
      (fun r s' => Inv out b s' ∧ ∀ t, r = .ok t → t ≠ 0 → Under out b i t false s') s := by
  apply (Prog.safe_op _ _ _).mpr
  intro s₁ hr r s₂ he
  have h₁ := h.still (Parked.still_rely h.inv hr) (rely_wrote hr)
  rw [← hr.own] at howner
  obtain ⟨hevents, hworld, -⟩ := exec_events he
  have hcell : cell b s₂ = cell b s₁ := by
    unfold cell
    rw [hworld]
    exact Parked.acquire_cell out _ _ _ _
  obtain ⟨hinv, hlater, hblind⟩ := Parked.acquire_op h₁.toIdle howner hnonempty he
  refine ⟨⟨hinv, ⟨_, hevents, rfl, .same hcell rfl rfl⟩, hlater, fun hne => absurd hcell hne⟩, hinv,
    ?_⟩
  intro t ht hpos
  refine ⟨hinv, (hblind t ht hpos).1.mine, ?_⟩
  rw [hevents, wrote_append, h₁.before]
  rfl

/-- Where a call is on its way, and whether it has written: a call that brings an answer takes the
continuation up only behind it. -/
def course (out : Outside) (b : String) (asks : Option (String × Answer)) (i : Nat) :
    Course Scene where
  idle := Fresh out b i
  named owner s := Fresh out b i s ∧ (∃ e ∈ log i s.events, Parked.handed e = some owner) ∧
    owner ≠ ""
  leased t := Under out b i t false
  looked t v := Sees out b i t false v
  clear t := Under out b i t false
  decided t active answers s := undecided { active with answers } = [] ∧
    ∃ v before, liveSuspension v = some { active with answers } ∧ Sees out b i t before v s ∧
      (asks = none ∨ before = true)
  resuming t _ _ := Under out b i t true
  acted t _ _ := Under out b i t true
  ends _ _ := Inv out b
  closes _ := Inv out b

theorem safe_name (h : Fresh out b i s) : Safe out self b asks i (perform .uuid4)
    ((course out b asks i).Outer (course out b asks i).named) s := by
  apply (Prog.safe_op _ _ _).mpr
  intro s₁ hr r s₂ he
  have h₁ := h.still (Parked.still_rely h.inv hr) (rely_wrote hr)
  have hcalm : Calm b .uuid4 := trivial
  obtain ⟨hg, hstill, hwrote⟩ := calm_turn hcalm h₁.inv he
  refine ⟨hg, ?_⟩
  cases r with
  | error error => exact hstill.inv
  | ok owner => exact ⟨h₁.still hstill hwrote, Parked.handed_uuid4 he⟩

theorem leases (hledger : rt.executionStore = true)
    (hb : View.filed ⟨e.conversationId⟩ e.branchId = b) :
    Course.Leases (exec out self i) (Rely out b i) (Guarantee out b asks i) (course out b asks i)
      rt e b where
  here := hb
  fails _ _ h := h.inv
  bare h := by simp [hledger] at h
  names _ := safe_name
  acquires owner s h := by
    obtain ⟨hfresh, hhanded, hnonempty⟩ := h
    exact Prog.safe_either (safe_acquire hfresh hhanded hnonempty)
      (fun t _ h => ⟨h.2 t rfl, fun _ => h.1⟩) (fun _ _ h => h.1)
  releases owner t r s h := by
    have hcalm : (perform (.ledger (.release b owner))).AllOps (Calm b) :=
      (Prog.allOps_op _).mpr (fun _ => trivial)
    exact Prog.safe_either (safe_calm hcalm h) (fun _ _ h => h.1.inv) (fun _ _ h => h.1.inv)

/-- Every step of a call writes to the continuation only what it may. -/
theorem steps (hb : View.filed ⟨e.conversationId⟩ e.branchId = b)
    (gathers : Gathers agent.toPydanticAI) :
    Course.Steps (exec out self i) (Rely out b i) (Guarantee out b asks i) (course out b asks i)
      rt e b t agent where
  here := hb
  leased_fails _ _ h := h.inv
  looked_fails _ _ _ h := h.inv
  clear_fails _ _ h := h.inv
  decided_fails _ _ _ _ h := h.2.elim (fun _ h => h.elim (fun _ h => h.2.1.inv))
  attempts prompt options s h := Prog.safe_post
    (safe_parks (parks_attemptRun rt e gathers prompt options) h) (fun _ _ h => h.inv)
  looks s h := Prog.safe_either (safe_look h) (fun v _ h => h.2 v rfl) (fun _ _ h => h.1.inv)
  reads v s h _ := by
    have hread : (perform (.ledger (.read b Effects.pendingRound))).AllOps (Parks b t) :=
      (Prog.allOps_op _).mpr (.inl (fun _ => trivial))
    exact Prog.safe_either (safe_parks hread h.toUnder) (fun _ _ h => h) (fun _ _ h => h.inv)
  again options s h := Prog.safe_post
    (safe_parks (parks_attemptRun rt e gathers none options) h) (fun _ _ h => h.inv)
  marks active answers s h := by
    obtain ⟨hdecided, v, before, hv, hsees, hlater⟩ := h
    exact Prog.safe_either (safe_resuming hsees hv hdecided hlater) (fun u _ h => h.2 u rfl)
      (fun _ _ h => h.1)
  acts active answers options s h := Prog.safe_either
    (safe_parks (parks_attemptRun rt _ gathers none options) h) (fun _ _ h => h)
    (fun _ _ h => h.inv)
  completes active outcome s h :=
    Prog.safe_either (safe_completed h) (fun _ _ h => h) (fun _ _ h => h)

theorem keeps (hledger : rt.executionStore = true)
    (hb : View.filed ⟨e.conversationId⟩ e.branchId = b) (gathers : Gathers agent.toPydanticAI) :
    Course.Keeps (exec out self i) (Rely out b i) (Guarantee out b asks i) (course out b asks i)
      rt e b agent where
  toLeases := leases hledger hb
  peeks _ s h := by
    have hactive : (rt.active e).AllOps (Calm b) :=
      (Parked.harmless_active rt e).mono (fun _ h => h.1)
    exact Prog.safe_either (safe_calm hactive h.inv) (fun _ _ h₁ => h.still h₁.1 h₁.2)
      (fun _ _ h₁ => h₁.1.inv)
  queues active text promptId s h := by
    have hqueue : (rt.queueBehind e active text promptId : Program Outcome).AllOps (Calm b) :=
      (Parked.harmless_queueBehind rt e _ _ _).mono (fun _ h => h.1)
    exact Prog.safe_post (safe_calm hqueue h.inv) (fun _ _ h => h.1.inv)
  steps _ := steps hb gathers

/-- Every call, whatever it is there for. -/
theorem safe_caller (c : Caller b) (h : Fresh out b i s) :
    Safe out self b c.asks i c.program (fun _ s' => Inv out b s') s := by
  obtain ⟨rt, e, agent, errand, hledger, hb, gathers⟩ := c
  cases errand with
  | run prompt options => exact (keeps hledger hb gathers).run prompt options h
  | resume pendingId payload controls rules =>
    refine (keeps hledger hb gathers).resume ?_ controls rules h
    intro t v active call s h hv hcall
    refine Prog.safe_either (safe_answer h hv hcall rfl) ?_ (fun _ _ h => h.1)
    intro u s₁ h₁
    exact ⟨fun hdecided => ⟨hdecided, _, true, rfl, h₁.2 u rfl, .inr rfl⟩, fun _ => h₁.1⟩
  | recover history controls rules =>
    refine (keeps hledger hb gathers).recover ?_ history controls rules h
    exact fun t v active s h hv hdecided => ⟨hdecided, v, false, hv, h, .inl rfl⟩

/-! Together. -/

theorem rely_guarantee {j : Nat} (hij : i ≠ j) (h : Inv out b s)
    (hg : Guarantee out b asks i s s') : Rely out b j s s' := by
  obtain ⟨e, hevents, hthread, -⟩ := hg.event
  exact Parked.rely_step hij h hg.inv hevents hthread hg.later hg.holder

theorem compatible (out : Outside) (b : String) (asks : Nat → Option (String × Answer)) :
    Compatible (Parked.Elsewhere out b)
      (fun s => Inv out b s ∧ Faithful b asks s ∧ Recorded b asks s) (Rely out b) (fun i => Guarantee out b (asks i) i) (fun _ (_ : Except Exn Outcome) _ => True) where
  refl i s h := Parked.rely_refl h.1 i
  trans i _ _ _ h h' := Parked.rely_trans h h'
  stable := by simp
  keeps := by
    intro i s s' h hg
    obtain ⟨e, hevents, hthread, hturn⟩ := hg.event
    subst hthread
    have hfaithful := faithful_step h.2.1 hevents hturn
    exact ⟨hg.inv, hfaithful,
      recorded_step h.2.2 hfaithful hevents (fun _ => hturn.written)⟩
  other i j s s' hij h hg := rely_guarantee hij h.1 hg
  env := by
    intro s s' h move
    have hrely := Parked.rely_elsewhere h.1 move
    obtain ⟨hevents, hcell⟩ := Parked.elsewhere_same move
    have hlive : live b s' = live b s := congrArg liveSuspension hcell
    refine ⟨⟨(hrely 0).inv, ⟨?_, ?_⟩, ?_⟩, hrely⟩
    · intro active pendingId payload hdistinct hlatest
      rw [hevents] at hlatest
      rw [hlive]
      exact h.2.1.kept active pendingId payload hdistinct hlatest
    · intro active hparked
      rw [hlive] at hparked
      rw [hevents]
      exact h.2.1.origin active hparked
    · unfold Recorded
      rw [hevents]
      exact h.2.2

end

/-- Whoever calls, and however the calls interleave, the answers held are those accepted last. -/
theorem run_faithful {out : Outside} {self : Nat → Nat} {b : String} (callers : Nat → Caller b)
    {attempts : Nat → Attempt} {pool : Nat → Program Outcome} {s : Scene}
    (run : Interleaved (exec out self) (Parked.Elsewhere out b) (fun i => (callers i).program)
      ⟨{}, attempts, []⟩ pool s) :
    Faithful b (fun i => (callers i).asks) s ∧ Recorded b (fun i => (callers i).asks) s := by
  have hstart : Inv out b (⟨{}, attempts, []⟩ : Scene) := by
    constructor <;> simp [tokens, log]
  have hfresh : ∀ i, Fresh out b i (⟨{}, attempts, []⟩ : Scene) :=
    fun i => ⟨⟨hstart, by simp [log]⟩, rfl⟩
  have hrecorded : Recorded b (fun i => (callers i).asks) ⟨{}, attempts, []⟩ := by
    intro k e active hk
    cases hk
  exact (interleaved_safe (compatible out b _) ⟨hstart, faithful_start rfl rfl, hrecorded⟩
    (fun i => Prog.safe_post (safe_caller (callers i) (hfresh i)) (fun _ _ _ => trivial)) run).1.2

end Semora.Proofs.Answers
