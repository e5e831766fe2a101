import Semora.Scene

/-! What becomes of a call whose step was started and never reported. -/

namespace Semora.Proofs.InDoubt
open Semora.Lib Semora.Store
open ToolDecision (denies)

/-- The model is given an answer for the call: a result, a refusal, or a request to retry. -/
def answered : CallOutcome → Bool
  | .approval _ | .deferred => false
  | _ => true

/-- Whether a call came back with an answer; one that ended the attempt did not. -/
def isAnswered : Except Exn (ToolCall × CallOutcome) → Bool
  | .ok (_, outcome) => answered outcome
  | .error _ => false

/-- Signals of a control point that Pydantic AI turns into an answer. -/
def answers : Exn → Bool
  | .skipToolExecution _ | .modelRetry _ | .toolFailed _ => true
  | _ => false

/-- Whether a control point's reply is a refusal the model gets to see. -/
def refuses : Except Exn ToolDecision → Bool
  | .ok (.deny _) => true
  | .ok _ => false
  | .error e => answers e

/-- The reply of `pre_tool_use` or `on_resume`. -/
def decision? : Event → Option (Except Exn ToolDecision)
  | ⟨_, .ask _ (.preToolUse ..), r⟩ => some r
  | ⟨_, .ask _ (.onResume ..), r⟩ => some r
  | _ => none

/-- The attempt's objects as the thread last read them. -/
def seen? : Event → Option Attempt
  | ⟨_, .get, .ok a⟩ => some a
  | _ => none

/-- What the control plane said of the call: to go on, if it was not asked. -/
def decided (events : List Event) : Except Exn ToolDecision :=
  (events.filterMap decision?).getLast?.getD (.ok .continue)

/-- The attempt's objects when the gate decided. -/
def seen (events : List Event) : Attempt := (events.filterMap seen?).getLast?.getD {}

/-- The control plane refuses the call, or the gate holds it back behind a suspension. -/
def Denied (approved : Bool) (call : ToolCall) (events : List Event) : Prop :=
  refuses (decided events) ∨ (approved = false ∧ decided events = .ok .continue ∧
    (seen events).suspendedThisRound ∧ call.toolName ∉ (seen events).approvalTools)

/-- The call is refused: by the person asked, by Pydantic AI because of its arguments, by the
control plane, or by the gate because an earlier call of the round is suspended. -/
def Refused (ai : PydanticAI) (call : ToolCall) (approval : Option Approval)
    (events : List Event) : Prop :=
  match approval with
  | some (.denied _) => True
  | some (.approved override) => (ai.validate call override).isOk = false ∨ Denied true call events
  | none => (ai.validate call none).isOk = false ∨ Denied false call events

def running (w : World) (key : String × String) : Prop :=
  w.store.entries.get? key = some .running

/-- Everything else that happens meanwhile, as long as it leaves the steps in doubt running. -/
def Meanwhile (doubt : Set (String × String)) (s s' : Scene) : Prop :=
  s'.events = s.events ∧ ∀ key ∈ doubt, running s.world key → running s'.world key

/-- The step a call of this attempt is filed under. -/
def keyOf (eff : Effects) (v : View) (call : ToolCall) : String × String :=
  (v.filed eff.branchId, Effects.stepKey call.toolCallId)

section
variable (out : Outside) (self : Nat → Nat) (doubt : Set (String × String)) (i : Nat)

def AllRunning (s : Scene) : Prop := ∀ key ∈ doubt, running s.world key

def Rely (s s' : Scene) : Prop := AllRunning doubt s' ∧ log i s'.events = log i s.events

def Guarantee (s s' : Scene) : Prop :=
  AllRunning doubt s' ∧ ∀ j, j ≠ i → log j s'.events = log j s.events

abbrev Safe {α : Type} (p : Program α) (Q : Except Exn α → Scene → Prop) (s : Scene) : Prop :=
  Prog.safe (exec out self i) (Rely doubt i) (Guarantee doubt i) p Q s

/-- An operation that overwrites or removes no step in doubt. -/
def Sparing : Op → Prop
  | .ledger (.finishEffect b k ..) | .ledger (.writeControl b k ..) | .ledger (.forget b k ..) =>
    (b, k) ∉ doubt
  | .ledger (.commitTransition ..) => False
  | _ => True

/-- An operation that tells the thread nothing about policy or the attempt's objects. -/
def Silent : Op → Prop
  | .get | .ask _ (.preToolUse ..) | .ask _ (.onResume ..) => False
  | _ => True

end

theorem running_step {doubt : Set (String × String)} (out : Outside) {o : Op} (w : World)
    (a : Attempt) (ho : Sparing doubt o) {key : String × String} (hk : key ∈ doubt)
    (h : running w key) : running (step out o w a).2.1 key := by
  cases o with
  | ledger c =>
    obtain ⟨b, k⟩ := key
    have htouch := exec_touch c (out.clock w.instant) (out.clock (w.instant + 1)) w.store b k
    unfold running at h ⊢
    rw [h] at htouch
    simp only [step]
    generalize (c.exec (out.clock w.instant) (out.clock (w.instant + 1)) w.store).2.entries.get?
      (b, k) = st at htouch ⊢
    cases htouch with
    | same => rfl
    | finish v t hc =>
      subst hc
      exact absurd hk ho
    | control _ v t hc =>
      subst hc
      exact absurd hk ho
    | forget _ t hc =>
      subst hc
      exact absurd hk ho
    | transition _ tr v t hc =>
      subst hc
      exact ho.elim
  | _ => exact h

section
variable {out : Outside} {self : Nat → Nat} {doubt : Set (String × String)} {i : Nat}
variable {s s' : Scene} {eff : Effects} {v : View} {call : ToolCall}

/-- An operation that spares the steps in doubt leaves them in doubt. -/
theorem sparing_op {o : Op} {r : Except Exn o.Res} (ho : Sparing doubt o) (hi : AllRunning doubt s)
    (h : exec out self i o s r s') : Guarantee doubt i s s' := by
  obtain ⟨hevents, hworld, -⟩ := exec_events h
  refine ⟨?_, log_other hevents⟩
  intro key hk
  rw [hworld]
  exact running_step out _ _ ho hk (hi key hk)

/-- A sparing program, whatever it learns. -/
theorem safe_sparing {α : Type} {p : Program α} (hp : p.AllOps (Sparing doubt))
    (hi : AllRunning doubt s) : Safe out self doubt i p (fun _ s' => AllRunning doubt s') s := by
  refine Prog.safe_of_allOps ?_ ?_ hp hi
  · intro a b hr _
    exact hr.1
  · intro o ho a r b ha h
    have hg := sparing_op ho ha h
    exact ⟨hg, hg.1⟩

theorem decided_append {l : List Event} {e : Event} (h : decision? e = none) :
    decided (l ++ [e]) = decided l := by
  simp [decided, h]

theorem decided_reply {l : List Event} {e : Event} {r : Except Exn ToolDecision}
    (h : decision? e = some r) : decided (l ++ [e]) = r := by
  simp [decided, h]

theorem seen_append {l : List Event} {e : Event} (h : seen? e = none) :
    seen (l ++ [e]) = seen l := by
  simp [seen, h]

theorem silent_event {o : Op} {r : Except Exn o.Res} (ho : Silent o) :
    decision? ⟨i, o, r⟩ = none ∧ seen? ⟨i, o, r⟩ = none := by
  cases o with
  | get => exact ho.elim
  | ask plane q => cases q <;> first | exact ho.elim | exact ⟨rfl, rfl⟩
  | _ => exact ⟨rfl, rfl⟩

/-- What the thread has learnt: the control plane's reply, and the attempt's objects. -/
structure Learnt (doubt : Set (String × String)) (i : Nat) (d : Except Exn ToolDecision)
    (a : Attempt) (s : Scene) : Prop where
  doubt : AllRunning doubt s
  decided : decided (log i s.events) = d
  seen : seen (log i s.events) = a

variable {d : Except Exn ToolDecision} {a : Attempt}

theorem Learnt.rely (h : Learnt doubt i d a s) (hr : Rely doubt i s s') :
    Learnt doubt i d a s' :=
  ⟨hr.1, by rw [hr.2]; exact h.decided, by rw [hr.2]; exact h.seen⟩

/-- One operation, with what it adds to the thread's log. -/
theorem safe_perform {o : Op} {Q : Except Exn o.Res → Scene → Prop} (ho : Sparing doubt o)
    (h : Learnt doubt i d a s)
    (hQ : ∀ r s₁ s₂, Learnt doubt i d a s₁ → exec out self i o s₁ r s₂ → AllRunning doubt s₂ →
      log i s₂.events = log i s₁.events ++ [⟨i, o, r⟩] → Q r s₂) :
    Safe out self doubt i (perform o) Q s := by
  refine (Prog.safe_op _ _ _).mpr ?_
  intro s₁ hr r s₂ he
  have hlearnt := h.rely hr
  have hg := sparing_op ho hlearnt.doubt he
  exact ⟨hg, hQ r s₁ s₂ hlearnt he hg.1 (log_mine (exec_events he).1)⟩

/-- A silent program teaches nothing. -/
theorem safe_silent {α : Type} {p : Program α} (hp : p.AllOps (fun o => Sparing doubt o ∧ Silent o))
    (h : Learnt doubt i d a s) : Safe out self doubt i p (fun _ s' => Learnt doubt i d a s') s := by
  refine Prog.safe_of_allOps ?_ ?_ hp h
  · intro s₁ s₂ hr h₁
    exact h₁.rely hr
  · intro o ho s₁ r s₂ h₁ he
    have hg := sparing_op ho.1 h₁.doubt he
    have hlog := log_mine (exec_events he).1
    obtain ⟨hd, hs⟩ := silent_event (i := i) (r := r) ho.2
    exact ⟨hg, hg.1, by rw [hlog, decided_append hd]; exact h₁.decided,
      by rw [hlog, seen_append hs]; exact h₁.seen⟩

theorem safe_attempt (h : Learnt doubt i d a s) :
    Safe out self doubt i attempt (fun r s' => ∃ a', r = .ok a' ∧ Learnt doubt i d a' s') s := by
  refine safe_perform trivial h ?_
  intro r s₁ s₂ h₁ he hd hlog
  have hr : r = .ok (s₁.attempts (self i)) := (exec_events he).2.2
  subst hr
  refine ⟨_, rfl, hd, ?_, ?_⟩
  · rw [hlog, decided_append rfl]
    exact h₁.decided
  · rw [hlog]
    simp [InDoubt.seen, seen?]

/-- Asking the control plane about the call. -/
theorem safe_ask {plane : String} {q : Question} (hq : q.Reply = ToolDecision)
    (hdecides : ∀ r : Except Exn q.Reply, decision? ⟨i, .ask plane q, r⟩ = some (hq ▸ r))
    (hseen : ∀ r, seen? ⟨i, .ask plane q, r⟩ = none) (h : Learnt doubt i d a s) :
    Safe out self doubt i (Effects.ask plane q)
      (fun r s' => Learnt doubt i (hq ▸ r) a s') s := by
  refine safe_perform trivial h ?_
  intro r s₁ s₂ h₁ he hd hlog
  refine ⟨hd, ?_, ?_⟩
  · rw [hlog, decided_reply (hdecides r)]
  · rw [hlog, seen_append (hseen r)]
    exact h₁.seen

variable (hstore : eff.store = some v) (hkey : keyOf eff v call ∈ doubt)
include hstore hkey

/-- A step in doubt is read as running. -/
theorem safe_readStep (h : Learnt doubt i d a s) :
    Safe out self doubt i (eff.readStep (Effects.stepKey call.toolCallId))
      (fun r s' => r = .ok .running ∧ Learnt doubt i d a s') s := by
  simp only [Effects.readStep, hstore]
  refine safe_perform trivial h ?_
  intro r s₁ s₂ h₁ he hd hlog
  have hrun := h₁.doubt _ hkey
  have hr := (exec_events he).2.2
  refine ⟨?_, hd, ?_, ?_⟩
  · rw [hr]
    unfold running keyOf at hrun
    simp [step, Call.exec, MemorySteps.read, MemorySteps.step, hrun, Except.mapError]
  · rw [hlog, decided_append rfl]
    exact h₁.decided
  · rw [hlog, seen_append rfl]
    exact h₁.seen

/-- A step in doubt is no reason to pass the gate. -/
theorem safe_replayed (h : Learnt doubt i d a s) :
    Safe out self doubt i (eff.replayed call)
      (fun r s' => r = .ok false ∧ Learnt doubt i d a s') s := by
  unfold Effects.replayed
  split
  · exact ⟨rfl, h⟩
  · refine (Prog.safe_bind _ _ _ _).mpr (Prog.safe_post (safe_readStep hstore hkey h) ?_)
    intro r s₁ ⟨hr, h₁⟩
    subst hr
    exact ⟨rfl, h₁⟩

omit hstore hkey in
theorem gated_denies (a : Attempt) (call : ToolCall) (decision : ToolDecision) :
    denies (Effects.gated a call decision) ↔ refuses (.ok decision) ∨
      (decision = .continue ∧ a.suspendedThisRound ∧ call.toolName ∉ a.approvalTools) := by
  cases decision with
  | «continue» =>
    by_cases ht : call.toolName ∈ a.approvalTools
    · simp [Effects.gated, denies, refuses, ht]
    · cases hs : a.suspendedThisRound <;> simp [Effects.gated, denies, refuses, ht, hs]
  | deny result => cases hs : a.suspendedThisRound <;> simp [Effects.gated, denies, refuses, hs]
  | suspend request => simp [Effects.gated, denies, refuses]

/-- How the verdict on a call in doubt comes out: denied exactly when the log says so. -/
def Verdict (doubt : Set (String × String)) (i : Nat) (approved : Bool) (call : ToolCall)
    (r : Except Exn (ToolCall × ToolDecision)) (s : Scene) : Prop :=
  AllRunning doubt s ∧ match r with
    | .ok (call', decision) => call'.toolCallId = call.toolCallId ∧
      (denies decision ↔ Denied approved call (log i s.events))
    | .error e => answers e ↔ Denied approved call (log i s.events)

omit hstore hkey in
theorem safe_gate (here : Ctx) (h : Learnt doubt i (.ok .continue) a s) :
    Safe out self doubt i ((eff.gate here call).bind (fun decision => .ret (call, decision)))
      (Verdict doubt i false call) s := by
  have hget : ∀ decision s₁, Learnt doubt i (.ok decision) a s₁ →
      Safe out self doubt i ((attempt.bind (fun a => .ret (Effects.gated a call decision))).bind
        (fun decision => .ret (call, decision))) (Verdict doubt i false call) s₁ := by
    intro decision s₁ h₁
    rw [Prog.bind_assoc]
    refine (Prog.safe_bind _ _ _ _).mpr (Prog.safe_post (safe_attempt h₁) ?_)
    intro r s₂ ⟨a', hr, h₂⟩
    subst hr
    refine ⟨h₂.doubt, rfl, ?_⟩
    rw [gated_denies]
    simp only [Denied, h₂.decided, h₂.seen, Except.ok.injEq, true_and]
  unfold Effects.gate Effects.policy
  simp only [Prog.bind_eq, Prog.pure_eq]
  cases hc : eff.controls with
  | none => exact hget .continue s h
  | some plane =>
    rw [Prog.bind_assoc]
    refine (Prog.safe_bind _ _ _ _).mpr (Prog.safe_post
      (safe_ask (q := .preToolUse here call) rfl (fun _ => rfl) (fun _ => rfl) h) ?_)
    intro r s₁ h₁
    cases r with
    | ok decision => exact hget decision s₁ h₁
    | error e =>
      refine ⟨h₁.doubt, ?_⟩
      simp [Denied, h₁.decided, refuses]

omit hstore hkey in
theorem safe_resumeDecision (here : Ctx) (asked : ToolCall) (hid : asked.toolCallId = call.toolCallId)
    (h : Learnt doubt i (.ok .continue) a s) :
    Safe out self doubt i ((eff.resumeDecision here asked).bind
      (fun decision => .ret (asked, decision))) (Verdict doubt i true call) s := by
  unfold Effects.resumeDecision
  split
  · refine (Prog.safe_bind _ _ _ _).mpr (Prog.safe_post
      (safe_ask (q := .onResume ..) rfl (fun _ => rfl) (fun _ => rfl) h) ?_)
    intro r s₁ h₁
    cases r with
    | ok decision =>
      refine ⟨h₁.doubt, hid, ?_⟩
      simp only [Denied, h₁.decided, Bool.true_eq_false, false_and, or_false]
      cases decision <;> simp [denies, refuses]
    | error e =>
      refine ⟨h₁.doubt, ?_⟩
      simp [Denied, h₁.decided, refuses]
  · refine ⟨h.doubt, hid, ?_⟩
    simp [Denied, h.decided, denies, refuses]

theorem safe_verdict (approved : Bool) (args : Json) (h : Learnt doubt i (.ok .continue) a s) :
    Safe out self doubt i (eff.verdict approved call args) (Verdict doubt i approved call) s := by
  unfold Effects.verdict Effects.ctx
  simp only [Prog.bind_eq, Prog.pure_eq, Prog.bind_assoc, Prog.ret_bind]
  refine (Prog.safe_bind _ _ _ _).mpr (Prog.safe_post (safe_attempt h) ?_)
  intro r s₁ ⟨a₁, hr, h₁⟩
  subst hr
  refine (Prog.safe_bind _ _ _ _).mpr (Prog.safe_post (safe_replayed hstore hkey h₁) ?_)
  intro r s₂ ⟨hr, h₂⟩
  subst hr
  cases approved with
  | false => exact safe_gate _ h₂
  | true =>
    refine safe_resumeDecision _ _ ?_ h₂
    cases args <;> rfl

omit hstore hkey in
theorem AllRunning.learnt (hi : AllRunning doubt s) :
    Learnt doubt i (decided (log i s.events)) (seen (log i s.events)) s :=
  ⟨hi, rfl, rfl⟩

omit hstore hkey in
theorem denied_congr (h : Learnt doubt i (decided (log i s.events)) (seen (log i s.events)) s')
    {approved : Bool} : Denied approved call (log i s'.events) ↔ Denied approved call (log i s.events) := by
  unfold Denied
  rw [h.decided, h.seen]

/-- What carrying a verdict out comes to. -/
def Enforced (args : Json) (decision : ToolDecision) (r : Except Exn Json) : Prop :=
  match decision with
  | .deny result => r = .error (.skipToolExecution result)
  | .suspend _ => ∃ e, r = .error e ∧ answers e = false
  | .continue => r = .ok args

omit hstore hkey in
theorem safe_enforce (asked : ToolCall) (args : Json) (decision : ToolDecision)
    (h : Learnt doubt i d a s) : Safe out self doubt i (Effects.enforce asked args decision)
      (fun r s' => Learnt doubt i d a s' ∧ Enforced args decision r) s := by
  have hmade : ∀ (refused : Bool) (rest : Program Json) s₁, Learnt doubt i d a s₁ →
      (∀ s₂, Learnt doubt i d a s₂ → Safe out self doubt i rest
        (fun r s' => Learnt doubt i d a s' ∧ Enforced args decision r) s₂) →
      Safe out self doubt i ((Effects.made asked refused).bind (fun _ => rest))
        (fun r s' => Learnt doubt i d a s' ∧ Enforced args decision r) s₁ := by
    intro refused rest s₁ h₁ hrest
    refine (Prog.safe_bind _ _ _ _).mpr (safe_perform trivial h₁ ?_)
    intro r s₂ s₃ h₂ he hd hlog
    have h₃ : Learnt doubt i d a s₃ := by
      refine ⟨hd, ?_, ?_⟩
      · rw [hlog, decided_append rfl]
        exact h₂.decided
      · rw [hlog, seen_append rfl]
        exact h₂.seen
    have hr : r = .ok () := (exec_events he).2.2
    subst hr
    exact hrest s₃ h₃
  cases decision with
  | «continue» => exact hmade false _ s h (fun s₁ h₁ => ⟨h₁, rfl⟩)
  | deny result => exact hmade true _ s h (fun s₁ h₁ => ⟨h₁, rfl⟩)
  | suspend request =>
    simp only [Effects.enforce]
    split
    · exact ⟨h, _, rfl, rfl⟩
    · refine (Prog.safe_bind _ _ _ _).mpr (safe_perform trivial h ?_)
      intro r s₁ s₂ h₁ he hd hlog
      have hr : r = .ok () := (exec_events he).2.2
      subst hr
      refine hmade true _ s₂ ⟨hd, ?_, ?_⟩ (fun s₁ h₁ => ⟨h₁, _, rfl, rfl⟩)
      · rw [hlog, decided_append rfl]
        exact h₁.decided
      · rw [hlog, seen_append rfl]
        exact h₁.seen

/-- The ledger check stops a call in doubt. -/
theorem safe_wrap (args : Json) (hretry : eff.retryRunning = false) (h : Learnt doubt i d a s)
    (handler : Json → Program Json) :
    Safe out self doubt i (eff.wrapToolExecute call args handler)
      (fun r s' => Learnt doubt i d a s' ∧ ∃ e, r = .error e ∧ answers e = false) s := by
  have hread : Safe out self doubt i (eff.readStep (Effects.stepKey call.toolCallId))
      (fun r s' => r = .ok .running ∧ Learnt doubt i d a s') s := safe_readStep hstore hkey h
  simp only [Effects.readStep, hstore] at hread
  simp only [Effects.wrapToolExecute, Effects.runOrReplay, hstore, Prog.bind_eq, Prog.bind_assoc]
  refine (Prog.safe_bind _ _ _ _).mpr (Prog.safe_post hread ?_)
  intro r s₁ ⟨hr, h₁⟩
  subst hr
  simp only [hretry, Bool.false_eq_true, ↓reduceIte]
  exact ⟨h₁, _, rfl, rfl⟩

/-- How a call in doubt ends: answered exactly when it was denied, and otherwise parked, or ending
the attempt. -/
def Ends (doubt : Set (String × String)) (i : Nat) (refused : List Event → Prop)
    (r : Except Exn (ToolCall × CallOutcome)) (s : Scene) : Prop :=
  AllRunning doubt s ∧ (isAnswered r ↔ refused (log i s.events))

omit hstore hkey in
/-- A signal that answers as often as the call was denied. -/
theorem safe_raised {approved : Bool} {e : Exn} (hi : AllRunning doubt s)
    (h : answers e ↔ Denied approved call (log i s.events)) :
    Safe out self doubt i (PydanticAI.caught call e)
      (Ends doubt i (Denied approved call)) s := by
  cases e <;> exact ⟨hi, h⟩

theorem safe_throughHooks (approved : Bool) (args : Json) (hretry : eff.retryRunning = false)
    (h : Learnt doubt i (.ok .continue) a s) :
    Safe out self doubt i (PydanticAI.throughHooks eff approved call args)
      (Ends doubt i (Denied approved call)) s := by
  unfold PydanticAI.throughHooks Effects.beforeToolExecute
  simp only [Prog.bind_eq, Prog.pure_eq, Prog.bind_assoc]
  refine (Prog.safe_tryCatch _ _ _ _).mpr ((Prog.safe_bind _ _ _ _).mpr
    (Prog.safe_post (safe_verdict hstore hkey approved args h) ?_))
  intro r s₁ ⟨hi₁, hverdict⟩
  cases r with
  | error e => exact safe_raised hi₁ hverdict
  | ok asked =>
    obtain ⟨asked, decision⟩ := asked
    obtain ⟨-, hverdict⟩ := hverdict
    refine (Prog.safe_bind _ _ _ _).mpr
      (Prog.safe_post (safe_enforce asked args decision hi₁.learnt) ?_)
    intro r s₂ ⟨h₂, henforced⟩
    cases decision with
    | deny result =>
      subst henforced
      refine safe_raised h₂.doubt ?_
      rw [denied_congr h₂]
      exact hverdict
    | suspend request =>
      obtain ⟨e, rfl, he⟩ := henforced
      refine safe_raised h₂.doubt ?_
      rw [denied_congr h₂, ← hverdict, he]
      rfl
    | «continue» =>
      subst henforced
      refine (Prog.safe_bind _ _ _ _).mpr
        (Prog.safe_post (safe_wrap hstore hkey args hretry h₂ _) ?_)
      intro r s₃ ⟨h₃, e, hr, he⟩
      subst hr
      refine safe_raised h₃.doubt ?_
      rw [denied_congr h₃, ← hverdict, he]
      rfl

/-- A call in doubt, from its first operation on. -/
theorem safe_executeCall (ai : PydanticAI) (approval : Option Approval)
    (hretry : eff.retryRunning = false) (hi : AllRunning doubt s) (hnew : log i s.events = []) :
    Safe out self doubt i (ai.executeCall eff call approval)
      (Ends doubt i (Refused ai call approval)) s := by
  have hlearnt : Learnt doubt i (.ok .continue) {} s := by
    refine ⟨hi, ?_, ?_⟩ <;> rw [hnew] <;> rfl
  unfold PydanticAI.executeCall
  split
  · exact ⟨hi, by simp [isAnswered, answered, Refused]⟩
  · rename_i override
    cases hv : ai.validate call override with
    | error message => exact ⟨hi, by simp [isAnswered, answered, Refused, hv, Except.isOk, Except.toBool]⟩
    | ok args =>
      refine Prog.safe_post (safe_throughHooks hstore hkey true args hretry hlearnt) ?_
      intro r s₁ hended
      obtain ⟨hi₁, h₁⟩ := hended
      exact ⟨hi₁, by simp [h₁, Refused, hv, Except.isOk, Except.toBool]⟩
  · cases hv : ai.validate call none with
    | error message => exact ⟨hi, by simp [isAnswered, answered, Refused, hv, Except.isOk, Except.toBool]⟩
    | ok args =>
      refine Prog.safe_post (safe_throughHooks hstore hkey false args hretry hlearnt) ?_
      intro r s₁ hended
      obtain ⟨hi₁, h₁⟩ := hended
      exact ⟨hi₁, by simp [h₁, Refused, hv, Except.isOk, Except.toBool]⟩

end

/-! A call whose own step is not in doubt spares those that are. -/

section
variable {doubt : Set (String × String)} {eff : Effects} {v : View} {call : ToolCall}

theorem sparing_attempt : (attempt : Program Attempt).AllOps (Sparing doubt) :=
  (Prog.allOps_op _).mpr trivial

theorem sparing_ask (plane : String) (q : Question) :
    (Effects.ask plane q).AllOps (Sparing doubt) :=
  (Prog.allOps_op _).mpr trivial

theorem sparing_ctx (messages : List ModelMessage) : (eff.ctx messages).AllOps (Sparing doubt) :=
  Prog.allOps_bind sparing_attempt (fun _ => trivial)

theorem sparing_readStep (key : String) : (eff.readStep key).AllOps (Sparing doubt) := by
  unfold Effects.readStep
  split
  · trivial
  · exact (Prog.allOps_op _).mpr trivial

theorem sparing_verdict (approved : Bool) (args : Json) :
    (eff.verdict approved call args).AllOps (Sparing doubt) := by
  have hresume : ∀ here asked, (eff.resumeDecision here asked).AllOps (Sparing doubt) := by
    intro here asked
    unfold Effects.resumeDecision
    split
    · exact sparing_ask _ _
    · trivial
  have hgate : ∀ here asked, (eff.gate here asked).AllOps (Sparing doubt) := by
    intro here asked
    refine Prog.allOps_bind ?_ (fun decision => Prog.allOps_bind sparing_attempt (fun _ => trivial))
    unfold Effects.policy
    split
    · trivial
    · exact sparing_ask _ _
  have hreplayed : (eff.replayed call).AllOps (Sparing doubt) := by
    unfold Effects.replayed
    split
    · trivial
    · exact Prog.allOps_bind (sparing_readStep _) (fun _ => trivial)
  refine Prog.allOps_bind (sparing_ctx _) (fun here => Prog.allOps_bind hreplayed (fun replayed => ?_))
  split
  · trivial
  · split
    · exact Prog.allOps_bind (hresume _ _) (fun _ => trivial)
    · exact Prog.allOps_bind (hgate _ _) (fun _ => trivial)

theorem sparing_enforce (args : Json) (decision : ToolDecision) :
    (Effects.enforce call args decision).AllOps (Sparing doubt) := by
  have hupdate : ∀ f, (update f).AllOps (Sparing doubt) := fun f => (Prog.allOps_op _).mpr trivial
  cases decision with
  | «continue» => exact Prog.allOps_bind (hupdate _) (fun _ => trivial)
  | deny result => exact Prog.allOps_bind (hupdate _) (fun _ => trivial)
  | suspend request =>
    simp only [Effects.enforce]
    split
    · trivial
    · exact Prog.allOps_bind (hupdate _) (fun _ => Prog.allOps_bind (hupdate _) (fun _ => trivial))

theorem sparing_execute {k : String} (hstore : eff.store = some v)
    (hk : (v.filed eff.branchId, k) ∉ doubt) (args : Json) :
    (eff.execute (some k) args (fun args => perform (.handle call args))).AllOps (Sparing doubt) := by
  have hcaught : ∀ e, (eff.caught (some k) e).AllOps (Sparing doubt) := by
    intro e
    unfold Effects.caught Effects.clearIntent
    rw [hstore]
    split
    · exact Prog.allOps_bind ((Prog.allOps_op _).mpr hk) (fun _ => trivial)
    · split <;> trivial
  have hfinish : ∀ record, (eff.finishStep (some k) record).AllOps (Sparing doubt) := by
    intro record
    unfold Effects.finishStep
    rw [hstore]
    exact (Prog.allOps_op _).mpr hk
  refine Prog.allOps_bind (Prog.allOps_tryCatch ?_ hcaught)
    (fun record => Prog.allOps_bind (hfinish record) (fun _ => trivial))
  exact Prog.allOps_bind ((Prog.allOps_op _).mpr trivial) (fun _ => trivial)

theorem sparing_journalOnce (record : Record) (hstore : eff.store = some v)
    (hk : (v.filed eff.branchId, Effects.afterKey call.toolCallId) ∉ doubt) :
    (eff.journalOnce call record).AllOps (Sparing doubt) := by
  have hproject : ∀ plane, (eff.project plane call record).AllOps (Sparing doubt) := by
    intro plane
    refine Prog.allOps_bind (sparing_ctx _) (fun here => ?_)
    cases record <;> exact Prog.allOps_bind (sparing_ask _ _) (fun _ => trivial)
  refine Prog.allOps_bind (sparing_readStep _) (fun journaled => ?_)
  split
  · trivial
  · trivial
  · split
    · trivial
    · refine Prog.allOps_bind (hproject _) (fun projected => Prog.allOps_bind ?_ (fun _ => trivial))
      unfold Effects.journal
      rw [hstore]
      exact (Prog.allOps_op _).mpr hk

theorem sparing_wrap (args : Json) (hstore : eff.store = some v) (hretry : eff.retryRunning = false)
    (hkey : keyOf eff v call ∉ doubt)
    (hafter : (v.filed eff.branchId, Effects.afterKey call.toolCallId) ∉ doubt) :
    (eff.wrapToolExecute call args (fun args => perform (.handle call args))).AllOps
      (Sparing doubt) := by
  have hrun : (eff.runOrReplay call args (fun args => perform (.handle call args))).AllOps
      (Sparing doubt) := by
    unfold Effects.runOrReplay
    rw [hstore]
    refine Prog.allOps_bind ((Prog.allOps_op _).mpr trivial) (fun read => ?_)
    cases read with
    | done value => cases value <;> trivial
    | running =>
      simp only [hretry, Bool.false_eq_true, ↓reduceIte]
      trivial
    | absent =>
      refine Prog.allOps_bind ((Prog.allOps_op _).mpr trivial) (fun inserted => ?_)
      split
      · exact sparing_execute hstore hkey args
      · trivial
  refine Prog.allOps_bind hrun (fun step => Prog.allOps_bind
    (sparing_journalOnce step hstore hafter) (fun record => ?_))
  cases record <;> trivial

theorem sparing_executeCall (ai : PydanticAI) (approval : Option Approval)
    (hstore : eff.store = some v) (hretry : eff.retryRunning = false)
    (hkey : keyOf eff v call ∉ doubt)
    (hafter : (v.filed eff.branchId, Effects.afterKey call.toolCallId) ∉ doubt) :
    (ai.executeCall eff call approval).AllOps (Sparing doubt) := by
  have hhooks : ∀ approved args,
      (PydanticAI.throughHooks eff approved call args).AllOps (Sparing doubt) := by
    intro approved args
    refine Prog.allOps_tryCatch ?_ (fun e => by cases e <;> trivial)
    refine Prog.allOps_bind ?_ (fun args => Prog.allOps_bind
      (sparing_wrap args hstore hretry hkey hafter) (fun _ => trivial))
    exact Prog.allOps_bind (sparing_verdict _ _) (fun asked => sparing_enforce _ _)
  unfold PydanticAI.executeCall
  split
  · trivial
  · split
    · trivial
    · exact hhooks _ _
  · split
    · trivial
    · exact hhooks _ _

end

section
variable (eff : Effects) (v : View) (calls : Nat → ToolCall × Option Approval)

/-- The steps of a round that were started and never reported. -/
def doubtful (w : World) : Set (String × String) :=
  {key | (∃ i, key = keyOf eff v (calls i).1) ∧ running w key}

/-- How the threads of a round may end: a call in doubt, answered exactly when it was refused. -/
def RoundEnds (ai : PydanticAI) (doubt : Set (String × String)) (i : Nat)
    (r : Except Exn (ToolCall × CallOutcome)) (s : Scene) : Prop :=
  keyOf eff v (calls i).1 ∈ doubt →
    (isAnswered r ↔ Refused ai (calls i).1 (calls i).2 (log i s.events))

variable {eff v calls}

theorem compatible (ai : PydanticAI) (doubt : Set (String × String)) :
    Compatible (Meanwhile doubt) (AllRunning doubt) (Rely doubt) (Guarantee doubt)
      (RoundEnds eff v calls ai doubt) where
  refl i s h := ⟨h, rfl⟩
  trans i s₁ s₂ s₃ h h' := ⟨h'.1, h'.2.trans h.2⟩
  stable i r s s' h hr hkey := by
    rw [hr.2]
    exact h hkey
  keeps i s s' _ h := h.1
  other i j s s' hij _ h := ⟨h.1, h.2 j (Ne.symm hij)⟩
  env s s' h move := by
    have hrunning : AllRunning doubt s' := fun key hk => move.2 key hk (h key hk)
    exact ⟨hrunning, fun i => ⟨hrunning, by rw [move.1]⟩⟩

end

/-- The claim that nothing a policy, a person or the order of a round does can answer a call whose
step is in doubt. -/
def NeverAnswered : Prop :=
  ∀ (out : Outside) (self : Nat → Nat) (ai : PydanticAI) (eff : Effects) (v : View)
    (calls : Nat → ToolCall × Option Approval) (w : World) (attempts : Nat → Attempt)
    (pool : Nat → Program (ToolCall × CallOutcome)) (s : Scene),
    eff.store = some v → eff.retryRunning = false →
    Interleaved (exec out self) (Meanwhile (doubtful eff v calls w))
      (fun i => ai.executeCall eff (calls i).1 (calls i).2) ⟨w, attempts, []⟩ pool s →
    ∀ i, running w (keyOf eff v (calls i).1) → ∀ r, pool i = Prog.ofExcept r → isAnswered r = false

/-- A policy that asks about the first call of a round and lets everything else run. -/
def asksFirst : Outside :=
  .answering (fun _ _ _ => .ok .null) (fun _ _ => .error (.other "no model")) (fun _ _ q =>
    match q with
    | .preToolUse _ call => .ok (if call.toolCallId = "c1" then
        .suspend { pendingId := some "p1" } else .continue)
    | _ => .error (.other "not asked"))

def twoCalls (i : Nat) : ToolCall × Option Approval :=
  (⟨"send", .dict [], if i = 0 then "c1" else "c2"⟩, none)

def gatekept : Effects := { store := some ⟨none⟩, branchId := "run", controls := some "plane" }

/-- The second call was started by an attempt that died. -/
def startedBefore : World :=
  { store := { entries := Dict.empty.insert ("run", "tool:c2") .running } }

/-- The round's threads after the first call parked and the second went through the gate. -/
def behindSuspension : (Nat → Program (ToolCall × CallOutcome)) × Scene :=
  scheduled (Scene.perform asksFirst (fun _ => 0)) [0, 0, 0, 0, 0, 0, 1, 1, 1, 1, 1, 1]
    (fun i => (PydanticAI.standard (fun _ => "") [] 8).executeCall gatekept (twoCalls i).1
      (twoCalls i).2) ⟨startedBefore, fun _ => {}, []⟩

theorem behindSuspension_run :
    Interleaved (exec asksFirst (fun _ => 0)) (Meanwhile (doubtful gatekept ⟨none⟩ twoCalls startedBefore))
      (fun i => (PydanticAI.standard (fun _ => "") [] 8).executeCall gatekept (twoCalls i).1
        (twoCalls i).2) ⟨startedBefore, fun _ => {}, []⟩ behindSuspension.1 behindSuspension.2 :=
  interleaved_scheduled (Scene.perform asksFirst (fun _ => 0)) _ _ _ _

/-- The model is told that the second call was not executed. -/
theorem behindSuspension_answer : behindSuspension.1 1 =
    Prog.ofExcept (.ok ((twoCalls 1).1, .skipped Effects.notExecuted)) := rfl

end Semora.Proofs.InDoubt
