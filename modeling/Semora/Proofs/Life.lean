import Semora.Lib.Round
import Semora.Proofs.Closing
import Semora.Proofs.OneWriter

/-! The life of a continuation: what stands under the continuation key of a branch moves as a round
of questions does, whoever works on the branch. -/

namespace Semora.Proofs.Life
open Semora.Lib Semora.Store
open Semora.Proofs.Order (Follows Ordered acts ordered_of_safe follows_exec)
open Semora.Proofs.OneWriter (Works)

/-- A continuation as a round is parked with it. -/
def Parks (v : Value) : Prop :=
  ∃ active, v = .suspension active ∧ active.state = .waiting ∧ active.answers = []

/-- What is made of a continuation: it is answered, it is finalized, it is completed. -/
inductive Turns (active : Suspension) : Value → Prop
  | answer (call : ToolCall) (request : Request) (answer : Answer)
      (parked : (call, request) ∈ active.continuation.calls) :
      Turns active (.suspension { active with
        answers := upsert call.toolCallId answer active.answers })
  | act (decided : AgentRuntime.undecided active = []) :
      Turns active (.suspension { active with state := .resuming })
  | finish (resuming : active.state = .resuming) :
      Turns active (.completed active.callId active.callIds)

/-- What a call files under the continuation key, where this is known to stand there. -/
def Files (known : Option (Step Value)) : Call Value → Prop
  | .start _ k _ | .forget _ k _ | .finishEffect _ k _ _ => k ≠ Effects.activeSuspension
  | .writeControl _ k v _ => k = Effects.activeSuspension →
    ∃ active, known = some (.done (.suspension active)) ∧ Turns active v
  | .commitTransition _ tr _ => tr.effects = [] ∧
    ∀ v, (Effects.activeSuspension, v) ∈ tr.controls → Parks v
  | _ => True

/-- What a thread learns from an operation of what stands under the continuation key. -/
def learn (b : String) (known : Option (Step Value)) : Done → Option (Step Value)
  | ⟨.ledger (.read b' k), .ok found⟩ =>
    if b' = b ∧ k = Effects.activeSuspension then some found else known
  | ⟨.ledger (.writeControl b' k v _), .ok _⟩ =>
    if b' = b ∧ k = Effects.activeSuspension then some (.done v) else known
  | ⟨.ledger (.commitTransition ..), _⟩ | ⟨.ledger (.acquire ..), _⟩
  | ⟨.ledger (.release ..), _⟩ => none
  | _ => known

/-- What a thread knows to stand there, since it has the lease. -/
def known (b : String) (done : List Done) : Option (Step Value) := done.foldl (learn b) none

theorem known_snoc (b : String) (done : List Done) (d : Done) :
    known b (done ++ [d]) = learn b (known b done) d := by
  simp [known, List.foldl_append]

/-- The rule of a call. -/
def rule (e : Execution) (done : List Done) (d : Done) : Prop :=
  ∀ c, d.op = .ledger c → Files (known (filedName e) done) c

/-- An operation that is no matter of the continuation. -/
def Away : Op → Prop
  | .ledger c => match c with
    | .read _ k | .start _ k _ | .forget _ k _ | .finishEffect _ k _ _ | .writeControl _ k _ _ =>
      k ≠ Effects.activeSuspension
    | .commitTransition .. | .acquire .. | .release .. => False
    | _ => True
  | _ => True

section
variable {e : Execution} {token : Nat} {done : List Done} {s : Own}

theorem away_files {c : Call Value} (h : Away (.ledger c)) (k : Option (Step Value)) :
    Files k c := by
  cases c with
  | writeControl b key v t => exact fun hk => absurd hk h
  | commitTransition => exact h.elim
  | start | forget | finishEffect => exact h
  | _ => trivial

theorem away_learn {o : Op} (h : Away o) (b : String) (k : Option (Step Value))
    (r : Except Exn o.Res) : learn b k ⟨o, r⟩ = k := by
  cases o with
  | ledger c =>
    cases c with
    | read b' key =>
      cases r with
      | ok found => exact if_neg (fun hk => h hk.2)
      | error error => rfl
    | writeControl b' key v t =>
      cases r with
      | ok u => exact if_neg (fun hk => h hk.2)
      | error error => rfl
    | commitTransition | acquire | release => exact h.elim
    | _ => rfl
  | _ => rfl

/-! What an attempt does. -/

theorem away_plain {o : Op} (h : Throughout.Plain o) : Away o := by
  cases o with
  | ledger c => exact h.elim
  | _ => trivial

theorem away_effect {k : String} (hk : Effects.EffectKey k) : k ≠ Effects.activeSuspension :=
  Effects.effect_control hk (.inr (.inr (.inr rfl)))

theorem away_performs {eff : Effects} {o : Op} (h : Performs eff false .effects o) : Away o := by
  cases h with
  | read v hv k hk =>
    rcases hk with ⟨-, id, rfl | rfl⟩ | ⟨-, digest, rfl⟩
    · exact away_effect (.inl ⟨id, rfl⟩)
    · exact Effects.afterKey_active id
    · exact away_effect (.inr ⟨digest, rfl⟩)
  | start v hv k hk => exact away_effect hk
  | forget v hv k hk => exact away_effect hk
  | finishEffect v hv k hk => exact away_effect hk
  | writeControl v hv k value hk =>
    rcases hk with rfl | ⟨id, rfl⟩
    · exact Effects.pendingRound_active
    · exact Effects.afterKey_active id
  | _ => trivial

/-- What may be done anywhere, whatever is known of the continuation. -/
def Free (o : Op) : Prop := ∀ c, o = .ledger c → ∀ k, Files k c

theorem free_away {o : Op} (h : Away o) : Free o := by
  intro c hc k
  subst hc
  exact away_files h k

theorem free_loose {o : Op} (h : Throughout.Loose o) : Free o := by
  intro c hc k
  subst hc
  cases c <;> first | exact h.elim | trivial

abbrev Keeping (e : Execution) (α : Type) (p : Program α) : Prop :=
  Prog.Keeps Own.exec (Follows (rule e)) (fun _ => True) α p

theorem compositional_keeping : Prog.Compositional (Keeping e) := Prog.compositional_keeps _ _ _

theorem keeping_free {α : Type} {p : Program α} (hp : p.AllOps Free) : Keeping e α p := by
  refine compositional_keeping.ofAllOps hp (fun o ho => Prog.keeps_op.mpr (fun s r s' _ he => ?_))
  exact ⟨follows_exec (fun c hc => ho c hc _) he, trivial⟩

/-- What a thread knows of the continuation it knows behind anything else. -/
theorem safe_away {α : Type} {p : Program α} {k : Option (Step Value)} (hp : p.AllOps Away)
    (h : known (filedName e) s.done = k) :
    Prog.safe Own.exec Eq (Follows (rule e)) p (fun _ s' => known (filedName e) s'.done = k) s := by
  refine Prog.safe_of_allOps (I := fun s : Own => known (filedName e) s.done = k) ?_ ?_ hp h
  · exact fun a b heq hk => heq ▸ hk
  · intro o ho a r b hI he
    refine ⟨follows_exec (fun c hc => ?_) he, ?_⟩
    · have hc' : o = .ledger c := hc
      subst hc'
      exact away_files ho _
    · obtain ⟨-, rfl⟩ := he
      rw [known_snoc, away_learn ho]
      exact hI

theorem parks_parkWrites {conversation first : String} {continuation : Continuation} {v : Value}
    (h : (Effects.activeSuspension, v) ∈
      AgentRuntime.parkWrites conversation first continuation) : Parks v := by
  simp only [AgentRuntime.parkWrites, List.mem_append, List.mem_map, List.mem_singleton] at h
  rcases h with ⟨item, -, hitem⟩ | hitem
  · have hkey := congrArg (fun pair => pair.1.toList) hitem
    simp [Effects.suspendKey, Effects.activeSuspension] at hkey
  · cases hitem
    exact ⟨_, rfl, rfl, rfl⟩

section
variable {rt : AgentRuntime} {agent : Agent}

theorem free_park {α : Type} {conversation : String} {eff : Effects}
    {requests : DeferredToolRequests} :
    (rt.park (α := α) e conversation eff requests token).AllOps Free := by
  unfold AgentRuntime.park
  split
  · trivial
  · split
    · trivial
    · trivial
    · simp only
      split
      · trivial
      · refine Prog.allOps_bind ((Prog.allOps_op Op.get).mpr (free_away trivial)) (fun a =>
          Prog.allOps_bind ?_ (fun _ => Prog.allOps_bind ?_ (fun _ => trivial)))
        · have hannounce : ∀ parked, Within { store := none, branchId := "" } false .effects
              (AgentRuntime.announce eff a parked) := within_announce eff a
          exact (hannounce _).mono (fun _ ho => free_away (away_performs ho))
        · unfold AgentRuntime.persist
          split
          · trivial
          · refine Prog.allOps_bind ((Prog.allOps_op (Op.ledger _)).mpr ?_) (fun _ => trivial)
            intro c hc k
            cases hc
            exact ⟨rfl, fun v => parks_parkWrites⟩

/-- An attempt that returns has parked nothing. -/
theorem safe_attemptRun {e' : Execution} {k : Option (Step Value)}
    (gathers : Gathers agent.toPydanticAI) (prompt : Option String) (options : Options)
    (h : known (filedName e) s.done = k) :
    Prog.safe Own.exec Eq (Follows (rule e)) (rt.attemptRun e' token agent prompt options)
      (fun r s' => ∀ outcome, r = .ok outcome → known (filedName e) s'.done = k) s := by
  have hthen : ∀ {α β : Type} {p : Program α} {f : α → Program β} {s : Own}
      {Q : Except Exn β → Own → Prop}, p.AllOps Away → known (filedName e) s.done = k →
      (∀ a s', known (filedName e) s'.done = k → Prog.safe Own.exec Eq (Follows (rule e)) (f a) Q s') →
      (∀ error s', Q (.error error) s') →
      Prog.safe Own.exec Eq (Follows (rule e)) (p.bind f) Q s := by
    intro α β p f s Q hp hk hf hQ
    apply (Prog.safe_bind _ _ _ _).mpr
    apply Prog.safe_post (safe_away hp hk)
    intro r s' hk'
    cases r with
    | ok a => exact hf a s' hk'
    | error error => exact hQ error s'
  have hwithin : ∀ {α : Type} {p : Program α},
      Within (rt.effectsOf e' token agent options) false .effects p → p.AllOps Away :=
    fun hp => hp.mono (fun _ => away_performs)
  have hplain : ∀ {α : Type} {p : Program α}, p.AllOps Throughout.Plain → p.AllOps Away :=
    fun hp => hp.mono (fun _ => away_plain)
  have hQ : ∀ (error : Exn) (s' : Own), ∀ outcome : Outcome,
      (Except.error error : Except Exn Outcome) = .ok outcome → known (filedName e) s'.done = k :=
    fun _ _ _ h => by cases h
  refine hthen ((Prog.allOps_op (Op.modify _)).mpr trivial) h (fun _ s₁ h₁ => ?_) hQ
  refine hthen (hplain (Throughout.plain_openBranch _)) h₁ (fun history s₂ h₂ => ?_) hQ
  refine hthen (hwithin (within_admitPrompt rt e' token agent options _ _)) h₂
    (fun prompt s₃ h₃ => ?_) hQ
  refine hthen (hwithin (within_run gathers _ _ _)) h₃ (fun output s₄ h₄ => ?_) hQ
  refine hthen (hplain Throughout.plain_replaceFinal) h₄ (fun _ s₅ h₅ => ?_) hQ
  have hclose : ∀ output, Prog.safe Own.exec Eq (Follows (rule e)) (rt.close e' output)
      (fun r s' => ∀ outcome, r = .ok outcome → known (filedName e) s'.done = k) s₅ := fun output =>
    Prog.safe_post (safe_away (hplain Throughout.plain_close) h₅) (fun _ _ hk _ _ => hk)
  cases output with
  | text content => exact hclose _
  | value value => exact hclose _
  | deferred requests =>
    refine Prog.safe_post (Prog.safe_rets Closing.park_unended (keeping_free free_park s₅ trivial)) ?_
    exact fun r s' hr outcome houtcome => (hr.2 outcome houtcome).elim

/-- What a fork copies is no continuation. -/
theorem away_copyRound (src : Execution) (history : List ModelMessage) :
    (rt.copyRound src e token history).AllOps Away := by
  have hkey : ∀ id, Effects.stepKey id ≠ Effects.activeSuspension :=
    fun id => away_effect (.inl ⟨id, rfl⟩)
  unfold AgentRuntime.copyRound
  split
  · rename_i source target hsource htarget
    have hstart : ∀ id, (target.start e.branchId (Effects.stepKey id) token).AllOps Away :=
      fun id => (Prog.allOps_op (Op.ledger _)).mpr (hkey id)
    induction unansweredToolCalls history with
    | nil => trivial
    | cons call calls ih =>
      refine Prog.allOps_bind ((Prog.allOps_op (Op.ledger _)).mpr (hkey _)) (fun record => ?_)
      cases record with
      | absent => exact ih
      | running => exact Prog.allOps_bind (hstart _) (fun _ => ih)
      | done value =>
        refine Prog.allOps_bind (hstart _) (fun inserted => ?_)
        split
        · exact Prog.allOps_bind ((Prog.allOps_op (Op.ledger _)).mpr (hkey _))
            (fun _ => Prog.allOps_bind ih (fun _ => trivial))
        · exact ih
  · trivial

/-! What is done with a continuation. -/

/-- Where a call is on its way: what it knows to stand under the continuation key. -/
def course (e : Execution) : Course Own where
  idle _ := True
  named _ _ := True
  leased _ _ := True
  looked _ v s := known (filedName e) s.done = some v
  clear _ _ := True
  decided _ active answers s :=
    known (filedName e) s.done = some (.done (.suspension { active with answers })) ∧
      AgentRuntime.undecided { active with answers } = []
  resuming _ active answers s := known (filedName e) s.done =
    some (.done (.suspension { active with state := .resuming, answers }))
  acted _ active _ s := ∃ answers, known (filedName e) s.done =
    some (.done (.suspension { active with state := .resuming, answers }))
  ends _ _ _ := True
  closes _ _ := True

/-- Finding a continuation there. -/
theorem safe_look : Prog.safe Own.exec Eq (Follows (rule e))
    (perform (.ledger (.read (filedName e) Effects.activeSuspension)))
    ((course e).Inner token ((course e).looked token)) s := by
  apply (Prog.safe_op (Op.ledger (.read ..)) _ s).mpr
  intro s₁ hs₁ r s₂ he
  subst hs₁
  refine ⟨follows_exec (fun c hc => by cases hc; trivial) he, ?_⟩
  obtain ⟨-, rfl⟩ := he
  cases r with
  | error error => trivial
  | ok record => exact (known_snoc _ _ _).trans (if_pos ⟨rfl, rfl⟩)

/-- A record made of the continuation known to stand there. -/
theorem safe_write {active : Suspension} {value : Value} {M : Unit → Own → Prop}
    (h : known (filedName e) s.done = some (.done (.suspension active))) (turns : Turns active value)
    (hM : ∀ s', known (filedName e) s'.done = some (.done value) → M () s') :
    Prog.safe Own.exec Eq (Follows (rule e))
      (perform (.ledger (.writeControl (filedName e) Effects.activeSuspension value token)))
      ((course e).Inner token M) s := by
  apply (Prog.safe_op (Op.ledger (.writeControl ..)) _ s).mpr
  intro s₁ hs₁ r s₂ he
  subst hs₁
  refine ⟨follows_exec (fun c hc => ?_) he, ?_⟩
  · cases hc
    exact fun _ => ⟨active, h, turns⟩
  · obtain ⟨-, rfl⟩ := he
    cases r with
    | error error => trivial
    | ok u => exact hM _ ((known_snoc _ _ _).trans (if_pos ⟨rfl, rfl⟩))

theorem callOf_parked {active : Suspension} {pendingId : String} {call : ToolCall}
    (h : AgentRuntime.callOf active pendingId = some call) :
    ∃ request, (call, request) ∈ active.continuation.calls := by
  obtain ⟨item, hfound, rfl⟩ := Option.map_eq_some_iff.mp h
  exact ⟨item.2, List.mem_reverse.mp (List.mem_of_find?_eq_some hfound)⟩

theorem keeping_attempt {e' : Execution} (gathers : Gathers agent.toPydanticAI)
    (prompt : Option String) (options : Options) :
    Keeping e _ (rt.attemptRun e' token agent prompt options) := fun _ _ =>
  Prog.safe_post (safe_attemptRun gathers prompt options rfl) (fun _ _ _ => trivial)

/-- What a call does under the lease keeps the continuation to its round. -/
theorem steps (gathers : Gathers agent.toPydanticAI) : Course.Steps Own.exec Eq (Follows (rule e))
    (course e) rt e (filedName e) token agent where
  here := rfl
  leased_fails _ _ _ := trivial
  looked_fails _ _ _ _ := trivial
  clear_fails _ _ _ := trivial
  decided_fails _ _ _ _ _ := trivial
  attempts prompt options s _ := keeping_attempt gathers prompt options s trivial
  looks _ _ := safe_look
  reads _ s _ _ := by
    have hread : (perform (.ledger (.read (filedName e) Effects.pendingRound))).AllOps Free :=
      (Prog.allOps_op (Op.ledger _)).mpr (free_away Effects.pendingRound_active)
    exact Prog.safe_either (keeping_free hread s trivial) (fun _ _ _ => trivial)
      (fun _ _ _ => trivial)
  again options s _ := keeping_attempt gathers none options s trivial
  marks _ _ _ h := safe_write h.1 (.act h.2) (fun _ h => h)
  acts _ answers options _ h := Prog.safe_either (safe_attemptRun gathers none options h)
    (fun outcome _ h => ⟨answers, h outcome rfl⟩) (fun _ _ _ => trivial)
  completes _ _ _ h := by
    obtain ⟨answers, hknown⟩ := h
    exact safe_write hknown (.finish rfl) (fun _ _ => trivial)

theorem keeping_resumeLeased (gathers : Gathers agent.toPydanticAI) (pendingId : String)
    (answer : Answer) (controls : Option String) (rulesVersion : String) :
    Keeping e _ (rt.resumeLeased e token pendingId answer agent controls rulesVersion) := by
  intro s _
  refine (steps gathers).resumeLeased ?_ controls rulesVersion trivial
  intro v active call s h hv hcall
  obtain rfl := Course.of_live hv
  obtain ⟨request, hparked⟩ := callOf_parked hcall
  exact safe_write h (.answer call request answer hparked)
    (fun _ h => ⟨fun hdecided => ⟨h, hdecided⟩, fun _ => trivial⟩)

theorem keeping_recoverLeased (gathers : Gathers agent.toPydanticAI) (history : List ModelMessage)
    (controls : Option String) (rulesVersion : String) :
    Keeping e _ (rt.recoverLeased e token agent history controls rulesVersion) := by
  intro s _
  refine (steps gathers).recoverLeased ?_ history controls rulesVersion trivial
  intro v active s h hv hdecided
  obtain rfl := Course.of_live hv
  exact ⟨h, hdecided⟩

/-! The operations of a runtime. -/

theorem driven : Throughout.Driven (Keeping e) (fun _ => Keeping e) rt e where
  compositional := compositional_keeping
  loose o ho := keeping_free ((Prog.allOps_op o).mpr (free_loose ho))
  lease := by
    intro α body hbody
    have hfree : ∀ o : Op, Free o → Keeping e _ (perform o) :=
      fun o ho => keeping_free ((Prog.allOps_op o).mpr ho)
    unfold AgentRuntime.lease
    split
    · exact hbody 0
    · refine compositional_keeping.bind (hfree .uuid4 (fun c hc => by cases hc)) (fun owner => ?_)
      refine compositional_keeping.bind
        (hfree (.ledger (.acquire ..)) (fun c hc _ => by cases hc; trivial)) (fun token => ?_)
      split
      · exact compositional_keeping.raise _
      · exact compositional_keeping.finally_ (hbody token)
          (hfree (.ledger (.release ..)) (fun c hc _ => by cases hc; trivial))

theorem bodies (gathers : Gathers agent.toPydanticAI) (op : Operation) :
    Throughout.Bodies (fun _ => Keeping e) rt agent e op where
  attempts _ _ _ _ := keeping_attempt gathers _ _
  forks _ src _ history _ _ _ :=
    compositional_keeping.bind (keeping_free ((away_copyRound src history).mono
      (fun _ => free_away))) (fun _ => keeping_attempt gathers _ _)
  resumes _ _ _ _ := keeping_resumeLeased gathers _ _ _ _
  recovers _ _ _ _ := keeping_recoverLeased gathers _ _ _

theorem keeping_works {p : Program Reply} (works : Works e p) :
    Prog.Keeps Own.exec (Follows (rule e)) (fun _ => True) _ p := by
  rcases works with ⟨rt, agent, op, ledger, gathers, rfl | rfl⟩ | hrenews
  · exact driven.serve (bodies gathers op)
  · exact driven.settled (bodies gathers op)
  · refine keeping_free (hrenews.mono (fun o ho => ?_))
    intro c hc k
    subst hc
    cases c <;> first | exact ho.elim | trivial

end

end

/-! What a call leaves under the continuation key. -/

section
variable {c : Call Value} {now now' : ℚ} {w : MemorySteps Value} {b : String}
variable {k : Option (Step Value)}

theorem issued_later (c : Call Value) (now now' : ℚ) (w : MemorySteps Value) (b : String) :
    w.issued b ≤ (c.exec now now' w).2.issued b := by
  cases howner : c.owner? with
  | none =>
    obtain ⟨htokens, -⟩ := exec_same c now now' w howner
    exact Nat.le_of_eq (OneWriter.issued_same htokens b).symm
  | some owner =>
    cases c with
    | acquire b' owner' ttl =>
      change w.issued b ≤ (w.acquire b' owner' ttl now now').2.issued b
      rcases MemorySteps.acquire_cases w b' owner' ttl now now' with
        ⟨held, -, -, hacquire⟩ | ⟨held, -, -, -, hacquire⟩ | ⟨-, hacquire⟩
      · rw [hacquire]
        exact Nat.le_refl (w.issued b)
      · rw [hacquire]
      · rw [hacquire]
        simp only [MemorySteps.issued, Dict.get?_insert]
        split
        · rename_i hb
          subst hb
          simp
        · exact Nat.le_refl _
    | release b' owner' =>
      change w.issued b ≤ (w.release b' owner' now).issued b
      rcases MemorySteps.release_cases w b' owner' now with ⟨held, -, -, hrelease⟩ | ⟨-, hrelease⟩
      · rw [hrelease]
        exact Nat.le_refl (w.issued b)
      · rw [hrelease]
    | _ => cases howner

/-- The call files something under the continuation key. -/
def Filing (c : Call Value) (b : String) : Prop :=
  (∃ v t, c = .writeControl b Effects.activeSuspension v t) ∨ ∃ tr t, c = .commitTransition b tr t

/-- What is made of what a thread knows, or a round that is parked. -/
def Made (k : Option (Step Value)) (c : Call Value) (v : Value) : Prop :=
  (∃ active, k = some (.done (.suspension active)) ∧ Turns active v) ∨
    Parks v ∧ ∃ b tr t, c = .commitTransition b tr t

/-- A call leaves the continuation alone, or it files one under a token that is not stale. -/
theorem exec_cell (hfiles : Files k c) :
    (c.exec now now' w).2.step b Effects.activeSuspension = w.step b Effects.activeSuspension ∨
      Filing c b ∧ (∀ t, c.token? = some t → t ≠ 0 → w.issued c.branchId ≤ t) ∧
        ∃ v, (c.exec now now' w).2.step b Effects.activeSuspension = .done v ∧ Made k c v := by
  by_cases hstale : ∃ t, c.token? = some t ∧ t ≠ 0 ∧ t < w.issued c.branchId
  · obtain ⟨t, htoken, hpos, hlt⟩ := hstale
    rw [exec_stale c now now' w t htoken hpos hlt]
    exact .inl rfl
  · have hcurrent : ∀ t, c.token? = some t → t ≠ 0 → w.issued c.branchId ≤ t := by
      intro t htoken hpos
      by_contra hlt
      exact hstale ⟨t, htoken, hpos, by omega⟩
    have hsame : (c.exec now now' w).2.entries.get? (b, Effects.activeSuspension) =
        w.entries.get? (b, Effects.activeSuspension) →
        (c.exec now now' w).2.step b Effects.activeSuspension =
          w.step b Effects.activeSuspension := by
      intro h
      unfold MemorySteps.step
      rw [h]
    have hdone : ∀ v, (c.exec now now' w).2.entries.get? (b, Effects.activeSuspension) =
        some (.done v) → (c.exec now now' w).2.step b Effects.activeSuspension = .done v := by
      intro v h
      unfold MemorySteps.step
      rw [h]
      rfl
    have htouch := exec_touch c now now' w b Effects.activeSuspension
    generalize hst : w.entries.get? (b, Effects.activeSuspension) = st at htouch
    generalize hst' : (c.exec now now' w).2.entries.get? (b, Effects.activeSuspension) = st' at htouch
    cases htouch with
    | same => exact .inl (hsame (hst'.trans hst.symm))
    | start t hc =>
      subst hc
      exact absurd rfl hfiles
    | finish v t hc =>
      subst hc
      exact absurd rfl hfiles
    | forget _ t hc =>
      subst hc
      exact absurd rfl hfiles
    | control _ v t hc =>
      subst hc
      exact .inr ⟨.inl ⟨v, t, rfl⟩, hcurrent, v, hdone v hst', .inl (hfiles rfl)⟩
    | transition _ tr v t hc =>
      subst hc
      rcases OneWriter.transition_files hfiles.1 (hdone v hst') with hold | ⟨-, hmem⟩
      · exact .inl ((hdone v hst').trans hold.symm)
      · exact .inr ⟨.inr ⟨tr, t, rfl⟩, hcurrent, v, hdone v hst',
          .inr ⟨hfiles.2 v hmem, b, tr, t, rfl⟩⟩

/-- What a thread learns is so. -/
theorem learn_exec {st : Step Value} (hfiles : Files k c)
    (hknown : ∀ st, k = some st → w.step b Effects.activeSuspension = st)
    (h : learn b k ⟨.ledger c, (c.exec now now' w).1.mapError .store⟩ = some st) :
    (c.exec now now' w).2.step b Effects.activeSuspension = st := by
  have hrest : (∀ b, ¬ Filing c b) → learn b k ⟨.ledger c, (c.exec now now' w).1.mapError .store⟩ = k →
      (c.exec now now' w).2.step b Effects.activeSuspension = st := by
    intro hno hsame
    have hcell : (c.exec now now' w).2.step b Effects.activeSuspension =
        w.step b Effects.activeSuspension := (exec_cell hfiles).resolve_right (fun h => hno b h.1)
    rw [hcell]
    exact hknown st (hsame.symm.trans h)
  cases c with
  | read b' key =>
    by_cases hkey : b' = b ∧ key = Effects.activeSuspension
    · obtain ⟨rfl, rfl⟩ := hkey
      have hfound : some (w.read b' Effects.activeSuspension) = some st :=
        (if_pos ⟨rfl, rfl⟩ : _ = _).symm.trans h
      exact Option.some.inj hfound
    · exact hrest (by simp [Filing]) (if_neg hkey)
  | writeControl b' key v t =>
    rcases Permanence.fence_cases w b' t
      ((.ok (), w.put b' key (.done v)) : Except StoreError Unit × MemorySteps Value) with
      ⟨-, hrefused⟩ | ⟨-, haccepted⟩
    · have hexec : (Call.writeControl b' key v t).exec now now' w = _ := hrefused
      rw [hexec] at h ⊢
      exact hknown st h
    · have hexec : (Call.writeControl b' key v t).exec now now' w = _ := haccepted
      rw [hexec] at h ⊢
      by_cases hkey : b' = b ∧ key = Effects.activeSuspension
      · obtain ⟨rfl, rfl⟩ := hkey
        have hwritten : some (Step.done v) = some st := (if_pos ⟨rfl, rfl⟩ : _ = _).symm.trans h
        rw [MemorySteps.step_put, if_pos rfl]
        exact Option.some.inj hwritten
      · have hother : k = some st := (if_neg hkey : _ = _).symm.trans h
        have hapart : (b, Effects.activeSuspension) ≠ (b', key) := by
          intro hsame
          obtain ⟨rfl, rfl⟩ := Prod.mk.inj hsame
          exact hkey ⟨rfl, rfl⟩
        rw [MemorySteps.step_put, if_neg hapart]
        exact hknown st hother
  | commitTransition | acquire | release => cases h
  | start | finishEffect | forget | enqueueInput | listInputs | claimInput | admitInputs
  | discardInputs =>
    exact hrest (by simp [Filing]) rfl

end

/-! The threads side by side. -/

open OneWriter (Held Inv Grants Leased workRule)

/-- What stands under the continuation key of the branch. -/
def cell (b : String) (s : Scene) : Step Value := s.world.store.step b Effects.activeSuspension

/-- The calls a round has parked. -/
def questions (round : Suspension) : List String :=
  round.continuation.calls.map (fun item => item.1.toolCallId)

def tag (round : Suspension) : String × List String := (round.callId, round.callIds)

/-- How far the round has come whose continuation stands there. -/
def stage : Step Value → Stage Suspension (String × List String) String Answer
  | .done (.suspension active) => .asked (Parked.parkOf active)
      (fun callId => fetch callId active.answers) (active.state = .resuming)
  | .done (.completed callId callIds) => .ended (callId, callIds)
  | _ => .idle

/-- The calls left open by the answers are those without one. -/
theorem undecided_nil {active : Suspension} : AgentRuntime.undecided active = [] ↔
    ∀ callId ∈ questions active, fetch callId active.answers ≠ none := by
  have hopen : AgentRuntime.undecided active = [] ↔ ∀ item ∈ active.continuation.calls,
      ¬ (fetch item.1.toolCallId active.answers).isNone = true :=
    List.map_eq_nil_iff.trans List.filter_eq_nil_iff
  rw [hopen]
  simp only [questions, List.forall_mem_map, Option.isNone_iff_eq_none, ne_eq]

theorem stage_parks {v : Value} (h : Parks v) (before : Step Value) :
    Stage.Move questions tag (stage before) (stage (.done v)) := by
  obtain ⟨active, rfl, hwaiting, hanswers⟩ := h
  have hstage : stage (.done (.suspension active)) =
      .asked (Parked.parkOf active) (fun _ => none) false := by
    simp [stage, hwaiting, hanswers, fetch]
  rw [hstage]
  exact .ask _ _

theorem stage_turns {active : Suspension} {v : Value} (h : Turns active v) :
    Stage.Goes questions tag (stage (.done (.suspension active))) (stage (.done v)) := by
  cases h with
  | answer call request answer parked =>
    have hanswered : (fun callId => fetch callId (upsert call.toolCallId answer active.answers)) =
        Function.update (fun callId => fetch callId active.answers) call.toolCallId
          (some answer) := by
      funext callId
      rw [fetch_upsert, Function.update_apply]
    have hstage : stage (.done (.suspension { active with
        answers := upsert call.toolCallId answer active.answers })) =
        .asked (Parked.parkOf active) (Function.update (fun callId => fetch callId active.answers)
          call.toolCallId (some answer)) (active.state = .resuming) := by
      simp only [stage, hanswered]
      rfl
    rw [hstage]
    exact .answer _ _ _ _ _ (List.mem_map_of_mem parked)
  | act decided =>
    have hstage : stage (.done (.suspension { active with state := .resuming })) =
        .asked (Parked.parkOf active) (fun callId => fetch callId active.answers) true := by
      simp [stage, Parked.parkOf]
    rw [hstage]
    exact .act _ _ _ (undecided_nil.mp decided)
  | finish resuming =>
    have hstage : stage (.done (.suspension active)) =
        .asked (Parked.parkOf active) (fun callId => fetch callId active.answers) true := by
      simp [stage, resuming]
    rw [hstage]
    exact .finish _ _

section
variable {out : Outside} {self : Nat → Nat} {at_ : Nat → Execution} {i : Nat} {s s' : Scene}

/-- What a thread knows under the newest token is so. -/
def Informed (at_ : Nat → Execution) (s : Scene) : Prop :=
  ∀ i owner, Held (filedName (at_ i)) owner (s.world.store.issued (filedName (at_ i)))
      (acts (log i s.events)) →
    ∀ st, known (filedName (at_ i)) (acts (log i s.events)) = some st → cell (filedName (at_ i)) s = st

/-- A round was parked on the branch. -/
def Asks (b : String) (e : Event) : Prop :=
  ∃ i tr t reply, e = ⟨i, .ledger (.commitTransition b tr t), .ok reply⟩

/-- How the continuation of a branch has moved in one operation. -/
def Stepped (b : String) (s s' : Scene) (e : Event) : Prop :=
  cell b s' = cell b s ∨ Stage.Move questions tag (stage (cell b s)) (stage (cell b s')) ∧
    (Stage.Goes questions tag (stage (cell b s)) (stage (cell b s')) ∨ Asks b e)

/-- The lease a thread held before its last operation, unless that was about the lease. -/
theorem held_init {b owner : String} {token : Nat} {done : List Done} {d : Done}
    (h : Held b owner token (done ++ [d])) :
    Held b owner token done ∨ ∃ ttl, d = ⟨.ledger (.acquire b owner ttl), .ok token⟩ := by
  obtain ⟨front, ttl, rest, hdone, hpos, hrest⟩ := h
  rcases List.eq_nil_or_concat rest with rfl | ⟨rest', d', rfl⟩
  · have hsplit : done ++ [d] = (front ++ [⟨.uuid4, .ok owner⟩]) ++
        [⟨.ledger (.acquire b owner ttl), .ok token⟩] := by simp [hdone]
    exact .inr ⟨ttl, (List.append_inj' hsplit rfl).2 |> List.cons.inj |>.1⟩
  · have hsplit : done ++ [d] = (front ++ ⟨.uuid4, .ok owner⟩ ::
        ⟨.ledger (.acquire b owner ttl), .ok token⟩ :: rest') ++ [d'] := by simp [hdone]
    obtain ⟨rfl, -⟩ := List.append_inj' hsplit rfl
    exact .inl ⟨front, ttl, rest', rfl, hpos, fun d hd => hrest d (by simp [hd])⟩

/-- A lease a thread holds is no newer than the newest. -/
theorem held_issued {b owner : String} {token : Nat} {front : List Event} (inv : Inv out at_ s)
    (hfront : front <+: log i s.events) (h : Held b owner token (acts front)) :
    token ≤ s.world.store.issued b := by
  obtain ⟨-, f, hf, hgrants⟩ := h.granted hfront
  exact inv.tokens.bounded b token f hf (.inl ⟨owner, hgrants⟩)

/-- Two threads do not hold the same lease. -/
theorem held_apart {b owner owner' : String} {token i j : Nat} (inv : Inv out at_ s)
    (h : Held b owner token (acts (log i s.events)))
    (h' : Held b owner' token (acts (log j s.events))) : i = j := by
  obtain ⟨hhanded, f, hf, hgrants⟩ := h.granted List.prefix_rfl
  obtain ⟨hhanded', f', hf', hgrants'⟩ := h'.granted List.prefix_rfl
  obtain rfl := inv.tokens.single b owner owner' token f hf f' hf' hgrants hgrants'
  exact inv.handed.apart i j owner hhanded hhanded'

/-- Whoever files a continuation holds the newest lease of the branch. -/
theorem filing_held {c : Call Value} {r : Except Exn (Op.ledger c).Res} {b : String}
    (inv : Inv out at_ s) (hlog : log i s'.events = log i s.events ++ [⟨i, .ledger c, r⟩])
    (ordered : Ordered (workRule (at_ i)) i s') (hfiling : Filing c b)
    (hcurrent : ∀ t, c.token? = some t → t ≠ 0 → s.world.store.issued c.branchId ≤ t) :
    b = filedName (at_ i) ∧ ∃ owner, Held (filedName (at_ i)) owner
      (s.world.store.issued (filedName (at_ i))) (acts (log i s.events)) := by
  obtain ⟨t, htoken, hbranch⟩ : ∃ t, c.token? = some t ∧ c.branchId = b := by
    rcases hfiling with ⟨v, t, rfl⟩ | ⟨tr, t, rfl⟩ <;> exact ⟨t, rfl, rfl⟩
  have hleased : Leased (at_ i) (acts (log i s.events)) ⟨.ledger c, r⟩ := by
    rcases ordered _ _ _ hlog (inv.placed.sound i) with hleased | hrenews
    · exact hleased
    · cases c <;> first | exact hrenews.elim | cases htoken
  obtain ⟨hown, owner, hheld⟩ := hleased.held c t rfl htoken
  have hpos : t ≠ 0 := by
    obtain ⟨-, -, -, -, hpos, -⟩ := hheld
    exact hpos
  have hnewest : t = s.world.store.issued (filedName (at_ i)) :=
    Nat.le_antisymm (held_issued inv List.prefix_rfl hheld) (hown ▸ hcurrent t htoken hpos)
  exact ⟨hbranch.symm.trans hown, owner, hnewest ▸ hheld⟩

theorem informed_exec {o : Op} {r : Except Exn o.Res} (inv : Inv out at_ s)
    (he : exec out self i o s r s') (ordered : Ordered (workRule (at_ i)) i s')
    (follows : Ordered (rule (at_ i)) i s') (h : Informed at_ s) : Informed at_ s' := by
  obtain ⟨hevents, hworld, hreply⟩ := exec_events he
  have hlog := log_mine hevents
  have hlater : ∀ b, s.world.store.issued b ≤ s'.world.store.issued b := by
    intro b
    rw [hworld]
    cases o with
    | ledger c => exact issued_later c _ _ _ b
    | _ => exact Nat.le_refl _
  -- a lease that is the newest was the newest before
  have hnewest : ∀ j owner, Held (filedName (at_ j)) owner (s'.world.store.issued (filedName (at_ j)))
      (acts (log j s.events)) → Held (filedName (at_ j)) owner
        (s.world.store.issued (filedName (at_ j))) (acts (log j s.events)) := by
    intro j owner hheld
    have hsame := Nat.le_antisymm (held_issued inv List.prefix_rfl hheld) (hlater _)
    exact hsame ▸ hheld
  intro j owner hheld st hknown
  by_cases hj : j = i
  · subst hj
    have hacts : acts (log j s'.events) = acts (log j s.events) ++ [⟨o, r⟩] := by
      rw [hlog]
      exact List.map_append ..
    rw [hacts] at hheld hknown
    rw [known_snoc] at hknown
    rcases held_init hheld with hbefore | ⟨ttl, hasked⟩
    · have hold := h j owner (hnewest j owner hbefore)
      cases o with
      | ledger c =>
        have hr : r = (c.exec (out.clock s.world.instant) (out.clock (s.world.instant + 1))
          s.world.store).1.mapError .store := hreply
        have hcell : cell (filedName (at_ j)) s' = (c.exec (out.clock s.world.instant)
            (out.clock (s.world.instant + 1)) s.world.store).2.step (filedName (at_ j))
              Effects.activeSuspension := by
          unfold cell
          rw [hworld]
          rfl
        rw [hr] at hknown
        rw [hcell]
        exact learn_exec (follows _ _ _ hlog c rfl) hold hknown
      | _ =>
        have hcell : cell (filedName (at_ j)) s' = cell (filedName (at_ j)) s := by
          unfold cell
          rw [hworld]
          rfl
        rw [hcell]
        exact hold st hknown
    · rw [hasked] at hknown
      cases hknown
  · rw [log_other hevents j hj] at hheld hknown
    have hbefore := hnewest j owner hheld
    have hold := h j owner hbefore st hknown
    suffices hcell : cell (filedName (at_ j)) s' = cell (filedName (at_ j)) s from hcell.trans hold
    unfold cell
    rw [hworld]
    cases o with
    | ledger c =>
      refine (exec_cell (follows _ _ _ hlog c rfl)).resolve_right ?_
      intro hfiled
      obtain ⟨hfiling, hcurrent, -⟩ := hfiled
      obtain ⟨hb, owner', hheld'⟩ := filing_held inv hlog ordered hfiling hcurrent
      rw [← hb] at hheld'
      exact hj (held_apart inv hbefore hheld')
    | _ => rfl

/-- One operation of any thread moves the continuation of any branch as a round moves. -/
theorem stepped_exec {o : Op} {r : Except Exn o.Res} (inv : Inv out at_ s)
    (he : exec out self i o s r s') (ordered : Ordered (workRule (at_ i)) i s')
    (follows : Ordered (rule (at_ i)) i s') (h : Informed at_ s) (b : String) :
    Stepped b s s' ⟨i, o, r⟩ := by
  obtain ⟨hevents, hworld, hreply⟩ := exec_events he
  have hlog := log_mine hevents
  have hsame : s'.world.store = s.world.store → cell b s' = cell b s := by
    intro hstore
    unfold cell
    rw [hstore]
  cases o with
  | ledger c =>
    have hstore : s'.world.store = (c.exec (out.clock s.world.instant)
        (out.clock (s.world.instant + 1)) s.world.store).2 := by
      rw [hworld]
      rfl
    have hcell : cell b s' = (c.exec (out.clock s.world.instant)
        (out.clock (s.world.instant + 1)) s.world.store).2.step b Effects.activeSuspension :=
      congrArg (fun w => w.step b Effects.activeSuspension) hstore
    rcases exec_cell (b := b) (follows _ _ _ hlog c rfl) with hkept | ⟨hfiling, hcurrent, v, hv, hmade⟩
    · exact .inl (hcell.trans hkept)
    · rw [← hcell] at hv
      rcases hmade with ⟨active, hknown, hturns⟩ | ⟨hparks, b', tr, t, hc⟩
      · obtain ⟨rfl, owner, hheld⟩ := filing_held inv hlog ordered hfiling hcurrent
        have hbefore : cell (filedName (at_ i)) s = .done (.suspension active) :=
          h i owner hheld _ hknown
        have hgoes := stage_turns hturns
        rw [← hbefore, ← hv] at hgoes
        exact .inr ⟨.goes hgoes, .inl hgoes⟩
      · have hmove := stage_parks hparks (cell b s)
        rw [← hv] at hmove
        cases r with
        | error error =>
          refine .inl (hsame ?_)
          have hrefused : (c.exec (out.clock s.world.instant) (out.clock (s.world.instant + 1))
              s.world.store).1.mapError .store = .error error := hreply.symm
          cases hresult : (c.exec (out.clock s.world.instant) (out.clock (s.world.instant + 1))
              s.world.store).1 with
          | error refusal => rw [hstore, exec_refused c _ _ _ hresult]
          | ok reply =>
            rw [hresult] at hrefused
            cases hrefused
        | ok reply =>
          subst hc
          have hb : b' = b := by
            rcases hfiling with ⟨_, _, hcall⟩ | ⟨_, _, hcall⟩
            · cases hcall
            · cases hcall
              rfl
          subst hb
          exact .inr ⟨hmove, .inr ⟨i, tr, t, reply, rfl⟩⟩
  | _ => exact .inl (hsame (by rw [hworld]; rfl))

end

/-! Between two moments. -/

/-- What has become of a continuation that stood under the key: no call of it is gone and none is
undecided again, and it is not waiting again once it is resumed; or it is completed. -/
def Kept (active : Suspension) : Step Value → Prop
  | .done (.suspension active') => Parked.parkOf active' = Parked.parkOf active ∧
      (∀ callId, fetch callId active.answers ≠ none → fetch callId active'.answers ≠ none) ∧
      (active.state = .resuming → active'.state = .resuming)
  | .done (.completed callId callIds) => callId = active.callId ∧ callIds = active.callIds
  | _ => False

/-- A continuation is resumed only with every call of it decided, and nothing else is. -/
def Decided : Step Value → Prop
  | .done (.suspension active) =>
      (∀ callId, fetch callId active.answers ≠ none → callId ∈ questions active) ∧
      (active.state = .resuming → AgentRuntime.undecided active = [])
  | _ => True

theorem kept_onto {active : Suspension} {later : Step Value}
    (h : (stage later).Onto tag (Parked.parkOf active) (fun callId => fetch callId active.answers)
      (active.state = .resuming)) : Kept active later := by
  cases later with
  | done v =>
    cases v with
    | suspension active' =>
      obtain ⟨hround, hanswers, hacting⟩ := h
      exact ⟨hround, hanswers, by simpa using hacting⟩
    | completed callId callIds =>
      have htag : (callId, callIds) = tag (Parked.parkOf active) := h
      cases htag
      exact ⟨rfl, rfl⟩
    | _ => exact h.elim
  | _ => exact h.elim

theorem decided_sound {found : Step Value} : Decided found ↔ (stage found).Sound questions := by
  cases found with
  | done v =>
    cases v with
    | suspension active =>
      have hstage : (stage (.done (.suspension active))).Sound questions ↔
          (∀ callId, fetch callId active.answers ≠ none → callId ∈ questions active) ∧
            (decide (active.state = .resuming) = true →
              ∀ callId ∈ questions active, fetch callId active.answers ≠ none) := Iff.rfl
      rw [hstage, decide_eq_true_iff, ← undecided_nil]
      exact Iff.rfl
    | _ => exact Iff.rfl
  | _ => exact Iff.rfl

/-- However the continuation of a branch came to stand where it does. -/
structure Lives (b : String) (s s' : Scene) (events : List Event) : Prop where
  events_eq : s'.events = s.events ++ events
  moves : Relation.ReflTransGen (Stage.Move questions tag) (stage (cell b s)) (stage (cell b s'))
  goes : (∀ e ∈ events, ¬ Asks b e) →
    Relation.ReflTransGen (Stage.Goes questions tag) (stage (cell b s)) (stage (cell b s'))

theorem Lives.step {b : String} {s s' s'' : Scene} {events : List Event} {e : Event}
    (h : Lives b s s' events) (hevents : s''.events = s'.events ++ [e])
    (stepped : Stepped b s' s'' e) : Lives b s s'' (events ++ [e]) where
  events_eq := by rw [hevents, h.events_eq, List.append_assoc]
  moves := by
    rcases stepped with hsame | ⟨hmove, -⟩
    · rw [hsame]
      exact h.moves
    · exact h.moves.tail hmove
  goes := by
    intro hasks
    have hbefore := h.goes (fun f hf => hasks f (List.mem_append_left _ hf))
    rcases stepped with hsame | ⟨-, hgoes | hparked⟩
    · rw [hsame]
      exact hbefore
    · exact hbefore.tail hgoes
    · exact absurd hparked (hasks e (by simp))

/-- What each operation does to the continuations it does throughout a run. -/
theorem lives_interleaved {out : Outside} {self : Nat → Nat} {at_ : Nat → Execution}
    {pool pool' : Nat → Program Reply} {s s' : Scene}
    (coordinates : ∀ i j, filedName (at_ i) = filedName (at_ j) →
      (at_ i).conversation = (at_ j).conversation)
    (always : ∀ pool' s', Interleaved (exec out self) (fun _ _ => False) pool s pool' s' →
      ∀ i, Ordered (workRule (at_ i)) i s' ∧ Ordered (rule (at_ i)) i s')
    (inv : Inv out at_ s) (informed : Informed at_ s)
    (run : Interleaved (exec out self) (fun _ _ => False) pool s pool' s') :
    Inv out at_ s' ∧ Informed at_ s' ∧ ∀ b, ∃ events, Lives b s s' events := by
  refine run.along (J := fun s' => ∀ i, Ordered (workRule (at_ i)) i s' ∧ Ordered (rule (at_ i)) i s')
    (I := fun s' => Inv out at_ s' ∧ Informed at_ s' ∧ ∀ b, ∃ events, Lives b s s' events) always
    ?_ (fun _ _ h => h.elim) ⟨inv, informed, fun b => ⟨[], by simp, .refl, fun _ => .refl⟩⟩
  intro i o s₁ r s₂ he ordered h
  obtain ⟨hinv, hinformed, hlives⟩ := h
  refine ⟨OneWriter.inv_exec coordinates he (fun i => (ordered i).1) hinv,
    informed_exec hinv he (ordered i).1 (ordered i).2 hinformed, fun b => ?_⟩
  obtain ⟨events, lives⟩ := hlives b
  exact ⟨_, lives.step (exec_events he).1
    (stepped_exec hinv he (ordered i).1 (ordered i).2 hinformed b)⟩

/-- However many calls of however many runtimes run side by side, with the renewals of their leases
early or late, and whoever crashes: from any moment to any later one the continuation of a branch
moves as a round does. Every answer it has is to a call of it, it is resumed only with all of them
decided, and while no other round is parked no call of it is undecided again. -/
theorem continuation_lives {out : Outside} {self : Nat → Nat} {at_ : Nat → Execution}
    {pool pool' pool'' : Nat → Program Reply} {s s' s'' : Scene}
    (works : ∀ i, Works (at_ i) (pool i))
    (coordinates : ∀ i j, filedName (at_ i) = filedName (at_ j) →
      (at_ i).conversation = (at_ j).conversation)
    (parked : ∀ i active, s.world.store.step (filedName (at_ i)) Effects.activeSuspension =
      .done (.suspension active) → active.conversationId = (at_ i).conversation)
    (issued : ∀ b lease, s.world.store.leases.get? b = some lease →
      lease.token ≤ s.world.store.issued b)
    (apart : ∀ i j, j ≠ i → self j ≠ self i) (fresh : s.events = [])
    (run : Interleaved (exec out self) (fun _ _ => False) pool s pool' s')
    (on : Interleaved (exec out self) (fun _ _ => False) pool' s' pool'' s'') (b : String) :
    ∃ events, Lives b s' s'' events ∧ (Decided (cell b s') → Decided (cell b s'')) ∧
      ∀ active, cell b s' = .done (.suspension active) → (∀ e ∈ events, ¬ Asks b e) →
        Kept active (cell b s'') := by
  have halways : ∀ pool' s', Interleaved (exec out self) (fun _ _ => False) pool s pool' s' →
      ∀ i, Ordered (workRule (at_ i)) i s' ∧ Ordered (rule (at_ i)) i s' := fun _ _ run i =>
    ⟨OneWriter.ordered_works works apart fresh run i,
      Order.ordered_of_safe (fun a => keeping_works (works i) _ trivial) (apart i)
        (by simp [fresh, log]) run⟩
  have hinformed : Informed at_ s := by
    intro i owner _ st hknown
    rw [fresh] at hknown
    cases hknown
  obtain ⟨hinv, hinformed', -⟩ := lives_interleaved coordinates halways
    (OneWriter.inv_fresh parked issued fresh) hinformed run
  obtain ⟨-, -, hlives⟩ := lives_interleaved coordinates
    (fun _ _ on => halways _ _ (run.trans on)) hinv hinformed' on
  obtain ⟨events, lives⟩ := hlives b
  refine ⟨events, lives, fun hdecided => ?_, fun active hactive hasks => ?_⟩
  · rw [decided_sound] at hdecided ⊢
    exact lives.moves.head_induction_on (motive := fun before _ =>
      before.Sound questions → (stage (cell b s'')).Sound questions) (fun h => h)
      (fun hmove _ ih h => ih (hmove.sound h)) hdecided
  · have hgoes := lives.goes hasks
    rw [hactive] at hgoes
    exact kept_onto (by simpa using Stage.onto_path hgoes)

open Mediated (personal promptThenApprove sender)

/-- The prompt has parked. -/
def asking : (Nat → Program Reply) × Scene :=
  scheduled (Scene.perform personal id) (List.replicate 62 0) promptThenApprove
    ⟨{}, fun _ => {}, []⟩

/-- The answer to it has come in. -/
def answering : (Nat → Program Reply) × Scene :=
  scheduled (Scene.perform personal id) (List.replicate 40 1) asking.1 asking.2

def standing (s : Scene) : Option (List String × Bool) :=
  (AgentRuntime.liveSuspension (cell "run" s)).map
    (fun active => (active.answers.map Prod.fst, active.state = .resuming))

theorem continuation_lives_approved : standing asking.2 = some ([], false) ∧
    standing answering.2 = some (["c1"], true) ∧
    ∃ events, Lives "run" asking.2 answering.2 events ∧
      (Decided (cell "run" asking.2) → Decided (cell "run" answering.2)) ∧
      ∀ active, cell "run" asking.2 = .done (.suspension active) →
        (∀ e ∈ events, ¬ Asks "run" e) → Kept active (cell "run" answering.2) := by
  refine ⟨by decide +kernel, by decide +kernel, ?_⟩
  have run := interleaved_scheduled (Scene.perform personal id) (fun _ _ => False)
    (List.replicate 62 0) promptThenApprove ⟨{}, fun _ => {}, []⟩
  have on := interleaved_scheduled (Scene.perform personal id) (fun _ _ => False)
    (List.replicate 40 1) asking.1 asking.2
  have works : ∀ i, Works { branchId := "run" } (promptThenApprove i) := fun i =>
    .inl ⟨{}, sender, _, rfl, gathers_standard _ _ _, .inl rfl⟩
  refine continuation_lives works (fun _ _ _ => rfl) ?_ ?_ (fun _ _ hj => hj) rfl run on "run"
  · simp [MemorySteps.step]
  · simp [Dict.get?, Dict.empty, fetch]

end Semora.Proofs.Life
