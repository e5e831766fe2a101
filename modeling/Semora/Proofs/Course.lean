import Semora.Lib.Safety
import Semora.Runtime.Entry

/-! The way of a call through the runtime, walked once: it asks for the lease, looks for what is
parked, answers it or takes it up, and lets go. What is left to show is what each step does. -/

namespace Semora.Proofs
open Semora.Lib Semora.Store Semora.Transcript

/-- What a call knows where it is on its way: before the lease, under it, once it has looked, with
nothing parked, with all calls of what is parked decided, while it takes that up, behind the attempt
that did so; and how it ends, under the lease and without. -/
structure Course (σ : Type) where
  idle : σ → Prop
  named : String → σ → Prop
  leased : Nat → σ → Prop
  looked : Nat → Step Value → σ → Prop
  clear : Nat → σ → Prop
  decided : Nat → Suspension → List (String × Answer) → σ → Prop
  resuming : Nat → Suspension → List (String × Answer) → σ → Prop
  acted : Nat → Suspension → Outcome → σ → Prop
  ends : Nat → Except Exn Outcome → σ → Prop
  closes : Except Exn Outcome → σ → Prop

namespace Course

section
variable {σ α : Type} (c : Course σ)

/-- A step before the lease, or after it. -/
def Outer (M : α → σ → Prop) : Except Exn α → σ → Prop :=
  Prog.either M (fun error => c.closes (.error error))

/-- A step under the lease. -/
def Inner (t : Nat) (M : α → σ → Prop) : Except Exn α → σ → Prop :=
  Prog.either M (fun error => c.ends t (.error error))

end

section
variable {σ : Type} (exec : Prog.Exec Op Op.Res Exn σ) (R G : σ → σ → Prop)

/-- The steps that take the lease of a branch and give it back. -/
structure Leases (c : Course σ) (rt : AgentRuntime) (e : Execution) (b : String) : Prop where
  here : View.filed ⟨e.conversationId⟩ e.branchId = b
  fails : ∀ error s, c.idle s → c.closes (.error error) s
  bare : rt.executionStore = false →
    (∀ s, c.idle s → c.leased 0 s) ∧ ∀ r s, c.ends 0 r s → c.closes r s
  names : ∀ s, c.idle s → Prog.safe exec R G (perform .uuid4) (c.Outer c.named) s
  acquires : ∀ owner s, c.named owner s → Prog.safe exec R G
    (perform (.ledger (.acquire b owner rt.leaseTtl))) (c.Outer (fun t s' =>
      (t ≠ 0 → c.leased t s') ∧ ∀ error, c.closes (.error error) s')) s
  releases : ∀ owner t r s, c.ends t r s → Prog.safe exec R G
    (perform (.ledger (.release b owner))) (c.Outer (fun _ => c.closes r)) s

/-- The steps of a call under the lease. -/
structure Steps (c : Course σ) (rt : AgentRuntime) (e : Execution) (b : String) (t : Nat)
    (agent : Agent) : Prop where
  here : View.filed ⟨e.conversationId⟩ e.branchId = b
  leased_fails : ∀ error s, c.leased t s → c.ends t (.error error) s
  looked_fails : ∀ v error s, c.looked t v s → c.ends t (.error error) s
  clear_fails : ∀ error s, c.clear t s → c.ends t (.error error) s
  decided_fails : ∀ active answers error s, c.decided t active answers s →
    c.ends t (.error error) s
  attempts : ∀ prompt options s, c.leased t s →
    Prog.safe exec R G (rt.attemptRun e t agent prompt options) (c.ends t) s
  looks : ∀ s, c.leased t s → Prog.safe exec R G
    (perform (.ledger (.read b Effects.activeSuspension))) (c.Inner t (c.looked t)) s
  reads : ∀ v s, c.looked t v s → AgentRuntime.liveSuspension v = none → Prog.safe exec R G
    (perform (.ledger (.read b Effects.pendingRound))) (c.Inner t (fun _ => c.clear t)) s
  again : ∀ options s, c.clear t s →
    Prog.safe exec R G (rt.attemptRun e t agent none options) (c.ends t) s
  marks : ∀ active answers s, c.decided t active answers s → Prog.safe exec R G
    (perform (.ledger (.writeControl b Effects.activeSuspension
      (.suspension { active with state := .resuming, answers }) t)))
    (c.Inner t (fun _ => c.resuming t active answers)) s
  acts : ∀ active answers options s, c.resuming t active answers s → Prog.safe exec R G
    (rt.attemptRun (AgentRuntime.rejoined e active) t agent none options)
    (c.Inner t (c.acted t active)) s
  completes : ∀ active outcome s, c.acted t active outcome s → Prog.safe exec R G
    (perform (.ledger (.writeControl b Effects.activeSuspension
      (.completed active.callId active.callIds) t)))
    (c.Inner t (fun _ => c.ends t (.ok outcome))) s

/-- The step that puts an answer to the continuation. -/
def Answers (c : Course σ) (b : String) (t : Nat) (pendingId : String) (answer : Answer) : Prop :=
  ∀ v active call s, c.looked t v s → AgentRuntime.liveSuspension v = some active →
    AgentRuntime.callOf active pendingId = some call → Prog.safe exec R G
      (perform (.ledger (.writeControl b Effects.activeSuspension (.suspension
        { active with answers := upsert call.toolCallId answer active.answers }) t)))
      (c.Inner t (fun _ s' => (AgentRuntime.undecided
          { active with answers := upsert call.toolCallId answer active.answers } = [] →
            c.decided t active (upsert call.toolCallId answer active.answers) s') ∧
        ∀ error, c.ends t (.error error) s')) s

/-- What is found all decided may be taken up. -/
def Decides (c : Course σ) (t : Nat) : Prop :=
  ∀ v active s, c.looked t v s → AgentRuntime.liveSuspension v = some active →
    AgentRuntime.undecided active = [] → c.decided t active active.answers s

/-- The steps of every call. -/
structure Keeps (c : Course σ) (rt : AgentRuntime) (e : Execution) (b : String) (agent : Agent) :
    Prop extends Leases exec R G c rt e b where
  peeks : rt.executionStore = true → ∀ s, c.idle s →
    Prog.safe exec R G (rt.active e) (c.Outer (fun _ => c.idle)) s
  queues : ∀ active text promptId s, c.idle s →
    Prog.safe exec R G (rt.queueBehind e active text promptId) c.closes s
  steps : ∀ t, Steps exec R G c rt e b t agent

end

section
variable {σ : Type} {exec : Prog.Exec Op Op.Res Exn σ} {R G : σ → σ → Prop} {c : Course σ}
variable {rt : AgentRuntime} {e : Execution} {b : String} {agent : Agent} {s : σ} {t : Nat}

theorem storeFor_some (hledger : rt.executionStore = true) :
    rt.storeFor e = some ⟨e.conversationId⟩ := by
  simp [AgentRuntime.storeFor, hledger]

theorem storeFor_none (hledger : rt.executionStore = false) : rt.storeFor e = none := by
  simp [AgentRuntime.storeFor, hledger]

theorem of_live {v : Step Value} {active : Suspension}
    (h : AgentRuntime.liveSuspension v = some active) : v = .done (.suspension active) := by
  unfold AgentRuntime.liveSuspension at h
  split at h
  · rw [Option.some.inj h]
  · cases h

theorem rejoined_home {active : Suspension} (h : active.conversationId = e.conversation) :
    AgentRuntime.rejoined e active = e := by
  obtain ⟨branchId, conversationId, subject⟩ := e
  cases conversationId with
  | some conversation => rfl
  | none =>
    have hb : active.conversationId = branchId := h
    simp [AgentRuntime.rejoined, executionContext, hb]

theorem requireStore_none (hledger : rt.executionStore = false) : rt.requireStore e =
    .raise (.typeError "this needs a ledger; pass execution_store=") := by
  unfold AgentRuntime.requireStore
  rw [storeFor_none hledger]

theorem requireStore_some (hledger : rt.executionStore = true) :
    rt.requireStore e = Prog.ret ⟨e.conversationId⟩ := by
  unfold AgentRuntime.requireStore
  rw [storeFor_some hledger]
  rfl

/-- A body under the lease of its branch. -/
theorem Leases.lease (h : Leases exec R G c rt e b) {body : Nat → Program Outcome}
    (hbody : ∀ t s', c.leased t s' → Prog.safe exec R G (body t) (c.ends t) s') (hs : c.idle s) :
    Prog.safe exec R G (rt.lease e body) c.closes s := by
  unfold AgentRuntime.lease
  cases hledger : rt.executionStore with
  | false =>
    rw [storeFor_none hledger]
    obtain ⟨hleased, hcloses⟩ := h.bare hledger
    exact Prog.safe_post (hbody 0 s (hleased s hs)) hcloses
  | true =>
    rw [storeFor_some hledger]
    simp only [Prog.bind_eq]
    rw [h.here]
    apply Prog.safe_seq (h.names s hs)
    intro owner s₁ h₁
    apply Prog.safe_seq (h.acquires owner s₁ h₁)
    intro t s₂ h₂
    split
    · exact h₂.2 _
    · rename_i hpos
      apply (Prog.safe_finally _ _ _ _).mpr
      apply Prog.safe_post (hbody t s₂ (h₂.1 hpos))
      intro r s₃ h₃
      apply Prog.safe_post (h.releases owner t r s₃ h₃)
      intro r' s₄ h₄
      cases r' <;> exact h₄

/-- Taking up a continuation all of whose calls are decided. -/
theorem Steps.finalize (h : Steps exec R G c rt e b t agent) {active : Suspension}
    {answers : List (String × Answer)} (controls : Option String) (rules : String)
    (hs : c.decided t active answers s) :
    Prog.safe exec R G (rt.finalize e t agent active answers controls rules) (c.ends t) s := by
  unfold AgentRuntime.finalize
  cases hledger : rt.executionStore with
  | false =>
    rw [requireStore_none hledger]
    exact h.decided_fails _ _ _ s hs
  | true =>
    simp only [requireStore_some hledger, Prog.bind_eq, Prog.ret_bind, View.writeControl]
    rw [h.here]
    split
    · exact h.decided_fails _ _ _ s hs
    · apply Prog.safe_seq (h.marks active answers s hs)
      intro _ s₁ h₁
      apply Prog.safe_seq (h.acts active answers _ s₁ h₁)
      intro outcome s₂ h₂
      apply Prog.safe_seq (h.completes active outcome s₂ h₂)
      exact fun _ _ h₃ => h₃

/-- Looking for the continuation. -/
theorem Steps.look (h : Steps exec R G c rt e b t agent) {f : Option Suspension → Program Outcome}
    (hs : c.leased t s) (hf : ∀ v s', c.looked t v s' →
      Prog.safe exec R G (f (AgentRuntime.liveSuspension v)) (c.ends t) s') :
    Prog.safe exec R G ((rt.active e).bind f) (c.ends t) s := by
  unfold AgentRuntime.active
  cases hledger : rt.executionStore with
  | false =>
    rw [requireStore_none hledger]
    exact h.leased_fails _ s hs
  | true =>
    simp only [requireStore_some hledger, Prog.bind_eq, Prog.pure_eq, Prog.ret_bind, View.read,
      Prog.bind_assoc]
    rw [h.here]
    exact Prog.safe_seq (h.looks s hs) hf

theorem Steps.resumeLeased (h : Steps exec R G c rt e b t agent) {pendingId : String}
    {answer : Answer} (answers : Answers exec R G c b t pendingId answer)
    (controls : Option String) (rules : String) (hs : c.leased t s) :
    Prog.safe exec R G (rt.resumeLeased e t pendingId answer agent controls rules) (c.ends t) s := by
  unfold AgentRuntime.resumeLeased
  cases hledger : rt.executionStore with
  | false =>
    rw [requireStore_none hledger]
    exact h.leased_fails _ s hs
  | true =>
    simp only [requireStore_some hledger, Prog.bind_eq, Prog.ret_bind, View.writeControl]
    rw [h.here]
    refine h.look hs (fun v s₁ h₁ => ?_)
    split
    · exact h.looked_fails v _ s₁ h₁
    · rename_i active call hfound
      obtain ⟨active', hactive, hcall⟩ := Option.bind_eq_some_iff.mp hfound
      obtain ⟨call', hcallOf, hpair⟩ := Option.map_eq_some_iff.mp hcall
      cases hpair
      apply Prog.safe_seq (answers v active call s₁ h₁ hactive hcallOf)
      intro _ s₂ h₂
      split
      · rename_i hdecided
        exact h.finalize controls rules (h₂.1 hdecided)
      · exact h₂.2 _

theorem Steps.recoverLeased (h : Steps exec R G c rt e b t agent) (decides : Decides c t)
    (history : List ModelMessage) (controls : Option String) (rules : String) (hs : c.leased t s) :
    Prog.safe exec R G (rt.recoverLeased e t agent history controls rules) (c.ends t) s := by
  unfold AgentRuntime.recoverLeased
  cases hledger : rt.executionStore with
  | false =>
    rw [storeFor_none hledger]
    exact h.attempts none _ s hs
  | true =>
    rw [storeFor_some hledger]
    refine h.look hs (fun v s₁ h₁ => ?_)
    split
    · rename_i active hactive
      split
      · rename_i hdecided
        exact h.finalize controls rules (decides v active s₁ h₁ hactive hdecided)
      · exact h.looked_fails v _ s₁ h₁
    · rename_i hnone
      simp only [Prog.bind_eq, View.read]
      rw [h.here]
      apply Prog.safe_seq (h.reads v s₁ h₁ hnone)
      intro recorded s₂ h₂
      split
      · exact h.again _ s₂ h₂
      · exact h.clear_fails _ s₂ h₂

theorem Keeps.run (h : Keeps exec R G c rt e b agent) (prompt : Option String) (options : Options)
    (hs : c.idle s) : Prog.safe exec R G (rt.run e agent prompt options) c.closes s := by
  have hattempt : ∀ prompt s, c.idle s → Prog.safe exec R G
      (rt.lease e (fun token => rt.attemptRun e token agent prompt options)) c.closes s :=
    fun prompt s hs => h.toLeases.lease (fun t s' => (h.steps t).attempts prompt options s') hs
  unfold AgentRuntime.run
  split
  · exact hattempt none s hs
  · split
    · rename_i hledger
      apply Prog.safe_seq (h.peeks hledger s hs)
      intro parked s₁ h₁
      split
      · exact h.queues _ _ _ s₁ h₁
      · exact hattempt _ s₁ h₁
    · exact hattempt _ s hs

theorem Keeps.resume (h : Keeps exec R G c rt e b agent) {pendingId : String} {answer : Answer}
    (answers : ∀ t, Answers exec R G c b t pendingId answer) (controls : Option String)
    (rules : String) (hs : c.idle s) :
    Prog.safe exec R G (rt.resume e pendingId answer agent controls rules) c.closes s := by
  unfold AgentRuntime.resume
  cases hledger : rt.executionStore with
  | false =>
    rw [requireStore_none hledger]
    exact h.fails _ s hs
  | true =>
    rw [requireStore_some hledger]
    exact h.toLeases.lease
      (fun t _ hs' => (h.steps t).resumeLeased (answers t) controls rules hs') hs

theorem Keeps.recover (h : Keeps exec R G c rt e b agent) (decides : ∀ t, Decides c t)
    (history : List ModelMessage) (controls : Option String) (rules : String) (hs : c.idle s) :
    Prog.safe exec R G (rt.recover e agent history controls rules) c.closes s :=
  h.toLeases.lease
    (fun t _ hs' => (h.steps t).recoverLeased (decides t) history controls rules hs') hs

theorem Keeps.fork (h : Keeps exec R G c rt e b agent) {src : Execution} {at_ : Option Uuid}
    {history : Option (List ModelMessage)}
    (histories : ∀ s, c.idle s →
      Prog.safe exec R G (rt.forkHistory src at_ history) (c.Outer (fun _ => c.idle)) s)
    (copies : ∀ t history s, c.leased t s →
      Prog.safe exec R G (rt.copyRound src e t history) (c.Inner t (fun _ => c.leased t)) s)
    (prompt : Option String) (regate : Bool) (options : Options) (hs : c.idle s) :
    Prog.safe exec R G (rt.fork src at_ e agent prompt history regate options) c.closes s := by
  apply Prog.safe_seq (histories s hs)
  intro history s₁ h₁
  refine h.toLeases.lease (fun t s₂ h₂ => ?_) h₁
  apply Prog.safe_seq (copies t history s₂ h₂)
  exact fun copied s₃ h₃ => (h.steps t).attempts prompt _ s₃ h₃

end

end Course

end Semora.Proofs
