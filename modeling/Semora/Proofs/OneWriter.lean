import Semora.Proofs.Coordinates
import Semora.Proofs.Mediated
import Semora.Proofs.Order
import Semora.Proofs.Parked
import Semora.Proofs.Throughout

/-! One writer at a time: what the calls of the runtime write to a branch, each writes inside a
lease of its own, and what is written under an older lease than the newest is refused. -/

namespace Semora.Proofs.OneWriter
open Semora.Lib Semora.Store Semora.Transcript
open Semora.Proofs.Order (Follows Ordered acts mem_acts mem_snoc ordered_of_safe follows_exec)

/-- The value is no continuation of another conversation. -/
def Of (conversation : String) (v : Value) : Prop :=
  ∀ active, v = .suspension active → active.conversationId = conversation

/-- What the call files under the continuation key is of this conversation. -/
def Remembers (conversation : String) : Call Value → Prop
  | .finishEffect _ k v _ | .writeControl _ k v _ => k = Effects.activeSuspension → Of conversation v
  | .commitTransition _ tr _ => tr.effects = [] ∧
      ∀ item ∈ tr.controls, item.1 = Effects.activeSuspension → Of conversation item.2
  | _ => True

/-- What may be done under the lease of the branch: what is written there carries the token. -/
def Under (e : Execution) (token : Nat) : Op → Prop
  | .ledger c => c.owner? = none ∧ (∀ t, c.token? = some t → c.branchId = filedName e ∧ t = token) ∧
      Remembers e.conversation c
  | _ => True

/-- The thread has found no continuation there but of its conversation. -/
def Sound (e : Execution) (done : List Done) : Prop :=
  ∀ active, (⟨.ledger (.read (filedName e) Effects.activeSuspension),
    .ok (.done (.suspension active))⟩ : Done) ∈ done → active.conversationId = e.conversation

/-- The lease was asked for under an identifier just handed out and granted under the token, and
neither given back nor asked for again. -/
def Held (b owner : String) (token : Nat) (done : List Done) : Prop :=
  ∃ front ttl rest, done = front ++ ⟨.uuid4, .ok owner⟩ ::
      ⟨.ledger (.acquire b owner ttl), .ok token⟩ :: rest ∧
    token ≠ 0 ∧ ∀ d ∈ rest, ∀ c, d.op = .ledger c → c.owner? = none

/-- What has to come before an operation of a call. -/
structure Leased (e : Execution) (done : List Done) (d : Done) : Prop where
  remembers : ∀ c, d.op = .ledger c → Remembers e.conversation c
  held : ∀ c token, d.op = .ledger c → c.token? = some token → c.branchId = filedName e ∧
    ∃ owner, Held (filedName e) owner token done
  asked : ∀ b owner ttl, d.op = .ledger (.acquire b owner ttl) → b = filedName e ∧
    ∃ front, done = front ++ [⟨.uuid4, .ok owner⟩]

/-- The rule of a call, and of what it does under its lease. -/
def rule (e : Execution) (done : List Done) (d : Done) : Prop := Sound e done → Leased e done d

def bodyRule (e : Execution) (token : Nat) (done : List Done) (d : Done) : Prop :=
  Sound e done → Under e token d.op

section
variable {e : Execution} {token : Nat} {done : List Done} {s : Own}

theorem Sound.before {done' : List Done} (h : Sound e done') (hdone : done <+: done') :
    Sound e done := fun active hmem => h active (hdone.subset hmem)

/-! What an attempt does. -/

theorem under_plain {o : Op} (h : Throughout.Plain o) : Under e token o := by
  cases o with
  | ledger c => exact h.elim
  | _ => trivial

/-- A control record that is no continuation. -/
theorem remembers_control {b k : String} {value : Value} (hk : k ≠ Effects.activeSuspension) :
    Remembers e.conversation (.writeControl b k value token) := fun h => absurd h hk

theorem remembers_effect {b k : String} {value : Value} (hk : Effects.EffectKey k) :
    Remembers e.conversation (.finishEffect b k value token) := fun h =>
  absurd h (Effects.effect_control hk (.inr (.inr (.inr rfl))))

theorem under_performs {eff : Effects} {o : Op} (hstore : ∀ v, eff.store = some v →
    v.filed eff.branchId = filedName e ∧ eff.token = token) (hinputs : eff.inputs = eff.store)
    (h : Performs eff false .effects o) : Under e token o := by
  cases h with
  | read v hv k hk => exact ⟨rfl, by simp [Call.token?], trivial⟩
  | listInputs v hv => exact ⟨rfl, by simp [Call.token?], trivial⟩
  | enqueueInput v hv => exact ⟨rfl, by simp [Call.token?], trivial⟩
  | start v hv k hk =>
    refine ⟨rfl, fun t ht => ?_, trivial⟩
    cases ht
    exact hstore v hv
  | forget v hv k hk =>
    refine ⟨rfl, fun t ht => ?_, trivial⟩
    cases ht
    exact hstore v hv
  | finishEffect v hv k hk =>
    refine ⟨rfl, fun t ht => ?_, remembers_effect hk⟩
    cases ht
    exact hstore v hv
  | writeControl v hv k value hk =>
    refine ⟨rfl, fun t ht => ?_, remembers_control ?_⟩
    · cases ht
      exact hstore v hv
    · rcases hk with rfl | ⟨id, rfl⟩
      · exact Effects.pendingRound_active
      · exact Effects.afterKey_active id
  | claimInput v hv =>
    refine ⟨rfl, fun t ht => ?_, trivial⟩
    cases ht
    exact hstore v (hinputs ▸ hv)
  | admitInputs v hv =>
    refine ⟨rfl, fun t ht => ?_, trivial⟩
    cases ht
    exact hstore v (hinputs ▸ hv)
  | discardInputs v hv =>
    refine ⟨rfl, fun t ht => ?_, trivial⟩
    cases ht
    exact hstore v (hinputs ▸ hv)
  | _ => trivial

/-- A parked round is remembered with its conversation. -/
theorem remembers_park {b first : String} (continuation : Continuation) :
    Remembers e.conversation (.commitTransition b
      { controls := AgentRuntime.parkWrites e.conversation first continuation } token) := by
  refine ⟨rfl, fun item hitem _ => ?_⟩
  simp only [AgentRuntime.parkWrites, List.mem_append, List.mem_map, List.mem_singleton] at hitem
  rcases hitem with ⟨call, -, rfl⟩ | rfl
  · intro active hactive
    cases hactive
  · intro active hactive
    cases hactive
    rfl

section
variable {rt : AgentRuntime} {agent : Agent}

theorem under_park {α : Type} {eff : Effects} {requests : DeferredToolRequests} :
    (rt.park (α := α) e e.conversation eff requests token).AllOps (Under e token) := by
  unfold AgentRuntime.park
  split
  · trivial
  · split
    · trivial
    · trivial
    · simp only
      split
      · trivial
      · refine Prog.allOps_bind ((Prog.allOps_op Op.get).mpr trivial) (fun a =>
          Prog.allOps_bind ?_ (fun _ => Prog.allOps_bind ?_ (fun _ => trivial)))
        · have hannounce : ∀ parked, Within { store := none, branchId := "" } false .effects
              (AgentRuntime.announce eff a parked) := within_announce eff a
          exact (hannounce _).mono (fun _ => under_performs (by simp) rfl)
        · unfold AgentRuntime.persist
          split
          · trivial
          · rename_i store hstore
            refine Prog.allOps_bind ((Prog.allOps_op (Op.ledger _)).mpr ?_) (fun _ => trivial)
            refine ⟨rfl, fun t ht => ?_, remembers_park _⟩
            cases ht
            exact ⟨storeFor_view hstore, rfl⟩

/-- An attempt writes to its own branch, under its token. -/
theorem under_attemptRun (gathers : Gathers agent.toPydanticAI) (prompt : Option String)
    (options : Options) : (rt.attemptRun e token agent prompt options).AllOps (Under e token) := by
  have hwithin : ∀ {α : Type} {p : Program α},
      Within (rt.effectsOf e token agent options) false .effects p → p.AllOps (Under e token) :=
    fun hp => hp.mono (fun _ => under_performs (fun v hv => ⟨storeFor_view hv, rfl⟩) rfl)
  have hplain : ∀ {α : Type} {p : Program α}, p.AllOps Throughout.Plain →
      p.AllOps (Under e token) := fun hp => hp.mono (fun _ => under_plain)
  refine Prog.allOps_bind ((Prog.allOps_op (Op.modify _)).mpr trivial) (fun _ =>
    Prog.allOps_bind (hplain (Throughout.plain_openBranch _)) (fun history =>
    Prog.allOps_bind (hwithin (within_admitPrompt rt e token agent options _ _)) (fun prompt =>
    Prog.allOps_bind (hwithin (within_run gathers _ _ _)) (fun output =>
    Prog.allOps_bind (hplain Throughout.plain_replaceFinal) (fun _ => ?_)))))
  cases output with
  | deferred requests => exact under_park
  | text content => exact hplain Throughout.plain_close
  | value value => exact hplain Throughout.plain_close

/-- What a fork copies is no continuation. -/
theorem under_copyRound (src : Execution) (history : List ModelMessage) :
    (rt.copyRound src e token history).AllOps (Under e token) := by
  unfold AgentRuntime.copyRound
  split
  · rename_i source target hsource htarget
    have hstart : ∀ key, (target.start e.branchId key token).AllOps (Under e token) := by
      intro key
      refine (Prog.allOps_op (Op.ledger _)).mpr ⟨rfl, fun t ht => ?_, trivial⟩
      cases ht
      exact ⟨storeFor_view htarget, rfl⟩
    induction unansweredToolCalls history with
    | nil => trivial
    | cons call calls ih =>
      refine Prog.allOps_bind ((Prog.allOps_op (Op.ledger _)).mpr
        ⟨rfl, by simp [Call.token?], trivial⟩) (fun record => ?_)
      cases record with
      | absent => exact ih
      | running => exact Prog.allOps_bind (hstart _) (fun _ => ih)
      | done value =>
        refine Prog.allOps_bind (hstart _) (fun inserted => ?_)
        split
        · refine Prog.allOps_bind ((Prog.allOps_op (Op.ledger _)).mpr
            ⟨rfl, fun t ht => ?_, remembers_effect (.inl ⟨_, rfl⟩)⟩)
            (fun _ => Prog.allOps_bind ih (fun _ => trivial))
          cases ht
          exact ⟨storeFor_view htarget, rfl⟩
        · exact ih
  · trivial

/-! What is done under the lease. -/

abbrev Body (e : Execution) (token : Nat) (α : Type) (p : Program α) : Prop :=
  Prog.Keeps Own.exec (Follows (bodyRule e token)) (fun _ => True) α p

theorem compositional_body : Prog.Compositional (Body e token) := Prog.compositional_keeps _ _ _

theorem body_under {α : Type} {p : Program α} (hp : p.AllOps (Under e token)) : Body e token α p := by
  refine compositional_body.ofAllOps hp (fun o ho => Prog.keeps_op.mpr (fun s r s' _ he => ?_))
  exact ⟨follows_exec (fun _ => ho) he, trivial⟩

/-- Where a continuation of another conversation has been found, nothing is asked. -/
theorem safe_unsound {α : Type} {p : Program α} (h : ¬ Sound e s.done) :
    Prog.safe Own.exec Eq (Follows (bodyRule e token)) p (fun _ s' => ¬ Sound e s'.done) s := by
  have hall : ∀ {α : Type} (p : Program α), p.AllOps (fun _ => True) := by
    intro α p
    induction p with
    | ret a => trivial
    | raise e => trivial
    | call o k ih => exact ⟨trivial, ih⟩
  refine Prog.safe_of_allOps (I := fun s : Own => ¬ Sound e s.done) (fun _ _ heq h => heq ▸ h) ?_
    (hall p) h
  intro o _ a r b hI he
  refine ⟨follows_exec (fun hsound => absurd hsound hI) he, fun hsound => hI ?_⟩
  exact hsound.before (Own.exec_grows he)

/-- What the thread knows of a continuation it has found. -/
def Found (e : Execution) (active : Suspension) (s : Own) : Prop :=
  Sound e s.done → active.conversationId = e.conversation

/-- Where a call is on its way: what it knows of the continuation it has found. -/
def course (e : Execution) : Course Own where
  idle _ := True
  named _ _ := True
  leased _ _ := True
  looked _ v s := ∀ active, AgentRuntime.liveSuspension v = some active → Found e active s
  clear _ _ := True
  decided _ active _ := Found e active
  resuming _ active _ := Found e active
  acted _ active _ := Found e active
  ends _ _ _ := True
  closes _ _ := True

/-- Finding a continuation there. -/
theorem safe_look : Prog.safe Own.exec Eq (Follows (bodyRule e token))
    (perform (.ledger (.read (filedName e) Effects.activeSuspension)))
    ((course e).Inner token ((course e).looked token)) s := by
  apply (Prog.safe_op (Op.ledger (.read ..)) _ s).mpr
  intro s₁ hs₁ r s₂ he
  subst hs₁
  have hread : Under e token (.ledger (.read (filedName e) Effects.activeSuspension)) :=
    ⟨rfl, by simp [Call.token?], trivial⟩
  refine ⟨follows_exec (fun _ => hread) he, ?_⟩
  obtain ⟨-, rfl⟩ := he
  cases r with
  | error error => trivial
  | ok record =>
    intro active hactive hsound
    obtain rfl := Course.of_live hactive
    exact hsound active (List.mem_append_right _ List.mem_cons_self)

/-- Where the continuation is of the conversation, or nothing is asked. -/
theorem safe_found {α : Type} {p : Program α} {active : Suspension} {M : α → Own → Prop}
    (h : Found e active s)
    (hp : active.conversationId = e.conversation → p.AllOps (Under e token))
    (hM : ∀ a s', Found e active s' → M a s') :
    Prog.safe Own.exec Eq (Follows (bodyRule e token)) p ((course e).Inner token M) s := by
  have hfound : Prog.safe Own.exec Eq (Follows (bodyRule e token)) p
      (fun _ s' => Found e active s') s := by
    by_cases hconversation : active.conversationId = e.conversation
    · exact Prog.safe_post (body_under (hp hconversation) s trivial) (fun _ _ _ _ => hconversation)
    · exact Prog.safe_post (safe_unsound (fun hsound => hconversation (h hsound)))
        (fun _ _ hunsound hsound => absurd hsound hunsound)
  exact Prog.safe_either hfound hM (fun _ _ _ => trivial)

/-- A record under the continuation key. -/
theorem under_write {value : Value} (h : Of e.conversation value) :
    (perform (.ledger (.writeControl (filedName e) Effects.activeSuspension value token))).AllOps
      (Under e token) := by
  refine (Prog.allOps_op (Op.ledger _)).mpr ⟨rfl, fun t ht => ?_, fun _ => h⟩
  cases ht
  exact ⟨rfl, rfl⟩

theorem of_suspension {active : Suspension} (h : active.conversationId = e.conversation) :
    Of e.conversation (.suspension active) := by
  intro active' hactive
  cases hactive
  exact h

/-- What a call does under the lease is to its own branch and conversation. -/
theorem steps (gathers : Gathers agent.toPydanticAI) : Course.Steps Own.exec Eq
    (Follows (bodyRule e token)) (course e) rt e (filedName e) token agent where
  here := rfl
  leased_fails _ _ _ := trivial
  looked_fails _ _ _ _ := trivial
  clear_fails _ _ _ := trivial
  decided_fails _ _ _ _ _ := trivial
  attempts prompt options s _ := body_under (under_attemptRun gathers prompt options) s trivial
  looks _ _ := safe_look
  reads _ s _ _ := by
    have hread : Under e token (.ledger (.read (filedName e) Effects.pendingRound)) :=
      ⟨rfl, by simp [Call.token?], trivial⟩
    exact Prog.safe_either (body_under ((Prog.allOps_op _).mpr hread) s trivial)
      (fun _ _ _ => trivial) (fun _ _ _ => trivial)
  again options s _ := body_under (under_attemptRun gathers none options) s trivial
  marks active answers _ h := by
    refine safe_found h (fun hconversation => ?_) (fun _ _ h => h)
    have hresuming : Of e.conversation
        (.suspension { active with state := .resuming, answers }) := of_suspension hconversation
    exact under_write hresuming
  acts active _ options _ h := by
    refine safe_found h (fun hconversation => ?_) (fun _ _ h => h)
    rw [Course.rejoined_home hconversation]
    exact under_attemptRun gathers none options
  completes active _ _ h := by
    refine safe_found h (fun _ => ?_) (fun _ _ _ => trivial)
    have hcompleted : Of e.conversation (.completed active.callId active.callIds) := by
      intro active' hactive
      cases hactive
    exact under_write hcompleted

theorem body_resumeLeased (gathers : Gathers agent.toPydanticAI) (pendingId : String)
    (answer : Answer) (controls : Option String) (rulesVersion : String) :
    Body e token _ (rt.resumeLeased e token pendingId answer agent controls rulesVersion) := by
  intro s _
  refine (steps gathers).resumeLeased ?_ controls rulesVersion trivial
  intro v active call s h hv _
  refine safe_found (h active hv) (fun hconversation => ?_)
    (fun _ _ h => ⟨fun _ => h, fun _ => trivial⟩)
  have hanswered : Of e.conversation (.suspension { active with
      answers := upsert call.toolCallId answer active.answers }) := of_suspension hconversation
  exact under_write hanswered

theorem body_recoverLeased (gathers : Gathers agent.toPydanticAI) (history : List ModelMessage)
    (controls : Option String) (rulesVersion : String) :
    Body e token _ (rt.recoverLeased e token agent history controls rulesVersion) := by
  intro s _
  exact (steps gathers).recoverLeased (fun _ active _ h hv _ => h active hv) history controls
    rulesVersion trivial

/-! The lease. -/

abbrev Whole (e : Execution) (α : Type) (p : Program α) : Prop :=
  Prog.Keeps Own.exec (Follows (rule e)) (fun _ => True) α p

theorem Held.snoc {b owner : String} {d : Done} (h : Held b owner token done)
    (hd : ∀ c, d.op = .ledger c → c.owner? = none) : Held b owner token (done ++ [d]) := by
  obtain ⟨front, ttl, rest, rfl, hpos, hrest⟩ := h
  refine ⟨front, ttl, rest ++ [d], by simp, hpos, ?_⟩
  intro d' hd'
  rcases List.mem_append.mp hd' with hd' | hd'
  · exact hrest d' hd'
  · rw [List.mem_singleton.mp hd']
    exact hd

/-- What asks for no lease and writes nothing. -/
theorem leased_free {d : Done} (hremembers : ∀ c, d.op = .ledger c → Remembers e.conversation c)
    (htoken : ∀ c, d.op = .ledger c → c.token? = none)
    (hasks : ∀ b owner ttl, d.op ≠ .ledger (.acquire b owner ttl)) : Leased e done d where
  remembers := hremembers
  held c token hc ht := by simp [htoken c hc] at ht
  asked b owner ttl h := absurd h (hasks b owner ttl)

theorem leased_loose {o : Op} {r : Except Exn o.Res} (ho : Throughout.Loose o) :
    Leased e done ⟨o, r⟩ := by
  cases o with
  | ledger c =>
    cases c <;> first
      | exact ho.elim
      | exact leased_free (by simp [Remembers]) (by simp [Call.token?]) (by simp)
  | _ => exact leased_free (by simp) (by simp) (by simp)

/-- Under its lease a thread writes under its lease. -/
theorem safe_held {α : Type} {p : Program α} {owner : String} (hp : Body e token α p)
    (held : Sound e s.done → Held (filedName e) owner token s.done) :
    Prog.safe Own.exec Eq (Follows (rule e)) p (fun _ _ => True) s := by
  have hcarried := Prog.safe_along
    (P := fun s => Sound e s.done → Held (filedName e) owner token s.done) (hp s trivial)
    (fun _ _ heq h => heq ▸ h) ?_ held
  · refine Prog.safe_mono hcarried ?_ (fun _ _ _ => trivial)
    intro a b hab
    obtain ⟨⟨d, hd, hrule⟩, hheld⟩ := hab
    refine ⟨d, hd, fun hsound => ?_⟩
    have hunder := hrule hsound
    constructor
    · intro c hc
      rw [hc] at hunder
      exact hunder.2.2
    · intro c t hc ht
      rw [hc] at hunder
      obtain ⟨hbranch, rfl⟩ := hunder.2.1 t ht
      exact ⟨hbranch, owner, hheld hsound⟩
    · intro b' owner' ttl hc
      rw [hc] at hunder
      cases hunder.1
  · intro a b hab h hsound
    obtain ⟨d, hd, hrule⟩ := hab
    have hbefore : Sound e a.done := hsound.before (hd ▸ List.prefix_append _ _)
    have hunder := hrule hbefore
    rw [hd]
    refine (h hbefore).snoc (fun c hc => ?_)
    rw [hc] at hunder
    exact hunder.1

theorem driven (ledger : rt.executionStore = true) :
    Throughout.Driven (Whole e) (Body e) rt e where
  compositional := Prog.compositional_keeps _ _ _
  loose o ho := by
    refine Prog.keeps_op.mpr (fun s r s' _ he => ⟨follows_exec (fun _ => ?_) he, trivial⟩)
    exact leased_loose ho
  lease := by
    intro α body hbody s _
    unfold AgentRuntime.lease
    rw [Course.storeFor_some ledger]
    apply (Prog.safe_bind _ _ _ _).mpr
    apply (Prog.safe_op Op.uuid4 _ s).mpr
    intro s₁ hs₁ r s₂ he
    subst hs₁
    refine ⟨follows_exec (fun _ => leased_loose (o := .uuid4) trivial) he, ?_⟩
    obtain ⟨-, rfl⟩ := he
    cases r with
    | error error => trivial
    | ok owner =>
      apply (Prog.safe_bind _ _ _ _).mpr
      apply (Prog.safe_op (Op.ledger (.acquire ..)) _ _).mpr
      intro s₃ hs₃ r s₄ he
      subst hs₃
      refine ⟨follows_exec (fun _ => ?_) he, ?_⟩
      · constructor
        · intro c hc
          cases hc
          trivial
        · intro c t hc ht
          cases hc
          cases ht
        · intro b owner' ttl hc
          cases hc
          exact ⟨rfl, s.done, rfl⟩
      · obtain ⟨-, rfl⟩ := he
        cases r with
        | error error => trivial
        | ok token =>
          simp only
          split
          · trivial
          · rename_i hpos
            have hheld : Held (filedName e) owner token (s.done ++ [⟨.uuid4, .ok owner⟩] ++
                [⟨.ledger (.acquire (filedName e) owner rt.leaseTtl), .ok token⟩]) :=
              ⟨s.done, rt.leaseTtl, [], by simp, hpos, by simp⟩
            apply (Prog.safe_finally _ _ _ _).mpr
            apply Prog.safe_post (safe_held (hbody token) (fun _ => hheld))
            intro r s₅ _
            apply (Prog.safe_op (Op.ledger (.release ..)) _ s₅).mpr
            intro s₆ hs₆ r' s₇ he
            subst hs₆
            refine ⟨follows_exec (fun _ => leased_free ?_ ?_ (by simp)) he, ?_⟩
            · intro c hc
              cases hc
              trivial
            · intro c hc
              cases hc
              rfl
            · cases r' <;> trivial

theorem bodies (gathers : Gathers agent.toPydanticAI) (op : Operation) :
    Throughout.Bodies (Body e) rt agent e op where
  attempts _ _ _ _ := body_under (under_attemptRun gathers _ _)
  forks _ src _ history _ _ _ :=
    body_under (Prog.allOps_bind (under_copyRound src history)
      (fun _ => under_attemptRun gathers _ _))
  resumes _ _ _ _ := body_resumeLeased gathers _ _ _ _
  recovers _ _ _ _ := body_recoverLeased gathers _ _ _

end

end

/-! The threads side by side. -/

/-- A renewal of a lease. -/
def Renews : Op → Prop
  | .ledger (.acquire _ owner _) => owner ≠ ""
  | _ => False

/-- A thread is an operation of a runtime with a ledger, or renews leases. -/
def Works (e : Execution) (p : Program Reply) : Prop :=
  (∃ (rt : AgentRuntime) (agent : Agent) (op : Operation), rt.executionStore = true ∧
    Gathers agent.toPydanticAI ∧ (p = rt.serve agent e op ∨ p = settled op (rt.serve agent e op))) ∨
  p.AllOps Renews

/-- What either may do. -/
def workRule (e : Execution) (done : List Done) (d : Done) : Prop :=
  Sound e done → Leased e done d ∨ Renews d.op

theorem keeps_works {e : Execution} {p : Program Reply} (works : Works e p) :
    Prog.Keeps Own.exec (Follows (workRule e)) (fun _ => True) _ p := by
  rcases works with ⟨rt, agent, op, ledger, gathers, h⟩ | hrenews
  · have hwhole : Whole e _ p := by
      rcases h with rfl | rfl
      · exact (driven ledger).serve (bodies gathers op)
      · exact (driven ledger).settled (bodies gathers op)
    intro s hs
    refine Prog.safe_mono (hwhole s hs) ?_ (fun _ _ h => h)
    intro a b hab
    obtain ⟨d, hd, hrule⟩ := hab
    exact ⟨d, hd, fun hsound => .inl (hrule hsound)⟩
  · refine (Prog.compositional_keeps _ _ _).ofAllOps hrenews (fun o ho => ?_)
    exact Prog.keeps_op.mpr (fun s r s' _ he => ⟨follows_exec (fun _ => .inr ho) he, trivial⟩)

/-! The identifiers handed out. -/

section
variable {out : Outside} {self : Nat → Nat} {i : Nat} {s s' : Scene}

/-- No two threads were handed the same identifier. -/
structure Handed (out : Outside) (s : Scene) : Prop where
  known : ∀ i owner, (⟨i, .uuid4, .ok owner⟩ : Event) ∈ s.events →
    ∃ n < s.world.instant, owner = out.uuid4 n
  apart : ∀ i j owner, (⟨i, .uuid4, .ok owner⟩ : Event) ∈ s.events →
    (⟨j, .uuid4, .ok owner⟩ : Event) ∈ s.events → i = j

theorem handed_exec {o : Op} {r : Except Exn o.Res} (he : exec out self i o s r s')
    (h : Handed out s) : Handed out s' := by
  obtain ⟨hevents, hworld, hreply⟩ := exec_events he
  have hinstant : s'.world.instant = s.world.instant + 1 := by rw [hworld, step_instant]
  have hnew : ∀ j owner, (⟨j, .uuid4, .ok owner⟩ : Event) = ⟨i, o, r⟩ →
      j = i ∧ owner = out.uuid4 s.world.instant := by
    intro j owner heq
    cases heq
    exact ⟨rfl, Except.ok.inj hreply⟩
  constructor
  · intro j owner hmem
    rw [hevents] at hmem
    rw [hinstant]
    rcases List.mem_append.mp hmem with hmem | hmem
    · obtain ⟨n, hn, howner⟩ := h.known j owner hmem
      exact ⟨n, by omega, howner⟩
    · exact ⟨_, Nat.lt_succ_self _, (hnew j owner (List.mem_singleton.mp hmem)).2⟩
  · intro j k owner hj hk
    rw [hevents] at hj hk
    have hold : ∀ j, (⟨j, .uuid4, .ok owner⟩ : Event) ∈ s.events →
        owner ≠ out.uuid4 s.world.instant := by
      intro j hmem heq
      obtain ⟨n, hn, howner⟩ := h.known j owner hmem
      have hsame := out.uuid4_fresh n s.world.instant (howner.symm.trans heq)
      omega
    rcases List.mem_append.mp hj with hj | hj <;> rcases List.mem_append.mp hk with hk | hk
    · exact h.apart j k owner hj hk
    · exact absurd (hnew k owner (List.mem_singleton.mp hk)).2 (hold j hj)
    · exact absurd (hnew j owner (List.mem_singleton.mp hj)).2 (hold k hk)
    · rw [(hnew j owner (List.mem_singleton.mp hj)).1, (hnew k owner (List.mem_singleton.mp hk)).1]

/-! The tokens granted. -/

/-- A lease of the branch was granted to the owner, or it was renewed. -/
def Grants (b owner : String) (token : Nat) (e : Event) : Prop :=
  ∃ i ttl, e = ⟨i, .ledger (.acquire b owner ttl), .ok token⟩ ∧ token ≠ 0

/-- A write to the branch was accepted under the token. -/
def Accepts (b : String) (token : Nat) (e : Event) : Prop :=
  ∃ i c reply, e = ⟨i, .ledger c, .ok reply⟩ ∧ c.token? = some token ∧ c.branchId = b

/-- The token stands for a lease of the branch that was granted or written under. -/
def Names (b : String) (token : Nat) (e : Event) : Prop :=
  (∃ owner, Grants b owner token e) ∨ Accepts b token e

/-- How the tokens answer for what the threads did. -/
structure Tokens (s : Scene) : Prop where
  bounded : ∀ b token, ∀ e ∈ s.events, Names b token e → token ≤ s.world.store.issued b
  leases : ∀ b lease, s.world.store.leases.get? b = some lease →
    lease.token ≤ s.world.store.issued b ∧ (lease.owner ≠ "" → ∀ owner, ∀ e ∈ s.events,
      Grants b owner lease.token e → owner = lease.owner)
  single : ∀ b owner owner' token, ∀ e ∈ s.events, ∀ e' ∈ s.events, Grants b owner token e →
    Grants b owner' token e' → owner = owner'
  newest : ∀ front e rest b token, s.events = front ++ e :: rest → Accepts b token e →
    ∀ f ∈ front, ∀ token', Names b token' f → token' ≤ token

theorem grants_ledger {b owner : String} {token : Nat} {e : Event} (h : Grants b owner token e) :
    ∃ ttl, e.op = .ledger (.acquire b owner ttl) := by
  obtain ⟨i, ttl, rfl, -⟩ := h
  exact ⟨ttl, rfl⟩

/-- An event that is no matter of a lease. -/
theorem grants_none {b owner : String} {token : Nat} {e : Event}
    (h : ∀ c, e.op = .ledger c → c.owner? = none) : ¬ Grants b owner token e := by
  intro hgrants
  obtain ⟨ttl, hop⟩ := grants_ledger hgrants
  exact absurd (h _ hop) (by simp [Call.owner?])

theorem issued_same {w w' : MemorySteps Value} (h : w'.tokens = w.tokens) (b : String) :
    w'.issued b = w.issued b := by
  simp [MemorySteps.issued, h]

/-- The accepted writes were under the newest token there was, with one event more. -/
theorem newest_snoc {e : Event} (h : Tokens s) (hevents : s'.events = s.events ++ [e])
    (haccepts : ∀ b token, Accepts b token e → s.world.store.issued b ≤ token) :
    ∀ front f rest b token, s'.events = front ++ f :: rest → Accepts b token f →
      ∀ g ∈ front, ∀ token', Names b token' g → token' ≤ token := by
  intro front f rest b token hsplit hwrite
  rw [hevents] at hsplit
  refine Order.splits_snoc (P := fun front f => ∀ b token, Accepts b token f →
    ∀ g ∈ front, ∀ token', Names b token' g → token' ≤ token)
    (fun front f rest hsplit b token hwrite => h.newest front f rest b token hsplit hwrite) ?_
    front f rest hsplit b token hwrite
  intro b token hwrite g hg token' hnames
  exact (h.bounded b token' g hg hnames).trans (haccepts b token hwrite)

/-- An event that grants no lease: of the leases some may be nobody's behind it. -/
theorem tokens_kept {e : Event} (h : Tokens s) (hevents : s'.events = s.events ++ [e])
    (hgrants : ∀ b owner token, ¬ Grants b owner token e)
    (htokens : s'.world.store.tokens = s.world.store.tokens)
    (hleases : ∀ b lease, s'.world.store.leases.get? b = some lease →
      s.world.store.leases.get? b = some lease ∨ lease.owner = "" ∧
        ∃ held, s.world.store.leases.get? b = some held ∧ held.token = lease.token)
    (haccepts : ∀ b token, Accepts b token e → s.world.store.issued b ≤ token ∧
      ∃ owner, ∃ f ∈ s.events, Grants b owner token f) : Tokens s' where
  newest := newest_snoc h hevents (fun b token hwrite => (haccepts b token hwrite).1)
  bounded := by
    intro b token f hmem hnames
    rw [hevents] at hmem
    rw [issued_same htokens]
    rcases mem_snoc hmem with hold | rfl
    · exact h.bounded b token f hold hnames
    · rcases hnames with ⟨owner, hgrant⟩ | hwrite
      · exact absurd hgrant (hgrants _ _ _)
      · obtain ⟨-, owner, f, hf, hgrant⟩ := haccepts b token hwrite
        exact h.bounded b token f hf (.inl ⟨owner, hgrant⟩)
  leases := by
    intro b lease hlease
    rw [issued_same htokens, hevents]
    rcases hleases b lease hlease with hold | ⟨hempty, held, hheld, htoken⟩
    · obtain ⟨hbound, hown⟩ := h.leases b lease hold
      refine ⟨hbound, fun hne owner f hmem hgrant => ?_⟩
      rcases mem_snoc hmem with hmem | rfl
      · exact hown hne owner f hmem hgrant
      · exact absurd hgrant (hgrants _ _ _)
    · exact ⟨htoken ▸ (h.leases b held hheld).1, fun hne => absurd hempty hne⟩
  single := by
    intro b owner owner' token f hf f' hf' hgrant hgrant'
    rw [hevents] at hf hf'
    rcases mem_snoc hf with hold | rfl
    · rcases mem_snoc hf' with hold' | rfl
      · exact h.single b owner owner' token f hold f' hold' hgrant hgrant'
      · exact absurd hgrant' (hgrants _ _ _)
    · exact absurd hgrant (hgrants _ _ _)

/-- A lease granted to an owner: under the token of the lease that is the owner's own, or under a
token that is new. -/
theorem tokens_granted {b owner : String} {token : Nat} {ttl deadline : ℚ} (h : Tokens s)
    (hevents : s'.events = s.events ++ [⟨i, .ledger (.acquire b owner ttl), .ok token⟩])
    (hissued : ∀ b', s'.world.store.issued b' =
      if b' = b then max token (s.world.store.issued b) else s.world.store.issued b')
    (hleases : s'.world.store.leases = s.world.store.leases.insert b ⟨owner, token, deadline⟩)
    (hsource : (∀ owner', ∀ e ∈ s.events, Grants b owner' token e → owner' = owner)) :
    Tokens s' := by
  have hgrown : ∀ b', s.world.store.issued b' ≤ s'.world.store.issued b' := by
    intro b'
    rw [hissued]
    split
    · rename_i hb
      rw [hb]
      exact le_max_right _ _
    · exact Nat.le_refl _
  have hmine : ∀ b' owner' token', Grants b' owner' token'
      ⟨i, .ledger (.acquire b owner ttl), .ok token⟩ → b' = b ∧ owner' = owner ∧ token' = token := by
    intro b' owner' token' hgrants
    obtain ⟨j, ttl', heq, -⟩ := hgrants
    cases heq
    exact ⟨rfl, rfl, rfl⟩
  have hwrites : ∀ b' token',
      ¬ Accepts b' token' ⟨i, .ledger (.acquire b owner ttl), .ok token⟩ := by
    intro b' token' hwrite
    obtain ⟨j, c, reply, heq, htoken, -⟩ := hwrite
    cases heq
    cases htoken
  constructor
  · intro b' token' f hmem hnames
    rw [hevents] at hmem
    rcases mem_snoc hmem with hold | rfl
    · exact (h.bounded b' token' f hold hnames).trans (hgrown b')
    · rcases hnames with ⟨owner', hgrants⟩ | hwrite
      · obtain ⟨rfl, -, rfl⟩ := hmine _ _ _ hgrants
        rw [hissued, if_pos rfl]
        exact le_max_left _ _
      · exact absurd hwrite (hwrites _ _)
  · intro b' lease hlease
    rw [hleases, Dict.get?_insert] at hlease
    rw [hevents]
    split at hlease
    · rename_i hb
      subst hb
      cases hlease
      refine ⟨?_, fun _ owner' f hmem hgrants => ?_⟩
      · rw [hissued, if_pos rfl]
        exact le_max_left _ _
      · rcases mem_snoc hmem with hold | rfl
        · exact hsource owner' f hold hgrants
        · exact (hmine _ _ _ hgrants).2.1
    · rename_i hb
      obtain ⟨hbound, hown⟩ := h.leases b' lease hlease
      refine ⟨hbound.trans (hgrown b'), fun hne owner' f hmem hgrants => ?_⟩
      rcases mem_snoc hmem with hold | rfl
      · exact hown hne owner' f hold hgrants
      · exact absurd (hmine _ _ _ hgrants).1 hb
  · intro b' owner₁ owner₂ token' f hf f' hf' hgrants hgrants'
    rw [hevents] at hf hf'
    have hnew : ∀ {g owner'}, g ∈ s.events → Grants b' owner' token' g →
        b' = b → token' = token → owner' = owner := by
      intro g owner' hg hgrant hb htoken
      subst hb
      subst htoken
      exact hsource owner' g hg hgrant
    rcases mem_snoc hf with hold | rfl
    · rcases mem_snoc hf' with hold' | rfl
      · exact h.single b' owner₁ owner₂ token' f hold f' hold' hgrants hgrants'
      · obtain ⟨hb, howner, htoken⟩ := hmine _ _ _ hgrants'
        exact (hnew hold hgrants hb htoken).trans howner.symm
    · obtain ⟨hb, howner, htoken⟩ := hmine _ _ _ hgrants
      rcases mem_snoc hf' with hold' | rfl
      · exact howner.trans (hnew hold' hgrants' hb htoken).symm
      · exact howner.trans (hmine _ _ _ hgrants').2.1.symm
  · exact newest_snoc h hevents (fun b' token' hwrite => absurd hwrite (hwrites _ _))

/-- One operation: whoever asks for a lease gives a name, and whoever writes was granted one. -/
theorem tokens_exec {o : Op} {r : Except Exn o.Res} (he : exec out self i o s r s') (h : Tokens s)
    (hasks : ∀ b owner ttl, o = .ledger (.acquire b owner ttl) → owner ≠ "")
    (hwrites : ∀ c token, o = .ledger c → c.token? = some token →
      ∃ owner, ∃ f ∈ s.events, Grants c.branchId owner token f) : Tokens s' := by
  obtain ⟨hevents, hworld, hreply⟩ := exec_events he
  have hsame : s'.world.store = s.world.store → (∀ c, o ≠ .ledger c) → Tokens s' := by
    intro hstore hop
    refine tokens_kept h hevents ?_ (by rw [hstore]) ?_ ?_
    · exact fun b owner token => grants_none (fun c hc => absurd hc (hop c))
    · intro b lease hlease
      rw [hstore] at hlease
      exact .inl hlease
    · intro b token hwrite
      obtain ⟨j, c, reply, heq, -⟩ := hwrite
      cases heq
      exact absurd rfl (hop c)
  cases o with
  | ledger c =>
    have hstore : s'.world.store = (c.exec (out.clock s.world.instant)
        (out.clock (s.world.instant + 1)) s.world.store).2 := by
      rw [hworld]
      rfl
    cases howner : c.owner? with
    | none =>
      obtain ⟨htokens, hleases⟩ := exec_same c (out.clock s.world.instant)
        (out.clock (s.world.instant + 1)) s.world.store howner
      rw [← hstore] at htokens hleases
      refine tokens_kept h hevents ?_ htokens ?_ ?_
      · refine fun b owner token => grants_none (fun c' hc => ?_)
        cases hc
        exact howner
      · intro b lease hlease
        rw [hleases] at hlease
        exact .inl hlease
      · intro b token hwrite
        obtain ⟨j, c', reply, heq, htoken, rfl⟩ := hwrite
        cases heq
        obtain ⟨owner, f, hf, hgrants⟩ := hwrites c token rfl htoken
        refine ⟨?_, owner, f, hf, hgrants⟩
        by_contra hstale
        obtain ⟨-, -, -, hpos⟩ := hgrants
        have hrefused := exec_stale c (out.clock s.world.instant)
          (out.clock (s.world.instant + 1)) s.world.store token htoken hpos (by omega)
        have hr : (Except.ok reply : Except Exn (Op.ledger c).Res) = Except.mapError Exn.store
            (c.exec (out.clock s.world.instant) (out.clock (s.world.instant + 1))
              s.world.store).1 := hreply
        rw [hrefused] at hr
        cases hr
    | some owner =>
      cases c with
      | acquire b owner' ttl =>
        have hne := hasks b owner' ttl rfl
        have hr : r = .ok (s.world.store.acquire b owner' ttl (out.clock s.world.instant)
          (out.clock (s.world.instant + 1))).1 := hreply
        have hs : s'.world.store = (s.world.store.acquire b owner' ttl (out.clock s.world.instant)
          (out.clock (s.world.instant + 1))).2 := hstore
        rcases MemorySteps.acquire_cases s.world.store b owner' ttl (out.clock s.world.instant)
          (out.clock (s.world.instant + 1)) with
          ⟨held, hheld, hmine, hacquire⟩ | ⟨held, hheld, hother, -, hacquire⟩ | ⟨-, hacquire⟩
        · rw [hacquire] at hr hs
          subst hr
          obtain ⟨hbound, hown⟩ := h.leases b held hheld
          refine tokens_granted h hevents (fun b' => ?_) (by rw [hs]) ?_
          · rw [hs]
            split
            · rename_i hb
              rw [hb, max_eq_right hbound]
              rfl
            · rfl
          · intro owner'' f hf hgrants
            rw [← hmine]
            exact hown (hmine ▸ hne) owner'' f hf hgrants
        · rw [hacquire] at hr hs
          subst hr
          refine tokens_kept h hevents ?_ (by rw [hs]) ?_ ?_
          · intro b' owner'' token hgrants
            obtain ⟨j, ttl', heq, hpos⟩ := hgrants
            cases heq
            exact hpos rfl
          · intro b' lease hlease
            rw [hs] at hlease
            exact .inl hlease
          · intro b' token hwrite
            obtain ⟨j, c', reply, heq, htoken, -⟩ := hwrite
            cases heq
            cases htoken
        · rw [hacquire] at hr hs
          subst hr
          refine tokens_granted h hevents (fun b' => ?_) (by rw [hs]) ?_
          · rw [hs]
            simp only [MemorySteps.issued, Dict.get?_insert]
            split
            · simp
            · rfl
          · intro owner'' f hf hgrants
            have hbound := h.bounded b _ f hf (.inl ⟨owner'', hgrants⟩)
            omega
      | release b owner' =>
        have hs : s'.world.store = s.world.store.release b owner' (out.clock s.world.instant) :=
          hstore
        refine tokens_kept h hevents ?_ ?_ ?_ ?_
        · intro b' owner'' token hgrants
          obtain ⟨ttl, hop⟩ := grants_ledger hgrants
          cases hop
        · rw [hs]
          rcases MemorySteps.release_cases s.world.store b owner' (out.clock s.world.instant) with
            ⟨held, -, -, hrelease⟩ | ⟨-, hrelease⟩ <;> rw [hrelease]
        · intro b' lease hlease
          rw [hs] at hlease
          rcases MemorySteps.release_cases s.world.store b owner' (out.clock s.world.instant) with
            ⟨held, hheld, -, hrelease⟩ | ⟨-, hrelease⟩
          · rw [hrelease] at hlease
            simp only [Dict.get?_insert] at hlease
            split at hlease
            · rename_i hb
              subst hb
              cases hlease
              exact .inr ⟨rfl, held, hheld, rfl⟩
            · exact .inl hlease
          · rw [hrelease] at hlease
            exact .inl hlease
        · intro b' token hwrite
          obtain ⟨j, c', reply, heq, htoken, -⟩ := hwrite
          cases heq
          cases htoken
      | _ => simp [Call.owner?] at howner
  | _ => exact hsame (by rw [hworld]; rfl) (by simp)

/-! What is parked where. -/

/-- The call files the value under the key. -/
def Files (c : Call Value) (b k : String) (v : Value) : Prop :=
  match c with
  | .finishEffect b' k' v' _ | .writeControl b' k' v' _ => b' = b ∧ k' = k ∧ v' = v
  | .commitTransition b' tr _ => b' = b ∧ (k, v) ∈ tr.controls
  | _ => False

/-- A transition without effects files its control records. -/
theorem transition_files {tr : ExecutionTransition Value} {w : MemorySteps Value}
    {b b' k : String} {t : Nat} {v : Value} (heffects : tr.effects = [])
    (h : (w.commitTransition b' tr t).2.step b k = .done v) :
    w.step b k = .done v ∨ b' = b ∧ (k, v) ∈ tr.controls := by
  have hstate : (w.commitTransition b' tr t).2 = w ∨ (w.commitTransition b' tr t).2 =
      (MemorySteps.insertInputs b' tr.inputs (MemorySteps.putAll b' tr.controls w) []).2 := by
    unfold MemorySteps.commitTransition
    rw [heffects]
    rcases MemorySteps.fenced_state (s := w) (b := b') (t := t) _ with he | he
    · exact .inl he
    · rw [he]
      exact .inr rfl
  rcases hstate with he | he
  · rw [he] at h
    exact .inl h
  · rw [he] at h
    have hentry := Permanence.step_of_done h
    rw [insertInputs_entries] at hentry
    rcases entry_putAll (s := w) (b := b) (k := k) b' tr.controls with
      hsame | ⟨rfl, item, hitem, rfl, hput⟩
    · rw [hsame] at hentry
      refine .inl ?_
      unfold MemorySteps.step
      rw [hentry]
      rfl
    · rw [hput] at hentry
      cases hentry
      exact .inr ⟨rfl, hitem⟩

/-- What a step is done with, it was done with before, or the call files it. -/
theorem exec_files {c : Call Value} {now now' : ℚ} {w : MemorySteps Value} {b k : String}
    {v : Value} (hc : ∀ b tr token, c = .commitTransition b tr token → tr.effects = [])
    (h : (c.exec now now' w).2.step b k = .done v) : w.step b k = .done v ∨ Files c b k v := by
  have htransition : ∀ b' tr token, c = .commitTransition b' tr token →
      w.step b k = .done v ∨ Files c b k v := by
    intro b' tr token hcall
    subst hcall
    exact transition_files (hc b' tr token rfl) h
  have htouch := exec_touch c now now' w b k
  rw [Permanence.step_of_done h] at htouch
  generalize hst : w.entries.get? (b, k) = st at htouch
  generalize hst' : some (Step.done v) = st' at htouch
  cases htouch with
  | same =>
    refine .inl ?_
    unfold MemorySteps.step
    rw [hst, ← hst']
    rfl
  | start => cases hst'
  | finish v' t hcall =>
    cases hst'
    subst hcall
    exact .inr ⟨rfl, rfl, rfl⟩
  | control _ v' t hcall =>
    cases hst'
    subst hcall
    exact .inr ⟨rfl, rfl, rfl⟩
  | forget => cases hst'
  | transition _ tr v' t hcall => exact htransition b tr t hcall

/-- What is parked under the coordinates of the threads, and what they have found there, is of
their conversations. -/
structure Placed (at_ : Nat → Execution) (s : Scene) : Prop where
  cells : ∀ i active, s.world.store.step (filedName (at_ i)) Effects.activeSuspension =
    .done (.suspension active) → active.conversationId = (at_ i).conversation
  found : ∀ i j active, (⟨j, .ledger (.read (filedName (at_ i)) Effects.activeSuspension),
    .ok (.done (.suspension active))⟩ : Event) ∈ s.events →
      active.conversationId = (at_ i).conversation

theorem Placed.sound {at_ : Nat → Execution} (h : Placed at_ s) (i : Nat) :
    Sound (at_ i) (acts (log i s.events)) := fun active hmem => h.found i i active (mem_acts List.prefix_rfl hmem)

theorem placed_exec {at_ : Nat → Execution} {o : Op} {r : Except Exn o.Res}
    (he : exec out self i o s r s') (h : Placed at_ s)
    (coordinates : ∀ i j, filedName (at_ i) = filedName (at_ j) →
      (at_ i).conversation = (at_ j).conversation)
    (hremembers : ∀ c, o = .ledger c → Remembers (at_ i).conversation c)
    (hbranch : ∀ c token, o = .ledger c → c.token? = some token → c.branchId = filedName (at_ i)) :
    Placed at_ s' := by
  obtain ⟨hevents, hworld, hreply⟩ := exec_events he
  constructor
  · intro j active hcell
    rw [hworld] at hcell
    cases o with
    | ledger c =>
      have hc := hremembers c rfl
      have heffects : ∀ b tr token, c = .commitTransition b tr token → tr.effects = [] := by
        intro b tr token hcall
        subst hcall
        exact hc.1
      rcases exec_files heffects hcell with hold | hfiles
      · exact h.cells j active hold
      · cases c with
        | finishEffect b k v token =>
          obtain ⟨hb, hk, hv⟩ := hfiles
          rw [← coordinates i j ((hbranch _ token rfl rfl).symm.trans hb)]
          exact hc hk active hv
        | writeControl b k v token =>
          obtain ⟨hb, hk, hv⟩ := hfiles
          rw [← coordinates i j ((hbranch _ token rfl rfl).symm.trans hb)]
          exact hc hk active hv
        | commitTransition b tr token =>
          obtain ⟨hb, hmem⟩ := hfiles
          rw [← coordinates i j ((hbranch _ token rfl rfl).symm.trans hb)]
          exact hc.2 _ hmem rfl active rfl
        | _ => exact hfiles.elim
    | _ => exact h.cells j active hcell
  · intro j k active hmem
    rw [hevents] at hmem
    rcases mem_snoc hmem with hold | hnew
    · exact h.found j k active hold
    · cases hnew
      exact h.cells j active (Except.ok.inj hreply).symm

/-! Together. -/

/-- Each token stands for one lease of one call: what is written is written inside it, and never
behind what a newer lease was granted or wrote. -/
structure OneAtATime (at_ : Nat → Execution) (s : Scene) : Prop where
  leased : ∀ i front c reply rest token,
    log i s.events = front ++ ⟨i, .ledger c, reply⟩ :: rest → c.token? = some token →
      c.branchId = filedName (at_ i) ∧ ∃ owner, Held (filedName (at_ i)) owner token (acts front)
  newest : ∀ front e rest b token, s.events = front ++ e :: rest → Accepts b token e →
    ∀ f ∈ front, ∀ token', Names b token' f → token' ≤ token
  apart : ∀ e ∈ s.events, ∀ e' ∈ s.events, ∀ b token, Accepts b token e → Accepts b token e' →
    e.thread = e'.thread

/-- What holds at any moment of a run. -/
structure Inv (out : Outside) (at_ : Nat → Execution) (s : Scene) : Prop where
  handed : Handed out s
  tokens : Tokens s
  placed : Placed at_ s

theorem Held.granted {b owner : String} {token : Nat} {front : List Event}
    (hfront : front <+: log i s.events) (h : Held b owner token (acts front)) :
    (⟨i, .uuid4, .ok owner⟩ : Event) ∈ s.events ∧
      ∃ f ∈ s.events, Grants b owner token f := by
  obtain ⟨before, ttl, rest, hdone, hpos, -⟩ := h
  have hmem : ∀ d ∈ [(⟨.uuid4, .ok owner⟩ : Done), ⟨.ledger (.acquire b owner ttl), .ok token⟩],
      (⟨i, d.op, d.reply⟩ : Event) ∈ s.events := by
    intro d hd
    apply mem_acts hfront
    rw [hdone]
    simp only [List.mem_cons, List.not_mem_nil, or_false] at hd
    rcases hd with rfl | rfl
    · exact List.mem_append_right _ List.mem_cons_self
    · exact List.mem_append_right _ (List.mem_cons_of_mem _ List.mem_cons_self)
  exact ⟨hmem ⟨.uuid4, .ok owner⟩ (by simp),
    _, hmem ⟨.ledger (.acquire b owner ttl), .ok token⟩ (by simp), i, ttl, rfl, hpos⟩

theorem inv_exec {at_ : Nat → Execution} {o : Op} {r : Except Exn o.Res}
    (coordinates : ∀ i j, filedName (at_ i) = filedName (at_ j) →
      (at_ i).conversation = (at_ j).conversation)
    (he : exec out self i o s r s') (ordered : ∀ i, Ordered (workRule (at_ i)) i s')
    (h : Inv out at_ s) : Inv out at_ s' := by
  have hlog := log_mine (exec_events he).1
  have hrule := ordered i _ _ _ hlog (h.placed.sound i)
  have hledger : ∀ c, o = .ledger c → Remembers (at_ i).conversation c := by
    intro c hc
    subst hc
    rcases hrule with hleased | hrenews
    · exact hleased.remembers c rfl
    · cases c <;> first | exact hrenews.elim | trivial
  have hheld : ∀ c token, o = .ledger c → c.token? = some token → c.branchId = filedName (at_ i) ∧
      ∃ owner, Held (filedName (at_ i)) owner token (acts (log i s.events)) := by
    intro c token hc htoken
    subst hc
    rcases hrule with hleased | hrenews
    · exact hleased.held c token rfl htoken
    · cases c <;> first | exact hrenews.elim | cases htoken
  refine ⟨handed_exec he h.handed, tokens_exec he h.tokens ?_ ?_, placed_exec he h.placed
    coordinates hledger (fun c token hc htoken => (hheld c token hc htoken).1)⟩
  · intro b owner ttl hc
    subst hc
    rcases hrule with hleased | hrenews
    · obtain ⟨-, front, hfront⟩ := hleased.asked b owner ttl rfl
      have hmem : (⟨.uuid4, .ok owner⟩ : Done) ∈ acts (log i s.events) := by
        rw [hfront]
        exact List.mem_append_right _ List.mem_cons_self
      obtain ⟨n, -, howner⟩ := h.handed.known i owner (mem_acts List.prefix_rfl hmem)
      rw [howner]
      exact out.uuid4_nonempty n
    · exact hrenews
  · intro c token hc htoken
    obtain ⟨hbranch, owner, hheld⟩ := hheld c token hc htoken
    obtain ⟨-, f, hf, hgrants⟩ := hheld.granted List.prefix_rfl
    rw [hbranch]
    exact ⟨owner, f, hf, hgrants⟩

end

section
variable {out : Outside} {self : Nat → Nat} {at_ : Nat → Execution}
variable {pool pool' : Nat → Program Reply} {s s' : Scene}

theorem ordered_works (works : ∀ i, Works (at_ i) (pool i)) (apart : ∀ i j, j ≠ i → self j ≠ self i)
    (fresh : s.events = []) (run : Interleaved (exec out self) (fun _ _ => False) pool s pool' s') :
    ∀ i, Ordered (workRule (at_ i)) i s' := fun i =>
  ordered_of_safe (fun a => keeps_works (works i) _ trivial) (apart i) (by simp [fresh, log]) run

/-- What a run begins with, where nothing has been done yet. -/
theorem inv_fresh
    (parked : ∀ i active, s.world.store.step (filedName (at_ i)) Effects.activeSuspension =
      .done (.suspension active) → active.conversationId = (at_ i).conversation)
    (issued : ∀ b lease, s.world.store.leases.get? b = some lease →
      lease.token ≤ s.world.store.issued b) (fresh : s.events = []) : Inv out at_ s := by
  refine ⟨⟨?_, ?_⟩, ⟨?_, ?_, ?_, ?_⟩, ⟨parked, ?_⟩⟩ <;> simp [fresh]
  exact fun b lease hlease => issued b lease hlease

/-- However many calls of however many runtimes run side by side, with the renewals of their leases
early or late, and whoever crashes: a branch has one writer at a time. -/
theorem one_writer (works : ∀ i, Works (at_ i) (pool i))
    (coordinates : ∀ i j, filedName (at_ i) = filedName (at_ j) →
      (at_ i).conversation = (at_ j).conversation)
    (parked : ∀ i active, s.world.store.step (filedName (at_ i)) Effects.activeSuspension =
      .done (.suspension active) → active.conversationId = (at_ i).conversation)
    (issued : ∀ b lease, s.world.store.leases.get? b = some lease →
      lease.token ≤ s.world.store.issued b)
    (apart : ∀ i j, j ≠ i → self j ≠ self i) (fresh : s.events = [])
    (run : Interleaved (exec out self) (fun _ _ => False) pool s pool' s') :
    OneAtATime at_ s' := by
  have hordered := ordered_works works apart fresh run
  have hinv := run.along (fun _ _ run => ordered_works works apart fresh run)
    (fun i o s r s' he ordered h => inv_exec coordinates he ordered h) (fun _ _ h => h.elim)
    (inv_fresh parked issued fresh)
  have hleased : ∀ i front c reply rest token,
      log i s'.events = front ++ ⟨i, .ledger c, reply⟩ :: rest → c.token? = some token →
        c.branchId = filedName (at_ i) ∧ ∃ owner, Held (filedName (at_ i)) owner token (acts front) := by
    intro i front c reply rest token hlog htoken
    have hsound : Sound (at_ i) (acts front) := by
      refine (hinv.placed.sound i).before ?_
      rw [hlog]
      exact ⟨_, (List.map_append ..).symm⟩
    rcases hordered i front _ rest hlog hsound with hleased | hrenews
    · exact hleased.held c token rfl htoken
    · cases c <;> first | exact hrenews.elim | cases htoken
  refine ⟨hleased, hinv.tokens.newest, ?_⟩
  have howner : ∀ e ∈ s'.events, ∀ b token, Accepts b token e → ∃ owner,
      (⟨e.thread, .uuid4, .ok owner⟩ : Event) ∈ s'.events ∧
        ∃ f ∈ s'.events, Grants b owner token f := by
    intro e hmem b token hwrite
    obtain ⟨i, c, reply, rfl, htoken, rfl⟩ := hwrite
    obtain ⟨front, rest, hlog⟩ := List.append_of_mem (Parked.mem_log.mpr ⟨hmem, rfl⟩)
    obtain ⟨hbranch, owner, hheld⟩ := hleased i front c _ rest token hlog htoken
    obtain ⟨hhanded, hgranted⟩ := hheld.granted (hlog ▸ List.prefix_append _ _)
    rw [hbranch]
    exact ⟨owner, hhanded, hgranted⟩
  intro e he e' he' b token hwrite hwrite'
  obtain ⟨owner, hhanded, f, hf, hgrants⟩ := howner e he b token hwrite
  obtain ⟨owner', hhanded', f', hf', hgrants'⟩ := howner e' he' b token hwrite'
  obtain rfl := hinv.tokens.single b owner owner' token f hf f' hf' hgrants hgrants'
  exact hinv.handed.apart _ _ owner hhanded hhanded'

end

open Mediated (approved personal promptThenApprove sender)

/-- The tokens the leases of a run were granted under. -/
def granted (s : Scene) : List Nat :=
  s.events.filterMap fun
    | ⟨_, .ledger (.acquire ..), .ok token⟩ => some token
    | _ => none

/-- The prompt that parks and the answer to it each write under a lease of their own. -/
theorem one_writer_approved : granted approved.2 = [1, 2] ∧
    OneAtATime (fun _ => { branchId := "run" }) approved.2 := by
  refine ⟨by decide +kernel, ?_⟩
  have run := interleaved_scheduled (Scene.perform personal id) (fun _ _ => False)
    (List.replicate 62 0 ++ List.replicate 99 1) promptThenApprove ⟨{}, fun _ => {}, []⟩
  refine one_writer ?_ (fun _ _ _ => rfl) ?_ ?_ (fun _ _ hj => hj) rfl run
  · exact fun i => .inl ⟨{}, sender, _, rfl, gathers_standard _ _ _, .inl rfl⟩
  · simp [MemorySteps.step]
  · simp [Dict.get?, Dict.empty, fetch]

end Semora.Proofs.OneWriter
