import Semora.Proofs.Course
import Semora.Proofs.ForkRetry
import Semora.Proofs.Regated

/-! A fork that gates its copies again, and what comes after it on the target: whether the record of
a copied call reaches the model before the target's controls have let the call go on. -/

namespace Semora.Proofs.LastWord
open Semora.Lib Semora.Store Semora.Transcript Semora.Effects ForkRetry Regate

/-- At some entry of the list `P` holds of the entries before it and of the entry. -/
def At {α : Type} (P : List α → α → Prop) (l : List α) : Prop :=
  ∃ k : Fin l.length, P (l.take k) (l.get k)

instance {α : Type} {P : List α → α → Prop} [∀ before e, Decidable (P before e)] (l : List α) :
    Decidable (At P l) := inferInstanceAs (Decidable (∃ k : Fin l.length, P (l.take k) (l.get k)))

theorem at_append {α : Type} {P : List α → α → Prop} {l : List α} {e : α} :
    At P (l ++ [e]) ↔ At P l ∨ P l e := by
  constructor
  · intro ⟨⟨k, hk⟩, h⟩
    rcases Nat.lt_or_ge k l.length with hlt | hge
    · left
      refine ⟨⟨k, hlt⟩, ?_⟩
      simpa [List.take_append_of_le_length (Nat.le_of_lt hlt), List.getElem_append_left hlt] using h
    · right
      have hlast : k = l.length := by
        simp at hk
        omega
      subst hlast
      simpa using h
  · intro h
    rcases h with ⟨⟨k, hk⟩, h⟩ | h
    · refine ⟨⟨k, by simp; omega⟩, ?_⟩
      simpa [List.take_append_of_le_length (Nat.le_of_lt hk), List.getElem_append_left hk] using h
    · exact ⟨⟨l.length, by simp⟩, by simpa using h⟩

/-- The event committed the result of the call's step on the target. -/
def commits (f : Fork) (c : String) : Event → Bool
  | ⟨_, .ledger (.finishEffect b k ..), .ok _⟩ => b = f.target ∧ k = stepKey c
  | _ => false

instance (i : Nat) (events : List Event) : Decidable (Begun i events) :=
  inferInstanceAs (Decidable (∃ ev ∈ events, ev.thread = i ∧ modifies ev.op = true))

/-- The call of this number copied the record: it committed the result before its attempt began. -/
def CopiedBy (f : Fork) (i : Nat) (c : String) : List Event → Prop :=
  At (fun before e => e.thread = i ∧ commits f c e = true ∧ ¬ Begun i before)

def Copied (f : Fork) (c : String) (events : List Event) : Prop := ∃ i, CopiedBy f i c events

/-- The controls have let the call go on, at or after the copy. -/
def Allowed (f : Fork) (c : String) : List Event → Prop :=
  At (fun before e => Copied f c before ∧ Lets c e.op e.reply)

/-- The record of a copied call was given only once the controls had let the call go on. -/
def Regated (f : Fork) (events : List Event) : Prop :=
  ∀ c, ¬ At (fun before e => Gives f.target c e.op ∧ Copied f c before ∧ ¬ Allowed f c before) events

/-- What else is called on the target, later. -/
inductive Later
  | run (agent : Agent) (prompt : Option String) (options : Options)
  | resume (pendingId : String) (answer : Answer) (agent : Agent) (controls : Option String)
      (rulesVersion : String)
  | recover (agent : Agent) (history : List ModelMessage) (controls : Option String)
      (rulesVersion : String)

namespace Later

def program (rt : AgentRuntime) (e : Execution) : Later → Program Outcome
  | run agent prompt options => rt.run e agent prompt options
  | resume pendingId answer agent controls rulesVersion =>
    rt.resume e pendingId answer agent controls rulesVersion
  | recover agent history controls rulesVersion => rt.recover e agent history controls rulesVersion

def agent : Later → Agent
  | run agent .. | resume _ _ agent .. | recover agent .. => agent

end Later

/-- Forks and other calls on the target, one after the other, each stopping anywhere; meanwhile
anything may become of the stores. -/
def Forked (f : Fork) (exec : Nat → Prog.Exec Op Op.Res Exn Scene) (w : World) :
    Nat → Program Outcome → Scene → Prop :=
  Successive exec (fun s s' => s'.events = s.events)
    (fun _ p => p = f.program ∨ ∃ (later : Later) (rt : AgentRuntime),
      Awaiting later.agent.toPydanticAI ∧ p = later.program rt f.dst)
    (fun _ _ _ => True) ⟨w, fun _ => {}, []⟩

/-- Only the call that copied a record asks the ledger about it, until the controls have let the
copied call go on. -/
def Timely (f : Fork) (i : Nat) (o : Op) (s : Scene) : Prop :=
  ∀ c, Looks f.target c o → (∃ j, j ≠ i ∧ CopiedBy f j c s.events) → Allowed f c s.events

def timely (f : Fork) (out : Outside) (i : Nat) : Prog.Exec Op Op.Res Exn Scene :=
  fun o s r s' => Timely f i o s ∧ exec out id i o s r s'

section
variable {f : Fork} {i : Nat} {c : String} {events : List Event} {e : Event}

theorem copiedBy_append : CopiedBy f i c (events ++ [e]) ↔
    CopiedBy f i c events ∨ e.thread = i ∧ commits f c e = true ∧ ¬ Begun i events := at_append

theorem allowed_append : Allowed f c (events ++ [e]) ↔
    Allowed f c events ∨ Copied f c events ∧ Lets c e.op e.reply := at_append

theorem regated_append : Regated f (events ++ [e]) ↔ Regated f events ∧
    ∀ c, Gives f.target c e.op → Copied f c events → Allowed f c events := by
  simp only [Regated, at_append, not_or, forall_and]
  apply and_congr_right'
  apply forall_congr'
  intro c
  tauto

/-- An attempt that has begun copies no more. -/
theorem copied_begun (h : Begun e.thread events) :
    Copied f c (events ++ [e]) ↔ Copied f c events := by
  apply exists_congr
  intro j
  rw [copiedBy_append]
  constructor
  · intro hcopied
    rcases hcopied with hcopied | ⟨rfl, -, hearly⟩
    · exact hcopied
    · exact absurd h hearly
  · exact .inl

end

/-- Before the attempt of this number begins. -/
structure Ahead (f : Fork) (i : Nat) (copied : List String) (s : Scene) : Prop where
  regated : Regated f s.events
  early : ¬ Begun i s.events
  mine : ∀ c, CopiedBy f i c s.events → c ∈ copied

def Rely (s s' : Scene) : Prop := s'.events = s.events

def Guarantee (f : Fork) (i : Nat) (s s' : Scene) : Prop :=
  (∃ o r, s'.events = s.events ++ [⟨i, o, r⟩]) ∧ Regated f s'.events

/-- An operation that neither gives a record, nor copies one, nor begins an attempt. -/
structure Bare (f : Fork) (o : Op) : Prop where
  gives : ∀ c, ¬ Gives f.target c o
  modifies : modifies o = false
  commits : ∀ c v t, o ≠ .ledger (.finishEffect f.target (stepKey c) v t)

def outer : Op → Bool
  | .ledger (.read ..) | .ledger (.finishEffect ..) | .modify _ => false
  | _ => true

abbrev Safe (f : Fork) (out : Outside) (i : Nat) {α : Type} (p : Program α)
    (Q : Except Exn α → Scene → Prop) (s : Scene) : Prop :=
  Prog.safe (timely f out i) Rely (Guarantee f i) p Q s

section
variable {f : Fork} {out : Outside} {i : Nat} {copied : List String} {s s' : Scene}

theorem Ahead.rely (h : Ahead f i copied s) (move : Rely s s') : Ahead f i copied s' := by
  unfold Rely at move
  exact ⟨move ▸ h.regated, move ▸ h.early, move ▸ h.mine⟩

theorem commits_bare {o : Op} {r : Except Exn o.Res} {c : String} {j : Nat}
    (h : ∀ c v t, o ≠ .ledger (.finishEffect f.target (stepKey c) v t)) :
    commits f c ⟨j, o, r⟩ = false := by
  unfold commits
  split
  · rename_i b k v t u heq
    cases heq
    simp only [decide_eq_false_iff_not, not_and]
    intro hb hk
    exact absurd (by rw [hb, hk]) (h c v t)
  · rfl

/-- One operation ahead of the attempt, and what the fork has copied then. -/
theorem ahead_op {o : Op} {r : Except Exn o.Res} (more : List String)
    (hgives : ∀ c, ¬ Gives f.target c o) (hmodifies : modifies o = false)
    (hmore : ∀ c, commits f c ⟨i, o, r⟩ = true → c ∈ more)
    (h : Ahead f i copied s) (he : timely f out i o s r s') :
    Guarantee f i s s' ∧ Ahead f i (copied ++ more) s' := by
  obtain ⟨hevents, -, -⟩ := exec_events he.2
  have hregated : Regated f s'.events := by
    rw [hevents, regated_append]
    exact ⟨h.regated, fun c hc => absurd hc (hgives c)⟩
  refine ⟨⟨⟨o, r, hevents⟩, hregated⟩, hregated, begun_append hevents hmodifies h.early, ?_⟩
  intro c hc
  rw [hevents, copiedBy_append] at hc
  apply List.mem_append.mpr
  rcases hc with hc | ⟨-, hc, -⟩
  · exact .inl (h.mine c hc)
  · exact .inr (hmore c hc)

/-- A program that gets no attempt under way. -/
theorem safe_bare {α : Type} {p : Program α} (hp : p.AllOps (Bare f)) (h : Ahead f i copied s) :
    Safe f out i p (fun _ s' => Ahead f i copied s') s := by
  apply Prog.safe_of_allOps (P := Bare f) _ _ hp h
  · intro a b move ha
    exact ha.rely move
  · intro o ho a r b ha he
    have hgo := ahead_op [] ho.gives ho.modifies
      (fun c hc => by rw [commits_bare ho.commits] at hc; cases hc) ha he
    rw [List.append_nil] at hgo
    exact hgo

/-- What follows an attempt and gives no record. -/
theorem safe_after {α : Type} {p : Program α} (hp : p.AllOps (fun o => ∀ c, ¬ Gives f.target c o))
    (h : Regated f s.events) : Safe f out i p (fun _ s' => Regated f s'.events) s := by
  apply Prog.safe_of_allOps (I := fun (s : Scene) => Regated f s.events) _ _ hp h
  · intro a b move ha
    exact move ▸ ha
  · intro o ho a r b ha he
    obtain ⟨hevents, -, -⟩ := exec_events he.2
    have hregated : Regated f b.events := by
      rw [hevents, regated_append]
      exact ⟨ha, fun c hc => absurd hc (ho c)⟩
    exact ⟨⟨⟨o, r, hevents⟩, hregated⟩, hregated⟩

theorem safe_then {α β : Type} {p : Program α} {g : α → Program β}
    {Q : Except Exn β → Scene → Prop} (hp : p.AllOps (Bare f)) (h : Ahead f i copied s)
    (hQ : ∀ error s', Regated f s'.events → Q (.error error) s')
    (hg : ∀ a s', Ahead f i copied s' → Safe f out i (g a) Q s') :
    Safe f out i (p.bind g) Q s := by
  apply (Prog.safe_bind _ _ _ _).mpr
  apply Prog.safe_post (safe_bare hp h)
  intro r s₁ h₁
  cases r with
  | error error => exact hQ error s₁ h₁.regated
  | ok a => exact hg a s₁ h₁

/-- An attempt that waits: for the control plane where it copied the record, and for what the ledger
holds in any other case. -/
theorem safe_attemptRun {rt : AgentRuntime} {e : Execution} {token : Nat} {agent : Agent}
    {prompt : Option String} {options : Options} (awaiting : Awaiting agent.toPydanticAI)
    (hlets : ∀ c ∈ copied, Waits (Lets c) f.target c (fun _ => True)
      (attemptRest rt e token agent prompt options))
    (h : Ahead f i copied s) :
    Safe f out i (rt.attemptRun e token agent prompt options)
      (fun _ s' => Regated f s'.events) s := by
  rw [attemptRun_eq]
  apply (Prog.safe_bind _ _ _ _).mpr
  apply (Prog.safe_op _ _ _).mpr
  intro s₁ move r s₂ he
  have h₁ := h.rely move
  obtain ⟨hevents, -, -⟩ := exec_events he.2
  have hregated : Regated f s₂.events := by
    rw [hevents, regated_append]
    refine ⟨h₁.regated, fun c hc => ?_⟩
    cases hc
  refine ⟨⟨⟨_, r, hevents⟩, hregated⟩, ?_⟩
  have hbegun : Begun i s₂.events :=
    ⟨_, by rw [hevents]; exact List.mem_append_right _ (List.mem_singleton_self _), rfl, rfl⟩
  have hmine : ∀ c, CopiedBy f i c s₂.events → c ∈ copied := by
    intro c hc
    rw [hevents, copiedBy_append] at hc
    rcases hc with hc | ⟨-, hc, -⟩
    · exact h₁.mine c hc
    · cases hc
  cases r with
  | error error => exact hregated
  | ok u =>
    apply Prog.safe_post (Prog.safe_awaits
      (L := fun c (s : Scene) => Copied f c s.events → Allowed f c s.events)
      (I := fun (s : Scene) => Regated f s.events ∧ Begun i s.events ∧
        ∀ c, CopiedBy f i c s.events → c ∈ copied)
      (A := fun c o r => if c ∈ copied then Lets c o r else Looks f.target c o)
      (N := fun c => Gives f.target c) ?rely ?grants ?op ?waits ⟨hregated, hbegun, hmine⟩)
    · exact fun _ _ hI => hI.1
    case rely =>
      intro a b move hI
      unfold Rely at move
      rw [move]
      exact ⟨hI, fun _ hc => hc⟩
    case grants =>
      intro c o a r b ⟨_, hbegun, hmine⟩ he hleave hcopied
      obtain ⟨hevents, -, -⟩ := exec_events he.2
      rw [hevents, copied_begun hbegun] at hcopied
      rw [hevents, allowed_append]
      rcases hleave with hleave | hgrants
      · exact .inl (hleave hcopied)
      · split at hgrants
        · exact .inr ⟨hcopied, hgrants⟩
        · rename_i hnot
          obtain ⟨j, hj⟩ := hcopied
          refine .inl (he.1 c hgrants ⟨j, ?_, hj⟩)
          rintro rfl
          exact hnot (hmine c hj)
    case op =>
      intro o a r b ⟨hregated, hbegun, hmine⟩ he hneeds
      obtain ⟨hevents, -, -⟩ := exec_events he.2
      have hregated' : Regated f b.events := by
        rw [hevents, regated_append]
        exact ⟨hregated, hneeds⟩
      refine ⟨⟨⟨o, r, hevents⟩, hregated'⟩, hregated', ?_, ?_⟩
      · obtain ⟨ev, hev, hrest⟩ := hbegun
        exact ⟨ev, by rw [hevents]; exact List.mem_append_left _ hev, hrest⟩
      · intro c hc
        rw [hevents, copiedBy_append] at hc
        rcases hc with hc | ⟨-, -, hearly⟩
        · exact hmine c hc
        · exact absurd hbegun hearly
    case waits =>
      intro c
      right
      by_cases hc : c ∈ copied
      · simp only [hc, ↓reduceIte]
        exact hlets c hc
      · simp only [hc, ↓reduceIte]
        exact looks_attemptRest rt e token prompt options awaiting

/-! The calls. -/

theorem bare_op {o : Op} (h : Bare f o) : (perform o).AllOps (Bare f) := (Prog.allOps_op o).mpr h

/-- An operation that reads no step, commits no result and leaves the attempt's memory alone. -/
theorem bare_outer {o : Op} (h : outer o = true) : Bare f o := by
  refine ⟨?_, ?_, ?_⟩
  · intro c hgives
    unfold Gives gives at hgives
    split at hgives
    · cases h
    · cases hgives
  · cases o <;> first | rfl | cases h
  · rintro c v t rfl
    cases h

theorem bare_lookup {b : String} (call : ToolCall) :
    Bare f (.ledger (.read b (stepKey call.toolCallId))) :=
  ⟨fun _ => looks_ungiving call b, rfl, by simp⟩

theorem bare_control {b k : String} (h : ∀ c, k ≠ afterKey c) : Bare f (.ledger (.read b k)) := by
  refine ⟨?_, rfl, by simp⟩
  intro c hgives
  obtain ⟨-, hkey⟩ : b = f.target ∧ k = afterKey c := by simpa [Gives, gives] using hgives
  exact h c hkey

variable {rt : AgentRuntime} {e : Execution}

theorem bare_active : (rt.active e).AllOps (Bare f) := by
  apply Prog.allOps_bind
  · unfold AgentRuntime.requireStore
    split <;> trivial
  · intro store
    apply Prog.allOps_bind (bare_op (bare_control (fun c => (afterKey_active c).symm)))
    intro record
    trivial

theorem bare_queueBehind {α : Type} (active : Suspension) (text : String)
    (promptId : Option String) :
    (rt.queueBehind e active text promptId : Program α).AllOps (Bare f) := by
  apply Prog.allOps_bind (bare_op (bare_outer rfl))
  intro instant
  apply Prog.allOps_bind
  · apply Prog.allOps_bind
    · unfold AgentRuntime.inputIdOf
      split
      · exact bare_op (bare_outer rfl)
      · exact bare_op (bare_outer rfl)
      · trivial
    · intro originId
      apply Prog.allOps_bind
      · unfold AgentRuntime.requireStore
        split <;> trivial
      · intro store
        apply Prog.allOps_bind (bare_op (bare_outer rfl))
        intro inserted
        trivial
  · intro _
    split <;> trivial

/-- Where a call that has copied nothing is on its way. -/
def course (f : Fork) (i : Nat) : Course Scene where
  idle := Ahead f i []
  named _ := Ahead f i []
  leased _ := Ahead f i []
  looked _ _ := Ahead f i []
  clear _ := Ahead f i []
  decided _ _ _ := Ahead f i []
  resuming _ _ _ := Ahead f i []
  acted _ _ _ s := Regated f s.events
  ends _ _ s := Regated f s.events
  closes _ s := Regated f s.events

/-- What a call does around its attempt. -/
theorem Ahead.bare {α : Type} {p : Program α} (hp : p.AllOps (Bare f)) (h : Ahead f i copied s) :
    Safe f out i p (Prog.either (fun _ => Ahead f i copied) (fun _ s' => Regated f s'.events)) s :=
  Prog.safe_either (safe_bare hp h) (fun _ _ h => h) (fun _ _ h => h.regated)

/-- What it does behind it. -/
theorem safe_ungiving {o : Op} (ho : ∀ c, ¬ Gives f.target c o) (h : Regated f s.events) :
    Safe f out i (perform o)
      (Prog.either (fun _ s' => Regated f s'.events) (fun _ s' => Regated f s'.events)) s :=
  Prog.safe_either (safe_after ((Prog.allOps_op o).mpr ho) h) (fun _ _ h => h) (fun _ _ h => h)

theorem leases : Course.Leases (timely f out i) Rely (Guarantee f i) (course f i) rt e
    (View.filed ⟨e.conversationId⟩ e.branchId) where
  here := rfl
  fails _ _ h := h.regated
  bare _ := ⟨fun _ h => h, fun _ _ h => h⟩
  names _ h := h.bare (bare_op (bare_outer rfl))
  acquires _ _ h := Prog.safe_either (safe_bare (bare_op (bare_outer rfl)) h)
    (fun _ _ h => ⟨fun _ => h, fun _ => h.regated⟩) (fun _ _ h => h.regated)
  releases _ _ _ _ h := safe_ungiving (fun _ => by simp [Gives, gives]) h

/-- Every step of a later call leaves the last word to the controls. -/
theorem steps {token : Nat} {agent : Agent} (awaiting : Awaiting agent.toPydanticAI) :
    Course.Steps (timely f out i) Rely (Guarantee f i) (course f i) rt e
      (View.filed ⟨e.conversationId⟩ e.branchId) token agent where
  here := rfl
  leased_fails _ _ h := h.regated
  looked_fails _ _ _ h := h.regated
  clear_fails _ _ h := h.regated
  decided_fails _ _ _ _ h := h.regated
  attempts _ _ _ h := safe_attemptRun awaiting (by simp) h
  looks _ h := h.bare (bare_op (bare_control (fun c => (afterKey_active c).symm)))
  reads _ _ h _ := by
    have hpending : ∀ c, pendingRound ≠ afterKey c := by
      intro c hkey
      have hlist := congrArg String.toList hkey
      simp [pendingRound, afterKey] at hlist
    exact h.bare (bare_op (bare_control hpending))
  again _ _ h := safe_attemptRun awaiting (by simp) h
  marks _ _ _ h := h.bare (bare_op (bare_outer rfl))
  acts _ _ _ _ h := Prog.safe_either (safe_attemptRun awaiting (by simp) h) (fun _ _ h => h)
    (fun _ _ h => h)
  completes _ _ _ h := safe_ungiving (fun _ => by simp [Gives, gives]) h

theorem keeps {agent : Agent} (awaiting : Awaiting agent.toPydanticAI) :
    Course.Keeps (timely f out i) Rely (Guarantee f i) (course f i) rt e
      (View.filed ⟨e.conversationId⟩ e.branchId) agent where
  toLeases := leases
  peeks _ _ h := h.bare bare_active
  queues _ _ _ _ h := Prog.safe_post (safe_bare (bare_queueBehind _ _ _) h)
    (fun _ _ h => h.regated)
  steps _ := steps awaiting

theorem safe_later {later : Later} (awaiting : Awaiting later.agent.toPydanticAI)
    (h : Ahead f i [] s) :
    Safe f out i (later.program rt e) (fun _ s' => Regated f s'.events) s := by
  cases later with
  | run agent prompt options => exact (keeps awaiting).run prompt options h
  | resume pendingId answer agent controls rulesVersion =>
    refine (keeps awaiting).resume ?_ controls rulesVersion h
    intro t v active call s h _ _
    exact Prog.safe_either (safe_bare (bare_op (bare_outer rfl)) h)
      (fun _ _ h => ⟨fun _ => h, fun _ => h.regated⟩) (fun _ _ h => h.regated)
  | recover agent history controls rulesVersion =>
    exact (keeps awaiting).recover (fun _ _ _ _ h _ _ => h) history controls rulesVersion h

/-- The copy loop returns every call it copied. -/
theorem safe_copyCalls {source target : View} {src : Execution} {token : Nat}
    (calls : List ToolCall) (h : Ahead f i copied s) :
    Safe f out i (AgentRuntime.copyCalls source target src f.dst token calls)
      (fun r s' => Regated f s'.events ∧ ∀ more, r = .ok more → Ahead f i (copied ++ more) s') s := by
  have hQ : ∀ (error : Exn) (s' : Scene), Regated f s'.events → Regated f s'.events ∧
      ∀ more, (Except.error error : Except Exn (List String)) = .ok more →
        Ahead f i (copied ++ more) s' := fun _ _ h => ⟨h, by simp⟩
  induction calls generalizing copied s with
  | nil =>
    refine ⟨h.regated, ?_⟩
    intro more hmore
    cases hmore
    rw [List.append_nil]
    exact h
  | cons call calls ih =>
    have hstart : Bare f (.ledger (.start (target.filed f.dst.branchId)
        (stepKey call.toolCallId) token)) := bare_outer rfl
    apply safe_then (bare_op (bare_lookup call)) h hQ
    intro record s₁ h₁
    cases record with
    | absent => exact ih h₁ hQ
    | running =>
      apply safe_then (bare_op hstart) h₁ hQ
      intro _ s₂ h₂
      exact ih h₂ hQ
    | done value =>
      apply safe_then (bare_op hstart) h₁ hQ
      intro inserted s₂ h₂
      split
      · apply (Prog.safe_bind _ _ _ _).mpr
        apply (Prog.safe_op _ _ _).mpr
        intro s₃ move r s₄ he
        have hmore : ∀ c, commits f c ⟨i, .ledger (.finishEffect (target.filed f.dst.branchId)
            (stepKey call.toolCallId) value token), r⟩ = true → c ∈ [call.toolCallId] := by
          intro c hc
          unfold commits at hc
          split at hc
          · rename_i heq
            cases heq
            obtain ⟨-, hkey⟩ := of_decide_eq_true hc
            exact List.mem_singleton.mpr (stepKey_injective hkey).symm
          · cases hc
        obtain ⟨hg, h₄⟩ := ahead_op [call.toolCallId] (fun _ => by simp [Gives, gives]) rfl hmore (h₂.rely move) he
        refine ⟨hg, ?_⟩
        cases r with
        | error error => exact hQ error s₄ h₄.regated
        | ok _ =>
          apply (Prog.safe_bind _ _ _ _).mpr
          apply Prog.safe_post (ih h₄ (fun _ _ h => ⟨h, by simp⟩))
          intro r s₅ hrest
          obtain ⟨hregated, hmore⟩ := hrest
          cases r with
          | error error => exact hQ error s₅ hregated
          | ok more =>
            refine ⟨hregated, ?_⟩
            intro all hall
            cases hall
            have := hmore more rfl
            rwa [List.append_assoc] at this
      · exact ih h₂ hQ

theorem safe_fork (awaiting : Awaiting f.agent.toPydanticAI) (decides : Decides f.agent.toPydanticAI)
    (backed : Backed f.options) (regate : f.regate = true)
    (policy : (f.options.controls <|> f.agent.own) ≠ none) (h : Ahead f i [] s) :
    Safe f out i f.program (fun _ s' => Regated f s'.events) s := by
  have hhistory : (f.rt.forkHistory f.src f.at_ f.history).AllOps (Bare f) := by
    unfold AgentRuntime.forkHistory
    split
    · trivial
    · split
      · apply Prog.allOps_bind (bare_op (bare_outer rfl))
        intro entries
        split
        · trivial
        · split <;> trivial
      · trivial
  apply Prog.safe_seq (h.bare hhistory)
  intro history s₁ h₁
  refine leases.lease (fun token s₂ h₂ => ?_) h₁
  have hattempt : ∀ copied s', Ahead f i copied s' → Safe f out i
      (f.rt.attemptRun f.dst token f.agent f.prompt
        { f.options with messageHistory := some history, regate := if f.regate then copied else [] })
      (fun _ s' => Regated f s'.events) s' := by
    intro copied s' h'
    apply safe_attemptRun awaiting _ h'
    intro c hc
    have hregate : c ∈ (if f.regate then copied else []) := by
      rw [regate]
      exact hc
    exact lets_attemptRest f.rt f.dst token f.prompt { f.options with
      messageHistory := some history, regate := if f.regate then copied else [] }
      awaiting decides backed hregate policy
  apply (Prog.safe_bind _ _ _ _).mpr
  unfold AgentRuntime.copyRound
  split
  · apply Prog.safe_post (safe_copyCalls _ h₂)
    intro r s₃ ⟨hregated, hmore⟩
    cases r with
    | error error => exact hregated
    | ok copied => exact hattempt copied s₃ (hmore copied rfl)
  · exact hattempt [] s₂ h₂

end

/-- A fork that gates its copies again, and anything called on the target after it, each stopping
anywhere: as long as nobody but the fork that made a copy gets to the copied call before the
controls have let it go on, its record is given to the model only after they have. -/
theorem regated {f : Fork} {out : Outside} {w : World} {n : Nat} {q : Program Outcome} {s : Scene}
    (awaiting : Awaiting f.agent.toPydanticAI) (decides : Decides f.agent.toPydanticAI)
    (backed : Backed f.options) (regate : f.regate = true)
    (policy : (f.options.controls <|> f.agent.own) ≠ none)
    (run : Forked f (timely f out) w n q s) : Regated f s.events := by
  obtain ⟨⟨-, hregated⟩, -⟩ : ((∀ ev ∈ s.events, ev.thread ≤ n) ∧ Regated f s.events) ∧
      Safe f out n q (fun _ s' => True) s := by
    apply successive_safe (J := fun i (s : Scene) => (∀ ev ∈ s.events, ev.thread < i) ∧
        Regated f s.events)
      (I := fun i (s : Scene) => (∀ ev ∈ s.events, ev.thread ≤ i) ∧ Regated f s.events)
      (R := fun _ => Rely) (G := Guarantee f) (Q := fun _ _ _ => True)
      ?start ?next ?begin ?safe ?refl ?trans ?stable ?keeps ?env run
    case start =>
      refine ⟨by simp, ?_⟩
      rintro c ⟨⟨k, hk⟩, -⟩
      exact absurd hk (Nat.not_lt_zero k)
    case next => exact fun i q s hI _ => ⟨fun ev hev => Nat.lt_succ_of_le (hI.1 ev hev), hI.2⟩
    case begin => exact fun i s hJ => ⟨fun ev hev => Nat.le_of_lt (hJ.1 ev hev), hJ.2⟩
    case safe =>
      intro i p s hstarts ⟨hthreads, hregated⟩
      have hahead : Ahead f i [] s := by
        refine ⟨hregated, ?_, ?_⟩
        · intro ⟨ev, hev, hthread, _⟩
          have hlt := hthreads ev hev
          omega
        · intro c ⟨k, hthread, _⟩
          have hlt := hthreads _ (List.get_mem s.events k)
          omega
      rcases hstarts with rfl | ⟨later, rt, hawaiting, rfl⟩
      · exact Prog.safe_post (safe_fork awaiting decides backed regate policy hahead)
          (fun _ _ _ => trivial)
      · exact Prog.safe_post (safe_later hawaiting hahead) (fun _ _ _ => trivial)
    case refl => exact fun _ _ _ => rfl
    case trans => exact fun _ _ _ _ h h' => Eq.trans h' h
    case stable => exact fun _ _ _ _ _ _ => trivial
    case keeps =>
      intro i a b ⟨hthreads, _⟩ ⟨⟨o, r, hevents⟩, hregated⟩
      refine ⟨?_, hregated⟩
      intro ev hev
      rw [hevents] at hev
      rcases List.mem_append.mp hev with hev | hev
      · exact hthreads ev hev
      · rw [List.mem_singleton.mp hev]
    case env =>
      intro i a b hI move
      rw [move]
      exact ⟨hI, move⟩
  exact hregated

/-- The claim that the target's controls always have the last word on a copied call. -/
def AlwaysRegated : Prop :=
  ∀ (f : Fork) (out : Outside) (w : World) (n : Nat) (q : Program Outcome) (s : Scene),
    Awaiting f.agent.toPydanticAI → Decides f.agent.toPydanticAI → Backed f.options →
    f.regate = true → (f.options.controls <|> f.agent.own) ≠ none →
    Forked f (exec out id) w n q s → Regated f s.events

theorem decides_standard (digest : Json → String) (unapproved : List String) (nodeLimit : Nat) :
    Decides (.standard digest unapproved nodeLimit) := by
  refine ⟨?_, ?_⟩
  · intro history prompt results messages response results' h
    simp only [PydanticAI.standard, PydanticAI.Standard.enter] at h
    repeat' split at h
    all_goals cases h
    all_goals rfl
  · intro response messages results item hitem hdecided
    obtain ⟨call, -, rfl⟩ := List.mem_map.mp hitem
    exact hdecided

/-! A fork under a policy that would refuse the charge its source had made. -/

def strict : Fork :=
  { again with regate := true, options := { controls := some "plane" } }

def refusing : Outside :=
  .answering (fun _ _ _ => .ok .null) (fun _ _ => .ok { parts := [] }) (fun _ _ q =>
    match q with
    | .preToolUse .. => .ok (.deny (.str "refused"))
    | .onResume .. => .ok (.deny (.str "refused"))
    | .postToolUse _ _ result => .ok result
    | _ => .error (.other "not asked"))

/-- A recovery of the fork from the history it began with. -/
def recovery : Later :=
  .recover strict.agent [.response { parts := [.toolCall charge] }] (some "plane") ""

/-- The fork stopped with its copy made, and then recovered. -/
def forkedOnce : Program Outcome × Scene :=
  Prog.crash (Scene.perform refusing id 0) 5 strict.program ⟨charged, fun _ => {}, []⟩

def recovered : Program Outcome × Scene :=
  Prog.crash (Scene.perform refusing id 1) 40 (recovery.program {} strict.dst) (waited forkedOnce.2)

theorem recovered_run : Forked strict (exec refusing id) charged 1 recovered.1 recovered.2 := by
  have hcopied : Forked strict (exec refusing id) charged 0 forkedOnce.1 forkedOnce.2 :=
    successive_crash (fun _ _ => true) (fun _ _ _ => rfl) (.first (.inl rfl)) 5 (passes_any _ _ _ _)
  have hwaited : Forked strict (exec refusing id) charged 1 (recovery.program {} strict.dst)
      (waited forkedOnce.2) :=
    .env (.next hcopied trivial (.inr ⟨recovery, {}, awaiting_standard _ _ _, rfl⟩)) rfl
  exact successive_crash (fun _ _ => true) (fun _ _ _ => rfl) hwaited 40 (passes_any _ _ _ _)

/-- The recovery gives the copied record to the model, and nobody has been asked. -/
theorem not_always_regated : ¬ AlwaysRegated := by
  intro h
  apply h strict refusing charged 1 recovered.1 recovered.2 (awaiting_standard _ _ _)
    (decides_standard _ _ _) (fun _ h => absurd rfl h) rfl (by decide) recovered_run "c1"
  have hunasked : ∀ e ∈ recovered.2.events, ¬ Lets "c1" e.op e.reply := by decide +kernel
  have hgiven : ∃ k : Fin recovered.2.events.length,
      Gives strict.target "c1" (recovered.2.events.get k).op ∧
        CopiedBy strict 0 "c1" (recovered.2.events.take k) := by
    unfold CopiedBy
    decide +kernel
  obtain ⟨k, hgives, hcopied⟩ := hgiven
  refine ⟨k, hgives, ⟨0, hcopied⟩, ?_⟩
  intro ⟨j, _, hlets⟩
  exact hunasked _ (List.mem_of_mem_take (List.get_mem _ j)) hlets

/-- A policy that lets the charge go on. -/
def lenient : Outside :=
  .answering (fun _ _ _ => .ok .null) (fun _ _ => .ok { parts := [] }) (fun _ _ q =>
    match q with
    | .preToolUse .. => .ok .continue
    | .postToolUse _ _ result => .ok result
    | _ => .error (.other "not asked"))

/-- The fork alone, as far as it comes. -/
def forked : Program Outcome × Scene :=
  Prog.crash (Scene.perform lenient id 0) 80 strict.program ⟨charged, fun _ => {}, []⟩

/-- Whether everything so far was done by the first call. -/
def first (_ : Op) (s : Scene) : Bool := s.events.all (fun e => e.thread = 0)

theorem regated_forked : Regated strict forked.2.events ∧
    At (fun before e => Gives strict.target "c1" e.op ∧ CopiedBy strict 0 "c1" before)
      forked.2.events := by
  refine ⟨?_, by unfold CopiedBy; decide +kernel⟩
  have hexec : ∀ o s, first o s = true →
      timely strict lenient 0 o s (s.perform lenient id 0 o).1 (s.perform lenient id 0 o).2 := by
    intro o s hfirst
    refine ⟨?_, rfl⟩
    intro c _ ⟨j, hj, k, hthread, _⟩
    have hzero := of_decide_eq_true (List.all_eq_true.mp hfirst _ (List.get_mem s.events k))
    exact absurd (hthread.symm.trans hzero) hj
  have hrun : Forked strict (timely strict lenient) charged 0 forked.1 forked.2 :=
    successive_crash first hexec (.first (.inl rfl)) 80 (by decide +kernel)
  exact regated (awaiting_standard _ _ _) (decides_standard _ _ _) (fun _ h => absurd rfl h) rfl
    (by decide) hrun

end Semora.Proofs.LastWord
