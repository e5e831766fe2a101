import Semora.Proofs.Performs
import Semora.Scene

/-! What the run record of a branch says of the attempts on it. -/

namespace Semora.Proofs.RunRecord
open Semora.Lib Semora.Store Semora.Transcript

/-- The event registers an attempt in the run record of a branch. -/
def opens (b : String) : Event → Bool
  | ⟨_, .recordBranch b' fields, _⟩ => b' = b ∧ fields.startedAt.isSome
  | _ => false

/-- The event records the end of an attempt. -/
def closes (b : String) : Event → Bool
  | ⟨_, .recordBranch b' fields, _⟩ => b' = b ∧ fields.endedAt.isSome
  | _ => false

/-- The attempts that opened the record, in the order they did. -/
def openers (b : String) (events : List Event) : List Nat :=
  (events.filter (opens b)).map Event.thread

/-- The attempts that reached `closed`. -/
def closers (b : String) (events : List Event) : List Nat :=
  (events.filter (closes b)).map Event.thread

/-- The operation leaves the run record of a branch alone. -/
def Spares (b : String) (o : Op) : Prop := ∀ fields, o ≠ .recordBranch b fields

/-- Anything else that happens to the stores meanwhile. -/
inductive Elsewhere (out : Outside) (b : String) : Scene → Scene → Prop
  | perform (s : Scene) (o : Op) (a : Attempt) (attempts : Nat → Attempt) (spares : Spares b o) :
      Elsewhere out b s ⟨(step out o s.world a).2.1, attempts, s.events⟩

/-- The run record is what the attempts made of it, and none closed it without having opened it. -/
structure Inv (b : String) (s : Scene) : Prop where
  opened : s.world.transcript.readBranch b = none ↔ openers b s.events = []
  ended : ∀ fields, s.world.transcript.readBranch b = some fields →
    (fields.endedAt = none ↔ closers b s.events = [])
  after : ∀ i ∈ closers b s.events, i ∈ openers b s.events

theorem readBranch_append (t : MemoryTranscript) (e : Entry) (b : String) :
    (t.append e).2.readBranch b = t.readBranch b := by
  by_cases h : ∃ old ∈ t.read e.conversationId, old.uuid = e.uuid
  · rw [t.append_old h]
  · simp only [not_exists, not_and] at h
    exact congrArg (fun runs => runs.get? b) (t.append_new h).2.1

theorem readBranch_recordBranch (t : MemoryTranscript) (b b' : String) (fields : BranchFields) :
    (t.recordBranch b' fields).readBranch b =
      if b = b' then some (((t.readBranch b).getD {}).update fields) else t.readBranch b := by
  unfold MemoryTranscript.recordBranch MemoryTranscript.readBranch
  rw [Dict.get?_insert]
  split
  · rename_i h
    rw [h]
  · rfl

theorem readBranch_step (out : Outside) {o : Op} {b : String} (w : World) (a : Attempt)
    (ho : Spares b o) :
    (step out o w a).2.1.transcript.readBranch b = w.transcript.readBranch b := by
  cases o with
  | append e => exact readBranch_append _ _ _
  | recordBranch b' fields =>
    have hb : b ≠ b' := fun h => ho fields (by rw [h])
    exact (readBranch_recordBranch _ _ _ _).trans (if_neg hb)
  | _ => rfl

section
variable {b : String} {e : Event} {events : List Event} {i : Nat}

theorem openers_append : openers b (events ++ [e]) =
    openers b events ++ if opens b e then [e.thread] else [] := by
  unfold openers
  cases h : opens b e <;> simp [h]

theorem closers_append : closers b (events ++ [e]) =
    closers b events ++ if closes b e then [e.thread] else [] := by
  unfold closers
  cases h : closes b e <;> simp [h]

theorem spares_event {o : Op} (r : Except Exn o.Res) (ho : Spares b o) :
    opens b ⟨i, o, r⟩ = false ∧ closes b ⟨i, o, r⟩ = false := by
  cases o with
  | recordBranch b' fields =>
    have hb : b' ≠ b := by
      rintro rfl
      exact ho fields rfl
    simp [opens, closes, hb]
  | _ => exact ⟨rfl, rfl⟩

end

section
variable {out : Outside} {self : Nat → Nat} {b : String} {i : Nat} {s s' : Scene}

/-- An opened record stays opened by whoever opened it. -/
def Rely (b : String) (s s' : Scene) : Prop :=
  Inv b s' ∧ ∀ j ∈ openers b s.events, j ∈ openers b s'.events

abbrev Safe (out : Outside) (self : Nat → Nat) (b : String) (i : Nat) {α : Type} (p : Program α)
    (Q : Except Exn α → Scene → Prop) (s : Scene) : Prop :=
  Prog.safe (exec out self i) (Rely b) (Rely b) p Q s

theorem rely_trans {s'' : Scene} (h : Rely b s s') (h' : Rely b s' s'') : Rely b s s'' :=
  ⟨h'.1, fun j hj => h'.2 j (h.2 j hj)⟩

theorem inv_spared (h : Inv b s)
    (hrecord : s'.world.transcript.readBranch b = s.world.transcript.readBranch b)
    (hopeners : openers b s'.events = openers b s.events)
    (hclosers : closers b s'.events = closers b s.events) : Inv b s' := by
  refine ⟨?_, ?_, ?_⟩
  · rw [hrecord, hopeners]
    exact h.opened
  · rw [hrecord, hclosers]
    exact h.ended
  · rw [hopeners, hclosers]
    exact h.after

theorem spared_op {o : Op} {r : Except Exn o.Res} (ho : Spares b o) (hi : Inv b s)
    (h : exec out self i o s r s') : Rely b s s' := by
  obtain ⟨hevents, hworld, -⟩ := exec_events h
  obtain ⟨hopen, hclose⟩ := spares_event (i := i) r ho
  have hopeners : openers b s'.events = openers b s.events := by
    rw [hevents, openers_append, hopen]
    simp
  have hclosers : closers b s'.events = closers b s.events := by
    rw [hevents, closers_append, hclose]
    simp
  have hrecord : s'.world.transcript.readBranch b = s.world.transcript.readBranch b := by
    rw [hworld]
    exact readBranch_step out _ _ ho
  exact ⟨inv_spared hi hrecord hopeners hclosers, fun j hj => hopeners ▸ hj⟩

/-- A program that leaves the record alone leaves it to whoever opened it. -/
theorem safe_spared {α : Type} {p : Program α} (hp : p.AllOps (Spares b)) (hi : Inv b s) :
    Safe out self b i p (fun _ s' => Rely b s s') s := by
  refine Prog.safe_of_allOps ?_ ?_ hp (⟨hi, fun _ hj => hj⟩ : Rely b s s)
  · intro s₁ s₂ hr h
    exact rely_trans h hr
  · intro o ho s₁ r s₂ h he
    have hstep := spared_op ho h.1 he
    exact ⟨hstep, rely_trans h hstep⟩

/-- What the attempt in hand has opened it goes on under. -/
theorem safe_then {α β : Type} {p : Program α} {f : α → Program β} (hp : p.AllOps (Spares b))
    (hi : Inv b s) (hopen : i ∈ openers b s.events)
    (hf : ∀ a s', Inv b s' → i ∈ openers b s'.events →
      Safe out self b i (f a) (fun _ _ => True) s') :
    Safe out self b i (p.bind f) (fun _ _ => True) s := by
  refine (Prog.safe_bind _ _ _ _).mpr (Prog.safe_post (safe_spared hp hi) ?_)
  intro r s₁ h
  cases r with
  | ok a => exact hf a s₁ h.1 (h.2 i hopen)
  | error e => trivial

/-- Writing the start of an attempt into the record. -/
theorem safe_open {fields : BranchFields} (hstart : fields.startedAt.isSome)
    (hend : fields.endedAt = none) :
    Safe out self b i (perform (.recordBranch b fields))
      (fun _ s' => Inv b s' ∧ i ∈ openers b s'.events) s := by
  refine (Prog.safe_op _ _ _).mpr ?_
  intro s₁ hr r s₂ he
  obtain ⟨hevents, hworld, -⟩ := exec_events he
  have hopeners : openers b s₂.events = openers b s₁.events ++ [i] := by
    simp [hevents, openers_append, opens, hstart]
  have hclosers : closers b s₂.events = closers b s₁.events := by
    simp [hevents, closers_append, closes, hend]
  have hrecord : s₂.world.transcript.readBranch b =
      some (((s₁.world.transcript.readBranch b).getD {}).update fields) := by
    rw [hworld]
    exact (readBranch_recordBranch _ _ _ _).trans (if_pos rfl)
  have hinv : Inv b s₂ := by
    refine ⟨by simp [hrecord, hopeners], ?_, ?_⟩
    · intro fields' hf
      rw [hrecord] at hf
      cases hf
      rw [hclosers]
      cases hold : s₁.world.transcript.readBranch b with
      | none =>
        have hnone : closers b s₁.events = [] := by
          refine List.eq_nil_iff_forall_not_mem.mpr ?_
          intro j hj
          have := hr.1.after j hj
          rw [hr.1.opened.mp hold] at this
          cases this
        simp [BranchFields.update, hend, hnone]
      | some old =>
        rw [← hr.1.ended old hold]
        simp [BranchFields.update, hend]
    · intro j hj
      rw [hclosers] at hj
      rw [hopeners]
      exact List.mem_append_left _ (hr.1.after j hj)
  refine ⟨⟨hinv, ?_⟩, hinv, by simp [hopeners]⟩
  intro j hj
  rw [hopeners]
  exact List.mem_append_left _ hj

/-- Writing the end of an attempt that opened the record. -/
theorem safe_close {fields : BranchFields} (hstart : fields.startedAt = none)
    (hend : fields.endedAt.isSome) (hopen : i ∈ openers b s.events) :
    Safe out self b i (perform (.recordBranch b fields))
      (fun _ s' => Inv b s' ∧ i ∈ openers b s'.events) s := by
  refine (Prog.safe_op _ _ _).mpr ?_
  intro s₁ hr r s₂ he
  obtain ⟨hevents, hworld, -⟩ := exec_events he
  have hopeners : openers b s₂.events = openers b s₁.events := by
    simp [hevents, openers_append, opens, hstart]
  have hclosers : closers b s₂.events = closers b s₁.events ++ [i] := by
    simp [hevents, closers_append, closes, hend]
  have hrecord : s₂.world.transcript.readBranch b =
      some (((s₁.world.transcript.readBranch b).getD {}).update fields) := by
    rw [hworld]
    exact (readBranch_recordBranch _ _ _ _).trans (if_pos rfl)
  have hmine : i ∈ openers b s₁.events := hr.2 i hopen
  have hinv : Inv b s₂ := by
    refine ⟨?_, ?_, ?_⟩
    · rw [hrecord, hopeners]
      simp [List.ne_nil_of_mem hmine]
    · intro fields' hf
      rw [hrecord] at hf
      cases hf
      obtain ⟨instant, hinstant⟩ := Option.isSome_iff_exists.mp hend
      simp [BranchFields.update, hinstant, hclosers]
    · intro j hj
      rw [hclosers] at hj
      rw [hopeners]
      rcases List.mem_append.mp hj with hj | hj
      · exact hr.1.after j hj
      · rw [List.mem_singleton.mp hj]
        exact hmine
  exact ⟨⟨hinv, fun j hj => hopeners ▸ hj⟩, hinv, hopeners ▸ hmine⟩

end

/-! The pieces of an attempt that leave the record alone. -/

section
variable {b : String}

theorem spares_op {o : Op} (h : Spares b o) : (perform o).AllOps (Spares b) :=
  (Prog.allOps_op _).mpr h

/-- Nothing an attempt does between its start and its end touches a run record. -/
theorem spares_within {α : Type} {eff : Effects} {p : Program α} (h : Within eff false .effects p) :
    p.AllOps (Spares b) := by
  refine h.mono ?_
  intro o ho
  cases ho <;> simp [Spares]

theorem spares_park {α : Type} (rt : AgentRuntime) (e : Execution) (c : String) (eff : Effects)
    (requests : DeferredToolRequests) (token : Nat) :
    (rt.park e c eff requests token : Program α).AllOps (Spares b) := by
  unfold AgentRuntime.park
  split
  · trivial
  · split
    · trivial
    · trivial
    · simp only
      split
      · trivial
      · have hannounce : ∀ a parked, Within eff false .effects (AgentRuntime.announce eff a parked) :=
          fun a parked => within_announce eff a parked
        refine Prog.allOps_bind (spares_op (by simp [Spares])) (fun a => Prog.allOps_bind
          (spares_within (hannounce a _)) (fun _ => Prog.allOps_bind ?_ (fun _ => trivial)))
        unfold AgentRuntime.persist
        split
        · trivial
        · exact Prog.allOps_bind (spares_op (by simp [Spares])) (fun _ => trivial)

end

section
variable {out : Outside} {self : Nat → Nat} {b : String} {i : Nat} {s : Scene}
variable {rt : AgentRuntime} {e : Execution}

theorem safe_opening (hb : e.branchId = b) (hi : Inv b s) :
    Safe out self b i (Branch.opening e.conversation e.branchId) (fun r s' => Inv b s' ∧
      ∀ u, r = .ok u → i ∈ openers b s'.events) s := by
  subst hb
  refine (Prog.safe_bind _ _ _ _).mpr
    (Prog.safe_post (safe_spared (spares_op (by simp [Spares])) hi) ?_)
  intro r s₁ h₁
  cases r with
  | error error => exact ⟨h₁.1, by simp⟩
  | ok entries =>
    refine (Prog.safe_bind _ _ _ _).mpr ((Prog.safe_bind _ _ _ _).mpr
      (Prog.safe_post (safe_spared (spares_op (by simp [Spares])) h₁.1) ?_))
    intro r s₂ h₂
    cases r with
    | error error => exact ⟨h₂.1, by simp⟩
    | ok instant =>
      refine Prog.safe_post (safe_open rfl rfl) ?_
      intro r s₃ h₃
      cases r with
      | error error => exact ⟨h₃.1, by simp⟩
      | ok u =>
        refine Prog.safe_post (safe_spared (spares_op (by simp [Spares])) h₃.1) ?_
        exact fun r s₄ h₄ => ⟨h₄.1, fun _ _ => h₄.2 i h₃.2⟩

theorem safe_openBranch (hrt : rt.transcript = true) (hb : e.branchId = b)
    (messageHistory : Option (List ModelMessage)) (hi : Inv b s) :
    Safe out self b i (rt.openBranch e messageHistory) (fun r s' => Inv b s' ∧
      ∀ history, r = .ok history → i ∈ openers b s'.events) s := by
  unfold AgentRuntime.openBranch
  rw [if_pos hrt]
  refine (Prog.safe_bind _ _ _ _).mpr (Prog.safe_post (safe_opening hb hi) ?_)
  intro r s₁ ⟨hi₁, hopen⟩
  cases r with
  | error error => exact ⟨hi₁, by simp⟩
  | ok u =>
    have hrest : ∀ p : Program (List ModelMessage), p.AllOps (Spares b) →
        Safe out self b i p (fun r s' => Inv b s' ∧
          ∀ history, r = .ok history → i ∈ openers b s'.events) s₁ := by
      intro p hp
      refine Prog.safe_post (safe_spared hp hi₁) ?_
      exact fun r s₂ h₂ => ⟨h₂.1, fun _ _ => h₂.2 i (hopen u rfl)⟩
    cases messageHistory with
    | none => exact hrest _ (Prog.allOps_bind (spares_op (by simp [Spares])) (fun _ => trivial))
    | some history =>
      have hreplace : Within { store := none, branchId := b, record := some ⟨e.conversation⟩ } false .effects
          (Branch.replace e.conversation history) := within_replace rfl history
      exact hrest _ (Prog.allOps_bind (spares_within hreplace) (fun _ => trivial))

theorem safe_closed (hb : e.branchId = b) (reason : StopReason) (calls : Nat)
    (usage : List (String × UsageFields)) (hi : Inv b s) (hopen : i ∈ openers b s.events) :
    Safe out self b i (closed e.conversation e.branchId reason calls usage) (fun _ _ => True) s := by
  subst hb
  refine safe_then (spares_op (by simp [Spares])) hi hopen ?_
  intro instant s₁ hi₁ hopen₁
  refine (Prog.safe_bind _ _ _ _).mpr (Prog.safe_post (safe_close rfl rfl hopen₁) ?_)
  intro r s₂ h₂
  cases r with
  | error error => trivial
  | ok u =>
    have husage : (usage.forM (fun item => perform
        (.recordModelUsage e.branchId item.1 item.2))).AllOps (Spares e.branchId) := by
      induction usage with
      | nil => trivial
      | cons item usage ih => exact Prog.allOps_bind (spares_op (by simp [Spares])) (fun _ => ih)
    exact Prog.safe_post (safe_spared husage h₂.1) (fun _ _ _ => trivial)

/-- An attempt opens the record first and closes it last, if it comes to that. -/
theorem safe_attemptRun (hrt : rt.transcript = true) (hb : e.branchId = b) {agent : Agent}
    (gathers : Gathers agent.toPydanticAI) (token : Nat) (prompt : Option String)
    (options : Options) (hi : Inv b s) :
    Safe out self b i (rt.attemptRun e token agent prompt options) (fun _ _ => True) s := by
  refine (Prog.safe_bind _ _ _ _).mpr
    (Prog.safe_post (safe_spared (spares_op (by simp [Spares])) hi) ?_)
  intro r s₀ h₀
  cases r with
  | error error => trivial
  | ok u =>
    refine (Prog.safe_bind _ _ _ _).mpr
      (Prog.safe_post (safe_openBranch hrt hb options.messageHistory h₀.1) ?_)
    intro r s₁ hopened
    obtain ⟨hi₁, hopen₁⟩ := hopened
    cases r with
    | error error => trivial
    | ok history =>
      refine safe_then (spares_within (within_admitPrompt rt e token agent options _ _)) hi₁
        (hopen₁ history rfl) ?_
      intro prompt s₂ hi₂ hopen₂
      refine safe_then (spares_within (within_run gathers _ _ _)) hi₂ hopen₂ ?_
      intro output s₃ hi₃ hopen₃
      refine safe_then (spares_within (within_replaceFinal rt e token agent options)) hi₃ hopen₃ ?_
      intro _ s₄ hi₄ hopen₄
      have hclose : ∀ output, Safe out self b i (rt.close e output) (fun _ _ => True) s₄ := by
        intro output
        refine safe_then (spares_op (by simp [Spares])) hi₄ hopen₄ ?_
        intro a s₅ hi₅ hopen₅
        refine (Prog.safe_bind _ _ _ _).mpr ?_
        unfold AgentRuntime.closeRecord
        rw [if_pos hrt]
        refine Prog.safe_post (safe_closed hb _ _ _ hi₅ hopen₅) ?_
        intro r s₆ _
        cases r <;> trivial
      cases output with
      | deferred requests =>
        exact Prog.safe_post (safe_spared (spares_park rt e _ _ _ _) hi₄) (fun _ _ _ => trivial)
      | text content => exact hclose _
      | value value => exact hclose _

end

/-- Nothing is parked on the execution's branch. -/
def Unparked (rt : AgentRuntime) (e : Execution) (w : World) : Prop :=
  ∀ store, rt.storeFor e = some store →
    AgentRuntime.liveSuspension (w.store.read (store.filed e.branchId) Effects.activeSuspension) = none

/-- What the state reported tells of the attempts that opened the record: of none, or of the last
one, whether it reached `closed`. -/
structure Tells (b name : String) (events : List Event) : Prop where
  fresh : name = "fresh" ↔ openers b events = []
  completed : name = "completed" ↔
    ∃ i, (openers b events).getLast? = some i ∧ i ∈ closers b events
  interrupted : name = "interrupted" ↔
    ∃ i, (openers b events).getLast? = some i ∧ i ∉ closers b events

/-- A row of the table takes the command in this state. -/
def Accepted (rows : List Transition) (command : Command) (name : String) : Prop :=
  ∃ row ∈ rows, row.applies command ∧ ∀ states, row.states = some states → name ∈ states

/-- One attempt on branch `b`. -/
structure Try (b : String) where
  execution : Execution
  token : Nat
  agent : Agent
  prompt : Option String
  options : Options
  here : execution.branchId = b
  gathers : Gathers agent.toPydanticAI

def Try.program {b : String} (rt : AgentRuntime) (t : Try b) : Program Outcome :=
  rt.attemptRun t.execution t.token t.agent t.prompt t.options

section
variable {out : Outside} {self : Nat → Nat} {b : String} {i : Nat} {s : Scene}
variable {rt : AgentRuntime} {e : Execution}

/-- The state as some thread observes it. -/
def observed (out : Outside) (self : Nat → Nat) (i : Nat) (rt : AgentRuntime) (e : Execution)
    (s : Scene) : Except Exn String :=
  ((rt.state e).eval (fun o s => s.perform out self i o) s).1

/-- The state names an open attempt from a closed one, and `Recover` is taken after a crash. -/
def Distinguishes (out : Outside) (self : Nat → Nat) (rt : AgentRuntime) (e : Execution)
    (s : Scene) : Prop :=
  ∀ i, ∃ name, observed out self i rt e s = .ok name ∧ Tells e.branchId name s.events ∧
    ∀ agent controls rules j, (openers e.branchId s.events).getLast? = some j →
      j ∉ closers e.branchId s.events →
      Accepted (Dispatch.defaultRouter rt e agent controls rules) .recover name

theorem parkedOn_unparked (hunparked : Unparked rt e s.world) :
    ∃ s', (rt.parkedOn e).eval (fun o s => s.perform out self i o) s = (.ok none, s') ∧
      s'.world.transcript = s.world.transcript := by
  cases hstore : rt.executionStore with
  | true =>
    have hlive := hunparked ⟨e.conversationId⟩ (by simp [AgentRuntime.storeFor, hstore])
    refine ⟨(s.perform out self i (.ledger (.read
      (View.filed ⟨e.conversationId⟩ e.branchId) Effects.activeSuspension))).2, ?_, rfl⟩
    simp only [AgentRuntime.parkedOn, hstore, AgentRuntime.active, AgentRuntime.requireStore,
      AgentRuntime.storeFor, ↓reduceIte, Prog.bind_eq, Prog.pure_eq, Prog.ret_bind, View.read,
      Semora.perform, Prog.eval_bind, Prog.eval_op]
    exact congrArg (fun r => (Except.ok r, _)) hlive
  | false =>
    refine ⟨s, ?_, rfl⟩
    simp [AgentRuntime.parkedOn, hstore, Prog.eval]

theorem observed_unparked (hrt : rt.transcript = true) (hunparked : Unparked rt e s.world) :
    observed out self i rt e s = .ok (match s.world.transcript.readBranch e.branchId with
      | none => "fresh"
      | some fields => if fields.endedAt.isSome then "completed" else "interrupted") := by
  obtain ⟨s₁, heval, htranscript⟩ := @parkedOn_unparked out self i s rt e hunparked
  simp only [observed, AgentRuntime.state, Prog.bind_eq, Prog.eval_bind, heval, hrt, ↓reduceIte,
    Semora.perform, Prog.eval_op]
  rw [← htranscript]
  show (Prog.eval _ _ _).1 = _
  cases s₁.world.transcript.readBranch e.branchId <;> rfl

/-- The default table takes `Recover` in exactly the states of an attempt that has not ended. -/
theorem accepted_recover {agent : Agent} {controls : Option String} {rules name : String} :
    Accepted (Dispatch.defaultRouter rt e agent controls rules) .recover name ↔
      name ∈ ["waiting", "resuming", "interrupted"] := by
  simp only [Accepted, Dispatch.defaultRouter, List.mem_cons, List.not_mem_nil, or_false]
  constructor
  · rintro ⟨row, rfl | rfl | rfl | rfl | rfl, happlies, hstates⟩
    · cases happlies
    · have := hstates _ rfl
      simp only [List.mem_cons, List.not_mem_nil, or_false] at this
      tauto
    · have := hstates _ rfl
      simp only [List.mem_cons, List.not_mem_nil, or_false] at this
      tauto
    · cases happlies
    · cases happlies
  · rintro (rfl | rfl | rfl)
    · refine ⟨_, .inr (.inl rfl), rfl, ?_⟩
      simp [Dispatch.recoverInterrupted]
    · refine ⟨_, .inr (.inl rfl), rfl, ?_⟩
      simp [Dispatch.recoverInterrupted]
    · refine ⟨_, .inr (.inr (.inl rfl)), rfl, ?_⟩
      simp [Dispatch.replayJournal]

/-- In a state no row takes, `Recover` is an invalid transition. -/
theorem dispatch_refused {agent : Agent} {controls : Option String} {rules name : String}
    (hrt : rt.transcript = true) (hstore : rt.executionStore = true)
    (hobserved : observed out self i rt e s = .ok name)
    (hrefused : ¬ Accepted (Dispatch.defaultRouter rt e agent controls rules) .recover name) :
    ((rt.dispatch e agent .recover controls rules).eval (fun o s => s.perform out self i o) s).1 =
      .error (.other s!"Recover is invalid while the run is '{name}'") := by
  rw [accepted_recover] at hrefused
  simp only [List.mem_cons, List.not_mem_nil, or_false, not_or] at hrefused
  obtain ⟨hwaiting, hresuming, hinterrupted⟩ := hrefused
  have hcandidates : (Dispatch.defaultRouter rt e agent controls rules).filter
      (fun row => row.applies .recover) = [Dispatch.recoverInterrupted rt e agent controls rules,
        Dispatch.replayJournal rt e agent controls rules] := rfl
  obtain ⟨s₁, hstate⟩ : ∃ s₁, (rt.state e).eval (fun o s => s.perform out self i o) s =
      (.ok name, s₁) := ⟨_, Prod.ext hobserved rfl⟩
  have hoffer : Dispatch.offer rt e .recover (some name)
      [Dispatch.recoverInterrupted rt e agent controls rules,
        Dispatch.replayJournal rt e agent controls rules] none =
      .raise (.other s!"Recover is invalid while the run is '{name}'") := by
    simp [Dispatch.offer, Dispatch.recoverInterrupted, Dispatch.replayJournal, Dispatch.named,
      Dispatch.invalidTransition, hwaiting, hresuming, hinterrupted]
    rfl
  unfold AgentRuntime.dispatch Dispatch.route
  rw [if_pos ⟨hstore, hrt⟩, hcandidates]
  simp only [Dispatch.observe, List.any_cons, Dispatch.recoverInterrupted, Option.isSome_some,
    Bool.true_or, ↓reduceIte, Prog.bind_eq, Prog.eval_bind, hstate, Prog.pure_eq, Prog.eval]
  exact congrArg (fun p => (Prog.eval (fun o s => Scene.perform out self i o s) p s₁).1) hoffer

theorem tells_of_fresh {events : List Event} (h : openers b events = []) :
    Tells b "fresh" events := by
  constructor <;> simp [h]

theorem tells_of_open {events : List Event} {i : Nat} (h : (openers b events).getLast? = some i)
    (hopen : i ∉ closers b events) : Tells b "interrupted" events := by
  have hne : openers b events ≠ [] := by
    intro hnil
    simp [hnil] at h
  constructor <;> simp [h, hopen, hne]

theorem tells_of_closed {events : List Event} {i : Nat} (h : (openers b events).getLast? = some i) :
    Tells b "completed" events ↔ i ∈ closers b events := by
  have hne : openers b events ≠ [] := by
    intro hnil
    simp [hnil] at h
  constructor
  · intro htells
    simpa [h] using htells.completed
  · intro hclosed
    constructor <;> simp [h, hclosed, hne]

/-- What makes the report true: nobody has closed the record, or whoever opened it last has. -/
def LastClosed (b : String) (events : List Event) : Prop :=
  closers b events = [] ∨ ∃ i, (openers b events).getLast? = some i ∧ i ∈ closers b events

theorem distinguishes_iff (hrt : rt.transcript = true) (hunparked : Unparked rt e s.world)
    (hi : Inv e.branchId s) :
    Distinguishes out self rt e s ↔ LastClosed e.branchId s.events := by
  have hname : ∀ i, observed out self i rt e s = .ok _ :=
    fun i => observed_unparked hrt hunparked
  have hintro : ∀ {name}, (∀ i, observed out self i rt e s = .ok name) →
      Tells e.branchId name s.events → Distinguishes out self rt e s := by
    intro name hobserved htells i
    refine ⟨name, hobserved i, htells, ?_⟩
    intro agent controls rules j hj hopen
    have : name = "interrupted" := htells.interrupted.mpr ⟨j, hj, hopen⟩
    exact accepted_recover.mpr (by simp [this])
  cases hrecord : s.world.transcript.readBranch e.branchId with
  | none =>
    have hnone : openers e.branchId s.events = [] := hi.opened.mp hrecord
    have hunclosed : closers e.branchId s.events = [] := by
      refine List.eq_nil_iff_forall_not_mem.mpr ?_
      intro j hj
      have := hi.after j hj
      rw [hnone] at this
      cases this
    simp only [hrecord] at hname
    exact ⟨fun _ => .inl hunclosed, fun _ => hintro hname (tells_of_fresh hnone)⟩
  | some fields =>
    have hopened : openers e.branchId s.events ≠ [] := by
      intro h
      rw [hi.opened.mpr h] at hrecord
      cases hrecord
    obtain ⟨i, hlast⟩ := Option.isSome_iff_exists.mp (List.getLast?_isSome.mpr hopened)
    have hended := hi.ended fields hrecord
    cases hend : fields.endedAt with
    | none =>
      have hunclosed := hended.mp hend
      simp only [hrecord, hend, Option.isSome_none, Bool.false_eq_true, ↓reduceIte] at hname
      refine ⟨fun _ => .inl hunclosed, fun _ => hintro hname (tells_of_open hlast ?_)⟩
      simp [hunclosed]
    | some instant =>
      have hclosed : closers e.branchId s.events ≠ [] := by
        intro h
        rw [hended.mpr h] at hend
        cases hend
      simp only [hrecord, hend, Option.isSome_some, ↓reduceIte] at hname
      have hiff : LastClosed e.branchId s.events ↔ i ∈ closers e.branchId s.events := by
        simp [LastClosed, hclosed, hlast]
      rw [hiff]
      constructor
      · intro h
        obtain ⟨name, hobserved, htells, -⟩ := h 0
        rw [hname 0] at hobserved
        cases hobserved
        exact (tells_of_closed hlast).mp htells
      · intro h
        exact hintro hname ((tells_of_closed hlast).mpr h)

end

theorem compatible (out : Outside) (b : String) :
    Compatible (Elsewhere out b) (Inv b) (fun _ => Rely b) (fun (_ : Nat) => Rely b)
      (fun _ (_ : Except Exn Outcome) _ => True) where
  refl i s h := ⟨h, fun _ hj => hj⟩
  trans i s₁ s₂ s₃ h h' := rely_trans h h'
  stable := by simp
  keeps i s s' _ h := h.1
  other i j s s' _ _ h := h
  env s s' h move := by
    obtain ⟨o, a, attempts, spares⟩ := move
    have hinv : Inv b ⟨(step out o s.world a).2.1, attempts, s.events⟩ :=
      inv_spared h (readBranch_step out _ _ spares) rfl rfl
    exact ⟨hinv, fun i => ⟨hinv, fun _ hj => hj⟩⟩

/-- Attempts on one branch, any number of them in any interleaving, each stopping wherever it
does: in every scene they reach with nothing parked, the reported state tells the open attempt
from the closed one exactly if a closed record is the work of the last to open it. -/
theorem distinguishes_iff_last_closed (out : Outside) (self : Nat → Nat) (rt : AgentRuntime)
    (e : Execution) (tries : Nat → Try e.branchId) (attempts : Nat → Attempt) (world : World)
    (pool : Nat → Program Outcome) (s : Scene) (hrt : rt.transcript = true)
    (unopened : world.transcript.readBranch e.branchId = none)
    (run : Interleaved (exec out self) (Elsewhere out e.branchId) (fun i => (tries i).program rt)
      ⟨world, attempts, []⟩ pool s) (unparked : Unparked rt e s.world) :
    Distinguishes out self rt e s ↔ LastClosed e.branchId s.events := by
  have hstart : Inv e.branchId (⟨world, attempts, []⟩ : Scene) := by
    refine ⟨by simp [unopened, openers], ?_, by simp [closers]⟩
    intro fields hf
    rw [unopened] at hf
    cases hf
  have hsafe := interleaved_safe (compatible out e.branchId) hstart
    (fun i => safe_attemptRun hrt (tries i).here (tries i).gathers _ _ _ hstart) run
  exact distinguishes_iff hrt unparked hsafe.1

/-- The claim that the report tells open from closed whatever became of the attempts. -/
def AlwaysDistinguishes : Prop :=
  ∀ (out : Outside) (self : Nat → Nat) (rt : AgentRuntime) (e : Execution)
    (tries : Nat → Try e.branchId) (attempts : Nat → Attempt) (world : World)
    (pool : Nat → Program Outcome) (s : Scene), rt.transcript = true →
    world.transcript.readBranch e.branchId = none →
    Interleaved (exec out self) (Elsewhere out e.branchId) (fun i => (tries i).program rt)
      ⟨world, attempts, []⟩ pool s →
    Unparked rt e s.world → Distinguishes out self rt e s

/-- A provider that answers at once. -/
def prompted : Outside :=
  .answering (fun _ _ _ => .ok .null) (fun _ _ => .ok { parts := [.text "done"] })
    (fun _ _ _ => .error (.other "not asked"))

theorem oneBranch_gathers : Gathers (PydanticAI.standard (fun _ => "") [] 8) :=
  gathers_standard _ _ _

def oneBranch (_ : Nat) : Try "run" where
  execution := { branchId := "run" }
  token := 1
  agent := { PydanticAI.standard (fun _ => "") [] 8 with }
  prompt := some "hi"
  options := {}
  here := rfl
  gathers := oneBranch_gathers

/-- The first prompt is answered and its attempt closed; the second attempt dies as soon as it
has opened the record. -/
def crashedAfterDone : (Nat → Program Outcome) × Scene :=
  scheduled (Scene.perform prompted id) (List.replicate 51 0 ++ List.replicate 5 1)
    (fun i => (oneBranch i).program {}) ⟨{}, fun _ => {}, []⟩

theorem crashedAfterDone_run :
    Interleaved (exec prompted id) (Elsewhere prompted "run") (fun i => (oneBranch i).program {})
      ⟨{}, fun _ => {}, []⟩ crashedAfterDone.1 crashedAfterDone.2 :=
  interleaved_scheduled (Scene.perform prompted id) _ _ _ _

theorem crashedAfterDone_unparked :
    Unparked {} { branchId := "run" } crashedAfterDone.2.world := by
  intro store hstore
  cases hstore
  rfl

theorem crashedAfterDone_openers : openers "run" crashedAfterDone.2.events = [0, 1] := by
  decide +kernel

theorem crashedAfterDone_closers : closers "run" crashedAfterDone.2.events = [0] := by
  decide +kernel

/-- The interrupted second prompt is reported as completed. -/
theorem crashedAfterDone_observed :
    observed prompted id 1 {} { branchId := "run" } crashedAfterDone.2 = .ok "completed" := by
  decide +kernel

theorem not_always_distinguishes : ¬ AlwaysDistinguishes := by
  intro h
  obtain ⟨name, hobserved, htells, -⟩ :=
    h _ _ _ _ _ _ _ _ _ rfl rfl crashedAfterDone_run crashedAfterDone_unparked 1
  rw [crashedAfterDone_observed] at hobserved
  cases hobserved
  have := htells.completed.mp rfl
  simp [crashedAfterDone_openers, crashedAfterDone_closers] at this

theorem distinguishes_iff_last_closed_crashed :
    Distinguishes prompted id {} { branchId := "run" } crashedAfterDone.2 ↔
      LastClosed "run" crashedAfterDone.2.events :=
  distinguishes_iff_last_closed prompted id {} { branchId := "run" } oneBranch (fun _ => {}) {} _ _
    rfl rfl crashedAfterDone_run crashedAfterDone_unparked

end Semora.Proofs.RunRecord
