import Semora.Lib.Phases
import Semora.Proofs.Operations
import Semora.Scene
import Semora.Store.Queue

/-! Through how many channels one dispatched prompt is delivered. -/

namespace Semora.Proofs.OneChannel
open Semora.Lib Semora.Store Semora.Transcript

/-! A run of the agent queues nothing. -/

/-- An operation that queues no input, and ends no run of the agent. -/
def Unqueued : Op → Prop
  | .ledger (.enqueueInput ..) => False
  | .ledger (.commitTransition _ tr _) => tr.inputs = []
  | .modify f => ∀ a, a.running = true → (f a).running = true
  | _ => True

section
variable {eff : Effects}

theorem unqueued_serves : Serves eff Unqueued where
  get := trivial
  ask _ _ := trivial
  set f h a ha := by
    have hcore := congrArg (fun c => c.2.1) (h a).1
    exact hcore.trans ha
  handle _ _ := trivial
  provide _ := trivial
  read _ _ _ := trivial
  start _ _ _ := trivial
  finishEffect _ _ _ _ := trivial
  forget _ _ _ := trivial
  writeControl _ _ _ _ := trivial

theorem unqueued_op {o : Op} (h : Unqueued o) : (perform o).AllOps Unqueued :=
  (Prog.allOps_op o).mpr h

theorem unqueued_update {f : Attempt → Attempt} (h : ∀ a, (f a).running = a.running) :
    (update f).AllOps Unqueued :=
  unqueued_op (fun a ha => (h a).trans ha)

theorem unqueued_claim (v : View) (b : String) (token : Nat) (represented : List String) :
    (InputSession.claim v b token represented).AllOps Unqueued := by
  have hrows : ∀ rows, (InputSession.claimRows v b token represented rows).AllOps Unqueued := by
    intro rows
    induction rows with
    | nil => trivial
    | cons row rows ih =>
      refine Prog.allOps_bind (unqueued_op trivial) (fun a => ?_)
      split
      · exact ih
      · refine Prog.allOps_bind (unqueued_op trivial) (fun _ => ?_)
        refine Prog.allOps_bind (unqueued_update (fun _ => rfl)) (fun _ => ?_)
        apply Prog.allOps_bind
        · cases row.value <;> trivial
        · intro item
          exact Prog.allOps_bind ih (fun _ => trivial)
  exact Prog.allOps_bind (unqueued_op trivial) (fun rows => hrows rows)

theorem unqueued_append (conversation : String) (messages : List ModelMessage) :
    (Branch.append conversation messages).AllOps Unqueued := by
  have hleaf : ∀ uuid, (appendLeaf conversation uuid).AllOps Unqueued := fun uuid =>
    Prog.allOps_bind (unqueued_op trivial)
      (fun _ => Prog.allOps_bind (unqueued_op trivial) (fun _ => trivial))
  have hrecord : ∀ message, (record conversation message).AllOps Unqueued := by
    intro message
    refine Prog.allOps_bind (unqueued_op trivial) (fun a => ?_)
    refine Prog.allOps_bind (unqueued_op trivial) (fun instant => ?_)
    refine Prog.allOps_bind (unqueued_op trivial) (fun appended => ?_)
    refine Prog.allOps_bind (unqueued_update (fun _ => rfl)) (fun _ => ?_)
    apply Prog.allOps_bind
    · unfold relink
      split
      · trivial
      · exact hleaf _
    · exact fun _ => trivial
  induction messages with
  | nil => trivial
  | cons message messages ih =>
    exact Prog.allOps_bind (hrecord message)
      (fun _ => Prog.allOps_bind (unqueued_update (fun _ => rfl)) (fun _ => ih))

theorem unqueued_replace (conversation : String) (desired : List ModelMessage) :
    (Branch.replace conversation desired).AllOps Unqueued := by
  refine Prog.allOps_bind (unqueued_op trivial) (fun a => ?_)
  apply Prog.allOps_bind
  · unfold Branch.cut
    split
    · apply Prog.allOps_bind
      · apply Prog.allOps_bind
        · exact Prog.allOps_bind (unqueued_op trivial)
            (fun _ => Prog.allOps_bind (unqueued_op trivial) (fun _ => trivial))
        · exact fun _ => unqueued_update (fun _ => rfl)
      · exact fun _ => unqueued_update (fun _ => rfl)
    · trivial
  · exact fun _ => unqueued_append _ _

theorem unqueued_recordMessage (message : ModelMessage) :
    (eff.recordMessage message).AllOps Unqueued := by
  unfold Effects.recordMessage
  split
  · trivial
  · exact unqueued_append _ _

theorem unqueued_admit {request : ModelRequest} {handler : Node → Program NodeResult}
    (hhandler : ∀ node, (handler node).AllOps Unqueued) :
    (eff.admit_ request handler).AllOps Unqueued := by
  have hdrain : eff.drain.AllOps Unqueued := by
    refine Prog.allOps_bind (unqueued_op trivial) (fun a => ?_)
    refine Prog.allOps_bind (unqueued_update (fun _ => rfl)) (fun _ => ?_)
    split
    · trivial
    · exact Prog.allOps_bind (unqueued_claim _ _ _ _) (fun _ => trivial)
  have hscreen : ∀ plane here pending inputs,
      (eff.screen plane here pending inputs).AllOps Unqueued := by
    intro plane here pending inputs
    unfold Effects.screen
    split
    · trivial
    · refine Prog.allOps_bind (unqueued_op trivial) (fun answer => ?_)
      split
      · apply Prog.allOps_bind
        · unfold InputSession.discard
          split
          · trivial
          · exact unqueued_op trivial
        · exact fun _ => trivial
      · trivial
  have hsteered : ∀ pending, (eff.steered request pending).AllOps Unqueued := by
    intro pending
    unfold Effects.steered
    split
    · trivial
    · apply Prog.allOps_bind
      · exact Prog.allOps_bind (unqueued_op trivial) (fun _ => allOps_ctx trivial _)
      · intro here
        refine Prog.allOps_bind (hscreen _ _ _ _) (fun screened => ?_)
        cases screened with
        | halt reason => trivial
        | inputs items =>
          refine Prog.allOps_bind (unqueued_op trivial) (fun decision => ?_)
          cases decision <;> trivial
  apply Prog.allOps_bind hdrain
  intro pending
  refine Prog.allOps_bind (hsteered pending) (fun decision => ?_)
  cases decision with
  | error reason =>
    exact Prog.allOps_bind (unqueued_update (fun _ => rfl))
      (fun _ => Prog.allOps_bind (unqueued_op trivial) (fun _ => trivial))
  | ok decided =>
    refine Prog.allOps_bind (unqueued_update (fun _ => rfl)) (fun _ => ?_)
    refine Prog.allOps_bind (unqueued_recordMessage _) (fun _ => ?_)
    apply Prog.allOps_bind
    · unfold Effects.admitInputs InputSession.admit_
      split
      · trivial
      · split
        · trivial
        · exact unqueued_op trivial
    · exact fun _ => hhandler _

theorem unqueued_decideFinish (result : NodeResult) :
    (eff.decideFinish result).AllOps Unqueued := by
  have hlate : eff.lateInputs.AllOps Unqueued := by
    refine Prog.allOps_bind (unqueued_op trivial) (fun a => ?_)
    split
    · trivial
    · exact unqueued_claim _ _ _ _
  cases result with
  | node next => trivial
  | finish output =>
    simp only [Effects.decideFinish]
    split
    · trivial
    · apply Prog.allOps_bind hlate
      intro late
      split
      · exact Prog.allOps_bind (unqueued_update (fun _ => rfl)) (fun _ => trivial)
      · split
        · exact Prog.allOps_bind (unqueued_update (fun _ => rfl)) (fun _ => trivial)
        · refine Prog.allOps_bind (allOps_ctx trivial _) (fun here => ?_)
          refine Prog.allOps_bind (unqueued_op trivial) (fun decision => ?_)
          cases decision with
          | proceed steers => trivial
          | halt reason =>
            exact Prog.allOps_bind (unqueued_update (fun _ => rfl)) (fun _ => trivial)

theorem unqueued_wrapNodeRun (node : Node) {handler : Node → Program NodeResult}
    (hhandler : ∀ node, (handler node).AllOps Unqueued) :
    (eff.wrapNodeRun node handler).AllOps Unqueued := by
  refine Prog.allOps_bind (unqueued_update (fun _ => rfl)) (fun _ => ?_)
  split
  · exact unqueued_admit hhandler
  · refine Prog.allOps_bind (unqueued_update (fun _ => rfl)) (fun _ => ?_)
    refine Prog.allOps_bind (serves_recordPending unqueued_serves _) (fun _ => ?_)
    refine Prog.allOps_bind (hhandler _) (fun result => ?_)
    apply Prog.allOps_bind
    · unfold Effects.recordTurn
      split
      · trivial
      · exact unqueued_recordMessage _
    · exact fun _ => unqueued_decideFinish _
  · exact hhandler _

variable {ai : PydanticAI}

theorem unqueued_runNode (gathers : Gathers ai) (prompt : Option Json)
    (results : DeferredToolResults) (node : Node) :
    (ai.runNode eff prompt results node).AllOps Unqueued := by
  have htools : ai.prepareTools.AllOps Unqueued := unqueued_update (fun _ => rfl)
  cases node with
  | userPrompt =>
    refine Prog.allOps_bind (unqueued_op trivial) (fun a => ?_)
    split
    · trivial
    · exact Prog.allOps_bind (unqueued_update (fun _ => rfl))
        (fun _ => Prog.allOps_bind htools (fun _ => trivial))
  | modelRequest request =>
    refine Prog.allOps_bind (unqueued_update (fun _ => rfl)) (fun _ => ?_)
    apply Prog.allOps_bind htools
    intro _
    refine Prog.allOps_bind (unqueued_op trivial) (fun a => ?_)
    refine Prog.allOps_bind (serves_wrapModelRequest unqueued_serves _ _) (fun response => ?_)
    exact Prog.allOps_bind (unqueued_update (fun _ => rfl)) (fun _ => trivial)
  | callTools response results =>
    refine Prog.allOps_bind (unqueued_op trivial) (fun a => ?_)
    apply Prog.allOps_bind
    · apply gathers
      intro call hcall
      obtain ⟨item, -, rfl⟩ := List.mem_map.mp hcall
      exact serves_executeCall unqueued_serves ai item.1 item.2
    · intro outcomes
      split
      · trivial
      · trivial
      · exact Prog.allOps_bind (unqueued_update (fun _ => rfl)) (fun _ => trivial)

theorem unqueued_run (gathers : Gathers ai) (prompt : Option Json) (history : List ModelMessage)
    (results : DeferredToolResults) : (ai.run eff prompt history results).AllOps Unqueued := by
  have hiterate : ∀ fuel node, (ai.iterate eff prompt results fuel node).AllOps Unqueued := by
    intro fuel
    induction fuel with
    | zero => exact fun _ => trivial
    | succ fuel ih =>
      intro node
      refine Prog.allOps_bind (unqueued_wrapNodeRun node ?_) (fun result => ?_)
      · exact unqueued_runNode gathers prompt results
      · cases result with
        | finish output => trivial
        | node next =>
          apply Prog.allOps_bind
          · apply unqueued_update
            intro a
            cases next with
            | modelRequest request =>
              show (if a.request.isSome then a else _ : Attempt).running = a.running
              split <;> rfl
            | userPrompt | callTools => rfl
          · exact fun _ => ih next
  refine Prog.allOps_bind (unqueued_op (fun _ _ => rfl)) (fun _ => ?_)
  refine Prog.allOps_bind (hiterate _ _) (fun output => ?_)
  exact Prog.allOps_bind (unqueued_update (fun _ => rfl)) (fun _ => trivial)

/-- What an attempt does behind the run of its agent. -/
theorem unqueued_after (rt : AgentRuntime) (e : Execution) (eff : Effects) (token : Nat)
    (output : Output) :
    ((rt.replaceFinal e).bind (fun _ => match output with
      | .deferred requests => rt.park e e.conversation eff requests token
      | output => rt.close e output)).AllOps Unqueued := by
  apply Prog.allOps_bind
  · unfold AgentRuntime.replaceFinal
    split
    · exact Prog.allOps_bind (unqueued_op trivial) (fun _ => unqueued_replace _ _)
    · trivial
  · intro _
    have hclose : ∀ output, (rt.close e output).AllOps Unqueued := by
      intro output
      refine Prog.allOps_bind (unqueued_op trivial) (fun a => ?_)
      refine Prog.allOps_bind ?_ (fun _ => trivial)
      unfold AgentRuntime.closeRecord
      split
      · refine Prog.allOps_bind (unqueued_op trivial) (fun _ => ?_)
        refine Prog.allOps_bind (unqueued_op trivial) (fun _ => ?_)
        induction AgentRuntime.usageOf a with
        | nil => trivial
        | cons item usage ih => exact Prog.allOps_bind (unqueued_op trivial) (fun _ => ih)
      · trivial
    cases output with
    | deferred requests => exact allOps_park trivial (fun _ _ => trivial) (fun _ _ _ => rfl)
    | text | value => exact hclose _

end

/-! What a dispatch leaves in the queue, read off what it did. -/

/-- The record an operation put into the queue. -/
def inserted : Event → Option String
  | ⟨_, .ledger (.enqueueInput _ id _), .ok true⟩ => some id
  | _ => none

/-- The records an operation took out of it again. -/
def settled : Event → List String
  | ⟨_, .ledger (.admitInputs _ ids _), .ok _⟩ => ids
  | ⟨_, .ledger (.discardInputs _ ids _), .ok _⟩ => ids
  | _ => []

/-- The record an operation wanted to put in and found there. -/
def found : Event → Option String
  | ⟨_, .ledger (.enqueueInput _ id _), .ok false⟩ => some id
  | _ => none

def added (events : List Event) : List String := events.filterMap inserted

/-- The records put in that may still be claimed. -/
def copies (events : List Event) : List String :=
  events.foldl (fun ids e => ids.filter (fun id => id ∉ settled e) ++ (inserted e).toList) []

/-- The prompt was recorded under its id before. -/
def Recorded (promptId : Option String) (events : List Event) : Prop :=
  ∃ id, promptId = some id ∧ id ∈ events.filterMap found

/-- The prompt comes under an id that is used as it is. -/
def Named (promptId : Option String) : Prop := ∃ id, promptId = some id ∧ id ≠ ""

/-- The first look at the branch found a continuation with every answer recorded. -/
def Answered : List Event → Prop
  | ⟨_, .ledger (.read ..), .ok (.done (.suspension active))⟩ :: _ =>
    AgentRuntime.undecided active = []
  | _ => False

section
variable (out : Outside) (self : Nat → Nat) (i : Nat)

/-- No record bears an identifier that is still to be handed out. -/
def Fresh (w : World) : Prop :=
  ∀ n, w.instant ≤ n → ∀ b, w.store.inputs.get? (b, out.uuid4 n) = none

def handed : Event → Option String
  | ⟨_, .uuid4, .ok id⟩ => some id
  | _ => none

/-- Everything else that happens meanwhile: anything but to the dispatch's own memory. Records stay
in the queue, and nobody else uses an identifier that was handed out to the dispatch. -/
structure Rely (s s' : Scene) : Prop where
  mine : log i s'.events = log i s.events
  memory : s'.attempts (self i) = s.attempts (self i)
  later : s.world.instant ≤ s'.world.instant
  fresh : Fresh out s.world → Fresh out s'.world
  rows : ∀ key, (s.world.store.inputs.get? key).isSome → (s'.world.store.inputs.get? key).isSome
  own : ∀ id ∈ (log i s.events).filterMap handed, ∀ b,
    s.world.store.inputs.get? (b, id) = none → s'.world.store.inputs.get? (b, id) = none

abbrev Ran {α : Type} (p : Program α) (s : Scene) (q : Program α) (t : Scene) : Prop :=
  Prog.Runs (exec out self i) (Rely out self i) p s q t

variable (rt : AgentRuntime) (e : Execution) (agent : Agent) (text : String)
variable (promptId : Option String) (controls : Option String) (rulesVersion : String)

def options : Options := { controls, rulesVersion, promptId }

/-- What an attempt does from the run of its agent on. -/
def onward (token : Nat) (prompt : Option String) (history : List ModelMessage) :
    Program Outcome :=
  let eff := rt.effectsOf e token agent (options promptId controls rulesVersion)
  (agent.run eff (prompt.map Json.str) history []).bind (fun output =>
    (rt.replaceFinal e).bind (fun _ => match output with
      | .deferred requests => rt.park e e.conversation eff requests token
      | output => rt.close e output))

/-- An attempt under its lease that is about to run the agent, with what it is going to give it. -/
def underway (owner : String) (token : Nat) (prompt : Option String)
    (history : List ModelMessage) : Program Outcome :=
  (onward rt e agent promptId controls rulesVersion token prompt history).finally_
    (perform (.ledger (.release (View.filed ⟨e.conversationId⟩ e.branchId) owner)))

/-- What the router does with a prompt whose run found the branch contended. -/
def handOff : Exn → Program Applied
  | .store (.contended b) => Dispatch.offer rt e (.prompt text promptId) none
      [Dispatch.queueSteer rt e] (some (.store (.contended b)))
  | error => .raise error

/-- The router around the run it tries first. -/
def routed (p : Program Outcome) : Program Applied :=
  (p.bind (fun outcome => .ret (.outcome outcome))).tryCatch (handOff rt e text promptId)

theorem routed_surrounds : Prog.Surrounds (routed rt e text promptId) := fun _ _ => rfl

theorem dispatch_routed (hstore : rt.executionStore = true) (htranscript : rt.transcript = true) :
    rt.dispatch e agent (.prompt text promptId) controls rulesVersion =
      routed rt e text promptId
        (rt.run e agent (some text) (options promptId controls rulesVersion)) := by
  unfold AgentRuntime.dispatch
  rw [if_pos ⟨hstore, htranscript⟩]
  rfl

end

section
variable {out : Outside} {self : Nat → Nat} {i : Nat} {s s' t u : Scene}

theorem rely_refl (s : Scene) : Rely out self i s s :=
  ⟨rfl, rfl, Nat.le_refl _, fun h => h, fun _ h => h, fun _ _ _ h => h⟩

theorem rely_trans (s₁ s₂ s₃ : Scene) (h : Rely out self i s₁ s₂) (h' : Rely out self i s₂ s₃) :
    Rely out self i s₁ s₃ := by
  obtain ⟨hmine, hmemory, hlater, hfresh, hrows, hown⟩ := h
  obtain ⟨hmine', hmemory', hlater', hfresh', hrows', hown'⟩ := h'
  refine ⟨hmine'.trans hmine, hmemory'.trans hmemory, hlater.trans hlater',
    fun hf => hfresh' (hfresh hf),
    fun key hk => hrows' key (hrows key hk), ?_⟩
  intro id hid b hnone
  exact hown' id (hmine ▸ hid) b (hown id hid b hnone)

/-- What a stretch of the dispatch leaves: fresh identifiers, and every row. -/
def Keeps (out : Outside) (s s' : Scene) : Prop :=
  (Fresh out s.world → Fresh out s'.world) ∧
    ∀ key, (s.world.store.inputs.get? key).isSome → (s'.world.store.inputs.get? key).isSome

theorem Keeps.trans (h : Keeps out s t) (h' : Keeps out t u) : Keeps out s u :=
  ⟨fun hf => h'.1 (h.1 hf), fun key hk => h'.2 key (h.2 key hk)⟩

theorem keeps_rely (h : Rely out self i s s') : Keeps out s s' := by
  obtain ⟨-, -, -, hfresh, hrows, -⟩ := h
  exact ⟨hfresh, hrows⟩

theorem unqueued_rows {o : Op} (h : Unqueued o) (w : World) (a : Attempt) :
    MemorySteps.SameRows w.store (step out o w a).2.1.store := by
  cases o with
  | ledger c =>
    apply MemorySteps.exec_sameRows c
    · rintro b x value rfl
      exact h
    · rintro b tr token rfl
      exact h
  | _ => exact fun _ => rfl

theorem keeps_exec {o : Op} {r : Except Exn o.Res}
    (h : ∀ w a, MemorySteps.SameRows w.store (step out o w a).2.1.store)
    (he : exec out self i o s r s') : Keeps out s s' := by
  have hworld := (exec_events he).2.1
  have hrows := h s.world (s.attempts (self i))
  rw [← hworld] at hrows
  refine ⟨?_, fun key hk => (hrows key).trans hk⟩
  intro hfresh n hn b
  rw [hworld, step_instant] at hn
  have hnone : s.world.store.inputs.get? (b, out.uuid4 n) = none :=
    hfresh n (Nat.le_of_succ_le hn) b
  have hsome := hrows (b, out.uuid4 n)
  rw [hnone] at hsome
  exact Option.not_isSome_iff_eq_none.mp (by rw [hsome]; exact Bool.false_ne_true)

/-! What the dispatch has done to the queue so far, and whether its agent runs. -/

/-- An operation that is not about the queue. -/
def Quiet (e : Event) : Prop := inserted e = none ∧ settled e = [] ∧ found e = none

structure Knows (holder : Nat → Nat) (i : Nat) (new known live : List String) (running : Bool)
    (s : Scene) : Prop where
  added : added (log i s.events) = new
  found : (log i s.events).filterMap found = known
  copies : copies (log i s.events) = live
  running : (s.attempts (holder i)).running = running

variable {new known live : List String} {running : Bool}

theorem copies_append (events : List Event) (e : Event) :
    copies (events ++ [e]) =
      (copies events).filter (fun id => id ∉ settled e) ++ (inserted e).toList := by
  simp [copies]

theorem knows_rely (h : Knows self i new known live running s) (hr : Rely out self i s s') :
    Knows self i new known live running s' := by
  obtain ⟨hadded, hfound, hcopies, hrunning⟩ := h
  obtain ⟨hmine, hmemory, -, -, -, -⟩ := hr
  rw [← hmine] at hadded hfound hcopies
  exact ⟨hadded, hfound, hcopies, (congrArg Attempt.running hmemory).trans hrunning⟩

theorem knows_exec {o : Op} {r : Except Exn o.Res} (h : Knows self i new known live running s)
    (hlive : ∀ w a, a.running = running → (step out o w a).2.2.running = running)
    (he : exec out self i o s r s') :
    Knows self i (new ++ (inserted ⟨i, o, r⟩).toList) (known ++ (OneChannel.found ⟨i, o, r⟩).toList)
      (live.filter (fun id => id ∉ settled ⟨i, o, r⟩) ++ (inserted ⟨i, o, r⟩).toList)
      running s' := by
  obtain ⟨hadded, hfound, hcopies, hrunning⟩ := h
  have hlog := log_mine (exec_events he).1
  refine ⟨?_, ?_, ?_, ?_⟩
  · rw [hlog, OneChannel.added, List.filterMap_append, ← OneChannel.added, hadded]
    cases hi : inserted ⟨i, o, r⟩ <;> simp [hi]
  · rw [hlog, List.filterMap_append, hfound]
    cases hi : OneChannel.found ⟨i, o, r⟩ <;> simp [hi]
  · rw [hlog, copies_append, hcopies]
  · rw [exec_attempts he, Function.update_self]
    exact hlive _ _ hrunning

theorem knows_quiet {o : Op} {r : Except Exn o.Res} (h : Knows self i new known live running s)
    (hquiet : Quiet ⟨i, o, r⟩)
    (hlive : ∀ w a, a.running = running → (step out o w a).2.2.running = running)
    (he : exec out self i o s r s') : Knows self i new known live running s' := by
  have hk := knows_exec h hlive he
  obtain ⟨hinserted, hsettled, hfound⟩ := hquiet
  simpa [hinserted, hsettled, hfound] using hk

/-- The run of an agent leaves nothing to claim. -/
theorem knows_unqueued {o : Op} {r : Except Exn o.Res} (h : Knows self i new known [] true s)
    (ho : Unqueued o) (he : exec out self i o s r s') : Knows self i new known [] true s' := by
  obtain ⟨hadded, hfound, hcopies, hrunning⟩ := h
  have hlog := log_mine (exec_events he).1
  have hinserted : inserted ⟨i, o, r⟩ = none := by
    cases o with
    | ledger c =>
      cases c with
      | enqueueInput => exact False.elim ho
      | _ => rfl
    | _ => rfl
  have hfound' : OneChannel.found ⟨i, o, r⟩ = none := by
    cases o with
    | ledger c =>
      cases c with
      | enqueueInput => exact False.elim ho
      | _ => rfl
    | _ => rfl
  refine ⟨?_, ?_, ?_, ?_⟩
  · rw [hlog, OneChannel.added, List.filterMap_append, ← OneChannel.added, hadded]
    simp [hinserted]
  · rw [hlog, List.filterMap_append, hfound]
    simp [hfound']
  · rw [hlog, copies_append, hcopies, hinserted]
    rfl
  · rw [exec_attempts he, Function.update_self]
    cases o with
    | modify f => exact ho _ hrunning
    | _ => exact hrunning

/-- The next operation of the dispatch, and what follows it. -/
theorem next_op {α : Type} {o : Op} {f : o.Res → Program α} {r : Except Exn α}
    (h : Ran out self i ((perform o).bind f) s (.ofExcept r) u) :
    ∃ s₁ r₁ s₂ t, Rely out self i s s₁ ∧ exec out self i o s₁ r₁ s₂ ∧ Rely out self i s₂ t ∧
      ((∃ a, r₁ = .ok a ∧ Ran out self i ((perform o).bind f) s (f a) t ∧
          Ran out self i (f a) t (.ofExcept r) u) ∨
        ∃ error, r₁ = .error error ∧ r = .error error ∧ Rely out self i t u) := by
  rcases Prog.runs_next rely_refl rely_trans h with
    ⟨a, t, hop, hto, hrest⟩ | ⟨error, t, hop, hr, hm⟩
  · have hop' : Ran out self i (.op o) s (.ofExcept (.ok a)) t := hop
    obtain ⟨s₁, s₂, hr₁, he, hr₂⟩ := Prog.runs_op rely_refl rely_trans hop'
    exact ⟨s₁, .ok a, s₂, t, hr₁, he, hr₂, .inl ⟨a, rfl, hto, hrest⟩⟩
  · have hop' : Ran out self i (.op o) s (.ofExcept (.error error)) t := hop
    obtain ⟨s₁, s₂, hr₁, he, hr₂⟩ := Prog.runs_op rely_refl rely_trans hop'
    exact ⟨s₁, .error error, s₂, t, hr₁, he, hr₂, .inr ⟨error, rfl, hr, hm⟩⟩

/-- An operation that replies at all, leaves the queue as it is and starts no agent. -/
structure Plain (out : Outside) (running : Bool) (o : Op) : Prop where
  rows : ∀ w a, MemorySteps.SameRows w.store (step out o w a).2.1.store
  quiet : ∀ i r, Quiet ⟨i, o, r⟩
  running : ∀ w a, a.running = running → (step out o w a).2.2.running = running
  replies : ∀ w a, ∃ x, (step out o w a).1 = .ok x

theorem next_plain {α : Type} {o : Op} {f : o.Res → Program α} {r : Except Exn α}
    (ho : Plain out running o) (hk : Knows self i new known live running s)
    (h : Ran out self i ((perform o).bind f) s (.ofExcept r) u) :
    ∃ a t, Knows self i new known live running t ∧ Keeps out s t ∧
      log i t.events = log i s.events ++ [⟨i, o, .ok a⟩] ∧
      Ran out self i ((perform o).bind f) s (f a) t ∧ Ran out self i (f a) t (.ofExcept r) u := by
  obtain ⟨s₁, r₁, s₂, t, hr₁, he, hr₂, hnext⟩ := next_op h
  have hk' := knows_rely (knows_quiet (knows_rely hk hr₁) (ho.quiet i r₁) ho.running he) hr₂
  have hkeeps := ((keeps_rely hr₁).trans (keeps_exec ho.rows he)).trans (keeps_rely hr₂)
  rcases hnext with ⟨a, rfl, hto, hrest⟩ | ⟨error, rfl, -, -⟩
  · refine ⟨a, t, hk', hkeeps, ?_, hto, hrest⟩
    obtain ⟨hmine₁, -, -, -, -, -⟩ := hr₁
    obtain ⟨hmine₂, -, -, -, -, -⟩ := hr₂
    rw [hmine₂, log_mine (exec_events he).1, hmine₁]
  · obtain ⟨x, hx⟩ := ho.replies s₁.world (s₁.attempts (self i))
    have hreply := (exec_events he).2.2
    rw [hx] at hreply
    cases hreply

theorem ran_plainly {α : Type} {p : Program α} {r : Except Exn α}
    (hp : p.Completes (Plain out running) (fun _ => True))
    (hk : Knows self i new known live running s) (h : Ran out self i p s (.ofExcept r) t) :
    (∃ a, r = .ok a) ∧ Knows self i new known live running t ∧ Keeps out s t := by
  have hdone := Prog.runs_completes (I := fun x => Knows self i new known live running x ∧
    Keeps out s x) rely_refl rely_trans ?_ ?_ hp h ⟨hk, fun hf => hf, fun _ hrow => hrow⟩
  · obtain ⟨⟨a, hr, -⟩, hkept⟩ := hdone
    exact ⟨⟨a, hr⟩, hkept⟩
  · intro x y hr hx
    exact ⟨knows_rely hx.1 hr, hx.2.trans (keeps_rely hr)⟩
  · intro o ho x reply y hx he
    obtain ⟨a, ha⟩ := ho.replies x.world (x.attempts (self i))
    exact ⟨⟨a, (exec_events he).2.2.trans ha⟩, knows_quiet hx.1 (ho.quiet i reply) ho.running he,
      hx.2.trans (keeps_exec ho.rows he)⟩

theorem plain_modify {f : Attempt → Attempt}
    (hf : ∀ a, a.running = running → (f a).running = running) : Plain out running (.modify f) :=
  ⟨fun _ _ _ => rfl, fun _ _ => ⟨rfl, rfl, rfl⟩, fun _ => hf, fun _ _ => ⟨(), rfl⟩⟩

theorem plain_uuid4 : Plain out running .uuid4 :=
  ⟨fun _ _ _ => rfl, fun _ _ => ⟨rfl, rfl, rfl⟩, fun _ _ h => h,
    fun w _ => ⟨out.uuid4 w.instant, rfl⟩⟩

theorem plain_now : Plain out running .now :=
  ⟨fun _ _ _ => rfl, fun _ _ => ⟨rfl, rfl, rfl⟩, fun _ _ h => h, fun w _ => ⟨w.instant, rfl⟩⟩

theorem plain_get : Plain out running .get :=
  ⟨fun _ _ _ => rfl, fun _ _ => ⟨rfl, rfl, rfl⟩, fun _ _ h => h, fun _ a => ⟨a, rfl⟩⟩

theorem plain_readEntries (c : String) : Plain out running (.readEntries c) :=
  ⟨fun _ _ _ => rfl, fun _ _ => ⟨rfl, rfl, rfl⟩, fun _ _ h => h, fun _ _ => ⟨_, rfl⟩⟩

theorem plain_recordBranch (b : String) (fields : BranchFields) :
    Plain out running (.recordBranch b fields) :=
  ⟨fun _ _ _ => rfl, fun _ _ => ⟨rfl, rfl, rfl⟩, fun _ _ h => h, fun _ _ => ⟨_, rfl⟩⟩

theorem plain_read (b k : String) : Plain out running (.ledger (.read b k)) :=
  ⟨fun _ _ _ => rfl, fun _ _ => ⟨rfl, rfl, rfl⟩, fun _ _ h => h, fun _ _ => ⟨_, rfl⟩⟩

theorem plain_acquire (b owner : String) (ttl : ℚ) :
    Plain out running (.ledger (.acquire b owner ttl)) :=
  ⟨unqueued_rows (o := .ledger (.acquire b owner ttl)) trivial, fun _ _ => ⟨rfl, rfl, rfl⟩,
    fun _ _ h => h, fun _ _ => ⟨_, rfl⟩⟩

theorem plain_release (b owner : String) : Plain out running (.ledger (.release b owner)) :=
  ⟨unqueued_rows (o := .ledger (.release b owner)) trivial, fun _ _ => ⟨rfl, rfl, rfl⟩,
    fun _ _ h => h, fun _ _ => ⟨_, rfl⟩⟩

/-- A new identifier, under which nothing is in the queue. -/
theorem next_uuid {α : Type} {f : String → Program α} {r : Except Exn α}
    (hk : Knows self i new known live running s) (hfresh : Fresh out s.world)
    (h : Ran out self i ((perform .uuid4).bind f) s (.ofExcept r) u) :
    ∃ id t, Knows self i new known live running t ∧ Fresh out t.world ∧
      id ∈ (log i t.events).filterMap handed ∧ (∀ b, t.world.store.inputs.get? (b, id) = none) ∧
      (∀ n, t.world.instant ≤ n → id ≠ out.uuid4 n) ∧
      Ran out self i (f id) t (.ofExcept r) u := by
  obtain ⟨s₁, r₁, s₂, t, hr₁, he, hr₂, hnext⟩ := next_op h
  obtain ⟨hevents, hworld, hreply⟩ := exec_events he
  have hid : r₁ = .ok (out.uuid4 s₁.world.instant) := hreply
  subst hid
  have hkeeps := keeps_exec (fun _ _ _ => rfl) he
  have hfresh₁ := (keeps_rely hr₁).1 hfresh
  have hlive : ∀ w a, a.running = running → (step out .uuid4 w a).2.2.running = running :=
    fun _ _ h => h
  have hk₂ := knows_quiet (knows_rely hk hr₁) ⟨rfl, rfl, rfl⟩ hlive he
  have hhanded : out.uuid4 s₁.world.instant ∈ (log i s₂.events).filterMap handed := by
    rw [log_mine hevents, List.filterMap_append]
    exact List.mem_append_right _ List.mem_cons_self
  have habsent : ∀ b, s₂.world.store.inputs.get? (b, out.uuid4 s₁.world.instant) = none := by
    intro b
    rw [hworld]
    exact hfresh₁ _ (Nat.le_refl _) b
  have hk := knows_rely hk₂ hr₂
  have hfresh₂ := (keeps_rely hr₂).1 (hkeeps.1 hfresh₁)
  obtain ⟨hmine, -, hlater, -, -, hown⟩ := hr₂
  rcases hnext with ⟨a, hok, -, hrest⟩ | ⟨error, herror, -, -⟩
  · cases hok
    refine ⟨_, t, hk, hfresh₂, hmine ▸ hhanded, fun b => hown _ hhanded b (habsent b), ?_, hrest⟩
    intro n hn he
    have hsame := out.uuid4_fresh _ _ he
    rw [hworld, step_instant] at hlater
    omega
  · cases herror

/-- One record is put into the queue, or found there. -/
theorem next_enqueue {α : Type} {b id : String} {value : Value} {f : Bool → Program α}
    {r : Except Exn α} (hk : Knows self i new known live running s)
    (h : Ran out self i ((perform (.ledger (.enqueueInput b id value))).bind f) s
      (.ofExcept r) u) :
    ∃ s₁ t, Rely out self i s s₁ ∧ (t.world.store.inputs.get? (b, id)).isSome ∧
      Ran out self i (f (s₁.world.store.inputs.get? (b, id)).isNone) t (.ofExcept r) u ∧
      (s₁.world.store.inputs.get? (b, id) = none →
        Knows self i (new ++ [id]) known (live ++ [id]) running t) ∧
      ((s₁.world.store.inputs.get? (b, id)).isSome →
        Knows self i new (known ++ [id]) live running t) ∧
      ((∀ n, s₁.world.instant ≤ n → id ≠ out.uuid4 n) → Fresh out s₁.world →
        Fresh out t.world) := by
  obtain ⟨s₁, r₁, s₂, t, hr₁, he, hr₂, hnext⟩ := next_op h
  obtain ⟨hevents, hworld, hreply⟩ := exec_events he
  have hlive : ∀ w a, a.running = running →
      (step out (.ledger (.enqueueInput b id value)) w a).2.2.running = running :=
    fun _ _ h => h
  have hk₂ := knows_rely (knows_exec (knows_rely hk hr₁) hlive he) hr₂
  obtain ⟨hfresh, hrows⟩ := keeps_rely hr₂
  have hstore : s₂.world.store = (MemorySteps.enqueueInput s₁.world.store b id value).2 := by
    rw [hworld]
    rfl
  have hok : r₁ = .ok (MemorySteps.enqueueInput s₁.world.store b id value).1 := hreply
  have hrest : Ran out self i (f (MemorySteps.enqueueInput s₁.world.store b id value).1) t
      (.ofExcept r) u := by
    rcases hnext with ⟨a, ha, -, hrest⟩ | ⟨error, herror, -, -⟩
    · rw [hok] at ha
      cases ha
      exact hrest
    · rw [hok] at herror
      cases herror
  have hinstant : s₂.world.instant = s₁.world.instant + 1 := by rw [hworld, step_instant]
  refine ⟨s₁, t, hr₁, ?_, ?_, ?_, ?_, ?_⟩
  · apply hrows
    rw [hstore, MemorySteps.enqueueInput]
    cases hrow : s₁.world.store.inputs.get? (b, id) with
    | some row => simp [hrow]
    | none => simp [MemorySteps.insertInput]
  · have hinserted : (MemorySteps.enqueueInput s₁.world.store b id value).1 =
        (s₁.world.store.inputs.get? (b, id)).isNone := by
      rw [MemorySteps.enqueueInput]
      cases s₁.world.store.inputs.get? (b, id) <;> rfl
    rw [← hinserted]
    exact hrest
  · intro hnone
    rw [hok, MemorySteps.enqueueInput, hnone] at hk₂
    simpa [inserted, settled, OneChannel.found] using hk₂
  · intro hsome
    obtain ⟨row, hrow⟩ := Option.isSome_iff_exists.mp hsome
    rw [hok, MemorySteps.enqueueInput, hrow] at hk₂
    simpa [inserted, settled, OneChannel.found] using hk₂
  · intro hid hf
    apply hfresh
    intro n hn b'
    have hnone : s₁.world.store.inputs.get? (b', out.uuid4 n) = none := hf n (by omega) b'
    rw [hstore, MemorySteps.enqueueInput]
    cases hrow : s₁.world.store.inputs.get? (b, id) with
    | some row => exact hnone
    | none =>
      have hne : (b', out.uuid4 n) ≠ (b, id) :=
        fun he => hid n (by omega) (Prod.mk.inj he).2.symm
      simp only [MemorySteps.insertInput, Dict.get?_insert_ne _ _ hne]
      exact hnone

/-- What one submission makes of the queue of the branch. -/
def Submitted (out : Outside) (self : Nat → Nat) (i : Nat) (b : String) (promptId : Option String)
    (new known live : List String) (running : Bool) (s t : Scene) : Prop :=
  (∃ id, promptId = some id ∧ id ≠ "" ∧ (t.world.store.inputs.get? (b, id)).isSome ∧
    (Knows self i new (known ++ [id]) live running t ∨
      s.world.store.inputs.get? (b, id) = none ∧
        Knows self i (new ++ [id]) known (live ++ [id]) running t)) ∨
  (¬ Named promptId ∧ Fresh out t.world ∧
    ∃ id, Knows self i (new ++ [id]) known (live ++ [id]) running t)

theorem Submitted.earlier {b : String} {promptId : Option String} (hkeeps : Keeps out s t)
    (h : Submitted out self i b promptId new known live running t u) :
    Submitted out self i b promptId new known live running s u := by
  rcases h with ⟨id, hid, hne, hrow, hfound | ⟨habsent, hput⟩⟩ | hnew
  · exact .inl ⟨id, hid, hne, hrow, .inl hfound⟩
  · refine .inl ⟨id, hid, hne, hrow, .inr ⟨?_, hput⟩⟩
    by_contra hsome
    have hthere := hkeeps.2 _ (Option.isSome_iff_ne_none.mpr hsome)
    rw [habsent] at hthere
    cases hthere
  · exact .inr hnew

section
variable {rt : AgentRuntime} {e : Execution} {promptId : Option String}

theorem submit_eq (hstore : rt.executionStore = true) (item : PendingInput) :
    rt.submit e item = (AgentRuntime.inputIdOf item).bind (fun id =>
      (perform (.ledger (.enqueueInput (View.filed ⟨e.conversationId⟩ e.branchId) id
        (.input { item with originId := some id })))).bind
        (fun _ => .ret { item with originId := some id })) := by
  unfold AgentRuntime.submit AgentRuntime.requireStore AgentRuntime.storeFor
  rw [if_pos hstore]
  rfl

theorem submitted (hstore : rt.executionStore = true) {kind : String} {part : RequestPart}
    {r : Except Exn PendingInput} (hk : Knows self i new known live running s)
    (hfresh : ¬ Named promptId → Fresh out s.world)
    (h : Ran out self i (rt.submit e ⟨kind, part, promptId⟩) s (.ofExcept r) u) :
    (∃ item, r = .ok item) ∧
      Submitted out self i (View.filed ⟨e.conversationId⟩ e.branchId) promptId new known live
        running s u := by
  rw [submit_eq hstore] at h
  have hended : ∀ {item : PendingInput} {t : Scene}, Ran out self i (.ret item) t (.ofExcept r) u →
      (∃ item, r = .ok item) ∧ Rely out self i t u := by
    intro item t hret
    have hret' : Ran out self i (.ofExcept (.ok item)) t (.ofExcept r) u := hret
    obtain ⟨hr, hmove⟩ := Prog.runs_ended rely_refl rely_trans hret'
    exact ⟨⟨item, hr.symm⟩, hmove⟩
  by_cases hnamed : Named promptId
  · obtain ⟨id, rfl, hid⟩ := hnamed
    have hmine : AgentRuntime.inputIdOf ⟨kind, part, some id⟩ = .ret id := by
      unfold AgentRuntime.inputIdOf
      split
      · rename_i hnone
        cases hnone
      · rename_i hempty
        exact absurd (Option.some.inj hempty) hid
      · rename_i id' hsome
        rw [Option.some.inj hsome]
        rfl
    rw [hmine] at h
    obtain ⟨s₁, t, hr₁, hrow, hret, hput, hfound, -⟩ := next_enqueue hk h
    obtain ⟨hok, hmove⟩ := hended hret
    refine ⟨hok, .inl ⟨id, rfl, hid, (keeps_rely hmove).2 _ hrow, ?_⟩⟩
    cases hbefore : s₁.world.store.inputs.get? (View.filed ⟨e.conversationId⟩ e.branchId, id) with
    | some row => exact .inl (knows_rely (hfound (by rw [hbefore]; rfl)) hmove)
    | none =>
      refine .inr ⟨?_, knows_rely (hput hbefore) hmove⟩
      by_contra hsome
      have hthere := (keeps_rely hr₁).2 _ (Option.isSome_iff_ne_none.mpr hsome)
      rw [hbefore] at hthere
      cases hthere
  · have hnew : AgentRuntime.inputIdOf ⟨kind, part, promptId⟩ = perform .uuid4 := by
      unfold AgentRuntime.inputIdOf
      split
      · rfl
      · rfl
      · rename_i id hnotempty hsome
        exact absurd ⟨id, hsome, hnotempty⟩ hnamed
    rw [hnew] at h
    obtain ⟨id, t, hk₁, hfresh₁, hhanded, habsent, hlater, hrest⟩ :=
      next_uuid hk (hfresh hnamed) h
    obtain ⟨s₁, t', hr₁, -, hret, hput, -, hkeep⟩ := next_enqueue hk₁ hrest
    obtain ⟨hok, hmove⟩ := hended hret
    have hfresh₂ := (keeps_rely hr₁).1 hfresh₁
    obtain ⟨-, -, hmono, -, -, hown⟩ := hr₁
    refine ⟨hok, .inr ⟨hnamed, (keeps_rely hmove).1 (hkeep ?_ hfresh₂), id, ?_⟩⟩
    · intro n hn
      exact hlater n (hmono.trans hn)
    · exact knows_rely (hput (hown id hhanded _ (habsent _))) hmove

end

/-- A run only adds to what the dispatch did. -/
theorem ran_log {α : Type} {p q : Program α} (h : Ran out self i p s q t) :
    ∃ more, log i t.events = log i s.events ++ more := by
  induction h with
  | refl => exact ⟨[], by simp⟩
  | env _ move ih =>
    obtain ⟨more, hmore⟩ := ih
    obtain ⟨hmine, -, -, -, -, -⟩ := move
    exact ⟨more, hmine.trans hmore⟩
  | @op o k t reply t' _ done ih =>
    obtain ⟨more, hmore⟩ := ih
    refine ⟨more ++ [⟨i, o, reply⟩], ?_⟩
    rw [log_mine (exec_events done).1, hmore, List.append_assoc]

/-- The environment and a quiet operation leave what is known of the dispatch; its agent may begin
to run. -/
theorem knows_modify {f : Attempt → Attempt} {r : Except Exn Unit}
    (hk : Knows self i new known live running s)
    (h : Ran out self i (perform (.modify f)) s (.ofExcept r) t) :
    r = .ok () ∧ Keeps out s t ∧
      ∀ b, (∀ a, a.running = running → (f a).running = b) → Knows self i new known live b t := by
  obtain ⟨s₁, s₂, hr₁, he, hr₂⟩ := Prog.runs_op (o := Op.modify f) rely_refl rely_trans h
  obtain ⟨hevents, -, hreply⟩ := exec_events he
  refine ⟨hreply, ((keeps_rely hr₁).trans (keeps_exec (fun _ _ _ => rfl) he)).trans
    (keeps_rely hr₂), ?_⟩
  intro b hf
  apply knows_rely _ hr₂
  obtain ⟨hadded, hfound, hcopies, hrunning⟩ := knows_rely hk hr₁
  have hlog := log_mine hevents
  refine ⟨?_, ?_, ?_, ?_⟩
  · rw [hlog, OneChannel.added, List.filterMap_append, ← OneChannel.added, hadded]
    simp [inserted]
  · rw [hlog, List.filterMap_append, hfound]
    simp [OneChannel.found]
  · rw [hlog, copies_append, hcopies]
    simp [inserted, settled]
  · rw [exec_attempts he, Function.update_self]
    exact hf _ hrunning

/-! The phases of an attempt. -/

section
variable {rt : AgentRuntime} {e : Execution} {agent : Agent} {text : String}
variable {promptId controls : Option String} {rulesVersion : String}

theorem unqueued_onward (gathers : Gathers agent.toPydanticAI) (token : Nat)
    (prompt : Option String) (history : List ModelMessage) :
    (onward rt e agent promptId controls rulesVersion token prompt history).AllOps Unqueued :=
  Prog.allOps_bind (unqueued_run gathers _ _ _) (fun output => unqueued_after rt e _ token output)

/-- The agent runs, and nothing is put into the queue. -/
theorem ran_onward (gathers : Gathers agent.toPydanticAI) {token : Nat} {prompt : Option String}
    {history : List ModelMessage} {r : Except Exn Outcome}
    (hk : Knows self i new known [] false s)
    (h : Ran out self i (onward rt e agent promptId controls rulesVersion token prompt history) s
      (.ofExcept r) u) :
    Knows self i new known [] true u ∧ Keeps out s u := by
  let eff := rt.effectsOf e token agent (options promptId controls rulesVersion)
  -- All that is around the operation the run of an agent begins with.
  let around (begin_ : Program Unit) : Program Outcome :=
    (begin_.bind (fun _ => (agent.iterate eff (prompt.map Json.str) [] agent.nodeLimit
      .userPrompt).bind (fun output => (update (fun a =>
        { a with request := none, reentered := false, closing := false })).bind
          (fun _ => .ret output)))).bind (fun output => (rt.replaceFinal e).bind (fun _ =>
            match output with
              | .deferred requests => rt.park e e.conversation eff requests token
              | output => rt.close e output))
  have hsurrounds : Prog.Surrounds around := fun _ _ => rfl
  obtain ⟨r₁, t, hbegun, hrest⟩ := Prog.runs_within hsurrounds h
  obtain ⟨rfl, hkeeps, hrunning⟩ := knows_modify hk hbegun
  have hk₁ := hrunning true (fun _ _ => rfl)
  have hall := Prog.runs_allOps (unqueued_onward gathers token prompt history)
    (hbegun.within hsurrounds)
  refine Prog.runs_keep (I := fun x => Knows self i new known [] true x ∧ Keeps out s x) hall
    ?_ ?_ hrest ⟨hk₁, hkeeps⟩
  · intro x y hr hx
    exact ⟨knows_rely hx.1 hr, hx.2.trans (keeps_rely hr)⟩
  · intro o ho x reply y hx he
    exact ⟨knows_unqueued hx.1 ho he, hx.2.trans (keeps_exec (unqueued_rows ho) he)⟩

theorem plainly_openBranch (e : Execution) (running : Bool) :
    (rt.openBranch e none).Completes (Plain out running) (fun _ => True) := by
  have hop : ∀ {o : Op}, Plain out running o → (perform o).Completes (Plain out running)
      (fun _ => True) := fun h => Prog.completes_op h
  unfold AgentRuntime.openBranch
  split
  · apply Prog.completes_bind (Q := fun _ => True)
    · refine Prog.completes_bind (hop (plain_readEntries _)) (fun _ _ => ?_)
      refine Prog.completes_bind (Q := fun _ => True) ?_
        (fun _ _ => hop (plain_modify (fun _ h => h)))
      exact Prog.completes_bind (hop plain_now) (fun _ _ => hop (plain_recordBranch _ _))
    · exact fun _ _ => Prog.completes_bind (hop plain_get) (fun _ _ => trivial)
  · trivial

/-- The attempt is given the prompt, or the prompt was recorded under its id before. -/
def Carries (text : String) (promptId : Option String) (known : List String)
    (prompt : Option String) : Prop :=
  prompt = some text ∨ ∃ id, promptId = some id ∧ id ∈ known

theorem admit_error {b : String} {ids : List String} {token : Nat} {w : World} {a : Attempt}
    {error : Exn} (h : (step out (.ledger (.admitInputs b ids token)) w a).1 = .error error)
    (b' : String) : error ≠ .store (.contended b') := by
  have hreply : (MemorySteps.admitInputs w.store b ids token).1.mapError Exn.store =
      .error error := h
  unfold MemorySteps.admitInputs MemorySteps.fenced MemorySteps.fence at hreply
  rintro rfl
  split at hreply
  · rename_i hfence
    split at hfence <;> cases hfence
    cases hreply
  · cases hreply

/-- Admitting the prompt: it is given on and nothing of it is left to claim, or the record is left
where the write behind it was fenced. -/
theorem ran_admitPrompt (hstore : rt.executionStore = true) {token : Nat}
    {r : Except Exn (Option String)} (hk : Knows self i [] [] [] false s)
    (hfresh : Fresh out s.world)
    (h : Ran out self i (rt.admitPrompt e token (some text) promptId) s (.ofExcept r) u) :
    (∃ prompt new known, r = .ok prompt ∧ Carries text promptId known prompt ∧
      Knows self i new known [] false u ∧
      (∀ id, promptId = some id → (u.world.store.inputs.get?
        (View.filed ⟨e.conversationId⟩ e.branchId, id)).isSome) ∧
      (¬ Named promptId → Fresh out u.world)) ∨
    ∃ error id, r = .error error ∧ (∀ b, error ≠ .store (.contended b)) ∧ promptId = some id ∧
      Knows self i [id] [] [id] false u := by
  unfold AgentRuntime.admitPrompt AgentRuntime.storeFor at h
  rw [if_pos hstore] at h
  cases promptId with
  | none =>
    have hret : Ran out self i (.ofExcept (.ok (some text))) s (.ofExcept r) u := h
    obtain ⟨hr, hmove⟩ := Prog.runs_ended rely_refl rely_trans hret
    refine .inl ⟨some text, [], [], hr.symm, .inl rfl, knows_rely hk hmove, ?_, ?_⟩
    · exact fun id hid => nomatch hid
    · exact fun _ => (keeps_rely hmove).1 hfresh
  | some id =>
    obtain ⟨instant, t₁, hk₁, hkeeps₁, -, -, h₁⟩ := next_plain plain_now hk h
    obtain ⟨s₂, t₂, hr₂, hrow, h₂, hput, hfound, hkeep⟩ := next_enqueue hk₁ h₁
    have hfresh₂ : ¬ Named (some id) → Fresh out t₂.world := by
      intro hnamed
      apply hkeep _ ((hkeeps₁.trans (keeps_rely hr₂)).1 hfresh)
      rintro n - rfl
      exact hnamed ⟨_, rfl, out.uuid4_nonempty n⟩
    cases hbefore : s₂.world.store.inputs.get? (View.filed ⟨e.conversationId⟩ e.branchId, id) with
    | some row =>
      rw [hbefore] at h₂
      have hret : Ran out self i (.ofExcept (.ok none)) t₂ (.ofExcept r) u := h₂
      obtain ⟨hr, hmove⟩ := Prog.runs_ended rely_refl rely_trans hret
      have hk₂ := hfound (by rw [hbefore]; rfl)
      refine .inl ⟨none, [], [id], hr.symm, .inr ⟨id, rfl, List.mem_cons_self⟩,
        knows_rely hk₂ hmove, ?_, fun hnamed => (keeps_rely hmove).1 (hfresh₂ hnamed)⟩
      rintro _ ⟨⟩
      exact (keeps_rely hmove).2 _ hrow
    | none =>
      rw [hbefore] at h₂
      have hk₂ := hput hbefore
      have hprompt : Ran out self i ((perform (.ledger (.admitInputs
          (View.filed ⟨e.conversationId⟩ e.branchId) [id] token))).bind
          (fun _ => .ret (some text))) t₂ (.ofExcept r) u := h₂
      obtain ⟨s₃, reply, t₃, t, hr₃, he, hr₄, hnext⟩ := next_op hprompt
      have hlive : ∀ w a, a.running = false → (step out (.ledger (.admitInputs
          (View.filed ⟨e.conversationId⟩ e.branchId) [id] token)) w a).2.2.running = false :=
        fun _ _ h => h
      have hk₃ := knows_rely (knows_exec (knows_rely hk₂ hr₃) hlive he) hr₄
      have hkeeps : Keeps out t₂ t := ((keeps_rely hr₃).trans (keeps_exec
        (unqueued_rows (o := .ledger (.admitInputs _ [id] token)) trivial) he)).trans
        (keeps_rely hr₄)
      rcases hnext with ⟨⟨⟩, rfl, -, hrest⟩ | ⟨error, rfl, hr, hmove⟩
      · have hret : Ran out self i (.ofExcept (.ok (some text))) t (.ofExcept r) u := hrest
        obtain ⟨hr, hmove⟩ := Prog.runs_ended rely_refl rely_trans hret
        have hnone : Knows self i [id] [] [] false t := by
          simpa [inserted, settled, OneChannel.found] using hk₃
        have hkeeps' := hkeeps.trans (keeps_rely hmove)
        refine .inl ⟨some text, [id], [], hr.symm, .inl rfl, knows_rely hnone hmove, ?_,
          fun hnamed => hkeeps'.1 (hfresh₂ hnamed)⟩
        rintro _ ⟨⟩
        exact hkeeps'.2 _ hrow
      · have hleft : Knows self i [id] [] [id] false t := by
          simpa [inserted, settled, OneChannel.found] using hk₃
        exact .inr ⟨error, id, hr, admit_error (exec_events he).2.2.symm, rfl,
          knows_rely hleft hmove⟩

/-- An attempt with a prompt: its agent runs and is given the prompt, of which nothing is left to
claim, or its record is left where the write behind it was fenced. -/
theorem ran_attempt (hstore : rt.executionStore = true) (gathers : Gathers agent.toPydanticAI)
    {token : Nat} {r : Except Exn Outcome} (hk : Knows self i [] [] [] false s)
    (hfresh : Fresh out s.world)
    (h : Ran out self i (rt.attemptRun e token agent (some text)
      (options promptId controls rulesVersion)) s (.ofExcept r) u) :
    (∃ prompt history new known t,
      Ran out self i (rt.attemptRun e token agent (some text)
        (options promptId controls rulesVersion)) s
        (onward rt e agent promptId controls rulesVersion token prompt history) t ∧
      Ran out self i (onward rt e agent promptId controls rulesVersion token prompt history) t
        (.ofExcept r) u ∧
      Carries text promptId known prompt ∧ Knows self i new known [] true u ∧
      (∀ id, promptId = some id → (u.world.store.inputs.get?
        (View.filed ⟨e.conversationId⟩ e.branchId, id)).isSome) ∧
      (¬ Named promptId → Fresh out u.world)) ∨
    ∃ error id, r = .error error ∧ (∀ b, error ≠ .store (.contended b)) ∧ promptId = some id ∧
      Knows self i [id] [] [id] false u := by
  have hparts : rt.attemptRun e token agent (some text) (options promptId controls rulesVersion) =
      (perform (.modify (fun _ => {}))).bind (fun _ => (rt.openBranch e none).bind (fun history =>
        (rt.admitPrompt e token (some text) promptId).bind (fun prompt =>
          onward rt e agent promptId controls rulesVersion token prompt history))) := rfl
  rw [hparts] at h ⊢
  obtain ⟨_, t₁, hk₁, hkeeps₁, -, hto₁, h₁⟩ := next_plain (plain_modify (fun _ _ => rfl)) hk h
  obtain ⟨opened, t₂, hopen, hrest⟩ := Prog.runs_bind h₁
  obtain ⟨⟨history, rfl⟩, hk₂, hkeeps₂⟩ := ran_plainly (plainly_openBranch e false) hk₁ hopen
  have hfresh₂ := (hkeeps₁.trans hkeeps₂).1 hfresh
  have hto₂ := hto₁.trans (hopen.within (Prog.surrounds_bind _))
  have hrest' : Ran out self i ((rt.admitPrompt e token (some text) promptId).bind (fun prompt =>
    onward rt e agent promptId controls rulesVersion token prompt history)) t₂ (.ofExcept r) u :=
    hrest
  obtain ⟨admitted, t₃, hprompt, hrun⟩ := Prog.runs_bind hrest'
  rcases ran_admitPrompt hstore hk₂ hfresh₂ hprompt with
    ⟨prompt, new, known, rfl, hcarries, hk₃, hrow, hfresh₃⟩ | ⟨error, id, rfl, herror, hid, hk₃⟩
  · obtain ⟨hk, hkeeps⟩ := ran_onward gathers hk₃ hrun
    exact .inl ⟨prompt, history, new, known, t₃,
      hto₂.trans (hprompt.within (Prog.surrounds_bind _)), hrun, hcarries, hk,
      fun id hid => hkeeps.2 _ (hrow id hid), fun hnamed => hkeeps.1 (hfresh₃ hnamed)⟩
  · have hraised : Ran out self i (.ofExcept (.error error)) t₃ (.ofExcept r) u := hrun
    obtain ⟨hr, hmove⟩ := Prog.runs_ended rely_refl rely_trans hraised
    exact .inr ⟨error, id, hr.symm, herror, hid, knows_rely hk₃ hmove⟩

/-- What a run with a prompt came to where nothing was parked. -/
inductive Came (out : Outside) (self : Nat → Nat) (i : Nat) (rt : AgentRuntime) (e : Execution)
    (agent : Agent) (text : String) (promptId controls : Option String) (rulesVersion : String)
    (p : Program Outcome) (s : Scene) (u : Scene) : Except Exn Outcome → Prop
  /-- Another worker holds the lease. -/
  | refused (untouched : Knows self i [] [] [] false u) (fresh : Fresh out u.world) :
    Came out self i rt e agent text promptId controls rulesVersion p s u
      (.error (.store (.contended e.branchId)))
  /-- The prompt was recorded and the attempt got no further. -/
  | unadmitted {error : Exn} {id : String} (other : ∀ b, error ≠ .store (.contended b))
    (left : Knows self i [id] [] [id] false u) :
    Came out self i rt e agent text promptId controls rulesVersion p s u (.error error)
  /-- The agent ran with the prompt. -/
  | started {owner : String} {token : Nat} {prompt : Option String}
    {history : List ModelMessage} {new known : List String} {t : Scene} {r : Except Exn Outcome}
    (before : Ran out self i p s
      (underway rt e agent promptId controls rulesVersion owner token prompt history) t)
    (after : Ran out self i
      (underway rt e agent promptId controls rulesVersion owner token prompt history) t
      (.ofExcept r) u)
    (carries : Carries text promptId known prompt) (knows : Knows self i new known [] true u)
    (row : ∀ id, promptId = some id → (u.world.store.inputs.get?
      (View.filed ⟨e.conversationId⟩ e.branchId, id)).isSome)
    (fresh : ¬ Named promptId → Fresh out u.world) :
    Came out self i rt e agent text promptId controls rulesVersion p s u r

theorem ran_lease (hstore : rt.executionStore = true) (gathers : Gathers agent.toPydanticAI)
    {r : Except Exn Outcome} (hk : Knows self i [] [] [] false s) (hfresh : Fresh out s.world)
    (h : Ran out self i (rt.lease e (fun token => rt.attemptRun e token agent (some text)
      (options promptId controls rulesVersion))) s (.ofExcept r) u) :
    Came out self i rt e agent text promptId controls rulesVersion
      (rt.lease e (fun token => rt.attemptRun e token agent (some text)
        (options promptId controls rulesVersion))) s u r := by
  have hparts : rt.lease e (fun token => rt.attemptRun e token agent (some text)
      (options promptId controls rulesVersion)) =
      (perform .uuid4).bind (fun owner => (perform (.ledger (.acquire
        (View.filed ⟨e.conversationId⟩ e.branchId) owner rt.leaseTtl))).bind (fun token =>
          if token = 0 then .raise (.store (.contended e.branchId))
          else (rt.attemptRun e token agent (some text)
            (options promptId controls rulesVersion)).finally_ (perform (.ledger (.release
              (View.filed ⟨e.conversationId⟩ e.branchId) owner))))) := by
    unfold AgentRuntime.lease AgentRuntime.storeFor
    rw [if_pos hstore]
    rfl
  rw [hparts] at h ⊢
  obtain ⟨owner, t₁, hk₁, hkeeps₁, -, hto₁, h₁⟩ := next_plain plain_uuid4 hk h
  obtain ⟨token, t₂, hk₂, hkeeps₂, -, hto₂, h₂⟩ := next_plain (plain_acquire _ _ _) hk₁ h₁
  have hto := hto₁.trans hto₂
  have hfresh₂ := (hkeeps₁.trans hkeeps₂).1 hfresh
  split at h₂
  · have hraised : Ran out self i (.ofExcept (.error (.store (.contended e.branchId)))) t₂
        (.ofExcept r) u := h₂
    obtain ⟨rfl, hmove⟩ := Prog.runs_ended rely_refl rely_trans hraised
    exact .refused (knows_rely hk₂ hmove) ((keeps_rely hmove).1 hfresh₂)
  · rename_i htoken
    rw [if_neg htoken] at hto
    let release : Program Unit :=
      perform (.ledger (.release (View.filed ⟨e.conversationId⟩ e.branchId) owner))
    obtain ⟨r₁, t₃, hattempt, hlast⟩ := Prog.runs_within (Prog.surrounds_finally release) h₂
    have hreleased : ∀ {new known live running}, Knows self i new known live running t₃ →
        r = r₁ ∧ Knows self i new known live running u ∧ Keeps out t₃ u := by
      intro new known live running hk₃
      have hbind : Ran out self i (release.bind (fun _ => .ofExcept r₁)) t₃ (.ofExcept r) u := by
        cases r₁ <;> exact hlast
      obtain ⟨_, t₄, hk₄, hkeeps₄, -, -, hend⟩ := next_plain (plain_release _ _) hk₃ hbind
      obtain ⟨hr, hmove⟩ := Prog.runs_ended rely_refl rely_trans hend
      exact ⟨hr.symm, knows_rely hk₄ hmove, hkeeps₄.trans (keeps_rely hmove)⟩
    rcases ran_attempt hstore gathers hk₂ hfresh₂ hattempt with
      ⟨prompt, history, new, known, t, hbefore, hafter, hcarries, hk₃, hrow, hfresh₃⟩ |
      ⟨error, id, rfl, hother, -, hk₃⟩
    · obtain ⟨rfl, hk, hkeeps⟩ := hreleased hk₃
      refine .started (hto.trans (hbefore.within (Prog.surrounds_finally release)))
        ((hafter.within (Prog.surrounds_finally release)).trans hlast) hcarries hk ?_ ?_
      · exact fun id hid => hkeeps.2 _ (hrow id hid)
      · exact fun hnamed => hkeeps.1 (hfresh₃ hnamed)
    · obtain ⟨rfl, hk, -⟩ := hreleased hk₃
      exact .unadmitted hother hk

/-! The two places that queue a prompt. -/

theorem Submitted.left {b : String} (h : Submitted out self i b promptId new known live running s t)
    (hmove : Rely out self i t u) :
    Submitted out self i b promptId new known live running s u := by
  rcases h with ⟨id, hid, hne, hrow, hfound | ⟨habsent, hput⟩⟩ | ⟨hnamed, hfresh, id, hput⟩
  · exact .inl ⟨id, hid, hne, (keeps_rely hmove).2 _ hrow, .inl (knows_rely hfound hmove)⟩
  · exact .inl ⟨id, hid, hne, (keeps_rely hmove).2 _ hrow, .inr ⟨habsent, knows_rely hput hmove⟩⟩
  · exact .inr ⟨hnamed, (keeps_rely hmove).1 hfresh, id, knows_rely hput hmove⟩

theorem ran_queueBehind (hstore : rt.executionStore = true) {active : Suspension}
    {r : Except Exn Outcome} (hk : Knows self i new known live running s)
    (hfresh : ¬ Named promptId → Fresh out s.world)
    (h : Ran out self i (rt.queueBehind e active text promptId) s (.ofExcept r) u) :
    (r = .error (if AgentRuntime.undecided active = [] then .store (.contended e.branchId)
      else .agentSuspended (AgentRuntime.undecided active))) ∧
      Submitted out self i (View.filed ⟨e.conversationId⟩ e.branchId) promptId new known live
        running s u := by
  obtain ⟨instant, t, hk₁, hkeeps₁, -, -, h₁⟩ := next_plain plain_now hk h
  obtain ⟨r₁, t₂, hsubmit, hrest⟩ := Prog.runs_bind h₁
  obtain ⟨⟨item, rfl⟩, hsubmitted⟩ := submitted hstore hk₁
    (fun hnamed => hkeeps₁.1 (hfresh hnamed)) hsubmit
  have hraised : Ran out self i (.ofExcept (.error (if AgentRuntime.undecided active = [] then
      .store (.contended e.branchId) else .agentSuspended (AgentRuntime.undecided active)))) t₂
      (.ofExcept r) u := by
    split <;> rename_i hnone
    · have hbranch : Ran out self i (if AgentRuntime.undecided active = [] then
          .raise (.store (.contended e.branchId))
          else .raise (.agentSuspended (AgentRuntime.undecided active))) t₂ (.ofExcept r) u := hrest
      rw [if_pos hnone] at hbranch
      exact hbranch
    · have hbranch : Ran out self i (if AgentRuntime.undecided active = [] then
          .raise (.store (.contended e.branchId))
          else .raise (.agentSuspended (AgentRuntime.undecided active))) t₂ (.ofExcept r) u := hrest
      rw [if_neg hnone] at hbranch
      exact hbranch
  obtain ⟨hr, hmove⟩ := Prog.runs_ended rely_refl rely_trans hraised
  exact ⟨hr.symm, (hsubmitted.left hmove).earlier hkeeps₁⟩

/-- What `QueueSteer` makes of a prompt. -/
def steer (rt : AgentRuntime) (e : Execution) (text : String) (promptId : Option String) :
    Program Applied :=
  (perform .now).bind (fun instant =>
    (rt.submit e ⟨"user_prompt", .userPrompt (.str text) (.int instant), promptId⟩).bind
      (fun item => .ret (.enqueued (item.originId.getD ""))))

theorem handOff_eq (b : String) :
    handOff rt e text promptId (.store (.contended b)) =
      (steer rt e text promptId).tryCatch (fun error =>
          match error with
          | .store (.contended b) =>
            Dispatch.offer rt e (.prompt text promptId) none [] (some (.store (.contended b)))
          | error => .raise error) := rfl

theorem handOff_other {error : Exn} (h : ∀ b, error ≠ .store (.contended b)) :
    handOff rt e text promptId error = .raise error := by
  unfold handOff
  split
  · rename_i b
    exact absurd rfl (h b)
  · rfl

theorem ran_handOff (hstore : rt.executionStore = true) {b : String} {r : Except Exn Applied}
    (hk : Knows self i new known live running s) (hfresh : ¬ Named promptId → Fresh out s.world)
    (h : Ran out self i (handOff rt e text promptId (.store (.contended b))) s (.ofExcept r) u) :
    Submitted out self i (View.filed ⟨e.conversationId⟩ e.branchId) promptId new known live
      running s u := by
  rw [handOff_eq] at h
  obtain ⟨r₁, t, hqueue, hrest⟩ := Prog.runs_within (Prog.surrounds_tryCatch _) h
  obtain ⟨instant, t₁, hk₁, hkeeps₁, -, -, h₁⟩ := next_plain plain_now hk hqueue
  obtain ⟨r₂, t₂, hsubmit, hlast⟩ := Prog.runs_bind h₁
  obtain ⟨⟨item, rfl⟩, hsubmitted⟩ := submitted hstore hk₁
    (fun hnamed => hkeeps₁.1 (hfresh hnamed)) hsubmit
  have hret : Ran out self i (.ofExcept (.ok (.enqueued (item.originId.getD "")))) t₂
    (.ofExcept r₁) t := hlast
  obtain ⟨rfl, hmove⟩ := Prog.runs_ended rely_refl rely_trans hret
  have hend : Ran out self i (.ofExcept (.ok (.enqueued (item.originId.getD "")))) t
    (.ofExcept r) u := hrest
  obtain ⟨-, hmove'⟩ := Prog.runs_ended rely_refl rely_trans hend
  exact ((hsubmitted.left hmove).left hmove').earlier hkeeps₁

/-- The operations of the hand-off reply, and start no agent. -/
theorem handOff_enqueues (hstore : rt.executionStore = true) {b : String} {r : Except Exn Applied}
    (hrunning : (s.attempts (self i)).running = running)
    (h : Ran out self i (handOff rt e text promptId (.store (.contended b))) s (.ofExcept r) u) :
    (∃ id, r = .ok (.enqueued id)) ∧ (u.attempts (self i)).running = running := by
  let Replies (o : Op) : Prop := (∀ w a, (step out o w a).2.2.running = a.running) ∧
    ∀ w a, ∃ x, (step out o w a).1 = .ok x
  have hop : ∀ {o : Op}, Replies o → (perform o).Completes Replies (fun _ => True) :=
    fun h => Prog.completes_op h
  have hnow : Replies .now := ⟨fun _ _ => rfl, fun w _ => ⟨w.instant, rfl⟩⟩
  have huuid : Replies .uuid4 := ⟨fun _ _ => rfl, fun w _ => ⟨out.uuid4 w.instant, rfl⟩⟩
  have henqueue : ∀ b id value, Replies (.ledger (.enqueueInput b id value)) :=
    fun _ _ _ => ⟨fun _ _ => rfl, fun _ _ => ⟨_, rfl⟩⟩
  have hmove : ∀ x y, Rely out self i x y → (x.attempts (self i)).running = running →
      (y.attempts (self i)).running = running := by
    intro x y hr hx
    obtain ⟨-, hmemory, -, -, -, -⟩ := hr
    exact (congrArg Attempt.running hmemory).trans hx
  have hdo : ∀ o, Replies o → ∀ x reply y, (x.attempts (self i)).running = running →
      exec out self i o x reply y →
        (∃ a, reply = .ok a) ∧ (y.attempts (self i)).running = running := by
    intro o ho x reply y hx he
    obtain ⟨a, ha⟩ := ho.2 x.world (x.attempts (self i))
    refine ⟨⟨a, (exec_events he).2.2.trans ha⟩, ?_⟩
    rw [exec_attempts he, Function.update_self, ho.1, hx]
  have hsubmit : ∀ item, (rt.submit e item).Completes Replies (fun _ => True) := by
    intro item
    rw [submit_eq hstore]
    refine Prog.completes_bind (Q := fun _ => True) ?_
      (fun id _ => Prog.completes_bind (hop (henqueue _ _ _)) (fun _ _ => trivial))
    unfold AgentRuntime.inputIdOf
    split
    · exact hop huuid
    · exact hop huuid
    · trivial
  rw [handOff_eq] at h
  obtain ⟨r₁, t, hqueue, hrest⟩ := Prog.runs_within (Prog.surrounds_tryCatch _) h
  have hsteer : (steer rt e text promptId).Completes Replies
      (fun a => ∃ id, a = .enqueued id) := by
    refine Prog.completes_bind (hop hnow) (fun instant _ => ?_)
    exact Prog.completes_bind (hsubmit _) (fun item _ => ⟨_, rfl⟩)
  obtain ⟨⟨a, rfl, id, rfl⟩, hrunning'⟩ :=
    Prog.runs_completes rely_refl rely_trans hmove hdo hsteer hqueue hrunning
  have hend : Ran out self i (.ofExcept (.ok (.enqueued id))) t (.ofExcept r) u := hrest
  obtain ⟨hr, hlast⟩ := Prog.runs_ended rely_refl rely_trans hend
  exact ⟨⟨id, hr.symm⟩, hmove _ _ hlast hrunning'⟩

end

section
variable (out : Outside) (self : Nat → Nat) (i : Nat)
variable (rt : AgentRuntime) (e : Execution) (agent : Agent) (text : String)
variable (promptId controls : Option String) (rulesVersion : String)
variable (s : Scene) (r : Except Exn Applied) (u : Scene)

/-- The dispatch started an attempt whose agent was given the prompt, unless it was recorded under
its id before. -/
def Attempted : Prop :=
  ∃ owner token prompt history t,
    Ran out self i (rt.dispatch e agent (.prompt text promptId) controls rulesVersion) s
      (routed rt e text promptId
        (underway rt e agent promptId controls rulesVersion owner token prompt history)) t ∧
    Ran out self i (routed rt e text promptId
      (underway rt e agent promptId controls rulesVersion owner token prompt history)) t
      (.ofExcept r) u ∧
    (prompt = some text ∨ Recorded promptId (log i u.events))

/-- One channel: an attempt with the prompt and nothing of it left to claim, or one record of it,
unless it was recorded before, and no attempt. -/
def DeliveredOnce : Prop :=
  (Attempted out self i rt e agent text promptId controls rulesVersion s r u ∧
    (u.attempts (self i)).running = true ∧ copies (log i u.events) = []) ∨
  ((u.attempts (self i)).running = false ∧ ((added (log i u.events)).length = 1 ∨
    added (log i u.events) = [] ∧ Recorded promptId (log i u.events)))

/-- The agent had begun to run when its attempt raised `Contended`. -/
def Surfaced : Prop :=
  ∃ b t, Ran out self i (rt.dispatch e agent (.prompt text promptId) controls rulesVersion) s
      (routed rt e text promptId (.raise (.store (.contended b)))) t ∧
    (t.attempts (self i)).running = true ∧
    Ran out self i (routed rt e text promptId (.raise (.store (.contended b)))) t (.ofExcept r) u

end

section
variable {rt : AgentRuntime} {e : Execution} {agent : Agent} {text : String}
variable {promptId controls : Option String} {rulesVersion : String} {r : Except Exn Applied}

theorem surfaced_enqueues (hstore : rt.executionStore = true)
    (h : Surfaced out self i rt e agent text promptId controls rulesVersion s r u) :
    (∃ id, r = .ok (.enqueued id)) ∧ (u.attempts (self i)).running = true := by
  obtain ⟨b, t, -, hrunning, hrest⟩ := h
  exact handOff_enqueues (b := b) hstore hrunning hrest

/-- One submission from an untouched queue: one record, or the one that is there. -/
theorem submitted_once {b : String}
    (h : Submitted out self i b promptId [] [] [] false s u) :
    (u.attempts (self i)).running = false ∧ ((added (log i u.events)).length = 1 ∨
      added (log i u.events) = [] ∧ Recorded promptId (log i u.events)) := by
  rcases h with ⟨id, hid, -, -, hk | ⟨-, hk⟩⟩ | ⟨-, -, id, hk⟩ <;>
    obtain ⟨hadded, hfound, -, hrunning⟩ := hk
  · exact ⟨hrunning, .inr ⟨hadded, id, hid, by rw [hfound]; exact List.mem_cons_self⟩⟩
  · exact ⟨hrunning, .inl (by rw [hadded]; rfl)⟩
  · exact ⟨hrunning, .inl (by rw [hadded]; rfl)⟩

/-- A second submission finds what the first one put there, unless both mint an id. -/
theorem submitted_twice {b : String}
    (h : Submitted out self i b promptId [] [] [] false s t)
    (h' : ∀ {new known live}, Knows self i new known live false t →
      (¬ Named promptId → Fresh out t.world) →
      Submitted out self i b promptId new known live false t u) :
    (Named promptId ∧ (u.attempts (self i)).running = false ∧
      ((added (log i u.events)).length = 1 ∨
        added (log i u.events) = [] ∧ Recorded promptId (log i u.events))) ∨
    (¬ Named promptId ∧ (u.attempts (self i)).running = false ∧
      (added (log i u.events)).length = 2) := by
  have hagain : ∀ {id new known live}, promptId = some id → id ≠ "" →
      (t.world.store.inputs.get? (b, id)).isSome → Knows self i new known live false t →
      Knows self i new (known ++ [id]) live false u := by
    intro id new known live hid hne hrow hk
    have hnamed : Named promptId := ⟨id, hid, hne⟩
    rcases h' hk (fun hn => absurd hnamed hn) with
      ⟨id', hid', -, -, hk' | ⟨habsent, -⟩⟩ | ⟨hn, -⟩
    · obtain rfl : id' = id := Option.some.inj (hid'.symm.trans hid)
      exact hk'
    · obtain rfl : id' = id := Option.some.inj (hid'.symm.trans hid)
      rw [habsent] at hrow
      cases hrow
    · exact absurd hnamed hn
  rcases h with ⟨id, hid, hne, hrow, hk | ⟨-, hk⟩⟩ | ⟨hnamed, hfresh, id, hk⟩
  · obtain ⟨hadded, hfound, -, hrunning⟩ := hagain hid hne hrow hk
    exact .inl ⟨⟨id, hid, hne⟩, hrunning,
      .inr ⟨hadded, id, hid, by rw [hfound]; exact List.mem_cons_self⟩⟩
  · obtain ⟨hadded, -, -, hrunning⟩ := hagain hid hne hrow hk
    exact .inl ⟨⟨id, hid, hne⟩, hrunning, .inl (by rw [hadded]; rfl)⟩
  · rcases h' hk (fun _ => hfresh) with ⟨id', hid', hne', -⟩ | ⟨-, -, id', hk'⟩
    · exact absurd ⟨id', hid', hne'⟩ hnamed
    · obtain ⟨hadded, -, -, hrunning⟩ := hk'
      exact .inr ⟨hnamed, hrunning, by rw [hadded]; rfl⟩

theorem run_parts (hstore : rt.executionStore = true) :
    rt.run e agent (some text) (options promptId controls rulesVersion) =
      (perform (.ledger (.read (View.filed ⟨e.conversationId⟩ e.branchId)
        Effects.activeSuspension))).bind (fun record =>
          match AgentRuntime.liveSuspension record with
          | some active => rt.queueBehind e active text promptId
          | none => rt.lease e (fun token => rt.attemptRun e token agent (some text)
              (options promptId controls rulesVersion))) := by
  unfold AgentRuntime.run AgentRuntime.active AgentRuntime.requireStore AgentRuntime.storeFor
  rw [if_pos hstore]
  dsimp only
  rw [if_pos hstore]
  exact Prog.bind_assoc (perform (.ledger (.read _ _))) (fun record => .ret _) _

/-- The four ways a dispatch of a prompt ends. -/
theorem dispatch_ends (hstore : rt.executionStore = true) (htranscript : rt.transcript = true)
    (gathers : Gathers agent.toPydanticAI) (hstart : log i s.events = [])
    (hidle : (s.attempts (self i)).running = false) (hfresh : Fresh out s.world)
    (h : Ran out self i (rt.dispatch e agent (.prompt text promptId) controls rulesVersion) s
      (.ofExcept r) u) :
    -- One record, or none because it is there.
    ((Named promptId ∨ ¬ Answered (log i u.events)) ∧ (u.attempts (self i)).running = false ∧
      ((added (log i u.events)).length = 1 ∨
        added (log i u.events) = [] ∧ Recorded promptId (log i u.events))) ∨
    -- A record from behind the continuation, and another from the hand-off.
    (¬ Named promptId ∧ Answered (log i u.events) ∧ (u.attempts (self i)).running = false ∧
      (added (log i u.events)).length = 2) ∨
    -- An attempt.
    ((Named promptId ∨ ¬ Answered (log i u.events) ∧ ∀ id, r ≠ .ok (.enqueued id)) ∧
      Attempted out self i rt e agent text promptId controls rulesVersion s r u ∧
      (u.attempts (self i)).running = true ∧ copies (log i u.events) = []) ∨
    -- An attempt, and a record from the hand-off.
    (¬ Named promptId ∧
      Surfaced out self i rt e agent text promptId controls rulesVersion s r u ∧
      (u.attempts (self i)).running = true ∧ copies (log i u.events) ≠ []) := by
  have hsurrounds := routed_surrounds rt e text promptId
  have hk : Knows self i [] [] [] false s := by
    refine ⟨?_, ?_, ?_, hidle⟩ <;> rw [hstart] <;> rfl
  rw [dispatch_routed rt e agent text promptId controls rulesVersion hstore htranscript] at h
  obtain ⟨r₁, t, hrun, hrest⟩ := Prog.runs_within hsurrounds h
  have hrun₁ := hrun
  rw [run_parts hstore] at hrun₁
  obtain ⟨record, t₁, hk₁, hkeeps₁, hlog₁, hto₁, h₁⟩ := next_plain (plain_read _ _) hk hrun₁
  obtain ⟨more, hmore⟩ := ran_log (h₁.trans (.refl _ _))
  obtain ⟨more', hmore'⟩ := ran_log hrest
  rw [hstart] at hlog₁
  rw [hmore, hlog₁] at hmore'
  have hanswered : Answered (log i u.events) ↔ ∃ active,
      AgentRuntime.liveSuspension record = some active ∧ AgentRuntime.undecided active = [] := by
    rw [hmore']
    cases record with
    | done value =>
      cases value with
      | suspension active =>
        constructor
        · exact fun hnone => ⟨active, rfl, hnone⟩
        · rintro ⟨_, ⟨⟩, hnone⟩
          exact hnone
      | _ => exact ⟨fun hno => False.elim hno, fun ⟨_, hno, _⟩ => nomatch hno⟩
    | _ => exact ⟨fun hno => False.elim hno, fun ⟨_, hno, _⟩ => nomatch hno⟩
  have hraised : ∀ {error : Exn}, (∀ b, error ≠ .store (.contended b)) → r₁ = .error error →
      r = .error error ∧ Rely out self i t u := by
    rintro error hother rfl
    have hend : Ran out self i (handOff rt e text promptId error) t (.ofExcept r) u := hrest
    rw [handOff_other hother] at hend
    have hend' : Ran out self i (.ofExcept (.error error)) t (.ofExcept r) u := hend
    obtain ⟨hr, hmove⟩ := Prog.runs_ended rely_refl rely_trans hend'
    exact ⟨hr.symm, hmove⟩
  cases hparked : AgentRuntime.liveSuspension record with
  | some active =>
    have hbehind : Ran out self i (rt.queueBehind e active text promptId) t₁ (.ofExcept r₁) t := by
      rw [hparked] at h₁
      exact h₁
    obtain ⟨hr₁, hsubmitted⟩ := ran_queueBehind hstore hk₁ (fun _ => hkeeps₁.1 hfresh) hbehind
    by_cases hnone : AgentRuntime.undecided active = []
    · rw [if_pos hnone] at hr₁
      subst hr₁
      have hans : Answered (log i u.events) := hanswered.mpr ⟨active, hparked, hnone⟩
      rcases submitted_twice hsubmitted (fun hk' hf => ran_handOff (b := e.branchId) hstore hk' hf
        hrest) with ⟨hnamed, hrunning, hone⟩ | ⟨hnamed, hrunning, htwo⟩
      · exact .inl ⟨.inl hnamed, hrunning, hone⟩
      · exact .inr (.inl ⟨hnamed, hans, hrunning, htwo⟩)
    · rw [if_neg hnone] at hr₁
      have hother : ∀ b, Exn.agentSuspended (AgentRuntime.undecided active) ≠
          .store (.contended b) := fun b he => nomatch he
      obtain ⟨-, hmove⟩ := hraised hother hr₁
      obtain ⟨hrunning, hone⟩ := submitted_once (hsubmitted.left hmove)
      refine .inl ⟨.inr ?_, hrunning, hone⟩
      intro hans
      obtain ⟨active', hactive, hall⟩ := hanswered.mp hans
      rw [hparked] at hactive
      cases hactive
      exact hnone hall
  | none =>
    have hunanswered : ¬ Answered (log i u.events) := by
      intro hans
      obtain ⟨active, hactive, -⟩ := hanswered.mp hans
      rw [hparked] at hactive
      cases hactive
    have hlease : Ran out self i (rt.lease e (fun token => rt.attemptRun e token agent (some text)
        (options promptId controls rulesVersion))) t₁ (.ofExcept r₁) t := by
      rw [hparked] at h₁
      exact h₁
    have hbefore := hto₁
    rw [hparked, ← run_parts hstore] at hbefore
    have hcame := ran_lease hstore gathers hk₁ (hkeeps₁.1 hfresh) hlease
    cases hcame with
    | refused hk₂ hfresh₂ =>
      obtain ⟨hrunning, hone⟩ := submitted_once (ran_handOff (b := e.branchId) hstore hk₂
        (fun _ => hfresh₂) hrest)
      exact .inl ⟨.inr hunanswered, hrunning, hone⟩
    | unadmitted hother hk₂ =>
      obtain ⟨-, hmove⟩ := hraised hother rfl
      obtain ⟨hadded, -, -, hrunning⟩ := knows_rely hk₂ hmove
      exact .inl ⟨.inr hunanswered, hrunning, .inl (by rw [hadded]; rfl)⟩
    | @started owner token prompt history new known t₂ _ hpre hpost hcarries hk₂ hrow hfresh₂ =>
      have hdispatch := dispatch_routed rt e agent text promptId controls rulesVersion hstore
        htranscript
      have hattempted : ∀ {new' known'}, Knows self i new' known' [] true u →
          (∀ id ∈ known, id ∈ known') →
          Attempted out self i rt e agent text promptId controls rulesVersion s r u := by
        intro new' known' hk₃ hsub
        refine ⟨owner, token, prompt, history, t₂, ?_, (hpost.within hsurrounds).trans hrest, ?_⟩
        · rw [hdispatch]
          exact (hbefore.trans hpre).within hsurrounds
        · rcases hcarries with hsome | ⟨id, hid, hmem⟩
          · exact .inl hsome
          · exact .inr ⟨id, hid, by rw [hk₃.found]; exact hsub id hmem⟩
      cases r₁ with
      | ok outcome =>
        have hend : Ran out self i (.ofExcept (.ok (.outcome outcome))) t (.ofExcept r) u := hrest
        obtain ⟨rfl, hmove⟩ := Prog.runs_ended rely_refl rely_trans hend
        have hk₃ := knows_rely hk₂ hmove
        exact .inr (.inr (.inl ⟨.inr ⟨hunanswered, fun id he => nomatch he⟩,
          hattempted hk₃ (fun _ h => h), hk₃.running, hk₃.copies⟩))
      | error error =>
        by_cases hcontended : ∃ b, error = .store (.contended b)
        · obtain ⟨b, rfl⟩ := hcontended
          rcases ran_handOff (b := b) hstore hk₂ hfresh₂ hrest with
            ⟨id, hid, hne, -, hk₃ | ⟨habsent, -⟩⟩ | ⟨hnamed, -, id, hk₃⟩
          · exact .inr (.inr (.inl ⟨.inl ⟨id, hid, hne⟩,
              hattempted hk₃ (fun _ h => List.mem_append_left _ h), hk₃.running, hk₃.copies⟩))
          · have hthere := hrow id hid
            rw [habsent] at hthere
            cases hthere
          · refine .inr (.inr (.inr ⟨hnamed, ⟨b, t, ?_, hk₂.running, hrest⟩, hk₃.running, ?_⟩))
            · rw [hdispatch]
              exact hrun.within hsurrounds
            · rw [hk₃.copies]
              exact List.cons_ne_nil _ _
        · have hother : ∀ b, error ≠ .store (.contended b) := fun b he => hcontended ⟨b, he⟩
          obtain ⟨rfl, hmove⟩ := hraised hother rfl
          have hk₃ := knows_rely hk₂ hmove
          exact .inr (.inr (.inl ⟨.inr ⟨hunanswered, fun id he => nomatch he⟩,
            hattempted hk₃ (fun _ h => h), hk₃.running, hk₃.copies⟩))

/-- The claim that a dispatched prompt always goes through one channel. -/
def AlwaysOnce : Prop :=
  ∀ (out : Outside) (self : Nat → Nat) (i : Nat) (rt : AgentRuntime) (e : Execution)
    (agent : Agent) (text : String) (promptId controls : Option String) (rulesVersion : String)
    (s : Scene) (r : Except Exn Applied) (u : Scene),
    rt.executionStore = true → rt.transcript = true → Gathers agent.toPydanticAI →
    log i s.events = [] → (s.attempts (self i)).running = false → Fresh out s.world →
    Ran out self i (rt.dispatch e agent (.prompt text promptId) controls rulesVersion) s
      (.ofExcept r) u →
    DeliveredOnce out self i rt e agent text promptId controls rulesVersion s r u

end

end

/-! A worker that died between the last answer and the rest of the run. -/

def talker : Agent := { PydanticAI.standard (fun _ => "") ["tool"] 8 with }

def mute : Outside :=
  .answering (fun _ _ _ => .error .exit) (fun _ _ => .error .exit) (fun _ _ _ => .error .exit)

/-- The continuation of one call, with its answer. -/
def decided : Suspension where
  state := .waiting
  conversationId := "run"
  callId := "call"
  continuation :=
    { calls := [(⟨"tool", .null, "call"⟩, { pendingId := some "ask" })], messages := []
      completed := [], rulesVersion := "", turn := 1, subject := "" }
  callIds := ["call"]
  answers := [("call", {})]

def parked : Scene :=
  ⟨{ store := ({} : MemorySteps Value).put "run" Effects.activeSuspension
      (.done (.suspension decided)) }, fun _ => {}, []⟩

theorem parked_fresh : Fresh mute parked.world := fun _ _ _ => rfl

def prompted (promptId : Option String) : Except Exn Applied × Scene :=
  (({} : AgentRuntime).dispatch ⟨"run", none, none⟩ talker (.prompt "hi" promptId) none "").eval
    (Scene.perform mute id 0) parked

theorem prompted_ran (promptId : Option String) :
    Ran mute id 0 (({} : AgentRuntime).dispatch ⟨"run", none, none⟩ talker
      (.prompt "hi" promptId) none "") parked (.ofExcept (prompted promptId).1)
      (prompted promptId).2 :=
  Prog.Runs.eval (.refl _ _)

end Semora.Proofs.OneChannel
