import Semora.Runtime.Dispatch

/-! Which operations a run of the agent performs: what every frame argument about it needs. -/

namespace Semora.Proofs
open Semora.Lib Semora.Store Semora.Transcript

/-- The update is no fresh start: what the attempt has claimed it has claimed. -/
def Keeps (f : Attempt → Attempt) : Prop := ∀ a, a.seen <+: (f a).seen

/-- What an attempt holds of its conversation. -/
def talk (a : Attempt) : (List ModelMessage × Option ModelRequest) × (Bool × Bool × Bool) × Branch :=
  ((a.messages, a.request), (a.running, a.reentered, a.closing), a.branch)

/-- How far an operation reaches: past no step of the ledger, to the steps alone, or out to the
tools and the provider. -/
inductive Reach
  | mute
  | steps
  | effects
deriving DecidableEq

/-- An operation an attempt may perform behind this boundary, between its start and its end; a
quiet one leaves the conversation alone. -/
inductive Performs (eff : Effects) (quiet : Bool) (reach : Reach) : Op → Prop
  | get : Performs eff quiet reach .get
  | modify (f : Attempt → Attempt) (keeps : Keeps f)
      (apart : quiet = true → ∀ a, talk (f a) = talk a) : Performs eff quiet reach (.modify f)
  | now : Performs eff quiet reach .now
  | ask (plane : String) (q : Question) : Performs eff quiet reach (.ask plane q)
  | handle (call : ToolCall) (args : Json) (out : reach = .effects) :
      Performs eff quiet reach (.handle call args)
  | provide (r : RequestContext) (out : reach = .effects) : Performs eff quiet reach (.provide r)
  | append (entry : Entry) (recorder : Recorder) (h : eff.record = some recorder)
      (conversation : entry.conversationId = recorder.conversation) (loud : quiet = false) :
      Performs eff quiet reach (.append entry)
  | read (v : View) (h : eff.store = some v) (k : String)
      (hk : (reach ≠ .mute ∧ ∃ id, k = Effects.stepKey id ∨ k = Effects.afterKey id) ∨
        reach = .effects ∧ ∃ digest, k = Effects.modelKey digest) :
      Performs eff quiet reach (.ledger (.read (v.filed eff.branchId) k))
  | start (v : View) (h : eff.store = some v) (k : String) (hk : Effects.EffectKey k)
      (past : reach ≠ .mute) :
      Performs eff quiet reach (.ledger (.start (v.filed eff.branchId) k eff.token))
  | finishEffect (v : View) (h : eff.store = some v) (k : String) (hk : Effects.EffectKey k)
      (value : Value) (past : reach ≠ .mute) :
      Performs eff quiet reach (.ledger (.finishEffect (v.filed eff.branchId) k value eff.token))
  | forget (v : View) (h : eff.store = some v) (k : String) (hk : Effects.EffectKey k)
      (past : reach ≠ .mute) :
      Performs eff quiet reach (.ledger (.forget (v.filed eff.branchId) k eff.token))
  | writeControl (v : View) (h : eff.store = some v) (k : String) (value : Value)
      (hk : k = Effects.pendingRound ∨ ∃ id, k = Effects.afterKey id) :
      Performs eff quiet reach (.ledger (.writeControl (v.filed eff.branchId) k value eff.token))
  | listInputs (v : View) (h : eff.inputs = some v) :
      Performs eff quiet reach (.ledger (.listInputs (v.filed eff.branchId)))
  | claimInput (v : View) (h : eff.inputs = some v) (id : String) :
      Performs eff quiet reach (.ledger (.claimInput (v.filed eff.branchId) id eff.token))
  | admitInputs (v : View) (h : eff.inputs = some v) (ids : List String) :
      Performs eff quiet reach (.ledger (.admitInputs (v.filed eff.branchId) ids eff.token))
  | discardInputs (v : View) (h : eff.inputs = some v) (ids : List String) :
      Performs eff quiet reach (.ledger (.discardInputs (v.filed eff.branchId) ids eff.token))
  | enqueueInput (v : View) (h : eff.inputs = some v) (id : String) (value : Value) :
      Performs eff quiet reach (.ledger (.enqueueInput (v.filed eff.branchId) id value))

/-- Pydantic AI performs no operation of its own while it gathers the calls of a round. -/
def Gathers (ai : PydanticAI) : Prop :=
  ∀ (P : Op → Prop) (calls : List (Program (ToolCall × CallOutcome))),
    (∀ call ∈ calls, call.AllOps P) → (ai.gather calls).AllOps P

theorem gathers_standard (digest : Json → String) (unapproved : List String) (nodeLimit : Nat) :
    Gathers (.standard digest unapproved nodeLimit) := by
  intro P calls hcalls
  simp only [PydanticAI.standard]
  induction calls with
  | nil => trivial
  | cons call calls ih =>
    refine Prog.allOps_bind (hcalls call List.mem_cons_self) (fun outcome => ?_)
    exact Prog.allOps_bind (ih (fun c hc => hcalls c (List.mem_cons_of_mem _ hc))) (fun _ => trivial)

section
variable {eff : Effects} {quiet : Bool} {reach : Reach}

abbrev Within (eff : Effects) (quiet : Bool) (reach : Reach) {α : Type} (p : Program α) : Prop :=
  p.AllOps (Performs eff quiet reach)

theorem within_perform {o : Op} (h : Performs eff quiet reach o) : Within eff quiet reach (perform o) :=
  (Prog.allOps_op o).mpr h

theorem within_attempt : Within eff quiet reach attempt := within_perform .get

/-- An update of anything but the conversation and what was claimed. -/
theorem within_set {f : Attempt → Attempt} (h : ∀ a, (f a).seen = a.seen)
    (apart : ∀ a, talk (f a) = talk a) : Within eff quiet reach (update f) := by
  refine within_perform (.modify f (fun a => ?_) (fun _ => apart))
  exact (h a).symm ▸ List.prefix_rfl

/-- An update of the conversation. -/
theorem within_talk {f : Attempt → Attempt} (h : ∀ a, (f a).seen = a.seen) :
    Within eff false reach (update f) := by
  refine within_perform (.modify f (fun a => ?_) (by simp))
  exact (h a).symm ▸ List.prefix_rfl

theorem within_ask (plane : String) (q : Question) : Within eff quiet reach (Effects.ask plane q) :=
  within_perform (.ask plane q)

theorem within_ctx (messages : List ModelMessage) : Within eff quiet reach (eff.ctx messages) :=
  Prog.allOps_bind within_attempt (fun _ => trivial)

/-! The tool boundary. -/

theorem within_readStep (past : reach ≠ .mute) {key : String}
    (hk : ∃ id, key = Effects.stepKey id ∨ key = Effects.afterKey id) :
    Within eff quiet reach (eff.readStep key) := by
  unfold Effects.readStep
  split
  · trivial
  · exact within_perform (.read _ ‹_› key (.inl ⟨past, hk⟩))

theorem within_recorded (past : reach ≠ .mute) (call : ToolCall) :
    Within eff quiet reach (eff.recorded call) :=
  Prog.allOps_bind (within_readStep past ⟨_, .inl rfl⟩) (fun _ => trivial)

theorem within_gate (here : Ctx) (call : ToolCall) : Within eff quiet reach (eff.gate here call) := by
  refine Prog.allOps_bind ?_ (fun decision => Prog.allOps_bind within_attempt (fun _ => trivial))
  unfold Effects.policy
  split
  · trivial
  · exact within_ask _ _

theorem within_resumeDecision (here : Ctx) (call : ToolCall) :
    Within eff quiet reach (eff.resumeDecision here call) := by
  unfold Effects.resumeDecision
  split
  · exact within_ask _ _
  · trivial

theorem within_replayed (past : reach ≠ .mute) (call : ToolCall) :
    Within eff quiet reach (eff.replayed call) := by
  unfold Effects.replayed
  split
  · trivial
  · exact within_recorded past call

theorem within_verdict (past : reach ≠ .mute) (approved : Bool) (call : ToolCall) (args : Json) :
    Within eff quiet reach (eff.verdict approved call args) := by
  refine Prog.allOps_bind (within_ctx _) (fun here =>
    Prog.allOps_bind (within_replayed past call) (fun replayed => ?_))
  split
  · trivial
  · split
    · exact Prog.allOps_bind (within_resumeDecision _ _) (fun _ => trivial)
    · exact Prog.allOps_bind (within_gate _ _) (fun _ => trivial)

theorem within_enforce (call : ToolCall) (args : Json) (decision : ToolDecision) :
    Within eff quiet reach (Effects.enforce call args decision) := by
  cases decision with
  | «continue» => exact Prog.allOps_bind (within_set (fun _ => rfl) (fun _ => rfl)) (fun _ => trivial)
  | deny result => exact Prog.allOps_bind (within_set (fun _ => rfl) (fun _ => rfl)) (fun _ => trivial)
  | suspend request =>
    simp only [Effects.enforce]
    split
    · trivial
    · exact Prog.allOps_bind (within_set (fun _ => rfl) (fun _ => rfl))
        (fun _ => Prog.allOps_bind (within_set (fun _ => rfl) (fun _ => rfl)) (fun _ => trivial))

theorem within_clearIntent (past : reach ≠ .mute) (call : ToolCall) {key : Option String}
    (hkey : key = none ∨ key = some (Effects.stepKey call.toolCallId)) :
    Within eff quiet reach (eff.clearIntent key) := by
  unfold Effects.clearIntent
  split
  · rcases hkey with h | h
    · cases h
    · cases h
      exact within_perform (.forget _ ‹_› _ (.inl ⟨_, rfl⟩) past)
  · trivial

theorem within_finishStep (past : reach ≠ .mute) (call : ToolCall) {key : Option String}
    (hkey : key = none ∨ key = some (Effects.stepKey call.toolCallId)) (record : Record) :
    Within eff quiet reach (eff.finishStep key record) := by
  unfold Effects.finishStep
  split
  · rcases hkey with h | h
    · cases h
    · cases h
      exact within_perform (.finishEffect _ ‹_› _ (.inl ⟨_, rfl⟩) _ past)
  · trivial

theorem within_caught (past : reach ≠ .mute) (call : ToolCall) {key : Option String}
    (hkey : key = none ∨ key = some (Effects.stepKey call.toolCallId)) (error : Exn) :
    Within eff quiet reach (eff.caught key error) := by
  unfold Effects.caught
  split
  · exact Prog.allOps_bind (within_clearIntent past call hkey) (fun _ => trivial)
  · split <;> trivial

theorem within_execute (call : ToolCall) {key : Option String}
    (hkey : key = none ∨ key = some (Effects.stepKey call.toolCallId)) (args : Json) :
    Within eff quiet .effects (eff.execute key args (fun args => perform (.handle call args))) := by
  refine Prog.allOps_bind (Prog.allOps_tryCatch ?_ (within_caught (by decide) call hkey))
    (fun record => Prog.allOps_bind (within_finishStep (by decide) call hkey record) (fun _ => trivial))
  exact Prog.allOps_bind (within_perform (.handle call args rfl)) (fun _ => trivial)

theorem within_runStep (call : ToolCall) {v : View} (h : eff.store = some v) (args : Json) :
    Within eff quiet .effects (eff.runStep v (Effects.stepKey call.toolCallId) args
      (fun args => perform (.handle call args))) := by
  refine Prog.allOps_bind (within_perform (.start v h _ (.inl ⟨_, rfl⟩) (by decide))) (fun inserted => ?_)
  split
  · exact within_execute call (.inr rfl) args
  · trivial

theorem within_runOrReplay (call : ToolCall) (args : Json) :
    Within eff quiet .effects (eff.runOrReplay call args (fun args => perform (.handle call args))) := by
  unfold Effects.runOrReplay
  split
  · exact within_execute call (.inl rfl) args
  · rename_i v h
    refine Prog.allOps_bind (within_perform (.read v h _ (.inl ⟨by decide, _, .inl rfl⟩))) (fun read => ?_)
    cases read with
    | done value => cases value <;> trivial
    | running =>
      simp only
      split
      · exact Prog.allOps_bind (within_perform (.forget v h _ (.inl ⟨_, rfl⟩) (by decide)))
          (fun _ => within_runStep call h args)
      · trivial
    | absent => exact within_runStep call h args

theorem within_journalOnce (past : reach ≠ .mute) (call : ToolCall) (record : Record) :
    Within eff quiet reach (eff.journalOnce call record) := by
  have hproject : ∀ plane, Within eff quiet reach (eff.project plane call record) := by
    intro plane
    refine Prog.allOps_bind (within_ctx _) (fun here => ?_)
    cases record <;> exact Prog.allOps_bind (within_ask _ _) (fun _ => trivial)
  refine Prog.allOps_bind (within_readStep past ⟨_, .inr rfl⟩) (fun journaled => ?_)
  split
  · trivial
  · trivial
  · split
    · trivial
    · refine Prog.allOps_bind (hproject _) (fun projected => Prog.allOps_bind ?_ (fun _ => trivial))
      unfold Effects.journal
      split
      · trivial
      · exact within_perform (.writeControl _ ‹_› _ _ (.inr ⟨_, rfl⟩))

theorem within_executeCall (ai : PydanticAI) (call : ToolCall) (approval : Option Approval) :
    Within eff quiet .effects (ai.executeCall eff call approval) := by
  have hhooks : ∀ approved args, Within eff quiet .effects (PydanticAI.throughHooks eff approved call args) := by
    intro approved args
    refine Prog.allOps_tryCatch ?_ (fun e => by cases e <;> trivial)
    refine Prog.allOps_bind (Prog.allOps_bind (within_verdict (by decide) _ _ _)
      (fun asked => within_enforce _ _ _)) (fun args => Prog.allOps_bind ?_ (fun _ => trivial))
    refine Prog.allOps_bind (within_runOrReplay call args) (fun step =>
      Prog.allOps_bind (within_journalOnce (by decide) call step) (fun record => ?_))
    cases record <;> trivial
  unfold PydanticAI.executeCall
  split
  · trivial
  · split
    · trivial
    · exact hhooks _ _
  · split
    · trivial
    · exact hhooks _ _

/-! The model boundary. -/

theorem within_requestOnce {v : View} (h : eff.store = some v) {key : String}
    (hkey : Effects.EffectKey key) (request : RequestContext) :
    Within eff quiet .effects (eff.requestOnce v key request (fun request => perform (.provide request))) := by
  refine Prog.allOps_bind (within_perform (.start v h key hkey (by decide))) (fun inserted => ?_)
  split
  · refine Prog.allOps_bind (Prog.allOps_tryCatch (within_perform (.provide request rfl)) ?_)
      (fun response => Prog.allOps_bind (within_perform (.finishEffect v h key hkey _ (by decide)))
        (fun _ => trivial))
    intro error
    unfold Effects.unasked
    split
    · trivial
    · exact Prog.allOps_bind (within_perform (.forget v h key hkey (by decide))) (fun _ => trivial)
  · trivial

theorem within_wrapModelRequest (digest : Json → String) (request : RequestContext) :
    Within eff quiet .effects (eff.wrapModelRequest digest request (fun request => perform (.provide request))) := by
  unfold Effects.wrapModelRequest
  split
  · exact within_perform (.provide request rfl)
  · rename_i v h
    have hkey : Effects.EffectKey (Effects.modelStepKey digest request) := .inr ⟨_, rfl⟩
    refine Prog.allOps_bind (within_perform (.read v h _ (.inr ⟨rfl, _, rfl⟩))) (fun read => ?_)
    cases read with
    | done value => cases value <;> trivial
    | running =>
      simp only
      split
      · exact Prog.allOps_bind (within_perform (.forget v h _ hkey (by decide)))
          (fun _ => within_requestOnce h hkey request)
      · trivial
    | absent => exact within_requestOnce h hkey request

/-! The turn-level control points. -/

theorem within_claimRows {v : View} (h : eff.inputs = some v) (represented : List String)
    (rows : List (InputRecord Value)) :
    Within eff quiet reach (InputSession.claimRows v eff.branchId eff.token represented rows) := by
  induction rows with
  | nil => trivial
  | cons row rows ih =>
    refine Prog.allOps_bind within_attempt (fun a => ?_)
    split
    · exact ih
    · refine Prog.allOps_bind (within_perform (.claimInput v h _)) (fun _ =>
        Prog.allOps_bind (within_perform (.modify _ (fun _ => List.prefix_append _ _) (fun _ _ => rfl))) (fun _ => Prog.allOps_bind ?_ (fun item =>
          Prog.allOps_bind ih (fun _ => trivial))))
      cases row.value <;> trivial

theorem within_claim {v : View} (h : eff.inputs = some v) (represented : List String) :
    Within eff quiet reach (InputSession.claim v eff.branchId eff.token represented) :=
  Prog.allOps_bind (within_perform (.listInputs v h)) (fun rows => within_claimRows h _ rows)

theorem within_drain : Within eff quiet reach eff.drain := by
  refine Prog.allOps_bind within_attempt (fun a => Prog.allOps_bind (within_set (fun _ => rfl) (fun _ => rfl)) (fun _ => ?_))
  split
  · trivial
  · exact Prog.allOps_bind (within_claim ‹_› _) (fun _ => trivial)

theorem within_screen (plane : String) (here : Ctx) (pending inputs : List PendingInput) :
    Within eff quiet reach (eff.screen plane here pending inputs) := by
  unfold Effects.screen
  split
  · trivial
  · refine Prog.allOps_bind (within_ask _ _) (fun answer => ?_)
    split
    · refine Prog.allOps_bind ?_ (fun _ => trivial)
      unfold InputSession.discard
      split
      · trivial
      · exact within_perform (.discardInputs _ ‹_› _)
    · trivial

theorem within_steered (request : ModelRequest) (pending : List PendingInput) :
    Within eff quiet reach (eff.steered request pending) := by
  unfold Effects.steered
  split
  · trivial
  · refine Prog.allOps_bind (Prog.allOps_bind within_attempt (fun a => within_ctx _)) (fun here =>
      Prog.allOps_bind (within_screen _ _ _ _) (fun screened => ?_))
    split
    · trivial
    · refine Prog.allOps_bind (within_ask _ _) (fun decision => ?_)
      cases decision <;> trivial

theorem within_appendLeaf {recorder : Recorder} (h : eff.record = some recorder)
    (leaf : Option Uuid) : Within eff false reach (appendLeaf recorder.conversation leaf) :=
  Prog.allOps_bind (within_perform .now) (fun _ =>
    Prog.allOps_bind (within_perform (.append _ recorder h rfl rfl)) (fun _ => trivial))

theorem within_record {recorder : Recorder} (h : eff.record = some recorder)
    (message : ModelMessage) : Within eff false reach (record recorder.conversation message) := by
  refine Prog.allOps_bind within_attempt (fun a => Prog.allOps_bind (within_perform .now)
    (fun instant => Prog.allOps_bind (within_perform (.append _ recorder h rfl rfl)) (fun appended =>
      Prog.allOps_bind (within_talk (fun _ => rfl)) (fun _ => Prog.allOps_bind ?_ (fun _ => trivial)))))
  unfold relink
  split
  · trivial
  · exact within_appendLeaf h _

theorem within_append {recorder : Recorder} (h : eff.record = some recorder)
    (messages : List ModelMessage) : Within eff false reach (Branch.append recorder.conversation messages) := by
  induction messages with
  | nil => trivial
  | cons message messages ih =>
    exact Prog.allOps_bind (within_record h message) (fun _ =>
      Prog.allOps_bind (within_talk (fun _ => rfl)) (fun _ => ih))

theorem within_replace {recorder : Recorder} (h : eff.record = some recorder)
    (desired : List ModelMessage) : Within eff false reach (Branch.replace recorder.conversation desired) := by
  refine Prog.allOps_bind within_attempt (fun a =>
    Prog.allOps_bind ?_ (fun _ => within_append h _))
  unfold Branch.cut
  split
  · exact Prog.allOps_bind (Prog.allOps_bind (within_appendLeaf h _)
      (fun _ => within_talk (fun _ => rfl))) (fun _ => within_talk (fun _ => rfl))
  · trivial

theorem within_recordMessage (message : ModelMessage) : Within eff false reach (eff.recordMessage message) := by
  unfold Effects.recordMessage
  split
  · trivial
  · exact within_append ‹_› [message]

theorem within_admitInputs (inputs : List PendingInput) : Within eff quiet reach (eff.admitInputs inputs) := by
  unfold Effects.admitInputs InputSession.admit_
  split
  · trivial
  · split
    · trivial
    · exact within_perform (.admitInputs _ ‹_› _)

theorem within_halt (reason : StopReason) : Within eff quiet reach (Effects.halt reason) :=
  Prog.allOps_bind (within_set (fun _ => rfl) (fun _ => rfl)) (fun _ => Prog.allOps_bind within_attempt (fun _ => trivial))

theorem within_admit (request : ModelRequest) {handler : Node → Program NodeResult}
    (hhandler : ∀ node, Within eff false .effects (handler node)) : Within eff false .effects (eff.admit_ request handler) := by
  refine Prog.allOps_bind within_drain (fun pending =>
    Prog.allOps_bind (within_steered _ _) (fun decision => ?_))
  split
  · exact within_halt _
  · exact Prog.allOps_bind (within_talk (fun _ => rfl)) (fun _ =>
      Prog.allOps_bind (within_recordMessage _) (fun _ =>
        Prog.allOps_bind (within_admitInputs _) (fun _ => hhandler _)))

theorem within_recordPending (response : ModelResponse) :
    Within eff quiet reach (eff.recordPending response) := by
  refine Prog.allOps_bind within_attempt (fun a => ?_)
  split
  · trivial
  · split
    · trivial
    · exact within_perform (.writeControl _ ‹_› _ _ (.inl rfl))

theorem within_lateInputs : Within eff quiet reach eff.lateInputs := by
  refine Prog.allOps_bind within_attempt (fun a => ?_)
  split
  · trivial
  · exact within_claim ‹_› _

theorem within_decideFinish (result : NodeResult) : Within eff quiet reach (eff.decideFinish result) := by
  cases result with
  | node next => trivial
  | finish output =>
    simp only [Effects.decideFinish]
    split
    · trivial
    · refine Prog.allOps_bind within_lateInputs (fun late => ?_)
      split
      · exact Prog.allOps_bind (within_set (fun _ => rfl) (fun _ => rfl)) (fun _ => trivial)
      · split
        · exact Prog.allOps_bind (within_set (fun _ => rfl) (fun _ => rfl)) (fun _ => trivial)
        · refine Prog.allOps_bind (within_ctx _) (fun here =>
            Prog.allOps_bind (within_ask _ _) (fun decision => ?_))
          cases decision with
          | proceed steers => trivial
          | halt reason => exact Prog.allOps_bind (within_set (fun _ => rfl) (fun _ => rfl)) (fun _ => trivial)

theorem within_recordTurn (response : ModelResponse) (result : NodeResult) :
    Within eff false reach (eff.recordTurn response result) := by
  unfold Effects.recordTurn
  split
  · trivial
  · exact within_recordMessage _

theorem within_wrapNodeRun (node : Node) {handler : Node → Program NodeResult}
    (hhandler : ∀ node, Within eff false .effects (handler node)) : Within eff false .effects (eff.wrapNodeRun node handler) := by
  refine Prog.allOps_bind (within_talk (fun _ => rfl)) (fun _ => ?_)
  split
  · exact within_admit _ hhandler
  · exact Prog.allOps_bind (within_talk (fun _ => rfl)) (fun _ =>
      Prog.allOps_bind (within_recordPending _) (fun _ => Prog.allOps_bind (hhandler _) (fun result =>
        Prog.allOps_bind (within_recordTurn _ _) (fun _ => within_decideFinish _))))
  · exact hhandler _

/-! The agent graph. -/

variable {ai : PydanticAI}

theorem within_runNode (gathers : Gathers ai) (prompt : Option Json) (results : DeferredToolResults)
    (node : Node) : Within eff false .effects (ai.runNode eff prompt results node) := by
  cases node with
  | userPrompt =>
    refine Prog.allOps_bind within_attempt (fun a => ?_)
    split
    · trivial
    · exact Prog.allOps_bind (within_talk (fun _ => rfl)) (fun _ =>
        Prog.allOps_bind (within_talk (fun _ => rfl)) (fun _ => trivial))
  | modelRequest request =>
    exact Prog.allOps_bind (within_talk (fun _ => rfl)) (fun _ => Prog.allOps_bind (within_talk (fun _ => rfl)) (fun _ =>
      Prog.allOps_bind within_attempt (fun a => Prog.allOps_bind (within_wrapModelRequest _ _)
        (fun response => Prog.allOps_bind (within_talk (fun _ => rfl)) (fun _ => trivial)))))
  | callTools response results =>
    refine Prog.allOps_bind within_attempt (fun a => Prog.allOps_bind (gathers _ _ ?_)
      (fun outcomes => ?_))
    · intro call hcall
      obtain ⟨item, -, rfl⟩ := List.mem_map.mp hcall
      exact within_executeCall ai item.1 item.2
    · split
      · trivial
      · trivial
      · exact Prog.allOps_bind (within_talk (fun _ => rfl)) (fun _ => trivial)

theorem within_iterate (gathers : Gathers ai) (prompt : Option Json) (results : DeferredToolResults)
    (fuel : Nat) (node : Node) : Within eff false .effects (ai.iterate eff prompt results fuel node) := by
  induction fuel generalizing node with
  | zero => trivial
  | succ fuel ih =>
    refine Prog.allOps_bind (within_wrapNodeRun node (within_runNode gathers prompt results))
      (fun result => ?_)
    cases result with
    | finish output => trivial
    | node next =>
      refine Prog.allOps_bind (within_talk (fun a => ?_)) (fun _ => ih next)
      cases next with
      | modelRequest request => exact apply_ite Attempt.seen _ _ _ |>.trans (ite_self _)
      | userPrompt | callTools => rfl

/-- A run of the agent performs the operations listed, and no others. -/
theorem within_run (gathers : Gathers ai) (prompt : Option Json) (history : List ModelMessage)
    (results : DeferredToolResults) : Within eff false .effects (ai.run eff prompt history results) :=
  Prog.allOps_bind (within_talk (fun _ => rfl)) (fun _ => Prog.allOps_bind (within_iterate gathers _ _ _ _)
    (fun _ => Prog.allOps_bind (within_talk (fun _ => rfl)) (fun _ => trivial)))

/-! The rest of an attempt. -/

variable (rt : AgentRuntime) (e : Execution) (token : Nat) (agent : Agent) (options : Options)

theorem effectsOf_record (h : rt.transcript = true) :
    (rt.effectsOf e token agent options).record = some ⟨e.conversation⟩ := by
  simp [AgentRuntime.effectsOf, h]

theorem within_replaceFinal : Within (rt.effectsOf e token agent options) false reach (rt.replaceFinal e) := by
  unfold AgentRuntime.replaceFinal
  split
  · rename_i h
    exact Prog.allOps_bind within_attempt
      (fun _ => within_replace (effectsOf_record rt e token agent options h) _)
  · trivial

theorem within_admitPrompt (prompt promptId : Option String) :
    Within (rt.effectsOf e token agent options) quiet reach (rt.admitPrompt e token prompt promptId) := by
  unfold AgentRuntime.admitPrompt
  split
  · rename_i hstore
    refine Prog.allOps_bind (within_perform .now) (fun instant =>
      Prog.allOps_bind (within_perform (.enqueueInput _ hstore _ _)) (fun inserted => ?_))
    split
    · exact Prog.allOps_bind (within_perform (.admitInputs _ hstore _)) (fun _ => trivial)
    · trivial
  · trivial

theorem within_suspendAll (plane : String) (here : Ctx) (messages : List ModelMessage)
    (completed : List (String × Json)) (parked : List (ToolCall × Request)) :
    Within eff quiet reach (AgentRuntime.suspendAll plane here messages completed parked) := by
  induction parked with
  | nil => trivial
  | cons item parked ih => exact Prog.allOps_bind (within_ask _ _) (fun _ => ih)

theorem within_announce (eff' : Effects) (a : Attempt) (parked : List (ToolCall × Request)) :
    Within eff quiet reach (AgentRuntime.announce eff' a parked) := by
  unfold AgentRuntime.announce
  split
  · trivial
  · exact within_suspendAll _ _ _ _ _

/-- The operations an attempt ends with, behind its final history. -/
def Ends : Op → Prop
  | .get | .now | .ask .. | .recordBranch .. | .recordModelUsage .. | .ledger (.commitTransition ..) =>
    True
  | _ => False

theorem ends_park {α : Type} {conversation : String} {requests : DeferredToolRequests} :
    (rt.park (α := α) e conversation eff requests token).AllOps Ends := by
  have hsuspend : ∀ plane here messages completed parked,
      (AgentRuntime.suspendAll plane here messages completed parked).AllOps Ends := by
    intro plane here messages completed parked
    induction parked with
    | nil => trivial
    | cons item parked ih => exact Prog.allOps_bind ((Prog.allOps_op _).mpr trivial) (fun _ => ih)
  unfold AgentRuntime.park
  split
  · trivial
  · split
    · trivial
    · trivial
    · simp only
      split
      · trivial
      · refine Prog.allOps_bind ((Prog.allOps_op _).mpr trivial) (fun a =>
          Prog.allOps_bind ?_ (fun _ => Prog.allOps_bind ?_ (fun _ => trivial)))
        · unfold AgentRuntime.announce
          split
          · trivial
          · exact hsuspend _ _ _ _ _
        · unfold AgentRuntime.persist
          split
          · trivial
          · exact Prog.allOps_bind ((Prog.allOps_op _).mpr trivial) (fun _ => trivial)

theorem ends_closeRecord {reason : StopReason} {a : Attempt} :
    (rt.closeRecord e reason a).AllOps Ends := by
  unfold AgentRuntime.closeRecord
  split
  · refine Prog.allOps_bind ((Prog.allOps_op _).mpr trivial) (fun _ =>
      Prog.allOps_bind ((Prog.allOps_op _).mpr trivial) (fun _ => ?_))
    induction AgentRuntime.usageOf a with
    | nil => trivial
    | cons item usage ih => exact Prog.allOps_bind ((Prog.allOps_op _).mpr trivial) (fun _ => ih)
  · trivial

theorem ends_close {output : Output} : (rt.close e output).AllOps Ends :=
  Prog.allOps_bind ((Prog.allOps_op _).mpr trivial) (fun _ =>
    Prog.allOps_bind (ends_closeRecord rt e) (fun _ => trivial))

end

end Semora.Proofs
