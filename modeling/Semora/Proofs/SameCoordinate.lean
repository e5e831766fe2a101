import Semora.Runtime.Instance
import Semora.Proofs.Coordinates

/-! The class agent beside the runtime: whether an instance bound to a context does what the
runtime does with that context. -/

namespace Semora.Proofs.SameCoordinate
open Semora.Lib Semora.Store Semora.Transcript

/-- The instance is bound to the context by its constructor, or by the first call that names it. -/
def Bound (c : Execution) (given : Option BranchId) (calls : List (Option BranchId × Operation)) :
    Prop :=
  (∀ branchId ∈ given :: calls.map Prod.fst, branchId = none ∨ branchId = some (.context c)) ∧
    (given = none → ∀ call ∈ calls.head?, call.1 = some (.context c))

/-- Whatever the class and the runtime, each operation is the runtime's with the context itself. -/
def Faithful (c : Execution) (given : Option BranchId)
    (calls : List (Option BranchId × Operation)) : Prop :=
  ∀ (rt : AgentRuntime) (agent : Agent) (minted : String),
    (ClassAgent.new rt agent given).session minted calls = calls.map (fun call =>
      settled call.2 (rt.serve agent ((BranchId.context c).execution call.2.conversationId) call.2))

/-- What the operation would lose with the context narrowed to its branch: a conversation it does
not name itself, or a subject that a control plane is shown. -/
def LosesNothing (c : Execution) (op : Operation) : Prop :=
  (c.conversationId = none ∨ c.conversationId = op.conversationId) ∧
    (op.drives = true → c.subject.getD "" = "")

instance (c : Execution) (op : Operation) : Decidable (LosesNothing c op) :=
  inferInstanceAs (Decidable (_ ∧ _))

/-! A bound instance stays bound. -/

section
variable {c : Execution} {rt : AgentRuntime} {agent : Agent} {minted : String}

theorem session_bound {calls : List (Option BranchId × Operation)}
    (hcalls : ∀ call ∈ calls, call.1 = none ∨ call.1 = some (.context c)) :
    (ClassAgent.mk rt agent (some c.branchId)).session minted calls = calls.map (fun call =>
      settled call.2 (rt.serve agent ((BranchId.id c.branchId).execution call.2.conversationId)
        call.2)) := by
  induction calls with
  | nil => rfl
  | cons call calls ih =>
    obtain ⟨branchId, op⟩ := call
    have hbind : (ClassAgent.mk rt agent (some c.branchId)).bind branchId minted =
        .ok (c.branchId, ⟨rt, agent, some c.branchId⟩) := by
      rcases hcalls (branchId, op) List.mem_cons_self with hb | hb
      · simp only at hb
        rw [hb]
        rfl
      · simp only at hb
        rw [hb]
        exact if_pos rfl
    unfold ClassAgent.session
    rw [hbind]
    dsimp only
    rw [ih (fun later hmem => hcalls later (List.mem_cons_of_mem _ hmem))]
    rfl

theorem session_new {given : Option BranchId} {calls : List (Option BranchId × Operation)}
    (named : c.branchId ≠ "") (h : Bound c given calls) :
    (ClassAgent.new rt agent given).session minted calls = calls.map (fun call =>
      settled call.2 (rt.serve agent ((BranchId.id c.branchId).execution call.2.conversationId)
        call.2)) := by
  obtain ⟨hnames, hfirst⟩ := h
  have hcalls : ∀ call ∈ calls, call.1 = none ∨ call.1 = some (.context c) :=
    fun call hmem => hnames call.1 (List.mem_cons_of_mem _ (List.mem_map_of_mem hmem))
  rcases hnames given List.mem_cons_self with hgiven | hgiven
  · cases calls with
    | nil => rfl
    | cons call calls =>
      obtain ⟨branchId, op⟩ := call
      have hbranch : branchId = some (.context c) := hfirst hgiven (branchId, op) rfl
      have hbind : (ClassAgent.new rt agent none).bind (some (.context c)) minted =
          .ok (c.branchId, ⟨rt, agent, some c.branchId⟩) := by
        unfold ClassAgent.bind
        split
        · rename_i he
          exact absurd (Option.some.inj he) named
        · rename_i he
          cases he
        · rename_i he
          cases he
          rfl
        · rename_i hbound _
          cases hbound
        · rename_i hbound _
          cases hbound
      rw [hgiven, hbranch]
      unfold ClassAgent.session
      rw [hbind]
      dsimp only
      rw [session_bound (fun later hmem => hcalls later (List.mem_cons_of_mem _ hmem))]
      rfl
  · rw [hgiven]
    exact session_bound hcalls

end

/-! What the first operations of a program give away about its execution. -/

/-- An agent that asks its own control plane about a first request, whatever it is given. -/
def inspected : Agent :=
  { PydanticAI.standard (fun _ => "") [] 4 with
    own := some "plane", enter := fun _ _ _ => .ok ([], .modelRequest { parts := [] }) }

/-- Replies of a world where nothing but this is parked and nobody else works. -/
def replies (parked : Option Suspension) (entries : List Entry) : (o : Op) → Except Exn o.Res
  | .ledger (.read ..) => .ok (match parked with
    | some active => .done (.suspension active)
    | none => .absent)
  | .ledger (.acquire ..) => .ok (1 : Nat)
  | .ledger (.listInputs _) => .ok []
  | .ledger (.enqueueInput ..) | .ledger (.start ..) => .ok true
  | .ledger (.commitTransition ..) => .ok []
  | .ledger (.finishEffect ..) | .ledger (.writeControl ..) | .ledger (.forget ..)
  | .ledger (.release ..) | .ledger (.claimInput ..) | .ledger (.admitInputs ..)
  | .ledger (.discardInputs ..) => .ok ()
  | .append _ => .ok true
  | .readEntries _ => .ok entries
  | .readBranch _ => .ok (some {})
  | .recordBranch .. | .recordModelUsage .. | .modify _ => .ok ()
  | .handle .. => .ok .null
  | .uuid4 => .ok "owner"
  | .now => .ok (0 : Nat)
  | .get => .ok {}
  | .provide _ | .ask .. => .error .exit

/-- The name in the ledger that an operation is about. -/
def addressed : Op → Option String
  | .ledger c => some c.branchId
  | _ => none

/-- The subject a control plane is shown before the model is asked. -/
def stamped : Op → Option String
  | .ask _ (.beforeModel here) => some here.subject
  | _ => none

/-- A round parked on one call, to be answered under `pendingId`. -/
def asked (pendingId : String) : Suspension :=
  { state := .waiting, conversationId := "", callId := "call"
    continuation := ⟨[(⟨"tool", .null, "call"⟩, ⟨some pendingId, []⟩)], [], [], "", 0, ""⟩
    callIds := ["call"], answers := [] }

theorem callOf_asked (pendingId : String) :
    AgentRuntime.callOf (asked pendingId) pendingId = some ⟨"tool", .null, "call"⟩ := by
  simp [AgentRuntime.callOf, asked]

/-- A transcript with one entry of no message. -/
def marked (uuid : Uuid) : List Entry :=
  [{ uuid, conversationId := "", type := .message, timestamp := 0, parentUuid := some none }]

theorem messagesAt_marked (uuid : Uuid) : messagesAt (marked uuid) (some uuid) = some [] := by
  simp [messagesAt, marked, chained, walk]

/-- The name in the ledger that the program is about. -/
abbrev Names (reply : (o : Op) → Except Exn o.Res) (name : String) {α : Type} (p : Program α) :
    Prop := p.Shows reply addressed name

abbrev Stamps (reply : (o : Op) → Except Exn o.Res) (subject : String) {α : Type} (p : Program α) :
    Prop := p.Shows reply stamped subject

variable {e : Execution} {parked : Option Suspension} {entries : List Entry} {rt : AgentRuntime}

/-- A run of the inspected agent shows the subject, with the plane it is given or its own. -/
theorem stamps_run {eff : Effects} {plane : String} (hcontrols : eff.controls = some plane)
    (prompt : Option Json) (history : List ModelMessage) (results : DeferredToolResults) :
    Stamps (replies parked entries) eff.subject (inspected.run eff prompt history results) := by
  obtain ⟨store, branchId, token, controls, retryRunning, rulesVersion, subject, resumed, inputs,
    record, regate⟩ := eff
  simp only at hcontrols
  subst hcontrols
  cases inputs <;> repeat first | exact .here rfl | apply Prog.Shows.later rfl

theorem stamps_openBranch (parked : Option Suspension) (entries : List Entry)
    {history : Option (List ModelMessage)}
    (h : rt.transcript = false ∨ history = none ∨ history = some []) :
    ∃ opened, ∀ {α : Type} (g : List ModelMessage → Program α),
      Stamps (replies parked entries) (e.subject.getD "") (g opened) →
      Stamps (replies parked entries) (e.subject.getD "") ((rt.openBranch e history).bind g) := by
  obtain ⟨store, transcript, leaseTtl, retryRunning⟩ := rt
  cases transcript with
  | false => exact ⟨_, fun g hg => hg⟩
  | true =>
    rcases h with h | rfl | rfl
    · cases h
    · refine ⟨[], fun g hg => ?_⟩
      iterate 5 apply Prog.Shows.later rfl
      exact hg
    · refine ⟨[], fun g hg => ?_⟩
      iterate 5 apply Prog.Shows.later rfl
      exact hg

theorem stamps_admitPrompt (rt : AgentRuntime) (parked : Option Suspension) (entries : List Entry)
    (token : Nat) (prompt promptId : Option String) :
    ∃ admitted, ∀ {α : Type} (g : Option String → Program α),
      Stamps (replies parked entries) (e.subject.getD "") (g admitted) →
      Stamps (replies parked entries) (e.subject.getD "")
        ((rt.admitPrompt e token prompt promptId).bind g) := by
  obtain ⟨store, transcript, leaseTtl, retryRunning⟩ := rt
  cases prompt with
  | none => exact ⟨none, fun g hg => hg⟩
  | some text =>
    cases promptId with
    | none => exact ⟨some text, fun g hg => hg⟩
    | some id =>
      cases store with
      | false => exact ⟨some text, fun g hg => hg⟩
      | true =>
        refine ⟨some text, fun g hg => ?_⟩
        iterate 3 apply Prog.Shows.later rfl
        exact hg

theorem stamps_attemptRun {options : Options} (token : Nat) (prompt : Option String)
    (h : rt.transcript = false ∨ options.messageHistory = none ∨
      options.messageHistory = some []) :
    Stamps (replies parked entries) (e.subject.getD "")
      (rt.attemptRun e token inspected prompt options) := by
  obtain ⟨opened, hopened⟩ := stamps_openBranch (e := e) parked entries h
  obtain ⟨admitted, hadmitted⟩ := stamps_admitPrompt (e := e) rt parked entries token prompt
    options.promptId
  obtain ⟨plane, hplane⟩ : ∃ plane,
      (rt.effectsOf e token inspected options).controls = some plane := by
    unfold AgentRuntime.effectsOf
    cases options.controls with
    | none => exact ⟨"plane", rfl⟩
    | some plane => exact ⟨plane, rfl⟩
  apply Prog.Shows.later rfl
  apply hopened
  apply hadmitted
  exact (stamps_run hplane _ _ _).bind _

/-- Every operation gives its execution away, to suitable replies. -/
structure Traced (rt : AgentRuntime) (reply : (o : Op) → Except Exn o.Res) (op : Operation)
    (e : Execution) : Prop where
  ledger : Names reply (filedName e) (settled op (rt.serve inspected e op))
  subject : op.drives = true →
    Stamps reply (e.subject.getD "") (settled op (rt.serve inspected e op))

theorem traced_run (prompt : Option String) (options : Options) (conversationId : Option String) :
    Traced { transcript := false } (replies none []) (.run prompt options conversationId) e := by
  constructor
  · cases prompt with
    | none =>
      apply Prog.Shows.later rfl
      exact .here rfl
    | some text => exact .here rfl
  · intro _
    cases prompt with
    | none =>
      apply Prog.Shows.tryCatch
      apply Prog.Shows.bind
      apply Prog.Shows.later rfl
      apply Prog.Shows.later rfl
      exact (stamps_attemptRun 1 none (.inl rfl)).finally_ _
    | some text =>
      apply Prog.Shows.tryCatch
      apply Prog.Shows.bind
      apply Prog.Shows.later rfl
      apply Prog.Shows.later rfl
      apply Prog.Shows.later rfl
      exact (stamps_attemptRun 1 (some text) (.inl rfl)).finally_ _

theorem rejoined_subject (active : Suspension) :
    (AgentRuntime.rejoined e active).subject = e.subject := by
  unfold AgentRuntime.rejoined executionContext
  split <;> rfl

/-- An answer to the one parked call finishes the round, and so reaches an attempt. -/
theorem stamps_resume (pendingId : String) (answer : Answer) (controls : Option String)
    (rulesVersion : String) {transcript : Bool} :
    Stamps (replies (some (asked pendingId)) entries) (e.subject.getD "")
      ({ transcript : AgentRuntime }.resume e pendingId answer inspected controls rulesVersion) := by
  apply Prog.Shows.later rfl
  apply Prog.Shows.later rfl
  apply Prog.Shows.finally_
  apply Prog.Shows.later rfl
  have hread : replies (some (asked pendingId)) entries (.ledger (.read (View.filed
      ⟨e.conversationId⟩ e.branchId) Effects.activeSuspension)) =
        .ok (.done (.suspension (asked pendingId))) := rfl
  simp only [hread, Prog.ret_bind, Prog.pure_eq, AgentRuntime.liveSuspension, Option.bind_some,
    callOf_asked, Option.map_some]
  apply Prog.Shows.later rfl
  apply Prog.Shows.later rfl
  rw [← rejoined_subject (asked pendingId)]
  exact (stamps_attemptRun 1 none (.inr (.inr rfl))).bind _

theorem traced_resume (answer : Answer) (pendingId controls : Option String)
    (rulesVersion : String) (conversationId : Option String) :
    Traced {} (replies (some (asked (pendingId.getD "request"))) [])
      (.resume answer pendingId controls rulesVersion conversationId) e := by
  constructor
  · cases pendingId with
    | none => exact .here rfl
    | some pendingId =>
      apply Prog.Shows.later rfl
      exact .here rfl
  · intro _
    apply Prog.Shows.tryCatch
    cases pendingId with
    | none =>
      apply Prog.Shows.later rfl
      exact (stamps_resume "request" answer controls rulesVersion).bind _
    | some pendingId => exact (stamps_resume pendingId answer controls rulesVersion).bind _

/-- A recovery that observes an open round drives it again. -/
theorem stamps_recover (controls : Option String) (rulesVersion : String) :
    Stamps (replies none []) (e.subject.getD "")
      (({} : AgentRuntime).dispatch e inspected .recover controls rulesVersion) := by
  apply Prog.Shows.later rfl
  apply Prog.Shows.later rfl
  apply Prog.Shows.tryCatch
  apply Prog.Shows.bind
  apply Prog.Shows.later rfl
  apply Prog.Shows.later rfl
  exact (stamps_attemptRun 1 none (.inr (.inl rfl))).finally_ _

theorem traced_recover (history : Option (List ModelMessage)) (controls : Option String)
    (rulesVersion : String) (conversationId : Option String) :
    Traced { transcript := history.isNone } (replies none [])
      (.recover history controls rulesVersion conversationId) e := by
  constructor
  · cases history with
    | none => exact .here rfl
    | some history =>
      apply Prog.Shows.later rfl
      exact .here rfl
  · intro _
    apply Prog.Shows.tryCatch
    cases history with
    | none => exact (stamps_recover controls rulesVersion).bind _
    | some history =>
      apply Prog.Shows.bind
      apply Prog.Shows.later rfl
      apply Prog.Shows.later rfl
      apply Prog.Shows.finally_
      apply Prog.Shows.later rfl
      apply Prog.Shows.later rfl
      exact stamps_attemptRun 1 none (.inl rfl)

/-- A fork finds the history it is given, or an empty one. -/
theorem shows_forkHistory {α β : Type} {f : Op → Option β} {x : β} (src : Execution)
    (at_ : Option Uuid) (history : Option (List ModelMessage)) {g : List ModelMessage → Program α}
    (silent : ∀ conversation, f (.readEntries conversation) = none)
    (hg : (g (history.getD [])).Shows (replies none (at_.elim [] marked)) f x) :
    ((AgentRuntime.forkHistory { transcript := history.isNone } src at_ history).bind g).Shows
      (replies none (at_.elim [] marked)) f x := by
  cases history with
  | some history => exact hg
  | none =>
    cases at_ with
    | none => exact .later (silent _) hg
    | some uuid =>
      apply Prog.Shows.later (silent _)
      have hread : replies none (Option.elim (some uuid) [] marked)
          (.readEntries src.conversation) = .ok (marked uuid) := rfl
      simp only [hread, Prog.ret_bind, messagesAt_marked]
      exact hg

/-- No call of the source's is found. -/
theorem stamps_copyCalls {α : Type} {subject : String} (source target : View) (src dst : Execution)
    (token : Nat) (calls : List ToolCall) {g : List String → Program α}
    (hg : Stamps (replies none entries) subject (g [])) :
    Stamps (replies none entries) subject
      ((AgentRuntime.copyCalls source target src dst token calls).bind g) := by
  induction calls with
  | nil => exact hg
  | cons call calls ih =>
    apply Prog.Shows.later rfl
    exact ih

theorem traced_fork (source : BranchId) (at_ : Option Uuid) (prompt : Option String)
    (history : Option (List ModelMessage)) (regate : Bool) (options : Options)
    (sourceConversationId conversationId : Option String) :
    Traced { transcript := history.isNone } (replies none (at_.elim [] marked))
      (.fork source at_ prompt history regate options sourceConversationId conversationId) e := by
  have hopened : history.isNone = false ∨ some (history.getD []) = none ∨
      some (history.getD []) = some [] := by
    cases history with
    | none => exact .inr (.inr rfl)
    | some history => exact .inl rfl
  constructor
  · apply Prog.Shows.tryCatch
    apply Prog.Shows.bind
    apply shows_forkHistory _ _ _ (fun _ => rfl)
    apply Prog.Shows.later rfl
    exact .here rfl
  · intro _
    apply Prog.Shows.tryCatch
    apply Prog.Shows.bind
    apply shows_forkHistory _ _ _ (fun _ => rfl)
    apply Prog.Shows.later rfl
    apply Prog.Shows.later rfl
    apply Prog.Shows.finally_
    apply stamps_copyCalls
    exact stamps_attemptRun 1 prompt hopened

/-- What is parked where the command is to reach an attempt. -/
def inquired : Command → Option Suspension
  | .answer pendingId _ => some (asked pendingId)
  | _ => none

theorem traced_dispatch (command : Command) (controls : Option String) (rulesVersion : String)
    (conversationId : Option String) :
    Traced {} (replies (inquired command) [])
      (.dispatch command controls rulesVersion conversationId) e := by
  cases command with
  | prompt text promptId =>
    refine ⟨.here rfl, ?_⟩
    intro _
    apply Prog.Shows.tryCatch
    apply Prog.Shows.bind
    apply Prog.Shows.tryCatch
    apply Prog.Shows.bind
    apply Prog.Shows.later rfl
    apply Prog.Shows.later rfl
    apply Prog.Shows.later rfl
    exact (stamps_attemptRun 1 (some text) (.inr (.inl rfl))).finally_ _
  | answer pendingId payload =>
    constructor
    · apply Prog.Shows.later rfl
      exact .here rfl
    · intro _
      apply Prog.Shows.tryCatch
      apply Prog.Shows.bind
      apply Prog.Shows.tryCatch
      apply Prog.Shows.tryCatch
      exact (stamps_resume pendingId payload controls rulesVersion).bind _
  | recover =>
    refine ⟨.here rfl, ?_⟩
    intro _
    apply Prog.Shows.tryCatch
    exact (stamps_recover controls rulesVersion).bind _

theorem traced_submit (item : PendingInput) : Traced {} (replies none []) (.submit item) e := by
  constructor
  · change Names _ _ ((({} : AgentRuntime).submit e item).bind _)
    unfold AgentRuntime.submit AgentRuntime.inputIdOf
    split
    · apply Prog.Shows.later rfl
      exact .here rfl
    · apply Prog.Shows.later rfl
      exact .here rfl
    · exact .here rfl
  · intro h
    cases h

theorem traced (op : Operation) : ∃ rt reply, ∀ e, Traced rt reply op e := by
  cases op with
  | run prompt options conversationId =>
    exact ⟨_, _, fun _ => traced_run prompt options conversationId⟩
  | resume answer pendingId controls rulesVersion conversationId =>
    exact ⟨_, _, fun _ => traced_resume answer pendingId controls rulesVersion conversationId⟩
  | recover history controls rulesVersion conversationId =>
    exact ⟨_, _, fun _ => traced_recover history controls rulesVersion conversationId⟩
  | fork source at_ prompt history regate options sourceConversationId conversationId =>
    exact ⟨_, _, fun _ => traced_fork source at_ prompt history regate options sourceConversationId
      conversationId⟩
  | dispatch command controls rulesVersion conversationId =>
    exact ⟨_, _, fun _ => traced_dispatch command controls rulesVersion conversationId⟩
  | submit item => exact ⟨_, _, fun _ => traced_submit item⟩
  | state => exact ⟨{}, replies none [], fun _ => ⟨.here rfl, fun h => by cases h⟩⟩
  | pending => exact ⟨{}, replies none [], fun _ => ⟨.here rfl, fun h => by cases h⟩⟩

/-! The operations that keep the context do the same with it and without it. -/

section
variable (rt : AgentRuntime) (b : String) (k : Option String)

theorem state_subject (s s' : Option String) : rt.state ⟨b, k, s⟩ = rt.state ⟨b, k, s'⟩ := by
  have hparked : rt.parkedOn ⟨b, k, s⟩ = rt.parkedOn ⟨b, k, s'⟩ := by
    unfold AgentRuntime.parkedOn
    rfl
  unfold AgentRuntime.state
  simp only [hparked]
  apply congrArg
  funext parked
  cases parked with
  | some active => rfl
  | none =>
    dsimp only
    split
    · apply congrArg
      funext record
      cases record <;> rfl
    · rfl

/-! An empty subject and none are shown alike. -/

theorem attemptRun_unnamed : rt.attemptRun ⟨b, k, some ""⟩ = rt.attemptRun ⟨b, k, none⟩ := rfl

theorem run_unnamed : rt.run ⟨b, k, some ""⟩ = rt.run ⟨b, k, none⟩ := rfl

theorem finalize_unnamed : rt.finalize ⟨b, k, some ""⟩ = rt.finalize ⟨b, k, none⟩ := by
  cases k <;> rfl

theorem resume_unnamed : rt.resume ⟨b, k, some ""⟩ = rt.resume ⟨b, k, none⟩ := by
  cases k <;> rfl

theorem recover_unnamed : rt.recover ⟨b, k, some ""⟩ = rt.recover ⟨b, k, none⟩ := by
  have hactive : rt.active ⟨b, k, some ""⟩ = rt.active ⟨b, k, none⟩ := rfl
  have hstore : rt.storeFor ⟨b, k, some ""⟩ = rt.storeFor ⟨b, k, none⟩ := rfl
  have hleased : rt.recoverLeased ⟨b, k, some ""⟩ = rt.recoverLeased ⟨b, k, none⟩ := by
    unfold AgentRuntime.recoverLeased
    rw [attemptRun_unnamed, finalize_unnamed, hactive, hstore]
  unfold AgentRuntime.recover
  rw [hleased]
  rfl

theorem fork_unnamed (src : Execution) (at_ : Option Uuid) :
    rt.fork src at_ ⟨b, k, some ""⟩ = rt.fork src at_ ⟨b, k, none⟩ := by
  have hcalls : ∀ source target token calls, AgentRuntime.copyCalls source target src
      ⟨b, k, some ""⟩ token calls = AgentRuntime.copyCalls source target src ⟨b, k, none⟩ token
        calls := by
    intro source target token calls
    induction calls with
    | nil => rfl
    | cons call calls ih =>
      unfold AgentRuntime.copyCalls
      rw [ih]
  have hcopied : rt.copyRound src ⟨b, k, some ""⟩ = rt.copyRound src ⟨b, k, none⟩ := by
    funext token history
    unfold AgentRuntime.copyRound
    simp only [hcalls]
    rfl
  unfold AgentRuntime.fork
  rw [hcopied]
  rfl

theorem dispatch_unnamed (agent : Agent) (command : Command) (controls : Option String)
    (rulesVersion : String) : rt.dispatch ⟨b, k, some ""⟩ agent command controls rulesVersion =
      rt.dispatch ⟨b, k, none⟩ agent command controls rulesVersion := by
  have hstate := state_subject rt b k (some "") none
  have hnamed : Dispatch.named rt ⟨b, k, some ""⟩ = Dispatch.named rt ⟨b, k, none⟩ := by
    unfold Dispatch.named
    rw [hstate]
  have hrows : Dispatch.defaultRouter rt ⟨b, k, some ""⟩ agent controls rulesVersion =
      Dispatch.defaultRouter rt ⟨b, k, none⟩ agent controls rulesVersion := by
    unfold Dispatch.defaultRouter Dispatch.resumeApproval Dispatch.recoverInterrupted
      Dispatch.replayJournal Dispatch.startRun Dispatch.queueSteer
    rw [hnamed, recover_unnamed, resume_unnamed, run_unnamed]
    rfl
  have hoffer : ∀ state rows contended, Dispatch.offer rt ⟨b, k, some ""⟩ command state rows
      contended = Dispatch.offer rt ⟨b, k, none⟩ command state rows contended := by
    intro state rows
    induction rows with
    | nil =>
      intro contended
      cases contended with
      | none =>
        unfold Dispatch.offer
        rw [hnamed]
      | some e => rfl
    | cons row rows ih =>
      intro contended
      unfold Dispatch.offer
      simp only [ih]
  unfold AgentRuntime.dispatch Dispatch.route Dispatch.observe
  simp only [hrows, hoffer, hstate]

end

theorem serve_unnamed (rt : AgentRuntime) (agent : Agent) (op : Operation) {e : Execution}
    (h : e.subject.getD "" = "") :
    rt.serve agent e op = rt.serve agent { e with subject := none } op := by
  obtain ⟨branchId, conversationId, subject⟩ := e
  cases subject with
  | none => rfl
  | some subject =>
    obtain rfl : subject = "" := h
    cases op with
    | run => rfl
    | resume answer pendingId =>
      unfold AgentRuntime.serve
      rw [resume_unnamed]
      cases pendingId <;> rfl
    | recover history =>
      unfold AgentRuntime.serve
      cases history with
      | none => simp only [dispatch_unnamed]
      | some history => simp only [recover_unnamed]
    | fork =>
      unfold AgentRuntime.serve
      simp only [fork_unnamed]
    | dispatch =>
      unfold AgentRuntime.serve
      simp only [dispatch_unnamed]
    | submit | pending => rfl
    | state =>
      unfold AgentRuntime.serve
      rw [state_subject _ _ _ (some "") none]

/-- An operation that drives no attempt shows no subject. -/
theorem serve_undriven (rt : AgentRuntime) (agent : Agent) {op : Operation} (e : Execution)
    (h : op.drives = false) :
    rt.serve agent e op = rt.serve agent { e with subject := none } op := by
  obtain ⟨branchId, conversationId, subject⟩ := e
  cases op with
  | submit | pending => rfl
  | state =>
    unfold AgentRuntime.serve
    rw [state_subject _ _ _ subject none]
  | run | resume | recover | fork | dispatch => cases h

/-! The narrowed context. -/

theorem filedName_inj {b : String} {k k' s s' : Option String}
    (h : filedName ⟨b, k, s⟩ = filedName ⟨b, k', s'⟩) : k = k' := by
  have hlength := congrArg (fun name => name.toList.length) h
  cases k with
  | none =>
    cases k' with
    | none => rfl
    | some y =>
      simp only [filedName, View.filed, String.toList_append, List.length_append] at hlength
      have hslash : "/".toList.length = 1 := rfl
      omega
  | some x =>
    cases k' with
    | none =>
      simp only [filedName, View.filed, String.toList_append, List.length_append] at hlength
      have hslash : "/".toList.length = 1 := rfl
      omega
    | some y =>
      have hlist := congrArg String.toList h
      simp only [filedName, View.filed, String.toList_append, List.append_cancel_right_eq] at hlist
      rw [String.toList_inj.mp hlist]

/-- One operation of the instance is the runtime's with the context exactly when nothing is lost. -/
theorem narrowed_iff {c : Execution} {op : Operation} :
    (∀ (rt : AgentRuntime) (agent : Agent),
      settled op (rt.serve agent ((BranchId.id c.branchId).execution op.conversationId) op) =
        settled op (rt.serve agent ((BranchId.context c).execution op.conversationId) op)) ↔
      LosesNothing c op := by
  obtain ⟨b, k, s⟩ := c
  have hgiven : (BranchId.context ⟨b, k, s⟩).execution op.conversationId =
      ⟨b, k <|> op.conversationId, s⟩ := by
    cases k <;> rfl
  have hconversation : (k <|> op.conversationId) = op.conversationId ↔
      k = none ∨ k = op.conversationId := by
    cases k <;> simp
  rw [hgiven]
  unfold LosesNothing
  rw [← hconversation]
  constructor
  · intro h
    obtain ⟨rt, reply, htraced⟩ := traced op
    have hsame := h rt inspected
    constructor
    · have hname := (htraced ⟨b, op.conversationId, none⟩).ledger
      change Names _ _ (settled op (rt.serve inspected ((BranchId.id b).execution _) op)) at hname
      rw [hsame] at hname
      exact (filedName_inj (hname.unique (htraced _).ledger)).symm
    · intro hdrives
      have hsubject := (htraced ⟨b, op.conversationId, none⟩).subject hdrives
      change Stamps _ _ (settled op (rt.serve inspected ((BranchId.id b).execution _) op))
        at hsubject
      rw [hsame] at hsubject
      exact (hsubject.unique ((htraced _).subject hdrives)).symm
  · intro ⟨hk, hs⟩ rt agent
    rw [hk]
    cases hdrives : op.drives with
    | true =>
      rw [serve_unnamed rt agent op (e := ⟨b, op.conversationId, s⟩) (hs hdrives)]
      rfl
    | false =>
      rw [serve_undriven rt agent ⟨b, op.conversationId, s⟩ hdrives]
      rfl

/-- The class agent is the runtime at the same coordinate exactly when no operation loses what the
context names beside the branch. -/
theorem faithful_iff {c : Execution} {given : Option BranchId}
    {calls : List (Option BranchId × Operation)} (named : c.branchId ≠ "")
    (bound : Bound c given calls) :
    Faithful c given calls ↔ ∀ call ∈ calls, LosesNothing c call.2 := by
  have hsession : Faithful c given calls ↔ ∀ (rt : AgentRuntime) (agent : Agent) (_ : String),
      ∀ call ∈ calls,
        settled call.2 (rt.serve agent ((BranchId.id c.branchId).execution call.2.conversationId)
          call.2) =
        settled call.2 (rt.serve agent ((BranchId.context c).execution call.2.conversationId)
          call.2) := by
    unfold Faithful
    simp only [session_new named bound, List.map_inj_left]
  rw [hsession]
  constructor
  · intro h call hmem
    exact narrowed_iff.mp (fun rt agent => h rt agent "" call hmem)
  · intro h rt agent _ call hmem
    exact narrowed_iff.mpr (h call hmem) rt agent

/-- A context of a conversation, as a host builds it. -/
def chat : Execution := ⟨"run", some "chat", none⟩

/-- Two operations that name the conversation themselves. -/
def session : List (Option BranchId × Operation) :=
  [(none, .run (some "hi") {} (some "chat")),
    (some (.context chat), .resume {} (some "call") none "" (some "chat"))]

theorem faithful_session : Faithful chat (some (.context chat)) session :=
  (faithful_iff (by decide) ⟨by decide, fun h => by cases h⟩).mpr (by decide)

/-- A model that asks for a tool, which asks for approval. -/
def asker : Agent := { PydanticAI.standard (fun _ => "") ["tool"] 8 with }

def asking : Outside :=
  .answering (fun _ _ _ => .error .exit)
    (fun _ _ => .ok { parts := [.toolCall ⟨"tool", .null, "call"⟩] }) (fun _ _ _ => .error .exit)

/-- One operation after another, in one world. -/
def inTurn : List (Program Reply) → World × Attempt → List (Except Exn Reply)
  | [], _ => []
  | p :: ps, s =>
    let done := p.eval (fun o s => step asking o s.1 s.2) s
    done.1 :: inTurn ps done.2

/-- A run parked through an instance bound to the context is not found with the context. -/
theorem not_always_faithful :
    ¬ Faithful chat (some (.context chat)) [(none, .run (some "hi") {} none)] ∧
    inTurn ((ClassAgent.new {} asker (some (.context chat))).session ""
        [(none, .run (some "hi") {} none)] ++
      [AgentRuntime.serve {} asker chat (.resume {} (some "call") none "" none)]) ({}, {}) =
      [.ok (.suspended [("call", "call")]),
        .error (.lookupError "no active suspension for pending id 'call'")] := by
  constructor
  · intro h
    have hsame := congrArg (fun ps => inTurn (ps ++
      [AgentRuntime.serve {} asker chat .pending]) ({}, {})) (h {} asker "")
    exact absurd hsame (by decide +kernel)
  · decide +kernel

end Semora.Proofs.SameCoordinate
