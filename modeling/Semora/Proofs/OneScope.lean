import Semora.Lib.Trace
import Semora.Proofs.Coordinates
import Semora.Runtime.Router

/-! Whether the calls that one command comes to are about one branch of one conversation, when a
router is used by itself. -/

namespace Semora.Proofs.OneScope
open Semora.Lib Semora.Store

abbrev Called := Prog.Done Errand.Res Exn

/-- The branch and the conversation that a call addresses. -/
def coordinate (e : Execution) : Option String × String := (e.conversationId, e.branchId)

/-- The runtime was called at this execution. -/
def Calls (did : List Called) (e : Execution) : Prop := ∃ p r, ⟨.serve e p, r⟩ ∈ did

/-- What a runtime cannot do: a clock does not fail, and `submit`, which needs no lease, does not
find the branch contended. -/
def impossible : Called → Bool
  | ⟨.now, .error _⟩ => true
  | ⟨.serve _ (.submit _), .error (.store (.contended _))⟩ => true
  | _ => false

def Lawful (did : List Called) : Prop := ∀ d ∈ did, impossible d = false

/-- Whatever the runtime replies, every call is about one branch of one conversation, and a prompt
handed on by `Contended` is queued where the holder of the contended lease looks. -/
structure SingleScope (p : Routing Applied) : Prop where
  calls : ∀ did q, Prog.Played p did q → Lawful did →
    ∀ e e', Calls did e → Calls did e' → coordinate e = coordinate e'
  handed : ∀ did q, Prog.Played p did q → Lawful did → ∀ e prompt options b e' item r,
    ⟨.serve e (.run prompt options), .error (.store (.contended b))⟩ ∈ did →
      ⟨.serve e' (.submit item), r⟩ ∈ did → filedName e = filedName e'

/-- The options name no conversation, or the branch comes with its own. -/
def SameScope (branchId : BranchId) (conversationId : Option String) : Prop :=
  conversationId = none ∨ ∃ e, branchId = .context e ∧ e.conversationId ≠ none

/-- The table brings the command to calls that are handed the options and to calls that are not. -/
def Mixes (rows : List Row) : Command → Prop
  | command@(.prompt ..) =>
    (rows.filter (fun row => row.applies command)).head? = some .startRun ∧ .queueSteer ∈ rows
  | .answer .. => .resumeApproval ∈ rows
  | .recover => .recoverInterrupted ∈ rows ∨ .replayJournal ∈ rows

section
variable {branchId : BranchId} {conversationId controls : Option String} {rulesVersion : String}
variable {command : Command} {rows : List Row}

theorem sameScope_iff : SameScope branchId conversationId ↔
    coordinate (branchId.execution conversationId) = coordinate (branchId.execution none) := by
  cases branchId with
  | id b => simp [SameScope, coordinate, BranchId.execution]
  | context e =>
    cases he : e.conversationId with
    | none => simp [SameScope, coordinate, BranchId.execution, executionContext, he]
    | some c => simp [SameScope, coordinate, BranchId.execution, executionContext, he]

theorem filedName_coordinate {e e' : Execution} (h : coordinate e = coordinate e') :
    filedName e = filedName e' := by
  obtain ⟨hconversation, hbranch⟩ := Prod.mk.inj h
  unfold filedName
  rw [hconversation, hbranch]

theorem single_scope {p : Routing Applied}
    (h : ∀ did q, Prog.Played p did q → Lawful did →
      ∀ e e', Calls did e → Calls did e' → coordinate e = coordinate e') : SingleScope p :=
  ⟨h, fun did q played lawful e _ _ _ e' _ _ hrun hsubmit =>
    filedName_coordinate (h did q played lawful e e' ⟨_, _, hrun⟩ ⟨_, _, hsubmit⟩)⟩

/-- Every call of the program is at an execution of which this holds. -/
def At (P : Execution → Prop) : Errand → Prop
  | .now => True
  | .serve e _ => P e

theorem single_scope_at {p : Routing Applied} {P : Execution → Prop} (h : p.AllOps (At P))
    (same : ∀ e e', P e → P e' → coordinate e = coordinate e') : SingleScope p := by
  refine single_scope (fun did q played _ e e' ⟨_, _, he⟩ ⟨_, _, he'⟩ => ?_)
  exact same e e' ((played.allOps h).1 _ he) ((played.allOps h).1 _ he')

/-! What the rows call. -/

theorem at_errand {P : Execution → Prop} {o : Errand} (h : At P o) : (errand o).AllOps (At P) :=
  (Prog.allOps_op o).mpr h

theorem at_named {P : Execution → Prop} (h : P (branchId.execution none)) (state : Option String) :
    (Router.named branchId state).AllOps (At P) := by
  cases state with
  | some state => trivial
  | none => exact at_errand h

theorem at_apply {P : Execution → Prop} (h : P (branchId.execution none))
    (h' : P (branchId.execution conversationId)) (row : Row) (command : Command)
    (state : Option String) :
    (Router.apply branchId conversationId controls rulesVersion row command state).AllOps (At P) := by
  unfold Router.apply
  split
  · exact Prog.allOps_bind (at_errand h') (fun _ => trivial)
  · exact Prog.allOps_bind (at_errand trivial)
      (fun _ => Prog.allOps_bind (at_errand h) (fun _ => trivial))
  · refine Prog.allOps_tryCatch (Prog.allOps_bind (at_errand h') (fun _ => trivial)) (fun error => ?_)
    cases error with
    | lookupError => exact Prog.allOps_bind (at_named h _) (fun _ => trivial)
    | _ => trivial
  · exact Prog.allOps_bind (at_errand h')
      (fun _ => Prog.allOps_bind (at_errand h') (fun _ => trivial))
  · exact Prog.allOps_bind (at_errand h') (fun _ => trivial)
  · trivial

theorem at_offer {P : Execution → Prop} (h : P (branchId.execution none))
    (h' : P (branchId.execution conversationId)) (state : Option String) (rows : List Row)
    (contended : Option Exn) :
    (Router.offer branchId conversationId controls rulesVersion command state rows
      contended).AllOps (At P) := by
  induction rows generalizing contended with
  | nil =>
    cases contended with
    | some error => trivial
    | none => exact Prog.allOps_bind (at_named h _) (fun _ => trivial)
  | cons row rows ih =>
    unfold Router.offer
    split
    · refine Prog.allOps_tryCatch (at_apply h h' _ _ _) (fun error => ?_)
      split
      · exact ih _
      · trivial
    · exact ih _

theorem at_dispatch {P : Execution → Prop} (h : P (branchId.execution none))
    (h' : P (branchId.execution conversationId)) :
    (Router.dispatch branchId conversationId controls rulesVersion rows command).AllOps (At P) := by
  refine Prog.allOps_bind ?_ (fun state => at_offer h h' _ _ _)
  unfold Router.observe
  split
  · exact Prog.allOps_bind (at_errand h) (fun _ => trivial)
  · trivial

/-- No row takes the command: the state is observed, and nothing else. -/
theorem at_nobody {P : Execution → Prop} (h : P (branchId.execution none))
    (hnobody : rows.filter (fun row => row.applies command) = []) :
    (Router.dispatch branchId conversationId controls rulesVersion rows command).AllOps (At P) := by
  unfold Router.dispatch
  rw [hnobody]
  have hrefused : (Router.offer branchId conversationId controls rulesVersion command none []
      none).AllOps (At P) := Prog.allOps_bind (at_named h none) (fun _ => trivial)
  exact hrefused

/-- The state is observed for a recovery alone: only its rows declare one. -/
theorem dispatch_unobserved (hother : command ≠ .recover) {candidates : List Row}
    (hcandidates : rows.filter (fun row => row.applies command) = candidates) :
    Router.dispatch branchId conversationId controls rulesVersion rows command =
      Router.offer branchId conversationId controls rulesVersion command none candidates none := by
  have hobserve : Router.observe branchId (rows.filter (fun row => row.applies command)) =
      .ret none := by
    unfold Router.observe
    rw [if_neg]
    · rfl
    · intro hany
      obtain ⟨row, hrow, hstates⟩ := List.any_eq_true.mp hany
      have happlies := (List.mem_filter.mp hrow).2
      cases row with
      | startRun | queueSteer | resumeApproval => cases hstates
      | recoverInterrupted | replayJournal =>
        cases command with
        | recover => exact hother rfl
        | _ => cases happlies
  unfold Router.dispatch
  dsimp only
  rw [hobserve, hcandidates]
  rfl

/-- Every row that takes the prompt starts a run. -/
theorem at_starting {P : Execution → Prop} (h' : P (branchId.execution conversationId))
    {state : Option String} (hstart : ∀ row ∈ rows, row = .startRun) {contended : Option Exn}
    (hsome : rows ≠ [] ∨ contended ≠ none) {text : String} {promptId : Option String} :
    (Router.offer branchId conversationId controls rulesVersion (.prompt text promptId) state rows
      contended).AllOps (At P) := by
  induction rows generalizing contended with
  | nil =>
    cases contended with
    | some error => trivial
    | none => exact absurd rfl (hsome.resolve_left (fun h => h rfl))
  | cons row rows ih =>
    obtain rfl : row = .startRun := hstart row List.mem_cons_self
    have hlater : ∀ later ∈ rows, later = .startRun :=
      fun later hmem => hstart later (List.mem_cons_of_mem _ hmem)
    unfold Router.offer
    simp only [Row.states, Option.all_none, ↓reduceIte]
    refine Prog.allOps_tryCatch (Prog.allOps_bind (at_errand h') (fun _ => trivial)) (fun error => ?_)
    split
    · exact ih hlater (.inr nofun)
    · trivial

/-- The first row that takes the prompt queues it, and that is the end. -/
theorem queued_first {text : String} {promptId : Option String} {state : Option String}
    {did : List Called} {q : Routing Applied} {contended : Option Exn}
    (played : Prog.Played (Router.offer branchId conversationId controls rulesVersion
      (.prompt text promptId) state (.queueSteer :: rows) contended) did q) (lawful : Lawful did)
    {e : Execution} (he : Calls did e) : e = branchId.execution none := by
  unfold Router.offer at played
  simp only [Row.states, Option.all_none, ↓reduceIte] at played
  rcases Prog.played_call played with ⟨rfl, -⟩ | ⟨r, did, rfl, hrest⟩
  · obtain ⟨_, _, hmem⟩ := he
    cases hmem
  · cases r with
    | error error => cases lawful _ List.mem_cons_self
    | ok instant =>
      rcases Prog.played_call hrest with ⟨rfl, -⟩ | ⟨r, did, rfl, hend⟩
      · obtain ⟨_, _, hmem⟩ := he
        cases List.mem_singleton.mp hmem
      · -- The reply ends the program, as the branch is not contended.
        have hended : did = [] := by
          cases r with
          | ok item => exact (Prog.played_ended (r := .ok _) hend).1
          | error error =>
            cases error with
            | store error =>
              cases error with
              | contended b => cases lawful _ (List.mem_cons_of_mem _ List.mem_cons_self)
              | _ => exact (Prog.played_ended (r := .error _) hend).1
            | _ => exact (Prog.played_ended (r := .error _) hend).1
        subst hended
        obtain ⟨p, r', hmem⟩ := he
        rcases List.mem_cons.mp hmem with heq | hmem
        · cases heq
        · cases List.mem_singleton.mp hmem
          rfl

theorem single_of_not_mixes (h : ¬ Mixes rows command) :
    SingleScope (Router.dispatch branchId conversationId controls rulesVersion rows command) := by
  have hnobody : rows.filter (fun row => row.applies command) = [] →
      SingleScope (Router.dispatch branchId conversationId controls rulesVersion rows command) := by
    intro hnobody
    refine single_scope_at (at_nobody (P := fun e => e = branchId.execution none) rfl hnobody) ?_
    rintro e e' rfl rfl
    rfl
  cases command with
  | answer pendingId payload =>
    apply hnobody
    rw [List.filter_eq_nil_iff]
    intro row hrow happlies
    cases row with
    | resumeApproval => exact h hrow
    | _ => cases happlies
  | recover =>
    apply hnobody
    rw [List.filter_eq_nil_iff]
    intro row hrow happlies
    cases row with
    | recoverInterrupted => exact h (.inl hrow)
    | replayJournal => exact h (.inr hrow)
    | _ => cases happlies
  | prompt text promptId =>
    cases hcandidates : rows.filter (fun row => row.applies (.prompt text promptId)) with
    | nil => exact hnobody hcandidates
    | cons row later =>
      have happlies : ∀ row' ∈ row :: later, row'.applies (.prompt text promptId) = true := by
        intro row' hmem
        rw [← hcandidates] at hmem
        exact (List.mem_filter.mp hmem).2
      rw [dispatch_unobserved (by simp) hcandidates]
      cases row with
      | queueSteer =>
        refine single_scope (fun did q played lawful e e' he he' => ?_)
        rw [queued_first played lawful he, queued_first played lawful he']
      | startRun =>
        have hstart : ∀ row' ∈ Row.startRun :: later, row' = .startRun := by
          intro row' hmem
          have happly := happlies row' hmem
          cases row' with
          | startRun => rfl
          | queueSteer =>
            rw [← hcandidates] at hmem
            refine absurd ⟨?_, (List.mem_filter.mp hmem).1⟩ h
            rw [hcandidates]
            rfl
          | _ => cases happly
        refine single_scope_at (at_starting (P := fun e => e = branchId.execution conversationId) rfl
          hstart (.inl nofun)) ?_
        rintro e e' rfl rfl
        rfl
      | _ => cases happlies _ List.mem_cons_self

/-! Two calls of one command, where the table mixes them. -/

variable (branchId conversationId controls rulesVersion) in
/-- A contended prompt is handed on until a row queues it. -/
theorem comes_queued {text : String} {promptId : Option String} {state : Option String}
    (happlies : ∀ row ∈ rows, row.applies (.prompt text promptId)) (hqueue : .queueSteer ∈ rows)
    (contended : Option Exn) :
    ∃ did q, Prog.Played (Router.offer branchId conversationId controls rulesVersion
      (.prompt text promptId) state rows contended) did q ∧ Lawful did ∧
        Calls did (branchId.execution none) := by
  induction rows generalizing contended with
  | nil => cases hqueue
  | cons row rows ih =>
    have happly := happlies row List.mem_cons_self
    cases row with
    | queueSteer =>
      let item : PendingInput := ⟨"user_prompt", .userPrompt (.str text) (.int (0 : Nat)), promptId⟩
      refine ⟨[⟨.now, .ok (0 : Nat)⟩, ⟨.serve (branchId.execution none) (.submit item), .ok item⟩],
        _, .cons (.cons (.nil _)), ?_, .submit item, .ok item, ?_⟩
      · simp [Lawful, impossible]
      · exact List.mem_cons_of_mem _ List.mem_cons_self
    | startRun =>
      obtain ⟨did, q, hplayed, hlawful, p, r, hcall⟩ :=
        ih (fun later hmem => happlies later (List.mem_cons_of_mem _ hmem))
          (List.mem_of_ne_of_mem (by decide) hqueue) (some (.store (.contended "")))
      refine ⟨⟨.serve (branchId.execution conversationId)
          (.run (some text) { controls, rulesVersion, promptId }), .error (.store (.contended ""))⟩ :: did,
        q, .cons hplayed, List.forall_mem_cons.mpr ⟨rfl, hlawful⟩, p, r,
        List.mem_cons_of_mem _ hcall⟩
    | _ => cases happly

variable (branchId conversationId controls rulesVersion) in
/-- The row that takes the observed state is reached, and called with the options. -/
theorem comes_recovered {row : Row} {state : String}
    (hrow : row = .recoverInterrupted ∧ state = "waiting" ∨
      row = .replayJournal ∧ state = "interrupted")
    (happlies : ∀ row ∈ rows, row.applies .recover) (hmem : row ∈ rows) (contended : Option Exn) :
    ∃ did q, Prog.Played (Router.offer branchId conversationId controls rulesVersion
      .recover (some state) rows contended) did q ∧ Lawful did ∧
        Calls did (branchId.execution conversationId) := by
  induction rows with
  | nil => cases hmem
  | cons first rows ih =>
    have happly := happlies first List.mem_cons_self
    have hrest := fun hne => ih (fun later hlater => happlies later (List.mem_cons_of_mem _ hlater))
      (List.mem_of_ne_of_mem hne hmem)
    rcases hrow with ⟨rfl, rfl⟩ | ⟨rfl, rfl⟩
    · cases first with
      | recoverInterrupted =>
        refine ⟨[⟨.serve (branchId.execution conversationId) .committedHistory, .error .exit⟩], _,
          .cons (.nil _), List.forall_mem_singleton.mpr rfl, _, _, List.mem_cons_self⟩
      | replayJournal => exact hrest (by decide)
      | _ => cases happly
    · cases first with
      | replayJournal =>
        refine ⟨[⟨.serve (branchId.execution conversationId)
          (.run none { controls, rulesVersion }), .error .exit⟩], _,
          .cons (.nil _), List.forall_mem_singleton.mpr rfl, _, _, List.mem_cons_self⟩
      | recoverInterrupted => exact hrest (by decide)
      | _ => cases happly

variable (branchId conversationId controls rulesVersion) in
/-- A table that mixes them can come to a call with the options and to one without. -/
theorem mixes_calls (h : Mixes rows command) : ∃ did q,
    Prog.Played (Router.dispatch branchId conversationId controls rulesVersion rows command) did q ∧
      Lawful did ∧ Calls did (branchId.execution conversationId) ∧
        Calls did (branchId.execution none) := by
  have happlies : ∀ row ∈ rows.filter (fun row => row.applies command), row.applies command = true :=
    fun row hmem => (List.mem_filter.mp hmem).2
  cases command with
  | prompt text promptId =>
    obtain ⟨hfirst, hqueue⟩ := h
    cases hcandidates : rows.filter (fun row => row.applies (.prompt text promptId)) with
    | nil =>
      rw [hcandidates] at hfirst
      cases hfirst
    | cons row later =>
      rw [hcandidates] at hfirst happlies
      obtain rfl : row = .startRun := Option.some.inj hfirst
      have hlater : Row.queueSteer ∈ later := by
        have hmem : Row.queueSteer ∈ Row.startRun :: later :=
          hcandidates ▸ List.mem_filter.mpr ⟨hqueue, rfl⟩
        exact List.mem_of_ne_of_mem (by decide) hmem
      obtain ⟨did, q, hplayed, hlawful, p, r, hcall⟩ := comes_queued branchId conversationId controls rulesVersion
        (fun row hmem => happlies row (List.mem_cons_of_mem _ hmem)) hlater
        (some (.store (.contended "")))
      rw [dispatch_unobserved (by simp) hcandidates]
      refine ⟨⟨.serve (branchId.execution conversationId)
          (.run (some text) { controls, rulesVersion, promptId }), .error (.store (.contended ""))⟩ :: did,
        q, .cons hplayed, List.forall_mem_cons.mpr ⟨rfl, hlawful⟩, ?_, ?_⟩
      · exact ⟨_, _, List.mem_cons_self⟩
      · exact ⟨p, r, List.mem_cons_of_mem _ hcall⟩
  | answer pendingId payload =>
    cases hcandidates : rows.filter (fun row => row.applies (.answer pendingId payload)) with
    | nil =>
      have hmem : Row.resumeApproval ∈ ([] : List Row) :=
        hcandidates ▸ List.mem_filter.mpr ⟨h, rfl⟩
      cases hmem
    | cons row later =>
      rw [hcandidates] at happlies
      have happly := happlies row List.mem_cons_self
      rw [dispatch_unobserved (by simp) hcandidates]
      cases row with
      | resumeApproval =>
        refine ⟨[⟨.serve (branchId.execution conversationId)
            (.resume pendingId payload controls rulesVersion), .error (.lookupError "")⟩,
          ⟨.serve (branchId.execution none) .state, .error .exit⟩], _,
          .cons (.cons (.nil _)), ?_, ⟨_, _, List.mem_cons_self⟩, ?_⟩
        · simp [Lawful, impossible]
        · exact ⟨_, _, List.mem_cons_of_mem _ List.mem_cons_self⟩
      | _ => cases happly
  | recover =>
    obtain ⟨row, state, hrow, hmem⟩ : ∃ row state, (row = Row.recoverInterrupted ∧ state = "waiting" ∨
        row = .replayJournal ∧ state = "interrupted") ∧
        row ∈ rows.filter (fun row => row.applies .recover) := by
      rcases h with h | h
      · exact ⟨_, _, .inl ⟨rfl, rfl⟩, List.mem_filter.mpr ⟨h, rfl⟩⟩
      · exact ⟨_, _, .inr ⟨rfl, rfl⟩, List.mem_filter.mpr ⟨h, rfl⟩⟩
    have hobserved : (rows.filter (fun row => row.applies .recover)).any
        (fun row => row.states.isSome) = true := by
      refine List.any_eq_true.mpr ⟨row, hmem, ?_⟩
      rcases hrow with ⟨rfl, -⟩ | ⟨rfl, -⟩ <;> rfl
    obtain ⟨did, q, hplayed, hlawful, p, r, hcall⟩ := comes_recovered branchId conversationId controls
      rulesVersion hrow happlies hmem none
    unfold Router.dispatch Router.observe
    dsimp only
    rw [if_pos hobserved]
    refine ⟨⟨.serve (branchId.execution none) .state, .ok state⟩ :: did, q, .cons hplayed,
      List.forall_mem_cons.mpr ⟨rfl, hlawful⟩, ⟨p, r, List.mem_cons_of_mem _ hcall⟩, ?_⟩
    exact ⟨_, _, List.mem_cons_self⟩

/-- A command's calls are all about one branch of one conversation, whatever the state of the
runtime, just when the options add no conversation to the branch or the table does not mix the calls
that are handed the options with those that are not. -/
theorem single_scope_iff (branchId : BranchId) (conversationId controls : Option String)
    (rulesVersion : String) (rows : List Row) (command : Command) :
    SingleScope (Router.dispatch branchId conversationId controls rulesVersion rows command) ↔
      SameScope branchId conversationId ∨ ¬ Mixes rows command := by
  constructor
  · intro hsingle
    by_cases hmixes : Mixes rows command
    · left
      obtain ⟨did, q, hplayed, hlawful, hwith, hbare⟩ :=
        mixes_calls branchId conversationId controls rulesVersion hmixes
      exact sameScope_iff.mpr (hsingle.calls did q hplayed hlawful _ _ hwith hbare)
    · exact .inr hmixes
  · rintro (hsame | hmixes)
    · have hcoordinate := sameScope_iff.mp hsame
      refine single_scope_at (at_dispatch (P := fun e =>
        coordinate e = coordinate (branchId.execution none)) rfl hcoordinate) ?_
      exact fun e e' he he' => he.trans he'.symm
    · exact single_of_not_mixes hmixes

/-- The preset behind `AgentRuntime.dispatch`. -/
def defaultRows : List Row := [.resumeApproval, .recoverInterrupted, .replayJournal, .startRun, .queueSteer]

/-- A prompt for a branch whose conversation only the options name. -/
theorem not_single_scope : ¬ ∀ (rows : List Row) (command : Command) (branchId : BranchId)
    (conversationId controls : Option String) (rulesVersion : String),
    SingleScope (Router.dispatch branchId conversationId controls rulesVersion rows command) := by
  intro h
  have hsingle := h defaultRows (.prompt "hi" none) (.id "run") (some "talk") none ""
  have hmixes : Mixes defaultRows (.prompt "hi" none) := ⟨rfl, by decide⟩
  obtain ⟨did, q, hplayed, hlawful, hwith, hbare⟩ :=
    mixes_calls (.id "run") (some "talk") none "" hmixes
  have := hsingle.calls did q hplayed hlawful _ _ hwith hbare
  simp [coordinate, BranchId.execution] at this

/-- `AgentRuntime.dispatch` names the conversation on the branch before it hands both on. -/
theorem dispatch_single (rt : AgentRuntime) (agent : Agent) (branchId : BranchId)
    (conversationId controls : Option String) (rulesVersion : String) (command : Command)
    (hstores : rt.executionStore ∧ rt.transcript) :
    let merged := branchId.execution conversationId
    rt.dispatch merged agent command controls rulesVersion =
        (Router.dispatch (.context merged) conversationId controls rulesVersion defaultRows
          command).interpret (rt.errand agent) ∧
      SingleScope (Router.dispatch (.context merged) conversationId controls rulesVersion defaultRows
        command) := by
  intro merged
  have hmerged : (BranchId.context merged).execution conversationId = merged := by
    cases branchId with
    | id b =>
      cases conversationId <;> rfl
    | context e =>
      cases he : e.conversationId <;> simp [merged, BranchId.execution, executionContext, he]
      cases conversationId <;> rfl
  have hbare : (BranchId.context merged).execution none = merged := by
    simp only [BranchId.execution, executionContext]
    split
    · rfl
    · rename_i hnone
      cases hm : merged
      simp_all
  refine ⟨?_, ?_⟩
  · rw [Router.interpret_dispatch hbare hmerged]
    unfold AgentRuntime.dispatch
    rw [if_pos hstores]
    rfl
  · refine (single_scope_iff _ _ _ _ _ _).mpr (.inl (sameScope_iff.mpr ?_))
    rw [hmerged, hbare]

end

end Semora.Proofs.OneScope
