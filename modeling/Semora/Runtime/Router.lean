import Semora.Lib.Interpret
import Semora.Runtime.Instance

/-! The router by itself: its rows derive the coordinate of every call they make on the runtime from
the branch and the options they are handed. -/

namespace Semora
open Semora.Lib Semora.Store Semora.Transcript

/-- The primitives of the runtime that a router reaches. -/
inductive Primitive
  | state
  | run (prompt : Option String) (options : Options)
  | submit (item : PendingInput)
  | resume (pendingId : String) (answer : Answer) (controls : Option String) (rulesVersion : String)
  | recover (history : List ModelMessage) (controls : Option String) (rulesVersion : String)
  | committedHistory

@[reducible] def Primitive.Reply : Primitive → Type
  | state => String
  | run .. => Outcome
  | submit _ => PendingInput
  | resume .. => Outcome
  | recover .. => Outcome
  | committedHistory => List ModelMessage

/-- What a row does itself: it stamps a part, or calls the runtime at an execution. -/
inductive Errand
  | now
  | serve (e : Execution) (p : Primitive)

@[reducible] def Errand.Res : Errand → Type
  | now => Nat
  | serve _ p => p.Reply

abbrev Routing := Prog Errand Errand.Res Exn

def errand (o : Errand) : Routing o.Res := .op o

/-- The shipped rows. -/
inductive Row
  | startRun
  | queueSteer
  | resumeApproval
  | recoverInterrupted
  | replayJournal
deriving DecidableEq

namespace Row

def applies : Row → Command → Bool
  | startRun, .prompt .. | queueSteer, .prompt .. => true
  | resumeApproval, .answer .. => true
  | recoverInterrupted, .recover | replayJournal, .recover => true
  | _, _ => false

def states : Row → Option (List String)
  | recoverInterrupted => some ["waiting", "resuming"]
  | replayJournal => some ["interrupted"]
  | _ => none

end Row

namespace Router

-- The caller names the branch, and may name its conversation among the options.
variable (branchId : BranchId) (conversationId controls : Option String) (rulesVersion : String)

/-- A call that is handed the options. -/
def withOptions (p : Primitive) : Routing p.Reply :=
  errand (.serve (branchId.execution conversationId) p)

/-- A call that is handed the branch alone. -/
def bare (p : Primitive) : Routing p.Reply := errand (.serve (branchId.execution none) p)

def invalidTransition {α : Type} (state : String) (command : Command) : Routing α :=
  let name := match command with
    | .prompt .. => "Prompt"
    | .answer .. => "Answer"
    | .recover => "Recover"
  .raise (.other s!"{name} is invalid while the run is '{state}'")

def unsupported {α : Type} : Routing α := .raise (.other "AssertionError")

/-- The state already observed, or a fresh observation. -/
def named (state : Option String) : Routing String :=
  match state with
  | some state => return state
  | none => bare branchId .state

def apply : Row → Command → Option String → Routing Applied
  | .startRun, .prompt text promptId, _ => do
    let outcome ← withOptions branchId conversationId
      (.run (some text) { controls, rulesVersion, promptId })
    return .outcome outcome
  | .queueSteer, .prompt text promptId, _ => do
    let instant ← errand .now
    let item ← bare branchId
      (.submit ⟨"user_prompt", .userPrompt (.str text) (.int instant), promptId⟩)
    return .enqueued (item.originId.getD "")
  | .resumeApproval, command@(.answer pendingId payload), state =>
    (do
      let outcome ← withOptions branchId conversationId
        (.resume pendingId payload controls rulesVersion)
      return Applied.outcome outcome).tryCatch fun error =>
        match error with
        | .lookupError _ => do
          let state ← named branchId state
          invalidTransition state command
        | error => .raise error
  | .recoverInterrupted, _, _ => do
    let history ← withOptions branchId conversationId .committedHistory
    let outcome ← withOptions branchId conversationId (.recover history controls rulesVersion)
    return .outcome outcome
  | .replayJournal, _, _ => do
    let outcome ← withOptions branchId conversationId (.run none { controls, rulesVersion })
    return .outcome outcome
  | _, _, _ => unsupported

/-- Offer the command to the rows that accept the observed state, in order; contention hands it
to the next one. -/
def offer (command : Command) (state : Option String) : List Row → Option Exn → Routing Applied
  | [], some contended => .raise contended
  | [], none => do
    let state ← named branchId state
    invalidTransition state command
  | row :: rows, contended =>
    if row.states.all (fun states => state.any (fun s => s ∈ states)) then
      (apply branchId conversationId controls rulesVersion row command state).tryCatch fun error =>
        match error with
        | .store (.contended b) => offer command state rows (some (.store (.contended b)))
        | error => .raise error
    else offer command state rows contended

/-- Observe the state only if a candidate row declares the states it accepts. -/
def observe (candidates : List Row) : Routing (Option String) :=
  if candidates.any (fun row => row.states.isSome) then do
    let state ← bare branchId .state
    return some state
  else return none

/-- Route one command through a table. -/
def dispatch (rows : List Row) (command : Command) : Routing Applied := do
  let candidates := rows.filter (fun row => row.applies command)
  let state ← observe branchId candidates
  offer branchId conversationId controls rulesVersion command state candidates none

end Router

namespace AgentRuntime

variable (rt : AgentRuntime) (agent : Agent)

/-- What the runtime does when a row calls it. -/
def errand : (o : Errand) → Program o.Res
  | .now => Semora.now
  | .serve e .state => rt.state e
  | .serve e (.run prompt options) => rt.run e agent prompt options
  | .serve e (.submit item) => rt.submit e item
  | .serve e (.resume pendingId answer controls rulesVersion) =>
    rt.resume e pendingId answer agent controls rulesVersion
  | .serve e (.recover history controls rulesVersion) =>
    rt.recover e agent history controls rulesVersion
  | .serve e .committedHistory => rt.committedHistory e

end AgentRuntime

namespace Router

variable (rt : AgentRuntime) (agent : Agent) (e : Execution) (controls : Option String)
variable (rulesVersion : String)

/-- The row at one execution. -/
def transition : Row → Transition
  | .startRun => Dispatch.startRun rt e agent controls rulesVersion
  | .queueSteer => Dispatch.queueSteer rt e
  | .resumeApproval => Dispatch.resumeApproval rt e agent controls rulesVersion
  | .recoverInterrupted => Dispatch.recoverInterrupted rt e agent controls rulesVersion
  | .replayJournal => Dispatch.replayJournal rt e agent controls rulesVersion

section
variable {rt agent e controls rulesVersion} {branchId : BranchId} {conversationId : Option String}

theorem transition_applies (row : Row) (command : Command) :
    (transition rt agent e controls rulesVersion row).applies command = row.applies command := by
  cases row <;> cases command <;> rfl

theorem transition_states (row : Row) :
    (transition rt agent e controls rulesVersion row).states = row.states := by
  cases row <;> rfl

variable (hbare : branchId.execution none = e) (hwith : branchId.execution conversationId = e)
include hbare

theorem interpret_named (state : Option String) :
    (named branchId state).interpret (rt.errand agent) = Dispatch.named rt e state := by
  cases state with
  | some state => rfl
  | none => exact (Prog.interpret_op _ _).trans (by rw [hbare]; rfl)

include hwith

theorem interpret_apply {row : Row} {command : Command} (happlies : row.applies command)
    (state : Option String) :
    (apply branchId conversationId controls rulesVersion row command state).interpret
        (rt.errand agent) =
      (transition rt agent e controls rulesVersion row).apply command state := by
  have hserve : ∀ p, (withOptions branchId conversationId p).interpret (rt.errand agent) =
      rt.errand agent (.serve e p) := by
    intro p
    rw [← hwith]
    exact Prog.interpret_op _ _
  cases row with
  | startRun =>
    cases command with
    | prompt text promptId =>
      refine (Prog.interpret_bind _ _ _).trans ?_
      rw [hserve]
      rfl
    | answer | recover => cases happlies
  | queueSteer =>
    cases command with
    | prompt text promptId =>
      refine (Prog.interpret_bind _ _ _).trans ?_
      refine congrArg₂ Prog.bind (Prog.interpret_op _ _) (funext (fun instant => ?_))
      refine (Prog.interpret_bind _ _ _).trans ?_
      refine congrArg₂ Prog.bind ((Prog.interpret_op _ _).trans ?_) (funext (fun item => rfl))
      rw [hbare]
      rfl
    | answer | recover => cases happlies
  | resumeApproval =>
    cases command with
    | answer pendingId payload =>
      refine (Prog.interpret_tryCatch _ _ _).trans ?_
      refine congrArg₂ Prog.tryCatch ?_ (funext (fun error => ?_))
      · refine (Prog.interpret_bind _ _ _).trans ?_
        rw [hserve]
        rfl
      · cases error with
        | lookupError message =>
          refine (Prog.interpret_bind _ _ _).trans ?_
          rw [interpret_named hbare]
          rfl
        | _ => rfl
    | prompt | recover => cases happlies
  | recoverInterrupted =>
    refine (Prog.interpret_bind _ _ _).trans ?_
    rw [hserve]
    refine congrArg (Prog.bind _) (funext (fun history => ?_))
    refine (Prog.interpret_bind _ _ _).trans ?_
    rw [hserve]
    rfl
  | replayJournal =>
    refine (Prog.interpret_bind _ _ _).trans ?_
    rw [hserve]
    rfl

theorem interpret_offer {command : Command} (state : Option String) {rows : List Row}
    (happly : ∀ row ∈ rows, row.applies command) (contended : Option Exn) :
    (offer branchId conversationId controls rulesVersion command state rows contended).interpret
        (rt.errand agent) =
      Dispatch.offer rt e command state
        (rows.map (transition rt agent e controls rulesVersion)) contended := by
  induction rows generalizing contended with
  | nil =>
    cases contended with
    | some error => rfl
    | none =>
      refine (Prog.interpret_bind _ _ _).trans ?_
      rw [interpret_named hbare]
      rfl
  | cons row rows ih =>
    have hrest := ih (fun later hmem => happly later (List.mem_cons_of_mem _ hmem))
    rw [List.map_cons]
    unfold offer Dispatch.offer
    rw [transition_states]
    split
    · refine (Prog.interpret_tryCatch _ _ _).trans ?_
      rw [interpret_apply hbare hwith (happly row List.mem_cons_self)]
      refine congrArg _ (funext (fun error => ?_))
      cases error with
      | store error =>
        cases error with
        | contended b => exact hrest _
        | _ => rfl
      | _ => rfl
    · exact hrest _

/-- Where the branch and the options name one coordinate, the router is the runtime's own. -/
theorem interpret_dispatch (rows : List Row) (command : Command) :
    (dispatch branchId conversationId controls rulesVersion rows command).interpret
        (rt.errand agent) =
      Dispatch.route rt e (rows.map (transition rt agent e controls rulesVersion)) command := by
  have hcandidates : (rows.map (transition rt agent e controls rulesVersion)).filter
      (fun row => row.applies command) =
      (rows.filter (fun row => row.applies command)).map
        (transition rt agent e controls rulesVersion) := by
    rw [List.filter_map]
    congr 2
    funext row
    exact transition_applies row command
  have hobserve : ∀ candidates, (observe branchId candidates).interpret (rt.errand agent) =
      Dispatch.observe rt e (candidates.map (transition rt agent e controls rulesVersion)) := by
    intro candidates
    have hany : (candidates.map (transition rt agent e controls rulesVersion)).any
        (fun row => row.states.isSome) = candidates.any (fun row => row.states.isSome) := by
      rw [List.any_map]
      congr 1
      funext row
      exact congrArg Option.isSome (transition_states row)
    unfold observe Dispatch.observe
    rw [hany]
    split
    · refine (Prog.interpret_bind _ _ _).trans (congrArg₂ Prog.bind ?_ rfl)
      exact (Prog.interpret_op _ _).trans (by rw [hbare]; rfl)
    · rfl
  unfold dispatch Dispatch.route
  refine (Prog.interpret_bind _ _ _).trans ?_
  rw [hcandidates, hobserve]
  refine congrArg (Prog.bind _) (funext (fun state => ?_))
  exact interpret_offer hbare hwith state (fun row hrow => (List.mem_filter.mp hrow).2) none

end

end Router

end Semora
