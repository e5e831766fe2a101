import Semora.Planes
import Semora.Proofs.Mediated

/-! What a plane answers that is assembled of stages: the same however they are nested, and for each
point what its rule makes of the answers of its stages. -/

namespace Semora.Proofs.Composed
open Semora.Lib Semora.Plane
open Prog (Played)
open ToolDecision (denies asks)
open Semora.Proofs.Order (acts mem_acts mem_snoc)
open Semora.Proofs.Mediated (Decides Revalidated RunsBy runs_permitted)

/-- What a host gives for each point, in lists or in nested lists. -/
structure Stages (F : Type → Type) (Op : Type) (Res : Op → Type) (ε : Type) where
  screens : F (OnInputs Op Res ε)
  sources : F (BeforeModel Op Res ε)
  permits : F (Plane.PreToolUse Op Res ε)
  writers : F (PostToolUse Op Res ε)
  gates : F (BeforeFinish Op Res ε)
  revalidates : Option (OnResume Op Res ε)
  persisters : F (OnSuspend Op Res ε)

section
variable {Op : Type} {Res : Op → Type} {ε : Type}

def assembled (stages : Stages List Op Res ε) : ControlPlane Op Res ε where
  onInputs := some (ingress stages.screens)
  beforeModel := some (steering stages.sources)
  preToolUse := some (permissions stages.permits)
  postToolUse := some (journal stages.writers)
  beforeFinish := some (finishPolicy stages.gates)
  onResume := stages.revalidates
  onSuspend := some (suspending stages.persisters)

abbrev Nests (S : Type) := List (Nested S)

/-- Each group composed by the rule of its point. -/
def grouped (stages : Stages Nests Op Res ε) : Stages List Op Res ε where
  screens := Nested.allFolded ingress stages.screens
  sources := Nested.allFolded steering stages.sources
  permits := Nested.allFolded permissions stages.permits
  writers := Nested.allFolded journal stages.writers
  gates := Nested.allFolded finishPolicy stages.gates
  revalidates := stages.revalidates
  persisters := Nested.allFolded suspending stages.persisters

/-- The stages alone. -/
def flattened (stages : Stages Nests Op Res ε) : Stages List Op Res ε where
  screens := Nested.allLeaves stages.screens
  sources := Nested.allLeaves stages.sources
  permits := Nested.allLeaves stages.permits
  writers := Nested.allLeaves stages.writers
  gates := Nested.allLeaves stages.gates
  revalidates := stages.revalidates
  persisters := Nested.allLeaves stages.persisters

/-! Each rule is flat. -/

theorem joins_screening : screening.Joins (fun _ b => b) where
  start _ := rfl
  goes _ := rfl
  close _ _ := rfl
  add a b d h := by
    cases d with
    | inputs screened => rfl
    | halt reason => cases h

theorem joins_permitting : permitting.Joins Option.or where
  start a := Option.or_none
  goes b := by cases b <;> rfl
  close a b := by cases b <;> simp [permitting]
  add a b d _ := by cases d <;> simp [permitting]

theorem joins_journaling : journaling.Joins (fun _ b => b) where
  start _ := rfl
  goes _ := rfl
  close _ _ := rfl
  add _ _ _ _ := rfl

/-- The vetoes of a group behind the vetoes before it. -/
def vetoed (going group : Option (List RequestPart)) : Option (List RequestPart) :=
  match group with
  | none => going
  | some steers => some (going.getD [] ++ steers)

theorem joins_finishing (reason : StopReason) : (finishing reason).Joins vetoed where
  start _ := rfl
  goes _ := rfl
  close a b := by cases b <;> rfl
  add a b d _ := by
    cases d with
    | halt reason => rfl
    | proceed steers => cases b <;> simp [finishing, vetoed]

theorem joins_collecting : collecting.Joins List.append where
  start a := List.append_nil a
  goes _ := rfl
  close _ _ := rfl
  add a b d _ := by
    cases d with
    | halt reason => rfl
    | proceed steers => simp [collecting]

theorem joins_persisting : persisting.Joins (fun _ _ => ()) where
  start _ := rfl
  goes _ := rfl
  close _ _ := rfl
  add _ _ _ _ := rfl

theorem flat_ingress : Nested.Flat
    (ingress : List (OnInputs Op Res ε) → OnInputs Op Res ε) := by
  intro xs ys zs
  funext ctx inputs
  exact Taking.flat_chain joins_screening (f := ingress)
    (g := fun screen ctx inputs => screen ctx inputs)
    (fun _ _ _ => rfl) (fun _ _ _ _ => rfl) xs ys zs ctx inputs

theorem flat_permissions : Nested.Flat
    (permissions : List (Plane.PreToolUse Op Res ε) → Plane.PreToolUse Op Res ε) := by
  intro xs ys zs
  funext ctx call
  exact Taking.flat_chain joins_permitting (X := Ctx × ToolCall) (f := permissions)
    (g := fun stage x _ => stage x.1 x.2) (fun _ _ _ => rfl) (fun _ _ _ _ => rfl) xs ys zs
    (ctx, call) none

theorem flat_journal : Nested.Flat
    (journal : List (PostToolUse Op Res ε) → PostToolUse Op Res ε) := by
  intro xs ys zs
  funext ctx call result
  exact Taking.flat_chain joins_journaling (X := Ctx × ToolCall) (f := journal)
    (g := fun write x result => write x.1 x.2 result) (fun _ _ _ => rfl) (fun _ _ _ _ => rfl)
    xs ys zs (ctx, call) result

theorem flat_finishPolicy : Nested.Flat
    (finishPolicy : List (BeforeFinish Op Res ε) → BeforeFinish Op Res ε) := by
  intro xs ys zs
  funext ctx reason
  exact Taking.flat_chain (joins_finishing reason) (f := finishPolicy)
    (g := fun verify (ctx : Ctx) _ => verify ctx reason) (fun _ _ _ => rfl)
    (fun _ _ _ _ => rfl) xs ys zs ctx none

theorem flat_steering : Nested.Flat
    (steering : List (BeforeModel Op Res ε) → BeforeModel Op Res ε) := by
  intro xs ys zs
  funext ctx
  exact Taking.flat_chain joins_collecting (f := steering)
    (g := fun source (ctx : Ctx) _ => source ctx)
    (fun _ _ _ => rfl) (fun _ _ _ _ => rfl) xs ys zs ctx []

theorem flat_suspending : Nested.Flat
    (suspending : List (OnSuspend Op Res ε) → OnSuspend Op Res ε) := by
  intro xs ys zs
  funext ctx call request snapshot completed
  exact Taking.flat_chain joins_persisting (f := suspending)
    (g := fun persist (x : Ctx × ToolCall × Request) _ => persist x.1 x.2.1 x.2.2 snapshot completed)
    (fun _ _ _ => rfl) (fun _ _ _ _ => rfl) xs ys zs (ctx, call, request) ()

/-- However a host nests the stages of each point, the plane asks what the plane of the stages alone
would ask, in that order, and answers what that would answer. -/
theorem nested_flat (stages : Stages Nests Op Res ε) :
    assembled (grouped stages) = assembled (flattened stages) := by
  simp only [assembled, grouped, flattened, Nested.folded_leaves flat_ingress,
    Nested.folded_leaves flat_permissions, Nested.folded_leaves flat_journal,
    Nested.folded_leaves flat_finishPolicy, Nested.folded_leaves flat_steering,
    Nested.folded_leaves flat_suspending]

/-! What each rule makes of the answers. -/

/-- A suspension, if there is one, and the first of them; or else leave. -/
def permit (decisions : List ToolDecision) : ToolDecision :=
  match decisions.findSome? asks with
  | some request => .suspend request
  | none => .continue

def halts : TurnDecision → Bool
  | .halt _ => true
  | .proceed _ => false

def steers : TurnDecision → List RequestPart
  | .proceed more => more
  | .halt _ => []

/-- The end of the run only if no verifier has an objection, and else all they ask for. -/
def finish (reason : StopReason) (decisions : List TurnDecision) : TurnDecision :=
  if decisions.all halts then .halt reason else .proceed (decisions.flatMap steers)

theorem permitting_folded (decisions : List ToolDecision) (asked : Option Request) :
    decisions.foldl permitting.add asked = asked.or (decisions.findSome? asks) := by
  induction decisions generalizing asked with
  | nil => simp
  | cons d decisions ih =>
    rw [List.foldl_cons, ih]
    cases d <;> simp [permitting, asks, List.findSome?_cons]

theorem collecting_folded (decisions : List TurnDecision) (before : List RequestPart) :
    decisions.foldl collecting.add before = before ++ decisions.flatMap steers := by
  induction decisions generalizing before with
  | nil => simp
  | cons d decisions ih =>
    rw [List.foldl_cons, ih]
    cases d <;> simp [collecting, steers]

theorem finishing_folded (reason : StopReason) (decisions : List TurnDecision)
    (going : Option (List RequestPart)) :
    decisions.foldl (finishing reason).add going =
      if decisions.all halts then going
      else some (going.getD [] ++ decisions.flatMap steers) := by
  induction decisions generalizing going with
  | nil => rfl
  | cons d decisions ih =>
    rw [List.foldl_cons, ih]
    cases d with
    | halt reason' => simp [finishing, halts, steers]
    | proceed more =>
      cases hall : decisions.all halts with
      | false => simp [finishing, halts, steers, hall]
      | true =>
        have hnone : decisions.flatMap steers = [] := by
          refine List.flatMap_eq_nil_iff.mpr (fun d hd => ?_)
          have hhalts := List.all_eq_true.mp hall d hd
          cases d with
          | halt reason => rfl
          | proceed more => cases hhalts
        simp [finishing, halts, steers, hall, hnone]

/-- How a point comes to its answer. The permissions, the sources, the verifiers and the persisters
of a point know nothing of each other; a screen and a writer are given what those before them have
left. -/
def Comes (stages : Stages List Op Res ε) :
    (q : Question) → List (Prog.Done Res ε) → Except ε q.Reply → Prop
  | .onInputs ctx inputs, done, r =>
    Taking.Comes screening (stages.screens.map (fun screen => screen ctx)) inputs done r
  | .beforeModel ctx, done, r =>
    Taking.Settles halts (fun decisions => .proceed (decisions.flatMap steers))
      (stages.sources.map (fun source => source ctx)) done r
  | .preToolUse ctx call, done, r =>
    Taking.Settles denies permit (stages.permits.map (fun stage => stage ctx call)) done r
  | .postToolUse ctx call result, done, r =>
    Taking.Comes journaling (stages.writers.map (fun write => write ctx call)) result done r
  | .beforeFinish ctx reason, done, r =>
    Taking.Settles (fun _ => false) (finish reason)
      (stages.gates.map (fun verify => verify ctx reason)) done r
  | .onResume ctx call resume, done, r =>
    if resume.answer.type = some "error" then done = [] ∧ r = .ok (.deny (shown resume.answer))
    else match stages.revalidates with
      | none => done = [] ∧ r = .ok .continue
      | some stage => Played (stage ctx call resume) done (Prog.ofExcept r)
  | .onSuspend ctx call request snapshot completed, done, r =>
    Taking.Settles (fun _ => false) (fun _ => ())
      (stages.persisters.map (fun persist => persist ctx call request snapshot completed)) done r

theorem played_ret {α : Type} {a : α} {done : List (Prog.Done Res ε)} {r : Except ε α} :
    Played (.ret a) done (Prog.ofExcept r) ↔ done = [] ∧ r = .ok a := by
  constructor
  · intro h
    obtain ⟨rfl, hr⟩ := Prog.played_ended (r := .ok a) h
    cases r <;> cases hr
    exact ⟨rfl, rfl⟩
  · intro h
    obtain ⟨rfl, rfl⟩ := h
    exact .nil _

/-- A point has performed and answered what its rule says, and can in no other way. -/
theorem comes_iff (stages : Stages List Op Res ε) (q : Question) (done : List (Prog.Done Res ε))
    (r : Except ε q.Reply) :
    Played ((assembled stages).answer q) done (Prog.ofExcept r) ↔ Comes stages q done r := by
  have hblind : ∀ {A D : Type} (T : Taking A D) (verdict : List D → D) (a : A)
      (ps : List (Prog Op Res ε D)) (done : List (Prog.Done Res ε)) (r : Except ε D),
      (∀ ds, T.close (ds.foldl T.add a) = verdict ds) →
      (Played (T.chain (ps.map (fun p _ => p)) a) done (Prog.ofExcept r) ↔
        Taking.Settles T.stops verdict ps done r) := by
    intro A D T verdict a ps done r hverdict
    rw [Taking.played_blind]
    simp only [hverdict]
  cases q with
  | onInputs ctx inputs => exact Taking.played_chain
  | postToolUse ctx call result => exact Taking.played_chain
  | beforeModel ctx =>
    have hchain := hblind collecting (fun decisions => .proceed (decisions.flatMap steers)) []
      (stages.sources.map (fun source => source ctx)) done r
      (fun decisions => congrArg _ (collecting_folded decisions []))
    rw [List.map_map] at hchain
    exact hchain
  | preToolUse ctx call =>
    have hchain := hblind permitting permit none
      (stages.permits.map (fun stage => stage ctx call)) done r (fun decisions => by
        rw [permitting_folded, Option.none_or]
        rfl)
    rw [List.map_map] at hchain
    exact hchain
  | beforeFinish ctx reason =>
    have hchain := hblind (finishing reason) (finish reason) none
      (stages.gates.map (fun verify => verify ctx reason)) done r (fun decisions => by
        rw [finishing_folded]
        unfold finish
        split <;> rfl)
    rw [List.map_map] at hchain
    exact hchain
  | onSuspend ctx call request snapshot completed =>
    have hchain := hblind persisting (fun _ => ()) ()
      (stages.persisters.map (fun persist => persist ctx call request snapshot completed)) done r
      (fun _ => rfl)
    rw [List.map_map] at hchain
    exact hchain
  | onResume ctx call resume =>
    simp only [ControlPlane.answer, Comes]
    split
    · exact played_ret
    · simp only [assembled]
      cases stages.revalidates with
      | none => exact played_ret
      | some stage => exact Iff.rfl

/-! Stages that only look at the context and the call. -/

mutual

/-- The stage as a program. -/
def awaited : Semora.PreToolUse → Plane.PreToolUse Op Res ε
  | .gate _ decide => fun ctx call => .ret (decide ctx call)
  | .permissions stages => permissions (allAwaited stages)

def allAwaited : List Semora.PreToolUse → List (Plane.PreToolUse Op Res ε)
  | [] => []
  | stage :: stages => awaited stage :: allAwaited stages

end

mutual

/-- It awaits nothing, and decides what the stage decides. -/
theorem awaited_decision (ctx : Ctx) (call : ToolCall) : ∀ stage : Semora.PreToolUse,
    (awaited stage : Plane.PreToolUse Op Res ε) ctx call = .ret (stage.decision ctx call).1
  | .gate _ _ => rfl
  | .permissions stages => allAwaited_evaluate ctx call none stages

theorem allAwaited_evaluate (ctx : Ctx) (call : ToolCall) (asked : Option Request) :
    ∀ stages : List Semora.PreToolUse,
      permitting.chain ((allAwaited stages : List (Plane.PreToolUse Op Res ε)).map
        (fun stage _ => stage ctx call)) asked =
      .ret (Semora.PreToolUse.evaluate ctx call asked stages).1
  | [] => by cases asked <;> rfl
  | stage :: stages => by
    have hstage := awaited_decision ctx call stage
    have hrest := fun asked => allAwaited_evaluate ctx call asked stages
    simp only [allAwaited, List.map_cons, Taking.chain, hstage, Prog.ret_bind,
      Semora.PreToolUse.evaluate]
    cases hdecision : (stage.decision ctx call).1 with
    | deny result => rfl
    | «continue» => exact hrest asked
    | suspend request => exact hrest (asked.or (some request))

end

end

/-! The stages in a run of the runtime. -/

section
variable {Op' : Type} {Res : Op' → Type} {stages : Stages List Op' Res Exn} {plane : String}
variable {out : Outside} {self : Nat → Nat} {i : Nat}

/-- Every question to the plane is answered by the stages, whatever they await for it. -/
def Hosts (stages : Stages List Op' Res Exn) (plane : String) (out : Outside) : Prop :=
  ∀ t q, ∃ done, Played ((assembled stages).answer q) done (Prog.ofExcept (out.ask t plane q))

/-- The stage lets it through. -/
def Lets (p : Prog Op' Res Exn ToolDecision) : Prop := ∃ done, Played p done (.ret .continue)

/-- What was asked before a tool ran, and what each stage said to it: all permissions let the call
through; or a person's answer is no error, and the stage that revalidates it agreed; or the caller
brought the approval itself, with no answer behind it. -/
inductive Vetted (stages : Stages List Op' Res Exn) (plane : String) (op : Operation)
    (done : List Semora.Done) (call : ToolCall) (args : Json) : Prop
  | permitted (here : Ctx)
      (asked : (⟨.ask plane (.preToolUse here call), .ok .continue⟩ : Semora.Done) ∈ done)
      (all : ∀ permit ∈ stages.permits, Lets (permit here call))
  | answered (here : Ctx) (resume : ResumeInput)
      (asked : (⟨.ask plane (.onResume here (Effects.withArgs call args) resume),
        .ok .continue⟩ : Semora.Done) ∈ done)
      (approves : resume.answer.type ≠ some "error")
      (agrees : ∀ stage, stages.revalidates = some stage →
        Lets (stage here (Effects.withArgs call args) resume))
  | brought (override : Option (List (String × Json)))
      (given : (call.toolCallId, .approved override) ∈ Throughout.results op)
      (bare : fetch call.toolCallId (Throughout.resumed op) = none)

/-- The permissions let a call through only if each of them does. -/
theorem permits_continue {here : Ctx} {call : ToolCall} {done : List (Prog.Done Res Exn)}
    (h : Played ((assembled stages).answer (.preToolUse here call)) done (.ret .continue)) :
    ∀ stage ∈ stages.permits, Lets (stage here call) := by
  have hcomes := (comes_iff stages (.preToolUse here call) done (.ok .continue)).mp h
  intro stage hstage
  rcases hcomes with ⟨ds, hanswers, hgoes, hverdict⟩ | ⟨front, p, back, before, part, ds, -, -, -, -,
    -, hstops⟩
  · have hnone : ds.findSome? asks = none := by
      cases hfound : ds.findSome? asks with
      | none => rfl
      | some request =>
        rw [permit, hfound] at hverdict
        cases hverdict
    obtain ⟨d, hd, part, hplayed⟩ := hanswers.each (List.mem_map.mpr ⟨stage, hstage, rfl⟩)
    have hcontinue : d = .continue := by
      cases d with
      | «continue» => rfl
      | deny result => exact absurd (hgoes _ hd) (by simp [denies])
      | suspend request =>
        have hasks := List.findSome?_eq_none_iff.mp hnone _ hd
        cases hasks
    exact ⟨part, hcontinue ▸ hplayed⟩
  · cases hstops _ rfl

/-- Where a person's answer is let through, it is no error, and the current policy agrees. -/
theorem resume_continue {here : Ctx} {call : ToolCall} {resume : ResumeInput}
    {done : List (Prog.Done Res Exn)}
    (h : Played ((assembled stages).answer (.onResume here call resume)) done (.ret .continue)) :
    resume.answer.type ≠ some "error" ∧
      ∀ stage, stages.revalidates = some stage → Lets (stage here call resume) := by
  have hcomes := (comes_iff stages (.onResume here call resume) done (.ok .continue)).mp h
  simp only [Comes] at hcomes
  split at hcomes
  · obtain ⟨-, hdeny⟩ := hcomes
    cases hdeny
  · rename_i happroves
    refine ⟨happroves, fun stage hstage => ?_⟩
    rw [hstage] at hcomes
    exact ⟨done, hcomes⟩

/-- What a thread is answered by a plane, the world answers. -/
theorem asked_world {pool pool' : Nat → Program Reply} {s s' : Scene} {q : Question}
    {r : Except Exn q.Reply} (fresh : log i s.events = [])
    (run : Interleaved (exec out self) (fun _ _ => False) pool s pool' s')
    (asked : (⟨i, .ask plane q, r⟩ : Event) ∈ s'.events) : ∃ t, r = out.ask t plane q := by
  refine run.invariant (I := fun s => ∀ r : Except Exn q.Reply,
    (⟨i, .ask plane q, r⟩ : Event) ∈ s.events → ∃ t, r = out.ask t plane q) ?_
    (fun _ _ h => h.elim) ?_ r asked
  · intro j o s r' s' he h r hmem
    obtain ⟨hevents, -, hreply⟩ := exec_events he
    rw [hevents] at hmem
    rcases mem_snoc hmem with hold | heq
    · exact h r hold
    · cases heq
      exact ⟨_, hreply⟩
  · intro r hmem
    have hlogged : (⟨i, .ask plane q, r⟩ : Event) ∈ log i s.events :=
      List.mem_filter.mpr ⟨hmem, by simp⟩
    rw [fresh] at hlogged
    cases hlogged

/-- Whatever an operation of the runtime does among any others, it runs no tool that a single one of
the composed permissions does not let through, but behind a person's answer that is no error and
that the current policy agrees with, or an approval the caller brought. -/
theorem stages_permit {rt : AgentRuntime} {agent : Agent} {op : Operation} {e : Execution}
    {pool pool' : Nat → Program Reply} {s s' : Scene} (decides : Decides agent.toPydanticAI)
    (serves : pool i = rt.serve agent e op ∨ pool i = settled op (rt.serve agent e op))
    (controlled : (Throughout.controls op <|> agent.own) = some plane)
    (hosts : Hosts stages plane out)
    (apart : ∀ j, j ≠ i → self j ≠ self i) (fresh : log i s.events = [])
    (run : Interleaved (exec out self) (fun _ _ => False) pool s pool' s') :
    RunsBy (Vetted stages plane op) i s' := by
  intro before call args r after hlog
  have hanswered : ∀ {q : Question} {r : Except Exn q.Reply},
      (⟨.ask plane q, r⟩ : Semora.Done) ∈ acts before →
      ∃ done, Played ((assembled stages).answer q) done (Prog.ofExcept r) := by
    intro q r hasked
    have hevent := mem_acts (hlog ▸ List.prefix_append _ _) hasked
    obtain ⟨t, rfl⟩ := asked_world fresh run hevent
    exact hosts t q
  have hrevalidated : ∀ {resume : ResumeInput},
      Revalidated plane (Effects.withArgs call args) resume (acts before) →
      Vetted stages plane op (acts before) call args := by
    intro resume hasked
    obtain ⟨here, hmem⟩ := hasked
    obtain ⟨done, hplayed⟩ := hanswered hmem
    obtain ⟨happroves, hagrees⟩ := resume_continue hplayed
    exact .answered here resume hmem happroves hagrees
  cases runs_permitted decides serves apart fresh run before call args r after hlog with
  | policy asked free runs =>
    obtain ⟨here, hmem⟩ := asked plane controlled
    obtain ⟨done, hplayed⟩ := hanswered hmem
    exact .permitted here hmem (permits_continue hplayed)
  | answered active taken parked request listed same answer found approves asked runs =>
    obtain ⟨request', rules, -, hasked⟩ := asked plane controlled
    exact hrevalidated hasked
  | brought override given asked runs =>
    cases hback : fetch call.toolCallId (Throughout.resumed op) with
    | none => exact .brought override given hback
    | some back =>
      obtain ⟨rules, hasked⟩ := asked plane back controlled hback
      exact hrevalidated hasked

end

/-- What stages say that await nothing. -/
def said {Res : Empty → Type} {α : Type} : Prog Empty Res Exn α → Except Exn α
  | .ret a => .ok a
  | .raise e => .error e
  | .call o _ => o.elim

theorem played_said {Res : Empty → Type} {α : Type} (p : Prog Empty Res Exn α) :
    Played p [] (Prog.ofExcept (said p)) := by
  cases p with
  | ret a => exact .nil _
  | raise e => exact .nil _
  | call o k => exact o.elim

/-- Two permissions, of which the second asks a person. -/
def cautious : Stages List Empty (fun _ => Unit) Exn where
  screens := []
  sources := []
  permits := [fun _ _ => .ret .continue, fun _ _ => .ret (.suspend { pendingId := some "p1" })]
  writers := []
  gates := []
  revalidates := none
  persisters := []

/-- A world in which a person is asked, and in which every plane is made of these stages. -/
def staged : Outside :=
  { Mediated.personal with ask := fun _ _ q => said ((assembled cautious).answer q) }

def answered : (Nat → Program Reply) × Scene :=
  scheduled (Scene.perform staged id) (List.replicate 62 0 ++ List.replicate 99 1)
    Mediated.promptThenApprove ⟨{}, fun _ => {}, []⟩

/-- The tool that the second permission did not let through ran behind the person's answer. -/
theorem stages_permit_answered : (log 1 answered.2.events).any Mediated.ran = true ∧
    RunsBy (Vetted cautious "plane" Mediated.approve) 1 answered.2 := by
  refine ⟨by decide +kernel, ?_⟩
  have serves : Mediated.promptThenApprove 1 = ({} : AgentRuntime).serve Mediated.sender
    { branchId := "run" } Mediated.approve := rfl
  have run := interleaved_scheduled (Scene.perform staged id) (fun _ _ => False)
    (List.replicate 62 0 ++ List.replicate 99 1) Mediated.promptThenApprove
    ⟨{}, fun _ => {}, []⟩
  exact stages_permit (Mediated.decides_standard Mediated.counted ["send"] 8) (.inl serves) rfl
    (fun _ q => ⟨[], played_said _⟩) (fun _ hj => hj) rfl run

end Semora.Proofs.Composed
