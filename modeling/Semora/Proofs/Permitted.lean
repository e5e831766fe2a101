import Semora.Effects.Boundary

/-! Permission stages in any nesting: a denial stands over a suspension, and a suspension over
leave. -/

namespace Semora.Proofs.Permitted
open Semora.Lib Semora.Store Effects PreToolUse
open ToolDecision (denies asks)

/-! What stages answer, each by itself. -/

mutual

/-- The stages in the order in which they are asked, each with its own answer. -/
def answers (ctx : Ctx) (call : ToolCall) : PreToolUse → List (String × ToolDecision)
  | .gate name decide => [(name, decide ctx call)]
  | .permissions stages => allAnswers ctx call stages

def allAnswers (ctx : Ctx) (call : ToolCall) : List PreToolUse → List (String × ToolDecision)
  | [] => []
  | stage :: stages => answers ctx call stage ++ allAnswers ctx call stages

end

/-- The first denial, or else the first suspension, or else leave. -/
def composed (asked : Option Request) (answers : List (String × ToolDecision)) : ToolDecision :=
  match answers.find? (fun answer => denies answer.2) with
  | some answer => answer.2
  | none =>
    match asked.or (answers.findSome? (fun answer => asks answer.2)) with
    | some request => .suspend request
    | none => .continue

/-- The stages up to the first that denies. -/
def asked : List (String × ToolDecision) → List String
  | [] => []
  | answer :: answers => answer.1 :: if denies answer.2 then [] else asked answers

/-- Whether any of them denies. -/
def denied (answers : List (String × ToolDecision)) : Bool :=
  answers.any (fun answer => denies answer.2)

/-- The first suspension of them. -/
def suspension (answers : List (String × ToolDecision)) : Option Request :=
  answers.findSome? (fun answer => asks answer.2)

section
variable {answers more : List (String × ToolDecision)} {first : Option Request}

theorem composed_denied (h : denied answers = true) :
    ∃ result, ∀ first, composed first answers = .deny result := by
  have hfound : (answers.find? (fun answer => denies answer.2)).isSome = true := by
    rw [List.find?_isSome]
    exact List.any_eq_true.mp h
  obtain ⟨answer, hanswer⟩ := Option.isSome_iff_exists.mp hfound
  have hdenies : denies answer.2 = true := by
    have hsome := List.find?_some hanswer
    exact hsome
  unfold composed
  rw [hanswer]
  cases hdecision : answer.2 with
  | deny result => exact ⟨result, fun _ => hdecision⟩
  | «continue» => rw [hdecision] at hdenies; cases hdenies
  | suspend r => rw [hdecision] at hdenies; cases hdenies

theorem composed_kept (h : denied answers = false) :
    composed first answers =
      match first.or (suspension answers) with
      | some request => .suspend request
      | none => .continue := by
  have hfound : answers.find? (fun answer => denies answer.2) = none := by
    rw [List.find?_eq_none]
    intro answer hanswer hdenies
    exact absurd (List.any_eq_true.mpr ⟨answer, hanswer, hdenies⟩) (Bool.eq_false_iff.mp h)
  unfold composed
  rw [hfound]
  rfl

theorem denied_append : denied (answers ++ more) = (denied answers || denied more) :=
  List.any_append

theorem suspension_append :
    suspension (answers ++ more) = (suspension answers).or (suspension more) :=
  List.findSome?_append

theorem composed_append :
    composed first (answers ++ more) =
      if denied answers then composed first answers
      else composed (first.or (suspension answers)) more := by
  cases hdenied : denied answers with
  | true =>
    unfold composed
    have hfound : (answers.find? (fun answer => denies answer.2)).isSome = true := by
      rw [List.find?_isSome]
      exact List.any_eq_true.mp hdenied
    obtain ⟨answer, hanswer⟩ := Option.isSome_iff_exists.mp hfound
    rw [List.find?_append, hanswer]
    rfl
  | false =>
    rw [if_neg Bool.false_ne_true]
    cases hmore : denied more with
    | true =>
      have hfound : answers.find? (fun answer => denies answer.2) = none := by
        rw [List.find?_eq_none]
        intro answer hanswer hdenies
        exact absurd (List.any_eq_true.mpr ⟨answer, hanswer, hdenies⟩)
          (Bool.eq_false_iff.mp hdenied)
      have hlater : (more.find? (fun answer => denies answer.2)).isSome = true := by
        rw [List.find?_isSome]
        exact List.any_eq_true.mp hmore
      obtain ⟨answer, hanswer⟩ := Option.isSome_iff_exists.mp hlater
      unfold composed
      rw [List.find?_append, hfound, hanswer]
      rfl
    | false =>
      have hboth : denied (answers ++ more) = false := by
        rw [denied_append, hdenied, hmore]
        rfl
      rw [composed_kept hboth, composed_kept hmore, suspension_append, Option.or_assoc]

theorem asked_append :
    asked (answers ++ more) =
      if denied answers then asked answers else asked answers ++ asked more := by
  induction answers with
  | nil => rfl
  | cons answer answers ih =>
    have hdenied : denied (answer :: answers) = (denies answer.2 || denied answers) := List.any_cons
    rw [List.cons_append, asked, asked, ih, hdenied]
    cases denies answer.2 <;> cases denied answers <;> simp

theorem asked_all (h : denied answers = false) : asked answers = answers.map Prod.fst := by
  induction answers with
  | nil => rfl
  | cons answer answers ih =>
    have hboth : denies answer.2 = false ∧ denied answers = false := Bool.or_eq_false_iff.mp h
    rw [asked, hboth.1, ih hboth.2]
    rfl

end

mutual

/-- Nested or not, the stages decide as one list of them. -/
theorem decision_eq (ctx : Ctx) (call : ToolCall) (stage : PreToolUse) :
    stage.decision ctx call =
      (composed none (answers ctx call stage), asked (answers ctx call stage)) := by
  cases stage with
  | gate name decide =>
    unfold decision answers
    cases hdecide : decide ctx call <;> simp [composed, asked, denies, asks]
  | permissions stages =>
    unfold decision answers
    exact evaluate_eq ctx call none stages

theorem evaluate_eq (ctx : Ctx) (call : ToolCall) (first : Option Request)
    (stages : List PreToolUse) :
    evaluate ctx call first stages =
      (composed first (allAnswers ctx call stages), asked (allAnswers ctx call stages)) := by
  cases stages with
  | nil => cases first <;> rfl
  | cons stage stages =>
    unfold evaluate allAnswers
    rw [decision_eq ctx call stage, composed_append, asked_append]
    cases hdenied : denied (answers ctx call stage) with
    | true =>
      obtain ⟨result, hresult⟩ := composed_denied hdenied
      simp [hresult]
    | false =>
      rw [composed_kept hdenied, Option.none_or]
      cases hrequest : suspension (answers ctx call stage) with
      | none =>
        dsimp only
        rw [evaluate_eq ctx call first stages]
        simp
      | some r =>
        dsimp only
        rw [evaluate_eq ctx call (first.or (some r)) stages]
        simp

end

theorem allAnswers_append (ctx : Ctx) (call : ToolCall) (stages more : List PreToolUse) :
    allAnswers ctx call (stages ++ more) =
      allAnswers ctx call stages ++ allAnswers ctx call more := by
  induction stages with
  | nil => rfl
  | cons stage stages ih => rw [List.cons_append, allAnswers, allAnswers, ih, List.append_assoc]

/-- The same stages, in any other order within their `Permissions`, at any depth. -/
inductive Reordered : PreToolUse → PreToolUse → Prop
  | refl (stage : PreToolUse) : Reordered stage stage
  | trans {stage stage' stage'' : PreToolUse} (first : Reordered stage stage')
      (next : Reordered stage' stage'') : Reordered stage stage''
  | order {stages stages' : List PreToolUse} (perm : stages.Perm stages') :
      Reordered (permissions stages) (permissions stages')
  | within {stage stage' : PreToolUse} (pre post : List PreToolUse)
      (inner : Reordered stage stage') :
      Reordered (permissions (pre ++ stage :: post)) (permissions (pre ++ stage' :: post))

theorem allAnswers_perm (ctx : Ctx) (call : ToolCall) {stages stages' : List PreToolUse}
    (h : stages.Perm stages') :
    (allAnswers ctx call stages).Perm (allAnswers ctx call stages') := by
  induction h with
  | nil => exact .refl _
  | cons stage _ ih => exact ih.append_left _
  | swap stage stage' stages =>
    simp only [allAnswers, ← List.append_assoc]
    exact List.perm_append_comm.append_right _
  | trans _ _ ih ih' => exact ih.trans ih'

/-- Reordering stages only reorders what they answer. -/
theorem answers_perm (ctx : Ctx) (call : ToolCall) {stage stage' : PreToolUse}
    (h : Reordered stage stage') : (answers ctx call stage).Perm (answers ctx call stage') := by
  induction h with
  | refl => exact .refl _
  | trans _ _ ih ih' => exact ih.trans ih'
  | order perm => exact allAnswers_perm ctx call perm
  | within pre post _ ih =>
    unfold answers
    rw [allAnswers_append, allAnswers_append, allAnswers, allAnswers]
    exact (ih.append_right _).append_left _

/-- `Permissions` in the midst of stages decides as its own stages would there. -/
theorem decision_nested (ctx : Ctx) (call : ToolCall) (pre inner post : List PreToolUse) :
    (permissions (pre ++ permissions inner :: post)).decision ctx call =
      (permissions (pre ++ inner ++ post)).decision ctx call := by
  rw [decision_eq, decision_eq]
  unfold answers
  rw [allAnswers_append, allAnswers_append, allAnswers_append, allAnswers, answers,
    List.append_assoc]

/-! At the tool boundary. -/

/-- The outside, with this stage for the permissions of a plane. -/
def governed (out : Outside) (plane : String) (stage : PreToolUse) : Outside :=
  { out with
    ask := fun n p q =>
      match q with
      | .preToolUse ctx call =>
        if p = plane then .ok (stage.decision ctx call).1 else out.ask n p (.preToolUse ctx call)
      | q => out.ask n p q }

def alone (out : Outside) (o : Op) (s : World × Attempt) : Except Exn o.Res × World × Attempt :=
  step out o s.1 s.2

/-- What the boundary comes to for a call that nobody has approved. -/
def boundary (eff : Effects) (plane : String) (out : Outside) (call : ToolCall) (args : Json)
    (s : World × Attempt) (stage : PreToolUse) : Except Exn Json × World × Attempt :=
  (beforeToolExecute { eff with controls := some plane } false call args).eval
    (alone (governed out plane stage)) s

/-- The context that the stages are shown. -/
def shown (eff : Effects) (a : Attempt) : Ctx :=
  { turn := a.runStep, messages := a.messages ++ [], callsMade := a.callsMade
    text := lastText (a.messages ++ []), subject := eff.subject }

/-- The call is not answered from a record. -/
def Unrecorded (eff : Effects) (call : ToolCall) (w : World) : Prop :=
  call.toolCallId ∈ eff.regate ∨ ∀ store, eff.store = some store →
    (w.store.step (store.filed eff.branchId) (stepKey call.toolCallId)).status ≠ "done"

section
variable {eff : Effects} {plane : String} {out : Outside} {call : ToolCall} {args : Json}
variable {s : World × Attempt} {stage : PreToolUse}

variable (out) in
theorem eval_replayed (h : Unrecorded eff call s.1) :
    ∃ s', s'.2 = s.2 ∧ (eff.replayed call).eval (alone out) s = (.ok false, s') := by
  unfold replayed
  split
  · exact ⟨s, rfl, rfl⟩
  · rename_i hgate
    unfold recorded readStep
    cases hstore : eff.store with
    | none => exact ⟨s, rfl, rfl⟩
    | some store =>
      have hnew := (h.resolve_left hgate) store hstore
      refine ⟨({ s.1 with instant := s.1.instant + 1 }, s.2), rfl, ?_⟩
      have hread : ((store.read eff.branchId (stepKey call.toolCallId)).bind
          (fun step => (.ret (decide (step.status = "done")) : Program Bool))).eval (alone out) s =
          (.ok (decide ((s.1.store.step (store.filed eff.branchId)
            (stepKey call.toolCallId)).status = "done")), { s.1 with instant := s.1.instant + 1 },
            s.2) := rfl
      rw [decide_eq_false hnew] at hread
      exact hread

variable (plane out args stage) in
/-- The boundary carries out what the gate makes of the composed decision. -/
theorem boundary_eq (h : Unrecorded eff call s.1) :
    ∃ s', s'.2 = s.2 ∧ boundary eff plane out call args s stage =
      (enforce call args (gated s.2 call (stage.decision (shown eff s.2) call).1)).eval
        (alone (governed out plane stage)) s' := by
  obtain ⟨w, a⟩ := s
  have hnew : Unrecorded { eff with controls := some plane } call
      { w with instant := w.instant + 1 } := h
  obtain ⟨⟨w', a'⟩, ha, hreplayed⟩ := eval_replayed (governed out plane stage)
    (s := ({ w with instant := w.instant + 1 }, a)) hnew
  dsimp only at ha
  subst ha
  refine ⟨({ w' with instant := w'.instant + 1 + 1 }, a'), rfl, ?_⟩
  have hctx : (Effects.ctx { eff with controls := some plane } []).eval
      (alone (governed out plane stage)) (w, a') =
      (.ok (shown eff a'), { w with instant := w.instant + 1 }, a') := rfl
  have hgate : (gate { eff with controls := some plane } (shown eff a') call).eval
      (alone (governed out plane stage)) (w', a') =
      (.ok (gated a' call (stage.decision (shown eff a') call).1),
        { w' with instant := w'.instant + 1 + 1 }, a') := by
    have hask : (Effects.ask plane (.preToolUse (shown eff a') call)).eval
        (alone (governed out plane stage)) (w', a') =
        (.ok (stage.decision (shown eff a') call).1,
          { w' with instant := w'.instant + 1 }, a') := by
      unfold Effects.ask perform
      rw [Prog.eval_op]
      simp only [alone, step, governed, ↓reduceIte]
    unfold Effects.gate policy
    simp only [Prog.bind_eq, Prog.eval_bind, hask]
    rfl
  unfold boundary beforeToolExecute verdict
  simp only [Prog.bind_eq, Prog.eval_bind, hctx, hreplayed, hgate, Bool.false_eq_true, ↓reduceIte]
  rfl

theorem enforce_outcome (d : ToolDecision) :
    ((enforce call args d).eval (alone out) s).1 =
      match d with
      | .deny result => .error (.skipToolExecution result)
      | .suspend request =>
        if request.pendingId.getD "" = "" then
          .error (.valueError s!"suspension of {quoted call.toolCallId} carries no pending_id")
        else .error (.approvalRequired request)
      | .continue => .ok args := by
  cases d with
  | deny result => rfl
  | «continue» => rfl
  | suspend request =>
    dsimp only [enforce]
    by_cases hpending : request.pendingId.getD "" = ""
    · rw [if_pos hpending, if_pos hpending]
      rfl
    · rw [if_neg hpending, if_neg hpending]
      rfl

theorem enforce_suspends {request : Request} (h : request.pendingId.getD "" ≠ "") :
    ((enforce call args (.suspend request)).eval (alone out) s).2.2.suspendedThisRound = true := by
  dsimp only [enforce]
  rw [if_neg h]
  rfl

end

inductive Kind
  | runs
  | denied
  | parks
  | fails
deriving DecidableEq

def kind : Except Exn Json → Kind
  | .ok _ => .runs
  | .error (.skipToolExecution _) => .denied
  | .error (.approvalRequired _) => .parks
  | .error _ => .fails

/-- Every suspension of a call, its own as an approval tool included, carries a pending id. -/
structure Carried (answers : List (String × ToolDecision)) (a : Attempt) (call : ToolCall) :
    Prop where
  stages : ∀ answer ∈ answers, ∀ request, answer.2 = .suspend request →
    request.pendingId.getD "" ≠ ""
  own : call.toolName ∈ a.approvalTools → call.toolCallId ≠ ""

/-- Denial over suspension over leave, from the stages to the tool boundary. -/
structure Composed (eff : Effects) (plane : String) (out : Outside) (call : ToolCall) (args : Json)
    (s : World × Attempt) (stage : PreToolUse) : Prop where
  runs : (boundary eff plane out call args s stage).1 = .ok args ↔
    (∀ answer ∈ answers (shown eff s.2) call stage, answer.2 = .continue) ∧
      call.toolName ∉ s.2.approvalTools ∧ s.2.suspendedThisRound = false
  denies : ∀ pre name result post,
    answers (shown eff s.2) call stage = pre ++ (name, .deny result) :: post →
    denied pre = false → s.2.suspendedThisRound = false →
    (boundary eff plane out call args s stage).1 = .error (.skipToolExecution result) ∧
      (stage.decision (shown eff s.2) call).2 = pre.map Prod.fst ++ [name]
  suspends : ∀ pre name request post,
    answers (shown eff s.2) call stage = pre ++ (name, .suspend request) :: post →
    suspension pre = none → denied (answers (shown eff s.2) call stage) = false →
    request.pendingId.getD "" ≠ "" →
    (boundary eff plane out call args s stage).1 = .error (.approvalRequired request) ∧
      (boundary eff plane out call args s stage).2.2.suspendedThisRound = true
  requires : (∀ answer ∈ answers (shown eff s.2) call stage, answer.2 = .continue) →
    call.toolName ∈ s.2.approvalTools → call.toolCallId ≠ "" →
    (boundary eff plane out call args s stage).1 =
        .error (.approvalRequired { pendingId := some call.toolCallId }) ∧
      (boundary eff plane out call args s stage).2.2.suspendedThisRound = true
  permuted : ∀ stage', Carried (answers (shown eff s.2) call stage) s.2 call →
    (answers (shown eff s.2) call stage').Perm (answers (shown eff s.2) call stage) →
    kind (boundary eff plane out call args s stage').1 =
      kind (boundary eff plane out call args s stage).1
  reordered : ∀ stage', Carried (answers (shown eff s.2) call stage) s.2 call →
    Reordered stage stage' →
    kind (boundary eff plane out call args s stage').1 =
      kind (boundary eff plane out call args s stage).1
  nested : ∀ ctx call pre inner post,
    (permissions (pre ++ permissions inner :: post)).decision ctx call =
      (permissions (pre ++ inner ++ post)).decision ctx call

section
variable {eff : Effects} {plane : String} {out : Outside} {call : ToolCall} {args : Json}
variable {s : World × Attempt} {stage : PreToolUse} {a : Attempt}
variable {answers : List (String × ToolDecision)}

theorem all_continue (hdenied : denied answers = false) (hnone : suspension answers = none) :
    ∀ answer ∈ answers, answer.2 = .continue := by
  intro answer hanswer
  have hnot := List.any_eq_false.mp hdenied answer hanswer
  have hno := List.findSome?_eq_none_iff.mp hnone answer hanswer
  cases hd : answer.2 with
  | «continue» => rfl
  | deny result => rw [hd] at hnot; exact absurd rfl hnot
  | suspend r => rw [hd] at hno; cases hno

theorem composed_continue :
    composed none answers = .continue ↔ ∀ answer ∈ answers, answer.2 = .continue := by
  constructor
  · intro h
    cases hdenied : denied answers with
    | true =>
      obtain ⟨result, hresult⟩ := composed_denied hdenied
      rw [hresult] at h
      cases h
    | false =>
      rw [composed_kept hdenied, Option.none_or] at h
      cases hnone : suspension answers with
      | none => exact all_continue hdenied hnone
      | some r => rw [hnone] at h; cases h
  · intro h
    have hdenied : denied answers = false := by
      refine List.any_eq_false.mpr (fun answer hanswer => ?_)
      rw [h answer hanswer]
      exact Bool.false_ne_true
    have hnone : suspension answers = none := by
      refine List.findSome?_eq_none_iff.mpr (fun answer hanswer => ?_)
      rw [h answer hanswer]
      rfl
    rw [composed_kept hdenied, hnone]
    rfl

/-- What the gate makes of each decision. -/
theorem gated_eq (d : ToolDecision) :
    gated a call d =
      match d with
      | .suspend request => .suspend request
      | .deny result => .deny (if a.suspendedThisRound then notExecuted else result)
      | .continue =>
        if call.toolName ∈ a.approvalTools then .suspend { pendingId := some call.toolCallId }
        else if a.suspendedThisRound then .deny notExecuted else .continue := by
  unfold gated
  cases d with
  | suspend request => simp
  | deny result => cases a.suspendedThisRound <;> simp
  | «continue» =>
    by_cases htool : call.toolName ∈ a.approvalTools
    · simp [htool]
    · cases a.suspendedThisRound <;> simp [htool]

/-- The kind of outcome that the stages lead to. -/
def kindOf (a : Attempt) (call : ToolCall) (denied suspended : Bool) : Kind :=
  if denied then .denied
  else if suspended ∨ call.toolName ∈ a.approvalTools then .parks
  else if a.suspendedThisRound then .denied else .runs

theorem kind_gated (h : Carried answers a call) (out : Outside) (args : Json)
    (s : World × Attempt) :
    kind ((enforce call args (gated a call (composed none answers))).eval (alone out) s).1 =
      kindOf a call (denied answers) (suspension answers).isSome := by
  rw [enforce_outcome, gated_eq]
  unfold kindOf
  cases hdenied : denied answers with
  | true =>
    obtain ⟨result, hresult⟩ := composed_denied hdenied
    rw [hresult]
    rfl
  | false =>
    rw [composed_kept hdenied, Option.none_or]
    cases hrequest : suspension answers with
    | some request =>
      obtain ⟨answer, hanswer, hsome⟩ := List.exists_of_findSome?_eq_some hrequest
      have hcarried : request.pendingId.getD "" ≠ "" := by
        apply h.stages answer hanswer
        cases hd : answer.2 with
        | suspend r => rw [hd] at hsome; cases hsome; rfl
        | deny result => rw [hd] at hsome; cases hsome
        | «continue» => rw [hd] at hsome; cases hsome
      simp [hcarried, kind]
    | none =>
      by_cases htool : call.toolName ∈ a.approvalTools
      · simp [htool, h.own htool, kind]
      · cases hflag : a.suspendedThisRound <;> simp [htool, kind]

theorem kindOf_perm {answers' : List (String × ToolDecision)} (h : answers'.Perm answers) :
    kindOf a call (denied answers') (suspension answers').isSome =
      kindOf a call (denied answers) (suspension answers).isSome := by
  have hdenied : denied answers' = denied answers := by
    unfold denied
    rw [Bool.eq_iff_iff, List.any_eq_true, List.any_eq_true]
    exact exists_congr (fun answer => and_congr_left (fun _ => h.mem_iff))
  have hsuspended : (suspension answers').isSome = (suspension answers).isSome := by
    unfold suspension
    rw [Bool.eq_iff_iff, List.findSome?_isSome_iff, List.findSome?_isSome_iff]
    exact exists_congr (fun answer => and_congr_left (fun _ => h.mem_iff))
  rw [hdenied, hsuspended]

end

/-- However the stages are nested, denial stands over suspension, and suspension over leave. -/
theorem composed_boundary (eff : Effects) (plane : String) (out : Outside) (call : ToolCall)
    (args : Json) (s : World × Attempt) (stage : PreToolUse) (hnew : Unrecorded eff call s.1) :
    Composed eff plane out call args s stage := by
  have hboundary : ∀ stage, ∃ s', s'.2 = s.2 ∧ boundary eff plane out call args s stage =
      (enforce call args (gated s.2 call
        (composed none (answers (shown eff s.2) call stage)))).eval
        (alone (governed out plane stage)) s' := by
    intro stage
    obtain ⟨s', hs', he⟩ := boundary_eq plane out args stage hnew
    rw [decision_eq] at he
    exact ⟨s', hs', he⟩
  obtain ⟨s', hs', he⟩ := hboundary stage
  have hpermuted : ∀ stage', Carried (answers (shown eff s.2) call stage) s.2 call →
      (answers (shown eff s.2) call stage').Perm (answers (shown eff s.2) call stage) →
      kind (boundary eff plane out call args s stage').1 =
        kind (boundary eff plane out call args s stage).1 := by
    intro stage' hcarried hperm
    obtain ⟨s'', hs'', he'⟩ := hboundary stage'
    have hcarried' : Carried (answers (shown eff s.2) call stage') s.2 call :=
      ⟨fun answer hanswer => hcarried.stages answer (hperm.mem_iff.mp hanswer), hcarried.own⟩
    rw [he, he', kind_gated hcarried, kind_gated hcarried', kindOf_perm hperm]
  constructor
  · rw [he, enforce_outcome, gated_eq, ← composed_continue]
    cases hd : composed none (answers (shown eff s.2) call stage) with
    | deny result => simp
    | suspend request => dsimp only; split <;> simp
    | «continue» =>
      by_cases htool : call.toolName ∈ s.2.approvalTools
      · simp only [htool, ↓reduceIte]
        split <;> simp
      · cases hflag : s.2.suspendedThisRound <;> simp [htool]
  · intro pre name result post hanswers hpre hflag
    have hcomposed : composed none (answers (shown eff s.2) call stage) = .deny result := by
      rw [hanswers, composed_append, hpre]
      rfl
    constructor
    · rw [he, enforce_outcome, gated_eq, hcomposed]
      simp [hflag]
    · rw [decision_eq, hanswers, asked_append, hpre, asked_all hpre]
      rfl
  · intro pre name request post hanswers hpre hdenied hpending
    have hcomposed : composed none (answers (shown eff s.2) call stage) = .suspend request := by
      rw [composed_kept hdenied, hanswers, suspension_append, hpre]
      rfl
    rw [he, hcomposed, gated_eq]
    refine ⟨?_, enforce_suspends hpending⟩
    rw [enforce_outcome]
    exact if_neg hpending
  · intro hall htool hid
    rw [he, composed_continue.mpr hall, gated_eq]
    dsimp only
    rw [if_pos htool]
    refine ⟨?_, enforce_suspends hid⟩
    rw [enforce_outcome]
    exact if_neg hid
  · exact hpermuted
  · exact fun stage' hcarried horder =>
      hpermuted stage' hcarried (answers_perm (shown eff s.2) call horder).symm
  · exact fun ctx call pre inner post => decision_nested ctx call pre inner post

/-- Behind a stage that suspends, one that denies. -/
def guarded : PreToolUse :=
  .permissions [.gate "ask" (fun _ _ => .suspend { pendingId := some "p" }),
    .permissions [.gate "deny" (fun _ _ => .deny (.str "no"))]]

theorem composed_guarded :
    Composed ⟨some ⟨none⟩, "b", 0, none, false, "", "", [], none, none, []⟩ "plane"
      (.answering (fun _ _ _ => .error .cancelled) (fun _ _ => .error .cancelled)
        (fun _ _ _ => .error .cancelled)) ⟨"tool", .dict [], "c"⟩ (.dict []) ({}, {}) guarded :=
  composed_boundary _ _ _ _ _ _ _ (.inr fun store hstore => by
    cases hstore
    decide)

end Semora.Proofs.Permitted
