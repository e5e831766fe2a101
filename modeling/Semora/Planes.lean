import Semora.Controls
import Semora.Lib.Chain

/-! What a host composes its control points of, one rule per point, and the plane it assembles from
them. A stage awaits what it likes: it is a program over operations of the host. -/

namespace Semora.Plane
open Semora.Lib

section
variable (Op : Type) (Res : Op → Type) (ε : Type)

abbrev OnInputs := Ctx → List PendingInput → Prog Op Res ε Screened
abbrev BeforeModel := Ctx → Prog Op Res ε TurnDecision
abbrev PreToolUse := Ctx → ToolCall → Prog Op Res ε ToolDecision
/-- The hook may rewrite the result in place: it returns the value it leaves there. -/
abbrev PostToolUse := Ctx → ToolCall → Json → Prog Op Res ε Json
abbrev BeforeFinish := Ctx → StopReason → Prog Op Res ε TurnDecision
abbrev OnResume := Ctx → ToolCall → ResumeInput → Prog Op Res ε ToolDecision
abbrev OnSuspend := Ctx → ToolCall → Request → List ModelMessage → List (String × Json) →
  Prog Op Res ε Unit

end

variable {Op : Type} {Res : Op → Type} {ε : Type}

/-! Adapters. -/

/-- A decision's request: its pending id, and the rest of it. -/
def requestOf (decision : List (String × Json)) : Request where
  pendingId := match fetch "pending_id" decision with
    | some (.str id) => some id
    | _ => none
  fields := decision.filter (fun item => item.1 ≠ "pending_id")

def decided : Option (List (String × Json)) → ToolDecision
  | none => .continue
  | some decision =>
    if fetch "type" decision = some (.str "allow") then .continue
    else if fetch "type" decision = some (.str "suspend") then .suspend (requestOf decision)
    else .deny (.dict decision)

/-- Adapt a simple tool predicate to a `pre_tool_use` stage. -/
def gate (answer : ToolCall → Prog Op Res ε (Option (List (String × Json)))) :
    PreToolUse Op Res ε :=
  fun _ call => (answer call).bind (fun decision => .ret (decided decision))

/-- Adapt a simple result writer to a `post_tool_use` stage. -/
def writer (record : ToolCall → Json → Prog Op Res ε Json) : PostToolUse Op Res ε :=
  fun _ call result => record call result

/-! The composition rules. -/

/-- Each screen sees the previous screen's output, until one halts. -/
def screening : Taking (List PendingInput) Screened where
  stops
    | .halt _ => true
    | .inputs _ => false
  add inputs
    | .inputs screened => screened
    | .halt _ => inputs
  close := .inputs
  start inputs := inputs

def ingress (screens : List (OnInputs Op Res ε)) : OnInputs Op Res ε :=
  fun ctx inputs => screening.composed (screens.map (fun screen => screen ctx)) inputs

/-- A denial is final, leave does not end the round, and of the suspensions the first is kept. -/
def permitting : Taking (Option Request) ToolDecision where
  stops
    | .deny _ => true
    | _ => false
  add asked
    | .suspend request => asked.or (some request)
    | _ => asked
  close
    | some request => .suspend request
    | none => .continue
  start _ := none

def permissions (stages : List (PreToolUse Op Res ε)) : PreToolUse Op Res ε :=
  fun ctx call => permitting.composed (stages.map (fun stage _ => stage ctx call)) none

/-- Every writer in order, on what the writers before it have left of the result. -/
def journaling : Taking Json Json where
  stops _ := false
  add _ left := left
  close result := result
  start result := result

def journal (writers : List (PostToolUse Op Res ε)) : PostToolUse Op Res ε :=
  fun ctx call result => journaling.composed (writers.map (fun write => write ctx call)) result

/-- Vetoes add up, and a stop counts for nothing beside one. -/
def finishing (reason : StopReason) : Taking (Option (List RequestPart)) TurnDecision where
  stops _ := false
  add going
    | .proceed steers => some (going.getD [] ++ steers)
    | .halt _ => going
  close
    | some steers => .proceed steers
    | none => .halt reason
  start _ := none

def finishPolicy (gates : List (BeforeFinish Op Res ε)) : BeforeFinish Op Res ε :=
  fun ctx reason => (finishing reason).composed (gates.map (fun verify _ => verify ctx reason)) none

/-- Steers add up, unless a source halts. -/
def collecting : Taking (List RequestPart) TurnDecision where
  stops
    | .halt _ => true
    | .proceed _ => false
  add steers
    | .proceed more => steers ++ more
    | .halt _ => steers
  close := .proceed
  start _ := []

def steering (sources : List (BeforeModel Op Res ε)) : BeforeModel Op Res ε :=
  fun ctx => collecting.composed (sources.map (fun source _ => source ctx)) []

def persisting : Taking Unit Unit where
  stops _ := false
  add _ _ := ()
  close _ := ()
  start _ := ()

def suspending (persisters : List (OnSuspend Op Res ε)) : OnSuspend Op Res ε :=
  fun ctx call request snapshot completed => persisting.composed
    (persisters.map (fun persist _ => persist ctx call request snapshot completed)) ()

/-! The plane. -/

/-- A person's answer as the model is shown it where it denies. -/
def shown (answer : Answer) : Json :=
  .dict ((answer.type.map (fun type => ("type", Json.str type))).toList ++
    (answer.message.map (fun message => ("message", Json.str message))).toList ++
    (answer.args.map (fun args => ("args", Json.dict args))).toList ++ answer.fields)

/-- Optional control points, with permissive defaults. -/
structure ControlPlane (Op : Type) (Res : Op → Type) (ε : Type) where
  onInputs : Option (OnInputs Op Res ε) := none
  beforeModel : Option (BeforeModel Op Res ε) := none
  preToolUse : Option (PreToolUse Op Res ε) := none
  postToolUse : Option (PostToolUse Op Res ε) := none
  beforeFinish : Option (BeforeFinish Op Res ε) := none
  onResume : Option (OnResume Op Res ε) := none
  onSuspend : Option (OnSuspend Op Res ε) := none

namespace ControlPlane

/-- What a point of the plane answers; a point that is absent leaves everything as it is. -/
def answer (plane : ControlPlane Op Res ε) : (q : Question) → Prog Op Res ε q.Reply
  | .onInputs ctx inputs =>
    match plane.onInputs with
    | none => .ret (.inputs inputs)
    | some screen => screen ctx inputs
  | .beforeModel ctx =>
    match plane.beforeModel with
    | none => .ret (.proceed [])
    | some source => source ctx
  | .preToolUse ctx call =>
    match plane.preToolUse with
    | none => .ret .continue
    | some stage => stage ctx call
  | .postToolUse ctx call result =>
    match plane.postToolUse with
    | none => .ret result
    | some write => write ctx call result
  | .beforeFinish ctx reason =>
    match plane.beforeFinish with
    | none => .ret (.halt reason)
    | some verify => verify ctx reason
  | .onResume ctx call resume =>
    -- A human denial stands, whatever the policy would say.
    if resume.answer.type = some "error" then .ret (.deny (shown resume.answer))
    else
      match plane.onResume with
      | none => .ret .continue
      | some stage => stage ctx call resume
  | .onSuspend ctx call request snapshot completed =>
    match plane.onSuspend with
    | none => .ret ()
    | some persist => persist ctx call request snapshot completed

/-- Whether it has any point of its own. -/
def defines (plane : ControlPlane Op Res ε) : Bool :=
  plane.onInputs.isSome || plane.beforeModel.isSome || plane.preToolUse.isSome ||
    plane.postToolUse.isSome || plane.beforeFinish.isSome || plane.onResume.isSome ||
    plane.onSuspend.isSome

end ControlPlane

/-- The plane an agent carries as methods, or none where it has no such method. -/
def controlsOf (methods : ControlPlane Op Res ε) : Option (ControlPlane Op Res ε) :=
  if methods.defines then some methods else none

end Semora.Plane
