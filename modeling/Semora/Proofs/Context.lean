import Semora.Effects.Turn
import Semora.Proofs.Own

/-! What `before_model` is shown of the boundary it decides on. The context is built before the
inputs are screened, so it holds the request as the graph made it. -/

namespace Semora.Proofs.Context
open Semora.Lib Semora.Store Effects

/-- The context that `before_model` is asked in, the first time it is. -/
def shown (did : List Done) : Option Ctx :=
  did.findSome? (fun d => match d.op with
    | .ask _ (.beforeModel here) => some here
    | _ => none)

/-- The inputs that were screened and what the screen left of them; nothing is screened where there
is no input. -/
def survivors (did : List Done) : List PendingInput × List PendingInput :=
  (did.findSome? (fun
    | ⟨.ask _ (.onInputs _ inputs), .ok (.inputs screened)⟩ => some (inputs, screened)
    | _ => none)).getD ([], [])

/-- The history that a request is put behind. -/
def ahead (history : List ModelMessage) (request : ModelRequest) : List ModelMessage :=
  if history.getLast? = some (.request request) then history.dropLast else history

/-- The history and the request as it will be sent, but for the steers. -/
def sent (history : List ModelMessage) (request : ModelRequest) (screened : List PendingInput) :
    List ModelMessage :=
  ahead history request ++ [.request (rewritten request screened [])]

/-- What the screen leaves is what the request ends with already, named as queued where it is. -/
structure Untouched (request : ModelRequest) (screened : List PendingInput) : Prop where
  parts : request.parts =
    request.parts.filter (fun part => !part.isUserPrompt) ++ screened.map PendingInput.part
  named : InputSession.originIds screened ≠ [] →
    ∃ m, request.metadata = some m ∧ m.inputIds = some (InputSession.originIds screened)

/-- Two requests differ in nothing but their user parts. -/
structure Alike (request request' : ModelRequest) : Prop where
  others : request.parts.filter (fun part => !part.isUserPrompt) =
    request'.parts.filter (fun part => !part.isUserPrompt)
  metadata : request.metadata = request'.metadata
  fields : request.fields = request'.fields

theorem rewritten_iff (request : ModelRequest) (screened : List PendingInput) :
    rewritten request screened [] = request ↔ Untouched request screened := by
  obtain ⟨parts, metadata, fields⟩ := request
  simp only [rewritten, List.append_nil, ModelRequest.mk.injEq, and_true]
  constructor
  · rintro ⟨hparts, hmetadata⟩
    refine ⟨hparts.symm, fun hids => ?_⟩
    rw [if_neg hids] at hmetadata
    exact ⟨_, hmetadata.symm, rfl⟩
  · rintro ⟨hparts, hnamed⟩
    refine ⟨hparts.symm, ?_⟩
    split
    · rfl
    · obtain ⟨m, hm, hids⟩ := hnamed ‹_›
      obtain rfl : metadata = some m := hm
      rw [← hids]
      rfl

theorem rewritten_alike {request request' : ModelRequest} (h : Alike request request')
    (screened : List PendingInput) : rewritten request screened [] = rewritten request' screened [] := by
  obtain ⟨hothers, hmetadata, hfields⟩ := h
  simp only [rewritten, hothers, hmetadata, hfields]

/-! A boundary. -/

/-- What a boundary does before it asks `before_model`: it leaves the history alone. -/
def Aside : Op → Prop
  | .modify f => ∀ a, (f a).messages = a.messages
  | .ask _ q => ∀ here, q ≠ .beforeModel here
  | _ => True

/-- Whatever `before_model` has been shown first was the history and the request. -/
def Tells (expected : List ModelMessage) (s : Own) : Prop :=
  ∀ here, shown s.done = some here → here.messages = expected

section
variable {eff : Effects} {s : Own} {α : Type} {history expected : List ModelMessage}

theorem shown_append (did did' : List Done) : shown (did ++ did') = (shown did).or (shown did') :=
  List.findSome?_append

theorem shown_aside {o : Op} (h : Aside o) (r : Except Exn o.Res) : shown [⟨o, r⟩] = none := by
  cases o with
  | ask plane q =>
    cases q with
    | beforeModel here => exact absurd rfl (h here)
    | _ => rfl
  | _ => rfl

/-- The boundary has not come to `before_model` yet. -/
def Ahead (history : List ModelMessage) (s : Own) : Prop :=
  s.attempt.messages = history ∧ shown s.done = none

theorem Ahead.tells (h : Ahead history s) : Tells expected s := by
  intro here hshown
  rw [h.2] at hshown
  cases hshown

theorem safe_aside {p : Program α} (h : p.AllOps Aside) (hs : Ahead history s) :
    Prog.safe Own.exec Eq (fun a b => Tells expected a → Tells expected b) p
      (fun _ s' => Ahead history s') s := by
  refine Prog.safe_of_allOps (I := Ahead history) (fun a b he ha => he ▸ ha) ?_ h hs
  rintro o ho a r b ⟨hmessages, hnone⟩ ⟨-, rfl⟩
  have hb : Ahead history ⟨Own.after a.attempt o, a.done ++ [⟨o, r⟩]⟩ := by
    refine ⟨?_, ?_⟩
    · cases o with
      | modify f => exact (ho _).trans hmessages
      | _ => exact hmessages
    · rw [shown_append, hnone, shown_aside ho]
      rfl
  exact ⟨fun _ => hb.tells, hb⟩

/-- Once `before_model` has been asked, what it was shown first stays. -/
theorem safe_told (p : Program α) {here : Ctx} (h : shown s.done = some here) :
    Prog.safe Own.exec Eq (fun a b => Tells expected a → Tells expected b) p (fun _ _ => True) s := by
  have hkept : ∀ a b : Own, a.done <+: b.done → shown a.done = some here →
      shown b.done = some here := by
    rintro a b ⟨rest, hrest⟩ ha
    rw [← hrest, shown_append, ha]
    rfl
  refine Prog.safe_post (Prog.safe_of_allOps (I := fun s' : Own => shown s'.done = some here)
    (fun a b he ha => he ▸ ha) ?_ (Prog.allOps_any p) h) (fun _ _ _ => trivial)
  intro o _ a r b ha he
  have hb := hkept a b (Own.exec_grows he) ha
  refine ⟨fun htells here' hshown => ?_, hb⟩
  obtain rfl : here = here' := Option.some.inj (hb.symm.trans hshown)
  exact htells here ha

theorem aside_op {o : Op} (h : Aside o) : (perform o).AllOps Aside := (Prog.allOps_op o).mpr h

theorem aside_drain : eff.drain.AllOps Aside := by
  have hclaim : ∀ store represented rows,
      (InputSession.claimRows store eff.branchId eff.token represented rows).AllOps Aside := by
    intro store represented rows
    induction rows with
    | nil => trivial
    | cons row rows ih =>
      refine Prog.allOps_bind (aside_op trivial) (fun a => ?_)
      split
      · exact ih
      · refine Prog.allOps_bind (aside_op trivial) (fun _ =>
          Prog.allOps_bind (aside_op (fun _ => rfl)) (fun _ => Prog.allOps_bind ?_
            (fun item => Prog.allOps_bind ih (fun _ => trivial))))
        unfold InputSession.decodeInput
        split <;> trivial
  unfold drain
  refine Prog.allOps_bind (aside_op trivial) (fun a =>
    Prog.allOps_bind (aside_op (fun _ => rfl)) (fun _ => ?_))
  split
  · trivial
  · exact Prog.allOps_bind (Prog.allOps_bind (aside_op trivial) (fun _ => hclaim _ _ _))
      (fun _ => trivial)

theorem aside_screen (plane : String) (here : Ctx) (pending inputs : List PendingInput) :
    (eff.screen plane here pending inputs).AllOps Aside := by
  unfold screen
  split
  · trivial
  · refine Prog.allOps_bind (aside_op nofun) (fun answer => ?_)
    split
    · refine Prog.allOps_bind ?_ (fun _ => trivial)
      unfold InputSession.discard
      split
      · trivial
      · exact aside_op trivial
    · trivial

/-- The context of a boundary is built from the history and the request as it is. -/
theorem boundaryCtx_messages (request : ModelRequest) (hs : Ahead history s) :
    Prog.safe Own.exec Eq (fun a b => Tells expected a → Tells expected b) (eff.boundaryCtx request)
      (fun r s' => Ahead history s' ∧
        ∀ here, r = .ok here → here.messages = ahead history request ++ [.request request]) s := by
  have hread : ∀ {s : Own}, Ahead history s →
      Prog.safe Own.exec Eq (fun a b => Tells expected a → Tells expected b) attempt
        (fun r s' => Ahead history s' ∧ ∀ a, r = .ok a → a.messages = history) s := by
    intro s hs
    refine (Prog.safe_op _ _ _).mpr ?_
    rintro _ rfl r _ ⟨hreply, rfl⟩
    have hb : Ahead history ⟨s.attempt, s.done ++ [⟨.get, r⟩]⟩ := by
      refine ⟨hs.1, ?_⟩
      rw [shown_append, hs.2]
      rfl
    refine ⟨fun _ => hb.tells, hb, ?_⟩
    rintro a rfl
    rw [Except.ok.inj hreply]
    exact hs.1
  unfold boundaryCtx
  rw [Prog.bind_eq, Prog.safe_bind]
  refine Prog.safe_post (hread hs) (fun r s₁ ⟨hs₁, ha⟩ => ?_)
  cases r with
  | error e => exact ⟨hs₁, nofun⟩
  | ok a =>
    dsimp only [ctx]
    rw [Prog.bind_eq, Prog.safe_bind]
    refine Prog.safe_post (hread hs₁) (fun r s₂ ⟨hs₂, ha'⟩ => ?_)
    cases r with
    | error e => exact ⟨hs₂, nofun⟩
    | ok a' =>
      refine ⟨hs₂, ?_⟩
      rintro here ⟨⟩
      dsimp only
      rw [ha a rfl, ha' a' rfl]
      unfold ahead
      split
      · rename_i hlast
        rw [List.append_nil]
        exact (List.dropLast_append_getLast? _ hlast).symm
      · rfl

/-- Either the boundary stopped short of `before_model`, or that has been asked. -/
def Settled (history : List ModelMessage) (s : Own) : Prop :=
  Ahead history s ∨ ∃ here, shown s.done = some here

theorem ask_told {plane : String} {here : Ctx} (hs : Ahead history s) (h : here.messages = expected) :
    Prog.safe Own.exec Eq (fun a b => Tells expected a → Tells expected b)
      (ask plane (.beforeModel here)) (fun _ s' => shown s'.done = some here) s := by
  refine (Prog.safe_op _ _ _).mpr ?_
  rintro _ rfl r _ ⟨-, rfl⟩
  have hshown : shown (s.done ++ [⟨.ask plane (.beforeModel here), r⟩]) = some here := by
    rw [shown_append, hs.2]
    rfl
  refine ⟨fun _ here' hshown' => ?_, hshown⟩
  obtain rfl : here = here' := Option.some.inj (hshown.symm.trans hshown')
  exact h

theorem steered_told {plane : String} (hplane : eff.controls = some plane) (request : ModelRequest)
    (pending : List PendingInput) (hs : Ahead history s)
    (hexpected : expected = ahead history request ++ [.request request]) :
    Prog.safe Own.exec Eq (fun a b => Tells expected a → Tells expected b)
      (eff.steered request pending)
      (fun r s' => Settled history s' ∧
        ∀ entering, r = .ok (.ok entering) → ∃ here, shown s'.done = some here) s := by
  unfold steered
  rw [hplane]
  dsimp only
  rw [Prog.bind_eq, Prog.safe_bind]
  refine Prog.safe_post (boundaryCtx_messages request hs) (fun r s₁ ⟨hs₁, hmessages⟩ => ?_)
  cases r with
  | error e => exact ⟨.inl hs₁, nofun⟩
  | ok here =>
    dsimp only
    rw [Prog.bind_eq, Prog.safe_bind]
    refine Prog.safe_post (safe_aside (aside_screen plane here pending _) hs₁) (fun r s₂ hs₂ => ?_)
    cases r with
    | error e => exact ⟨.inl hs₂, nofun⟩
    | ok screened =>
      cases screened with
      | halt reason => exact ⟨.inl hs₂, nofun⟩
      | inputs screened =>
        dsimp only
        rw [Prog.bind_eq, Prog.safe_bind]
        have hmessages := (hmessages here rfl).trans hexpected.symm
        refine Prog.safe_post (ask_told hs₂ hmessages) (fun r s₃ hshown => ?_)
        cases r with
        | error e => exact ⟨.inr ⟨here, hshown⟩, nofun⟩
        | ok decision => cases decision <;> exact ⟨.inr ⟨here, hshown⟩, fun _ _ => ⟨here, hshown⟩⟩

/-- A boundary shows `before_model` the history and the request it was given. -/
theorem admit_told {plane : String} (hplane : eff.controls = some plane) (request : ModelRequest)
    (handler : Node → Program NodeResult) (hs : Ahead history s)
    (hexpected : expected = ahead history request ++ [.request request]) :
    Prog.safe Own.exec Eq (fun a b => Tells expected a → Tells expected b)
      (eff.admit_ request handler) (fun _ _ => True) s := by
  unfold admit_
  rw [Prog.bind_eq, Prog.safe_bind]
  refine Prog.safe_post (safe_aside aside_drain hs) (fun r s₁ hs₁ => ?_)
  cases r with
  | error e => trivial
  | ok pending =>
    dsimp only
    rw [Prog.bind_eq, Prog.safe_bind]
    refine Prog.safe_post (steered_told hplane request pending hs₁ hexpected)
      (fun r s₂ ⟨hsettled, hentering⟩ => ?_)
    cases r with
    | error e => trivial
    | ok decision =>
      cases decision with
      | error reason =>
        rcases hsettled with hs₂ | ⟨here, hshown⟩
        · refine Prog.safe_post (safe_aside (Prog.allOps_bind (aside_op (fun _ => rfl)) (fun _ =>
            Prog.allOps_bind (aside_op trivial) (fun _ => trivial))) hs₂) (fun _ _ _ => trivial)
        · exact safe_told _ hshown
      | ok entering =>
        obtain ⟨here, hshown⟩ := hentering entering rfl
        exact safe_told _ hshown

end

/-- A boundary of some attempt, on this history and for this request, did this and came to
`before_model` in this context, whatever other attempts did meanwhile. -/
inductive Decided (history : List ModelMessage) (request : ModelRequest) :
    List Done → Ctx → Prop
  | intro {out : Outside} {self : Nat → Nat} {i : Nat} {eff : Effects} {plane : String}
      {handler : Node → Program NodeResult} {s t : Scene} {q : Program NodeResult}
      {did : List Done} {here : Ctx} (controlled : eff.controls = some plane)
      (holds : (s.attempts (self i)).messages = history)
      (run : Prog.Runs (exec out self i) (Others out self i) (eff.admit_ request handler) s q t)
      (logged : log i t.events = log i s.events ++ did.map (eventOf i))
      (asked : shown did = some here) : Decided history request did here

section
variable {history : List ModelMessage} {request request' : ModelRequest} {did did' : List Done}
variable {here here' : Ctx}

theorem Decided.messages (h : Decided history request did here) :
    here.messages = ahead history request ++ [.request request] := by
  obtain @⟨out, self, i, eff, plane, handler, s, t, q, did, here, hplane, hholds, run, hlogged,
    hasked⟩ := h
  have hstart : Ahead history ⟨s.attempts (self i), []⟩ := ⟨hholds, rfl⟩
  have htells := (Prog.safe_runs (fun _ => rfl) (fun _ _ _ => Eq.trans) (fun _ _ _ hq _ => hq)
    (fun _ _ he ha => he ▸ ha) (fun _ _ hg => hg) (admit_told hplane request handler hstart rfl)
    hstart.tells (runs_did run hlogged).runs).2
  exact htells here hasked

/-- The context shows the history and the request as it will be sent, and in the request nothing
that the screen masked or dropped. -/
structure OnlySent (history : List ModelMessage) (request : ModelRequest) (did : List Done)
    (here : Ctx) : Prop where
  messages : here.messages = sent history request (survivors did).2
  masked : ∀ item ∈ (survivors did).1, item.part.isUserPrompt →
    item.part ∉ (survivors did).2.map PendingInput.part →
    ∀ last, here.messages.getLast? = some (.request last) → item.part ∉ last.parts

theorem only_sent_iff (h : Decided history request did here) :
    OnlySent history request did here ↔ Untouched request (survivors did).2 := by
  constructor
  · rintro ⟨hmessages, -⟩
    rw [h.messages, sent, List.append_cancel_left_eq] at hmessages
    exact (rewritten_iff _ _).mp (ModelMessage.request.inj (List.cons.inj hmessages).1).symm
  · intro huntouched
    refine ⟨?_, ?_⟩
    · rw [h.messages, sent, (rewritten_iff _ _).mpr huntouched]
    · intro item _ huser hmasked last hlast hmem
      rw [h.messages, List.getLast?_concat] at hlast
      obtain rfl : request = last := ModelMessage.request.inj (Option.some.inj hlast)
      rw [huntouched.parts] at hmem
      rcases List.mem_append.mp hmem with hother | hkept
      · simp [huser] at hother
      · exact hmasked hkept

/-- Of two boundaries on one history whose screens leave the same inputs: `before_model` is shown
the same in both, and what will be sent, just when the two requests differ in nothing but their
user parts and the screens have left both requests as they were. -/
theorem before_model_iff (h : Decided history request did here)
    (h' : Decided history request' did' here')
    (same : (survivors did).2 = (survivors did').2) :
    (here.messages = here'.messages ∧ OnlySent history request did here ∧
        OnlySent history request' did' here') ↔
      Alike request request' ∧ Untouched request (survivors did).2 ∧
        Untouched request' (survivors did').2 := by
  rw [only_sent_iff h, only_sent_iff h']
  constructor
  · rintro ⟨hmessages, huntouched, huntouched'⟩
    refine ⟨?_, huntouched, huntouched'⟩
    rw [h.messages, h'.messages] at hmessages
    obtain ⟨-, hlast⟩ := List.append_inj' hmessages rfl
    obtain rfl : request = request' := ModelMessage.request.inj (List.cons.inj hlast).1
    exact ⟨rfl, rfl, rfl⟩
  · rintro ⟨halike, huntouched, huntouched'⟩
    refine ⟨?_, huntouched, huntouched'⟩
    have hrewritten := rewritten_alike halike (survivors did).2
    rw [(rewritten_iff _ _).mpr huntouched, same, (rewritten_iff _ _).mpr huntouched'] at hrewritten
    rw [h.messages, h'.messages, hrewritten]

end

/-! A screen that masks what looks like a card. -/

def masking : Outside :=
  .answering (fun _ _ _ => .error .exit) (fun _ _ => .error .exit)
    (fun _ _ q => match q with
      | .onInputs _ inputs => .ok (.inputs (inputs.map (fun item =>
          if item.part = .userPrompt (.str "hello") .null then item
          else { item with part := .userPrompt (.str "[card]") .null })))
      | .beforeModel _ => .ok (.proceed [])
      | _ => .error .exit)

def prompting (text : String) : ModelRequest := { parts := [.userPrompt (.str text) .null] }

def screening : Effects := { store := none, branchId := "run", controls := some "plane" }

/-- A boundary that is given this text, alone. -/
def boundary (text : String) : Program NodeResult :=
  screening.admit_ (prompting text) (fun node => return .node node)

def decided (text : String) : Scene :=
  ((boundary text).eval (Scene.perform masking id 0) ⟨{}, fun _ => {}, []⟩).2

def didAt (text : String) : List Done := (decided text).events.map (fun e => ⟨e.op, e.reply⟩)

def hereAt (text : String) : Ctx := ⟨0, [.request (prompting text)], [], "", ""⟩

theorem boundary_decided (text : String)
    (logged : log 0 (decided text).events = (didAt text).map (eventOf 0))
    (asked : shown (didAt text) = some (hereAt text)) :
    Decided [] (prompting text) (didAt text) (hereAt text) := by
  have hcontrols : screening.controls = some "plane" := rfl
  have hrun : Prog.Runs (exec masking id 0) (Others masking id 0)
      (screening.admit_ (prompting text) (fun node => return .node node)) ⟨{}, fun _ => {}, []⟩
      (.ofExcept ((boundary text).eval (Scene.perform masking id 0) ⟨{}, fun _ => {}, []⟩).1)
      (decided text) := (Prog.Runs.refl _ _).eval
  exact .intro hcontrols rfl hrun logged asked

/-- Policy sees only what will enter context, but this one sees two cards, and not the mask. -/
theorem not_only_sent : ¬ ∀ (history : List ModelMessage) (request request' : ModelRequest)
    (did did' : List Done) (here here' : Ctx), Decided history request did here →
    Decided history request' did' here' → Alike request request' →
    (survivors did).2 = (survivors did').2 →
    here.messages = here'.messages ∧ OnlySent history request did here ∧
      OnlySent history request' did' here' := by
  intro h
  obtain ⟨hsame, -, -⟩ := h _ _ _ _ _ _ _ (boundary_decided "4111" rfl rfl)
    (boundary_decided "4222" rfl rfl) ⟨rfl, rfl, rfl⟩ rfl
  simp [hereAt, prompting] at hsame

/-- A text that the screen lets through. -/
theorem before_model_iff_untouched : (hereAt "hello").messages = (hereAt "hello").messages ∧
    OnlySent [] (prompting "hello") (didAt "hello") (hereAt "hello") ∧
      OnlySent [] (prompting "hello") (didAt "hello") (hereAt "hello") := by
  have hhello : Decided [] (prompting "hello") (didAt "hello") (hereAt "hello") :=
    boundary_decided "hello" rfl rfl
  have huntouched : Untouched (prompting "hello") (survivors (didAt "hello")).2 :=
    ⟨rfl, fun h => absurd rfl h⟩
  exact (before_model_iff hhello hhello rfl).mpr ⟨⟨rfl, rfl, rfl⟩, huntouched, huntouched⟩

end Semora.Proofs.Context
