import Semora.Proofs.Mediated
import Semora.Proofs.Parked

/-! The turns of an attempt: the model is asked only where `before_model` has let it be, with what
that sent along, and once a control point has ended the run nothing more is done in it. -/

namespace Semora.Proofs.Turns
open Semora.Lib Semora.Store Semora.Transcript
open Semora.Proofs.Order (Follows Ordered acts ordered_of_safe follows_exec)

/-- A control point ended the run. -/
def Halts : Done → Prop
  | ⟨.ask _ (.onInputs ..), .ok (.halt _)⟩ => True
  | ⟨.ask _ (.beforeModel _), .ok (.halt _)⟩ => True
  | ⟨.ask _ (.beforeFinish ..), .ok (.halt _)⟩ => True
  | _ => False

/-- Since its attempt began, no control point has ended the run. -/
def Going (done : List Done) : Prop :=
  ∃ front b rest, done = front ++ b :: rest ∧ Parked.Begins b.op ∧ ∀ d ∈ rest, ¬ Halts d

/-- What an attempt must not do once it is over: run a tool, ask the provider, touch the queue. -/
def Acts : Op → Prop
  | .handle .. | .provide _ => True
  | .ledger (.listInputs _) | .ledger (.claimInput ..) | .ledger (.admitInputs ..)
  | .ledger (.discardInputs ..) => True
  | _ => False

/-- `before_model` sent these steers along, and the provider has not been asked since. -/
def Sent (plane : String) (steers : List RequestPart) (done : List Done) : Prop :=
  ∃ front here rest, done = front ++ ⟨.ask plane (.beforeModel here), .ok (.proceed steers)⟩ :: rest ∧
    ∀ d ∈ rest, ∀ request, d.op ≠ .provide request

/-- What has to come before an operation of a turn. -/
structure Turn (controls : Option String) (done : List Done) (d : Done) : Prop where
  going : Acts d.op → Going done
  steered : ∀ context, d.op = .provide context → ∀ plane, controls = some plane →
    ∃ steers request, Sent plane steers done ∧
      context.messages.getLast? = some (.request request) ∧ steers <:+ request.parts

section
variable {controls : Option String} {done : List Done} {d : Done} {s s' : Own}
variable {plane : String} {steers : List RequestPart}

theorem Going.snoc (h : Going done) (hd : ¬ Halts d) : Going (done ++ [d]) := by
  obtain ⟨front, b, rest, rfl, hb, hrest⟩ := h
  refine ⟨front, b, rest ++ [d], by simp, hb, ?_⟩
  intro d' hd'
  rcases List.mem_append.mp hd' with hd' | hd'
  · exact hrest d' hd'
  · rw [List.mem_singleton.mp hd']
    exact hd

theorem Sent.snoc (h : Sent plane steers done) (hd : ∀ request, d.op ≠ .provide request) :
    Sent plane steers (done ++ [d]) := by
  obtain ⟨front, here, rest, rfl, hrest⟩ := h
  refine ⟨front, here, rest ++ [d], by simp, ?_⟩
  intro d' hd'
  rcases List.mem_append.mp hd' with hd' | hd'
  · exact hrest d' hd'
  · rw [List.mem_singleton.mp hd']
    exact hd

/-- An operation that ends no run and asks no provider. -/
def Even : Op → Prop
  | .provide _ => False
  | .ask _ (.onInputs ..) | .ask _ (.beforeModel _) | .ask _ (.beforeFinish ..) => False
  | _ => True

theorem even_halts {o : Op} (ho : Even o) (r : Except Exn o.Res) : ¬ Halts ⟨o, r⟩ := by
  cases o with
  | ask plane q =>
    cases q with
    | onInputs => exact ho.elim
    | beforeModel => exact ho.elim
    | beforeFinish => exact ho.elim
    | _ => exact fun h => h
  | _ => exact fun h => h

theorem even_provide {o : Op} (ho : Even o) (request : RequestContext) : o ≠ .provide request := by
  intro h
  subst h
  exact ho

theorem turn_even {o : Op} {r : Except Exn o.Res} (ho : Even o) (hgoing : Going done) :
    Turn controls done ⟨o, r⟩ :=
  ⟨fun _ => hgoing, fun request h => absurd h (even_provide ho request)⟩

/-- The run goes on, and what `before_model` sent along is on its way. -/
structure Underway (controls : Option String) (steers : List RequestPart) (s : Own) : Prop where
  going : Going s.done
  sent : ∀ plane, controls = some plane → Sent plane steers s.done

theorem keeps_going {o : Op} (ho : Even o) :
    Prog.Keeps Own.exec (Follows (Turn controls)) (fun s => Going s.done) o.Res (perform o) := by
  refine Prog.keeps_op.mpr (fun s r s' h he => ⟨follows_exec (turn_even ho h) he, ?_⟩)
  obtain ⟨-, rfl⟩ := he
  exact h.snoc (even_halts ho r)

theorem keeps_underway {o : Op} (ho : Even o) :
    Prog.Keeps Own.exec (Follows (Turn controls)) (Underway controls steers) o.Res (perform o) := by
  refine Prog.keeps_op.mpr (fun s r s' h he => ⟨follows_exec (turn_even ho h.going) he, ?_⟩)
  obtain ⟨-, rfl⟩ := he
  refine ⟨h.going.snoc (even_halts ho r), fun plane hplane => ?_⟩
  exact (h.sent plane hplane).snoc (even_provide ho)

/-- What does not act may be done at any time. -/
theorem keeps_idle {o : Op} (hacts : ¬ Acts o) (ho : Even o) :
    Prog.Keeps Own.exec (Follows (Turn controls)) (fun _ => True) o.Res (perform o) := by
  refine Prog.keeps_op.mpr (fun s r s' _ he => ⟨follows_exec ?_ he, trivial⟩)
  exact ⟨fun h => absurd h hacts, fun request h => absurd h (even_provide ho request)⟩

theorem even_still {o : Op} (ho : Throughout.Still o) : Even o := by
  cases o with
  | provide => exact ho
  | ask => exact ho.elim
  | _ => trivial

theorem even_called {o : Op} (ho : Throughout.Called o) : Even o := by
  cases o with
  | provide => exact ho
  | ask plane q => cases q <;> first | exact ho.elim | trivial
  | _ => trivial

theorem even_outer {o : Op} (ho : Throughout.Outer o) : Even o ∧ ¬ Acts o := by
  cases o with
  | provide => exact ho.elim
  | handle => exact ho.elim
  | ask plane q => cases q <;> first | exact ho.elim | exact ⟨trivial, fun h => h⟩
  | ledger c => cases c <;> first | exact ho.elim | exact ⟨trivial, fun h => h⟩
  | _ => exact ⟨trivial, fun h => h⟩

theorem going_even {α : Type} {p : Program α} (hp : p.AllOps Even) :
    Prog.Keeps Own.exec (Follows (Turn controls)) (fun s => Going s.done) α p :=
  (Prog.compositional_keeps _ _ _).ofAllOps hp (fun _ ho => keeps_going ho)

theorem underway_even {α : Type} {p : Program α} (hp : p.AllOps Even) :
    Prog.Keeps Own.exec (Follows (Turn controls)) (Underway controls steers) α p :=
  (Prog.compositional_keeps _ _ _).ofAllOps hp (fun _ ho => keeps_underway ho)

theorem even_update (f : Attempt → Attempt) : (update f).AllOps Even :=
  (Prog.allOps_op (Op.modify f)).mpr trivial

theorem even_of_still {α : Type} {p : Program α} (hp : p.AllOps Throughout.Still) :
    p.AllOps Even :=
  hp.mono (fun _ => even_still)

theorem even_of_settling {α : Type} {p : Program α} (hp : p.AllOps Throughout.Settling) :
    p.AllOps Even := by
  refine hp.mono (fun o ho => ?_)
  cases o with
  | ledger c => trivial
  | _ => exact ho.elim

theorem Underway.snoc {o : Op} {r : Except Exn o.Res} (h : Underway controls steers s)
    (ho : Even o) (a : Attempt) : Underway controls steers ⟨a, s.done ++ [⟨o, r⟩]⟩ :=
  ⟨h.going.snoc (even_halts ho r), fun plane hplane => (h.sent plane hplane).snoc (even_provide ho)⟩

theorem turn_idle {o : Op} {r : Except Exn o.Res} (hacts : ¬ Acts o)
    (hprovide : ∀ request, o ≠ .provide request) : Turn controls done ⟨o, r⟩ :=
  ⟨fun h => absurd h hacts, fun request h => absurd h (hprovide request)⟩

/-- An update, and what it leaves. -/
theorem safe_update {f : Attempt → Attempt} {Q : Except Exn Unit → Own → Prop}
    (hQ : ∀ r, Q r ⟨f s.attempt, s.done ++ [⟨.modify f, r⟩]⟩) :
    Prog.safe Own.exec Eq (Follows (Turn controls)) (update f) Q s := by
  unfold update perform
  apply (Prog.safe_op (Op.modify f) _ s).mpr
  intro s₁ hs₁ r s₂ he
  subst hs₁
  refine ⟨follows_exec (turn_idle (o := .modify f) (fun h => h) (by simp)) he, ?_⟩
  obtain ⟨-, rfl⟩ := he
  exact hQ r

/-- A look at the attempt. -/
theorem safe_attempt {Q : Except Exn Attempt → Own → Prop}
    (hQ : Q (.ok s.attempt) ⟨s.attempt, s.done ++ [⟨.get, .ok s.attempt⟩]⟩) :
    Prog.safe Own.exec Eq (Follows (Turn controls)) attempt Q s := by
  unfold attempt perform
  apply (Prog.safe_op Op.get _ s).mpr
  intro s₁ hs₁ r s₂ he
  subst hs₁
  refine ⟨follows_exec (turn_idle (o := .get) (fun h => h) (by simp)) he, ?_⟩
  obtain ⟨hreplies, rfl⟩ := he
  have hattempt : r = .ok s.attempt := hreplies
  subst hattempt
  exact hQ

/-- A question, and what its answer leaves. -/
theorem safe_asked {q : Question} {Q : Except Exn q.Reply → Own → Prop}
    (hQ : ∀ r, Q r ⟨s.attempt, s.done ++ [⟨.ask plane q, r⟩]⟩) :
    Prog.safe Own.exec Eq (Follows (Turn controls)) (Effects.ask plane q) Q s := by
  unfold Effects.ask perform
  apply (Prog.safe_op (Op.ask plane q) _ s).mpr
  intro s₁ hs₁ r s₂ he
  subst hs₁
  refine ⟨follows_exec (turn_idle (o := .ask plane q) (fun h => h) (by simp)) he, ?_⟩
  obtain ⟨-, rfl⟩ := he
  exact hQ r

end

/-! A node. -/

section
variable {ai : PydanticAI} {eff : Effects} {s : Own}

/-- What is let through was let through by `before_model`, and nobody has ended the run. -/
theorem safe_steered (request : ModelRequest) (pending : List PendingInput) (h : Going s.done) :
    Prog.safe Own.exec Eq (Follows (Turn eff.controls)) (eff.steered request pending)
      (fun r s' => ∀ inputs steers, r = .ok (.ok (inputs, steers)) →
        Underway eff.controls steers s') s := by
  unfold Effects.steered
  split
  · rename_i hnone
    intro inputs steers hr
    refine ⟨h, fun plane hplane => ?_⟩
    rw [hnone] at hplane
    cases hplane
  · rename_i plane hsome
    apply (Prog.safe_bind _ _ _ _).mpr
    apply Prog.safe_post (going_even (even_of_still (Throughout.still_boundaryCtx _)) s h)
    intro r s₁ h₁
    cases r with
    | error error => simp
    | ok here =>
      have hscreen : Prog.safe Own.exec Eq (Follows (Turn eff.controls))
          (eff.screen plane here pending (Effects.userInputs request ++ pending))
          (fun r s' => ∀ inputs, r = .ok (.inputs inputs) → Going s'.done) s₁ := by
        unfold Effects.screen
        split
        · intro inputs hr
          exact h₁
        · apply (Prog.safe_bind _ _ _ _).mpr
          refine safe_asked (fun r => ?_)
          cases r with
          | error error => simp
          | ok answer =>
            cases answer with
            | halt reason => simp
            | inputs screened =>
              have hgoing := h₁.snoc (d := ⟨.ask plane (.onInputs here
                (Effects.userInputs request ++ pending)), .ok (.inputs screened)⟩) (fun h => h)
              simp only
              split
              · apply (Prog.safe_bind _ _ _ _).mpr
                apply Prog.safe_post (going_even
                  (even_of_settling (Throughout.settling_discard _ _ _ _)) _ hgoing)
                intro r s₂ h₂
                cases r with
                | error error => simp
                | ok _ => exact fun _ _ => h₂
              · exact fun _ _ => hgoing
      apply (Prog.safe_bind _ _ _ _).mpr
      apply Prog.safe_post hscreen
      intro r s₂ h₂
      cases r with
      | error error => simp
      | ok screened =>
        cases screened with
        | halt reason => simp
        | inputs inputs =>
          apply (Prog.safe_bind _ _ _ _).mpr
          refine safe_asked (fun r => ?_)
          cases r with
          | error error => simp
          | ok decision =>
            cases decision with
            | halt reason => simp
            | proceed steers =>
              intro inputs' steers' hr
              obtain ⟨rfl, rfl⟩ := Prod.mk.inj (Except.ok.inj (Except.ok.inj hr))
              refine ⟨(h₂ _ rfl).snoc (fun h => h), fun plane' hplane => ?_⟩
              obtain rfl := Option.some.inj (hsome.symm.trans hplane)
              exact ⟨s₂.done, here, [], rfl, by simp⟩

/-- The provider is asked with a request that carries what was sent along. -/
theorem safe_provide {steers : List RequestPart} {context : RequestContext}
    {request : ModelRequest} (h : Underway eff.controls steers s)
    (hlast : context.messages.getLast? = some (.request request))
    (hcarried : steers <:+ request.parts) :
    Prog.safe Own.exec Eq (Follows (Turn eff.controls)) (perform (.provide context))
      (fun _ s' => Going s'.done) s := by
  apply (Prog.safe_op (Op.provide context) _ s).mpr
  intro s₁ hs₁ r s₂ he
  subst hs₁
  refine ⟨follows_exec ⟨fun _ => h.going, fun context' hop plane hplane => ?_⟩ he, ?_⟩
  · cases hop
    exact ⟨steers, request, h.sent plane hplane, hlast, hcarried⟩
  · obtain ⟨-, rfl⟩ := he
    exact h.going.snoc (fun h => h)

theorem safe_requestOnce {steers : List RequestPart} {context : RequestContext}
    {request : ModelRequest} (store : View) (key : String) (h : Underway eff.controls steers s)
    (hlast : context.messages.getLast? = some (.request request))
    (hcarried : steers <:+ request.parts) :
    Prog.safe Own.exec Eq (Follows (Turn eff.controls))
      (eff.requestOnce store key context (fun request => perform (.provide request)))
      (fun _ s' => Going s'.done) s := by
  have hledger : ∀ c : Call Value, (perform (.ledger c)).AllOps Even := fun c =>
    (Prog.allOps_op (Op.ledger c)).mpr trivial
  have hfinish : ∀ response : ModelResponse, ((store.finishEffect eff.branchId key
      (.modelResult response) eff.token).bind (fun _ => .ret response)).AllOps Even := fun _ =>
    Prog.allOps_bind (hledger _) (fun _ => trivial)
  apply (Prog.safe_bind _ _ _ _).mpr
  apply Prog.safe_post (underway_even (hledger _) s h)
  intro r s₁ h₁
  cases r with
  | error error => exact h₁.going
  | ok inserted =>
    simp only
    split
    · apply (Prog.safe_bind _ _ _ _).mpr
      apply (Prog.safe_tryCatch _ _ _ _).mpr
      apply Prog.safe_post (safe_provide h₁ hlast hcarried)
      intro r s₂ h₂
      cases r with
      | error error =>
        have hunasked : (eff.unasked store key error).AllOps Even := by
          unfold Effects.unasked
          split
          · trivial
          · exact Prog.allOps_bind (hledger _) (fun _ => trivial)
        apply Prog.safe_post (going_even hunasked s₂ h₂)
        intro r s₃ h₃
        cases r with
        | error error => exact h₃
        | ok response => exact going_even (hfinish response) s₃ h₃
      | ok response => exact going_even (hfinish response) s₂ h₂
    · exact h₁.going

theorem safe_wrapModelRequest {steers : List RequestPart} {context : RequestContext}
    {request : ModelRequest} (h : Underway eff.controls steers s)
    (hlast : context.messages.getLast? = some (.request request))
    (hcarried : steers <:+ request.parts) :
    Prog.safe Own.exec Eq (Follows (Turn eff.controls))
      (eff.wrapModelRequest ai.digest context (fun request => perform (.provide request)))
      (fun _ s' => Going s'.done) s := by
  have hledger : ∀ c : Call Value, (perform (.ledger c)).AllOps Even := fun c =>
    (Prog.allOps_op (Op.ledger c)).mpr trivial
  unfold Effects.wrapModelRequest
  split
  · exact safe_provide h hlast hcarried
  · apply (Prog.safe_bind _ _ _ _).mpr
    apply Prog.safe_post (underway_even (hledger _) s h)
    intro r s₁ h₁
    cases r with
    | error error => exact h₁.going
    | ok step =>
      cases step with
      | done value => cases value <;> exact h₁.going
      | running =>
        simp only
        split
        · apply (Prog.safe_bind _ _ _ _).mpr
          apply Prog.safe_post (underway_even (hledger _) s₁ h₁)
          intro r s₂ h₂
          cases r with
          | error error => exact h₂.going
          | ok _ => exact safe_requestOnce _ _ h₂ hlast hcarried
        · exact h₁.going
      | absent => exact safe_requestOnce _ _ h₁ hlast hcarried

/-- The node that asks the model, once `before_model` has let it. -/
theorem safe_requestNode {steers : List RequestPart} {request : ModelRequest}
    (h : Underway eff.controls steers s) (hcarried : steers <:+ request.parts) :
    Prog.safe Own.exec Eq (Follows (Turn eff.controls)) (ai.requestNode eff request)
      (fun _ s' => Going s'.done) s := by
  apply (Prog.safe_bind _ _ _ _).mpr
  refine safe_update (fun r => ?_)
  cases r with
  | error error => exact (h.snoc (o := .modify _) trivial {}).going
  | ok _ =>
    apply (Prog.safe_bind _ _ _ _).mpr
    refine safe_update (fun r => ?_)
    cases r with
    | error error => exact ((h.snoc (o := .modify _) trivial {}).snoc (o := .modify _) trivial {}).going
    | ok _ =>
      apply (Prog.safe_bind _ _ _ _).mpr
      refine safe_attempt ?_
      apply (Prog.safe_bind _ _ _ _).mpr
      -- The history ends with the request from here until the provider is asked.
      have hu : Underway eff.controls steers s := h
      apply Prog.safe_post (safe_wrapModelRequest
        (((hu.snoc (o := .modify _) trivial _).snoc (o := .modify _) trivial _).snoc
          (o := .get) trivial _) (by simp [PydanticAI.requestContext]) hcarried)
      intro r s₁ h₁
      cases r with
      | error error => exact h₁
      | ok response =>
        apply (Prog.safe_bind _ _ _ _).mpr
        refine safe_update (fun r => ?_)
        cases r with
        | error error => exact h₁.snoc (fun h => h)
        | ok _ => exact h₁.snoc (fun h => h)

theorem idle_halt (reason : StopReason) :
    Prog.Keeps Own.exec (Follows (Turn eff.controls)) (fun _ => True) _ (Effects.halt reason) := by
  have hk := Prog.compositional_keeps Own.exec (Follows (Turn eff.controls)) (fun _ => True)
  exact hk.bind (keeps_idle (o := .modify _) (fun h => h) trivial) (fun _ =>
    hk.bind (keeps_idle (o := .get) (fun h => h) trivial) (fun _ => hk.ret _))

theorem safe_admit (prompt : Option Json) (results : DeferredToolResults) (request : ModelRequest)
    (h : Going s.done) :
    Prog.safe Own.exec Eq (Follows (Turn eff.controls))
      (eff.admit_ request (ai.runNode eff prompt results))
      (fun r s' => ∀ next, r = .ok (.node next) → Going s'.done) s := by
  apply (Prog.safe_bind _ _ _ _).mpr
  apply Prog.safe_post (going_even (even_of_still Throughout.still_drain) s h)
  intro r s₁ h₁
  cases r with
  | error error => simp
  | ok pending =>
    apply (Prog.safe_bind _ _ _ _).mpr
    apply Prog.safe_post (safe_steered request pending h₁)
    intro r s₂ h₂
    cases r with
    | error error => simp
    | ok decision =>
      cases decision with
      | error reason =>
        have hhalt : (Effects.halt reason).AllRets (fun result => ∀ next, result ≠ .node next) :=
          Prog.allRets_then _ (fun _ => Prog.allRets_then _ (fun _ => by simp [Prog.AllRets]))
        have hidle : Prog.Keeps Own.exec (Follows (Turn eff.controls)) (fun _ => True) _
            (Effects.halt reason) :=
          idle_halt reason
        apply Prog.safe_post (Prog.safe_rets hhalt (hidle s₂ trivial))
        intro r s₃ h₃ next hr
        exact absurd rfl (h₃.2 _ hr next)
      | ok entering =>
        obtain ⟨inputs, steers⟩ := entering
        have hu := h₂ inputs steers rfl
        simp only
        apply (Prog.safe_bind _ _ _ _).mpr
        apply Prog.safe_post (underway_even (even_update _) s₂ hu)
        intro r s₃ h₃
        cases r with
        | error error => simp
        | ok _ =>
          apply (Prog.safe_bind _ _ _ _).mpr
          apply Prog.safe_post (underway_even
            (even_of_still (Throughout.still_recordMessage _)) s₃ h₃)
          intro r s₄ h₄
          cases r with
          | error error => simp
          | ok _ =>
            apply (Prog.safe_bind _ _ _ _).mpr
            apply Prog.safe_post (underway_even
              (even_of_settling (Throughout.settling_admitInputs _)) s₄ h₄)
            intro r s₅ h₅
            cases r with
            | error error => simp
            | ok _ =>
              apply Prog.safe_post (safe_requestNode h₅ (List.suffix_append _ _))
              intro r s₆ h₆ next _
              exact h₆

/-- A finish that is refused leads on, and one that stands ends the run. -/
theorem safe_decideFinish (result : NodeResult) (h : Going s.done) :
    Prog.safe Own.exec Eq (Follows (Turn eff.controls)) (eff.decideFinish result)
      (fun r s' => ∀ next, r = .ok (.node next) → Going s'.done) s := by
  cases result with
  | node next => exact fun _ _ => h
  | finish output =>
    simp only [Effects.decideFinish]
    split
    · simp
    · apply (Prog.safe_bind _ _ _ _).mpr
      apply Prog.safe_post (going_even (even_of_still Throughout.still_lateInputs) s h)
      intro r s₁ h₁
      cases r with
      | error error => simp
      | ok late =>
        simp only
        split
        · apply (Prog.safe_bind _ _ _ _).mpr
          refine safe_update (fun r => ?_)
          cases r with
          | error error => simp
          | ok _ => exact fun _ _ => h₁.snoc (fun h => h)
        · split
          · apply (Prog.safe_bind _ _ _ _).mpr
            refine safe_update (fun r => ?_)
            cases r <;> simp
          · rename_i plane _
            apply (Prog.safe_bind _ _ _ _).mpr
            apply Prog.safe_post (going_even (even_of_still (Throughout.still_ctx _)) s₁ h₁)
            intro r s₂ h₂
            cases r with
            | error error => simp
            | ok here =>
              apply (Prog.safe_bind _ _ _ _).mpr
              refine safe_asked (fun r => ?_)
              cases r with
              | error error => simp
              | ok decision =>
                cases decision with
                | proceed steers => exact fun _ _ => h₂.snoc (fun h => h)
                | halt reason =>
                  apply (Prog.safe_bind _ _ _ _).mpr
                  refine safe_update (fun r => ?_)
                  cases r <;> simp

theorem safe_node (weaves : Prog.Weaves ai.gather) (prompt : Option Json)
    (results : DeferredToolResults) (node : Node) (h : Going s.done) :
    Prog.safe Own.exec Eq (Follows (Turn eff.controls))
      (eff.wrapNodeRun node (ai.runNode eff prompt results))
      (fun r s' => ∀ next, r = .ok (.node next) → Going s'.done) s := by
  apply (Prog.safe_bind _ _ _ _).mpr
  refine safe_update (fun r => ?_)
  cases r with
  | error error => simp
  | ok _ =>
    have h₁ := h.snoc (d := ⟨.modify (fun a => { a with turn := a.runStep }), .ok ()⟩) (fun h => h)
    cases node with
    | userPrompt =>
      have henter : (ai.enterNode prompt results).AllOps Even := by
        refine Prog.allOps_bind (even_of_still Throughout.still_attempt) (fun a => ?_)
        split
        · trivial
        · exact Prog.allOps_bind (even_update _) (fun _ =>
            Prog.allOps_bind (even_update _) (fun _ => trivial))
      exact Prog.safe_post (going_even henter _ h₁) (fun _ _ h _ _ => h)
    | modelRequest request => exact safe_admit prompt results request h₁
    | callTools response results' =>
      have hcalls : (ai.callToolsNode eff response results').AllOps Even := by
        refine Prog.allOps_bind (even_of_still Throughout.still_attempt) (fun a =>
          Prog.allOps_bind (weaves.allOps ?_) (fun outcomes => ?_))
        · intro call hcall
          obtain ⟨item, -, rfl⟩ := List.mem_map.mp hcall
          exact (Throughout.called_executeCall ai item.2).mono (fun _ => even_called)
        · split
          · trivial
          · trivial
          · exact Prog.allOps_bind (even_update _) (fun _ => trivial)
      apply (Prog.safe_bind _ _ _ _).mpr
      refine safe_update (fun r => ?_)
      cases r with
      | error error => simp
      | ok _ =>
        have h₂ := h₁.snoc (d := ⟨.modify (fun a => { a with suspendedThisRound := false }), .ok ()⟩)
          (fun h => h)
        apply (Prog.safe_bind _ _ _ _).mpr
        apply Prog.safe_post (going_even
          (even_of_still (Throughout.still_recordPending response)) _ h₂)
        intro r s₃ h₃
        cases r with
        | error error => simp
        | ok _ =>
          apply (Prog.safe_bind _ _ _ _).mpr
          apply Prog.safe_post (going_even hcalls s₃ h₃)
          intro r s₄ h₄
          cases r with
          | error error => simp
          | ok result =>
            apply (Prog.safe_bind _ _ _ _).mpr
            apply Prog.safe_post (going_even
              (even_of_still (Throughout.still_recordTurn response result)) s₄ h₄)
            intro r s₅ h₅
            cases r with
            | error error => simp
            | ok _ => exact safe_decideFinish result h₅

theorem safe_iterate (weaves : Prog.Weaves ai.gather) (prompt : Option Json)
    (results : DeferredToolResults) (fuel : Nat) (node : Node) (h : Going s.done) :
    Prog.safe Own.exec Eq (Follows (Turn eff.controls)) (ai.iterate eff prompt results fuel node)
      (fun _ _ => True) s := by
  induction fuel generalizing node s with
  | zero => trivial
  | succ fuel ih =>
    apply (Prog.safe_bind _ _ _ _).mpr
    apply Prog.safe_post (safe_node weaves prompt results node h)
    intro r s₁ h₁
    cases r with
    | error error => trivial
    | ok result =>
      cases result with
      | finish output => trivial
      | node next =>
        apply (Prog.safe_bind _ _ _ _).mpr
        unfold PydanticAI.advance
        refine safe_update (fun r => ?_)
        cases r with
        | error error => trivial
        | ok _ => exact ih next ((h₁ next rfl).snoc (fun h => h))

end

/-! Every call of the runtime. -/

section
variable {rt : AgentRuntime} {agent : Agent} {controls : Option String}

theorem carried_turn (controls : Option String) : Throughout.Carried
    (Prog.Keeps Own.exec (Follows (Turn controls)) (fun _ => True)) where
  compositional := Prog.compositional_keeps _ _ _
  outer _ ho := keeps_idle (even_outer ho).2 (even_outer ho).1

/-- An attempt goes on from where it begins. -/
theorem keeps_attemptRun (weaves : Prog.Weaves agent.gather) {e : Execution} {token : Nat}
    {prompt : Option String} {options : Options}
    (hcontrols : (options.controls <|> agent.own) = controls) :
    Prog.Keeps Own.exec (Follows (Turn controls)) (fun _ => True) _
      (rt.attemptRun e token agent prompt options) := by
  have hcarried := carried_turn controls
  intro s _
  subst hcontrols
  apply (Prog.safe_bind _ _ _ _).mpr
  refine safe_update (fun r => ?_)
  cases r with
  | error error => trivial
  | ok _ =>
    have hbegun : Going (s.done ++ [⟨.modify (fun _ => {}), .ok ()⟩]) :=
      ⟨s.done, _, [], rfl, ⟨_, rfl, fun _ => rfl⟩, by simp⟩
    apply (Prog.safe_bind _ _ _ _).mpr
    apply Prog.safe_post (going_even ((Throughout.plain_openBranch options.messageHistory).mono
      (fun _ ho => (even_outer (Throughout.outer_plain ho)).1)) _ hbegun)
    intro r s₁ h₁
    cases r with
    | error error => trivial
    | ok history =>
      have hadmit : (rt.admitPrompt e token prompt options.promptId).AllOps Even := by
        unfold AgentRuntime.admitPrompt
        split
        · refine Prog.allOps_bind ((Prog.allOps_op Op.now).mpr trivial) (fun instant =>
            Prog.allOps_bind ((Prog.allOps_op (Op.ledger _)).mpr trivial) (fun inserted => ?_))
          split
          · exact Prog.allOps_bind ((Prog.allOps_op (Op.ledger _)).mpr trivial) (fun _ => trivial)
          · trivial
        · trivial
      apply (Prog.safe_bind _ _ _ _).mpr
      apply Prog.safe_post (going_even hadmit s₁ h₁)
      intro r s₂ h₂
      cases r with
      | error error => trivial
      | ok prompt =>
        apply (Prog.safe_bind _ _ _ _).mpr
        have hrun : Prog.safe Own.exec Eq
            (Follows (Turn (rt.effectsOf e token agent options).controls))
            (agent.run (rt.effectsOf e token agent options) (prompt.map Json.str) history
              options.results) (fun _ _ => True) s₂ := by
          apply (Prog.safe_bind _ _ _ _).mpr
          refine safe_update (fun r => ?_)
          cases r with
          | error error => trivial
          | ok _ =>
            have h₃ := h₂.snoc (d := ⟨.modify (fun a => { a with
              messages := history, running := true }), .ok ()⟩) (fun h => h)
            apply (Prog.safe_bind _ _ _ _).mpr
            apply Prog.safe_post (safe_iterate weaves _ _ _ _ h₃)
            intro r s₃ _
            cases r with
            | error error => trivial
            | ok output =>
              apply (Prog.safe_bind _ _ _ _).mpr
              refine safe_update (fun r => ?_)
              cases r <;> trivial
        apply Prog.safe_post hrun
        intro r s₃ _
        cases r with
        | error error => trivial
        | ok output =>
          have hclose : ∀ output, Prog.Keeps Own.exec (Follows (Turn (options.controls <|> agent.own)))
              (fun _ => True) _ (rt.close e output) := fun output =>
            hcarried.of_plain Throughout.plain_close
          apply (Prog.safe_bind _ _ _ _).mpr
          apply Prog.safe_post (hcarried.of_plain Throughout.plain_replaceFinal s₃ trivial)
          intro r s₄ _
          cases r with
          | error error => trivial
          | ok _ =>
            cases output with
            | deferred requests => exact hcarried.of_outer Throughout.outer_park s₄ trivial
            | text content => exact hclose _ s₄ trivial
            | value value => exact hclose _ s₄ trivial

end

section
variable {out : Outside} {self : Nat → Nat} {i : Nat}

/-- Whatever an operation of the runtime does among any others: the provider is asked only behind
its own `before_model`, with what that sent along, and an attempt that a control point has ended
runs no tool, asks no provider and touches no queued input. -/
theorem turns_kept {rt : AgentRuntime} {agent : Agent} {op : Operation} {e : Execution}
    {pool pool' : Nat → Program Reply} {s s' : Scene} (weaves : Prog.Weaves agent.gather)
    (serves : pool i = rt.serve agent e op ∨ pool i = settled op (rt.serve agent e op))
    (apart : ∀ j, j ≠ i → self j ≠ self i) (fresh : log i s.events = [])
    (run : Interleaved (exec out self) (fun _ _ => False) pool s pool' s') :
    Ordered (Turn (Throughout.controls op <|> agent.own)) i s' := by
  have hcarried := carried_turn (Throughout.controls op <|> agent.own)
  have hattempt : ∀ e token prompt (options : Options),
      options.controls = Throughout.controls op → Prog.Keeps Own.exec
        (Follows (Turn (Throughout.controls op <|> agent.own))) (fun _ => True) _
        (rt.attemptRun e token agent prompt options) := fun e token prompt options hcontrols =>
    keeps_attemptRun weaves (by rw [hcontrols])
  have hparts : Throughout.Parts (Prog.Keeps Own.exec
      (Follows (Turn (Throughout.controls op <|> agent.own))) (fun _ => True)) rt agent op := {
    attempts := fun e token prompt options hosted => hattempt e token prompt options hosted.controls
    finalizes := fun e token active answers rulesVersion =>
      hcarried.finalize (fun results _ => hattempt _ _ _ _ rfl) }
  refine ordered_of_safe (fun a => ?_) apart fresh run
  rcases serves with h | h
  · rw [h]
    exact hcarried.serve hparts _ trivial
  · rw [h]
    exact hcarried.settled hparts _ trivial

end

open Mediated (approved personal promptThenApprove sender approve weaves_standard)

/-- The answer's attempt takes the conversation to its end. -/
theorem turns_kept_approved :
    Ordered (Turn (Throughout.controls approve <|> sender.own)) 1 approved.2 := by
  have serves : promptThenApprove 1 =
    ({} : AgentRuntime).serve sender { branchId := "run" } approve := rfl
  have run := interleaved_scheduled (Scene.perform personal id) (fun _ _ => False)
    (List.replicate 62 0 ++ List.replicate 99 1) promptThenApprove ⟨{}, fun _ => {}, []⟩
  exact turns_kept weaves_standard (.inl serves) (fun _ hj => hj) rfl run

end Semora.Proofs.Turns
