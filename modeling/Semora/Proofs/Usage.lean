import Semora.Proofs.Counting

/-! The usage rows of a branch after any number of attempts at it. Each attempt that gets to its end
overwrites the row of the model it heard last with all that it heard, from whichever model. -/

namespace Semora.Proofs.Usage
open Semora.Lib Semora.Store Semora.Transcript

/-! Attempts on one branch. -/

/-- What threads of other attempts do, none of which writes counts to the branch. -/
def Elsewhere (out : Outside) (branchId : String) (i : Nat) (s t : Scene) : Prop :=
  Others out id i s t ∧
    t.world.transcript.readModelUsage branchId = s.world.transcript.readModelUsage branchId

/-- One attempt at the branch, through any entry point. -/
inductive Attempting (rt : AgentRuntime) (e : Execution) : Program Outcome → Prop
  | run (agent : Agent) (gathers : Gathers agent.toPydanticAI) (closes : Closes agent.toPydanticAI)
      (prompt : Option String) (options : Options) :
      Attempting rt e (rt.run e agent prompt options)
  | resume (agent : Agent) (gathers : Gathers agent.toPydanticAI)
      (closes : Closes agent.toPydanticAI) (pendingId : String) (answer : Answer)
      (controls : Option String) (rules : String) :
      Attempting rt e (rt.resume e pendingId answer agent controls rules)
  | recover (agent : Agent) (gathers : Gathers agent.toPydanticAI)
      (closes : Closes agent.toPydanticAI) (history : List ModelMessage)
      (controls : Option String) (rules : String) :
      Attempting rt e (rt.recover e agent history controls rules)
  | fork (agent : Agent) (gathers : Gathers agent.toPydanticAI)
      (closes : Closes agent.toPydanticAI) (src : Execution) (at_ : Option Uuid)
      (prompt : Option String) (history : Option (List ModelMessage)) (regate : Bool)
      (options : Options) : Attempting rt e (rt.fork src at_ e agent prompt history regate options)

/-- Attempts at one branch, one after the other, each as far as it got, and what each did. -/
inductive Attempts (out : Outside) (rt : AgentRuntime) (e : Execution) :
    Scene → List (List Done) → Scene → Prop
  | none (s : Scene) : Attempts out rt e s [] s
  | next {s t u : Scene} {dids : List (List Done)} {i : Nat} {p q : Program Outcome}
      {did : List Done} (before : Attempts out rt e s dids t) (attempting : Attempting rt e p)
      (fresh : log i t.events = [])
      (run : Prog.Runs (exec out id i) (Elsewhere out e.branchId i) p t q u)
      (logged : log i u.events = did.map (eventOf i)) : Attempts out rt e s (dids ++ [did]) u

/-- Attempts of which the last has closed the branch. -/
inductive Closed (out : Outside) (rt : AgentRuntime) (e : Execution) :
    Scene → List (List Done) → Scene → Prop
  | intro {s t u : Scene} {dids : List (List Done)} {i : Nat} {p : Program Outcome}
      {outcome : Outcome} {did : List Done} (before : Attempts out rt e s dids t)
      (attempting : Attempting rt e p) (fresh : log i t.events = [])
      (run : Prog.Runs (exec out id i) (Elsewhere out e.branchId i) p t (.ret outcome) u)
      (logged : log i u.events = did.map (eventOf i)) : Closed out rt e s (dids ++ [did]) u

/-- The counts the branch has for a model; zero without a row. -/
def row (branchId model : String) (s : Scene) : UsageFields :=
  (fetch model (s.world.transcript.readModelUsage branchId)).getD ⟨0, 0, 0⟩

/-- The responses of all requests that attempts made to a model. -/
def madeTo (model : String) (dids : List (List Done)) : List ModelResponse :=
  (dids.flatMap made).filter (fun response => answerer response = model)

/-- Whether an attempt wrote its counts, and to this model's row. -/
def settledOn (branchId model : String) (did : List Done) : Bool :=
  !(wrote branchId did).isEmpty && lastAnswerer (heard did) = model

/-- All that the last attempt heard that wrote its counts to this model's row, whoever answered. -/
def lastSettled (branchId model : String) (dids : List (List Done)) : List ModelResponse :=
  ((dids.reverse.find? (settledOn branchId model)).map heard).getD []

/-- Every model's row holds what all requests made to it spent. -/
def Accounted (branchId : String) (dids : List (List Done)) (s : Scene) : Prop :=
  ∀ model, row branchId model s = spent (madeTo model dids)

section
variable {out : Outside} {rt : AgentRuntime} {e : Execution} {s t u : Scene} {i : Nat}
  {branchId : String}

theorem Attempting.safe {p : Program Outcome} (h : Attempting rt e p) {o : Own}
    (ho : Open e.branchId [] o) : Prog.safe Own.exec Eq (fun _ s' => Billed e.branchId s') p
      (fun _ => Billed e.branchId) o := by
  cases h with
  | run agent gathers closes prompt options => exact (keeps gathers closes).run prompt options ho
  | resume agent gathers closes pendingId answer controls rules =>
    refine (keeps gathers closes).resume ?_ controls rules ho
    intro t v active call s h _ _
    exact Prog.safe_either (h.still (still_op trivial)) (fun _ _ h => ⟨fun _ => h, fun _ => h.billed⟩)
      (fun _ _ h => h)
  | recover agent gathers closes history controls rules =>
    exact (keeps gathers closes).recover (fun _ _ _ _ h _ _ => h) history controls rules ho
  | fork agent gathers closes src at_ prompt history regate options =>
    exact (keeps gathers closes).fork (fun _ h => h.still (still_forkHistory src at_ history))
      (fun t _ _ h => h.still (still_copyRound src t _)) prompt regate options ho

theorem fetch_concat (model : String) (rows : List (String × UsageFields))
    (added : String × UsageFields) : fetch model (rows ++ [added]).reverse =
      if model = added.1 then some added.2 else fetch model rows.reverse := by
  obtain ⟨model', counts⟩ := added
  simp [fetch]

/-- One operation's counts. -/
theorem exec_rows {o : Op} {r : Except Exn o.Res} (h : exec out id i o s r t) (model : String) :
    fetch model (t.world.transcript.readModelUsage branchId) =
      (fetch model (wroteOf branchId ⟨o, r⟩).toList).or
        (fetch model (s.world.transcript.readModelUsage branchId)) := by
  have hworld := (exec_events h).2.1
  rw [hworld]
  simp only [MemoryTranscript.fetch_readModelUsage]
  cases o with
  | recordModelUsage b model' counts =>
    simp only [step, MemoryTranscript.recordModelUsage, Dict.get?_insert, Prod.mk.injEq, wroteOf]
    by_cases hb : b = branchId
    · by_cases hm : model = model'
      · simp [hb, hm, fetch]
      · simp [hb, hm, fetch]
    · simp [hb, Ne.symm hb, fetch]
  | append entry =>
    have hsame : (s.world.transcript.append entry).2.modelUsage =
        s.world.transcript.modelUsage := by
      unfold MemoryTranscript.append
      dsimp only
      split <;> rfl
    simp [step, hsame, wroteOf, fetch]
  | _ => simp [step, wroteOf, fetch, MemoryTranscript.recordBranch]

/-- A run among others whose environment writes no counts to the branch leaves in its rows what it
has written. -/
theorem runs_written {α : Type} {p q : Program α}
    (run : Prog.Runs (exec out id i) (Elsewhere out branchId i) p s q t) :
    Prog.Runs (exec out id i) (Others out id i) p s q t ∧ ∃ did,
      log i t.events = log i s.events ++ did.map (eventOf i) ∧ ∀ model,
        fetch model (t.world.transcript.readModelUsage branchId) =
          (fetch model (wrote branchId did).reverse).or
            (fetch model (s.world.transcript.readModelUsage branchId)) := by
  induction run with
  | refl => exact ⟨.refl _ _, [], by simp, fun model => by simp [wrote, fetch]⟩
  | env _ move ih =>
    obtain ⟨hrun, did, hlogged, hrows⟩ := ih
    obtain ⟨hothers, hsame⟩ := move
    refine ⟨.env hrun hothers, did, hothers.same.2.1.trans hlogged, ?_⟩
    intro model
    rw [hsame]
    exact hrows model
  | @op o next t r u _ he ih =>
    obtain ⟨hrun, did, hlogged, hrows⟩ := ih
    refine ⟨.op hrun he, did ++ [⟨o, r⟩], ?_, ?_⟩
    · rw [log_mine (exec_events he).1, hlogged]
      simp [eventOf]
    · intro model
      rw [exec_rows he, hrows, wrote_snoc]
      cases hwrote : wroteOf branchId ⟨o, r⟩ with
      | none => simp [fetch]
      | some added =>
        rw [Option.toList_some, fetch_concat]
        obtain ⟨model', counts⟩ := added
        by_cases hm : model = model'
        · simp [fetch, hm]
        · simp [fetch, hm]

theorem runs_rows {α : Type} {p q : Program α} {did : List Done}
    (run : Prog.Runs (exec out id i) (Elsewhere out branchId i) p s q t)
    (logged : log i t.events = log i s.events ++ did.map (eventOf i)) :
    Viewed i (s.attempts i) p s q t (t.attempts i) did ∧ ∀ model,
      fetch model (t.world.transcript.readModelUsage branchId) =
        (fetch model (wrote branchId did).reverse).or
          (fetch model (s.world.transcript.readModelUsage branchId)) := by
  obtain ⟨hrun, did', hlogged, hrows⟩ := runs_written run
  have hsame := logged.symm.trans hlogged
  obtain rfl : did = did' :=
    List.map_injective_iff.mpr eventOf_injective (List.append_cancel_left hsame)
  exact ⟨runs_did hrun logged, hrows⟩

/-- What an attempt wrote is nothing, or the counts of all that it heard. -/
theorem Attempting.billed {p q : Program Outcome} {did : List Done} (h : Attempting rt e p)
    (run : Prog.Runs (exec out id i) (Elsewhere out e.branchId i) p s q t)
    (logged : log i t.events = log i s.events ++ did.map (eventOf i)) :
    wrote e.branchId did = [] ∨ wrote e.branchId did = bill (heard did) := by
  have hopen : Open e.branchId [] ⟨s.attempts i, []⟩ := ⟨rfl, rfl⟩
  exact (Prog.safe_runs (fun _ => rfl) (fun _ _ _ => Eq.trans) (fun _ _ _ hq he => he ▸ hq)
    (I := Billed e.branchId) (fun _ _ he hb => he ▸ hb) (fun _ _ hb _ => hb) (h.safe hopen)
    hopen.billed (runs_rows run logged).1.runs).2

/-- One attempt more: it sets the row it settled, if it got as far, and no other. -/
theorem Attempting.row {p q : Program Outcome} {did : List Done} (h : Attempting rt e p)
    (run : Prog.Runs (exec out id i) (Elsewhere out e.branchId i) p s q t)
    (logged : log i t.events = log i s.events ++ did.map (eventOf i)) (model : String) :
    Usage.row e.branchId model t =
      if settledOn e.branchId model did then spent (heard did)
      else Usage.row e.branchId model s := by
  unfold Usage.row settledOn
  rw [(runs_rows run logged).2 model]
  rcases h.billed run logged with hnone | hbill
  · simp [hnone, fetch]
  · unfold bill at hbill
    split at hbill
    · simp [hbill, fetch]
    · rw [hbill]
      by_cases hm : lastAnswerer (heard did) = model
      · simp [fetch, hm]
      · simp [fetch, hm, Ne.symm hm]

/-- Every row holds what the last attempt heard that settled it. -/
theorem Attempts.row {dids : List (List Done)} (h : Attempts out rt e s dids t)
    (hnew : ∀ model, Usage.row e.branchId model s = spent []) (model : String) :
    Usage.row e.branchId model t = spent (lastSettled e.branchId model dids) := by
  induction h with
  | none => exact hnew model
  | next before attempting fresh run logged ih =>
    rw [attempting.row run (by rw [fresh, logged]; rfl) model]
    unfold lastSettled
    rw [List.reverse_append, List.reverse_singleton, List.singleton_append, List.find?_cons]
    split
    · rename_i hsettled
      rw [hsettled]
      rfl
    · rename_i hsettled
      rw [Bool.not_eq_true] at hsettled
      rw [hsettled]
      exact ih

theorem Closed.attempts {dids : List (List Done)} (h : Closed out rt e s dids t) :
    Attempts out rt e s dids t := by
  cases h with
  | intro before attempting fresh run logged => exact .next before attempting fresh run logged

/-- Once the branch has closed, its rows account for every request its attempts made exactly if
for every model the requests made to it spent what the last attempt heard that settled its row. -/
theorem accounted_iff {dids : List (List Done)} (h : Closed out rt e s dids t)
    (hnew : s.world.transcript.readModelUsage e.branchId = []) :
    Accounted e.branchId dids t ↔
      ∀ model, spent (madeTo model dids) = spent (lastSettled e.branchId model dids) := by
  have hrow : ∀ model, Usage.row e.branchId model t =
      spent (lastSettled e.branchId model dids) := by
    apply h.attempts.row
    intro model
    unfold Usage.row
    rw [hnew]
    rfl
  constructor
  · intro haccounted model
    rw [← haccounted model, hrow model]
  · intro hbalanced model
    rw [hrow model, hbalanced model]

end

/-! Attempts alone. -/

/-- What a thread did. -/
def didBy (i : Nat) (s : Scene) : List Done := (log i s.events).map (fun e => ⟨e.op, e.reply⟩)

theorem didBy_logged (i : Nat) (s : Scene) : log i s.events = (didBy i s).map (eventOf i) := by
  simp only [didBy, List.map_map]
  symm
  calc (log i s.events).map (eventOf i ∘ fun e => ⟨e.op, e.reply⟩)
      = (log i s.events).map id := by
        apply List.map_congr_left
        intro e he
        obtain rfl : e.thread = i := by simpa using (List.mem_filter.mp he).2
        rfl
    _ = log i s.events := List.map_id _

section
variable {out : Outside} {rt : AgentRuntime} {e : Execution} {s t : Scene} {i : Nat}
  {dids : List (List Done)} {p : Program Outcome}

/-- The scene after a program that runs alone. -/
def leaving (out : Outside) (i : Nat) (p : Program Outcome) (s : Scene) : Scene :=
  (p.eval (Scene.perform out id i) s).2

theorem Attempts.alone (before : Attempts out rt e s dids t) (attempting : Attempting rt e p)
    (fresh : log i t.events = []) :
    Attempts out rt e s (dids ++ [didBy i (leaving out i p t)]) (leaving out i p t) :=
  .next before attempting fresh (Prog.Runs.refl _ _).eval (didBy_logged i _)

theorem Attempts.closed (before : Attempts out rt e s dids t) (attempting : Attempting rt e p)
    (fresh : log i t.events = [])
    (returned : (p.eval (Scene.perform out id i) t).1.toBool = true) :
    Closed out rt e s (dids ++ [didBy i (leaving out i p t)]) (leaving out i p t) := by
  have hrun : Prog.Runs (exec out id i) (Elsewhere out e.branchId i) p t
      (.ofExcept (p.eval (Scene.perform out id i) t).1) (leaving out i p t) :=
    (Prog.Runs.refl _ _).eval
  cases houtcome : (p.eval (Scene.perform out id i) t).1 with
  | ok outcome =>
    rw [houtcome] at hrun
    exact .intro before attempting fresh hrun (didBy_logged i _)
  | error error =>
    rw [houtcome] at returned
    cases returned

end

/-! A branch whose first attempt parks a call, and whose second finishes it. -/

/-- A model that asks for one tool and ends with its result, behind a policy that asks a person
about the tools it is told to. -/
def counting (asks : Bool) : Outside :=
  .answering (fun _ _ _ => .ok .null)
    (fun _ request => .ok (match latestResponse request.messages with
      | none =>
        { parts := [.toolCall ⟨"send", .dict [], "c1"⟩], modelName := some "opus"
          inputTokens := 10, outputTokens := 5 }
      | some _ =>
        { parts := [.text "sent"], modelName := some "opus"
          inputTokens := 7, outputTokens := 3 }))
    (fun _ _ q => match q with
      | .preToolUse .. =>
        .ok (if asks then .suspend { pendingId := some "p1" } else .continue)
      | .onInputs _ inputs => .ok (.inputs inputs)
      | .beforeModel _ => .ok (.proceed [])
      | .beforeFinish _ reason => .ok (.halt reason)
      | .onResume .. => .ok .continue
      | .onSuspend .. => .ok ()
      | .postToolUse _ _ result => .ok result)

/-- A digest that tells histories of different lengths apart. -/
def byLength : Json → String
  | .dict items =>
    match fetch "messages" items with
    | some (.list messages) => String.ofList (messages.map (fun _ => 'm'))
    | _ => ""
  | _ => ""

def clerk : Agent := { PydanticAI.standard byLength [] 8 with }

theorem clerk_closes : Closes clerk.toPydanticAI := by
  intro response outcomes messages output appended h message hmessage
  simp only [clerk, PydanticAI.standard, PydanticAI.Standard.settle] at h
  split at h
  · simp only [Except.ok.injEq, Settled.finish.injEq] at h
    obtain ⟨-, rfl⟩ := h
    split at hmessage
    · cases hmessage
    · exact ⟨_, List.mem_singleton.mp hmessage⟩
  · split at h
    · simp only [Except.ok.injEq, Settled.finish.injEq] at h
      obtain ⟨-, rfl⟩ := h
      cases hmessage
    · cases h

def onBranch : Execution := { branchId := "run" }

def begun : Scene := ⟨{}, fun _ => {}, []⟩

def prompting : Program Outcome :=
  AgentRuntime.run {} onBranch clerk (some "hi") { controls := some "plane" }

def answering : Program Outcome :=
  AgentRuntime.resume {} onBranch "p1" {} clerk (some "plane") ""

theorem attempting_prompting : Attempting {} onBranch prompting :=
  .run clerk (gathers_standard _ _ _) clerk_closes _ _

theorem attempting_answering : Attempting {} onBranch answering :=
  .resume clerk (gathers_standard _ _ _) clerk_closes _ _ _ _

/-- Where nothing parks, one attempt makes both requests and closes the branch. -/
def once : Scene := leaving (counting false) 0 prompting begun

theorem closed_once : Closed (counting false) {} onBranch begun [didBy 0 once] once :=
  (Attempts.none begun).closed attempting_prompting rfl (by decide +kernel)

theorem accounted_once : Accounted onBranch.branchId [didBy 0 once] once := by
  refine (accounted_iff closed_once rfl).mpr (fun model => ?_)
  by_cases hmodel : model = "opus"
  · subst hmodel
    decide +kernel
  · have hmade : ∀ response ∈ made (didBy 0 once), answerer response = "opus" := by decide +kernel
    have hlast : lastAnswerer (heard (didBy 0 once)) = "opus" := by decide +kernel
    have hnone : (made (didBy 0 once)).filter (fun response => answerer response = model) = [] :=
      List.filter_eq_nil_iff.mpr (fun response h => by simp [hmade response h, Ne.symm hmodel])
    simp [madeTo, lastSettled, settledOn, hlast, hnone, Ne.symm hmodel]

/-- The call is parked, with one request made. -/
def asked : Scene := leaving (counting true) 0 prompting begun

/-- The call has run, and another request was made. -/
def finished : Scene := leaving (counting true) 1 answering asked

theorem attempts_asked : Attempts (counting true) {} onBranch begun [didBy 0 asked] asked :=
  (Attempts.none begun).alone attempting_prompting rfl

theorem asked_apart : log 1 asked.events = [] := by
  have hempty : (log 1 asked.events).isEmpty = true := by decide +kernel
  exact List.isEmpty_iff.mp hempty

theorem closed_finished :
    Closed (counting true) {} onBranch begun [didBy 0 asked, didBy 1 finished] finished :=
  attempts_asked.closed attempting_answering asked_apart (by decide +kernel)

/-- What the attempt that parked spent is in no row. -/
theorem not_accounted : ¬ ∀ (out : Outside) (rt : AgentRuntime) (e : Execution) (s t : Scene)
    (dids : List (List Done)), Closed out rt e s dids t →
    s.world.transcript.readModelUsage e.branchId = [] → Accounted e.branchId dids t := by
  intro h
  have haccounted := h _ _ _ _ _ _ closed_finished rfl "opus"
  have hrow : row "run" "opus" finished ≠
      spent (madeTo "opus" [didBy 0 asked, didBy 1 finished]) := by decide +kernel
  exact hrow haccounted

end Semora.Proofs.Usage
