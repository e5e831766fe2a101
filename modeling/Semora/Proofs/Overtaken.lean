import Semora.Lib.Machine
import Semora.Proofs.Writing
import Semora.Runtime.Dispatch

/-! Recovering a park that another worker finished in the meantime. -/

namespace Semora.Proofs.Overtaken
open Semora.Lib Semora.Store Semora.Transcript Writing

/-- Pydantic AI takes a history that ends with a response without calls up at that response, has no
call to run for it, and ends the run with it. -/
structure Concludes (ai : PydanticAI) : Prop where
  enter : ∀ history response, history.getLast? = some (.response response) → response.calls = [] →
    ai.enter history none [] = .ok (history, .callTools response [])
  round : ∀ history response, response.calls = [] → ai.round response history [] = []
  gather : ai.gather [] = .ret []
  settle : ∀ history response, response.calls = [] → ∃ output, output.isDeferred = false ∧
    ai.settle response [] history = .ok (.finish output [])

/-- An operation that asks a gate, parks a round or executes a call. -/
def Touches : Op → Prop
  | .ask _ (.preToolUse ..) | .ask _ (.onResume ..) | .ask _ (.onSuspend ..) => True
  | .ledger (.commitTransition ..) => True
  | .handle .. => True
  | _ => False

/-- What recovering a finished park leaves: the committed history says what it said, and no gate
was asked, nothing parked and nothing executed. -/
structure Harmless (c : String) (i : Nat) (s s' : Scene) : Prop where
  history : List.Forall₂ same (committed c s) (committed c s')
  untouched : ∀ event ∈ log i s'.events, event ∈ log i s.events ∨ ¬ Touches event.op

/-- Nothing is queued that a history does not hold. -/
def Idle (b : String) (history : List ModelMessage) (st : MemorySteps Value) : Prop :=
  ∀ row ∈ st.listInputs b, row.status = .discarded ∨ row.status = .admitted ∨
    row.inputId ∈ representedInputs history

/-- What happens beside the lease holder: nobody else writes to its conversation or its ledger. -/
structure Still (c b : String) (i : Nat) (s s' : Scene) : Prop where
  apart : Apart c i s s'
  mine : log i s'.events = log i s.events
  ledger : ∀ key, s'.world.store.read b key = s.world.store.read b key
  idle : ∀ history, Idle b history s.world.store → Idle b history s'.world.store

section
variable (rt : AgentRuntime) (e : Execution) (agent : Agent) (controls : Option String)
variable (rulesVersion : String)

/-- A dispatched `Recover` that has just been granted the lease, with what it had read before. -/
def holding (owner : String) (token : Nat) (state : SuspensionState) (history : List ModelMessage) :
    Program Applied :=
  (((rt.recoverLeased e token agent history controls rulesVersion).finally_
    (perform (.ledger (.release (View.filed ⟨e.conversationId⟩ e.branchId) owner)))).bind
      (fun outcome => .ret (.outcome outcome))).tryCatch (fun error =>
        match error with
        | .store (.contended b) => Dispatch.offer rt e .recover (some state.text)
            [Dispatch.replayJournal rt e agent controls rulesVersion] (some (.store (.contended b)))
        | error => .raise error)

/-- What a dispatched `Recover` of a park does until it is granted the lease. -/
theorem recover_begins (hstore : rt.executionStore = true) (htranscript : rt.transcript = true) :
    ∃ read, rt.dispatch e agent .recover controls rulesVersion =
      .call (.ledger (.read (View.filed ⟨e.conversationId⟩ e.branchId) Effects.activeSuspension))
        read ∧
    ∀ record active, AgentRuntime.liveSuspension record = some active →
    ∃ entered, read (.ok record) = .call (.readEntries e.conversation) entered ∧
    ∀ entries, ∃ named, entered (.ok entries) = .call .uuid4 named ∧
    ∀ owner, ∃ acquired, named (.ok owner) = .call (.ledger
      (.acquire (View.filed ⟨e.conversationId⟩ e.branchId) owner rt.leaseTtl)) acquired ∧
    ∀ token, token ≠ 0 → acquired (.ok token) =
      holding rt e agent controls rulesVersion owner token active.state (messagesOf entries) := by
  obtain ⟨executionStore, transcript, leaseTtl, retryRunning⟩ := rt
  cases hstore
  cases htranscript
  refine ⟨_, rfl, fun record active hlive => ?_⟩
  have hrecord : record = .done (.suspension active) := by
    unfold AgentRuntime.liveSuspension at hlive
    split at hlive
    · rw [Option.some.inj hlive]
    · cases hlive
  subst hrecord
  obtain ⟨state, conversationId, callId, continuation, callIds, answers⟩ := active
  cases state with
  | waiting =>
    refine ⟨_, rfl, fun entries => ⟨_, rfl, fun owner => ⟨_, rfl, fun token htoken => ?_⟩⟩⟩
    obtain ⟨n, rfl⟩ := Nat.exists_eq_succ_of_ne_zero htoken
    rfl
  | resuming =>
    refine ⟨_, rfl, fun entries => ⟨_, rfl, fun owner => ⟨_, rfl, fun token htoken => ?_⟩⟩⟩
    obtain ⟨n, rfl⟩ := Nat.exists_eq_succ_of_ne_zero htoken
    rfl

/-- The turns of a dispatched `Recover` up to its lease, with what others do between them. -/
theorem recover_granted {out : Outside} {i : Nat} {pool : Nat → Program Applied} {start : Scene}
    (hstore : rt.executionStore = true) (htranscript : rt.transcript = true)
    (hpool : pool i = rt.dispatch e agent .recover controls rulesVersion)
    {active : Suspension} (hactive : AgentRuntime.liveSuspension (start.world.store.read
      (View.filed ⟨e.conversationId⟩ e.branchId) Effects.activeSuspension) = some active)
    (first second : List Nat) (hfirst : ∀ j ∈ first, j ≠ i) (hsecond : ∀ j ∈ second, j ≠ i)
    {read taken : Scene}
    (hread : read = (scheduled (Scene.perform out id) (i :: first) pool start).2)
    (htaken : taken = (scheduled (Scene.perform out id)
      ((i :: first) ++ ([i, i] ++ second)) pool start).2)
    {token : Nat} (htoken : (step out (.ledger (.acquire (View.filed ⟨e.conversationId⟩ e.branchId)
      (out.uuid4 (read.world.instant + 1)) rt.leaseTtl)) taken.world (taken.attempts i)).1 =
        .ok token) (hgranted : token ≠ 0) :
    (scheduled (Scene.perform out id) (((i :: first) ++ ([i, i] ++ second)) ++ [i])
        pool start).1 i =
      holding rt e agent controls rulesVersion (out.uuid4 (read.world.instant + 1)) token
        active.state (messagesOf (read.world.transcript.read e.conversation)) := by
  obtain ⟨k, hbegin, hnext⟩ := recover_begins rt e agent controls rulesVersion hstore htranscript
  obtain ⟨k₁, henter, hnext⟩ := hnext _ _ hactive
  have h₁ : (scheduled (Scene.perform out id) (i :: first) pool start).1 i =
      .call (.readEntries e.conversation) k₁ := by
    rw [show i :: first = [i] ++ first from rfl, scheduled_append, scheduled_other hfirst,
      scheduled_mine (hpool.trans hbegin), ← henter]
    rfl
  obtain ⟨k₂, hname, hnext⟩ := hnext (read.world.transcript.read e.conversation)
  let opened := scheduled (Scene.perform out id) (i :: first) pool start
  let entered := scheduled (Scene.perform out id) [i] opened.1 opened.2
  have h₂ : entered.1 i = .call .uuid4 k₂ := by
    rw [scheduled_mine h₁, ← hname, hread]
    rfl
  obtain ⟨k₃, hacquire, hnext⟩ := hnext (out.uuid4 (read.world.instant + 1))
  have hinstant : entered.2.world.instant = read.world.instant + 1 := by
    rw [show entered = _ from scheduled_turn h₁ _, hread]
    exact step_instant _ _ _ _
  have h₃ : (scheduled (Scene.perform out id) ((i :: first) ++ ([i, i] ++ second)) pool start).1 i =
      .call (.ledger (.acquire (View.filed ⟨e.conversationId⟩ e.branchId)
        (out.uuid4 (read.world.instant + 1)) rt.leaseTtl)) k₃ := by
    rw [scheduled_append, scheduled_append, scheduled_other hsecond,
      show [i, i] = [i] ++ [i] from rfl, scheduled_append, scheduled_mine h₂, ← hacquire,
      ← hinstant]
    rfl
  rw [scheduled_append, scheduled_mine h₃, ← hnext token hgranted, ← htoken,
    htaken]
  rfl

/-- The history that was read is still what is committed and ends with the model's last word, and
nothing new reaches the attempt: nothing is queued, and its control plane lets it finish. -/
structure Current (out : Outside) (history : List ModelMessage) (s : Scene) : Prop where
  read : List.Forall₂ same (committed e.conversation s) history
  concluded : ∃ response, history.getLast? = some (.response response) ∧ response.calls = []
  idle : Idle (View.filed ⟨e.conversationId⟩ e.branchId) history s.world.store
  finishes : ∀ plane, (controls <|> agent.own) = some plane → ∀ n here, ∃ reason,
    out.ask n plane (.beforeFinish here .completed) = .ok (.halt reason)

/-- The calls the history leaves open are not of the round that was recorded last. -/
def TurnedAway (history : List ModelMessage) (s : Scene) : Prop :=
  AgentRuntime.matchesRound history (s.world.store.read
    (View.filed ⟨e.conversationId⟩ e.branchId) Effects.pendingRound) = false

end

/-! One operation beside the others. -/

section
variable {out : Outside} {c b : String} {i : Nat} {P : MemorySteps Value → Prop}
variable {t t' : Attempt} {branch branch' : Semora.Branch} {entries : List Entry} {s : Scene}

/-- What the recovering worker does to the world. -/
structure Gentle (b : String) (i : Nat) (s s' : Scene) : Prop where
  grown : ∃ o r, s'.events = s.events ++ [⟨i, o, r⟩] ∧ ¬ Touches o
  ledger : ∀ key, s'.world.store.read b key = s.world.store.read b key
  idle : ∀ history, Idle b history s.world.store → Idle b history s'.world.store

/-- An operation of the worker, in a ledger that is as `P` says. -/
def within (out : Outside) (i : Nat) (P : MemorySteps Value → Prop) :
    Prog.Exec Op Op.Res Exn Scene :=
  fun o s r s' => P s.world.store ∧ exec out id i o s r s'

abbrev Safe {α : Type} (out : Outside) (c b : String) (i : Nat) (P : MemorySteps Value → Prop)
    (p : Program α) (Q : Except Exn α → Scene → Prop) (s : Scene) : Prop :=
  Prog.safe (within out i P) (Still c b i) (Gentle b i) p Q s

/-- Where the worker is: its whole memory, and the conversation's entries. -/
abbrev Here (c : String) (i : Nat) (t : Attempt) (branch : Semora.Branch) (entries : List Entry)
    (s : Scene) : Prop :=
  Midway c i t (fun _ => True) branch entries s

theorem follows (t : Attempt) :
    Follows out c i t (fun _ => True) (within out i P) (Still c b i) (Gentle b i) where
  exec := fun _ _ _ _ h => h.2
  rely := fun _ _ h => h.apart
  guarantee := by
    intro s s' h
    obtain ⟨o, r, hevents, hwriter⟩ := h.grown
    refine ⟨⟨o, r, hevents, ?_⟩, fun key => by rw [h.store], fun history hidle => by rwa [h.store]⟩
    intro htouches
    cases o with
    | ask plane q => exact hwriter
    | ledger call => exact hwriter
    | handle call args => exact hwriter
    | _ => exact htouches

theorem op_safe {o : Op} {Q : Except Exn o.Res → Scene → Prop} (ho : ¬ Touches o)
    (h : Here c i t branch entries s)
    (hledger : ∀ w a key, (step out o w a).2.1.store.read b key = w.store.read b key)
    (hinputs : ∀ w a, (step out o w a).2.1.store.inputs = w.store.inputs)
    (hread : ∀ w a, (step out o w a).2.1.transcript.read c = w.transcript.read c)
    (hmemory : ∀ w, (step out o w { t with branch }).2.2 = { t' with branch := branch' })
    (hQ : ∀ w s', P w.store → Here c i t' branch' entries s' →
      Q (step out o w { t with branch }).1 s') :
    Safe out c b i P (perform o) Q s := by
  refine (Prog.safe_op _ _ _).mpr (fun s₁ hr r s₂ he => ?_)
  have hm := h.apart hr.apart
  obtain ⟨hp, he⟩ := he
  obtain ⟨hevents, hworld, hreply⟩ := exec_events he
  have hattempts := exec_attempts he
  simp only [id, hm.memory] at hworld hreply hattempts
  have hgentle : Gentle b i s₁ s₂ := by
    refine ⟨⟨o, r, hevents, ho⟩, fun key => by rw [hworld, hledger], ?_⟩
    intro history hidle row hrow
    refine hidle row ?_
    rw [hworld] at hrow
    unfold MemorySteps.listInputs at hrow ⊢
    rwa [hinputs] at hrow
  refine ⟨hgentle, ?_⟩
  rw [hreply]
  refine hQ s₁.world s₂ hp ⟨?_, ?_, ?_, trivial⟩
  · rw [hattempts, Function.update_self, hmemory]
  · rw [hworld, hread, hm.read]
  · exact hm.orderly.later (by rw [hworld, hread])
      (by rw [hworld, step_instant]; exact Nat.le_succ _)

theorem set_safe {Q : Except Exn Unit → Scene → Prop} {f : Attempt → Attempt}
    (h : Here c i t branch entries s) (hf : f { t with branch } = { t' with branch := branch' })
    (hQ : ∀ s', Here c i t' branch' entries s' → Q (.ok ()) s') :
    Safe out c b i P (update f) Q s :=
  op_safe id h (fun _ _ _ => rfl) (fun _ _ => rfl) (fun _ _ => rfl) (fun _ => hf)
    (fun _ s' _ hs' => hQ s' hs')

theorem get_safe {Q : Except Exn Attempt → Scene → Prop} (h : Here c i t branch entries s)
    (hQ : ∀ s', Here c i t branch entries s' → Q (.ok { t with branch }) s') :
    Safe out c b i P attempt Q s :=
  op_safe id h (fun _ _ _ => rfl) (fun _ _ => rfl) (fun _ _ => rfl) (fun _ => rfl)
    (fun _ s' _ hs' => hQ s' hs')

/-- The committed history says what this one says. -/
def Said (c : String) (history : List ModelMessage) (s : Scene) : Prop :=
  gists (committed c s) = gists history

theorem said {history : List ModelMessage} (h : Here c i t branch entries s)
    (hlinked : Linked branch entries) (hsaid : gists branch.messages = gists history) :
    Said c history s := by
  have hcommitted := h.orderly.committed
  unfold spelled at hcommitted
  rw [h.read, ← hlinked.bodies] at hcommitted
  unfold Said
  rw [← numeral_bodies, hcommitted, numeral_bodies, hsaid]

theorem safe_next {α β : Type} {p : Program α} {f : α → Program β}
    {Q : Except Exn β → Scene → Prop} {Q' : Except Exn α → Scene → Prop}
    (h : Safe out c b i P p Q' s)
    (hok : ∀ a s', Q' (.ok a) s' → Safe out c b i P (f a) Q s')
    (herror : ∀ error s', Q' (.error error) s' → Q (.error error) s') :
    Safe out c b i P (p.bind f) Q s := by
  refine (Prog.safe_bind _ _ _ _).mpr (Prog.safe_post h (fun r s' hr => ?_))
  cases r with
  | ok a => exact hok a s' hr
  | error error => exact herror error s' hr

/-! The rows of an idle queue are passed over. -/

theorem claim_safe {eff : Effects} {history : List ModelMessage} {v : View}
    {Q : Except Exn (List PendingInput) → Scene → Prop}
    (hidle : ∀ st, P st → Idle (v.filed eff.branchId) history st)
    (h : Here c i t branch entries s)
    (hQ : ∀ s', Here c i t branch entries s' → Q (.ok []) s') :
    Safe out c b i P (InputSession.claim v eff.branchId eff.token (representedInputs history)) Q
      s := by
  have hrows : ∀ (rows : List (InputRecord Value)) s, (∀ row ∈ rows, row.status = .discarded ∨
      row.status = .admitted ∨ row.inputId ∈ representedInputs history) →
      Here c i t branch entries s → Safe out c b i P (InputSession.claimRows v eff.branchId
        eff.token (representedInputs history) rows) Q s := by
    intro rows
    induction rows with
    | nil => exact fun s _ h => hQ s h
    | cons row rows ih =>
      intro s hskip h
      refine (Prog.safe_bind _ _ _ _).mpr (get_safe h (fun s₁ h₁ => ?_))
      have hskipped : InputSession.skipped (representedInputs history)
          ({ t with branch } : Attempt).seen row = true := by
        unfold InputSession.skipped
        rcases hskip row List.mem_cons_self with h | h | h <;> simp [h]
      simp only [hskipped, if_true]
      exact ih s₁ (fun row hrow => hskip row (List.mem_cons_of_mem _ hrow)) h₁
  refine (Prog.safe_bind _ _ _ _).mpr (op_safe id h (fun _ _ _ => rfl) (fun _ _ => rfl)
    (fun _ _ => rfl) (fun _ => rfl) (fun w s₁ hp h₁ => ?_))
  exact hrows _ s₁ (hidle w.store hp) h₁

/-! The run of an agent over a history that ends with the model's last word. -/

theorem keep_safe {Q : Except Exn Unit → Scene → Prop} {f : Attempt → Attempt}
    (h : Here c i t branch entries s)
    (hf : ∀ (a : Attempt) branch, f { a with branch } = { f a with branch })
    (hQ : ∀ s', Here c i (f t) branch entries s' → Q (.ok ()) s') :
    Safe out c b i P (update f) Q s :=
  set_safe h (hf t branch) hQ

/-- Where a run stands that has taken such a history up and leaves it as it is. -/
structure Reads (c : String) (i : Nat) (history : List ModelMessage) (s : Scene) : Prop where
  said : Said c history s
  memory : ∃ t branch entries, Here c i t branch entries s ∧ Linked branch entries ∧
    gists branch.messages = gists history ∧ t.messages = history ∧ t.usage = (0, 0)

/-- Where it stands behind the finish: the last word is recorded again. -/
def Finished (c : String) (i : Nat) (history : List ModelMessage) (s : Scene) : Prop :=
  ∃ t branch entries, Here c i t branch entries s ∧ Linked branch entries ∧
    t.messages = history ∧ t.usage = (0, 0)

section
variable {eff : Effects} {history : List ModelMessage} {response : ModelResponse} {v : View}
variable {agent : Agent}

theorem decideFinish_safe (hinputs : eff.inputs = some v)
    (hidle : ∀ st, P st → Idle (v.filed eff.branchId) history st)
    (hfinishes : ∀ plane, eff.controls = some plane → ∀ n here, ∃ reason,
      out.ask n plane (.beforeFinish here .completed) = .ok (.halt reason))
    {output : Output} (hdeferred : output.isDeferred = false) (h : Finished c i history s) :
    Safe out c b i P (eff.decideFinish (.finish output))
      (fun r s' => r = .ok (.finish output) ∧ Finished c i history s') s := by
  obtain ⟨t, branch, entries, h, hlinked, hmessages, husage⟩ := h
  simp only [Effects.decideFinish, hdeferred, Bool.false_eq_true, if_false]
  have hlate : Safe out c b i P eff.lateInputs
      (fun r s' => r = .ok [] ∧ Here c i t branch entries s') s := by
    refine (Prog.safe_bind _ _ _ _).mpr (get_safe h (fun s₁ h₁ => ?_))
    simp only [hinputs]
    rw [show ({ t with branch } : Attempt).messages = history from hmessages]
    exact claim_safe hidle h₁ (fun s₂ h₂ => ⟨rfl, h₂⟩)
  refine safe_next hlate ?_ ?_
  · rintro late s₁ ⟨hnone, h₁⟩
    cases hnone
    simp only [ne_eq, not_true_eq_false, if_false]
    split
    · refine (Prog.safe_bind _ _ _ _).mpr (keep_safe h₁ (fun _ _ => rfl) (fun s₂ h₂ => ?_))
      exact ⟨rfl, _, branch, entries, h₂, hlinked, hmessages, husage⟩
    · rename_i plane hplane
      refine (Prog.safe_bind _ _ _ _).mpr ((Prog.safe_bind _ _ _ _).mpr
        (get_safe h₁ (fun s₂ h₂ => ?_)))
      let here : Ctx :=
        { turn := t.runStep, messages := t.messages ++ [], callsMade := t.callsMade
          text := lastText (t.messages ++ []), subject := eff.subject }
      refine (Prog.safe_bind _ _ _ _).mpr (op_safe (o := .ask plane (.beforeFinish here .completed))
        id h₂ (fun _ _ _ => rfl) (fun _ _ => rfl) (fun _ _ => rfl) (fun _ => rfl)
        (fun w s₃ _ h₃ => ?_))
      obtain ⟨reason, hreason⟩ := hfinishes plane hplane w.instant here
      simp only [step, hreason]
      refine (Prog.safe_bind _ _ _ _).mpr (keep_safe h₃ (fun _ _ => rfl) (fun s₄ h₄ => ?_))
      exact ⟨rfl, _, branch, entries, h₄, hlinked, hmessages, husage⟩
  · rintro error s₁ ⟨hnone, -⟩
    cases hnone

/-- The last response is gone through again: no call runs, and it is recorded once more. -/
theorem callTools_safe (concludes : Concludes agent.toPydanticAI) (hstore : eff.store = some v)
    (hinputs : eff.inputs = some v) (hrecord : eff.record = some ⟨c⟩)
    (hidle : ∀ st, P st → Idle (v.filed eff.branchId) history st)
    (hfinishes : ∀ plane, eff.controls = some plane → ∀ n here, ∃ reason,
      out.ask n plane (.beforeFinish here .completed) = .ok (.halt reason))
    (hcalls : response.calls = []) (h : Reads c i history s) :
    Safe out c b i P (eff.wrapNodeRun (.callTools response [])
        (agent.runNode eff none []))
      (fun r s' => (∃ output, r = .ok (.finish output) ∧ output.isDeferred = false) ∧
        Finished c i history s') s := by
  obtain ⟨-, t, branch, entries, h, hlinked, hsaid, hmessages, husage⟩ := h
  obtain ⟨output, hdeferred, hsettle⟩ := concludes.settle history response hcalls
  refine (Prog.safe_bind _ _ _ _).mpr (keep_safe h (fun _ _ => rfl) (fun s₁ h₁ => ?_))
  refine (Prog.safe_bind _ _ _ _).mpr (keep_safe h₁ (fun _ _ => rfl) (fun s₂ h₂ => ?_))
  -- No pending round is recorded for a response without calls.
  refine (Prog.safe_bind _ _ _ _).mpr ((Prog.safe_bind _ _ _ _).mpr
    (get_safe h₂ (fun s₃ h₃ => ?_)))
  simp only [hstore, hcalls, if_true]
  refine (Prog.safe_bind _ _ _ _).mpr ((Prog.safe_bind _ _ _ _).mpr
    (get_safe h₃ (fun s₄ h₄ => ?_)))
  simp only [hmessages, concludes.round history response hcalls, List.map_nil, concludes.gather]
  simp only [Prog.bind_eq, Prog.ret_bind, hsettle]
  refine (Prog.safe_bind _ _ _ _).mpr (keep_safe h₄ (fun _ _ => rfl) (fun s₅ h₅ => ?_))
  have hturn : eff.recordTurn response (.finish output) = Branch.append c [.response response] := by
    cases output with
    | deferred requests => cases hdeferred
    | text | value =>
      unfold Effects.recordTurn Effects.recordMessage
      rw [hrecord]
  simp only [Prog.pure_eq, Prog.safe_ret, hturn]
  refine (Prog.safe_bind _ _ _ _).mpr (append_safe (follows _) h₅ hlinked (fun _ => trivial)
    (fun branch₆ entries₆ s₆ h₆ hlinked₆ _ => ?_))
  refine Prog.safe_post (decideFinish_safe hinputs hidle hfinishes hdeferred
    ⟨_, branch₆, entries₆, h₆, hlinked₆, ?_, husage⟩)
    (fun r s' hr => ⟨⟨output, hr.1, hdeferred⟩, hr.2⟩)
  show t.messages ++ [] = history
  rw [List.append_nil, hmessages]

theorem run_safe (concludes : Concludes agent.toPydanticAI) (hstore : eff.store = some v)
    (hinputs : eff.inputs = some v) (hrecord : eff.record = some ⟨c⟩)
    (hidle : ∀ st, P st → Idle (v.filed eff.branchId) history st)
    (hfinishes : ∀ plane, eff.controls = some plane → ∀ n here, ∃ reason,
      out.ask n plane (.beforeFinish here .completed) = .ok (.halt reason))
    (hlast : history.getLast? = some (.response response)) (hcalls : response.calls = [])
    (h : Here c i t branch entries s) (hlinked : Linked branch entries)
    (hsaid : gists branch.messages = gists history) (husage : t.usage = (0, 0)) :
    Safe out c b i P (agent.run eff none history [])
      (fun r s' => match r with
        | .ok output => output.isDeferred = false ∧ Finished c i history s'
        | .error _ => Said c history s') s := by
  refine (Prog.safe_bind _ _ _ _).mpr (keep_safe h (fun _ _ => rfl) (fun s₁ h₁ => ?_))
  have hiterate : Safe out c b i P (agent.iterate eff none [] agent.nodeLimit .userPrompt)
      (fun r s' => match r with
        | .ok output => output.isDeferred = false ∧ Finished c i history s'
        | .error _ => Said c history s') s₁ := by
    cases agent.nodeLimit with
    | zero => exact said h₁ hlinked hsaid
    | succ fuel =>
      refine (Prog.safe_bind _ _ _ _).mpr ((Prog.safe_bind _ _ _ _).mpr
        (keep_safe h₁ (fun _ _ => rfl) (fun s₂ h₂ => ?_)))
      refine (Prog.safe_bind _ _ _ _).mpr (get_safe h₂ (fun s₃ h₃ => ?_))
      simp only [concludes.enter history response hlast hcalls]
      refine (Prog.safe_bind _ _ _ _).mpr (keep_safe h₃ (fun _ _ => rfl) (fun s₄ h₄ => ?_))
      refine (Prog.safe_bind _ _ _ _).mpr (keep_safe h₄ (fun _ _ => rfl) (fun s₅ h₅ => ?_))
      refine (Prog.safe_bind _ _ _ _).mpr (set_safe h₅ rfl (fun s₆ h₆ => ?_))
      cases fuel with
      | zero => exact said h₆ hlinked hsaid
      | succ fuel =>
        have hreads : Reads c i history s₆ :=
          ⟨said h₆ hlinked hsaid, _, branch, entries, h₆, hlinked, hsaid, rfl, husage⟩
        refine safe_next (callTools_safe concludes hstore hinputs hrecord hidle hfinishes hcalls
          hreads) ?_ ?_
        · rintro result s₇ ⟨⟨output, hresult, hdeferred⟩, hfinished⟩
          cases hresult
          exact ⟨hdeferred, hfinished⟩
        · rintro error s₇ ⟨⟨output, hresult, -⟩, -⟩
          cases hresult
  refine safe_next hiterate ?_ (fun error s' hr => hr)
  rintro output s₂ ⟨hdeferred, t₂, branch₂, entries₂, h₂, hlinked₂, hmessages₂, husage₂⟩
  refine (Prog.safe_bind _ _ _ _).mpr (keep_safe h₂ (fun _ _ => rfl) (fun s₃ h₃ => ?_))
  exact ⟨hdeferred, _, branch₂, entries₂, h₃, hlinked₂, hmessages₂, husage₂⟩

end

/-! The whole attempt, and what the lease holder does. -/

section
variable {rt : AgentRuntime} {e : Execution} {agent : Agent} {controls : Option String}
variable {rulesVersion : String} {history : List ModelMessage} {response : ModelResponse}

theorem close_safe {output : Output} (husage : t.usage = (0, 0))
    (h : Here e.conversation i t branch entries s) (hsaid : Said e.conversation history s) :
    Safe out e.conversation b i P (rt.close e output)
      (fun _ s' => Said e.conversation history s') s := by
  have hkept : ∀ {s'}, Here e.conversation i t branch entries s' →
      Said e.conversation history s' := by
    intro s' h'
    unfold Said committed
    rw [h'.read, ← h.read]
    exact hsaid
  have hnone : AgentRuntime.usageOf { t with branch } = [] := by
    simp [AgentRuntime.usageOf, husage]
  refine (Prog.safe_bind _ _ _ _).mpr (get_safe h (fun s₁ h₁ => ?_))
  refine (Prog.safe_bind _ _ _ _).mpr ?_
  unfold AgentRuntime.closeRecord
  split
  · refine (Prog.safe_bind _ _ _ _).mpr (op_safe (o := .now) id h₁ (fun _ _ _ => rfl)
      (fun _ _ => rfl) (fun _ _ => rfl) (fun _ => rfl) (fun w s₂ _ h₂ => ?_))
    refine (Prog.safe_bind _ _ _ _).mpr (op_safe (o := .recordBranch _ _) id h₂ (fun _ _ _ => rfl)
      (fun _ _ => rfl) (fun _ _ => rfl) (fun _ => rfl) (fun w s₃ _ h₃ => ?_))
    simp only [step, hnone, List.forM_eq_forM, List.forM_nil]
    exact hkept h₃
  · exact hkept h₁

theorem attemptRun_safe (hstore : rt.executionStore = true) (htranscript : rt.transcript = true)
    (concludes : Concludes agent.toPydanticAI) {token : Nat}
    (hidle : ∀ st, P st → Idle (View.filed ⟨e.conversationId⟩ e.branchId) history st)
    (hfinishes : ∀ plane, (controls <|> agent.own) = some plane → ∀ n here, ∃ reason,
      out.ask n plane (.beforeFinish here .completed) = .ok (.halt reason))
    (hlast : history.getLast? = some (.response response)) (hcalls : response.calls = [])
    (h : Here e.conversation i t branch entries s) :
    Safe out e.conversation b i P (rt.attemptRun e token agent none
        { controls, rulesVersion, messageHistory := some history })
      (fun _ s' => Said e.conversation history s') s := by
  refine (Prog.safe_bind _ _ _ _).mpr
    (set_safe h rfl (fun s₁ (h₁ : Here e.conversation i {} {} entries s₁) => ?_))
  have hopen : Safe out e.conversation b i P (rt.openBranch e (some history))
      (fun r s' => r = .ok history ∧ ∃ branch entries, Here e.conversation i {} branch entries s' ∧
        Linked branch entries ∧ gists branch.messages = gists history) s₁ := by
    unfold AgentRuntime.openBranch
    rw [if_pos htranscript]
    refine (Prog.safe_bind _ _ _ _).mpr (opening_safe (follows _) h₁
      (fun branch₂ s₂ h₂ hlinked₂ _ => ?_))
    refine (Prog.safe_bind _ _ _ _).mpr (replace_safe (follows _) h₂ hlinked₂ (fun _ => trivial)
      (fun branch₃ entries₃ s₃ h₃ hlinked₃ hsaid => ?_))
    exact ⟨rfl, branch₃, entries₃, h₃, hlinked₃, hsaid⟩
  refine safe_next hopen ?_ ?_
  · rintro _ s₂ ⟨hhistory, branch₂, entries₂, h₂, hlinked₂, hsaid₂⟩
    cases hhistory
    have hwritten : rt.storeFor e = some ⟨e.conversationId⟩ := if_pos hstore
    have hrun : Safe out e.conversation b i P (agent.run (rt.effectsOf e token agent
        { controls, rulesVersion, messageHistory := some history }) none history [])
        (fun r s' => match r with
          | .ok output => output.isDeferred = false ∧ Finished e.conversation i history s'
          | .error _ => Said e.conversation history s') s₂ :=
      run_safe concludes hwritten hwritten (if_pos htranscript) hidle hfinishes hlast hcalls h₂
        hlinked₂ hsaid₂ rfl
    have hgiven : rt.admitPrompt e token none none = .ret none := rfl
    simp only [hgiven, Prog.bind_eq, Prog.ret_bind, Option.map_none]
    refine safe_next hrun ?_ (fun _ _ hr => hr)
    · rintro output s₃ ⟨hdeferred, t₃, branch₃, entries₃, h₃, hlinked₃, hmessages, husage⟩
      have hreplace : Safe out e.conversation b i P (rt.replaceFinal e)
          (fun r s' => r = .ok () ∧ ∃ branch entries, Here e.conversation i t₃ branch entries s' ∧
            Said e.conversation history s') s₃ := by
        unfold AgentRuntime.replaceFinal
        rw [if_pos htranscript]
        refine (Prog.safe_bind _ _ _ _).mpr (get_safe h₃ (fun s₄ h₄ => ?_))
        refine replace_safe (follows _) h₄ hlinked₃ (fun _ => trivial)
          (fun branch₅ entries₅ s₅ h₅ hlinked₅ hsaid => ?_)
        refine ⟨rfl, branch₅, entries₅, h₅, said h₅ hlinked₅ ?_⟩
        rw [hsaid, ← hmessages]
      refine safe_next hreplace ?_ ?_
      · rintro _ s₄ ⟨-, branch₄, entries₄, h₄, hsaid₄⟩
        cases output with
        | deferred requests => cases hdeferred
        | text | value => exact close_safe husage h₄ hsaid₄
      · rintro error s₄ ⟨hnone, -⟩
        cases hnone
  · rintro error s₂ ⟨hnone, -⟩
    cases hnone

/-- The ledger is, for this branch, as it was in another state. -/
def Kept (b : String) (start st : MemorySteps Value) : Prop :=
  (∀ key, st.read b key = start.read b key) ∧ ∀ history, Idle b history start → Idle b history st

theorem here_start (h : Orderly c s.world) :
    Here c i (s.attempts i) (s.attempts i).branch (s.world.transcript.read c) s :=
  ⟨rfl, rfl, h, trivial⟩

theorem recoverLeased_safe (hstore : rt.executionStore = true) (htranscript : rt.transcript = true)
    (concludes : Concludes agent.toPydanticAI) {token : Nat}
    (horderly : Orderly e.conversation s.world)
    (hfinished : AgentRuntime.liveSuspension (s.world.store.read
      (View.filed ⟨e.conversationId⟩ e.branchId) Effects.activeSuspension) = none)
    (hwhen : TurnedAway e history s ∨ Current e agent controls out history s) :
    Safe out e.conversation (View.filed ⟨e.conversationId⟩ e.branchId) i
      (Kept (View.filed ⟨e.conversationId⟩ e.branchId) s.world.store)
      (rt.recoverLeased e token agent history controls rulesVersion)
      (fun _ s' => gists (committed e.conversation s') = gists (committed e.conversation s)) s := by
  have hactive : rt.active e = (perform (.ledger (.read
      (View.filed ⟨e.conversationId⟩ e.branchId) Effects.activeSuspension))).bind
      (fun record => .ret (AgentRuntime.liveSuspension record)) := by
    unfold AgentRuntime.active AgentRuntime.requireStore AgentRuntime.storeFor
    rw [if_pos hstore]
    rfl
  unfold AgentRuntime.recoverLeased AgentRuntime.storeFor
  rw [if_pos hstore]
  simp only [hactive]
  refine (Prog.safe_bind _ _ _ _).mpr ((Prog.safe_bind _ _ _ _).mpr
    (op_safe (o := .ledger (.read _ _)) id (here_start horderly) (fun _ _ _ => rfl)
      (fun _ _ => rfl) (fun _ _ => rfl) (fun _ => rfl) (fun w s₁ hp h₁ => ?_)))
  simp only [step, Call.exec, Except.mapError, Prog.safe_ret, hp.1, hfinished]
  refine (Prog.safe_bind _ _ _ _).mpr (op_safe (o := .ledger (.read _ _)) id h₁ (fun _ _ _ => rfl)
    (fun _ _ => rfl) (fun _ _ => rfl) (fun _ => rfl) (fun w' s₂ hp' h₂ => ?_))
  simp only [step, Call.exec, Except.mapError, hp'.1]
  split
  · rename_i hmatches
    rcases hwhen with haway | hcurrent
    · rw [haway] at hmatches
      cases hmatches
    · obtain ⟨response, hlast, hcalls⟩ := hcurrent.concluded
      refine Prog.safe_post (attemptRun_safe hstore htranscript concludes
        (fun st hst => hst.2 history hcurrent.idle) hcurrent.finishes hlast hcalls h₂)
        (fun r s' hr => ?_)
      exact hr.trans ((forall₂_same _ _).mp hcurrent.read).symm
  · show gists (committed e.conversation s₂) = _
    unfold committed
    rw [h₂.read]

theorem released (st : MemorySteps Value) (b owner : String) (now : ℚ) :
    (st.release b owner now).read = st.read ∧ (st.release b owner now).inputs = st.inputs := by
  rcases MemorySteps.release_cases st b owner now with ⟨held, -, -, he⟩ | ⟨-, he⟩ <;> rw [he]
  · exact ⟨rfl, rfl⟩
  · exact ⟨rfl, rfl⟩

theorem holding_safe (hstore : rt.executionStore = true) (htranscript : rt.transcript = true)
    (concludes : Concludes agent.toPydanticAI) {owner : String} {token : Nat}
    {state : SuspensionState} (horderly : Orderly e.conversation s.world)
    (hfinished : AgentRuntime.liveSuspension (s.world.store.read
      (View.filed ⟨e.conversationId⟩ e.branchId) Effects.activeSuspension) = none)
    (hwhen : TurnedAway e history s ∨ Current e agent controls out history s) :
    Safe out e.conversation (View.filed ⟨e.conversationId⟩ e.branchId) i
      (Kept (View.filed ⟨e.conversationId⟩ e.branchId) s.world.store)
      (holding rt e agent controls rulesVersion owner token state history)
      (fun _ s' => gists (committed e.conversation s') = gists (committed e.conversation s)) s := by
  have hrelease : ∀ s', gists (committed e.conversation s') = gists (committed e.conversation s) →
      Safe out e.conversation (View.filed ⟨e.conversationId⟩ e.branchId) i
        (Kept (View.filed ⟨e.conversationId⟩ e.branchId) s.world.store)
        (perform (.ledger (.release (View.filed ⟨e.conversationId⟩ e.branchId) owner)))
        (fun _ s'' => gists (committed e.conversation s'') =
          gists (committed e.conversation s)) s' := by
    intro s' hsaid
    refine (Prog.safe_op _ _ _).mpr (fun s₁ hr r s₂ he => ?_)
    obtain ⟨hevents, hworld, -⟩ := exec_events he.2
    have hread : s₂.world.transcript = s₁.world.transcript := by rw [hworld]; rfl
    obtain ⟨hsteps, hinputs⟩ := released s₁.world.store
      (View.filed ⟨e.conversationId⟩ e.branchId) owner (out.clock s₁.world.instant)
    refine ⟨⟨⟨_, r, hevents, id⟩, fun key => ?_, fun history hidle row hrow => ?_⟩, ?_⟩
    · rw [hworld]
      exact congrFun (congrFun hsteps _) key
    · refine hidle row ?_
      rw [hworld] at hrow
      unfold MemorySteps.listInputs at hrow ⊢
      rw [← hinputs]
      exact hrow
    · unfold committed at hsaid ⊢
      rw [hread, hr.apart.read, hsaid]
  unfold holding
  refine (Prog.safe_tryCatch _ _ _ _).mpr ((Prog.safe_bind _ _ _ _).mpr
    ((Prog.safe_finally _ _ _ _).mpr (Prog.safe_post
      (recoverLeased_safe hstore htranscript concludes horderly hfinished hwhen) (fun r s₁ hr => Prog.safe_post (hrelease s₁ hr) ?_))))
  intro r' s₂ hsaid
  -- No row is left that a contended branch could be handed to.
  have hraised : ∀ error : Exn, Safe out e.conversation (View.filed ⟨e.conversationId⟩ e.branchId) i
      (Kept (View.filed ⟨e.conversationId⟩ e.branchId) s.world.store)
      (match error with
        | .store (.contended b) => Dispatch.offer rt e .recover (some state.text)
            [Dispatch.replayJournal rt e agent controls rulesVersion] (some (.store (.contended b)))
        | error => .raise error : Program Applied)
      (fun _ s' => gists (committed e.conversation s') = gists (committed e.conversation s))
        s₂ := by
    intro error
    split
    · cases state <;> exact hsaid
    · exact hsaid
  cases r' with
  | ok _ =>
    cases r with
    | ok outcome => exact hsaid
    | error error => exact hraised error
  | error error => exact hraised error

theorem still_refl (s : Scene) : Still c b i s s :=
  ⟨Apart.refl c i s, rfl, fun _ => rfl, fun _ h => h⟩

theorem still_trans (s₁ s₂ s₃ : Scene) (h : Still c b i s₁ s₂) (h' : Still c b i s₂ s₃) :
    Still c b i s₁ s₃ :=
  ⟨h.apart.trans h'.apart, h'.mine.trans h.mine, fun key => (h'.ledger key).trans (h.ledger key),
    fun history hidle => h'.idle history (h.idle history hidle)⟩

/-- Worker `i` recovers a park, and by the time it is granted the lease a finalization by another
has completed: the continuation is not live any more. Then `i` goes on to its end alone. -/
structure Raced (out : Outside) (rt : AgentRuntime) (e : Execution) (agent : Agent)
    (controls : Option String) (rulesVersion : String) (i : Nat) (before : Scene → Scene → Prop)
    (pool pool' : Nat → Program Applied) (start : Scene) (history : List ModelMessage)
    (s u : Scene) : Prop where
  recovers : pool i = rt.dispatch e agent .recover controls rulesVersion
  run : Interleaved (fun j => exec out id j) before pool start pool' s
  granted : ∃ owner token state,
    pool' i = holding rt e agent controls rulesVersion owner token state history
  orderly : Orderly e.conversation s.world
  finished : AgentRuntime.liveSuspension (s.world.store.read
    (View.filed ⟨e.conversationId⟩ e.branchId) Effects.activeSuspension) = none
  ended : ∀ j, j ≠ i → ∀ o k, pool' j ≠ .call o k
  rest : ∃ pool'' r, Interleaved (fun j => exec out id j)
    (Still e.conversation (View.filed ⟨e.conversationId⟩ e.branchId) i) pool' s pool'' u ∧
    pool'' i = .ofExcept r

/-- Recovering a park that someone else finished is harmless if the history read before the lease
is still what is committed, ends with the model's last word and nothing new reaches the attempt; or
if it is turned away. -/
theorem recover_harmless {before : Scene → Scene → Prop} {pool pool' : Nat → Program Applied}
    {start u : Scene} (hstore : rt.executionStore = true) (htranscript : rt.transcript = true)
    (concludes : Concludes agent.toPydanticAI)
    (raced : Raced out rt e agent controls rulesVersion i before pool pool' start history s u)
    (hwhen : TurnedAway e history s ∨ Current e agent controls out history s) :
    Harmless e.conversation i s u := by
  obtain ⟨-, -, ⟨owner, token, state, granted⟩, orderly, finished, ended, pool'', r, rest, done⟩ :=
    raced
  obtain ⟨hrun, -⟩ := rest.alone ended
  rw [granted, done] at hrun
  let b := View.filed ⟨e.conversationId⟩ e.branchId
  have hkept : ∀ x y : Scene, (∀ key, y.world.store.read b key = x.world.store.read b key) →
      (∀ history, Idle b history x.world.store → Idle b history y.world.store) →
      Kept b s.world.store x.world.store → Kept b s.world.store y.world.store :=
    fun x y hledger hidle hk => ⟨fun key => (hledger key).trans (hk.1 key),
      fun history h => hidle history (hk.2 history h)⟩
  have hsafe : Prog.safe (exec out id i) (Still e.conversation b i) (Gentle b i)
      (holding rt e agent controls rulesVersion owner token state history)
      (fun _ s' => gists (committed e.conversation s') = gists (committed e.conversation s)) s :=
    Prog.safe_assume (P := fun x : Scene => Kept b s.world.store x.world.store)
      (fun x y hr => hkept x y hr.ledger hr.idle) (fun x y hg => hkept x y hg.ledger hg.idle)
      ⟨fun _ => rfl, fun _ h => h⟩
      (holding_safe hstore htranscript concludes orderly finished hwhen)
  have hended := Prog.safe_runs (I := fun x : Scene => ∀ event ∈ log i x.events,
    event ∈ log i s.events ∨ ¬ Touches event.op) still_refl still_trans ?_ ?_ ?_ hsafe
    (fun _ h => .inl h) hrun
  · obtain ⟨hsaid, huntouched⟩ := hended
    exact ⟨(forall₂_same _ _).mpr ((Prog.safe_ofExcept _ _ _).mp hsaid).symm, huntouched⟩
  · intro r x y hsaid hr
    unfold committed at hsaid ⊢
    rw [hr.apart.read, hsaid]
  · intro x y hr hx
    rw [hr.mine]
    exact hx
  · intro x y hg hx event hevent
    obtain ⟨⟨o, r, hevents, ho⟩, -, -⟩ := hg
    rw [log_mine hevents] at hevent
    rcases List.mem_append.mp hevent with h | h
    · exact hx event h
    · rw [List.mem_singleton.mp h]
      exact .inr ho

/-- The claim that recovering a park which an answer finished is always harmless. -/
def AlwaysHarmless : Prop :=
  ∀ (out : Outside) (rt : AgentRuntime) (e : Execution) (agent : Agent) (controls : Option String)
    (rulesVersion : String) (i j : Nat) (pool pool' : Nat → Program Applied) (start : Scene)
    (active : Suspension) (history : List ModelMessage) (s u : Scene) (pendingId : String)
    (payload : Answer) (outcome : Outcome),
    rt.executionStore = true → rt.transcript = true → Concludes agent.toPydanticAI → j ≠ i →
    AgentRuntime.liveSuspension (start.world.store.read
      (View.filed ⟨e.conversationId⟩ e.branchId) Effects.activeSuspension) = some active →
    pool j = rt.dispatch e agent (.answer pendingId payload) controls rulesVersion →
    pool' j = .ret (.outcome outcome) →
    Raced out rt e agent controls rulesVersion i (fun _ _ => False) pool pool' start history s u →
    Harmless e.conversation i s u

end

end

/-! A refused call whose round is committed while the recovering worker waits for the lease. -/

/-- The digests of a conversation's first request and of its second. -/
def numbered : Json → String
  | .dict items =>
    match fetch "messages" items with
    | some (.list messages) => if messages.length = 1 then "first" else "second"
    | _ => ""
  | _ => ""

/-- An agent whose one tool asks for approval. -/
def sender : Agent := { PydanticAI.standard numbered ["send"] 8 with }

/-- A model that calls the tool once, a tool that sends, and a control plane nobody asks. -/
def sendsOnce : Outside :=
  .answering (fun _ _ _ => .ok (.str "sent"))
    (fun _ request => .ok { parts := if request.messages.length = 1 then
        [.toolCall ⟨"send", .null, "call"⟩] else [.text "done"] })
    (fun _ _ _ => .error (.other "not asked"))

theorem concludes_standard (digest : Json → String) (unapproved : List String) (nodeLimit : Nat) :
    Concludes (PydanticAI.standard digest unapproved nodeLimit) where
  enter := by
    intro history response hlast _
    obtain ⟨older, rfl⟩ := List.getLast?_eq_some_iff.mp hlast
    have hlatest : latestResponse (older ++ [.response response]) = some (response, []) := by
      clear hlast
      induction older with
      | nil => rfl
      | cons message older ih => simp only [List.cons_append, latestResponse, ih]
    simp [PydanticAI.standard, PydanticAI.Standard.enter, hlatest]
  round := by
    intro history response hcalls
    simp [PydanticAI.standard, PydanticAI.Standard.round, hcalls]
  gather := rfl
  settle := by
    intro history response _
    exact ⟨_, rfl, rfl⟩

/-- The call is parked. -/
def parked : Scene :=
  { ((({} : AgentRuntime).run ⟨"run", none, none⟩ sender (some "go") {}).eval
      (Scene.perform sendsOnce id 2) ⟨{}, fun _ => {}, []⟩).2 with events := [] }

/-- One worker recovers the run, and another brings the answer that refuses the call. -/
def racing : Nat → Program Applied
  | 0 => ({} : AgentRuntime).dispatch ⟨"run", none, none⟩ sender .recover none ""
  | 1 => ({} : AgentRuntime).dispatch ⟨"run", none, none⟩ sender
      (.answer "call" { type := some "error" }) none ""
  | _ => .raise .exit

/-- The turns up to the lease of the recovering worker, with what goes on before it reads the
history and behind it. -/
def turns (first second : List Nat) : List Nat := ((0 :: first) ++ ([0, 0] ++ second)) ++ [0]

/-- The turns of the answer. -/
def answer : List Nat := List.replicate 82 1

def race (turns : List Nat) : (Nat → Program Applied) × Scene :=
  scheduled (Scene.perform sendsOnce id) turns racing parked

def done : Program Applied → Option Outcome
  | .ret (.outcome outcome) => some outcome
  | _ => none

theorem returned {p : Program Applied} (h : (done p).isSome = true) :
    ∃ outcome, p = .ret (.outcome outcome) := by
  unfold done at h
  split at h
  · exact ⟨_, rfl⟩
  · cases h

def hasEnded : Program Applied → Bool
  | .call .. => false
  | _ => true

theorem ended {p : Program Applied} (h : hasEnded p = true) : ∃ r, p = .ofExcept r := by
  unfold hasEnded at h
  split at h
  · cases h
  · cases p with
    | ret applied => exact ⟨.ok applied, rfl⟩
    | raise error => exact ⟨.error error, rfl⟩
    | call o k => rename_i hcall; exact absurd rfl (hcall o k)

theorem race_ended {turns : List Nat} (h : ∀ j, 1 < j → j ∉ turns)
    (hdone : (done ((race turns).1 1)).isSome = true) :
    ∀ j, j ≠ 0 → ∀ o k, (race turns).1 j ≠ .call o k := by
  intro j hj o k hcall
  rcases Nat.lt_or_ge 1 j with hlarge | hsmall
  · have hstill : (race turns).1 j = racing j :=
      scheduled_other (fun k hk (heq : k = j) => h k (heq ▸ hlarge) hk) racing parked
    obtain ⟨n, rfl⟩ := Nat.exists_eq_add_of_lt hlarge
    rw [show 1 + n + 1 = n + 2 by omega] at hstill hcall
    cases hstill.symm.trans hcall
  · obtain ⟨outcome, hret⟩ := returned hdone
    obtain rfl : j = 1 := by omega
    cases hret.symm.trans hcall

theorem race_parked : ∃ active, AgentRuntime.liveSuspension (parked.world.store.read
    (View.filed ⟨none⟩ "run") Effects.activeSuspension) = some active := by
  rw [← Option.isSome_iff_exists]
  decide +kernel

theorem race_granted {first second : List Nat} (hfirst : ∀ j ∈ first, j ≠ 0)
    (hsecond : ∀ j ∈ second, j ≠ 0) (token : Nat)
    (htoken : (step sendsOnce (.ledger (.acquire (View.filed ⟨none⟩ "run")
      (sendsOnce.uuid4 ((race (0 :: first)).2.world.instant + 1)) ({} : AgentRuntime).leaseTtl))
      (race ((0 :: first) ++ ([0, 0] ++ second))).2.world
      ((race ((0 :: first) ++ ([0, 0] ++ second))).2.attempts 0)).1 = .ok token)
    (hgranted : token ≠ 0) : ∃ owner token state, (race (turns first second)).1 0 =
      holding {} ⟨"run", none, none⟩ sender none "" owner token state
        (messagesOf ((race (0 :: first)).2.world.transcript.read "run")) := by
  obtain ⟨active, hactive⟩ := race_parked
  exact ⟨_, _, _, recover_granted {} ⟨"run", none, none⟩ sender none "" rfl rfl
    (show racing 0 = _ from rfl) hactive first second hfirst hsecond rfl rfl htoken hgranted⟩

theorem race_turns {first second : List Nat} (hfirst : ∀ j ∈ first, j = 1)
    (hsecond : ∀ j ∈ second, j = 1) : ∀ j, 1 < j → j ∉ turns first second := by
  intro j hj hmem
  simp only [turns, List.mem_append, List.mem_cons, List.not_mem_nil, or_false] at hmem
  rcases hmem with ((h | h) | (h | h) | h) | h
  · omega
  · have := hfirst j h
    omega
  · omega
  · omega
  · have := hsecond j h
    omega
  · omega

theorem race_orderly {turns : List Nat}
    (h : hang [] ((race turns).2.world.transcript.read "run") = true)
    (hdated : ((race turns).2.world.transcript.read "run").all (fun e => match e.uuid with
      | .reset t | .rewound t _ => t < (race turns).2.world.instant
      | _ => e.type ≠ .leaf) = true) : Orderly "run" (race turns).2.world := by
  refine ⟨wellformed_of_hang .nil h, fun e he hleaf => ?_⟩
  have hentry := List.all_eq_true.mp hdated e he
  split at hentry
  · exact ⟨_, of_decide_eq_true hentry, .inl ‹_›⟩
  · exact ⟨_, of_decide_eq_true hentry, .inr ⟨_, ‹_›⟩⟩
  · exact absurd hleaf (of_decide_eq_true hentry)

/-- The recovering worker goes on from its lease to its end. -/
theorem race_rest {turns : List Nat} {n : Nat}
    (hover : hasEnded ((race (turns ++ List.replicate n 0)).1 0) = true) :
    ∃ pool r, Interleaved (fun j => exec sendsOnce id j) (Still "run" "run" 0) (race turns).1
      (race turns).2 pool (race (turns ++ List.replicate n 0)).2 ∧ pool 0 = .ofExcept r := by
  obtain ⟨r, hr⟩ := ended hover
  refine ⟨_, r, ?_, hr⟩
  unfold race
  rw [scheduled_append]
  exact interleaved_scheduled _ _ _ _ _

theorem not_always_harmless : ¬ AlwaysHarmless := by
  intro h
  obtain ⟨active, hactive⟩ := race_parked
  have hanswer : ∀ j ∈ answer, j = 1 := by simp [answer]
  have hdone : (done ((race (turns [] answer)).1 1)).isSome = true := by decide +kernel
  obtain ⟨outcome, hreturned⟩ := returned hdone
  obtain ⟨hhistory, -⟩ := h sendsOnce {} ⟨"run", none, none⟩ sender none "" 0 1 racing
    (race (turns [] answer)).1 parked active (messagesOf ((race [0]).2.world.transcript.read "run"))
    (race (turns [] answer)).2 (race (turns [] answer ++ List.replicate 40 0)).2 "call"
    { type := some "error" } outcome rfl rfl (concludes_standard _ _ _) (by decide) hactive rfl
    hreturned ⟨rfl, interleaved_scheduled _ _ _ _ _,
      race_granted (by simp) (by simp [answer]) 3 (by decide +kernel) (by decide),
      race_orderly (by decide +kernel) (by decide +kernel), by decide +kernel,
      race_ended (race_turns (by simp) hanswer) hdone, race_rest (by decide +kernel)⟩
  have hlength := hhistory.length_eq
  revert hlength
  decide +kernel

theorem concluded_of {history : List ModelMessage} (h : history.getLast?.any (fun
    | .response response => response.calls = []
    | _ => false) = true) :
    ∃ response, history.getLast? = some (.response response) ∧ response.calls = [] := by
  cases hlast : history.getLast? with
  | none =>
    rw [hlast] at h
    cases h
  | some message =>
    rw [hlast] at h
    cases message with
    | response response => exact ⟨response, rfl, of_decide_eq_true h⟩
    | request _ => cases h

theorem race_current : Current ⟨"run", none, none⟩ sender none sendsOnce
    (messagesOf ((race (0 :: answer)).2.world.transcript.read "run"))
    (race (turns answer [])).2 where
  read := (forall₂_same _ _).mpr (congrArg gists (by decide +kernel))
  concluded := concluded_of (by decide +kernel)
  idle := by
    have hempty : ((race (turns answer [])).2.world.store.listInputs
        (View.filed ⟨none⟩ "run")).isEmpty = true := by decide +kernel
    intro row hrow
    rw [List.isEmpty_iff.mp hempty] at hrow
    cases hrow
  finishes := fun plane hplane => nomatch hplane

theorem race_raced : Raced sendsOnce {} ⟨"run", none, none⟩ sender none "" 0 (fun _ _ => False)
    racing (race (turns answer [])).1 parked
    (messagesOf ((race (0 :: answer)).2.world.transcript.read "run")) (race (turns answer [])).2
    (race (turns answer [] ++ List.replicate 45 0)).2 where
  recovers := rfl
  run := interleaved_scheduled (Scene.perform sendsOnce id) _ _ racing parked
  granted := race_granted (by simp [answer]) (by simp) 3 (by decide +kernel) (by decide)
  orderly := race_orderly (by decide +kernel) (by decide +kernel)
  finished := by decide +kernel
  ended := race_ended (race_turns (by simp [answer]) (by simp)) (by decide +kernel)
  rest := race_rest (by decide +kernel)

theorem recover_harmless_early :
    Harmless "run" 0 (race (turns answer [])).2
      (race (turns answer [] ++ List.replicate 45 0)).2 :=
  recover_harmless rfl rfl (concludes_standard _ _ _) race_raced (.inr race_current)

end Semora.Proofs.Overtaken
