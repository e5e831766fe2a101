import Semora.Lib.Leave
import Semora.Proofs.Performs

/-! What an attempt does before it takes the record of a call in hand: it looks the call up in the
ledger, or, where the call is gated again, it asks the control plane. -/

namespace Semora.Proofs.Regate
open Semora.Lib Semora.Store Semora.Transcript

/-- The record of the call is in hand to be shown to the model: its projection is looked up. -/
def gives (b c : String) : Op → Bool
  | .ledger (.read b' k) => b' = b ∧ k = Effects.afterKey c
  | _ => false

abbrev Gives (b c : String) (o : Op) : Prop := gives b c o = true

/-- The ledger is asked what it holds of the call. -/
def Looks (b c : String) (o : Op) : Prop := o = .ledger (.read b (Effects.stepKey c))

/-- The control plane lets the call go on, at the gate or behind a park. -/
def lets (c : String) : (o : Op) → Except Exn o.Res → Bool
  | .ask _ (.preToolUse _ call), .ok .continue => call.toolCallId = c
  | .ask _ (.onResume _ call _), .ok .continue => call.toolCallId = c
  | _, _ => false

abbrev Lets (c : String) (o : Op) (r : Except Exn o.Res) : Prop := lets c o r = true

abbrev Ungiving (b c : String) {α : Type} (p : Program α) : Prop := p.AllOps (fun o => ¬ Gives b c o)

section
variable {b c : String}

theorem ungiving_op {o : Op} (h : ¬ Gives b c o) : Ungiving b c (perform o) := (Prog.allOps_op o).mpr h

/-- An operation on no step of the ledger. -/
theorem ungiving_mute {α : Type} {p : Program α} {eff : Effects} {quiet : Bool}
    (h : Within eff quiet .mute p) : Ungiving b c p := by
  apply h.mono
  intro o ho hgives
  cases ho with
  | read v h k hk =>
    rcases hk with ⟨hpast, -⟩ | ⟨hpast, -⟩
    · exact hpast rfl
    · cases hpast
  | _ => cases hgives

/-! The tool boundary. -/

variable (eff : Effects) (call : ToolCall)

theorem looks_ungiving (b' : String) :
    ¬ Gives b c (.ledger (.read b' (Effects.stepKey call.toolCallId))) := by
  intro h
  obtain ⟨-, hkey⟩ : b' = b ∧ Effects.stepKey call.toolCallId = Effects.afterKey c := by
    simpa [Gives, gives] using h
  exact Effects.effect_control (.inl ⟨_, rfl⟩) (.inl ⟨_, rfl⟩) hkey

theorem ungiving_ctx (messages : List ModelMessage) : Ungiving b c (eff.ctx messages) :=
  ungiving_mute (within_ctx messages : Within eff false .mute (eff.ctx messages))

theorem ungiving_before (approved : Bool) (args : Json) :
    Ungiving b c (eff.beforeToolExecute approved call args) := by
  apply Prog.allOps_bind
  · apply Prog.allOps_bind (ungiving_ctx eff _)
    intro here
    apply Prog.allOps_bind
    · unfold Effects.replayed
      split
      · trivial
      · apply Prog.allOps_bind
        · unfold Effects.readStep
          split
          · trivial
          · exact ungiving_op (looks_ungiving call _)
        · intro step
          trivial
    · intro replayed
      split
      · trivial
      · split
        · have hwithin : ∀ asked, Within eff false .mute (eff.resumeDecision here asked) :=
            within_resumeDecision here
          exact Prog.allOps_bind (ungiving_mute (hwithin _)) (fun _ => trivial)
        · have hwithin : Within eff false .mute (eff.gate here call) := within_gate here call
          exact Prog.allOps_bind (ungiving_mute hwithin) (fun _ => trivial)
  · intro verdict
    have hwithin : Within eff false .mute (Effects.enforce verdict.1 args verdict.2) :=
      within_enforce _ _ _
    exact ungiving_mute hwithin

/-- The journal that is read for a call is its own. -/
theorem ungiving_journalOnce (record : Record)
    (hother : ∀ v, eff.store = some v → v.filed eff.branchId = b → call.toolCallId ≠ c) :
    Ungiving b c (eff.journalOnce call record) := by
  apply Prog.allOps_bind
  · unfold Effects.readStep
    split
    · trivial
    · rename_i store hstore
      apply ungiving_op
      intro h
      obtain ⟨hb, hkey⟩ : store.filed eff.branchId = b ∧
          Effects.afterKey call.toolCallId = Effects.afterKey c := by simpa [Gives, gives] using h
      exact hother store hstore hb (by simpa [Effects.afterKey] using hkey)
  · intro journaled
    split
    · trivial
    · trivial
    · split
      · trivial
      · apply Prog.allOps_bind
        · apply Prog.allOps_bind (ungiving_ctx eff _)
          intro here
          cases record with
          | ok value => exact Prog.allOps_bind (ungiving_op (by simp [Gives, gives])) (fun _ => trivial)
          | failed error => exact Prog.allOps_bind (ungiving_op (by simp [Gives, gives])) (fun _ => trivial)
        · intro projected
          apply Prog.allOps_bind
          · unfold Effects.journal
            split
            · trivial
            · exact ungiving_op (by simp [Gives, gives])
          · intro _
            trivial

theorem ungiving_execute (key : Option String) (args : Json) :
    Ungiving b c (eff.execute key args (fun args => perform (.handle call args))) := by
  apply Prog.allOps_bind
  · apply Prog.allOps_tryCatch
    · exact Prog.allOps_bind (ungiving_op (by simp [Gives, gives])) (fun _ => trivial)
    · intro error
      unfold Effects.caught
      split
      · apply Prog.allOps_bind
        · unfold Effects.clearIntent
          split
          · exact ungiving_op (by simp [Gives, gives])
          · trivial
        · intro _
          trivial
      · split <;> trivial
  · intro record
    apply Prog.allOps_bind
    · unfold Effects.finishStep
      split
      · exact ungiving_op (by simp [Gives, gives])
      · trivial
    · intro _
      trivial

theorem ungiving_runStep (store : View) (key : String) (args : Json) :
    Ungiving b c (eff.runStep store key args (fun args => perform (.handle call args))) := by
  apply Prog.allOps_bind (ungiving_op (by simp [Gives, gives]))
  intro inserted
  split
  · exact ungiving_execute eff call _ args
  · trivial

theorem ungiving_runOrReplay (args : Json) :
    Ungiving b c (eff.runOrReplay call args (fun args => perform (.handle call args))) := by
  unfold Effects.runOrReplay
  split
  · exact ungiving_execute eff call none args
  · apply Prog.allOps_bind (ungiving_op (looks_ungiving call _))
    intro step
    split
    · rename_i value
      cases value <;> trivial
    · split
      · exact Prog.allOps_bind (ungiving_op (by simp [Gives, gives]))
          (fun _ => ungiving_runStep eff call _ _ args)
      · trivial
    · exact ungiving_runStep eff call _ _ args

theorem ungiving_wrap (args : Json)
    (hother : ∀ v, eff.store = some v → v.filed eff.branchId = b → call.toolCallId ≠ c) :
    Ungiving b c (eff.wrapToolExecute call args (fun args => perform (.handle call args))) := by
  apply Prog.allOps_bind (ungiving_runOrReplay eff call args)
  intro step
  apply Prog.allOps_bind (ungiving_journalOnce eff call step hother)
  intro record
  cases record <;> trivial

/-- The ledger is asked about a call before its record is in hand. -/
theorem looks_wrap (args : Json) : Prog.Awaits (fun o _ => Looks b c o) (Gives b c) (fun _ => True)
    (eff.wrapToolExecute call args (fun args => perform (.handle call args))) := by
  by_cases hmine : ∃ v, eff.store = some v ∧ v.filed eff.branchId = b ∧ call.toolCallId = c
  · obtain ⟨store, hstore, hb, hc⟩ := hmine
    apply Prog.awaits_bind (P := fun _ => False)
    · unfold Effects.runOrReplay
      rw [hstore]
      apply Prog.awaits_bind (P := fun _ => False)
      · apply Prog.awaits_op (looks_ungiving call _)
        intro _
        left
        rw [← hb, ← hc]
        rfl
      · exact fun _ h => h.elim
    · exact fun _ h => h.elim
  · apply Prog.awaits_needless
    apply ungiving_wrap
    intro v hv hb hc
    exact hmine ⟨v, hv, hb, hc⟩

/-- The gate lets nothing run that the policy stopped. -/
theorem gated_continue {a : Attempt} {decision : ToolDecision} (h : decision ≠ .continue) :
    Effects.gated a call decision ≠ .continue := by
  cases decision with
  | «continue» => exact absurd rfl h
  | deny result =>
    simp only [Effects.gated, reduceCtorEq, false_and, ↓reduceIte]
    split <;> nofun
  | suspend request => simp [Effects.gated]

/-- The verdict on a call that is gated again waits for the control plane. -/
theorem lets_verdict {plane : String} (args : Json) {approved : Bool} (hid : call.toolCallId = c)
    (hregate : c ∈ eff.regate) (hplane : eff.controls = some plane)
    (hresumed : approved = true → fetch c eff.resumed ≠ none) :
    Prog.Awaits (Lets c) (Gives b c) (fun verdict => verdict.2 ≠ .continue)
      (eff.verdict approved call args) := by
  unfold Effects.verdict
  apply Prog.awaits_bind (Prog.awaits_needless (ungiving_ctx eff _))
  intro here _
  simp only [Effects.replayed, hid, hregate, ↓reduceIte, Prog.pure_eq, Prog.bind_eq, Prog.ret_bind,
    Bool.false_eq_true]
  cases approved with
  | true =>
    obtain ⟨resumed, hfetch⟩ := Option.ne_none_iff_exists'.mp (hresumed rfl)
    have hwith : (Effects.withArgs call args).toolCallId = c := by
      rw [← hid]
      cases args <;> rfl
    simp only [↓reduceIte]
    apply Prog.awaits_bind (P := fun decision => decision ≠ .continue)
    · unfold Effects.resumeDecision
      rw [hwith, hfetch, hplane]
      apply Prog.awaits_op (by simp [Gives, gives])
      intro decision
      cases decision with
      | «continue» => exact .inl (decide_eq_true hwith)
      | deny result => exact .inr nofun
      | suspend request => exact .inr nofun
    · exact fun decision h => h
  | false =>
    simp only [Bool.false_eq_true, ↓reduceIte]
    apply Prog.awaits_bind (P := fun decision => decision ≠ .continue)
    · unfold Effects.gate Effects.policy
      rw [hplane]
      apply Prog.awaits_bind (P := fun decision => decision ≠ .continue)
      · apply Prog.awaits_op (by simp [Gives, gives])
        intro decision
        cases decision with
        | «continue» => exact .inl (decide_eq_true hid)
        | deny result => exact .inr nofun
        | suspend request => exact .inr nofun
      · intro decision hdecision
        apply Prog.awaits_bind (Prog.awaits_needless (ungiving_op (by simp [Gives, gives])))
        intro a _
        exact gated_continue call hdecision
    · exact fun decision h => h

theorem lets_before {plane : String} (args : Json) {approved : Bool} (hid : call.toolCallId = c)
    (hregate : c ∈ eff.regate) (hplane : eff.controls = some plane)
    (hresumed : approved = true → fetch c eff.resumed ≠ none) :
    Prog.Awaits (Lets c) (Gives b c) (fun _ => False) (eff.beforeToolExecute approved call args) := by
  apply Prog.awaits_bind (lets_verdict eff call args hid hregate hplane hresumed)
  intro verdict hverdict
  obtain ⟨asked, decision⟩ := verdict
  have hwithin : Within eff false .mute (Effects.enforce asked args decision) := within_enforce _ _ _
  apply (Prog.awaits_needless (ungiving_mute hwithin)).rets
  cases decision with
  | «continue» => exact absurd rfl hverdict
  | deny result => exact Prog.allRets_then _ (fun _ => trivial)
  | suspend request =>
    simp only [Effects.enforce]
    split
    · trivial
    · exact Prog.allRets_then _ (fun _ => Prog.allRets_then _ (fun _ => trivial))

variable {grants : (o : Op) → Except Exn o.Res → Prop}

theorem awaits_throughHooks {P : Json → Prop} {approved : Bool} (args : Json)
    (hbefore : Prog.Awaits grants (Gives b c) P (eff.beforeToolExecute approved call args))
    (hwrap : ∀ args, P args → Prog.Awaits grants (Gives b c) (fun _ => True)
      (eff.wrapToolExecute call args (fun args => perform (.handle call args)))) :
    Prog.Awaits grants (Gives b c) (fun _ => True)
      (PydanticAI.throughHooks eff approved call args) := by
  apply Prog.awaits_tryCatch
  · apply Prog.awaits_bind hbefore
    intro args hargs
    exact Prog.awaits_bind (hwrap args hargs) (fun _ _ => trivial)
  · intro error
    cases error <;> trivial

theorem awaits_executeCall (ai : PydanticAI) {approval : Option Approval}
    (hhooks : ∀ approved args, (approved = true → approval ≠ none) →
      Prog.Awaits grants (Gives b c) (fun _ => True)
        (PydanticAI.throughHooks eff approved call args)) :
    Prog.Awaits grants (Gives b c) (fun _ => True) (ai.executeCall eff call approval) := by
  unfold PydanticAI.executeCall
  split
  · trivial
  · split
    · trivial
    · exact hhooks true _ nofun
  · split
    · trivial
    · exact hhooks false _ nofun

/-- Any call: the ledger is asked about it before its record is given. -/
theorem looks_executeCall (ai : PydanticAI) (approval : Option Approval) :
    Prog.Awaits (fun o _ => Looks b c o) (Gives b c) (fun _ => True)
      (ai.executeCall eff call approval) := by
  apply awaits_executeCall
  intro approved args _
  apply awaits_throughHooks eff call args (Prog.awaits_needless (ungiving_before eff call _ _))
  exact fun args _ => looks_wrap eff call args

/-- A call that is gated again: the control plane lets it go on before its record is given. -/
theorem lets_executeCall (ai : PydanticAI) {approval : Option Approval} {plane : String}
    (hregate : c ∈ eff.regate) (hplane : eff.controls = some plane)
    (hresumed : approval ≠ none → fetch call.toolCallId eff.resumed ≠ none) :
    Prog.Awaits (Lets c) (Gives b c) (fun _ => True) (ai.executeCall eff call approval) := by
  apply awaits_executeCall
  intro approved args happroved
  by_cases hid : call.toolCallId = c
  · apply awaits_throughHooks eff call args (P := fun _ => False)
    · apply lets_before eff call args hid hregate hplane
      intro h
      rw [← hid]
      exact hresumed (happroved h)
    · exact fun _ h => h.elim
  · apply awaits_throughHooks eff call args (Prog.awaits_needless (ungiving_before eff call _ _))
    exact fun args _ => Prog.awaits_needless (ungiving_wrap eff call args (fun _ _ _ => hid))

end

/-! A whole attempt. -/

/-- Pydantic AI begins no operation of its own while it gathers the calls of a round, and waits for
a reply no longer than its calls do. -/
def Awaiting (ai : PydanticAI) : Prop :=
  ∀ (grants : (o : Op) → Except Exn o.Res → Prop) (needs : Op → Prop)
    (calls : List (Program (ToolCall × CallOutcome))),
    (∀ call ∈ calls, Prog.Awaits grants needs (fun _ => True) call) →
      Prog.Awaits grants needs (fun _ => True) (ai.gather calls)

theorem awaiting_standard (digest : Json → String) (unapproved : List String) (nodeLimit : Nat) :
    Awaiting (.standard digest unapproved nodeLimit) := by
  intro grants needs calls hcalls
  simp only [PydanticAI.standard]
  induction calls with
  | nil => trivial
  | cons call calls ih =>
    apply Prog.awaits_bind (hcalls call List.mem_cons_self)
    intro outcome _
    apply Prog.awaits_bind (ih (fun c hc => hcalls c (List.mem_cons_of_mem _ hc)))
    intro outcomes _
    trivial

/-- Whether the decisions a node carries are such as `D` admits. -/
def Carries (D : DeferredToolResults → Prop) : Node → Prop
  | .callTools _ results => D results
  | _ => True

def Leads (D : DeferredToolResults → Prop) : NodeResult → Prop
  | .node next => Carries D next
  | .finish _ => True

section
variable {b c : String} {grants : (o : Op) → Except Exn o.Res → Prop} (eff : Effects)

/-- The program waits for leave to take the record of the call. -/
abbrev Waits (grants : (o : Op) → Except Exn o.Res → Prop) (b c : String) {α : Type}
    (P : α → Prop) (p : Program α) : Prop := Prog.Awaits grants (Gives b c) P p

theorem waits_mute {α : Type} {p : Program α} {quiet : Bool} (h : Within eff quiet .mute p) :
    Waits grants b c (fun _ => True) p := Prog.awaits_needless (ungiving_mute h)

theorem waits_op {o : Op} (h : ¬ Gives b c o) : Waits grants b c (fun _ => True) (perform o) :=
  Prog.awaits_needless (ungiving_op h)

theorem waits_wrapModelRequest (digest : Json → String) (request : RequestContext) :
    Waits grants b c (fun _ => True)
      (eff.wrapModelRequest digest request (fun request => perform (.provide request))) := by
  have honce : ∀ store key, Ungiving b c
      (eff.requestOnce store key request (fun request => perform (.provide request))) := by
    intro store key
    apply Prog.allOps_bind (ungiving_op (by simp [Gives, gives]))
    intro inserted
    split
    · apply Prog.allOps_bind
      · apply Prog.allOps_tryCatch (ungiving_op (by simp [Gives, gives]))
        intro error
        unfold Effects.unasked
        split
        · trivial
        · exact Prog.allOps_bind (ungiving_op (by simp [Gives, gives])) (fun _ => trivial)
      · intro response
        exact Prog.allOps_bind (ungiving_op (by simp [Gives, gives])) (fun _ => trivial)
    · trivial
  apply Prog.awaits_needless
  unfold Effects.wrapModelRequest
  split
  · exact ungiving_op (by simp [Gives, gives])
  · rename_i store _
    apply Prog.allOps_bind
    · apply ungiving_op
      intro h
      obtain ⟨-, hkey⟩ : store.filed eff.branchId = b ∧
          Effects.modelStepKey digest request = Effects.afterKey c := by simpa [Gives, gives] using h
      exact Effects.effect_control (.inr ⟨_, rfl⟩) (.inl ⟨_, rfl⟩) hkey
    · intro step
      split
      · trivial
      · trivial
      · split
        · exact Prog.allOps_bind (ungiving_op (by simp [Gives, gives])) (fun _ => honce _ _)
        · trivial
      · exact honce _ _

variable {ai : PydanticAI} {D : DeferredToolResults → Prop}

theorem waits_admit (request : ModelRequest) {handler : Node → Program NodeResult}
    (hhandler : ∀ node, Carries D node → Waits grants b c (Leads D) (handler node)) :
    Waits grants b c (Leads D) (eff.admit_ request handler) := by
  have hdrain : Within eff false .mute eff.drain := within_drain
  have hsteered : ∀ pending, Within eff false .mute (eff.steered request pending) :=
    within_steered request
  have hrecord : ∀ message, Within eff false .mute (eff.recordMessage message) := within_recordMessage
  have hadmitted : ∀ inputs, Within eff false .mute (eff.admitInputs inputs) := within_admitInputs
  apply Prog.awaits_bind (waits_mute eff hdrain)
  intro pending _
  apply Prog.awaits_bind (waits_mute eff (hsteered pending))
  intro decision _
  split
  · rename_i reason
    have hhalt : Within eff false .mute (Effects.halt reason) := within_halt reason
    apply (waits_mute eff hhalt).rets
    exact Prog.allRets_then _ (fun _ => Prog.allRets_then _ (fun _ => trivial))
  · apply Prog.awaits_bind (waits_op (by simp [Gives, gives]))
    intro _ _
    apply Prog.awaits_bind (waits_mute eff (hrecord _))
    intro _ _
    apply Prog.awaits_bind (waits_mute eff (hadmitted _))
    intro _ _
    exact hhandler _ trivial

theorem waits_decideFinish {result : NodeResult} (hresult : Leads D result) :
    Waits grants b c (Leads D) (eff.decideFinish result) := by
  have hwithin : Within eff false .mute (eff.decideFinish result) := within_decideFinish result
  apply (waits_mute eff hwithin).rets
  cases result with
  | node next => exact hresult
  | finish output =>
    simp only [Effects.decideFinish]
    split
    · trivial
    · apply Prog.allRets_then
      intro late
      split
      · exact Prog.allRets_then _ (fun _ => trivial)
      · split
        · exact Prog.allRets_then _ (fun _ => trivial)
        · apply Prog.allRets_then
          intro here
          apply Prog.allRets_then
          intro decision
          split
          · trivial
          · exact Prog.allRets_then _ (fun _ => trivial)

theorem waits_wrapNodeRun {node : Node} (hnode : Carries D node) {handler : Node → Program NodeResult}
    (hhandler : ∀ node, Carries D node → Waits grants b c (Leads D) (handler node)) :
    Waits grants b c (Leads D) (eff.wrapNodeRun node handler) := by
  apply Prog.awaits_bind (waits_op (by simp [Gives, gives]))
  intro _ _
  split
  · exact waits_admit eff _ hhandler
  · rename_i response results
    have hpending : Within eff false .mute (eff.recordPending response) := within_recordPending response
    have hrecord : ∀ result, Within eff false .mute (eff.recordTurn response result) :=
      within_recordTurn response
    apply Prog.awaits_bind (waits_op (by simp [Gives, gives]))
    intro _ _
    apply Prog.awaits_bind (waits_mute eff hpending)
    intro _ _
    apply Prog.awaits_bind (hhandler _ hnode)
    intro result hresult
    apply Prog.awaits_bind (waits_mute eff (hrecord result))
    intro _ _
    exact waits_decideFinish eff hresult
  · exact hhandler _ trivial

/-- What an attempt waits for, its rounds wait for: a round runs under the decisions the run was
given, or under none. -/
theorem waits_runNode (awaiting : Awaiting ai) (prompt : Option Json) (results : DeferredToolResults)
    (henter : ∀ history messages node, ai.enter history prompt results = .ok (messages, node) →
      Carries D node)
    (hnone : D [])
    (hround : ∀ response messages results, D results →
      ∀ item ∈ ai.round response messages results,
        Waits grants b c (fun _ => True) (ai.executeCall eff item.1 item.2))
    (node : Node) (hnode : Carries D node) :
    Waits grants b c (Leads D) (ai.runNode eff prompt results node) := by
  cases node with
  | userPrompt =>
    apply Prog.awaits_bind (waits_op (by simp [Gives, gives]))
    intro a _
    split
    · trivial
    · rename_i messages node hentered
      apply Prog.awaits_bind (waits_op (by simp [Gives, gives]))
      intro _ _
      apply Prog.awaits_bind (waits_op (by simp [Gives, gives]))
      intro _ _
      exact henter _ _ _ hentered
  | modelRequest request =>
    apply Prog.awaits_bind (waits_op (by simp [Gives, gives]))
    intro _ _
    apply Prog.awaits_bind (waits_op (by simp [Gives, gives]))
    intro _ _
    apply Prog.awaits_bind (waits_op (by simp [Gives, gives]))
    intro a _
    apply Prog.awaits_bind (waits_wrapModelRequest eff _ _)
    intro response _
    apply Prog.awaits_bind (waits_op (by simp [Gives, gives]))
    intro _ _
    exact hnone
  | callTools response given =>
    apply Prog.awaits_bind (waits_op (by simp [Gives, gives]))
    intro a _
    apply Prog.awaits_bind
    · apply awaiting
      intro call hcall
      obtain ⟨item, hitem, rfl⟩ := List.mem_map.mp hcall
      exact hround response a.messages given hnode item hitem
    · intro outcomes _
      split
      · trivial
      · trivial
      · exact Prog.awaits_bind (waits_op (by simp [Gives, gives])) (fun _ _ => trivial)

theorem waits_run (awaiting : Awaiting ai) (prompt : Option Json) (history : List ModelMessage)
    (results : DeferredToolResults)
    (henter : ∀ history messages node, ai.enter history prompt results = .ok (messages, node) →
      Carries D node)
    (hnone : D [])
    (hround : ∀ response messages results, D results →
      ∀ item ∈ ai.round response messages results,
        Waits grants b c (fun _ => True) (ai.executeCall eff item.1 item.2)) :
    Waits grants b c (fun _ => True) (ai.run eff prompt history results) := by
  have hiterate : ∀ fuel node, Carries D node →
      Waits grants b c (fun _ => True) (ai.iterate eff prompt results fuel node) := by
    intro fuel
    induction fuel with
    | zero => exact fun _ _ => trivial
    | succ fuel ih =>
      intro node hnode
      apply Prog.awaits_bind
      · exact waits_wrapNodeRun eff hnode
          (waits_runNode eff awaiting prompt results henter hnone hround)
      · intro result hresult
        cases result with
        | finish output => trivial
        | node next =>
          apply Prog.awaits_bind (waits_op (by simp [Gives, gives]))
          intro _ _
          exact ih next hresult
  apply Prog.awaits_bind (waits_op (by simp [Gives, gives]))
  intro _ _
  apply Prog.awaits_bind (hiterate _ .userPrompt trivial)
  intro output _
  exact Prog.awaits_bind (waits_op (by simp [Gives, gives])) (fun _ _ => trivial)

end

section
variable {b c : String} {grants : (o : Op) → Except Exn o.Res → Prop}
variable (rt : AgentRuntime) (e : Execution)

theorem ungiving_openBranch (messageHistory : Option (List ModelMessage)) :
    Ungiving b c (rt.openBranch e messageHistory) := by
  unfold AgentRuntime.openBranch
  split
  · apply Prog.allOps_bind
    · apply Prog.allOps_bind (ungiving_op (by simp [Gives, gives]))
      intro entries
      apply Prog.allOps_bind
      · exact Prog.allOps_bind (ungiving_op (by simp [Gives, gives])) (fun _ => ungiving_op (by simp [Gives, gives]))
      · intro _
        exact ungiving_op (by simp [Gives, gives])
    · intro _
      split
      · exact Prog.allOps_bind (ungiving_op (by simp [Gives, gives])) (fun _ => trivial)
      · rename_i history
        have hreplace : Within { store := none, branchId := b, record := some ⟨e.conversation⟩ } false
            .mute (Branch.replace e.conversation history) := within_replace rfl history
        exact Prog.allOps_bind (ungiving_mute hreplace) (fun _ => trivial)
  · trivial

theorem ends_ungiving {α : Type} {p : Program α} (h : p.AllOps Ends) : Ungiving b c p := by
  apply h.mono
  intro o ho
  cases o with
  | ledger call => cases call <;> first | exact ho.elim | exact Bool.false_ne_true
  | _ => exact Bool.false_ne_true

/-- What is left of an attempt once its memory is clear. -/
def attemptRest (token : Nat) (agent : Agent) (prompt : Option String) (options : Options) :
    Program Outcome := do
  let history ← rt.openBranch e options.messageHistory
  let prompt ← rt.admitPrompt e token prompt options.promptId
  let eff := rt.effectsOf e token agent options
  let output ← agent.run eff (prompt.map Json.str) history options.results
  rt.replaceFinal e
  match output with
  | .deferred requests => rt.park e e.conversation eff requests token
  | output => rt.close e output

theorem attemptRun_eq (token : Nat) (agent : Agent) (prompt : Option String) (options : Options) :
    rt.attemptRun e token agent prompt options =
      (update (fun _ => {})).bind (fun _ => attemptRest rt e token agent prompt options) := rfl

variable (token : Nat) {agent : Agent} (prompt : Option String) (options : Options)

theorem waits_attemptRest
    (hrun : ∀ prompt history, Waits grants b c (fun _ => True)
      (agent.run (rt.effectsOf e token agent options) prompt history options.results)) :
    Waits grants b c (fun _ => True) (attemptRest rt e token agent prompt options) := by
  have hprompt : Within (rt.effectsOf e token agent options) false .mute
      (rt.admitPrompt e token prompt options.promptId) := within_admitPrompt ..
  have hreplace : Within (rt.effectsOf e token agent options) false .mute (rt.replaceFinal e) :=
    within_replaceFinal ..
  apply Prog.awaits_bind (Prog.awaits_needless (ungiving_openBranch rt e _))
  intro history _
  apply Prog.awaits_bind (waits_mute _ hprompt)
  intro prompt _
  apply Prog.awaits_bind (hrun _ _)
  intro output _
  apply Prog.awaits_bind (waits_mute _ hreplace)
  intro _ _
  cases output with
  | deferred requests => exact Prog.awaits_needless (ends_ungiving (ends_park rt e token))
  | text content => exact Prog.awaits_needless (ends_ungiving (ends_close rt e))
  | value value => exact Prog.awaits_needless (ends_ungiving (ends_close rt e))

/-- Any attempt. -/
theorem looks_attemptRest (awaiting : Awaiting agent.toPydanticAI) :
    Waits (fun o _ => Looks b c o) b c (fun _ => True)
      (attemptRest rt e token agent prompt options) := by
  apply waits_attemptRest
  intro prompt history
  apply waits_run _ awaiting (D := fun _ => True)
  · intro history messages node _
    cases node <;> trivial
  · trivial
  · exact fun _ _ _ _ item _ => looks_executeCall _ item.1 agent.toPydanticAI item.2

/-- The decisions a run works with are those it was given: it enters a round with them, and a call
of a round has a decision only if they hold one. -/
structure Decides (ai : PydanticAI) : Prop where
  enters : ∀ history prompt results messages response results',
    ai.enter history prompt results = .ok (messages, .callTools response results') →
      results' = results
  rounds : ∀ response messages results, ∀ item ∈ ai.round response messages results,
    item.2 ≠ none → fetch item.1.toolCallId results ≠ none

/-- Every decision comes with the suspension it answers. -/
def Backed (options : Options) : Prop :=
  ∀ id, fetch id options.results ≠ none → fetch id options.resumed ≠ none

/-- An attempt that gates the call again. -/
theorem lets_attemptRest (awaiting : Awaiting agent.toPydanticAI) (decides : Decides agent.toPydanticAI)
    (backed : Backed options) (hregate : c ∈ options.regate)
    (hplane : (options.controls <|> agent.own) ≠ none) :
    Waits (Lets c) b c (fun _ => True) (attemptRest rt e token agent prompt options) := by
  obtain ⟨plane, hplane⟩ := Option.ne_none_iff_exists'.mp hplane
  apply waits_attemptRest
  intro prompt history
  apply waits_run _ awaiting (D := fun results => results = [] ∨ results = options.results)
  · intro history messages node hentered
    cases node with
    | callTools response results' => exact .inr (decides.enters _ _ _ _ _ _ hentered)
    | userPrompt | modelRequest => trivial
  · exact .inl rfl
  · intro response messages results hresults item hitem
    apply lets_executeCall _ _ _ hregate hplane
    intro happroval
    have hfetch := decides.rounds _ _ _ item hitem happroval
    rcases hresults with rfl | rfl
    · exact absurd rfl hfetch
    · exact backed _ hfetch

end

end Semora.Proofs.Regate
