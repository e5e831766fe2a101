import Semora.Proofs.OneWriter

/-! Where the results on record come from: nothing is put on record but behind its intent, and
nothing but what a tool or the provider has just given, or what stands on another record. -/

namespace Semora.Proofs.Provenance
open Semora.Lib Semora.Store
open Semora.Proofs.Order (Follows Ordered acts mem_acts mem_snoc ordered_of_safe follows_exec)

/-- The intent of the step was accepted. -/
def Intended (b k : String) (token : Nat) (done : List Done) : Prop :=
  (⟨.ledger (.start b k token), .ok true⟩ : Done) ∈ done

/-- A failure that is a tool's own report. -/
def Reported (error : Exn) : Prop :=
  error.nothingHappened = false ∧ error.runtimeSignal = false ∧ error.isException = true

/-- What the tool or the provider gave for the step, as its record. -/
inductive Given (digest : Json → String) (did : Done → Prop) (k : String) : Value → Prop
  | returned (call : ToolCall) (args value : Json) (key : k = Effects.stepKey call.toolCallId)
      (ran : did ⟨.handle call args, .ok value⟩) : Given digest did k (.toolResult (.ok value))
  | failed (call : ToolCall) (args : Json) (error : Exn)
      (key : k = Effects.stepKey call.toolCallId) (reported : Reported error)
      (ran : did ⟨.handle call args, .error error⟩) :
      Given digest did k (.toolResult (.failed error.text))
  | answered (request : RequestContext) (response : ModelResponse)
      (key : k = Effects.modelStepKey digest request)
      (asked : did ⟨.provide request, .ok response⟩) :
      Given digest did k (.modelResult response)

theorem Given.mono {digest : Json → String} {did did' : Done → Prop} {k : String} {v : Value}
    (h : Given digest did k v) (hdid : ∀ d, did d → did' d) : Given digest did' k v := by
  cases h with
  | returned call args value key ran => exact .returned call args value key (hdid _ ran)
  | failed call args error key reported ran =>
    exact .failed call args error key reported (hdid _ ran)
  | answered request response key asked => exact .answered request response key (hdid _ asked)

/-- What a result on record comes from. -/
def Source (digest : Json → String) (done : List Done) (k : String) (v : Value) : Prop :=
  Given digest (· ∈ done) k v ∨
    ∃ b, (⟨.ledger (.read b k), .ok (.done v)⟩ : Done) ∈ done

/-- What has to come before an operation. -/
def rule (digest : Json → String) (done : List Done) (d : Done) : Prop :=
  match d.op with
  | .handle call _ => ∃ b token, Intended b (Effects.stepKey call.toolCallId) token done
  | .provide request => ∃ b token, Intended b (Effects.modelStepKey digest request) token done
  | .ledger (.finishEffect b k v token) => Intended b k token done ∧ Source digest done k v
  | .ledger (.writeControl _ k _ _) => ¬ Effects.EffectKey k
  | .ledger (.commitTransition _ tr _) =>
    tr.effects = [] ∧ ∀ item ∈ tr.controls, ¬ Effects.EffectKey item.1
  | _ => True

/-- An operation that needs nothing before it. -/
def Bare (digest : Json → String) (o : Op) : Prop := ∀ done r, rule digest done ⟨o, r⟩

/-- What has been done stays done. -/
def Grown (s s' : Own) : Prop := s.done <+: s'.done

section
variable {digest : Json → String} {s : Own} {R : Own → Own → Prop}

theorem follows_grown {s s' : Own} (h : Follows (rule digest) s s') : Grown s s' := by
  obtain ⟨d, hd, -⟩ := h
  exact ⟨[d], hd.symm⟩

theorem rule_mono {done done' : List Done} {d : Done} (h : rule digest done d)
    (hdone : done <+: done') : rule digest done' d := by
  obtain ⟨o, r⟩ := d
  cases o with
  | handle call args =>
    obtain ⟨b, token, hintended⟩ := h
    exact ⟨b, token, hdone.subset hintended⟩
  | provide request =>
    obtain ⟨b, token, hintended⟩ := h
    exact ⟨b, token, hdone.subset hintended⟩
  | ledger c =>
    cases c with
    | finishEffect b k v token =>
      obtain ⟨hintended, hgiven | ⟨b', hread⟩⟩ := h
      · exact ⟨hdone.subset hintended, .inl (hgiven.mono (fun _ hd => hdone.subset hd))⟩
      · exact ⟨hdone.subset hintended, .inr ⟨b', hdone.subset hread⟩⟩
    | _ => exact h
  | _ => exact h

/-! Piece by piece, in the company of what only adds to the history. -/

/-- One operation whose rule is met. -/
theorem safe_did (hR : ∀ a b, R a b → Grown a b) {o : Op} (ho : ∀ r, rule digest s.done ⟨o, r⟩) :
    Prog.safe Own.exec R (Follows (rule digest)) (perform o)
      (fun r s' => Grown s s' ∧ (⟨o, r⟩ : Done) ∈ s'.done) s := by
  apply (Prog.safe_op o _ s).mpr
  intro s₁ hs₁ r s₂ he
  refine ⟨follows_exec (rule_mono (ho r) (hR _ _ hs₁)) he, ?_⟩
  obtain ⟨-, rfl⟩ := he
  exact ⟨(hR _ _ hs₁).trans (List.prefix_append _ _), by simp⟩

theorem safe_bare (hR : ∀ a b, R a b → Grown a b) {α : Type} {p : Program α}
    (hp : p.AllOps (Bare digest)) :
    Prog.safe Own.exec R (Follows (rule digest)) p (fun _ s' => Grown s s') s := by
  refine Prog.safe_of_allOps (I := fun s' => Grown s s') (fun a b hab h => h.trans (hR a b hab)) ?_ hp
    List.prefix_rfl
  intro o ho a r b h he
  have hfollows := follows_exec (ho a.done r) he
  exact ⟨hfollows, h.trans (follows_grown hfollows)⟩

/-- One after the other, where the first may fail for any reason. -/
theorem safe_then {α β : Type} {p : Program α} {f : α → Program β}
    {Q : Except Exn α → Own → Prop}
    (hp : Prog.safe Own.exec R (Follows (rule digest)) p Q s)
    (hf : ∀ a s', Q (.ok a) s' →
      Prog.safe Own.exec R (Follows (rule digest)) (f a) (fun _ _ => True) s') :
    Prog.safe Own.exec R (Follows (rule digest)) (p.bind f) (fun _ _ => True) s := by
  apply (Prog.safe_bind _ _ _ _).mpr
  apply Prog.safe_post hp
  intro r s' hQ
  cases r with
  | ok a => exact hf a s' hQ
  | error error => trivial

theorem bare_mute {eff : Effects} {o : Op} (h : Performs eff false .mute o) : Bare digest o := by
  intro done r
  cases h with
  | handle call args out => cases out
  | provide request out => cases out
  | finishEffect v hv k hk value past => exact absurd rfl past
  | writeControl v hv k value hk =>
    intro heffect
    rcases hk with rfl | ⟨id, rfl⟩
    · exact absurd rfl (Effects.effect_control heffect (.inr (.inr (.inl rfl))))
    · exact absurd rfl (Effects.effect_control heffect (.inl ⟨id, rfl⟩))
  | _ => trivial

section
variable {eff : Effects} {v : View} {call : ToolCall} {args : Json}

theorem bare_op {o : Op} (h : Bare digest o) : (perform o).AllOps (Bare digest) :=
  (Prog.allOps_op o).mpr h

theorem bare_ctx : (eff.ctx []).AllOps (Bare digest) := by
  have within : Within eff false .mute (eff.ctx []) := within_ctx []
  exact within.mono (fun _ => bare_mute)

theorem bare_readStep (key : String) : (eff.readStep key).AllOps (Bare digest) := by
  unfold Effects.readStep
  split
  · trivial
  · exact bare_op (o := .ledger (.read ..)) (fun _ _ => trivial)

theorem bare_before (approved : Bool) :
    (eff.beforeToolExecute approved call args).AllOps (Bare digest) := by
  have hreplayed : (eff.replayed call).AllOps (Bare digest) := by
    unfold Effects.replayed
    split
    · trivial
    · exact Prog.allOps_bind (bare_readStep _) (fun _ => trivial)
  have hmute : ∀ {α : Type} {p : Program α}, Within eff false .mute p →
      p.AllOps (Bare digest) := fun hp => hp.mono (fun _ => bare_mute)
  refine Prog.allOps_bind (Prog.allOps_bind bare_ctx (fun here =>
    Prog.allOps_bind hreplayed (fun replayed => ?_))) (fun asked => hmute (within_enforce _ _ _))
  split
  · trivial
  · split
    · exact Prog.allOps_bind (hmute (within_resumeDecision _ _)) (fun _ => trivial)
    · exact Prog.allOps_bind (hmute (within_gate _ _)) (fun _ => trivial)

theorem bare_journalOnce (record : Record) :
    (eff.journalOnce call record).AllOps (Bare digest) := by
  have hproject : ∀ plane, (eff.project plane call record).AllOps (Bare digest) := by
    intro plane
    refine Prog.allOps_bind bare_ctx (fun here => ?_)
    cases record <;> exact Prog.allOps_bind (bare_op (o := .ask ..) (fun _ _ => trivial))
      (fun _ => trivial)
  refine Prog.allOps_bind (bare_readStep _) (fun journaled => ?_)
  split
  · trivial
  · trivial
  · split
    · trivial
    · refine Prog.allOps_bind (hproject _) (fun projected => Prog.allOps_bind ?_ (fun _ => trivial))
      unfold Effects.journal
      split
      · trivial
      · refine bare_op (o := .ledger (.writeControl ..)) (fun _ _ heffect => ?_)
        exact absurd rfl (Effects.effect_control heffect (.inl ⟨_, rfl⟩))

/-- Only what a tool itself reports becomes its record. -/
theorem safe_caught (hR : ∀ a b, R a b → Grown a b) (key : Option String) (error : Exn) :
    Prog.safe Own.exec R (Follows (rule digest)) (eff.caught key error) (fun r s' =>
      ∀ record, r = .ok record → Grown s s' ∧ Reported error ∧ record = .failed error.text) s := by
  unfold Effects.caught
  split
  · apply (Prog.safe_bind _ _ _ _).mpr
    refine Prog.safe_post (safe_bare hR ?_) ?_
    · unfold Effects.clearIntent
      split
      · exact bare_op (o := .ledger (.forget ..)) (fun _ _ => trivial)
      · trivial
    · intro r s₁ _
      cases r <;> exact fun _ h => by cases h
  · rename_i hhappened
    split
    · exact fun _ h => by cases h
    · rename_i hsignal
      obtain ⟨hnosignal, hexception⟩ := not_or.mp hsignal
      intro record hrecord
      cases hrecord
      exact ⟨List.prefix_rfl, ⟨by simpa using hhappened, by simpa using hnosignal,
        by simpa using hexception⟩, rfl⟩

/-- A tool is run behind its intent, and what it gave is what is recorded. -/
theorem safe_execute (hR : ∀ a b, R a b → Grown a b) (hstore : eff.store = some v)
    (hintended : Intended (v.filed eff.branchId) (Effects.stepKey call.toolCallId) eff.token
      s.done) :
    Prog.safe Own.exec R (Follows (rule digest))
      (eff.execute (some (Effects.stepKey call.toolCallId)) args
        (fun args => perform (.handle call args))) (fun _ _ => True) s := by
  refine safe_then (Q := fun r s' => ∀ record, r = .ok record → Grown s s' ∧
    Given digest (· ∈ s'.done) (Effects.stepKey call.toolCallId) (.toolResult record)) ?_ ?_
  · apply (Prog.safe_tryCatch _ _ _ _).mpr
    apply (Prog.safe_bind _ _ _ _).mpr
    apply Prog.safe_post (safe_did (o := .handle call args) hR
      (fun _ => ⟨_, eff.token, hintended⟩))
    intro r s₁ h₁
    obtain ⟨hgrown, hran⟩ := h₁
    cases r with
    | ok value =>
      intro record hrecord
      cases hrecord
      exact ⟨hgrown, .returned call args value rfl hran⟩
    | error error =>
      apply Prog.safe_post (safe_caught hR _ error)
      intro r s₂ h₂ record hrecord
      obtain ⟨hgrown', hreported, rfl⟩ := h₂ record hrecord
      exact ⟨hgrown.trans hgrown', .failed call args error rfl hreported (hgrown'.subset hran)⟩
  · intro record s₁ h₁
    obtain ⟨hgrown, hgiven⟩ := h₁ record rfl
    refine safe_then (Q := fun _ _ => True) ?_ (fun _ _ _ => trivial)
    unfold Effects.finishStep
    rw [hstore]
    exact Prog.safe_post (safe_did (o := .ledger (.finishEffect ..)) hR
      (fun _ => ⟨hgrown.subset hintended, .inl hgiven⟩)) (fun _ _ _ => trivial)

theorem safe_runStep (hR : ∀ a b, R a b → Grown a b) (hstore : eff.store = some v) :
    Prog.safe Own.exec R (Follows (rule digest))
      (eff.runStep v (Effects.stepKey call.toolCallId) args
        (fun args => perform (.handle call args))) (fun _ _ => True) s := by
  refine safe_then (safe_did (o := .ledger (.start ..)) hR (fun _ => trivial)) ?_
  intro inserted s₁ h₁
  split
  · rename_i hinserted
    refine safe_execute hR hstore ?_
    have hstarted := h₁.2
    rw [hinserted] at hstarted
    exact hstarted
  · trivial

theorem safe_runOrReplay (hR : ∀ a b, R a b → Grown a b) (hstore : eff.store = some v) :
    Prog.safe Own.exec R (Follows (rule digest))
      (eff.runOrReplay call args (fun args => perform (.handle call args)))
      (fun _ _ => True) s := by
  unfold Effects.runOrReplay
  rw [hstore]
  refine safe_then (safe_did (o := .ledger (.read ..)) hR (fun _ => trivial)) ?_
  intro step s₁ _
  cases step with
  | done value => cases value <;> trivial
  | absent => exact safe_runStep hR hstore
  | running =>
    simp only
    split
    · exact safe_then (safe_did (o := .ledger (.forget ..)) hR (fun _ => trivial))
        (fun _ _ _ => safe_runStep hR hstore)
    · trivial

theorem safe_executeCall (hR : ∀ a b, R a b → Grown a b) (hstore : eff.store = some v)
    (ai : PydanticAI) (approval : Option Approval) :
    Prog.safe Own.exec R (Follows (rule digest)) (ai.executeCall eff call approval)
      (fun _ _ => True) s := by
  have hhooks : ∀ approved args, Prog.safe Own.exec R (Follows (rule digest))
      (PydanticAI.throughHooks eff approved call args) (fun _ _ => True) s := by
    intro approved args
    apply (Prog.safe_tryCatch _ _ _ _).mpr
    refine Prog.safe_post (Q := fun _ _ => True) ?_ ?_
    · refine safe_then (safe_bare hR (bare_before approved)) (fun args' s₁ _ => ?_)
      refine safe_then (Q := fun _ _ => True) ?_ (fun _ _ _ => trivial)
      refine safe_then (safe_runOrReplay hR hstore) (fun step s₂ _ => ?_)
      refine safe_then (safe_bare hR (bare_journalOnce step)) (fun record s₃ _ => ?_)
      cases record <;> trivial
    · intro r s₁ _
      cases r with
      | ok outcome => trivial
      | error error => cases error <;> trivial
  unfold PydanticAI.executeCall
  split
  · trivial
  · split
    · trivial
    · exact hhooks _ _
  · split
    · trivial
    · exact hhooks _ _

/-! The model boundary. -/

theorem safe_unasked (hR : ∀ a b, R a b → Grown a b) (key : String) (error : Exn) :
    Prog.safe Own.exec R (Follows (rule digest)) (eff.unasked v key error)
      (fun r _ => ∀ response, r ≠ .ok response) s := by
  unfold Effects.unasked
  split
  · exact fun _ h => by cases h
  · apply (Prog.safe_bind _ _ _ _).mpr
    refine Prog.safe_post (safe_did (o := .ledger (.forget ..)) hR (fun _ => trivial)) ?_
    intro r s₁ _
    cases r <;> exact fun _ h => by cases h

/-- The provider is asked behind an intent, and what it answered is what is recorded. -/
theorem safe_requestOnce (hR : ∀ a b, R a b → Grown a b) (request : RequestContext) :
    Prog.safe Own.exec R (Follows (rule digest))
      (eff.requestOnce v (Effects.modelStepKey digest request) request
        (fun request => perform (.provide request))) (fun _ _ => True) s := by
  refine safe_then (safe_did (o := .ledger (.start ..)) hR (fun _ => trivial)) ?_
  intro inserted s₁ h₁
  split
  · rename_i hinserted
    have hintended : Intended (v.filed eff.branchId) (Effects.modelStepKey digest request)
        eff.token s₁.done := by
      have hstarted := h₁.2
      rw [hinserted] at hstarted
      exact hstarted
    refine safe_then (Q := fun r s' => ∀ response, r = .ok response → Grown s₁ s' ∧
      (⟨.provide request, .ok response⟩ : Done) ∈ s'.done) ?_ ?_
    · apply (Prog.safe_tryCatch _ _ _ _).mpr
      apply Prog.safe_post (safe_did (o := .provide request) hR
        (fun _ => ⟨_, eff.token, hintended⟩))
      intro r s₂ h₂
      cases r with
      | ok response =>
        intro response' hresponse
        cases hresponse
        exact h₂
      | error error =>
        exact Prog.safe_post (safe_unasked hR _ error) (fun r _ h response hr => absurd hr (h response))
    · intro response s₂ h₂
      obtain ⟨hgrown, hasked⟩ := h₂ response rfl
      refine safe_then (safe_did (o := .ledger (.finishEffect ..)) hR (fun _ => ?_))
        (fun _ _ _ => trivial)
      exact ⟨hgrown.subset hintended, .inl (.answered request response rfl hasked)⟩
  · trivial

theorem safe_wrapModelRequest (hR : ∀ a b, R a b → Grown a b) (hstore : eff.store = some v)
    (request : RequestContext) :
    Prog.safe Own.exec R (Follows (rule digest))
      (eff.wrapModelRequest digest request (fun request => perform (.provide request)))
      (fun _ _ => True) s := by
  unfold Effects.wrapModelRequest
  rw [hstore]
  refine safe_then (safe_did (o := .ledger (.read ..)) hR (fun _ => trivial)) ?_
  intro step s₁ _
  cases step with
  | done value => cases value <;> trivial
  | absent => exact safe_requestOnce hR request
  | running =>
    simp only
    split
    · exact safe_then (safe_did (o := .ledger (.forget ..)) hR (fun _ => trivial))
        (fun _ _ _ => safe_requestOnce hR request)
    · trivial

end

end

/-! What an operation does. -/

abbrev Keeping (digest : Json → String) (α : Type) (p : Program α) : Prop :=
  Prog.Keeps Own.exec (Follows (rule digest)) (fun _ => True) α p

section
variable {digest : Json → String} {rt : AgentRuntime} {agent : Agent} {e : Execution} {token : Nat}

theorem compositional_keeping : Prog.Compositional (Keeping digest) :=
  Prog.compositional_keeps _ _ _

theorem grown_eq (a b : Own) (h : a = b) : Grown a b := h ▸ List.prefix_rfl

theorem keeping_bare {α : Type} {p : Program α} (hp : p.AllOps (Bare digest)) :
    Keeping digest α p := fun _ _ =>
  Prog.safe_post (safe_bare grown_eq hp) (fun _ _ _ => trivial)

theorem bare_plain {o : Op} (h : Throughout.Plain o) : Bare digest o := by
  intro done r
  cases o with
  | ledger | handle | provide => exact h.elim
  | _ => trivial

theorem bare_loose {o : Op} (h : Throughout.Loose o) : Bare digest o := by
  intro done r
  cases o with
  | ledger c => cases c <;> first | exact h.elim | trivial
  | handle | provide => exact h.elim
  | _ => trivial

/-- A continuation is no result. -/
theorem bare_suspension (b : String) (value : Value) :
    Bare digest (.ledger (.writeControl b Effects.activeSuspension value token)) :=
  fun _ _ heffect => absurd rfl (Effects.effect_control heffect (.inr (.inr (.inr rfl))))

theorem bare_park {α : Type} {conversation : String} {eff : Effects}
    {requests : DeferredToolRequests} :
    (rt.park (α := α) e conversation eff requests token).AllOps (Bare digest) := by
  unfold AgentRuntime.park
  split
  · trivial
  · split
    · trivial
    · trivial
    · simp only
      split
      · trivial
      · refine Prog.allOps_bind (bare_op (o := .get) (fun _ _ => trivial)) (fun a =>
          Prog.allOps_bind ?_ (fun _ => Prog.allOps_bind ?_ (fun _ => trivial)))
        · have within : ∀ parked, Within { store := none, branchId := "" } false .mute
              (AgentRuntime.announce eff a parked) := fun parked => within_announce eff a parked
          exact (within _).mono (fun _ => bare_mute)
        · unfold AgentRuntime.persist
          split
          · trivial
          · refine Prog.allOps_bind (bare_op (o := .ledger (.commitTransition ..)) ?_)
              (fun _ => trivial)
            refine fun _ _ => ⟨rfl, fun item hitem heffect => ?_⟩
            simp only [AgentRuntime.parkWrites, List.mem_append, List.mem_map,
              List.mem_singleton] at hitem
            rcases hitem with ⟨parked, -, rfl⟩ | rfl
            · exact absurd rfl (Effects.effect_control heffect (.inr (.inl ⟨_, rfl⟩)))
            · exact absurd rfl (Effects.effect_control heffect (.inr (.inr (.inr rfl))))

/-- An attempt of a runtime with a ledger. -/
theorem keeping_attemptRun {e' : Execution} (ledger : rt.executionStore = true)
    (weaves : Prog.Weaves agent.gather) (prompt : Option String) (options : Options) :
    Keeping agent.digest _ (rt.attemptRun e' token agent prompt options) := by
  have hk : Prog.Compositional (Keeping agent.digest) := compositional_keeping
  have hstore : (rt.effectsOf e' token agent options).store = some ⟨e'.conversationId⟩ :=
    if_pos ledger
  have hplain : ∀ {α : Type} {p : Program α}, p.AllOps Throughout.Plain →
      Keeping agent.digest α p := fun hp => keeping_bare (hp.mono (fun _ => bare_plain))
  have hmute : ∀ {α : Type} {p : Program α},
      Within (rt.effectsOf e' token agent options) false .mute p → Keeping agent.digest α p :=
    fun hp => keeping_bare (hp.mono (fun _ => bare_mute))
  refine hk.bind (keeping_bare (bare_op (o := .modify _) (fun _ _ => trivial))) (fun _ =>
    hk.bind (hplain (Throughout.plain_openBranch _)) (fun history =>
      hk.bind (hmute (within_admitPrompt _ _ _ _ _ _ _)) (fun prompt => hk.bind ?_ (fun output =>
        hk.bind (hplain Throughout.plain_replaceFinal) (fun _ => ?_)))))
  · refine Throughout.run_of hk (fun o ho => keeping_bare (bare_op (bare_mute ho)))
      (fun context s _ => safe_wrapModelRequest grown_eq hstore context) (fun calls => ?_) _ _ _
    refine Prog.keeps_weave (R := Grown) weaves (fun _ => List.prefix_rfl)
      (fun _ _ _ h h' => h.trans h') (fun _ _ h => follows_grown h) (fun _ _ _ _ => trivial) ?_
    intro call hcall s _
    obtain ⟨item, -, rfl⟩ := List.mem_map.mp hcall
    exact safe_executeCall (fun _ _ h => h) hstore _ _
  · split
    · exact keeping_bare bare_park
    · exact hplain Throughout.plain_close

/-- A fork records what it has read from the source, behind an intent of its own. -/
theorem safe_copyCalls (source target : View) (src dst : Execution) (calls : List ToolCall)
    {s : Own} :
    Prog.safe Own.exec Eq (Follows (rule digest))
      (AgentRuntime.copyCalls source target src dst token calls) (fun _ _ => True) s := by
  induction calls generalizing s with
  | nil => trivial
  | cons call calls ih =>
    refine safe_then (safe_did (o := .ledger (.read ..)) grown_eq (fun _ => trivial)) ?_
    intro record s₁ h₁
    cases record with
    | absent => exact ih
    | running =>
      exact safe_then (safe_did (o := .ledger (.start ..)) grown_eq (fun _ => trivial))
        (fun _ _ _ => ih)
    | done value =>
      refine safe_then (safe_did (o := .ledger (.start ..)) grown_eq (fun _ => trivial)) ?_
      intro inserted s₂ h₂
      split
      · rename_i hinserted
        have hstarted := h₂.2
        rw [hinserted] at hstarted
        refine safe_then (safe_did (o := .ledger (.finishEffect ..)) grown_eq (fun _ =>
          ⟨hstarted, .inr ⟨_, h₂.1.subset h₁.2⟩⟩)) (fun _ _ _ => ?_)
        exact safe_then ih (fun _ _ _ => trivial)
      · exact ih

theorem keeping_copyRound (src dst : Execution) (history : List ModelMessage) :
    Keeping digest _ (rt.copyRound src dst token history) := by
  intro s _
  unfold AgentRuntime.copyRound
  split
  · exact safe_copyCalls _ _ _ _ _
  · trivial

theorem keeping_loose {α : Type} {p : Program α} (hp : p.AllOps Throughout.Loose) :
    Keeping digest α p := keeping_bare (hp.mono (fun _ => bare_loose))

theorem keeping_suspension (store : View) (value : Value) :
    Keeping digest _ (store.writeControl e.branchId Effects.activeSuspension value token) :=
  keeping_bare (bare_op (bare_suspension _ _))

theorem keeping_finalize (ledger : rt.executionStore = true) (weaves : Prog.Weaves agent.gather)
    {active : Suspension} {answers : List (String × Answer)} {controls : Option String}
    {rulesVersion : String} :
    Keeping agent.digest _ (rt.finalize e token agent active answers controls rulesVersion) := by
  have hk : Prog.Compositional (Keeping agent.digest) := compositional_keeping
  refine hk.bind (keeping_loose Throughout.loose_requireStore) (fun store => ?_)
  split
  · exact hk.raise _
  · exact hk.bind (keeping_suspension _ _) (fun _ =>
      hk.bind (keeping_attemptRun ledger weaves _ _) (fun outcome =>
        hk.bind (keeping_suspension _ _) (fun _ => hk.ret outcome)))

theorem bodies (ledger : rt.executionStore = true) (weaves : Prog.Weaves agent.gather)
    (op : Operation) : Throughout.Bodies (fun _ => Keeping agent.digest) rt agent e op where
  attempts _ _ _ _ := keeping_attemptRun ledger weaves _ _
  forks _ src _ history _ _ _ := compositional_keeping.bind (keeping_copyRound src e history)
    (fun _ => keeping_attemptRun ledger weaves _ _)
  resumes := by
    intro token pendingId answer rulesVersion
    have hk : Prog.Compositional (Keeping agent.digest) := compositional_keeping
    refine hk.bind (keeping_loose Throughout.loose_requireStore) (fun store =>
      hk.bind (keeping_loose Throughout.loose_active) (fun parked => ?_))
    split
    · exact hk.raise _
    · refine hk.bind (keeping_suspension _ _) (fun _ => ?_)
      split
      · exact keeping_finalize ledger weaves
      · exact hk.raise _
  recovers := by
    intro _ token history rulesVersion
    have hk : Prog.Compositional (Keeping agent.digest) := compositional_keeping
    unfold AgentRuntime.recoverLeased
    simp only
    split
    · exact keeping_attemptRun ledger weaves _ _
    · refine hk.bind (keeping_loose Throughout.loose_active) (fun parked => ?_)
      split
      · split
        · exact keeping_finalize ledger weaves
        · exact hk.raise _
      · refine hk.bind (keeping_bare (bare_op (o := .ledger (.read ..)) (fun _ _ => trivial)))
          (fun recorded => ?_)
        split
        · exact keeping_attemptRun ledger weaves _ _
        · exact hk.raise _

theorem driven : Throughout.Driven (Keeping digest) (fun _ => Keeping digest) rt e where
  compositional := compositional_keeping
  loose o ho := keeping_bare (bare_op (bare_loose ho))
  lease := by
    intro α body hbody
    have hk : Prog.Compositional (Keeping digest) := compositional_keeping
    unfold AgentRuntime.lease
    split
    · exact hbody 0
    · refine hk.bind (keeping_bare (bare_op (o := .uuid4) (fun _ _ => trivial))) (fun owner =>
        hk.bind (keeping_bare (bare_op (o := .ledger (.acquire ..)) (fun _ _ => trivial)))
          (fun token => ?_))
      split
      · exact hk.raise _
      · exact hk.finally_ (hbody token)
          (keeping_bare (bare_op (o := .ledger (.release ..)) (fun _ _ => trivial)))

end

/-! The threads side by side. -/

/-- A thread is an operation of a runtime with a ledger, or renews leases. -/
def Works (digest : Json → String) (p : Program Reply) : Prop :=
  (∃ (rt : AgentRuntime) (agent : Agent) (e : Execution) (op : Operation),
    rt.executionStore = true ∧ Prog.Weaves agent.gather ∧ agent.digest = digest ∧
      (p = rt.serve agent e op ∨ p = settled op (rt.serve agent e op))) ∨
  p.AllOps OneWriter.Renews

theorem keeping_works {digest : Json → String} {p : Program Reply} (works : Works digest p) :
    Keeping digest _ p := by
  rcases works with ⟨rt, agent, e, op, ledger, weaves, rfl, rfl | rfl⟩ | hrenews
  · exact driven.serve (bodies ledger weaves op)
  · exact driven.settled (bodies ledger weaves op)
  · refine keeping_bare (hrenews.mono (fun o ho => ?_))
    intro done r
    cases o with
    | ledger c => cases c <;> first | exact ho.elim | trivial
    | handle | provide => exact ho.elim
    | _ => trivial

/-- The events of a run that show it. -/
def Shown (s : Scene) (d : Done) : Prop := ∃ i, (⟨i, d.op, d.reply⟩ : Event) ∈ s.events

/-- What stands on record of an effect: it stood on a record of that key when the run began, or a
tool or the provider gave it in the run. -/
def Genuine (digest : Json → String) (begun s : Scene) (k : String) (v : Value) : Prop :=
  (∃ b, begun.world.store.step b k = .done v) ∨ Given digest (Shown s) k v

/-- What is on record of an effect is genuine, and so is what was ever read of one. -/
structure Inv (digest : Json → String) (begun s : Scene) : Prop where
  recorded : ∀ b k v, Effects.EffectKey k → s.world.store.step b k = .done v →
    Genuine digest begun s k v
  read : ∀ i b k v, Effects.EffectKey k →
    (⟨i, .ledger (.read b k), .ok (.done v)⟩ : Event) ∈ s.events → Genuine digest begun s k v

section
variable {out : Outside} {self : Nat → Nat} {i : Nat} {begun s s' : Scene} {digest : Json → String}

theorem Genuine.mono {k : String} {v : Value} (h : Genuine digest begun s k v)
    (hevents : ∀ e ∈ s.events, e ∈ s'.events) : Genuine digest begun s' k v := by
  rcases h with hbegun | hgiven
  · exact .inl hbegun
  · refine .inr (hgiven.mono (fun d hd => ?_))
    obtain ⟨j, hmem⟩ := hd
    exact ⟨j, hevents _ hmem⟩

theorem inv_exec {o : Op} {r : Except Exn o.Res} (he : exec out self i o s r s')
    (ordered : Ordered (rule digest) i s') (h : Inv digest begun s) : Inv digest begun s' := by
  obtain ⟨hevents, hworld, hreply⟩ := exec_events he
  have hrule := ordered _ _ _ (log_mine hevents)
  have hmore : ∀ e ∈ s.events, e ∈ s'.events := by
    intro e he
    rw [hevents]
    exact List.mem_append_left _ he
  have hstill : s'.world.store = s.world.store → (∀ b k, o ≠ .ledger (.read b k)) →
      Inv digest begun s' := by
    intro hstore hread
    constructor
    · intro b k v hk hstep
      rw [hstore] at hstep
      exact (h.recorded b k v hk hstep).mono hmore
    · intro j b k v hk hmem
      rw [hevents] at hmem
      rcases mem_snoc hmem with hold | heq
      · exact (h.read j b k v hk hold).mono hmore
      · cases heq
        exact absurd rfl (hread b k)
  cases o with
  | ledger c =>
    have hstore : s'.world.store = (c.exec (out.clock s.world.instant)
        (out.clock (s.world.instant + 1)) s.world.store).2 := by
      rw [hworld]
      rfl
    constructor
    · intro b k v hk hstep
      rw [hstore] at hstep
      have heffects : ∀ b tr token, c = .commitTransition b tr token → tr.effects = [] := by
        intro b tr token hc
        subst hc
        exact hrule.1
      rcases OneWriter.exec_files heffects hstep with hold | hfiles
      · exact (h.recorded b k v hk hold).mono hmore
      · cases c with
        | finishEffect b' k' v' token =>
          obtain ⟨rfl, rfl, rfl⟩ := hfiles
          obtain ⟨-, hgiven | ⟨b', hread⟩⟩ := hrule
          · exact .inr (hgiven.mono (fun d hd =>
              ⟨i, hmore _ (mem_acts List.prefix_rfl hd)⟩))
          · exact (h.read i b' k' v' hk (mem_acts List.prefix_rfl hread)).mono hmore
        | writeControl b' k' v' token =>
          obtain ⟨-, rfl, -⟩ := hfiles
          exact absurd hk hrule
        | commitTransition b' tr token => exact absurd hk (hrule.2 _ hfiles.2)
        | _ => exact hfiles.elim
    · intro j b k v hk hmem
      rw [hevents] at hmem
      rcases mem_snoc hmem with hold | heq
      · exact (h.read j b k v hk hold).mono hmore
      · cases heq
        have hfound : s.world.store.step b k = .done v := (Except.ok.inj hreply).symm
        exact (h.recorded b k v hk hfound).mono hmore
  | _ => exact hstill (by rw [hworld]; rfl) (fun _ _ => by simp)

/-- However many calls of however many runtimes run side by side, with the renewals of their leases
early or late, and whoever crashes: each of them runs no tool and asks no provider but behind an
intent of its own that was accepted, and records nothing but what these gave it, or what it has
read from a record; and all that is ever on record of an effect, or replayed from a record, a tool
or the provider gave for that very step. -/
theorem records_genuine {pool pool' : Nat → Program Reply} (works : ∀ i, Works digest (pool i))
    (apart : ∀ i j, j ≠ i → self j ≠ self i) (fresh : s.events = [])
    (run : Interleaved (exec out self) (fun _ _ => False) pool s pool' s') :
    (∀ i, Ordered (rule digest) i s') ∧ Inv digest s s' := by
  have hordered : ∀ pool' s', Interleaved (exec out self) (fun _ _ => False) pool s pool' s' →
      ∀ i, Ordered (rule digest) i s' := fun _ _ run i =>
    ordered_of_safe (fun a => keeping_works (works i) _ trivial) (apart i) (by simp [fresh, log]) run
  refine ⟨hordered _ _ run, run.along hordered
    (fun i o s r s' he ordered h => inv_exec he (ordered i) h) (fun _ _ h => h.elim) ⟨?_, ?_⟩⟩
  · exact fun b k v _ hstep => .inl ⟨b, hstep⟩
  · simp [fresh]

end

open Mediated (approved counted personal promptThenApprove sender weaves_standard)

/-- The tool that ran behind the approval is on record with what it gave. -/
theorem records_genuine_approved :
    approved.2.world.store.step "run" (Effects.stepKey "c1") =
      .done (.toolResult (.ok .null)) ∧
    (∀ i, Ordered (rule counted) i approved.2) ∧
    Inv counted ⟨{}, fun _ => {}, []⟩ approved.2 := by
  refine ⟨by decide +kernel, ?_⟩
  have run := interleaved_scheduled (Scene.perform personal id) (fun _ _ => False)
    (List.replicate 62 0 ++ List.replicate 99 1) promptThenApprove ⟨{}, fun _ => {}, []⟩
  have works : ∀ i, Works counted (promptThenApprove i) := fun i =>
    .inl ⟨{}, sender, _, _, rfl, weaves_standard, rfl, .inl rfl⟩
  exact records_genuine works (fun _ _ hj => hj) rfl run

end Semora.Proofs.Provenance
