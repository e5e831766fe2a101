import Semora.Proofs.Calm
import Semora.Proofs.Course

/-! What an attempt counts: every response it heard, live or replayed, and its rows are written
once, at its end, under the model that answered last. -/

namespace Semora.Proofs.Usage
open Semora.Lib Semora.Store Semora.Transcript

/-! Tokens. -/

/-- What responses spent, as a row counts it. -/
def spent (responses : List ModelResponse) : UsageFields where
  promptTokens := (responses.map ModelResponse.inputTokens).sum
  completionTokens := (responses.map ModelResponse.outputTokens).sum
  totalTokens := (responses.map ModelResponse.inputTokens).sum +
    (responses.map ModelResponse.outputTokens).sum

/-- The model that answered, as a row names it. -/
def answerer (response : ModelResponse) : String := response.modelName.getD ""

/-- The model that answered last. -/
def lastAnswerer (responses : List ModelResponse) : String :=
  (responses.getLast?.bind ModelResponse.modelName).getD ""

/-- The rows that counts of these responses make: none without tokens. -/
def bill (responses : List ModelResponse) : List (String × UsageFields) :=
  if (spent responses).totalTokens = 0 then [] else [(lastAnswerer responses, spent responses)]

/-! What an attempt counts. -/

/-- Pydantic AI closes a round with requests: what it appends as a run ends holds no response. -/
def Closes (ai : PydanticAI) : Prop :=
  ∀ response outcomes messages output appended,
    ai.settle response outcomes messages = .ok (.finish output appended) →
      ∀ message ∈ appended, ∃ request, message = .request request

/-- The model whose response is the latest of a history. -/
def speaker (messages : List ModelMessage) : String :=
  ((latestResponse messages).bind (fun found => found.1.modelName)).getD ""

/-- What has been written is nothing, or the counts of all that has been heard. -/
def Billed (branchId : String) (s : Own) : Prop :=
  wrote branchId s.done = [] ∨ wrote branchId s.done = bill (heard s.done)

/-- Nothing has been written yet, and these responses were heard. -/
def Open (branchId : String) (responses : List ModelResponse) (s : Own) : Prop :=
  wrote branchId s.done = [] ∧ heard s.done = responses

/-- The attempt counts what was heard, and its history ends with the last response. -/
structure Tally (branchId : String) (responses : List ModelResponse) (s : Own) : Prop where
  open_ : Open branchId responses s
  usage : s.attempt.usage = ((spent responses).promptTokens, (spent responses).completionTokens)
  speaks : responses ≠ [] → speaker s.attempt.messages = lastAnswerer responses

/-- The run never writes anything but the counts of all that it has heard. -/
abbrev Safe (branchId : String) {α : Type} (p : Program α) (Q : α → Own → Prop) (s : Own) : Prop :=
  Prog.safe Own.exec Eq (fun _ s' => Billed branchId s') p
    (fun r s' => match r with
      | .ok a => Q a s'
      | .error _ => True) s

theorem latestResponse_append (messages more : List ModelMessage) :
    latestResponse (messages ++ more) =
      ((latestResponse more).or
        ((latestResponse messages).map (fun found => (found.1, found.2 ++ more)))) := by
  induction messages with
  | nil => simp [latestResponse]
  | cons message messages ih =>
    simp only [List.cons_append, latestResponse, ih]
    cases latestResponse more with
    | some found => rfl
    | none =>
      cases latestResponse messages with
      | some found => rfl
      | none => cases message <;> rfl

theorem speaker_response (messages : List ModelMessage) (response : ModelResponse) :
    speaker (messages ++ [.response response]) = answerer response := by
  simp [speaker, latestResponse_append, latestResponse, answerer]

/-- Requests behind a history do not change who spoke last. -/
theorem speaker_requests (messages : List ModelMessage) {more : List ModelMessage}
    (h : ∀ message ∈ more, ∃ request, message = .request request) :
    speaker (messages ++ more) = speaker messages := by
  have hnone : latestResponse more = none := by
    induction more with
    | nil => rfl
    | cons message more ih =>
      obtain ⟨request, rfl⟩ := h message List.mem_cons_self
      simp [latestResponse, ih (fun m hm => h m (List.mem_cons_of_mem _ hm))]
  simp only [speaker, latestResponse_append, hnone, Option.none_or]
  cases latestResponse messages <;> rfl

section
variable {branchId : String} {responses : List ModelResponse} {s : Own} {α β : Type}

theorem safe_bind {p : Program α} {f : α → Program β} {Q : β → Own → Prop}
    (h : Safe branchId p (fun a s' => Safe branchId (f a) Q s') s) :
    Safe branchId (p.bind f) Q s :=
  (Prog.safe_bind _ _ _ _).mpr (Prog.safe_post h (fun r _ hr => by cases r <;> exact hr))

theorem safe_post {p : Program α} {Q Q' : α → Own → Prop} (h : Safe branchId p Q s)
    (hQ : ∀ a s', Q a s' → Q' a s') : Safe branchId p Q' s :=
  Prog.safe_post h (fun r s' hr => by
    cases r with
    | ok a => exact hQ a s' hr
    | error e => exact hr)

theorem Open.billed (h : Open branchId responses s) : Billed branchId s := .inl h.1

theorem heard_snoc (did : List Done) (d : Done) :
    heard (did ++ [d]) = heard did ++ (heardOf d).toList := by
  unfold heard
  rw [List.filterMap_append]
  cases h : heardOf d <;> simp [h]

theorem wrote_snoc (branchId : String) (did : List Done) (d : Done) :
    wrote branchId (did ++ [d]) = wrote branchId did ++ (wroteOf branchId d).toList := by
  unfold wrote
  rw [List.filterMap_append]
  cases h : wroteOf branchId d <;> simp [h]

variable (branchId) in
/-- Operations that neither make nor replay a request and write no counts. -/
theorem still_step {o : Op} {r : Except Exn o.Res} {s' : Own} (ho : Still o)
    (he : Own.exec o s r s') :
    heard s'.done = heard s.done ∧ wrote branchId s'.done = wrote branchId s.done := by
  obtain ⟨-, rfl⟩ := he
  simp [heard_snoc, wrote_snoc, still_heard ho, still_wrote branchId ho]

theorem safe_still {p : Program α} {Q : α → Own → Prop} (hp : p.AllOps Still)
    (h : Billed branchId s)
    (hQ : ∀ a s', heard s'.done = heard s.done → wrote branchId s'.done = wrote branchId s.done →
      Q a s') : Safe branchId p Q s := by
  induction p generalizing s with
  | ret a => exact hQ a s rfl rfl
  | raise e => trivial
  | call o k ih =>
    rintro _ rfl r s' he
    obtain ⟨hheard, hwrote⟩ := still_step branchId hp.1 he
    have hbilled : Billed branchId s' := by
      unfold Billed
      rw [hheard, hwrote]
      exact h
    refine ⟨hbilled, ih r (hp.2 r) hbilled ?_⟩
    intro a s'' hheard' hwrote'
    exact hQ a s'' (hheard'.trans hheard) (hwrote'.trans hwrote)

/-- What an attempt does besides its requests leaves what it counts. -/
theorem safe_calm {p : Program α} (hp : p.AllOps Calm) (h : Tally branchId responses s) :
    Safe branchId p (fun _ s' => Tally branchId responses s') s := by
  induction p generalizing s with
  | ret a => exact h
  | raise e => trivial
  | call o k ih =>
    rintro _ rfl r s' he
    obtain ⟨hheard, hwrote⟩ := still_step branchId hp.1.still he
    have hsame : s'.attempt.usage = s.attempt.usage ∧
        s'.attempt.messages = s.attempt.messages := by
      obtain ⟨-, rfl⟩ := he
      cases o with
      | modify f => exact hp.1 _
      | _ => exact ⟨rfl, rfl⟩
    have htally : Tally branchId responses s' := by
      refine ⟨⟨hwrote.trans h.open_.1, hheard.trans h.open_.2⟩, hsame.1.trans h.usage, ?_⟩
      intro hne
      rw [hsame.2]
      exact h.speaks hne
    exact ⟨htally.open_.billed, ih r (hp.2 r) htally⟩

/-- Setting the attempt's memory while nothing has been written. -/
theorem safe_update {f : Attempt → Attempt} (h : Open branchId responses s)
    (responses' : List ModelResponse) (ht : ∀ s', Open branchId responses s' →
      s'.attempt = f s.attempt → Tally branchId responses' s') :
    Safe branchId (update f) (fun _ s' => Tally branchId responses' s') s := by
  apply (Prog.safe_op _ _ _).mpr
  rintro _ rfl r s' he
  obtain ⟨hheard, hwrote⟩ := still_step branchId (o := .modify f) trivial he
  have hopen : Open branchId responses s' := ⟨hwrote.trans h.1, hheard.trans h.2⟩
  refine ⟨hopen.billed, ?_⟩
  obtain ⟨-, rfl⟩ := he
  cases r with
  | ok a => exact ht _ hopen rfl
  | error e => trivial

/-! The model boundary. -/

section
variable {eff : Effects} {ai : PydanticAI}

/-- One response more has been heard than the attempt counts. -/
def Owes (branchId : String) (responses : List ModelResponse) (response : ModelResponse)
    (s : Own) : Prop :=
  Open branchId (responses ++ [response]) s ∧
    s.attempt.usage = ((spent responses).promptTokens, (spent responses).completionTokens)

/-- Asking the provider. -/
theorem safe_provide (request : RequestContext) (h : Tally branchId responses s) :
    Prog.safe Own.exec Eq (fun _ s' => Billed branchId s') (perform (.provide request))
      (fun r s' => match r with
        | .ok response => Owes branchId responses response s'
        | .error _ => Tally branchId responses s') s := by
  apply (Prog.safe_op _ _ _).mpr
  rintro _ rfl r s' ⟨-, rfl⟩
  have hwrote : wrote branchId (s.done ++ [⟨.provide request, r⟩]) = [] := by
    rw [wrote_snoc, h.open_.1]
    rfl
  refine ⟨.inl hwrote, ?_⟩
  cases r with
  | ok response =>
    refine ⟨⟨hwrote, ?_⟩, h.usage⟩
    rw [heard_snoc, h.open_.2]
    rfl
  | error e =>
    refine ⟨⟨hwrote, ?_⟩, h.usage, h.speaks⟩
    rw [heard_snoc, h.open_.2]
    exact List.append_nil _

/-- A calm operation between a response and its count. -/
theorem safe_owed {o : Op} {response : ModelResponse} (ho : Still o) (hmodify : ∀ f, o ≠ .modify f)
    (h : Owes branchId responses response s) :
    Safe branchId (perform o) (fun _ s' => Owes branchId responses response s') s := by
  apply (Prog.safe_op _ _ _).mpr
  rintro _ rfl r s' he
  obtain ⟨hheard, hwrote⟩ := still_step branchId ho he
  have howes : Owes branchId responses response s' := by
    refine ⟨⟨hwrote.trans h.1.1, hheard.trans h.1.2⟩, ?_⟩
    obtain ⟨-, rfl⟩ := he
    cases o with
    | modify f => exact absurd rfl (hmodify f)
    | _ => exact h.2
  refine ⟨howes.1.billed, ?_⟩
  cases r with
  | ok a => exact howes
  | error e => trivial

theorem safe_requestOnce (store : View) (key : String) (request : RequestContext)
    (h : Tally branchId responses s) :
    Safe branchId (eff.requestOnce store key request (fun request => perform (.provide request)))
      (fun response s' => Owes branchId responses response s') s := by
  have hstart : (store.start eff.branchId key eff.token).AllOps Calm := calm_op trivial
  apply safe_bind
  apply safe_post (safe_calm hstart h)
  intro inserted s₁ h₁
  split
  · apply safe_bind
    apply (Prog.safe_tryCatch _ _ _ _).mpr
    apply Prog.safe_post (safe_provide request h₁)
    intro r s₂ h₂
    cases r with
    | ok response =>
      have hfinish : Safe branchId
          (store.finishEffect eff.branchId key (.modelResult response) eff.token)
          (fun _ s' => Owes branchId responses response s') s₂ :=
        safe_owed trivial (by simp) h₂
      exact safe_bind (safe_post hfinish (fun _ _ h₃ => h₃))
    | error e =>
      -- A reported failure takes the intent back, and is raised again.
      simp only [Effects.unasked]
      split
      · trivial
      · have hforget : (store.forget eff.branchId key eff.token).AllOps Calm := calm_op trivial
        exact safe_bind (safe_post (safe_calm hforget h₂) (fun _ _ _ => trivial))
  · trivial

/-- A model request, made or replayed, is heard once. -/
theorem safe_wrapModelRequest (digest : Json → String) (request : RequestContext)
    (h : Tally branchId responses s) :
    Safe branchId
      (eff.wrapModelRequest digest request (fun request => perform (.provide request)))
      (fun response s' => Owes branchId responses response s') s := by
  unfold Effects.wrapModelRequest
  split
  · apply Prog.safe_post (safe_provide request h)
    intro r s' hr
    cases r with
    | ok response => exact hr
    | error e => trivial
  · rename_i store _
    apply safe_bind
    apply (Prog.safe_op _ _ _).mpr
    rintro _ rfl r s₁ ⟨-, rfl⟩
    have hwrote : wrote branchId (s.done ++ [⟨.ledger (.read (store.filed eff.branchId)
        (Effects.modelStepKey digest request)), r⟩]) = [] := by
      rw [wrote_snoc, h.open_.1]
      rfl
    refine ⟨.inl hwrote, ?_⟩
    -- Unless the reply is a recorded response, the read is not heard.
    have hkept : (∀ response, r ≠ .ok (.done (.modelResult response))) →
        Tally branchId responses ⟨Own.after s.attempt (.ledger (.read (store.filed eff.branchId)
          (Effects.modelStepKey digest request))), s.done ++ [⟨.ledger (.read
            (store.filed eff.branchId) (Effects.modelStepKey digest request)), r⟩]⟩ := by
      intro hne
      refine ⟨⟨hwrote, ?_⟩, h.usage, h.speaks⟩
      have hnone : heardOf ⟨.ledger (.read (store.filed eff.branchId)
          (Effects.modelStepKey digest request)), r⟩ = none := by
        cases r with
        | error e => rfl
        | ok step =>
          cases step with
          | done value =>
            cases value with
            | modelResult response => exact absurd rfl (hne response)
            | _ => rfl
          | _ => rfl
      rw [heard_snoc, h.open_.2, hnone]
      exact List.append_nil _
    cases r with
    | error e => trivial
    | ok step =>
      cases step with
      | done value =>
        cases value with
        | modelResult response =>
          refine ⟨⟨hwrote, ?_⟩, h.usage⟩
          rw [heard_snoc, h.open_.2]
          simp [heardOf, Effects.modelStepKey, isModelKey_modelKey]
        | _ => trivial
      | running =>
        simp only
        split
        · have hforget : (store.forget eff.branchId (Effects.modelStepKey digest request)
              eff.token).AllOps Calm := calm_op trivial
          apply safe_bind
          apply safe_post (safe_calm hforget (hkept (by simp)))
          exact fun _ s₂ h₂ => safe_requestOnce _ _ _ h₂
        · trivial
      | absent => exact safe_requestOnce _ _ _ (hkept (by simp))

/-! The agent graph. -/

theorem calm_prepareTools : ai.prepareTools.AllOps Calm :=
  calm_update (fun _ => ⟨rfl, rfl⟩)

/-- Some responses have been heard, all counted. -/
def Counted (branchId : String) (s : Own) : Prop := ∃ responses, Tally branchId responses s

theorem Counted.billed (h : Counted branchId s) : Billed branchId s := by
  obtain ⟨responses, h⟩ := h
  exact h.open_.billed

theorem safe_quiet {p : Program α} {Q : α → Own → Prop} (hp : p.AllOps Calm)
    (h : Counted branchId s) (hQ : ∀ a s', Counted branchId s' → Q a s') :
    Safe branchId p Q s := by
  obtain ⟨responses, h⟩ := h
  apply safe_post (safe_calm hp h)
  exact fun a s' h' => hQ a s' ⟨responses, h'⟩

theorem safe_requestNode (request : ModelRequest) (h : Counted branchId s) :
    Safe branchId (ai.requestNode eff request) (fun _ s' => Counted branchId s') s := by
  obtain ⟨responses, h⟩ := h
  apply safe_bind
  apply safe_post (safe_update h.open_ responses ?_)
  · intro _ s₁ h₁
    apply safe_bind
    apply safe_post (safe_calm calm_prepareTools h₁)
    intro _ s₂ h₂
    apply safe_bind
    apply safe_post (safe_calm calm_attempt h₂)
    intro a s₃ h₃
    apply safe_bind
    apply safe_post (safe_wrapModelRequest ai.digest _ h₃)
    intro response s₄ h₄
    apply safe_bind
    apply safe_post (safe_update h₄.1 (responses ++ [response]) ?_)
    · exact fun _ s₅ h₅ => ⟨_, h₅⟩
    · intro s₅ hopen hattempt
      refine ⟨hopen, ?_, ?_⟩
      · rw [hattempt]
        simp [h₄.2, spent]
      · intro _
        rw [hattempt, speaker_response]
        simp [lastAnswerer, answerer]
  · intro s₁ hopen hattempt
    refine ⟨hopen, ?_, ?_⟩
    · rw [hattempt]
      exact h.usage
    · intro hne
      rw [hattempt, ← h.speaks hne]
      exact speaker_requests _ (by simp)

theorem safe_callToolsNode (gathers : Gathers ai) (closes : Closes ai) (response : ModelResponse)
    (results : DeferredToolResults) (h : Counted branchId s) :
    Safe branchId (ai.callToolsNode eff response results) (fun _ s' => Counted branchId s') s := by
  apply safe_bind
  apply safe_quiet calm_attempt h
  intro a s₁ h₁
  have hcalls : (ai.gather ((ai.round response a.messages results).map
      (fun item => ai.executeCall eff item.1 item.2))).AllOps Calm := by
    apply gathers
    intro call hcall
    obtain ⟨item, -, rfl⟩ := List.mem_map.mp hcall
    exact calm_executeCall ai item.1 item.2
  apply safe_bind
  apply safe_quiet hcalls h₁
  intro outcomes s₂ h₂
  split
  · trivial
  · exact h₂
  · rename_i output appended hsettle
    obtain ⟨responses, h₂⟩ := h₂
    apply safe_bind
    apply safe_post (safe_update h₂.open_ responses ?_)
    · exact fun _ s₃ h₃ => ⟨responses, h₃⟩
    · intro s₃ hopen hattempt
      refine ⟨hopen, ?_, ?_⟩
      · rw [hattempt]
        exact h₂.usage
      · intro hne
        rw [hattempt, ← h₂.speaks hne]
        exact speaker_requests _ (closes _ _ _ _ _ hsettle)

/-- Entering a history: nothing has been heard yet, so who spoke last does not matter. -/
theorem safe_enterNode (prompt : Option Json) (results : DeferredToolResults)
    (h : Tally branchId [] s) :
    Safe branchId (ai.enterNode prompt results) (fun _ s' => Tally branchId [] s') s := by
  apply safe_bind
  apply safe_post (safe_calm calm_attempt h)
  intro a s₁ h₁
  split
  · trivial
  · apply safe_bind
    apply safe_post (safe_update h₁.open_ [] ?_)
    · intro _ s₂ h₂
      exact safe_bind (safe_post (safe_calm calm_prepareTools h₂) (fun _ _ h₃ => h₃))
    · intro s₂ hopen hattempt
      refine ⟨hopen, ?_, by simp⟩
      rw [hattempt]
      exact h₁.usage

/-- Where a run stands before a node: before the first, nothing has been heard. -/
def Before (branchId : String) (node : Node) (s : Own) : Prop :=
  Counted branchId s ∧ (node = .userPrompt → Tally branchId [] s)

/-- Where a node leaves a run. -/
def After (branchId : String) (result : NodeResult) (s : Own) : Prop :=
  Counted branchId s ∧ ∀ next, result = .node next → Before branchId next s

/-- A run does not come back to where it began. -/
abbrev Onward (p : Program NodeResult) : Prop :=
  p.AllRets (fun result => result ≠ .node .userPrompt)

theorem Counted.after (h : Counted branchId s) {result : NodeResult}
    (hresult : result ≠ .node .userPrompt) : After branchId result s := by
  refine ⟨h, ?_⟩
  intro next hnext
  refine ⟨h, ?_⟩
  intro hprompt
  exact absurd (hprompt ▸ hnext) hresult

theorem onward_decideFinish {result : NodeResult} (h : result ≠ .node .userPrompt) :
    Onward (eff.decideFinish result) := by
  cases result with
  | node next => exact h
  | finish output =>
    simp only [Effects.decideFinish]
    split
    · exact h
    · apply Prog.allRets_then
      intro late
      split
      · exact Prog.allRets_then _ (fun _ => by simp [Prog.AllRets])
      · split
        · exact Prog.allRets_then _ (fun _ => by simp [Prog.AllRets])
        · apply Prog.allRets_then
          intro here
          apply Prog.allRets_then
          intro decision
          cases decision with
          | proceed steers => simp [Prog.AllRets]
          | halt reason => exact Prog.allRets_then _ (fun _ => by simp [Prog.AllRets])

theorem onward_wrapNodeRun (prompt : Option Json) (results : DeferredToolResults) {node : Node}
    (h : node ≠ .userPrompt) : Onward (eff.wrapNodeRun node (ai.runNode eff prompt results)) := by
  apply Prog.allRets_then
  intro _
  cases node with
  | userPrompt => exact absurd rfl h
  | modelRequest request =>
    apply Prog.allRets_then
    intro pending
    apply Prog.allRets_then
    intro decision
    split
    · exact Prog.allRets_then _ (fun _ => Prog.allRets_then _ (fun _ => by simp [Prog.AllRets]))
    · apply Prog.allRets_then
      intro _
      apply Prog.allRets_then
      intro _
      apply Prog.allRets_then
      intro _
      have hrequest : ∀ request, Onward (ai.requestNode eff request) := by
        intro request
        apply Prog.allRets_then
        intro _
        apply Prog.allRets_then
        intro _
        apply Prog.allRets_then
        intro a
        apply Prog.allRets_then
        intro response
        exact Prog.allRets_then _ (fun _ => by simp [Prog.AllRets])
      exact hrequest _
  | callTools response results' =>
    have hround : Onward (ai.callToolsNode eff response results') := by
      apply Prog.allRets_then
      intro a
      apply Prog.allRets_then
      intro outcomes
      split
      · trivial
      · simp [Prog.AllRets]
      · exact Prog.allRets_then _ (fun _ => by simp [Prog.AllRets])
    apply Prog.allRets_then
    intro _
    apply Prog.allRets_then
    intro _
    apply Prog.allRets_bind hround
    intro result hresult
    exact Prog.allRets_then _ (fun _ => onward_decideFinish hresult)

theorem safe_admit (request : ModelRequest) {handler : Node → Program NodeResult}
    (hhandler : ∀ request s', Counted branchId s' →
      Safe branchId (handler (.modelRequest request)) (fun _ s'' => Counted branchId s'') s')
    (h : Counted branchId s) :
    Safe branchId (eff.admit_ request handler) (fun _ s' => Counted branchId s') s := by
  apply safe_bind
  apply safe_quiet calm_drain h
  intro pending s₁ h₁
  apply safe_bind
  apply safe_quiet (calm_steered request pending) h₁
  intro decision s₂ h₂
  split
  · exact safe_quiet (calm_halt _) h₂ (fun _ _ h₃ => h₃)
  · rename_i inputs steers
    have hset : (update (fun a => { a with
        request := some (Effects.rewritten request inputs steers) })).AllOps Calm :=
      calm_update (fun _ => ⟨rfl, rfl⟩)
    apply safe_bind
    apply safe_quiet hset h₂
    intro _ s₃ h₃
    apply safe_bind
    apply safe_quiet (calm_recordMessage _) h₃
    intro _ s₄ h₄
    apply safe_bind
    apply safe_quiet (calm_admitInputs inputs) h₄
    exact fun _ s₅ h₅ => hhandler _ s₅ h₅

/-- One node. -/
theorem safe_wrapNodeRun (gathers : Gathers ai) (closes : Closes ai) (prompt : Option Json)
    (results : DeferredToolResults) {node : Node} (h : Before branchId node s) :
    Safe branchId (eff.wrapNodeRun node (ai.runNode eff prompt results))
      (fun result s' => After branchId result s') s := by
  obtain ⟨hcounted, hfirst⟩ := h
  have hturn : (update (fun a => { a with turn := a.runStep })).AllOps Calm :=
    calm_update (fun _ => ⟨rfl, rfl⟩)
  cases node with
  | userPrompt =>
    apply safe_bind
    apply safe_post (safe_calm hturn (hfirst rfl))
    intro _ s₁ h₁
    apply safe_post (safe_enterNode prompt results h₁)
    intro result s₂ h₂
    exact ⟨⟨[], h₂⟩, fun next _ => ⟨⟨[], h₂⟩, fun _ => h₂⟩⟩
  | modelRequest request =>
    have hgo : Safe branchId (eff.wrapNodeRun (.modelRequest request)
        (ai.runNode eff prompt results)) (fun _ s' => Counted branchId s') s := by
      apply safe_bind
      apply safe_quiet hturn hcounted
      exact fun _ s₁ h₁ => safe_admit request (fun _ _ => safe_requestNode _) h₁
    have hrets := Prog.safe_rets (onward_wrapNodeRun prompt results (by simp)) hgo
    apply Prog.safe_post hrets
    intro r s' ⟨hr, honward⟩
    cases r with
    | ok result => exact hr.after (honward result rfl)
    | error e => trivial
  | callTools response results' =>
    have hgo : Safe branchId (eff.wrapNodeRun (.callTools response results')
        (ai.runNode eff prompt results)) (fun _ s' => Counted branchId s') s := by
      have hreset : (update (fun a => { a with suspendedThisRound := false })).AllOps Calm :=
        calm_update (fun _ => ⟨rfl, rfl⟩)
      apply safe_bind
      apply safe_quiet hturn hcounted
      intro _ s₁ h₁
      apply safe_bind
      apply safe_quiet hreset h₁
      intro _ s₂ h₂
      apply safe_bind
      apply safe_quiet (calm_recordPending response) h₂
      intro _ s₃ h₃
      apply safe_bind
      apply safe_post (safe_callToolsNode gathers closes response results' h₃)
      intro result s₄ h₄
      apply safe_bind
      apply safe_quiet (calm_recordTurn response result) h₄
      exact fun _ s₅ h₅ => safe_quiet (calm_decideFinish result) h₅ (fun _ _ h₆ => h₆)
    have hrets := Prog.safe_rets (onward_wrapNodeRun prompt results (by simp)) hgo
    apply Prog.safe_post hrets
    intro r s' ⟨hr, honward⟩
    cases r with
    | ok result => exact hr.after (honward result rfl)
    | error e => trivial

theorem calm_advance (next : Node) : (PydanticAI.advance next).AllOps Calm := by
  apply calm_update
  intro a
  split
  · split <;> exact ⟨rfl, rfl⟩
  · exact ⟨rfl, rfl⟩

theorem safe_iterate (gathers : Gathers ai) (closes : Closes ai) (prompt : Option Json)
    (results : DeferredToolResults) (fuel : Nat) {node : Node} (h : Before branchId node s) :
    Safe branchId (ai.iterate eff prompt results fuel node)
      (fun _ s' => Counted branchId s') s := by
  induction fuel generalizing node s with
  | zero => trivial
  | succ fuel ih =>
    apply safe_bind
    apply safe_post (safe_wrapNodeRun gathers closes prompt results h)
    intro result s₁ ⟨h₁, hnext⟩
    cases result with
    | finish output => exact h₁
    | node next =>
      obtain ⟨⟨responses, hnow⟩, hfirst⟩ := hnext next rfl
      apply safe_bind
      by_cases hprompt : next = .userPrompt
      · apply safe_post (safe_calm (calm_advance next) (hfirst hprompt))
        exact fun _ s₂ h₂ => ih ⟨⟨[], h₂⟩, fun _ => h₂⟩
      · apply safe_post (safe_calm (calm_advance next) hnow)
        exact fun _ s₂ h₂ => ih ⟨⟨responses, h₂⟩, fun he => absurd he hprompt⟩

/-- A run of the agent, from a fresh start, counts all that it hears. -/
theorem safe_run (gathers : Gathers ai) (closes : Closes ai) (prompt : Option Json)
    (history : List ModelMessage) (results : DeferredToolResults) (h : Tally branchId [] s) :
    Safe branchId (ai.run eff prompt history results) (fun _ s' => Counted branchId s') s := by
  apply safe_bind
  apply safe_post (safe_update h.open_ [] ?_)
  · intro _ s₁ h₁
    apply safe_bind
    apply safe_post (safe_iterate gathers closes prompt results ai.nodeLimit
      ⟨⟨[], h₁⟩, fun _ => h₁⟩)
    intro output s₂ h₂
    have hended : (update (fun a => { a with
        request := none, reentered := false, closing := false })).AllOps Calm :=
      calm_update (fun _ => ⟨rfl, rfl⟩)
    exact safe_bind (safe_quiet hended h₂ (fun _ _ h₃ => h₃))
  · intro s₁ hopen hattempt
    refine ⟨hopen, ?_, by simp⟩
    rw [hattempt]
    exact h.usage

end

/-! The rest of an attempt. -/

variable {rt : AgentRuntime} {e : Execution} {agent : Agent}

theorem calm_openBranch (history : Option (List ModelMessage)) :
    (rt.openBranch e history).AllOps Calm := by
  have hopening : (Branch.opening e.conversation e.branchId).AllOps Calm := by
    apply Prog.allOps_bind
    · exact calm_op trivial
    intro entries
    apply Prog.allOps_bind
    · apply Prog.allOps_bind
      · exact calm_op trivial
      · exact fun _ => calm_op trivial
    · exact fun _ => calm_update (fun _ => ⟨rfl, rfl⟩)
  unfold AgentRuntime.openBranch
  split
  · apply Prog.allOps_bind hopening
    intro _
    split
    · exact Prog.allOps_bind calm_attempt (fun _ => trivial)
    · exact Prog.allOps_bind (calm_replace _ _) (fun _ => trivial)
  · trivial

theorem calm_admitPrompt (token : Nat) (prompt promptId : Option String) :
    (rt.admitPrompt e token prompt promptId).AllOps Calm := by
  unfold AgentRuntime.admitPrompt
  split
  · apply Prog.allOps_bind
    · exact calm_op trivial
    intro instant
    apply Prog.allOps_bind
    · exact calm_op trivial
    intro inserted
    split
    · apply Prog.allOps_bind
      · exact calm_op trivial
      · exact fun _ => trivial
    · trivial
  · trivial

theorem calm_replaceFinal : (rt.replaceFinal e).AllOps Calm := by
  unfold AgentRuntime.replaceFinal
  split
  · exact Prog.allOps_bind calm_attempt (fun _ => calm_replace _ _)
  · trivial

/-- The rows an attempt that counts these responses writes. -/
theorem Tally.usageOf (h : Tally branchId responses s) :
    AgentRuntime.usageOf s.attempt = bill responses := by
  have htotal : s.attempt.usage.1 + s.attempt.usage.2 = (spent responses).totalTokens := by
    rw [h.usage]
    rfl
  unfold AgentRuntime.usageOf bill
  split
  · rename_i hzero
    rw [if_pos (htotal ▸ hzero)]
  · rename_i hzero
    have hne : responses ≠ [] := by
      intro hnil
      rw [htotal, hnil] at hzero
      exact hzero rfl
    rw [if_neg (htotal ▸ hzero)]
    have hspeaks := h.speaks hne
    simp only [speaker] at hspeaks
    rw [hspeaks, h.usage]
    rfl

/-- The counts are written in one operation, if there are any. -/
theorem safe_rows (h : Tally e.branchId responses s) :
    Safe e.branchId ((bill responses).forM
      (fun item => perform (.recordModelUsage e.branchId item.1 item.2)))
      (fun _ _ => True) s := by
  unfold bill
  split
  · trivial
  · rename_i htokens
    apply safe_bind
    apply (Prog.safe_op _ _ _).mpr
    rintro _ rfl r s' ⟨-, rfl⟩
    have hbilled : Billed e.branchId ⟨Own.after s.attempt (.recordModelUsage e.branchId
        (lastAnswerer responses) (spent responses)), s.done ++ [⟨.recordModelUsage e.branchId
          (lastAnswerer responses) (spent responses), r⟩]⟩ := by
      right
      rw [wrote_snoc, heard_snoc, h.open_.1, h.open_.2]
      simp [wroteOf, heardOf, bill, htokens]
    refine ⟨hbilled, ?_⟩
    cases r <;> trivial

theorem safe_close (output : Output) (h : Counted e.branchId s) :
    Safe e.branchId (rt.close e output) (fun _ _ => True) s := by
  obtain ⟨responses, h⟩ := h
  apply safe_bind
  apply (Prog.safe_op _ _ _).mpr
  rintro _ rfl r s₁ he
  obtain ⟨hheard, hwrote⟩ := still_step e.branchId (o := .get) trivial he
  obtain ⟨hreply, rfl⟩ := he
  obtain rfl : r = .ok s.attempt := hreply
  have h₁ : Tally e.branchId responses ⟨s.attempt, s.done ++ [⟨.get, .ok s.attempt⟩]⟩ :=
    ⟨⟨hwrote.trans h.open_.1, hheard.trans h.open_.2⟩, h.usage, h.speaks⟩
  refine ⟨h₁.open_.billed, ?_⟩
  apply safe_bind
  apply safe_post (Q := fun _ _ => True)
  · unfold AgentRuntime.closeRecord
    split
    · have hnow : now.AllOps Calm := calm_op trivial
      have hrecord : ∀ fields, (perform (.recordBranch e.branchId fields)).AllOps Calm :=
        fun fields => calm_op trivial
      apply safe_bind
      apply safe_post (safe_calm hnow h₁)
      intro instant s₂ h₂
      apply safe_bind
      apply safe_post (safe_calm (hrecord _) h₂)
      intro _ s₃ h₃
      rw [h.usageOf]
      exact safe_rows h₃
    · trivial
  · exact fun _ _ _ => trivial

theorem calm_park {γ : Type} (conversation : String) (requests : DeferredToolRequests)
    (token : Nat) : (rt.park (α := γ) e conversation eff requests token).AllOps Calm :=
  allOps_park trivial (fun _ _ => trivial) (fun _ _ _ => trivial)

/-- An attempt writes no counts but those of all it heard, and that only at its end. -/
theorem safe_attemptRun (gathers : Gathers agent.toPydanticAI) (closes : Closes agent.toPydanticAI)
    (token : Nat) (prompt : Option String) (options : Options) (h : Open e.branchId [] s) :
    Safe e.branchId (rt.attemptRun e token agent prompt options) (fun _ _ => True) s := by
  apply safe_bind
  apply safe_post (safe_update h [] ?_)
  · intro _ s₁ h₁
    apply safe_bind
    apply safe_post (safe_calm (calm_openBranch _) h₁)
    intro history s₂ h₂
    apply safe_bind
    apply safe_post (safe_calm (calm_admitPrompt token prompt _) h₂)
    intro prompt' s₃ h₃
    apply safe_bind
    apply safe_post (safe_run gathers closes _ history _ h₃)
    intro output s₄ h₄
    apply safe_bind
    apply safe_quiet calm_replaceFinal h₄
    intro _ s₅ h₅
    split
    · exact safe_quiet (calm_park _ _ _) h₅ (fun _ _ _ => trivial)
    · exact safe_close _ h₅
  · intro s₁ hopen hattempt
    refine ⟨hopen, ?_, by simp⟩
    rw [hattempt]
    rfl

/-! The entry points. -/

theorem still_op {o : Op} (h : Still o) : (perform o).AllOps Still := (Prog.allOps_op o).mpr h

/-- Whatever a call does, what it has written stays billed. -/
theorem safe_billed {p : Program α} {Q : α → Own → Prop} (h : Safe branchId p Q s)
    (hbilled : Billed branchId s) :
    Prog.safe Own.exec Eq (fun _ s' => Billed branchId s') p
      (fun r s' => (∀ a, r = .ok a → Q a s') ∧ Billed branchId s') s := by
  apply Prog.safe_post (Prog.safe_carry (P := Billed branchId) h (fun _ _ he hb => he ▸ hb)
    (fun _ _ hb _ => hb) hbilled)
  intro r s' h
  refine ⟨?_, h.2⟩
  rintro a rfl
  exact h.1

/-- Where a call is on its way: until its attempt it has heard and written nothing. -/
def course (branchId : String) : Course Own where
  idle := Open branchId []
  named _ := Open branchId []
  leased _ := Open branchId []
  looked _ _ := Open branchId []
  clear _ := Open branchId []
  decided _ _ _ := Open branchId []
  resuming _ _ _ := Open branchId []
  acted _ _ _ := Billed branchId
  ends _ _ := Billed branchId
  closes _ := Billed branchId

/-- What a call does around its attempt. -/
theorem billed_still {p : Program α} (hp : p.AllOps Still) (h : Billed branchId s) :
    Prog.safe Own.exec Eq (fun _ s' => Billed branchId s') p (fun _ => Billed branchId) s :=
  Prog.safe_post (safe_billed (safe_still hp h (fun _ _ _ _ => trivial)) h) (fun _ _ h => h.2)

theorem Open.still {p : Program α} (hp : p.AllOps Still) (h : Open branchId [] s) :
    Prog.safe Own.exec Eq (fun _ s' => Billed branchId s') p
      (Prog.either (fun _ => Open branchId []) (fun _ => Billed branchId)) s := by
  have hopen : Safe branchId p (fun _ s' => Open branchId [] s') s :=
    safe_still hp h.billed (fun a s' hheard hwrote => ⟨hwrote.trans h.1, hheard.trans h.2⟩)
  exact Prog.safe_either (safe_billed hopen h.billed) (fun a _ h => h.1 a rfl) (fun _ _ h => h.2)

theorem leases : Course.Leases Own.exec Eq (fun _ s' => Billed e.branchId s') (course e.branchId)
    rt e (View.filed ⟨e.conversationId⟩ e.branchId) where
  here := rfl
  fails _ _ h := h.billed
  bare _ := ⟨fun _ h => h, fun _ _ h => h⟩
  names _ h := h.still (still_op trivial)
  acquires _ _ h := Prog.safe_either (h.still (still_op trivial))
    (fun _ _ h => ⟨fun _ => h, fun _ => h.billed⟩) (fun _ _ h => h)
  releases _ _ _ _ h := Prog.safe_either (billed_still (still_op trivial) h) (fun _ _ h => h)
    (fun _ _ h => h)

theorem still_requireStore : (rt.requireStore e).AllOps Still := by
  unfold AgentRuntime.requireStore
  split <;> trivial

theorem still_active : (rt.active e).AllOps Still := by
  have hkey : isModelKey Effects.activeSuspension = false := by decide
  apply Prog.allOps_bind still_requireStore
  intro store
  apply Prog.allOps_bind
  · exact still_op hkey
  · exact fun _ => trivial

theorem still_queueBehind (active : Suspension) (text : String) (promptId : Option String) :
    (rt.queueBehind (α := α) e active text promptId).AllOps Still := by
  have hsubmit : ∀ item, (rt.submit e item).AllOps Still := by
    intro item
    apply Prog.allOps_bind
    · unfold AgentRuntime.inputIdOf
      split
      · exact still_op trivial
      · exact still_op trivial
      · trivial
    intro id
    apply Prog.allOps_bind still_requireStore
    intro store
    apply Prog.allOps_bind
    · exact still_op trivial
    · exact fun _ => trivial
  apply Prog.allOps_bind
  · exact still_op trivial
  intro instant
  apply Prog.allOps_bind (hsubmit _)
  intro _
  split <;> trivial

theorem rejoined_branchId (active : Suspension) :
    (AgentRuntime.rejoined e active).branchId = e.branchId := by
  unfold AgentRuntime.rejoined executionContext
  split <;> rfl

section
variable (gathers : Gathers agent.toPydanticAI) (closes : Closes agent.toPydanticAI)
include gathers closes

theorem billed_attemptRun (token : Nat) (prompt : Option String) (options : Options)
    (h : Open e.branchId [] s) : Prog.safe Own.exec Eq (fun _ s' => Billed e.branchId s')
      (rt.attemptRun e token agent prompt options) (fun _ => Billed e.branchId) s :=
  Prog.safe_post (safe_billed (safe_attemptRun gathers closes token prompt options h) h.billed)
    (fun _ _ h => h.2)

/-- Every step of a call leaves its branch billed. -/
theorem steps (token : Nat) : Course.Steps Own.exec Eq (fun _ s' => Billed e.branchId s')
    (course e.branchId) rt e (View.filed ⟨e.conversationId⟩ e.branchId) token agent where
  here := rfl
  leased_fails _ _ h := h.billed
  looked_fails _ _ _ h := h.billed
  clear_fails _ _ h := h.billed
  decided_fails _ _ _ _ h := h.billed
  attempts prompt options _ h := billed_attemptRun gathers closes token prompt options h
  looks _ h := by
    have hkey : isModelKey Effects.activeSuspension = false := by decide
    exact h.still (still_op hkey)
  reads _ _ h _ := by
    have hkey : isModelKey Effects.pendingRound = false := by decide
    exact h.still (still_op hkey)
  again options _ h := billed_attemptRun gathers closes token none options h
  marks _ _ _ h := h.still (still_op trivial)
  acts active _ options s h := by
    have hopen : Open (AgentRuntime.rejoined e active).branchId [] s := by
      rw [rejoined_branchId]
      exact h
    have hattempt : Prog.safe Own.exec Eq
        (fun _ s' => Billed (AgentRuntime.rejoined e active).branchId s')
        (rt.attemptRun (AgentRuntime.rejoined e active) token agent none options)
        (fun _ => Billed (AgentRuntime.rejoined e active).branchId) s :=
      billed_attemptRun gathers closes token none options hopen
    rw [rejoined_branchId] at hattempt
    exact Prog.safe_either hattempt (fun _ _ h => h) (fun _ _ h => h)
  completes _ _ _ h := Prog.safe_either (billed_still (still_op trivial) h) (fun _ _ h => h)
    (fun _ _ h => h)

theorem keeps : Course.Keeps Own.exec Eq (fun _ s' => Billed e.branchId s') (course e.branchId) rt e
    (View.filed ⟨e.conversationId⟩ e.branchId) agent where
  toLeases := leases
  peeks _ _ h := h.still still_active
  queues _ _ _ _ h := billed_still (still_queueBehind _ _ _) h.billed
  steps := steps gathers closes

end

theorem still_forkHistory (src : Execution) (at_ : Option Uuid)
    (history : Option (List ModelMessage)) : (rt.forkHistory src at_ history).AllOps Still := by
  unfold AgentRuntime.forkHistory
  split
  · trivial
  · split
    · apply Prog.allOps_bind
      · exact still_op trivial
      intro entries
      split
      · trivial
      · split <;> trivial
    · trivial

theorem still_copyCalls (source target : View) (src : Execution) (token : Nat)
    (calls : List ToolCall) :
    (AgentRuntime.copyCalls source target src e token calls).AllOps Still := by
  induction calls with
  | nil => trivial
  | cons call calls ih =>
    apply Prog.allOps_bind
    · exact still_op (isModelKey_stepKey _)
    intro record
    cases record with
    | absent => exact ih
    | running =>
      apply Prog.allOps_bind
      · exact still_op trivial
      · exact fun _ => ih
    | done value =>
      apply Prog.allOps_bind
      · exact still_op trivial
      intro inserted
      split
      · apply Prog.allOps_bind
        · exact still_op trivial
        · exact fun _ => Prog.allOps_bind ih (fun _ => trivial)
      · exact ih

theorem still_copyRound (src : Execution) (token : Nat) (history : List ModelMessage) :
    (rt.copyRound src e token history).AllOps Still := by
  unfold AgentRuntime.copyRound
  split
  · exact still_copyCalls _ _ _ _ _
  · trivial

end

end Semora.Proofs.Usage
