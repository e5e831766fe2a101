import Semora.Proofs.Inputs
import Semora.Proofs.Mediated

/-! What becomes of a queued input: it is admitted only once the transcript holds a request that
names it, or with the prompt it was queued for, and discarded only where a screen dropped it. -/

namespace Semora.Proofs.Fates
open Semora.Lib Semora.Store Semora.Transcript
open Semora.Proofs.Order (Follows Ordered acts ordered_of_safe follows_exec)

/-- The entry holds a request that names these inputs. -/
def Names (entry : Entry) (ids : List String) : Prop :=
  ∃ request metadata, entry.message = some (.request request) ∧ request.metadata = some metadata ∧
    metadata.inputIds = some ids

/-- The transcript took an entry that names these inputs. -/
def Recorded (ids : List String) (done : List Done) : Prop :=
  ∃ entry appended, (⟨.append entry, .ok appended⟩ : Done) ∈ done ∧ Names entry ids

/-- The input is the prompt of this very call, which queued it a moment ago. -/
def Prompted (b : String) (ids : List String) (done : List Done) : Prop :=
  ∃ id text instant, ids = [id] ∧ (⟨.ledger (.enqueueInput b id (.input
    ⟨"user_prompt", .userPrompt (.str text) (.int instant), some id⟩)), .ok true⟩ : Done) ∈ done

/-- A screen was shown these inputs and passed others. -/
def Screened (ids : List String) (done : List Done) : Prop :=
  ∃ plane here inputs screened,
    (⟨.ask plane (.onInputs here inputs), .ok (.inputs screened)⟩ : Done) ∈ done ∧
    ∀ id ∈ ids, id ∈ InputSession.originIds inputs ∧ id ∉ InputSession.originIds screened

/-- What has to come before an input is settled. -/
def Settled (done : List Done) : Done → Prop
  | ⟨.ledger (.admitInputs b ids _), _⟩ => Recorded ids done ∨ Prompted b ids done
  | ⟨.ledger (.discardInputs _ ids _), _⟩ => Screened ids done
  | _ => True

/-- The operation settles no input. -/
def Free : Op → Prop
  | .ledger (.admitInputs ..) | .ledger (.discardInputs ..) => False
  | _ => True

section
variable {done : List Done} {s : Own} {J : List Done → Prop}

theorem settled_free {o : Op} {r : Except Exn o.Res} (ho : Free o) : Settled done ⟨o, r⟩ := by
  cases o with
  | ledger c => cases c <;> first | exact ho.elim | trivial
  | _ => trivial

theorem settled_admits {b : String} {ids : List String} {token : Nat} {r : Except Exn Unit}
    (h : Recorded ids done ∨ Prompted b ids done) :
    Settled done ⟨.ledger (.admitInputs b ids token), r⟩ := h

theorem keeps_free (hgrows : Order.Grows J) {o : Op} (ho : Free o) :
    Prog.Keeps Own.exec (Follows Settled) (fun s => J s.done) o.Res (perform o) := by
  refine Prog.keeps_op.mpr (fun s r s' h he => ⟨follows_exec (settled_free ho) he, ?_⟩)
  obtain ⟨-, rfl⟩ := he
  exact hgrows _ _ (List.prefix_append _ _) h

theorem free_keeps (hgrows : Order.Grows J) {α : Type} {p : Program α} (hp : p.AllOps Free) :
    Prog.Keeps Own.exec (Follows Settled) (fun s => J s.done) α p :=
  (Prog.compositional_keeps _ _ _).ofAllOps hp (fun _ ho => keeps_free hgrows ho)

theorem free_still {o : Op} (ho : Throughout.Still o) : Free o := by
  cases o with
  | ledger c => cases c <;> first | exact ho.elim | trivial
  | _ => trivial

theorem free_called {o : Op} (ho : Throughout.Called o) : Free o := by
  cases o with
  | ledger c => cases c <;> first | exact ho.elim | trivial
  | _ => trivial

theorem free_requested {ai : PydanticAI} {o : Op} (ho : Throughout.Requested ai o) : Free o := by
  cases o with
  | ledger c => cases c <;> first | exact ho.elim | trivial
  | _ => trivial

theorem free_outer {o : Op} (ho : Throughout.Outer o) : Free o := by
  cases o with
  | ledger c => cases c <;> first | exact ho.elim | trivial
  | _ => trivial

theorem free_update (f : Attempt → Attempt) : (update f).AllOps Free :=
  (Prog.allOps_op (Op.modify f)).mpr trivial

theorem free_ask (plane : String) (q : Question) : (Effects.ask plane q).AllOps Free :=
  (Prog.allOps_op (Op.ask plane q)).mpr trivial

theorem grows_recorded (ids : List String) : Order.Grows (Recorded ids) := by
  intro done done' hdone h
  obtain ⟨entry, appended, hmem, hnames⟩ := h
  exact ⟨entry, appended, hdone.subset hmem, hnames⟩

/-! A boundary. -/

variable {eff : Effects}

/-- What a screen dropped, it was shown. -/
theorem dropped_screened (request : ModelRequest) (pending screened : List PendingInput)
    {id : String} (h : id ∈ InputSession.originIds (Effects.dropped pending screened)) :
    id ∈ InputSession.originIds (Effects.userInputs request ++ pending) ∧
      id ∉ InputSession.originIds screened := by
  obtain ⟨item, hitem, hid⟩ := List.mem_filterMap.mp h
  obtain ⟨hpending, hdropped⟩ := List.mem_filter.mp hitem
  rw [hid] at hdropped
  simp only [decide_eq_true_eq] at hdropped
  refine ⟨List.mem_filterMap.mpr ⟨item, List.mem_append_right _ hpending, hid⟩, ?_⟩
  exact hdropped.2

theorem keeps_steered (request : ModelRequest) (pending : List PendingInput) :
    Prog.Keeps Own.exec (Follows Settled) (fun _ => True) _ (eff.steered request pending) := by
  have hk := Prog.compositional_keeps Own.exec (Follows Settled) (fun _ => True)
  have hfree : ∀ {α : Type} {p : Program α}, p.AllOps Free →
      Prog.Keeps Own.exec (Follows Settled) (fun _ => True) α p := fun hp =>
    free_keeps (J := fun _ => True) Order.grows_true hp
  unfold Effects.steered
  split
  · exact hk.ret _
  · rename_i plane _
    refine hk.bind (hfree ((Throughout.still_boundaryCtx _).mono (fun _ => free_still)))
      (fun here => hk.bind ?_ (fun screened => ?_))
    · unfold Effects.screen
      split
      · exact hk.ret _
      · intro s _
        apply (Prog.safe_bind _ _ _ _).mpr
        unfold Effects.ask perform
        apply (Prog.safe_op (Op.ask ..) _ s).mpr
        intro s₁ hs₁ r s₂ he
        subst hs₁
        refine ⟨follows_exec (settled_free (o := .ask ..) trivial) he, ?_⟩
        obtain ⟨-, rfl⟩ := he
        cases r with
        | error error => trivial
        | ok answer =>
          simp only
          split
          · rename_i screened store _
            apply (Prog.safe_bind _ _ _ _).mpr
            unfold InputSession.discard
            split
            · trivial
            · apply (Prog.safe_op (Op.ledger (.discardInputs ..)) _ _).mpr
              intro s₃ hs₃ r s₄ he
              subst hs₃
              refine ⟨follows_exec ?_ he, ?_⟩
              · refine ⟨plane, here, _, screened, List.mem_append_right _ List.mem_cons_self, ?_⟩
                intro id hid
                exact dropped_screened request pending screened hid
              · cases r <;> trivial
          · trivial
    · split
      · exact hk.ret _
      · refine hk.bind (hfree (free_ask _ _)) (fun decision => ?_)
        cases decision with
        | proceed steers => exact hk.ret _
        | halt reason => exact hk.ret _

/-- Behind the write of a message the transcript has taken it. -/
theorem safe_recordMessage {recorder : Recorder} (hrecord : eff.record = some recorder)
    {request : ModelRequest} {metadata : Metadata} {ids : List String}
    (hmetadata : request.metadata = some metadata) (hids : metadata.inputIds = some ids) :
    Prog.safe Own.exec Eq (Follows Settled) (eff.recordMessage (.request request))
      (fun r s' => r = .ok () → Recorded ids s'.done) s := by
  have hfree : ∀ {α : Type} {p : Program α} {J : List Done → Prop}, Order.Grows J →
      p.AllOps Throughout.Still →
      Prog.Keeps Own.exec (Follows Settled) (fun s => J s.done) α p := fun hgrows hp =>
    free_keeps hgrows (hp.mono (fun _ => free_still))
  unfold Effects.recordMessage
  rw [hrecord]
  simp only [Branch.append]
  apply (Prog.safe_bind _ _ _ _).mpr
  have hrecorded : Prog.safe Own.exec Eq (Follows Settled)
      (record recorder.conversation (.request request))
      (fun r s' => ∀ appended, r = .ok appended → Recorded ids s'.done) s := by
    apply (Prog.safe_bind _ _ _ _).mpr
    apply Prog.safe_post (hfree Order.grows_true Throughout.still_attempt s trivial)
    intro r s₁ _
    cases r with
    | error error => simp
    | ok a =>
      apply (Prog.safe_bind _ _ _ _).mpr
      apply Prog.safe_post (hfree Order.grows_true
        (Throughout.still_perform (o := .now) trivial) s₁ trivial)
      intro r s₂ _
      cases r with
      | error error => simp
      | ok instant =>
        apply (Prog.safe_bind _ _ _ _).mpr
        apply (Prog.safe_op (Op.append _) _ s₂).mpr
        intro s₃ hs₃ r s₄ he
        subst hs₃
        refine ⟨follows_exec (settled_free (o := .append _) trivial) he, ?_⟩
        obtain ⟨-, rfl⟩ := he
        cases r with
        | error error => simp
        | ok appended =>
          have htaken : Recorded ids (s₂.done ++ [⟨.append (messageEntry (.request request)
              recorder.conversation a.branch.parentUuid instant), .ok appended⟩]) :=
            ⟨_, appended, List.mem_append_right _ List.mem_cons_self, request, metadata, rfl,
              hmetadata, hids⟩
          have hrest : ((update (setParent (some (messageEntry (.request request)
              recorder.conversation a.branch.parentUuid instant).uuid))).bind (fun _ =>
                (relink recorder.conversation appended (messageEntry (.request request)
                  recorder.conversation a.branch.parentUuid instant).uuid).bind
                    (fun _ => .ret appended))).AllOps Throughout.Still := by
            refine Prog.allOps_bind (Throughout.still_update (fun _ => ⟨rfl, rfl⟩)) (fun _ =>
              Prog.allOps_bind ?_ (fun _ => trivial))
            unfold relink
            split
            · trivial
            · exact (Throughout.plain_appendLeaf _ _).mono (fun _ => Throughout.still_plain)
          exact Prog.safe_post (hfree (grows_recorded ids) hrest _ htaken) (fun _ _ h _ _ => h)
  apply Prog.safe_post hrecorded
  intro r s₁ h₁
  cases r with
  | error error => simp
  | ok appended =>
    refine Prog.safe_post (hfree (grows_recorded ids) ?_ s₁ (h₁ appended rfl)) (fun _ _ h _ => h)
    exact Prog.allOps_bind (Throughout.still_update (fun _ => ⟨rfl, rfl⟩)) (fun _ => trivial)

/-- The inputs of a boundary are settled once the transcript has taken the request they enter. -/
theorem keeps_admit {ai : PydanticAI} {recorder : Recorder} (hrecord : eff.record = some recorder)
    (prompt : Option Json) (results : DeferredToolResults) (request : ModelRequest) :
    Prog.Keeps Own.exec (Follows Settled) (fun _ => True) _
      (eff.admit_ request (ai.runNode eff prompt results)) := by
  have hk := Prog.compositional_keeps Own.exec (Follows Settled) (fun _ => True)
  have hfree : ∀ {α : Type} {p : Program α}, p.AllOps Free →
      Prog.Keeps Own.exec (Follows Settled) (fun _ => True) α p := fun hp =>
    free_keeps (J := fun _ => True) Order.grows_true hp
  refine hk.bind (hfree (Throughout.still_drain.mono (fun _ => free_still)))
    (fun pending => hk.bind (keeps_steered request pending) (fun decision => ?_))
  cases decision with
  | error reason =>
    exact hfree (Prog.allOps_bind (free_update _) (fun _ =>
      Prog.allOps_bind (Throughout.still_attempt.mono (fun _ => free_still)) (fun _ => trivial)))
  | ok entering =>
    obtain ⟨inputs, steers⟩ := entering
    have hrequest : (ai.requestNode eff (Effects.rewritten request inputs steers)).AllOps Free :=
      (Throughout.requested_requestNode _).mono (fun _ => free_requested)
    refine hk.bind (hfree (free_update _)) (fun _ => ?_)
    by_cases hids : InputSession.originIds inputs = []
    · have hadmit : (eff.admitInputs inputs).AllOps Free := by
        unfold Effects.admitInputs InputSession.admit_
        simp only [if_pos hids]
        split <;> trivial
      exact hk.bind (hfree ((Throughout.still_recordMessage _).mono (fun _ => free_still)))
        (fun _ => hk.bind (hfree hadmit) (fun _ => hfree hrequest))
    · intro s _
      apply (Prog.safe_bind _ _ _ _).mpr
      have hmetadata : (Effects.rewritten request inputs steers).metadata =
          some { request.metadata.getD {} with
            inputIds := some (InputSession.originIds inputs) } :=
        if_neg hids
      apply Prog.safe_post (safe_recordMessage hrecord hmetadata rfl)
      intro r s₁ h₁
      cases r with
      | error error => trivial
      | ok _ =>
        have htaken := h₁ rfl
        apply (Prog.safe_bind _ _ _ _).mpr
        have hadmit : Prog.safe Own.exec Eq (Follows Settled) (eff.admitInputs inputs)
            (fun _ _ => True) s₁ := by
          unfold Effects.admitInputs InputSession.admit_
          split
          · trivial
          · simp only [if_neg hids]
            apply (Prog.safe_op (Op.ledger (.admitInputs ..)) _ s₁).mpr
            intro s₂ hs₂ r s₃ he
            subst hs₂
            exact ⟨follows_exec (settled_admits (.inl htaken)) he, trivial⟩
        apply Prog.safe_post hadmit
        intro r s₂ _
        cases r with
        | error error => trivial
        | ok _ => exact hfree hrequest s₂ trivial

theorem keeps_node {ai : PydanticAI} {recorder : Recorder} (hrecord : eff.record = some recorder)
    (weaves : Prog.Weaves ai.gather) (prompt : Option Json) (results : DeferredToolResults)
    (node : Node) : Prog.Keeps Own.exec (Follows Settled) (fun _ => True) _
      (eff.wrapNodeRun node (ai.runNode eff prompt results)) := by
  have hk := Prog.compositional_keeps Own.exec (Follows Settled) (fun _ => True)
  have hfree : ∀ {α : Type} {p : Program α}, p.AllOps Free →
      Prog.Keeps Own.exec (Follows Settled) (fun _ => True) α p := fun hp =>
    free_keeps (J := fun _ => True) Order.grows_true hp
  have hstill : ∀ {α : Type} {p : Program α}, p.AllOps Throughout.Still → p.AllOps Free :=
    fun hp => hp.mono (fun _ => free_still)
  refine hk.bind (hfree (free_update _)) (fun _ => ?_)
  cases node with
  | userPrompt =>
    exact hfree ((Throughout.requested_enterNode prompt results).mono (fun _ => free_requested))
  | modelRequest request => exact keeps_admit hrecord prompt results request
  | callTools response results' =>
    have hcalls : (ai.callToolsNode eff response results').AllOps Free := by
      refine Prog.allOps_bind (hstill Throughout.still_attempt) (fun a =>
        Prog.allOps_bind (weaves.allOps ?_) (fun outcomes => ?_))
      · intro call hcall
        obtain ⟨item, -, rfl⟩ := List.mem_map.mp hcall
        exact (Throughout.called_executeCall ai item.2).mono (fun _ => free_called)
      · split
        · trivial
        · trivial
        · exact Prog.allOps_bind (free_update _) (fun _ => trivial)
    refine hfree (Prog.allOps_bind (free_update _) (fun _ =>
      Prog.allOps_bind (hstill (Throughout.still_recordPending response)) (fun _ =>
      Prog.allOps_bind hcalls (fun result =>
      Prog.allOps_bind (hstill (Throughout.still_recordTurn response result)) (fun _ => ?_)))))
    cases result with
    | node next => trivial
    | finish output =>
      simp only [Effects.decideFinish]
      split
      · trivial
      · refine Prog.allOps_bind (hstill Throughout.still_lateInputs) (fun late => ?_)
        split
        · exact Prog.allOps_bind (free_update _) (fun _ => trivial)
        · split
          · exact Prog.allOps_bind (free_update _) (fun _ => trivial)
          · refine Prog.allOps_bind (hstill (Throughout.still_ctx _)) (fun here =>
              Prog.allOps_bind (free_ask _ _) (fun decision => ?_))
            cases decision with
            | proceed steers => trivial
            | halt reason => exact Prog.allOps_bind (free_update _) (fun _ => trivial)

end

/-! Every call of the runtime. -/

section
variable {rt : AgentRuntime} {agent : Agent}

theorem carried_settled :
    Throughout.Carried (Prog.Keeps Own.exec (Follows Settled) (fun _ => True)) where
  compositional := Prog.compositional_keeps _ _ _
  outer _ ho := keeps_free (J := fun _ => True) Order.grows_true (free_outer ho)

/-- The prompt of a call is settled as soon as its row is in. -/
theorem keeps_admitPrompt (e : Execution) (token : Nat) (prompt promptId : Option String) :
    Prog.Keeps Own.exec (Follows Settled) (fun _ => True) _
      (rt.admitPrompt e token prompt promptId) := by
  have hk := Prog.compositional_keeps Own.exec (Follows Settled) (fun _ => True)
  unfold AgentRuntime.admitPrompt
  split
  · rename_i text id store _
    refine hk.bind (keeps_free (J := fun _ => True) Order.grows_true (o := .now) trivial)
      (fun instant => ?_)
    intro s _
    apply (Prog.safe_bind _ _ _ _).mpr
    apply (Prog.safe_op (Op.ledger (.enqueueInput ..)) _ s).mpr
    intro s₁ hs₁ r s₂ he
    subst hs₁
    refine ⟨follows_exec (settled_free (o := .ledger (.enqueueInput ..)) trivial) he, ?_⟩
    obtain ⟨-, rfl⟩ := he
    cases r with
    | error error => trivial
    | ok inserted =>
      simp only
      split
      · rename_i hinserted
        subst hinserted
        apply (Prog.safe_bind _ _ _ _).mpr
        apply (Prog.safe_op (Op.ledger (.admitInputs ..)) _ _).mpr
        intro s₃ hs₃ r s₄ he
        subst hs₃
        refine ⟨follows_exec (settled_admits (.inr ?_)) he, ?_⟩
        · exact ⟨id, text, instant, rfl, List.mem_append_right _ List.mem_cons_self⟩
        · cases r <;> trivial
      · trivial
  · exact hk.ret _

theorem keeps_attemptRun (transcript : rt.transcript = true) (weaves : Prog.Weaves agent.gather)
    {e : Execution} {token : Nat} {prompt : Option String} {options : Options} :
    Prog.Keeps Own.exec (Follows Settled) (fun _ => True) _
      (rt.attemptRun e token agent prompt options) := by
  have hk := Prog.compositional_keeps Own.exec (Follows Settled) (fun _ => True)
  have hupdate : ∀ f : Attempt → Attempt, Prog.Keeps Own.exec (Follows Settled) (fun _ => True) _
      (update f) := fun f => keeps_free (J := fun _ => True) Order.grows_true (o := .modify f) trivial
  refine carried_settled.attemptRun (hupdate _) (keeps_admitPrompt _ _ _ _) (fun prompt history => ?_)
  have hrecord : (rt.effectsOf e token agent options).record = some ⟨e.conversation⟩ := if_pos transcript
  refine hk.bind (hupdate _) (fun _ => hk.bind ?_ (fun output =>
    hk.bind (hupdate _) (fun _ => hk.ret _)))
  exact Throughout.iterate_of hk (N := fun _ => True)
    (fun node _ => keeps_node hrecord weaves _ _ node)
    (fun node _ => by simp [Prog.allRets_any]) (fun next => hupdate _) _ trivial

/-- What an operation of the runtime does alone. -/
theorem keeps_serve (transcript : rt.transcript = true) (weaves : Prog.Weaves agent.gather)
    {e : Execution} {op : Operation} {p : Program Reply}
    (serves : p = rt.serve agent e op ∨ p = settled op (rt.serve agent e op)) :
    Prog.Keeps Own.exec (Follows Settled) (fun _ => True) _ p := by
  have hparts : Throughout.Parts (Prog.Keeps Own.exec (Follows Settled) (fun _ => True)) rt agent
      op := {
    attempts := fun e token prompt options _ => keeps_attemptRun transcript weaves
    finalizes := fun e token active answers rulesVersion =>
      carried_settled.finalize (fun results _ => keeps_attemptRun transcript weaves) }
  rcases serves with h | h
  · rw [h]
    exact carried_settled.serve hparts
  · rw [h]
    exact carried_settled.settled hparts

end

/-! The rows of the queue. -/

section
variable {s s' s'' : MemorySteps Value} {b x : String} {P : InputStatus → Prop}

/-- Where the row has another status than before, it is one of these. -/
def From (b x : String) (P : InputStatus → Prop) (s s' : MemorySteps Value) : Prop :=
  ∀ row', s'.inputs.get? (b, x) = some row' →
    (∃ row, s.inputs.get? (b, x) = some row ∧ row.status = row'.status) ∨ P row'.status

theorem from_inputs (h : s'.inputs = s.inputs) : From b x P s s' := by
  intro row' hrow'
  rw [h] at hrow'
  exact .inl ⟨row', hrow', rfl⟩

theorem From.trans (h : From b x P s s') (h' : From b x P s' s'') : From b x P s s'' := by
  intro row'' hrow''
  rcases h' row'' hrow'' with ⟨row', hrow', hstatus⟩ | hgiven
  · rw [← hstatus]
    exact h row' hrow'
  · exact .inr hgiven

theorem fenced_from {α : Type} {w : Except StoreError α × MemorySteps Value} {b' : String}
    {t : Nat} (h : From b x P s w.2) : From b x P s (s.fenced b' t w).2 := by
  rcases MemorySteps.fenced_state (s := s) (b := b') (t := t) w with he | he
  · rw [he]
    exact from_inputs rfl
  · rw [he]
    exact h

theorem from_marks {status : InputStatus} {keep : InputStatus → Bool} {b' : String}
    {is : List String} (h : b' = b → x ∈ is → P status) :
    From b x P s (is.foldl (MemorySteps.mark status keep b') s) := by
  induction is generalizing s with
  | nil => exact from_inputs rfl
  | cons y is ih =>
    refine From.trans ?_ (ih (fun hb hx => h hb (List.mem_cons_of_mem _ hx)))
    intro row' hrow'
    rw [MemorySteps.get?_mark] at hrow'
    obtain ⟨row, hrow, rfl⟩ := Option.map_eq_some_iff.mp hrow'
    split
    · rename_i hmarked
      obtain ⟨rfl, rfl⟩ := Prod.mk.inj hmarked.1
      exact .inr (h rfl List.mem_cons_self)
    · exact .inl ⟨row, hrow, rfl⟩

theorem from_insertInput {b' y : String} (value : Value) (h : P .pending) :
    From b x P s (s.insertInput b' y value) := by
  intro row' hrow'
  simp only [MemorySteps.insertInput, Dict.get?_insert] at hrow'
  split at hrow'
  · cases hrow'
    exact .inr h
  · exact .inl ⟨row', hrow', rfl⟩

theorem from_insertInputs {b' : String} (items : List (String × Value)) (inserted : List String)
    (h : P .pending) : From b x P s (MemorySteps.insertInputs b' items s inserted).2 := by
  induction items generalizing s inserted with
  | nil => exact from_inputs rfl
  | cons item items ih =>
    unfold MemorySteps.insertInputs
    split
    · exact ih _
    · exact (from_insertInput _ h).trans (ih _)

/-- What a row has its status of. -/
def Gives (c : Call Value) (b x : String) : InputStatus → Prop
  | .admitted => ∃ ids token, c = .admitInputs b ids token ∧ x ∈ ids
  | .discarded => ∃ ids token, c = .discardInputs b ids token ∧ x ∈ ids
  | _ => True

/-- Only `admit_inputs` admits, and only `discard_inputs` discards. -/
theorem exec_from (c : Call Value) (now now' : ℚ) (s : MemorySteps Value) (b x : String) :
    From b x (Gives c b x) s (c.exec now now' s).2 := by
  cases c with
  | read | listInputs => exact from_inputs rfl
  | start b' k t =>
    apply fenced_from
    split <;> exact from_inputs rfl
  | finishEffect b' k v t =>
    apply fenced_from
    split
    · split <;> exact from_inputs rfl
    · exact from_inputs rfl
    · exact from_inputs rfl
  | writeControl b' k v t => exact fenced_from (from_inputs rfl)
  | forget b' k t =>
    apply fenced_from
    split <;> exact from_inputs rfl
  | acquire b' o ttl =>
    simp only [Call.exec, MemorySteps.acquire]
    split
    · exact from_inputs rfl
    · split
      · exact from_inputs rfl
      · split <;> exact from_inputs rfl
  | release b' o =>
    simp only [Call.exec, MemorySteps.release]
    split
    · exact from_inputs rfl
    · split <;> exact from_inputs rfl
  | enqueueInput b' y value =>
    simp only [Call.exec, MemorySteps.enqueueInput]
    split
    · exact from_inputs rfl
    · exact from_insertInput value trivial
  | claimInput b' y t =>
    have hclaimed : Gives (.claimInput b' y t) b x .claimed := trivial
    have hmark : From b x (Gives (.claimInput b' y t) b x) s
        ([y].foldl (MemorySteps.mark .claimed (fun st => st = .admitted ∨ st = .discarded) b') s) :=
      from_marks (fun _ _ => hclaimed)
    exact fenced_from hmark
  | admitInputs b' ids t =>
    refine fenced_from (from_marks (fun hb hx => ?_))
    subst hb
    exact ⟨ids, t, rfl, hx⟩
  | discardInputs b' ids t =>
    refine fenced_from (from_marks (fun hb hx => ?_))
    subst hb
    exact ⟨ids, t, rfl, hx⟩
  | commitTransition b' tr t =>
    apply fenced_from
    split
    · exact from_inputs rfl
    · dsimp only
      split
      · exact from_inputs rfl
      · rename_i seen completed _ _
        have hwritten : From b x (Gives (.commitTransition b' tr t) b x) s
            (MemorySteps.putAll b' tr.controls (MemorySteps.putAll b' completed s)) :=
          from_inputs (by rw [MemorySteps.putAll_inputs, MemorySteps.putAll_inputs])
        exact hwritten.trans (from_insertInputs tr.inputs [] trivial)

end

/-! A run. -/

/-- What has become of the rows and the entries, by what the threads have done. -/
structure Accounted (s : Scene) : Prop where
  admitted : ∀ b x row, s.world.store.inputs.get? (b, x) = some row → row.status = .admitted →
    ∃ i ids token, x ∈ ids ∧ (⟨i, .ledger (.admitInputs b ids token), .ok ()⟩ : Event) ∈ s.events
  discarded : ∀ b x row, s.world.store.inputs.get? (b, x) = some row → row.status = .discarded →
    ∃ i ids token, x ∈ ids ∧ (⟨i, .ledger (.discardInputs b ids token), .ok ()⟩ : Event) ∈ s.events
  accepted : ∀ i b x value, (⟨i, .ledger (.enqueueInput b x value), .ok true⟩ : Event) ∈ s.events →
    ∃ row, s.world.store.inputs.get? (b, x) = some row ∧ row.value = value
  recorded : ∀ i entry appended, (⟨i, .append entry, .ok appended⟩ : Event) ∈ s.events →
    ∃ e ∈ s.world.transcript.read entry.conversationId, e.uuid = entry.uuid

section
variable {out : Outside} {self : Nat → Nat} {i : Nat} {s s' : Scene}

theorem onward_step (out : Outside) (o : Op) (w : World) (a : Attempt) :
    Inputs.Onward w.store (step out o w a).2.1.store := by
  cases o with
  | ledger c => exact (Inputs.moves_exec c _ _ w.store).onward
  | _ => exact Inputs.Onward.refl _

theorem read_step (o : Op) (w : World) (a : Attempt) (c : String) :
    w.transcript.read c <+: (step out o w a).2.1.transcript.read c := by
  cases o with
  | append entry => exact w.transcript.read_prefix entry c
  | _ => exact List.prefix_rfl

/-- A row that is settled behind an operation was settled before it, or is by it. -/
theorem settled_step {o : Op} {w : World} {a : Attempt} {b x : String} {row' : InputRecord Value}
    (h : (step out o w a).2.1.store.inputs.get? (b, x) = some row') :
    (∃ row, w.store.inputs.get? (b, x) = some row ∧ row.status = row'.status) ∨
      ∃ c, o = .ledger c ∧ Gives c b x row'.status ∧ ∀ error, (step out o w a).1 ≠ .error error := by
  cases o with
  | ledger c =>
    cases hreply : (c.exec (out.clock w.instant) (out.clock (w.instant + 1)) w.store).1 with
    | error error =>
      -- A refused call leaves the rows as they are.
      have hsame := Store.exec_refused c _ _ w.store hreply
      refine .inl ⟨row', ?_, rfl⟩
      rw [← hsame]
      exact h
    | ok reply =>
      rcases exec_from c _ _ w.store b x row' h with hold | hgives
      · exact .inl hold
      · refine .inr ⟨c, rfl, hgives, fun error herror => ?_⟩
        simp [step, hreply, Except.mapError] at herror
  | _ => exact .inl ⟨row', h, rfl⟩

theorem accepted_unit {r : Except Exn Unit} (h : ∀ error, r ≠ .error error) : r = .ok () := by
  cases r with
  | ok u => rfl
  | error error => exact absurd rfl (h error)

theorem accounted_exec {o : Op} {r : Except Exn o.Res} (he : exec out self i o s r s')
    (h : Accounted s) : Accounted s' := by
  obtain ⟨hevents, hworld, hreply⟩ := exec_events he
  have honward := onward_step out o s.world (s.attempts (self i))
  constructor
  · intro b x row' hrow' hstatus
    rw [hworld] at hrow'
    rw [hevents]
    rcases settled_step hrow' with ⟨row, hrow, hsame⟩ | ⟨c, rfl, hgives, haccepted⟩
    · obtain ⟨j, ids, token, hx, hmem⟩ := h.admitted b x row hrow (hsame.trans hstatus)
      exact ⟨j, ids, token, hx, List.mem_append_left _ hmem⟩
    · rw [hstatus] at hgives
      obtain ⟨ids, token, rfl, hx⟩ := hgives
      obtain rfl := accepted_unit (hreply ▸ haccepted)
      exact ⟨i, ids, token, hx, List.mem_append_right _ List.mem_cons_self⟩
  · intro b x row' hrow' hstatus
    rw [hworld] at hrow'
    rw [hevents]
    rcases settled_step hrow' with ⟨row, hrow, hsame⟩ | ⟨c, rfl, hgives, haccepted⟩
    · obtain ⟨j, ids, token, hx, hmem⟩ := h.discarded b x row hrow (hsame.trans hstatus)
      exact ⟨j, ids, token, hx, List.mem_append_left _ hmem⟩
    · rw [hstatus] at hgives
      obtain ⟨ids, token, rfl, hx⟩ := hgives
      obtain rfl := accepted_unit (hreply ▸ haccepted)
      exact ⟨i, ids, token, hx, List.mem_append_right _ List.mem_cons_self⟩
  · intro j b x value hmem
    rw [hevents] at hmem
    rw [hworld]
    rcases List.mem_append.mp hmem with hmem | hmem
    · obtain ⟨row, hrow, hvalue⟩ := h.accepted j b x value hmem
      obtain ⟨row', hrow', hvalue', -, -⟩ := honward b x row hrow
      exact ⟨row', hrow', hvalue'.trans hvalue⟩
    · cases List.mem_singleton.mp hmem
      simp only [step, Call.exec, MemorySteps.enqueueInput] at hreply ⊢
      split at hreply
      · simp [Except.mapError] at hreply
      · rename_i hnone
        simp [MemorySteps.insertInput]
  · intro j entry appended hmem
    rw [hevents] at hmem
    rw [hworld]
    rcases List.mem_append.mp hmem with hmem | hmem
    · obtain ⟨e, he, huuid⟩ := h.recorded j entry appended hmem
      exact ⟨e, (read_step o _ _ _).subset he, huuid⟩
    · cases List.mem_singleton.mp hmem
      exact s.world.transcript.append_holds entry

end

/-- A thread did it, behind what has to come before it. -/
def Came (s : Scene) (d : Done) (before : List Done → Prop) : Prop :=
  ∃ i front rest, log i s.events = front ++ ⟨i, d.op, d.reply⟩ :: rest ∧ before (acts front)

/-- What becomes of the inputs of a run: none that was accepted is lost, each is admitted only
behind the request that carries it or with its own prompt, and none is discarded that a screen
has not dropped. -/
structure Traceable (s : Scene) : Prop where
  accepted : ∀ i b x value, (⟨i, .ledger (.enqueueInput b x value), .ok true⟩ : Event) ∈ s.events →
    ∃ row, s.world.store.inputs.get? (b, x) = some row ∧ row.value = value
  admitted : ∀ b x row, s.world.store.inputs.get? (b, x) = some row → row.status = .admitted →
    ∃ ids token, x ∈ ids ∧ Came s ⟨.ledger (.admitInputs b ids token), .ok ()⟩
      (fun done => Recorded ids done ∨ Prompted b ids done)
  discarded : ∀ b x row, s.world.store.inputs.get? (b, x) = some row → row.status = .discarded →
    ∃ ids token, x ∈ ids ∧ Came s ⟨.ledger (.discardInputs b ids token), .ok ()⟩ (Screened ids)
  recorded : ∀ i entry appended, (⟨i, .append entry, .ok appended⟩ : Event) ∈ s.events →
    ∃ e ∈ s.world.transcript.read entry.conversationId, e.uuid = entry.uuid

section
variable {out : Outside} {self : Nat → Nat} {i : Nat} {s s' : Scene}

/-- What a thread did, it came to after what its rule wants. -/
theorem came_of_mem {rule : List Done → Done → Prop} {e : Event}
    (ordered : ∀ i, Ordered rule i s) (hmem : e ∈ s.events) :
    ∃ front rest, log e.thread s.events = front ++ e :: rest ∧ rule (acts front) ⟨e.op, e.reply⟩ := by
  have hlog : e ∈ log e.thread s.events := List.mem_filter.mpr ⟨hmem, by simp⟩
  obtain ⟨front, rest, hsplit⟩ := List.append_of_mem hlog
  exact ⟨front, rest, hsplit, ordered e.thread front e rest hsplit⟩

theorem fates_of_ordered (accounted : Accounted s) (ordered : ∀ i, Ordered Settled i s) :
    Traceable s where
  accepted := accounted.accepted
  recorded := accounted.recorded
  admitted := by
    intro b x row hrow hstatus
    obtain ⟨j, ids, token, hx, hmem⟩ := accounted.admitted b x row hrow hstatus
    obtain ⟨front, rest, hsplit, hrule⟩ := came_of_mem ordered hmem
    exact ⟨ids, token, hx, j, front, rest, hsplit, hrule⟩
  discarded := by
    intro b x row hrow hstatus
    obtain ⟨j, ids, token, hx, hmem⟩ := accounted.discarded b x row hrow hstatus
    obtain ⟨front, rest, hsplit, hrule⟩ := came_of_mem ordered hmem
    exact ⟨ids, token, hx, j, front, rest, hsplit, hrule⟩

/-- A thread that is an operation of a runtime with a transcript. -/
def Serves (p : Program Reply) : Prop :=
  ∃ (rt : AgentRuntime) (agent : Agent) (op : Operation) (e : Execution), rt.transcript = true ∧
    Prog.Weaves agent.gather ∧ (p = rt.serve agent e op ∨ p = settled op (rt.serve agent e op))

/-- However many operations of however many runtimes with transcripts run side by side, whoever
crashes: what becomes of the inputs they queue is accounted for. -/
theorem fates_kept {pool pool' : Nat → Program Reply} (serves : ∀ i, Serves (pool i))
    (apart : ∀ i j, j ≠ i → self j ≠ self i) (fresh : s.events = [])
    (unsettled : ∀ b x row, s.world.store.inputs.get? (b, x) = some row →
      row.status = .pending ∨ row.status = .claimed)
    (run : Interleaved (exec out self) (fun _ _ => False) pool s pool' s') : Traceable s' := by
  have hbegun : Accounted s := by
    constructor
    · intro b x row hrow hstatus
      rcases unsettled b x row hrow with h | h <;> rw [h] at hstatus <;> cases hstatus
    · intro b x row hrow hstatus
      rcases unsettled b x row hrow with h | h <;> rw [h] at hstatus <;> cases hstatus
    · simp [fresh]
    · simp [fresh]
  refine fates_of_ordered (run.invariant (fun i o s r s' he => accounted_exec he)
    (fun _ _ h => h.elim) hbegun) (fun i => ?_)
  obtain ⟨rt, agent, op, e, transcript, weaves, hserves⟩ := serves i
  exact ordered_of_safe (fun a => keeps_serve transcript weaves hserves _ trivial) (apart i)
    (by simp [fresh, log]) run

end

open Mediated (personal sender weaves_standard)

/-- A note for the run, and a prompt with an id of its own. -/
def noteThenGreet (i : Nat) : Program Reply :=
  ({} : AgentRuntime).serve sender { branchId := "run" } (if i = 0 then
    .submit ⟨"note", .userPrompt (.str "be brief") .null, some "i1"⟩
  else .run (some "hi") { controls := some "plane", promptId := some "i2" } none)

def greeted : (Nat → Program Reply) × Scene :=
  scheduled (Scene.perform personal id) (0 :: List.replicate 40 1) noteThenGreet
    ⟨{}, fun _ => {}, []⟩

/-- Both are admitted, the note behind the request it is in. -/
theorem fates_kept_greeted :
    greeted.2.world.store.inputs.items.map (fun item => item.2.status) = [.admitted, .admitted] ∧
      Traceable greeted.2 := by
  refine ⟨by decide +kernel, ?_⟩
  have run := interleaved_scheduled (Scene.perform personal id) (fun _ _ => False)
    (0 :: List.replicate 40 1) noteThenGreet ⟨{}, fun _ => {}, []⟩
  refine fates_kept ?_ (fun _ _ hj => hj) rfl ?_ run
  · exact fun i => ⟨{}, sender, _, { branchId := "run" }, rfl, weaves_standard, .inl rfl⟩
  · simp [Dict.get?, Dict.empty, fetch]

end Semora.Proofs.Fates
