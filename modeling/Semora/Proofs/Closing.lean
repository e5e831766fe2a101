import Semora.Proofs.Writing

/-! An attempt alone with its conversation: it keeps the chain it writes, and the history it closes
with is the one the conversation holds. -/

namespace Semora.Proofs.Closing
open Semora.Lib Semora.Store Semora.Transcript Writing

/-- The attempt's branch names the chain its conversation ends with. -/
structure Joined (c : String) (i : Nat) (s : Scene) : Prop where
  orderly : Orderly c s.world
  linked : Linked (s.attempts i).branch (s.world.transcript.read c)

/-- The conversation holds these messages, up to what replays vary. -/
def Holds (c : String) (messages : List ModelMessage) (s : Scene) : Prop :=
  gists messages = gists (committed c s)

/-- An operation that writes no entry and keeps the branch. -/
def Level : Op → Prop
  | .append _ => False
  | .modify f => ∀ a, (f a).branch = a.branch
  | _ => True

/-- Nobody else writes the conversation or the attempt's objects. -/
structure Alone (out : Outside) (c : String) (i : Nat) (ex : Prog.Exec Op Op.Res Exn Scene)
    (R : Scene → Scene → Prop) : Prop where
  exec : ∀ o s r s', ex o s r s' → exec out id i o s r s'
  rely : ∀ a b, R a b → Apart c i a b

/-- What the attempt does to the world. -/
def Tidy (c : String) (_ s' : Scene) : Prop := Orderly c s'.world

theorem level_performs {eff : Effects} {reach : Reach} {o : Op} (h : Performs eff true reach o) :
    Level o := by
  cases h with
  | modify f keeps apart => exact fun a => congrArg (fun x => x.2.2) (apart rfl a)
  | append entry recorder h conversation loud => cases loud
  | _ => trivial

/-- A program that lets the conversation alone. -/
theorem level {α : Type} (eff : Effects) {p : Program α} (h : Within eff true .effects p) :
    p.AllOps Level :=
  h.mono (fun _ => level_performs)

theorem level_update {f : Attempt → Attempt} (h : ∀ a, (f a).branch = a.branch) :
    (update f).AllOps Level :=
  (Prog.allOps_op _).mpr h

theorem level_ends {o : Op} (h : Ends o) : Level o := by
  cases o with
  | modify f => exact h.elim
  | append entry => exact h.elim
  | _ => trivial

section
variable {out : Outside} {c : String} {i : Nat} {s s' : Scene}
variable {ex : Prog.Exec Op Op.Res Exn Scene} {R : Scene → Scene → Prop}

theorem Joined.apart (h : Joined c i s) (hr : Apart c i s s') : Joined c i s' := by
  refine ⟨h.orderly.later hr.read hr.instant, ?_⟩
  rw [hr.memory, hr.read]
  exact h.linked

/-- What the conversation holds is what the attempt's branch does. -/
theorem Joined.holds (h : Joined c i s) : Holds c (s.attempts i).branch.messages s := by
  unfold Holds
  rw [h.linked.said, ← numeral_bodies, h.orderly.committed]
  rfl

theorem Holds.apart {messages : List ModelMessage} (h : Holds c messages s)
    (hr : Apart c i s s') : Holds c messages s' := by
  unfold Holds committed at h ⊢
  rw [hr.read]
  exact h

theorem read_level {o : Op} (ho : Level o) (w : World) (a : Attempt) :
    (step out o w a).2.1.transcript.read c = w.transcript.read c := by
  cases o with
  | append entry => exact ho.elim
  | _ => rfl

theorem branch_level {o : Op} (ho : Level o) (w : World) (a : Attempt) :
    (step out o w a).2.2.branch = a.branch := by
  cases o with
  | modify f => exact ho a
  | _ => rfl

/-- A level operation leaves the conversation in order. -/
theorem orderly_op {o : Op} {r : Except Exn o.Res} (ho : Level o) (h : Orderly c s.world)
    (he : exec out id i o s r s') :
    Orderly c s'.world ∧ s'.world.transcript.read c = s.world.transcript.read c := by
  obtain ⟨-, hworld, -⟩ := exec_events he
  have hread : s'.world.transcript.read c = s.world.transcript.read c := by
    rw [hworld]
    exact read_level ho _ _
  refine ⟨h.later hread ?_, hread⟩
  rw [hworld, step_instant]
  exact Nat.le_succ _

theorem joined_op {o : Op} {r : Except Exn o.Res} (ho : Level o) (h : Joined c i s)
    (he : exec out id i o s r s') : Joined c i s' := by
  obtain ⟨horderly, hread⟩ := orderly_op ho h.orderly he
  have hattempts := exec_attempts he
  refine ⟨horderly, ?_⟩
  rw [hread, hattempts]
  simp only [id, Function.update_self]
  rw [branch_level ho]
  exact h.linked

variable (alone : Alone out c i ex R)
include alone

/-- The writer of an attempt that goes on from `a`. -/
theorem follows (a : Attempt) : Follows out c i a (fun _ => True) ex R (Tidy c) where
  exec := alone.exec
  rely := alone.rely
  guarantee := fun _ _ h => h.orderly

theorem safe_level {α : Type} {p : Program α} (hp : p.AllOps Level) (h : Joined c i s) :
    Prog.safe ex R (Tidy c) p (fun _ s' => Joined c i s') s := by
  apply Prog.safe_of_allOps _ _ hp h
  · exact fun a b hr ha => ha.apart (alone.rely a b hr)
  · intro o ho a r b ha he
    have hb := joined_op ho ha (alone.exec _ _ _ _ he)
    exact ⟨hb.orderly, hb⟩

omit alone in
/-- Joined after the first program, joined after the second. -/
theorem safe_then {α β : Type} {p : Program α} {f : α → Program β}
    (hp : Prog.safe ex R (Tidy c) p (fun _ s' => Joined c i s') s)
    (hf : ∀ a s', Joined c i s' →
      Prog.safe ex R (Tidy c) (f a) (fun _ s'' => Joined c i s'') s') :
    Prog.safe ex R (Tidy c) (p.bind f) (fun _ s' => Joined c i s') s := by
  apply (Prog.safe_bind _ _ _ _).mpr
  apply Prog.safe_post hp
  intro r s₁ h₁
  cases r with
  | ok a => exact hf a s₁ h₁
  | error error => exact h₁

/-- An update of the attempt's objects that keeps the branch. -/
theorem safe_set {β : Type} {f : Attempt → Attempt} {g : Unit → Program β} (h : Joined c i s)
    (hf : ∀ a, (f a).branch = a.branch)
    (hg : ∀ s', Joined c i s' →
      Prog.safe ex R (Tidy c) (g ()) (fun _ s'' => Joined c i s'') s') :
    Prog.safe ex R (Tidy c) ((update f).bind g) (fun _ s' => Joined c i s') s :=
  safe_then (safe_level alone (level_update hf) h) (fun _ => hg)

theorem safe_recordMessage {eff : Effects} (m : ModelMessage)
    (heff : eff.record = some ⟨c⟩) (h : Joined c i s) :
    Prog.safe ex R (Tidy c) (eff.recordMessage m) (fun _ s' => Joined c i s') s := by
  have hmidway : Midway c i (s.attempts i) (fun _ => True) (s.attempts i).branch
      (s.world.transcript.read c) s := ⟨rfl, rfl, h.orderly, trivial⟩
  unfold Effects.recordMessage
  rw [heff]
  apply append_safe (follows alone (s.attempts i)) hmidway h.linked (fun _ => trivial)
  intro branch entries s₁ h₁ hlinked _
  refine ⟨h₁.orderly, ?_⟩
  rw [h₁.memory, h₁.read]
  exact hlinked

end

/-! The nodes of a run. -/

theorem level_admitInputs (eff : Effects) (inputs : List PendingInput) :
    (eff.admitInputs inputs).AllOps Level := level eff (within_admitInputs inputs)

theorem level_runNode {eff : Effects} {ai : PydanticAI} (gathers : Gathers ai)
    (prompt : Option Json) (results : DeferredToolResults) (node : Node) :
    (ai.runNode eff prompt results node).AllOps Level := by
  have hattempt : attempt.AllOps Level := (Prog.allOps_op _).mpr trivial
  have htools : ai.prepareTools.AllOps Level := level_update (fun _ => rfl)
  cases node with
  | userPrompt =>
    apply Prog.allOps_bind hattempt
    intro a
    split
    · trivial
    · apply Prog.allOps_bind
      · exact level_update (fun _ => rfl)
      · intro _
        exact Prog.allOps_bind htools (fun _ => trivial)
  | modelRequest request =>
    apply Prog.allOps_bind
    · exact level_update (fun _ => rfl)
    · intro _
      apply Prog.allOps_bind htools
      intro _
      apply Prog.allOps_bind hattempt
      intro a
      apply Prog.allOps_bind (level eff (within_wrapModelRequest _ _))
      intro response
      apply Prog.allOps_bind
      · exact level_update (fun _ => rfl)
      · intro _
        trivial
  | callTools response results =>
    apply Prog.allOps_bind hattempt
    intro a
    apply Prog.allOps_bind
    · apply gathers
      intro call hcall
      obtain ⟨item, -, rfl⟩ := List.mem_map.mp hcall
      exact level eff (within_executeCall ai item.1 item.2)
    · intro outcomes
      split
      · trivial
      · trivial
      · apply Prog.allOps_bind
        · exact level_update (fun _ => rfl)
        · intro _
          trivial

theorem level_advance (next : Node) : (PydanticAI.advance next).AllOps Level := by
  apply level_update
  intro a
  cases next with
  | modelRequest request => exact (apply_ite Attempt.branch _ _ _).trans (ite_self _)
  | userPrompt | callTools => rfl

section
variable {out : Outside} {c : String} {i : Nat} {s : Scene}
variable {ex : Prog.Exec Op Op.Res Exn Scene} {R : Scene → Scene → Prop}
variable (alone : Alone out c i ex R) {eff : Effects} {ai : PydanticAI}
include alone

theorem safe_wrapNodeRun (gathers : Gathers ai) (heff : eff.record = some ⟨c⟩)
    (prompt : Option Json) (results : DeferredToolResults) (node : Node) (h : Joined c i s) :
    Prog.safe ex R (Tidy c) (eff.wrapNodeRun node (ai.runNode eff prompt results))
      (fun _ s' => Joined c i s') s := by
  have hnode : ∀ node s, Joined c i s → Prog.safe ex R (Tidy c)
      (ai.runNode eff prompt results node) (fun _ s' => Joined c i s') s :=
    fun node s h => safe_level alone (level_runNode gathers prompt results node) h
  apply safe_set alone h
  · exact fun _ => rfl
  intro s₁ h₁
  cases node with
  | userPrompt => exact hnode _ s₁ h₁
  | modelRequest request =>
    apply safe_then (safe_level alone (level eff within_drain) h₁)
    intro pending s₂ h₂
    apply safe_then (safe_level alone (level eff (within_steered _ _)) h₂)
    intro decision s₃ h₃
    split
    · exact safe_level alone (level eff (within_halt _)) h₃
    · apply safe_set alone h₃
      · exact fun _ => rfl
      intro s₄ h₄
      apply safe_then (safe_recordMessage alone _ heff h₄)
      intro _ s₅ h₅
      apply safe_then (safe_level alone (level_admitInputs eff _) h₅)
      intro _ s₆ h₆
      exact hnode _ s₆ h₆
  | callTools response results =>
    apply safe_set alone h₁
    · exact fun _ => rfl
    intro s₂ h₂
    apply safe_then (safe_level alone (level eff (within_recordPending _)) h₂)
    intro _ s₃ h₃
    apply safe_then (hnode _ s₃ h₃)
    intro result s₄ h₄
    have hrecord : Prog.safe ex R (Tidy c) (eff.recordTurn response result)
        (fun _ s' => Joined c i s') s₄ := by
      unfold Effects.recordTurn
      split
      · exact h₄
      · exact safe_recordMessage alone _ heff h₄
    apply safe_then hrecord
    intro _ s₅ h₅
    exact safe_level alone (level eff (within_decideFinish result)) h₅

theorem safe_iterate (gathers : Gathers ai) (heff : eff.record = some ⟨c⟩)
    (prompt : Option Json) (results : DeferredToolResults) (fuel : Nat) (node : Node)
    (h : Joined c i s) :
    Prog.safe ex R (Tidy c) (ai.iterate eff prompt results fuel node)
      (fun _ s' => Joined c i s') s := by
  induction fuel generalizing node s with
  | zero => exact h
  | succ fuel ih =>
    apply safe_then (safe_wrapNodeRun alone gathers heff prompt results node h)
    intro result s₁ h₁
    cases result with
    | finish output => exact h₁
    | node next =>
      apply safe_then (safe_level alone (level_advance next) h₁)
      intro _ s₂ h₂
      exact ih next h₂

theorem safe_run (gathers : Gathers ai) (heff : eff.record = some ⟨c⟩)
    (prompt : Option Json) (history : List ModelMessage) (results : DeferredToolResults)
    (h : Joined c i s) :
    Prog.safe ex R (Tidy c) (ai.run eff prompt history results) (fun _ s' => Joined c i s') s := by
  apply safe_set alone h
  · exact fun _ => rfl
  intro s₁ h₁
  apply safe_then (safe_iterate alone gathers heff prompt results _ _ h₁)
  intro output s₂ h₂
  apply safe_set alone h₂
  · exact fun _ => rfl
  · exact fun _ h₃ => h₃

end

/-! A whole attempt. -/

section
variable {out : Outside} {c : String} {i : Nat} {s : Scene}
variable {ex : Prog.Exec Op Op.Res Exn Scene} {R : Scene → Scene → Prop}
variable (alone : Alone out c i ex R) {rt : AgentRuntime} {e : Execution}
include alone

theorem safe_openBranch (htranscript : rt.transcript = true) (hconversation : e.conversation = c)
    {a : Attempt} (messageHistory : Option (List ModelMessage)) (ha : s.attempts i = a)
    (h : Orderly c s.world) :
    Prog.safe ex R (Tidy c) (rt.openBranch e messageHistory)
      (fun r s' => ∀ history, r = .ok history → Joined c i s') s := by
  have hmidway : Midway c i a (fun _ => True) a.branch (s.world.transcript.read c) s :=
    ⟨ha, rfl, h, trivial⟩
  have hjoined : ∀ {branch entries s'}, Midway c i a (fun _ => True) branch entries s' →
      Linked branch entries → Joined c i s' := by
    intro branch entries s' hm hlinked
    refine ⟨hm.orderly, ?_⟩
    rw [hm.memory, hm.read]
    exact hlinked
  unfold AgentRuntime.openBranch
  rw [if_pos htranscript, hconversation]
  apply (Prog.safe_bind _ _ _ _).mpr
  apply opening_safe (follows alone a) hmidway
  intro branch s₁ h₁ hlinked _
  cases messageHistory with
  | none =>
    apply (Prog.safe_bind _ _ _ _).mpr
    apply attempt_safe (follows alone a) h₁
    intro s₂ h₂ history _
    exact hjoined h₂ hlinked
  | some history =>
    apply (Prog.safe_bind _ _ _ _).mpr
    apply replace_safe (follows alone a) h₁ hlinked (fun _ => trivial)
    intro branch₂ entries₂ s₂ h₂ hlinked₂ _ history _
    exact hjoined h₂ hlinked₂

/-- The final history is committed as it is. -/
theorem safe_replaceFinal (htranscript : rt.transcript = true) (hconversation : e.conversation = c)
    (h : Joined c i s) :
    Prog.safe ex R (Tidy c) (rt.replaceFinal e)
      (fun r s' => ∀ u, r = .ok u →
        Orderly c s'.world ∧ Holds c (s'.attempts i).messages s') s := by
  have hmidway : Midway c i (s.attempts i) (fun _ => True) (s.attempts i).branch
      (s.world.transcript.read c) s := ⟨rfl, rfl, h.orderly, trivial⟩
  unfold AgentRuntime.replaceFinal
  rw [if_pos htranscript, hconversation]
  apply (Prog.safe_bind _ _ _ _).mpr
  apply attempt_safe (follows alone (s.attempts i)) hmidway
  intro s₁ h₁
  apply replace_safe (follows alone (s.attempts i)) h₁ h.linked (fun _ => trivial)
  intro branch entries s₂ h₂ hlinked hsaid u _
  have hjoined : Joined c i s₂ := by
    refine ⟨h₂.orderly, ?_⟩
    rw [h₂.memory, h₂.read]
    exact hlinked
  have hholds := hjoined.holds
  refine ⟨h₂.orderly, ?_⟩
  unfold Holds at hholds ⊢
  rw [← hholds, h₂.memory]
  exact hsaid.symm

/-- How an attempt ends: it leaves the conversation and its own messages as they are. -/
theorem safe_ends {α : Type} {p : Program α} (hp : p.AllOps Ends) {messages : List ModelMessage}
    (horderly : Orderly c s.world) (h : Holds c messages s) :
    Prog.safe ex R (Tidy c) p (fun _ s' => Orderly c s'.world ∧ Holds c messages s') s := by
  apply Prog.safe_of_allOps _ _ hp ⟨horderly, h⟩
  · intro a b hr ha
    have hapart := alone.rely a b hr
    exact ⟨ha.1.later hapart.read hapart.instant, ha.2.apart hapart⟩
  · intro o ho a r b ha he
    obtain ⟨hb, hread⟩ := orderly_op (level_ends ho) ha.1 (alone.exec _ _ _ _ he)
    refine ⟨hb, hb, ?_⟩
    have hh := ha.2
    unfold Holds committed at hh ⊢
    rw [hread]
    exact hh

theorem safe_close {output : Output} (horderly : Orderly c s.world)
    (h : Holds c (s.attempts i).messages s) :
    Prog.safe ex R (Tidy c) (rt.close e output)
      (fun r s' => ∀ outcome, r = .ok outcome → Holds c outcome.messages s') s := by
  unfold AgentRuntime.close
  apply (Prog.safe_bind _ _ _ _).mpr
  apply (Prog.safe_op _ _ _).mpr
  intro s₁ hr r s₂ he
  have hapart := alone.rely _ _ hr
  have hexec := alone.exec _ _ _ _ he
  have hlevel : Level .get := trivial
  obtain ⟨horderly₂, hread⟩ :=
    orderly_op hlevel (horderly.later hapart.read hapart.instant) hexec
  obtain ⟨-, -, hreply⟩ := exec_events hexec
  have hholds : Holds c (s.attempts i).messages s₂ := by
    have h₁ := h.apart hapart
    unfold Holds committed at h₁ ⊢
    rw [hread]
    exact h₁
  refine ⟨horderly₂, ?_⟩
  subst hreply
  apply (Prog.safe_bind _ _ _ _).mpr
  apply Prog.safe_post (safe_ends alone (ends_closeRecord rt e) horderly₂ hholds)
  intro r s₃ h₃
  cases r with
  | error error => simp
  | ok u =>
    intro outcome houtcome
    cases houtcome
    simp only [id, hapart.memory]
    exact h₃.2

omit alone in
/-- A parked round is no outcome. -/
theorem park_unended {α : Type} {eff : Effects} {requests : DeferredToolRequests} {token : Nat} :
    (rt.park (α := α) e e.conversation eff requests token).AllRets (fun _ => False) := by
  unfold AgentRuntime.park
  split
  · trivial
  · split
    · trivial
    · trivial
    · simp only
      split
      · trivial
      · apply Prog.allRets_then
        intro a
        apply Prog.allRets_then
        intro _
        apply Prog.allRets_then
        intro _
        trivial

/-- An attempt that returns has left the conversation at its own messages. -/
theorem safe_attemptRun (htranscript : rt.transcript = true) (hconversation : e.conversation = c)
    {token : Nat} {agent : Agent} (gathers : Gathers agent.toPydanticAI) (prompt : Option String)
    (options : Options) (h : Orderly c s.world) :
    Prog.safe ex R (Tidy c) (rt.attemptRun e token agent prompt options)
      (fun r s' => ∀ outcome, r = .ok outcome → Holds c outcome.messages s') s := by
  have heff : (rt.effectsOf e token agent options).record = some ⟨c⟩ := by
    rw [effectsOf_record rt e token agent options htranscript, hconversation]
  unfold AgentRuntime.attemptRun
  apply (Prog.safe_bind _ _ _ _).mpr
  apply (Prog.safe_op _ _ _).mpr
  intro s₁ hr r s₂ he
  have hapart := alone.rely _ _ hr
  have hexec := alone.exec _ _ _ _ he
  have hattempts := exec_attempts hexec
  obtain ⟨-, hworld, -⟩ := exec_events hexec
  have horderly₂ : Orderly c s₂.world := by
    apply h.later
    · rw [hworld]
      exact hapart.read
    · rw [hworld, step_instant]
      exact hapart.instant.trans (Nat.le_succ _)
  have hfresh : s₂.attempts i = {} := by
    rw [hattempts]
    simp [step]
  refine ⟨horderly₂, ?_⟩
  cases r with
  | error error => simp
  | ok u =>
    apply (Prog.safe_bind _ _ _ _).mpr
    apply Prog.safe_post (safe_openBranch alone htranscript hconversation _ hfresh horderly₂)
    intro r s₃ h₃
    cases r with
    | error error => simp
    | ok history =>
      have hprompt : (rt.admitPrompt e token prompt options.promptId).AllOps Level :=
        level (rt.effectsOf e token agent options)
          (within_admitPrompt rt e token agent options _ _)
      apply (Prog.safe_bind _ _ _ _).mpr
      apply Prog.safe_post (safe_level alone hprompt (h₃ history rfl))
      intro r s₄ h₄
      cases r with
      | error error => simp
      | ok prompt =>
        apply (Prog.safe_bind _ _ _ _).mpr
        apply Prog.safe_post (safe_run alone gathers heff _ _ _ h₄)
        intro r s₅ h₅
        cases r with
        | error error => simp
        | ok output =>
          apply (Prog.safe_bind _ _ _ _).mpr
          apply Prog.safe_post (safe_replaceFinal alone htranscript hconversation h₅)
          intro r s₆ h₆
          cases r with
          | error error => simp
          | ok u =>
            obtain ⟨horderly₆, hholds⟩ := h₆ u rfl
            cases output with
            | deferred requests =>
              apply Prog.safe_post (Prog.safe_rets park_unended
                (safe_ends alone (ends_park rt e token) horderly₆ hholds))
              intro r s₇ h₇ outcome houtcome
              exact (h₇.2 outcome houtcome).elim
            | text content => exact safe_close alone horderly₆ hholds
            | value value => exact safe_close alone horderly₆ hholds

end

end Semora.Proofs.Closing
