import Semora.Lib.Generations
import Semora.Proofs.Operations
import Semora.Proofs.Permanence
import Semora.Scene

/-! What `post_tool_use` made of a result is what the model is given, for good. -/

namespace Semora.Proofs.Projection
open Semora.Lib Semora.Store Relation

section
variable (v : View) (b id : String)

/-- The record of the call's effect. -/
def toolAt (w : World) : Step Value := w.store.step (v.filed b) (Effects.stepKey id)

/-- The call's journal. -/
def afterAt (w : World) : Step Value := w.store.step (v.filed b) (Effects.afterKey id)

/-- What came of a hook that was asked about the call. -/
def hookOf : Event → Option (Except Exn Json)
  | ⟨_, .ask _ (.postToolUse _ call _), r⟩ => if call.toolCallId = id then some r else none
  | _ => none

def hooks (events : List Event) : List (Except Exn Json) := events.filterMap (hookOf id)

/-- Some attempt's hook finished for the call. -/
def Hooked (events : List Event) : Prop := ∃ value, .ok value ∈ hooks id events

/-- A control plane raised `ToolFailed` itself. -/
def raised? : Event → Option String
  | ⟨_, .ask _ _, .error (.toolFailed m)⟩ => some m
  | _ => none

def Raised (m : String) (events : List Event) : Prop := ∃ e ∈ events, raised? e = some m

/-- The journal holds a projection. -/
def Committed (s : Scene) : Prop := ∃ value, afterAt v b id s.world = .done value

/-- What holds of the two records of the call between any two operations. -/
structure Inv (s : Scene) : Prop where
  idle : afterAt v b id s.world ≠ .running
  /-- A journaled call has its effect recorded, and its projection came out of a hook. -/
  journaled : ∀ value, afterAt v b id s.world = .done value →
    (∃ p, value = .hooked p) ∧ (∃ effect, toolAt v b id s.world = .done effect) ∧ Hooked id s.events

/-- Everything else that happens meanwhile: anything that leaves the two records alone. -/
def Meanwhile (s s' : Scene) : Prop :=
  s'.events = s.events ∧ toolAt v b id s'.world = toolAt v b id s.world ∧
    afterAt v b id s'.world = afterAt v b id s.world

/-- One attempt on the branch: its boundary, its agent, and the calls it comes to. -/
structure Tried where
  eff : Effects
  store : eff.store = some v
  branch : eff.branchId = b
  ai : PydanticAI
  calls : Nat → ToolCall × Option Approval

namespace Tried

variable {v b} (n : Tried v b)

def programs (i : Nat) : Program (ToolCall × CallOutcome) :=
  n.ai.executeCall n.eff (n.calls i).1 (n.calls i).2

/-- The thread is one of this call. -/
def Mine (i : Nat) : Prop := (n.calls i).1.toolCallId = id

/-- The attempt comes to the call once. -/
def Sole : Prop := ∀ i j, n.Mine id i → n.Mine id j → i = j

/-- The call does not get to the tool boundary: a person denied it, or Pydantic AI refuses its
arguments. -/
def TurnedAway (i : Nat) : Prop :=
  match (n.calls i).2 with
  | some (.denied _) => True
  | some (.approved override) => (n.ai.validate (n.calls i).1 override).isOk = false
  | none => (n.ai.validate (n.calls i).1 none).isOk = false

end Tried

/-- Another attempt begins: at once, or as a fork which first copies the records of open calls,
and may ask its own policy about what it copied. -/
def Begins (out : Outside) (self : Nat → Nat) (n : Tried v b) (s s' : Scene) : Prop :=
  ∃ (i : Nat) (source : View) (src dst : Execution) (token : Nat) (open_ : List ToolCall)
    (q : Program (List String)), dst.branchId = b ∧
    Prog.Runs (exec out self i) (Meanwhile v b id)
      (AgentRuntime.copyCalls source v src dst token open_) s q s' ∧
    (n.eff.regate = [] ∨ q = .ret n.eff.regate)

/-- One attempt after another on the branch, each stopped anywhere. -/
abbrev Attempts (out : Outside) (self : Nat → Nat) :=
  ReflTransGen (Generation.Step (exec out self) (Meanwhile v b id) Tried.programs
    (Begins v b id out self))

end

/-- A record as the model is given it. -/
def told : Record → CallOutcome
  | .ok value => .returned value
  | .failed error => .failed error

section
variable {v : View} {b id : String} {s s' : Scene} {out : Outside} {self : Nat → Nat} {i : Nat}

/-- What a move makes of the call that leaves its journal alone and asks no hook about it. -/
structure Still (v : View) (b id : String) (s s' : Scene) : Prop where
  events : s.events <+: s'.events
  tool : ∀ effect, toolAt v b id s.world = .done effect → toolAt v b id s'.world = .done effect
  after : afterAt v b id s'.world = afterAt v b id s.world
  asked : hooks id s'.events = hooks id s.events

/-- An operation that writes no journal of the call and asks no hook about it. -/
def Plain (id : String) : Op → Prop
  | .ledger (.read ..) | .get | .modify _ | .handle .. => True
  | .ledger (.start _ k _) | .ledger (.finishEffect _ k _ _) | .ledger (.forget _ k _) =>
    Effects.EffectKey k
  | .ledger (.writeControl _ k _ _) => ∃ other, other ≠ id ∧ k = Effects.afterKey other
  | .ask _ (.postToolUse _ call _) => call.toolCallId ≠ id
  | .ask .. => True
  | _ => False

theorem afterKey_injective {a c : String} (h : Effects.afterKey a = Effects.afterKey c) :
    a = c := by
  have hl := congrArg String.toList h
  simp only [Effects.afterKey, String.toList_append, List.append_cancel_left_eq] at hl
  exact String.toList_inj.mp hl

theorem hooked_mono (h : s.events <+: s'.events) (hs : Hooked id s.events) :
    Hooked id s'.events := by
  obtain ⟨value, hm⟩ := hs
  exact ⟨value, (h.sublist.filterMap _).subset hm⟩

theorem raised_mono {m : String} (h : s.events <+: s'.events) (hs : Raised m s.events) :
    Raised m s'.events := by
  obtain ⟨e, he, hm⟩ := hs
  exact ⟨e, h.subset he, hm⟩

theorem Inv.kept (hi : Inv v b id s) (events : s.events <+: s'.events)
    (tool : ∀ effect, toolAt v b id s.world = .done effect → toolAt v b id s'.world = .done effect)
    (after : afterAt v b id s'.world = afterAt v b id s.world) : Inv v b id s' := by
  refine ⟨after ▸ hi.idle, ?_⟩
  intro value hv
  rw [after] at hv
  obtain ⟨hp, ⟨effect, he⟩, hh⟩ := hi.journaled value hv
  exact ⟨hp, ⟨effect, tool effect he⟩, hooked_mono events hh⟩

theorem Still.trans {s'' : Scene} (h : Still v b id s s') (h' : Still v b id s' s'') :
    Still v b id s s'' :=
  ⟨h.events.trans h'.events, fun _ he => h'.tool _ (h.tool _ he), h'.after.trans h.after,
    h'.asked.trans h.asked⟩

theorem Still.inv (h : Still v b id s s') (hi : Inv v b id s) : Inv v b id s' :=
  hi.kept h.events h.tool h.after

theorem meanwhile_still (h : Meanwhile v b id s s') : Still v b id s s' := by
  obtain ⟨hevents, htool, hafter⟩ := h
  refine ⟨hevents ▸ List.prefix_rfl, ?_, hafter, by rw [hevents]⟩
  intro effect he
  rw [htool]
  exact he

/-- A record no control writes is permanent, and one no call names stays as it is. -/
theorem plain_step (out : Outside) {o : Op} (ho : Plain id o) (w : World) (a : Attempt) :
    (∀ effect, toolAt v b id w = .done effect →
      toolAt v b id (step out o w a).2.1 = .done effect) ∧
    afterAt v b id (step out o w a).2.1 = afterAt v b id w := by
  cases o with
  | ledger c =>
    constructor
    · intro effect he
      refine Permanence.step_kept c _ _ he ?_
      intro _ hk
      cases c with
      | writeControl b' k value t =>
        obtain ⟨other, -, rfl⟩ := ho
        exact Effects.effect_control (.inl ⟨_, rfl⟩) (.inl ⟨_, rfl⟩) (List.mem_singleton.mp hk)
      | commitTransition => exact ho.elim
      | _ => cases hk
    · have htouch := exec_touch c (out.clock w.instant) (out.clock (w.instant + 1)) w.store
        (v.filed b) (Effects.afterKey id)
      have hcontrol : Effects.ControlKey (Effects.afterKey id) := .inl ⟨id, rfl⟩
      unfold afterAt MemorySteps.step
      simp only [step]
      generalize (c.exec (out.clock w.instant) (out.clock (w.instant + 1)) w.store).2.entries.get?
        (v.filed b, Effects.afterKey id) = st at htouch ⊢
      generalize w.store.entries.get? (v.filed b, Effects.afterKey id) = st₀ at htouch ⊢
      cases htouch with
      | same => rfl
      | start t hc =>
        subst hc
        exact absurd rfl (Effects.effect_control ho hcontrol)
      | finish value t hc =>
        subst hc
        exact absurd rfl (Effects.effect_control ho hcontrol)
      | control _ value t hc =>
        subst hc
        obtain ⟨other, hne, hk⟩ := ho
        exact absurd (afterKey_injective hk).symm hne
      | forget _ t hc =>
        subst hc
        exact absurd rfl (Effects.effect_control ho hcontrol)
      | transition _ tr value t hc =>
        subst hc
        exact ho.elim
  | append | readEntries | recordBranch | readBranch | recordModelUsage | provide | uuid4 | now =>
    exact ho.elim
  | handle | ask | get | modify => exact ⟨fun _ he => he, rfl⟩

theorem plain_hook {o : Op} {r : Except Exn o.Res} (ho : Plain id o) :
    hookOf id ⟨i, o, r⟩ = none := by
  cases o with
  | ask plane q =>
    cases q with
    | postToolUse here call result => exact if_neg ho
    | _ => rfl
  | _ => rfl

theorem plain_op {o : Op} {r : Except Exn o.Res} (ho : Plain id o)
    (h : exec out self i o s r s') : Still v b id s s' := by
  obtain ⟨hevents, hworld, -⟩ := exec_events h
  have hstep : (∀ effect, toolAt v b id s.world = .done effect →
      toolAt v b id (step out o s.world (s.attempts (self i))).2.1 = .done effect) ∧
      afterAt v b id (step out o s.world (s.attempts (self i))).2.1 = afterAt v b id s.world :=
    plain_step out ho s.world (s.attempts (self i))
  obtain ⟨htool, hafter⟩ := hstep
  refine ⟨?_, ?_, ?_, ?_⟩
  · rw [hevents]
    exact List.prefix_append _ _
  · rw [hworld]
    exact htool
  · rw [hworld]
    exact hafter
  · rw [hevents]
    simp [hooks, plain_hook ho]

end

/-! What each attempt may do to the two records, and what it may count on. -/

section
variable (v : View) (b id : String)

/-- A move after which the call's effect is still its effect, and its journal is still there; the
same one, where it is final. -/
structure Moves (final : Prop) (s s' : Scene) : Prop where
  inv : Inv v b id s'
  events : s.events <+: s'.events
  tool : ∀ effect, toolAt v b id s.world = .done effect → toolAt v b id s'.world = .done effect
  after : ∀ value, afterAt v b id s.world = .done value →
    Committed v b id s' ∧ (final → afterAt v b id s'.world = .done value)

/-- An attempt finds the journal final if it was there when the attempt began, or if the attempt
comes to the call once. -/
def Final (n : Tried v b) (s₀ : Scene) : Prop := Committed v b id s₀ ∨ n.Sole id

structure Rely (n : Tried v b) (s₀ : Scene) (i : Nat) (s s' : Scene) : Prop where
  moves : Moves v b id (Final v b id n s₀) s s'
  asked : Committed v b id s₀ → hooks id s'.events = hooks id s.events
  alone : n.Mine id i → n.Sole id → afterAt v b id s'.world = afterAt v b id s.world

structure Guarantee (n : Tried v b) (s₀ : Scene) (i : Nat) (s s' : Scene) : Prop where
  moves : Moves v b id (Final v b id n s₀) s s'
  asked : Committed v b id s₀ → hooks id s'.events = hooks id s.events
  other : ¬ n.Mine id i → afterAt v b id s'.world = afterAt v b id s.world

/-- Under a control plane, a result came out of a hook, or is a failure the plane raised. -/
def Shown (n : Tried v b) (r : Except Exn (ToolCall × CallOutcome)) (s : Scene) : Prop :=
  n.eff.controls ≠ none → ∀ call outcome, r = .ok (call, outcome) →
    (∀ value, outcome = .returned value → Hooked id s.events) ∧
      ∀ m, outcome = .failed m → Hooked id s.events ∨ Raised m s.events

/-- How a thread of the call may end. -/
structure Ends (n : Tried v b) (s₀ : Scene) (i : Nat) (r : Except Exn (ToolCall × CallOutcome))
    (s : Scene) : Prop where
  shown : Shown v b id n r s
  /-- A journaled projection is the answer, unless the call is turned away. -/
  final : ∀ p, afterAt v b id s₀.world = .done (.hooked p) → ∀ call outcome,
    r = .ok (call, outcome) → (outcome = told p ↔ ¬ n.TurnedAway i)

def Post (n : Tried v b) (s₀ : Scene) (i : Nat) (r : Except Exn (ToolCall × CallOutcome))
    (s : Scene) : Prop :=
  n.Mine id i → Ends v b id n s₀ i r s

end

section
variable {v : View} {b id : String} {s s' s'' s₀ : Scene} {out : Outside} {self : Nat → Nat}
variable {i : Nat} {n : Tried v b} {final : Prop}

theorem Still.moves (h : Still v b id s s') (hi : Inv v b id s) : Moves v b id final s s' := by
  refine ⟨h.inv hi, h.events, h.tool, ?_⟩
  intro value hv
  rw [← h.after] at hv
  exact ⟨⟨value, hv⟩, fun _ => hv⟩

theorem Still.guarantee (h : Still v b id s s') (hi : Inv v b id s) :
    Guarantee v b id n s₀ i s s' :=
  ⟨h.moves hi, fun _ => h.asked, fun _ => h.after⟩

theorem Still.rely (h : Still v b id s s') (hi : Inv v b id s) : Rely v b id n s₀ i s s' :=
  ⟨h.moves hi, fun _ => h.asked, fun _ _ => h.after⟩

theorem still_refl (s : Scene) : Still v b id s s := ⟨List.prefix_rfl, fun _ h => h, rfl, rfl⟩

theorem Moves.trans (h : Moves v b id final s s') (h' : Moves v b id final s' s'') :
    Moves v b id final s s'' := by
  refine ⟨h'.inv, h.events.trans h'.events, fun effect he => h'.tool _ (h.tool _ he), ?_⟩
  intro value hv
  obtain ⟨⟨value', hv'⟩, hfinal⟩ := h.after value hv
  obtain ⟨hc, -⟩ := h'.after value' hv'
  exact ⟨hc, fun hf => (h'.after value (hfinal hf)).2 hf⟩

theorem Rely.trans (h : Rely v b id n s₀ i s s') (h' : Rely v b id n s₀ i s' s'') :
    Rely v b id n s₀ i s s'' :=
  ⟨h.moves.trans h'.moves, fun hc => (h'.asked hc).trans (h.asked hc),
    fun hm hs => (h'.alone hm hs).trans (h.alone hm hs)⟩

/-- What the attempts may count on together. -/
theorem compatible (n : Tried v b) (s₀ : Scene) :
    Compatible (Meanwhile v b id) (Inv v b id) (Rely v b id n s₀) (Guarantee v b id n s₀)
      (Post v b id n s₀) where
  refl i s hi := (still_refl s).rely hi
  trans i s s' s'' h h' := h.trans h'
  stable i r s s' h hr hm := by
    refine ⟨?_, (h hm).final⟩
    intro hc call outcome hrr
    obtain ⟨hreturned, hfailed⟩ := (h hm).shown hc call outcome hrr
    constructor
    · intro value ho
      exact hooked_mono hr.moves.events (hreturned value ho)
    · intro m ho
      rcases hfailed m ho with hh | hh
      · exact .inl (hooked_mono hr.moves.events hh)
      · exact .inr (raised_mono hr.moves.events hh)
  keeps i s s' _ h := h.moves.inv
  other i j s s' hij _ h := by
    refine ⟨h.moves, h.asked, ?_⟩
    intro hm hs
    exact h.other (fun hi => hij (hs i j hi hm))
  env s s' hi h := by
    have hstill := meanwhile_still h
    exact ⟨hstill.inv hi, fun i => hstill.rely hi⟩

end

/-! A fork's copies are of calls that nothing is journaled about. -/

section
variable {v : View} {b id : String} {s s' : Scene} {out : Outside} {self : Nat → Nat} {i : Nat}

/-- A `start` that reports insertion found nothing. -/
theorem started {b' k : String} {t : Nat}
    (h : exec out self i (.ledger (.start b' k t)) s (.ok true) s') :
    s.world.store.entries.get? (b', k) = none := by
  have hreply := (exec_events h).2.2
  simp only [step, Call.exec] at hreply
  rcases MemorySteps.start_cases s.world.store b' k t with ⟨e, he⟩ | ⟨st, -, he⟩ | ⟨hnone, -⟩
  · rw [he] at hreply
    cases hreply
  · rw [he] at hreply
    cases hreply
  · exact hnone

theorem absent_of_unfinished (hi : Inv v b id s)
    (h : ∀ effect, toolAt v b id s.world ≠ .done effect) : afterAt v b id s.world = .absent := by
  cases ha : afterAt v b id s.world with
  | absent => rfl
  | running => exact absurd ha hi.idle
  | done value =>
    obtain ⟨-, ⟨effect, he⟩, -⟩ := hi.journaled value ha
    exact absurd he (h effect)

abbrev Copying (out : Outside) (self : Nat → Nat) (v : View) (b id : String) (i : Nat) {α : Type}
    (p : Program α) (Q : Except Exn α → Scene → Prop) (s : Scene) : Prop :=
  Prog.safe (exec out self i) (Meanwhile v b id) (Still v b id) p Q s

/-- The journal, as it was and is. -/
def Kept (v : View) (b id : String) (st : Step Value) (s : Scene) : Prop :=
  Inv v b id s ∧ afterAt v b id s.world = st

theorem Kept.still {st : Step Value} (h : Kept v b id st s) (hs : Still v b id s s') :
    Kept v b id st s' := ⟨hs.inv h.1, hs.after.trans h.2⟩

theorem copying_op {o : Op} {st : Step Value} {Q : Except Exn o.Res → Scene → Prop}
    (ho : Plain id o) (h : Kept v b id st s)
    (hQ : ∀ s₁ r s₂, Kept v b id st s₁ → exec out self i o s₁ r s₂ → Kept v b id st s₂ → Q r s₂) :
    Copying out self v b id i (perform o) Q s := by
  apply (Prog.safe_op _ _ _).mpr
  intro s₁ hr r s₂ he
  have h₁ := h.still (meanwhile_still hr)
  have hstill : Still v b id s₁ s₂ := plain_op ho he
  exact ⟨hstill, hQ s₁ r s₂ h₁ he (h₁.still hstill)⟩

/-- A record the copying put in was of a call whose effect was not finished. -/
theorem copying_copyCalls {st : Step Value} (source : View) (src dst : Execution)
    (hdst : dst.branchId = b) (token : Nat) (open_ : List ToolCall) (h : Kept v b id st s) :
    Copying out self v b id i (AgentRuntime.copyCalls source v src dst token open_)
      (fun r s' => Kept v b id st s' ∧ ∀ copied, r = .ok copied → id ∈ copied → st = .absent)
      s := by
  induction open_ generalizing s with
  | nil =>
    refine ⟨h, ?_⟩
    intro copied hr hm
    cases hr
    cases hm
  | cons call calls ih =>
    unfold AgentRuntime.copyCalls
    simp only [Prog.bind_eq, Prog.pure_eq]
    apply (Prog.safe_bind _ _ _ _).mpr
    apply copying_op (o := .ledger (.read _ _)) trivial h
    intro s₁ r s₂ _ _ h₂
    have hkey : Effects.EffectKey (Effects.stepKey call.toolCallId) := .inl ⟨_, rfl⟩
    cases r with
    | error e => exact ⟨h₂, fun _ hr => by cases hr⟩
    | ok record =>
      cases record with
      | absent => exact ih h₂
      | running =>
        apply (Prog.safe_bind _ _ _ _).mpr
        apply copying_op (o := .ledger (.start _ _ _)) hkey h₂
        intro s₃ r s₄ _ _ h₄
        cases r with
        | error e => exact ⟨h₄, fun _ hr => by cases hr⟩
        | ok inserted => exact ih h₄
      | done value =>
        apply (Prog.safe_bind _ _ _ _).mpr
        apply copying_op (o := .ledger (.start _ _ _)) hkey h₂
        intro s₃ r s₄ h₃ he h₄
        cases r with
        | error e => exact ⟨h₄, fun _ hr => by cases hr⟩
        | ok inserted =>
          cases inserted with
          | false => exact ih h₄
          | true =>
            have habsent : call.toolCallId = id → st = .absent := by
              intro hid
              have hstart := started he
              rw [hdst, hid] at hstart
              rw [← h₃.2]
              apply absent_of_unfinished h₃.1
              intro effect hd
              rw [toolAt, MemorySteps.step, hstart] at hd
              cases hd
            apply (Prog.safe_bind _ _ _ _).mpr
            apply copying_op (o := .ledger (.finishEffect _ _ _ _)) hkey h₄
            intro s₅ r s₆ _ _ h₆
            cases r with
            | error e => exact ⟨h₆, fun _ hr => by cases hr⟩
            | ok u =>
              apply (Prog.safe_bind _ _ _ _).mpr
              apply Prog.safe_post (ih h₆)
              intro r s₇ hrecursive
              obtain ⟨h₇, hrest⟩ := hrecursive
              cases r with
              | error e => exact ⟨h₇, fun _ hr => by cases hr⟩
              | ok copied =>
                refine ⟨h₇, ?_⟩
                intro copied' hr hm
                cases hr
                rcases List.mem_cons.mp hm with hid | hm
                · exact habsent hid.symm
                · exact hrest copied rfl hm

end

/-! Each thread alone. -/

section
variable {v : View} {b id : String} {s s' s₀ : Scene} {out : Outside} {self : Nat → Nat}
variable {n : Tried v b} {i : Nat}

abbrev Safe (out : Outside) (self : Nat → Nat) (id : String) (n : Tried v b) (s₀ : Scene) (i : Nat)
    {α : Type} (p : Program α) (Q : Except Exn α → Scene → Prop) (s : Scene) : Prop :=
  Prog.safe (exec out self i) (Rely v b id n s₀ i) (Guarantee v b id n s₀ i) p Q s

/-- What a thread that is not this call's does is plain. -/
theorem plain_executeCall (hi : ¬ n.Mine id i) : (n.programs i).AllOps (Plain id) := by
  have hkey : Effects.EffectKey (Effects.stepKey (n.calls i).1.toolCallId) := .inl ⟨_, rfl⟩
  apply carries_executeCall
  · exact ⟨trivial, fun _ _ => trivial, fun _ _ => trivial, fun _ _ _ _ => trivial,
      fun _ => trivial, fun _ _ => trivial, fun _ _ => hkey, fun _ _ _ => hkey, fun _ _ => hkey⟩
  · exact ⟨trivial, fun _ _ => trivial, fun _ _ _ => hi, fun _ _ _ => ⟨_, hi, rfl⟩⟩

theorem safe_plain {α : Type} {p : Program α} (hp : p.AllOps (Plain id)) (hi : Inv v b id s) :
    Safe out self id n s₀ i p (fun _ s' => Inv v b id s') s := by
  apply Prog.safe_of_allOps _ _ hp hi
  · intro s₁ s₂ hr _
    exact hr.moves.inv
  · intro o ho s₁ r s₂ h₁ he
    have hstill : Still v b id s₁ s₂ := plain_op ho he
    exact ⟨hstill.guarantee h₁, hstill.inv h₁⟩

theorem safe_other (hi : Inv v b id s) (hmine : ¬ n.Mine id i) :
    Safe out self id n s₀ i (n.programs i) (Post v b id n s₀ i) s := by
  apply Prog.safe_post (safe_plain (plain_executeCall hmine) hi)
  intro r s' _ hm
  exact absurd hm hmine

/-! A thread of a call that was journaled before its attempt began. -/

/-- The journal holds this projection. -/
def Settled (v : View) (b id : String) (p : Record) (s : Scene) : Prop :=
  Inv v b id s ∧ afterAt v b id s.world = .done (.hooked p)

variable {p : Record}

theorem settled_op {o : Op} {Q : Except Exn o.Res → Scene → Prop} (hc : Committed v b id s₀)
    (ho : Plain id o) (h : Settled v b id p s)
    (hQ : ∀ s₁ r s₂, Settled v b id p s₁ → exec out self i o s₁ r s₂ → Settled v b id p s₂ →
      Q r s₂) :
    Safe out self id n s₀ i (perform o) Q s := by
  apply (Prog.safe_op _ _ _).mpr
  intro s₁ hr r s₂ he
  have h₁ : Settled v b id p s₁ := ⟨hr.moves.inv, (hr.moves.after _ h.2).2 (.inl hc)⟩
  have hstill : Still v b id s₁ s₂ := plain_op ho he
  exact ⟨hstill.guarantee h₁.1, hQ s₁ r s₂ h₁ he ⟨hstill.inv h₁.1, hstill.after.trans h₁.2⟩⟩

theorem read_reply {b' k : String} {r : Except Exn (Step Value)}
    (h : exec out self i (.ledger (.read b' k)) s r s') : r = .ok (s.world.store.step b' k) :=
  (exec_events h).2.2

theorem settled_verdict (hc : Committed v b id s₀) (hregate : id ∉ n.eff.regate) {call : ToolCall}
    (hid : call.toolCallId = id) (approved : Bool) (args : Json) (h : Settled v b id p s) :
    Safe out self id n s₀ i (n.eff.verdict approved call args)
      (fun r s' => Settled v b id p s' ∧ r = .ok (call, .continue)) s := by
  unfold Effects.verdict Effects.ctx
  simp only [Prog.bind_eq, Prog.pure_eq, Prog.bind_assoc]
  apply (Prog.safe_bind _ _ _ _).mpr
  apply settled_op (o := .get) hc trivial h
  intro s₁ r s₂ _ he h₂
  have hr := (exec_events he).2.2
  subst hr
  have hread : n.eff.readStep (Effects.stepKey id) =
      perform (.ledger (.read (v.filed b) (Effects.stepKey id))) := by
    unfold Effects.readStep
    rw [n.store, n.branch]
    rfl
  simp only [Effects.replayed, hid, hregate, ↓reduceIte, Effects.recorded, hread, Prog.bind_eq,
    Prog.pure_eq, Prog.ret_bind, Prog.bind_assoc]
  apply (Prog.safe_bind _ _ _ _).mpr
  apply settled_op (o := .ledger (.read _ _)) hc trivial h₂
  intro s₃ r s₄ h₃ he h₄
  have hr := read_reply he
  obtain ⟨-, ⟨effect, heffect⟩, -⟩ := h₃.1.journaled _ h₃.2
  rw [toolAt] at heffect
  rw [heffect] at hr
  subst hr
  exact ⟨h₄, rfl⟩

theorem settled_runOrReplay (hc : Committed v b id s₀) {call : ToolCall}
    (hid : call.toolCallId = id) (args : Json) (handler : Json → Program Json)
    (h : Settled v b id p s) :
    Safe out self id n s₀ i (n.eff.runOrReplay call args handler)
      (fun r s' => Settled v b id p s' ∧ ∀ e, r = .error e → ∃ m, e = .other m) s := by
  unfold Effects.runOrReplay
  simp only [n.store, n.branch, hid, Prog.bind_eq]
  apply (Prog.safe_bind _ _ _ _).mpr
  apply settled_op (o := .ledger (.read _ _)) hc trivial h
  intro s₁ r s₂ h₁ he h₂
  have hr := read_reply he
  obtain ⟨-, ⟨effect, heffect⟩, -⟩ := h₁.1.journaled _ h₁.2
  rw [toolAt] at heffect
  rw [heffect] at hr
  subst hr
  cases effect with
  | toolResult record => exact ⟨h₂, fun _ hr => nomatch hr⟩
  | _ =>
    refine ⟨h₂, ?_⟩
    intro e hr
    exact ⟨_, (Except.error.inj hr).symm⟩

theorem settled_journalOnce (hc : Committed v b id s₀) {call : ToolCall}
    (hid : call.toolCallId = id) (record : Record) (h : Settled v b id p s) :
    Safe out self id n s₀ i (n.eff.journalOnce call record)
      (fun r s' => Settled v b id p s' ∧ r = .ok p) s := by
  unfold Effects.journalOnce Effects.readStep
  simp only [n.store, n.branch, hid, Prog.bind_eq]
  apply (Prog.safe_bind _ _ _ _).mpr
  apply settled_op (o := .ledger (.read _ _)) hc trivial h
  intro s₁ r s₂ h₁ he h₂
  have hr := read_reply he
  have hafter := h₁.2
  rw [afterAt] at hafter
  rw [hafter] at hr
  subst hr
  exact ⟨h₂, rfl⟩

/-- A settled call's answer is its projection. -/
theorem settled_throughHooks (hc : Committed v b id s₀) (hregate : id ∉ n.eff.regate)
    {call : ToolCall} (hid : call.toolCallId = id) (approved : Bool) (args : Json)
    (h : Settled v b id p s) :
    Safe out self id n s₀ i (PydanticAI.throughHooks n.eff approved call args)
      (fun r s' => Settled v b id p s' ∧ ∀ c outcome, r = .ok (c, outcome) → outcome = told p)
      s := by
  unfold PydanticAI.throughHooks Effects.beforeToolExecute Effects.wrapToolExecute
  simp only [Prog.bind_eq, Prog.pure_eq, Prog.bind_assoc]
  apply (Prog.safe_tryCatch _ _ _ _).mpr
  apply (Prog.safe_bind _ _ _ _).mpr
  apply Prog.safe_post (settled_verdict hc hregate hid approved args h)
  intro r s₁ hverdict
  obtain ⟨h₁, hr⟩ := hverdict
  subst hr
  simp only [Effects.enforce, Effects.made, Prog.bind_eq, Prog.pure_eq, Prog.bind_assoc]
  apply (Prog.safe_bind _ _ _ _).mpr
  apply settled_op (o := .modify _) hc trivial h₁
  intro s₂ r s₃ _ he h₃
  have hr := (exec_events he).2.2
  subst hr
  simp only [Prog.ret_bind, step]
  apply (Prog.safe_bind _ _ _ _).mpr
  apply Prog.safe_post (settled_runOrReplay hc hid args _ h₃)
  intro r s₄ hran
  obtain ⟨h₄, hother⟩ := hran
  cases r with
  | error e =>
    obtain ⟨m, rfl⟩ := hother e rfl
    exact ⟨h₄, fun _ _ hr => by cases hr⟩
  | ok record =>
    apply (Prog.safe_bind _ _ _ _).mpr
    apply Prog.safe_post (settled_journalOnce hc hid record h₄)
    intro r s₅ hjournaled
    obtain ⟨h₅, hr⟩ := hjournaled
    subst hr
    cases p <;> refine ⟨h₅, ?_⟩ <;> intro c outcome hr <;> cases hr <;> rfl

/-! A thread of a call that nothing was journaled about when its attempt began. -/

/-- How a part of the thread may end that journals nothing: `ToolFailed` comes from the control
plane alone. -/
def Open (v : View) (b id : String) {α : Type} (r : Except Exn α) (s : Scene) : Prop :=
  Inv v b id s ∧ ∀ m, r = .error (.toolFailed m) → Raised m s.events

theorem open_ok {α : Type} {a : α} (h : Inv v b id s) : Open v b id (.ok a) s :=
  ⟨h, fun _ hr => nomatch hr⟩

theorem open_bind {α β : Type} {p : Program α} {f : α → Program β}
    (hp : Safe out self id n s₀ i p (Open v b id) s)
    (hf : ∀ a s', Inv v b id s' → Safe out self id n s₀ i (f a) (Open v b id) s') :
    Safe out self id n s₀ i (p.bind f) (Open v b id) s := by
  apply (Prog.safe_bind _ _ _ _).mpr
  apply Prog.safe_post hp
  intro r s' h
  cases r with
  | ok a => exact hf a s' h.1
  | error e => exact ⟨h.1, fun m hr => h.2 m (congrArg _ (Except.error.inj hr))⟩

/-- An operation at the boundary other than the tool itself, whose `ToolFailed` is recorded. -/
def Inner : Op → Prop
  | .ledger _ | .ask .. | .get | .modify _ => True
  | _ => False

/-- An exception of one operation comes from the ledger, or from the plane asked. -/
theorem raised_of_reply {o : Op} {r : Except Exn o.Res} (hin : Inner o)
    (he : exec out self i o s r s') : ∀ m, r = .error (.toolFailed m) → Raised m s'.events := by
  intro m hr
  obtain ⟨hevents, -, hreply⟩ := exec_events he
  subst hr
  cases o with
  | ledger c =>
    simp only [step] at hreply
    cases hexec : (c.exec (out.clock s.world.instant) (out.clock (s.world.instant + 1))
      s.world.store).1 with
    | ok a => rw [hexec] at hreply; cases hreply
    | error e => rw [hexec] at hreply; cases hreply
  | ask plane q =>
    refine ⟨⟨i, .ask plane q, .error (.toolFailed m)⟩, ?_, rfl⟩
    rw [hevents]
    exact List.mem_append_right _ (List.mem_singleton_self _)
  | get | modify => cases hreply
  | _ => exact hin.elim

theorem plain_safe_op {o : Op} {Q : Except Exn o.Res → Scene → Prop} (ho : Plain id o)
    (hQ : ∀ s₁ r s₂, Rely v b id n s₀ i s s₁ → exec out self i o s₁ r s₂ → Still v b id s₁ s₂ →
      Inv v b id s₂ → Q r s₂) : Safe out self id n s₀ i (perform o) Q s := by
  apply (Prog.safe_op _ _ _).mpr
  intro s₁ hr r s₂ he
  have hstill : Still v b id s₁ s₂ := plain_op ho he
  exact ⟨hstill.guarantee hr.moves.inv, hQ s₁ r s₂ hr he hstill (hstill.inv hr.moves.inv)⟩

theorem open_op {o : Op} (ho : Plain id o) (hin : Inner o) :
    Safe out self id n s₀ i (perform o) (Open v b id) s := by
  apply plain_safe_op ho
  intro s₁ r s₂ _ he _ hi₂
  exact ⟨hi₂, raised_of_reply hin he⟩

theorem open_readStep (key : String) (hi : Inv v b id s) :
    Safe out self id n s₀ i (n.eff.readStep key) (Open v b id) s := by
  unfold Effects.readStep
  split
  · exact open_ok hi
  · exact open_op trivial trivial

theorem open_verdict (approved : Bool) (call : ToolCall) (args : Json) :
    Safe out self id n s₀ i (n.eff.verdict approved call args) (Open v b id) s := by
  have hreplayed : ∀ s, Inv v b id s →
      Safe out self id n s₀ i (n.eff.replayed call) (Open v b id) s := by
    intro s hi
    unfold Effects.replayed
    split
    · exact open_ok hi
    · exact open_bind (open_readStep _ hi) (fun _ s' hi' => open_ok hi')
  have hresume : ∀ here asked s, Inv v b id s →
      Safe out self id n s₀ i (n.eff.resumeDecision here asked) (Open v b id) s := by
    intro here asked s hi
    unfold Effects.resumeDecision
    split
    · exact open_op trivial trivial
    · exact open_ok hi
  have hgate : ∀ here s, Inv v b id s →
      Safe out self id n s₀ i (n.eff.gate here call) (Open v b id) s := by
    intro here s hinv
    have hpolicy : Safe out self id n s₀ i (n.eff.policy here call) (Open v b id) s := by
      unfold Effects.policy
      split
      · exact open_ok hinv
      · exact open_op trivial trivial
    exact open_bind hpolicy
      (fun _ s' _ => open_bind (open_op trivial trivial) (fun _ s'' hi'' => open_ok hi''))
  have hctx : Safe out self id n s₀ i (n.eff.ctx []) (Open v b id) s :=
    open_bind (open_op (o := .get) trivial trivial) (fun _ s' hi' => open_ok hi')
  apply open_bind hctx
  intro here s₁ hi₁
  apply open_bind (hreplayed s₁ hi₁)
  intro replayed s₂ hi₂
  split
  · exact open_ok hi₂
  · split
    · exact open_bind (hresume _ _ s₂ hi₂) (fun _ s' hi' => open_ok hi')
    · exact open_bind (hgate _ s₂ hi₂) (fun _ s' hi' => open_ok hi')

theorem open_enforce (call : ToolCall) (args : Json) (decision : ToolDecision)
    (hi : Inv v b id s) :
    Safe out self id n s₀ i (Effects.enforce call args decision) (Open v b id) s := by
  have hraise : ∀ e s, (∀ m, e ≠ .toolFailed m) → Inv v b id s →
      Safe out self id n s₀ i (.raise e : Program Json) (Open v b id) s := by
    intro e s hne hi
    exact ⟨hi, fun m hr => absurd (Except.error.inj hr) (hne m)⟩
  unfold Effects.enforce
  split
  · exact open_bind (open_op trivial trivial) (fun _ s' hi' => hraise _ s' (by simp) hi')
  · split
    · exact hraise _ s (by simp) hi
    · exact open_bind (open_op trivial trivial) (fun _ s' _ =>
        open_bind (open_op trivial trivial) (fun _ s'' hi'' => hraise _ s'' (by simp) hi''))
  · exact open_bind (open_op trivial trivial) (fun _ s' hi' => open_ok hi')

/-- How carrying the call out may end: with its effect recorded, if it returns. -/
def Ran (v : View) (b id : String) {α : Type} (r : Except Exn α) (s : Scene) : Prop :=
  Open v b id r s ∧ ∀ a, r = .ok a → ∃ effect, toolAt v b id s.world = .done effect

theorem ran_raise {α : Type} {e : Exn} (hi : Inv v b id s) (hne : ∀ m, e ≠ .toolFailed m) :
    Ran v b id (.error e : Except Exn α) s :=
  ⟨⟨hi, fun m hr => absurd (Except.error.inj hr) (hne m)⟩, fun _ hr => nomatch hr⟩

theorem ran_error {α β : Type} {e : Exn} (h : Open v b id (.error e : Except Exn α) s) :
    Ran v b id (.error e : Except Exn β) s :=
  ⟨⟨h.1, fun m hr => h.2 m (congrArg _ (Except.error.inj hr))⟩, fun _ hr => nomatch hr⟩

/-- `finish_effect` succeeds on a step it leaves done. -/
theorem finished {k : String} {value : Value} {t : Nat}
    (h : exec out self i (.ledger (.finishEffect (v.filed b) k value t)) s (.ok ()) s') :
    ∃ effect, s'.world.store.step (v.filed b) k = .done effect := by
  obtain ⟨-, hworld, hreply⟩ := exec_events h
  rw [hworld]
  simp only [step, Call.exec] at hreply ⊢
  unfold MemorySteps.finishEffect MemorySteps.fenced at hreply ⊢
  cases hf : s.world.store.fence (v.filed b) t with
  | error e =>
    rw [hf] at hreply
    cases hreply
  | ok u =>
    rw [hf] at hreply
    simp only at hreply ⊢
    split at hreply
    · rename_i recorded hstep
      split at hreply
      · rename_i heq
        exact ⟨recorded, by simp only [hstep, heq, ↓reduceIte]⟩
      · cases hreply
    · cases hreply
    · rename_i hstep
      refine ⟨value, ?_⟩
      simp only
      rw [MemorySteps.step_put, if_pos rfl]

theorem ran_execute (call : ToolCall) (args : Json) :
    Safe out self id n s₀ i (n.eff.execute (some (Effects.stepKey id)) args
      (fun args => perform (.handle call args))) (Ran v b id) s := by
  have hkey : Effects.EffectKey (Effects.stepKey id) := .inl ⟨_, rfl⟩
  have hcaught : ∀ e s, Inv v b id s → Safe out self id n s₀ i
      (n.eff.caught (some (Effects.stepKey id)) e) (Open v b id) s := by
    intro e s hi
    have hraise : ∀ s', Inv v b id s' → (∀ m, e ≠ .toolFailed m) →
        Safe out self id n s₀ i (.raise e : Program Record) (Open v b id) s' :=
      fun s' hi' hne => ⟨hi', fun m hr => absurd (Except.error.inj hr) (hne m)⟩
    unfold Effects.caught Effects.clearIntent
    simp only [n.store]
    split
    · rename_i hnothing
      apply open_bind (open_op (o := .ledger (.forget _ _ _)) hkey trivial)
      intro _ s' hi'
      apply hraise s' hi'
      rintro m rfl
      cases hnothing
    · split
      · rename_i hsignal
        apply hraise s hi
        rintro m rfl
        rcases hsignal with hs | hs <;> cases hs
      · exact open_ok hi
  unfold Effects.execute
  apply (Prog.safe_bind _ _ _ _).mpr
  apply Prog.safe_post (Q := Open v b id)
  · apply (Prog.safe_tryCatch _ _ _ _).mpr
    apply (Prog.safe_bind _ _ _ _).mpr
    apply plain_safe_op (o := .handle call args) trivial
    intro s₁ r s₂ _ _ _ hi₂
    cases r with
    | ok value => exact open_ok hi₂
    | error e => exact hcaught e s₂ hi₂
  · intro r s₁ h₁
    cases r with
    | error e => exact ran_error h₁
    | ok record =>
      unfold Effects.finishStep
      simp only [n.store, n.branch]
      apply (Prog.safe_bind _ _ _ _).mpr
      apply plain_safe_op (o := .ledger (.finishEffect _ _ _ _)) hkey
      intro s₂ r s₃ _ he _ hi₃
      cases r with
      | error e =>
        exact ran_error ⟨hi₃, raised_of_reply (o := .ledger (.finishEffect _ _ _ _)) trivial he⟩
      | ok u => exact ⟨open_ok hi₃, fun _ _ => finished he⟩

theorem ran_runOrReplay {call : ToolCall} (hid : call.toolCallId = id) (args : Json) :
    Safe out self id n s₀ i (n.eff.runOrReplay call args (fun args => perform (.handle call args)))
      (Ran v b id) s := by
  have hkey : Effects.EffectKey (Effects.stepKey id) := .inl ⟨_, rfl⟩
  have hrun : ∀ s, Safe out self id n s₀ i (n.eff.runStep v (Effects.stepKey id) args
      (fun args => perform (.handle call args))) (Ran v b id) s := by
    intro s
    unfold Effects.runStep
    apply (Prog.safe_bind _ _ _ _).mpr
    apply plain_safe_op (o := .ledger (.start _ _ _)) hkey
    intro s₁ r s₂ _ he _ hi₂
    cases r with
    | error e => exact ran_error ⟨hi₂, raised_of_reply (o := .ledger (.start _ _ _)) trivial he⟩
    | ok inserted =>
      cases inserted with
      | true => exact ran_execute call args
      | false => exact ran_raise hi₂ (by simp)
  unfold Effects.runOrReplay
  simp only [n.store, n.branch, hid, Prog.bind_eq]
  apply (Prog.safe_bind _ _ _ _).mpr
  apply plain_safe_op (o := .ledger (.read _ _)) trivial
  intro s₁ r s₂ _ he hstill hi₂
  have hr := read_reply he
  subst hr
  cases hstep : s₁.world.store.step (v.filed b) (Effects.stepKey id) with
  | done value =>
    have hdone := hstill.tool value hstep
    cases value with
    | toolResult record => exact ⟨open_ok hi₂, fun _ _ => ⟨_, hdone⟩⟩
    | _ => exact ran_raise hi₂ (by simp)
  | running =>
    simp only
    split
    · apply (Prog.safe_bind _ _ _ _).mpr
      apply plain_safe_op (o := .ledger (.forget _ _ _)) hkey
      intro s₃ r s₄ _ he _ hi₄
      cases r with
      | error e =>
        exact ran_error ⟨hi₄, raised_of_reply (o := .ledger (.forget _ _ _)) trivial he⟩
      | ok u => exact hrun s₄
    · exact ran_raise hi₂ (by simp)
  | absent => exact hrun s₂

/-- How the journal may end. -/
def Journaled (id : String) (n : Tried v b) (r : Except Exn Record) (s : Scene) : Prop :=
  Inv v b id s ∧ (n.eff.controls ≠ none → ∀ record, r = .ok record → Hooked id s.events) ∧
    ∀ m, r = .error (.toolFailed m) → Raised m s.events

/-- The thread is about to journal: nothing is journaled yet, if nobody else can have. -/
structure Unjournaled (id : String) (n : Tried v b) (s : Scene) : Prop where
  inv : Inv v b id s
  ran : ∃ effect, toolAt v b id s.world = .done effect
  absent : n.Sole id → afterAt v b id s.world = .absent

theorem Unjournaled.rely (h : Unjournaled id n s) (hm : n.Mine id i)
    (hr : Rely v b id n s₀ i s s') : Unjournaled id n s' := by
  obtain ⟨effect, he⟩ := h.ran
  exact ⟨hr.moves.inv, ⟨effect, hr.moves.tool effect he⟩,
    fun hs => (hr.alone hm hs).trans (h.absent hs)⟩

/-- A thread of the call may ask the hook and write the journal, if it was not there when the
attempt began. -/
theorem unjournaled_moves (hnc : ¬ Committed v b id s₀) (hm : n.Mine id i)
    (h : Unjournaled id n s) (hinv : Inv v b id s') (hevents : s.events <+: s'.events)
    (htool : ∀ effect, toolAt v b id s.world = .done effect →
      toolAt v b id s'.world = .done effect)
    (hkept : Committed v b id s → Committed v b id s') : Guarantee v b id n s₀ i s s' := by
  refine ⟨⟨hinv, hevents, htool, ?_⟩, fun hc => absurd hc hnc, fun hother => absurd hm hother⟩
  intro value hv
  refine ⟨hkept ⟨value, hv⟩, ?_⟩
  rintro (hc | hs)
  · exact absurd hc hnc
  · rw [h.absent hs] at hv
    cases hv

/-- Asking the hook about the call. -/
theorem safe_hook (hnc : ¬ Committed v b id s₀) (hm : n.Mine id i) {call : ToolCall}
    (hid : call.toolCallId = id) (plane : String) (here : Ctx) (result : Json)
    (h : Unjournaled id n s) :
    Safe out self id n s₀ i (Effects.ask plane (.postToolUse here call result))
      (fun r s' => Unjournaled id n s' ∧ (∀ value, r = .ok value → Hooked id s'.events) ∧
        ∀ m, r = .error (.toolFailed m) → Raised m s'.events) s := by
  apply (Prog.safe_op _ _ _).mpr
  intro s₁ hr r s₂ he
  have h₁ := h.rely hm hr
  obtain ⟨hevents, hworld, -⟩ := exec_events he
  have hasked : hookOf id ⟨i, .ask plane (.postToolUse here call result), r⟩ = some r := if_pos hid
  have hmore : s₁.events <+: s₂.events := hevents ▸ List.prefix_append _ _
  have hsame : s₂.world.store = s₁.world.store := by rw [hworld]; rfl
  have htool : toolAt v b id s₂.world = toolAt v b id s₁.world := by unfold toolAt; rw [hsame]
  have hafter : afterAt v b id s₂.world = afterAt v b id s₁.world := by unfold afterAt; rw [hsame]
  have hinv := h₁.inv.kept hmore (fun _ hd => htool.trans hd) hafter
  have h₂ : Unjournaled id n s₂ := ⟨hinv, htool ▸ h₁.ran, fun hs => hafter.trans (h₁.absent hs)⟩
  refine ⟨unjournaled_moves hnc hm h₁ hinv hmore (fun _ hd => htool.trans hd) ?_, h₂, ?_,
    raised_of_reply (o := .ask _ _) trivial he⟩
  · intro ⟨value, hv⟩
    exact ⟨value, hafter.trans hv⟩
  · intro value hok
    subst hok
    refine ⟨value, ?_⟩
    rw [hevents]
    simp [hooks, hasked]

/-- Writing the journal. -/
theorem safe_journal (hnc : ¬ Committed v b id s₀) (hm : n.Mine id i) (projected : Record)
    (h : Unjournaled id n s) (hh : Hooked id s.events) :
    Safe out self id n s₀ i (n.eff.journal (Effects.afterKey id) projected)
      (fun r s' => Inv v b id s' ∧ Hooked id s'.events ∧ ∀ m, r ≠ .error (.toolFailed m)) s := by
  unfold Effects.journal
  simp only [n.store, n.branch]
  apply (Prog.safe_op _ _ _).mpr
  intro s₁ hr r s₂ he
  have h₁ := h.rely hm hr
  have hh₁ := hooked_mono hr.moves.events hh
  obtain ⟨hevents, hworld, hreply⟩ := exec_events he
  have hmore : s₁.events <+: s₂.events := hevents ▸ List.prefix_append _ _
  have hnofail : ∀ m, r ≠ .error (.toolFailed m) := by
    rintro m rfl
    simp only [step] at hreply
    cases hexec : ((Call.writeControl (v.filed b) (Effects.afterKey id) (Value.hooked projected)
      n.eff.token).exec (out.clock s₁.world.instant) (out.clock (s₁.world.instant + 1))
      s₁.world.store).1 with
    | ok a => rw [hexec] at hreply; cases hreply
    | error e => rw [hexec] at hreply; cases hreply
  -- The write is refused, or it replaces the journal and nothing else.
  have hwrite : toolAt v b id s₂.world = toolAt v b id s₁.world ∧
      (afterAt v b id s₂.world = afterAt v b id s₁.world ∨
        afterAt v b id s₂.world = .done (.hooked projected)) := by
    have hne : (v.filed b, Effects.stepKey id) ≠ (v.filed b, Effects.afterKey id) := by
      intro heq
      exact Effects.effect_control (.inl ⟨_, rfl⟩) (.inl ⟨_, rfl⟩) (congrArg Prod.snd heq)
    unfold toolAt afterAt
    rw [hworld]
    simp only [step, Call.exec, MemorySteps.writeControl]
    rcases MemorySteps.fenced_state (s := s₁.world.store) (b := v.filed b) (t := n.eff.token)
      (.ok (), s₁.world.store.put (v.filed b) (Effects.afterKey id) (.done (.hooked projected)))
      with hfenced | hfenced
    · rw [hfenced]
      exact ⟨rfl, .inl rfl⟩
    · rw [hfenced]
      exact ⟨by rw [MemorySteps.step_put, if_neg hne],
        .inr (by rw [MemorySteps.step_put, if_pos rfl])⟩
  obtain ⟨htool, hafter⟩ := hwrite
  have htool' : ∀ effect, toolAt v b id s₁.world = .done effect →
      toolAt v b id s₂.world = .done effect := fun _ hd => htool.trans hd
  have hinv : Inv v b id s₂ := by
    rcases hafter with hafter | hafter
    · exact h₁.inv.kept hmore htool' hafter
    · refine ⟨by rw [hafter]; simp, ?_⟩
      intro value hv
      rw [hafter] at hv
      cases hv
      exact ⟨⟨projected, rfl⟩, htool ▸ h₁.ran, hooked_mono hmore hh₁⟩
  refine ⟨unjournaled_moves hnc hm h₁ hinv hmore htool' ?_, hinv, hooked_mono hmore hh₁, hnofail⟩
  intro hjournaled
  obtain ⟨value, hv⟩ := hjournaled
  rcases hafter with hafter | hafter
  · exact ⟨value, hafter.trans hv⟩
  · exact ⟨_, hafter⟩

theorem Unjournaled.still (h : Unjournaled id n s) (hs : Still v b id s s') :
    Unjournaled id n s' := by
  obtain ⟨effect, he⟩ := h.ran
  exact ⟨hs.inv h.inv, ⟨effect, hs.tool effect he⟩, fun hsole => hs.after.trans (h.absent hsole)⟩

theorem safe_project (hnc : ¬ Committed v b id s₀) (hm : n.Mine id i) {call : ToolCall}
    (hid : call.toolCallId = id) (plane : String) (record : Record) (h : Unjournaled id n s) :
    Safe out self id n s₀ i (n.eff.project plane call record)
      (fun r s' => Unjournaled id n s' ∧ (∀ projected, r = .ok projected → Hooked id s'.events) ∧
        ∀ m, r = .error (.toolFailed m) → Raised m s'.events) s := by
  unfold Effects.project Effects.ctx
  simp only [Prog.bind_eq, Prog.pure_eq, Prog.bind_assoc]
  apply (Prog.safe_bind _ _ _ _).mpr
  apply plain_safe_op (o := .get) trivial
  intro s₁ r s₂ hr he hstill _
  have hreply := (exec_events he).2.2
  subst hreply
  have h₂ := (h.rely hm hr).still hstill
  simp only [step, Prog.ret_bind]
  cases record with
  | ok value =>
    apply (Prog.safe_bind _ _ _ _).mpr
    apply Prog.safe_post (safe_hook hnc hm hid plane _ value h₂)
    intro r s₃ ⟨h₃, hok, hfail⟩
    cases r with
    | ok value' => exact ⟨h₃, fun _ _ => hok value' rfl, fun _ hr => nomatch hr⟩
    | error e =>
      exact ⟨h₃, fun _ hr => (nomatch hr), fun m hr => hfail m (congrArg _ (Except.error.inj hr))⟩
  | failed error =>
    apply (Prog.safe_bind _ _ _ _).mpr
    apply Prog.safe_post (safe_hook hnc hm hid plane _ _ h₂)
    intro r s₃ ⟨h₃, hok, hfail⟩
    cases r with
    | ok value' => exact ⟨h₃, fun _ _ => hok value' rfl, fun _ hr => nomatch hr⟩
    | error e =>
      exact ⟨h₃, fun _ hr => (nomatch hr), fun m hr => hfail m (congrArg _ (Except.error.inj hr))⟩

theorem safe_journalOnce (hnc : ¬ Committed v b id s₀) (hm : n.Mine id i) {call : ToolCall}
    (hid : call.toolCallId = id) (record : Record)
    (hran : ∃ effect, toolAt v b id s.world = .done effect) :
    Safe out self id n s₀ i (n.eff.journalOnce call record) (Journaled id n) s := by
  unfold Effects.journalOnce Effects.readStep
  simp only [n.store, n.branch, hid, Prog.bind_eq]
  apply (Prog.safe_bind _ _ _ _).mpr
  apply plain_safe_op (o := .ledger (.read _ _)) trivial
  intro s₁ r s₂ hr he hstill hi₂
  have hreply := read_reply he
  subst hreply
  have hi₁ := hr.moves.inv
  cases hstep : s₁.world.store.step (v.filed b) (Effects.afterKey id) with
  | running => exact absurd hstep hi₁.idle
  | done value =>
    obtain ⟨⟨p, rfl⟩, -, hh⟩ := hi₁.journaled value hstep
    exact ⟨hi₂, fun _ _ _ => hooked_mono hstill.events hh, fun _ hr => nomatch hr⟩
  | absent =>
    obtain ⟨effect, hd⟩ := hran
    have h₂ : Unjournaled id n s₂ := ⟨hi₂, ⟨effect, hstill.tool _ (hr.moves.tool _ hd)⟩,
      fun _ => hstill.after.trans hstep⟩
    cases hc : n.eff.controls with
    | none => exact ⟨hi₂, fun hne => absurd hc hne, fun _ hr => nomatch hr⟩
    | some plane =>
      apply (Prog.safe_bind _ _ _ _).mpr
      apply Prog.safe_post (safe_project hnc hm hid plane record h₂)
      intro r s₃ ⟨h₃, hok, hfail⟩
      cases r with
      | error e => exact ⟨h₃.inv, fun _ _ hr => (nomatch hr), hfail⟩
      | ok projected =>
        apply (Prog.safe_bind _ _ _ _).mpr
        apply Prog.safe_post (safe_journal hnc hm projected h₃ (hok projected rfl))
        intro r s₄ ⟨hi₄, hh₄, hnofail⟩
        cases r with
        | error e =>
          refine ⟨hi₄, fun _ _ hr => (nomatch hr), ?_⟩
          intro m hr
          exact absurd (congrArg _ (Except.error.inj hr)) (hnofail m)
        | ok u => exact ⟨hi₄, fun _ _ _ => hh₄, fun _ hr => nomatch hr⟩

theorem shown_caught {call : ToolCall} {e : Exn} (hfail : n.eff.controls ≠ none → ∀ m,
    e = .toolFailed m → Hooked id s.events ∨ Raised m s.events) :
    Safe out self id n s₀ i (PydanticAI.caught call e) (Shown v b id n) s := by
  cases e with
  | toolFailed m =>
    intro hc c outcome hr
    cases hr
    refine ⟨fun _ ho => (nomatch ho), ?_⟩
    intro m' ho
    cases ho
    exact hfail hc m rfl
  | skipToolExecution | approvalRequired | callDeferred | modelRetry =>
    intro _ c outcome hr
    cases hr
    exact ⟨fun _ ho => (nomatch ho), fun _ ho => nomatch ho⟩
  | _ => exact fun _ _ _ hr => nomatch hr

theorem shown_throughHooks (hnc : ¬ Committed v b id s₀) (hm : n.Mine id i) {call : ToolCall}
    (hid : call.toolCallId = id) (approved : Bool) (args : Json) :
    Safe out self id n s₀ i (PydanticAI.throughHooks n.eff approved call args) (Shown v b id n) s := by
  unfold PydanticAI.throughHooks Effects.beforeToolExecute Effects.wrapToolExecute
  simp only [Prog.bind_eq, Prog.pure_eq, Prog.bind_assoc]
  apply (Prog.safe_tryCatch _ _ _ _).mpr
  apply (Prog.safe_bind _ _ _ _).mpr
  apply Prog.safe_post (open_verdict approved call args)
  intro r s₁ h₁
  cases r with
  | error e => exact shown_caught (fun _ m he => .inr (h₁.2 m (he ▸ rfl)))
  | ok asked =>
    apply (Prog.safe_bind _ _ _ _).mpr
    apply Prog.safe_post (open_enforce _ _ _ h₁.1)
    intro r s₂ h₂
    cases r with
    | error e => exact shown_caught (fun _ m he => .inr (h₂.2 m (he ▸ rfl)))
    | ok args =>
      apply (Prog.safe_bind _ _ _ _).mpr
      apply Prog.safe_post (ran_runOrReplay hid args)
      intro r s₃ ⟨h₃, hran⟩
      cases r with
      | error e => exact shown_caught (fun _ m he => .inr (h₃.2 m (he ▸ rfl)))
      | ok record =>
        apply (Prog.safe_bind _ _ _ _).mpr
        apply Prog.safe_post (safe_journalOnce hnc hm hid record (hran record rfl))
        intro r s₄ ⟨_, hok, hfail⟩
        cases r with
        | error e => exact shown_caught (fun _ m he => .inr (hfail m (he ▸ rfl)))
        | ok projected =>
          cases projected with
          | ok value =>
            intro hc c outcome hr
            cases hr
            exact ⟨fun _ _ => hok hc _ rfl, fun _ ho => nomatch ho⟩
          | failed error => exact shown_caught (fun hc m _ => .inl (hok hc _ rfl))

/-! Every thread. -/

/-- A call that is turned away has an answer of another kind. -/
theorem turned_away {call : ToolCall} {outcome : CallOutcome}
    (hturned : n.TurnedAway i) (hreturned : ∀ value, outcome ≠ .returned value)
    (hfailed : ∀ m, outcome ≠ .failed m) :
    Post v b id n s₀ i (.ok (call, outcome)) s := by
  intro _
  refine ⟨?_, ?_⟩
  · intro _ c o hr
    cases hr
    exact ⟨fun value ho => absurd ho (hreturned value), fun m ho => absurd ho (hfailed m)⟩
  · intro p _ c o hr
    cases hr
    constructor
    · intro ho
      cases p with
      | ok value => exact absurd ho (hreturned value)
      | failed error => exact absurd ho (hfailed error)
    · intro hnot
      exact absurd hturned hnot

theorem safe_throughHooks (hregate : Committed v b id s₀ → id ∉ n.eff.regate) (hi : Inv v b id s₀)
    (hm : n.Mine id i) (hnot : ¬ n.TurnedAway i) (approved : Bool) (args : Json) :
    Safe out self id n s₀ i (PydanticAI.throughHooks n.eff approved (n.calls i).1 args)
      (Post v b id n s₀ i) s₀ := by
  by_cases hc : Committed v b id s₀
  · obtain ⟨value, hv⟩ := hc
    obtain ⟨⟨p, rfl⟩, -, -⟩ := hi.journaled value hv
    apply Prog.safe_post (settled_throughHooks ⟨_, hv⟩ (hregate ⟨_, hv⟩) hm approved args ⟨hi, hv⟩)
    intro r s' ⟨⟨hi', hv'⟩, htold⟩ _
    obtain ⟨-, -, hh⟩ := hi'.journaled _ hv'
    refine ⟨fun _ _ _ _ => ⟨fun _ _ => hh, fun _ _ => .inl hh⟩, ?_⟩
    intro p' hp' c outcome hr
    rw [hv] at hp'
    cases hp'
    exact ⟨fun _ => hnot, fun _ => htold c outcome hr⟩
  · apply Prog.safe_post (shown_throughHooks hc hm hm approved args)
    intro r s' hshown _
    exact ⟨hshown, fun p hp => absurd ⟨_, hp⟩ hc⟩

theorem safe_mine (hregate : Committed v b id s₀ → id ∉ n.eff.regate) (hi : Inv v b id s₀)
    (hm : n.Mine id i) :
    Safe out self id n s₀ i (n.programs i) (Post v b id n s₀ i) s₀ := by
  unfold Tried.programs PydanticAI.executeCall
  split
  · rename_i message happroval
    exact turned_away (by simp [Tried.TurnedAway, happroval]) (by simp) (by simp)
  · rename_i override happroval
    cases hv : n.ai.validate (n.calls i).1 override with
    | error message =>
      exact turned_away (by simp [Tried.TurnedAway, happroval, hv, Except.isOk, Except.toBool])
        (by simp) (by simp)
    | ok args =>
      exact safe_throughHooks hregate hi hm
        (by simp [Tried.TurnedAway, happroval, hv, Except.isOk, Except.toBool]) true args
  · rename_i happroval
    cases hv : n.ai.validate (n.calls i).1 none with
    | error message =>
      exact turned_away (by simp [Tried.TurnedAway, happroval, hv, Except.isOk, Except.toBool])
        (by simp) (by simp)
    | ok args =>
      exact safe_throughHooks hregate hi hm
        (by simp [Tried.TurnedAway, happroval, hv, Except.isOk, Except.toBool]) false args

theorem safe_program (hregate : Committed v b id s₀ → id ∉ n.eff.regate) (hi : Inv v b id s₀)
    (i : Nat) : Safe out self id n s₀ i (n.programs i) (Post v b id n s₀ i) s₀ := by
  by_cases hm : n.Mine id i
  · exact safe_mine hregate hi hm
  · exact safe_other hi hm

/-- An attempt begins with the two records as they are; what it gates again is not journaled. -/
theorem begins_still (hi : Inv v b id s) (h : Begins v b id out self n s s₀) :
    Still v b id s s₀ ∧ (Committed v b id s₀ → id ∉ n.eff.regate) := by
  obtain ⟨i, source, src, dst, token, open_, q, hdst, run, hregate⟩ := h
  have hkept : Kept v b id (afterAt v b id s.world) s := ⟨hi, rfl⟩
  have hsafe : Copying out self v b id i _ _ s :=
    copying_copyCalls source src dst hdst token open_ hkept
  obtain ⟨hq, hstill⟩ := Prog.safe_runs (I := Still v b id s)
    (fun a => ⟨rfl, rfl, rfl⟩)
    (fun a c d h h' => ⟨h'.1.trans h.1, h'.2.1.trans h.2.1, h'.2.2.trans h.2.2⟩)
    (fun r a c h hr => ⟨h.1.still (meanwhile_still hr), h.2⟩)
    (fun a c h hk => hk.trans (meanwhile_still h)) (fun a c h hk => hk.trans h) hsafe
    (still_refl s) run
  refine ⟨hstill, ?_⟩
  intro ⟨value, hv⟩ hm
  rcases hregate with hnone | hret
  · rw [hnone] at hm
    cases hm
  · rw [hret] at hq
    have habsent := hq.2 n.eff.regate rfl hm
    rw [hstill.after, habsent] at hv
    cases hv

theorem turned_program (h : n.TurnedAway i) :
    ∃ outcome, n.programs i = .ret ((n.calls i).1, outcome) ∧ ∀ p, outcome ≠ told p := by
  have hother : ∀ m p, CallOutcome.denied m ≠ told p ∧ CallOutcome.retry m ≠ told p := by
    intro m p
    cases p <;> simp [told]
  unfold Tried.TurnedAway at h
  unfold Tried.programs PydanticAI.executeCall
  generalize (n.calls i).2 = approval at h ⊢
  cases approval with
  | none =>
    cases hv : n.ai.validate (n.calls i).1 none with
    | error message => exact ⟨.retry message, rfl, fun p => (hother message p).2⟩
    | ok args => simp [hv, Except.isOk, Except.toBool] at h
  | some approval =>
    cases approval with
    | denied message => exact ⟨.denied message, rfl, fun p => (hother message p).1⟩
    | approved override =>
      cases hv : n.ai.validate (n.calls i).1 override with
      | error message => exact ⟨.retry message, by simp [hv], fun p => (hother message p).2⟩
      | ok args => simp [hv, Except.isOk, Except.toBool] at h

end

/-! Over all attempts. -/

section
variable (v : View) (b id : String)

abbrev Tries := Generation (Tried v b) Nat Op Op.Res Exn (ToolCall × CallOutcome) Scene

/-- What the two records of a call make of an attempt `g'` that is at work at or after a moment of
the attempt `g`. -/
structure Projected (g g' : Tries v b) : Prop where
  /-- The record of the effect never changes once it is done. -/
  effect : ∀ value, toolAt v b id g.now.world = .done value →
    toolAt v b id g'.now.world = .done value
  /-- Under a control plane no result is given before some attempt's hook finished for the call. -/
  shown : ∀ i, g'.name.Mine id i → ∀ r, g'.pool i = Prog.ofExcept r →
    Shown v b id g'.name r g'.now
  /-- Once it is committed, every later attempt begins with it; with the same one, unless it was
  the same attempt that went on to journal another call of this id. -/
  committed : ∀ value, afterAt v b id g.now.world = .done value → g.index < g'.index →
    ∃ p, afterAt v b id g'.began.world = .done (.hooked p) ∧
      (Final v b id g.name g.began → value = .hooked p)
  /-- Such an attempt leaves it, never asks a hook about the call, and gives the model just that. -/
  final : ∀ p, afterAt v b id g'.began.world = .done (.hooked p) →
    afterAt v b id g'.now.world = .done (.hooked p) ∧
      hooks id g'.now.events = hooks id g'.began.events ∧
      ∀ i, g'.name.Mine id i → ∀ call outcome, g'.pool i = .ret (call, outcome) → outcome = told p

variable {v b id} {out : Outside} {self : Nat → Nat} {g g' : Tries v b}

/-- Each attempt on the branch keeps what the two records of a call need. -/
theorem attempts_sound : Generation.Sound (exec out self) (Meanwhile v b id) Tried.programs
    (Begins v b id out self) (Inv v b id) (Rely v b id) (Guarantee v b id) (Post v b id) where
  compatible := compatible
  begins n s s₀ hi hbegins := by
    obtain ⟨hstill, hregate⟩ := begins_still hi hbegins
    exact ⟨hstill.inv hi, safe_program hregate (hstill.inv hi)⟩

abbrev Ready (out : Outside) (self : Nat → Nat) (id : String) (g : Tries v b) : Prop :=
  Generation.Ready (exec out self) (Inv v b id) (Rely v b id) (Guarantee v b id) (Post v b id) g

/-- What an attempt at work shows of how it began. -/
structure Under (id : String) (g : Tries v b) : Prop where
  began : Inv v b id g.began
  journal : ∀ p, afterAt v b id g.began.world = .done (.hooked p) →
    afterAt v b id g.now.world = .done (.hooked p) ∧
      hooks id g.now.events = hooks id g.began.events
  turned : ∀ i, g.name.TurnedAway i →
    ∃ outcome, g.pool i = .ret ((g.name.calls i).1, outcome) ∧ ∀ p, outcome ≠ told p

abbrev Leap (out : Outside) (self : Nat → Nat) (id : String) (g g' : Tries v b) : Prop :=
  Generation.Leap (Meanwhile v b id) Tried.programs (Begins v b id out self)
    (Guarantee v b id) g g'

theorem under_fresh (index : Nat) (n : Tried v b) {s : Scene} (hi : Inv v b id s) :
    Under id (.fresh Tried.programs index n s : Tries v b) :=
  ⟨hi, fun _ hp => ⟨hp, rfl⟩, fun _ h => turned_program h⟩

theorem under_leap (hi : Inv v b id g.now) (leap : Leap out self id g g') (h : Under id g) :
    Under id g' := by
  cases leap with
  | own i o k r s at_ same move =>
    subst same
    refine ⟨h.began, ?_, ?_⟩
    · intro p hp
      obtain ⟨hnow, hasked⟩ := h.journal p hp
      have hc : Committed v b id g.began := ⟨_, hp⟩
      exact ⟨(move.moves.after _ hnow).2 (.inl hc), (move.asked hc).trans hasked⟩
    · intro j hj
      obtain ⟨outcome, hpool, hne⟩ := h.turned j hj
      have hji : j ≠ i := by
        rintro rfl
        rw [hpool] at at_
        cases at_
      exact ⟨outcome, (Function.update_of_ne hji _ _).trans hpool, hne⟩
  | env s same move =>
    subst same
    have hstill := meanwhile_still move
    refine ⟨h.began, ?_, h.turned⟩
    intro p hp
    obtain ⟨hnow, hasked⟩ := h.journal p hp
    exact ⟨hstill.after.trans hnow, hstill.asked.trans hasked⟩
  | next name s same begun =>
    subst same
    obtain ⟨hstill, -⟩ := begins_still hi begun
    exact under_fresh _ _ (hstill.inv hi)

/-- What a moment of an attempt leaves of the call for good. -/
structure Since (v : View) (b id : String) (g g' : Tries v b) : Prop where
  index : g.index ≤ g'.index
  same : g.index = g'.index → g'.name = g.name ∧ g'.began = g.began
  effect : ∀ value, toolAt v b id g.now.world = .done value →
    toolAt v b id g'.now.world = .done value
  journal : ∀ value, afterAt v b id g.now.world = .done value →
    (∃ value', afterAt v b id g'.now.world = .done value' ∧
      (Final v b id g.name g.began → value' = value)) ∧
    (g.index < g'.index → ∃ value', afterAt v b id g'.began.world = .done value' ∧
      (Final v b id g.name g.began → value' = value))

theorem since_refl (g : Tries v b) : Since v b id g g := by
  refine ⟨Nat.le_refl _, fun _ => ⟨rfl, rfl⟩, fun _ h => h, ?_⟩
  intro value hv
  exact ⟨⟨value, hv, fun _ => rfl⟩, fun hlt => absurd hlt (Nat.lt_irrefl _)⟩

theorem since_leap {g'' : Tries v b} (hi : Inv v b id g'.now) (leap : Leap out self id g' g'')
    (h : Since v b id g g') : Since v b id g g'' := by
  cases leap with
  | own i o k r s at_ same move =>
    subst same
    refine ⟨h.index, h.same, fun value hv => move.moves.tool _ (h.effect value hv), ?_⟩
    intro value hv
    obtain ⟨⟨value', hnow, hsame⟩, hlater⟩ := h.journal value hv
    refine ⟨?_, hlater⟩
    obtain ⟨⟨value'', hnow'⟩, hfinal⟩ := move.moves.after value' hnow
    refine ⟨value'', hnow', ?_⟩
    intro hf
    -- The attempt at work is the first one, or it began with the journal.
    have hf' : Final v b id g'.name g'.began := by
      by_cases hidx : g.index = g'.index
      · obtain ⟨hname, hbegan⟩ := h.same hidx
        rw [hname, hbegan]
        exact hf
      · have hle := h.index
        obtain ⟨value₀, hbegan, -⟩ := hlater (by omega)
        exact .inl ⟨value₀, hbegan⟩
    have hkept := hfinal hf'
    rw [hnow'] at hkept
    cases hkept
    exact hsame hf
  | env s same move =>
    subst same
    have hstill := meanwhile_still move
    refine ⟨h.index, h.same, fun value hv => hstill.tool _ (h.effect value hv), ?_⟩
    intro value hv
    obtain ⟨⟨value', hnow, hsame⟩, hlater⟩ := h.journal value hv
    exact ⟨⟨value', hstill.after.trans hnow, hsame⟩, hlater⟩
  | next name s same begun =>
    subst same
    obtain ⟨hstill, -⟩ := begins_still hi begun
    have hle := h.index
    refine ⟨?_, ?_, fun value hv => hstill.tool _ (h.effect value hv), ?_⟩
    · exact Nat.le_succ_of_le hle
    · intro hidx
      simp only [Generation.fresh] at hidx
      omega
    · intro value hv
      obtain ⟨⟨value', hnow, hsame⟩, -⟩ := h.journal value hv
      have hthen := hstill.after.trans hnow
      exact ⟨⟨value', hthen, hsame⟩, fun _ => ⟨value', hthen, hsame⟩⟩

/-- On a branch where nothing is journaled about a call, over any attempts with any control planes,
each stopped anywhere: a projection, once committed, is final for every attempt that does not turn
the call away, and for no other. -/
theorem projected_iff (out : Outside) (self : Nat → Nat) {v : View} {b id : String} (n : Tried v b)
    {s : Scene} {g g' : Tries v b} (habsent : afterAt v b id s.world = .absent)
    (run : Attempts v b id out self (.fresh Tried.programs 0 n s) g)
    (later : Attempts v b id out self g g') :
    Projected v b id g g' ↔
      (Committed v b id g'.began → ∀ i, g'.name.Mine id i → ¬ g'.name.TurnedAway i) := by
  have hnone : ¬ Committed v b id s := by
    intro ⟨value, hv⟩
    rw [habsent] at hv
    cases hv
  have hi : Inv v b id s := ⟨by rw [habsent]; simp, fun value hv => absurd ⟨value, hv⟩ hnone⟩
  have hready : Ready out self id (.fresh Tried.programs 0 n s : Tries v b) :=
    ⟨hi, safe_program (fun hc => absurd hc hnone) hi⟩
  obtain ⟨hg, hunder⟩ := Generation.generations_keep attempts_sound hready (under_fresh 0 n hi)
    (fun a c ha _ leap h => under_leap ha leap h) run
  obtain ⟨hg', hunder'⟩ := Generation.generations_keep attempts_sound hg hunder
    (fun a c ha _ leap h => under_leap ha leap h) later
  obtain ⟨-, hsince⟩ := Generation.generations_keep attempts_sound hg (since_refl g)
    (fun a c ha _ leap h => since_leap ha leap h) later
  have hends : ∀ i, g'.name.Mine id i → ∀ r, g'.pool i = Prog.ofExcept r →
      Ends v b id g'.name g'.began i r g'.now := by
    intro i hm r hr
    have hsafe := hg'.safe i
    rw [hr] at hsafe
    exact (Prog.safe_ofExcept r _ _).mp hsafe hm
  constructor
  · intro h hc i hm hturned
    obtain ⟨outcome, hpool, hne⟩ := hunder'.turned i hturned
    obtain ⟨value, hv⟩ := hc
    obtain ⟨⟨p, rfl⟩, -, -⟩ := hunder'.began.journaled value hv
    obtain ⟨-, -, hgiven⟩ := h.final p hv
    exact hne p (hgiven i hm _ _ hpool)
  · intro h
    refine ⟨hsince.effect, ?_, ?_, ?_⟩
    · intro i hm r hr
      exact (hends i hm r hr).shown
    · intro value hv hlt
      obtain ⟨-, hlater⟩ := hsince.journal value hv
      obtain ⟨value', hbegan, hsame⟩ := hlater hlt
      obtain ⟨⟨p, rfl⟩, -, -⟩ := hunder'.began.journaled value' hbegan
      exact ⟨p, hbegan, fun hf => (hsame hf).symm⟩
    · intro p hp
      obtain ⟨hnow, hasked⟩ := hunder'.journal p hp
      refine ⟨hnow, hasked, ?_⟩
      intro i hm call outcome hpool
      exact ((hends i hm (.ok (call, outcome)) hpool).final p hp call outcome rfl).mpr
        (h ⟨_, hp⟩ i hm)

/-- The claim that nothing an attempt does keeps the journaled projection from the model. -/
def AlwaysProjected : Prop :=
  ∀ (out : Outside) (self : Nat → Nat) (v : View) (b id : String) (n : Tried v b) (s : Scene)
    (g g' : Tries v b), afterAt v b id s.world = .absent →
    Attempts v b id out self (.fresh Tried.programs 0 n s) g → Attempts v b id out self g g' →
    Projected v b id g g'

end

def redacted : Json := .dict [("key", .str "redacted")]

/-- A tool that returns a secret, and a hook that redacts it. -/
def redacting : Outside :=
  .answering (fun _ _ _ => .ok (.dict [("key", .str "secret")])) (fun _ _ => .error (.other "no model"))
    (fun _ _ q => match q with
      | .postToolUse .. => .ok redacted
      | _ => .error (.other "not asked"))

/-- An attempt that finishes a parked call, with what the person said of it. -/
def answering (controls : Option String) (approval : Approval) : Tried ⟨none⟩ "run" where
  eff := { store := some ⟨none⟩, branchId := "run", controls }
  store := rfl
  branch := rfl
  ai := .standard (fun _ => "") [] 8
  calls i := (⟨"send", .dict [], if i = 0 then "c1" else "c2"⟩, some approval)

/-- The approved call ran and was journaled; then its attempt died. -/
def journaled : Tries ⟨none⟩ "run" :=
  .after (Scene.perform redacting (fun _ => 0)) (List.replicate 11 0)
    (.fresh Tried.programs 0 (answering (some "plane") (.approved none)) ⟨{}, fun _ => {}, []⟩)

/-- Another attempt comes to the call, under no control plane. -/
def again (approval : Approval) : Tries ⟨none⟩ "run" :=
  .after (Scene.perform redacting (fun _ => 0)) (List.replicate 5 0)
    (.fresh Tried.programs 1 (answering none approval) journaled.now)

theorem journaled_run : Attempts ⟨none⟩ "run" "c1" redacting (fun _ => 0)
    (.fresh Tried.programs 0 (answering (some "plane") (.approved none)) ⟨{}, fun _ => {}, []⟩)
    journaled :=
  Generation.steps_after _ _ _ _ _ _

theorem again_run (approval : Approval) :
    Attempts ⟨none⟩ "run" "c1" redacting (fun _ => 0) journaled (again approval) := by
  have hbegins : Begins ⟨none⟩ "run" "c1" redacting (fun _ => 0) (answering none approval)
      journaled.now journaled.now :=
    ⟨0, ⟨none⟩, ⟨"run", none, none⟩, ⟨"run", none, none⟩, 0, [], .ret [], rfl, .refl _ _, .inl rfl⟩
  exact .head (.next hbegins) (Generation.steps_after _ _ _ _ _ _)

theorem projected_iff_redacted :
    Projected ⟨none⟩ "run" "c1" journaled (again (.approved none)) ∧
      (again (.approved none)).pool 0 =
        .ret (⟨"send", .dict [], "c1"⟩, .returned redacted) := by
  refine ⟨(projected_iff redacting (fun _ => 0) _ rfl journaled_run (again_run _)).mpr ?_, rfl⟩
  -- Its arguments are the model's own, which Pydantic AI takes.
  intro _ i _ hturned
  cases hturned

/-- The person is asked again and denies what already happened: the model is told so. -/
theorem not_always_projected : ¬ AlwaysProjected := by
  intro h
  obtain ⟨-, -, hgiven⟩ := (h redacting (fun _ => 0) ⟨none⟩ "run" "c1" _ _ _ _ rfl journaled_run
    (again_run (.denied "no"))).final (.ok redacted) rfl
  cases hgiven 0 rfl _ (.denied "no") rfl

end Semora.Proofs.Projection
