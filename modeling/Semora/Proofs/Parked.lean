import Semora.Proofs.Course
import Semora.Proofs.Performs
import Semora.Scene

/-! A parked continuation among everything that may happen to its branch. -/

namespace Semora.Proofs.Parked
open Semora.Lib Semora.Store Semora.Transcript

/-- What a continuation is parked with: all of it but how far its answers have come. -/
def parkOf (active : Suspension) : Suspension := { active with state := .waiting, answers := [] }

/-- The operation makes the objects of a new attempt. -/
def Begins (o : Op) : Prop := ∃ f, o = .modify f ∧ ∀ a, f a = {}

/-- The identifier handed out. -/
def handed : Event → Option String
  | ⟨_, .uuid4, .ok owner⟩ => some owner
  | _ => none

section
variable (b : String)

/-- The owner a lease of the branch was asked for. -/
def bid : Event → Option String
  | ⟨_, .ledger (.acquire b' owner _), _⟩ => if b' = b then some owner else none
  | _ => none

/-- The token the branch was leased under. -/
def granted : Event → Option Nat
  | ⟨_, .ledger (.acquire b' _ _), .ok t⟩ => if b' = b ∧ t ≠ 0 then some t else none
  | _ => none

/-- The event looked for a continuation. -/
def looks : Event → Bool
  | ⟨_, .ledger (.read b' k), _⟩ => b' = b ∧ k = Effects.activeSuspension
  | _ => false

/-- The event set out to finalize a fully answered continuation. -/
def resumes (active : Suspension) : Event → Bool
  | ⟨_, .ledger (.writeControl b' k (.suspension a) _), .ok _⟩ =>
    b' = b ∧ k = Effects.activeSuspension ∧ a.state = .resuming ∧ AgentRuntime.undecided a = [] ∧
      parkOf a = parkOf active
  | _ => false

/-- The event marked a continuation completed, or parked another round in its place. -/
def ends (active : Suspension) : Event → Bool
  | ⟨_, .ledger (.writeControl b' k (.completed callId callIds) _), .ok _⟩ =>
    b' = b ∧ k = Effects.activeSuspension ∧ callId = active.callId ∧ callIds = active.callIds
  | ⟨_, .ledger (.commitTransition b' tr _), .ok _⟩ =>
    b' = b ∧ Effects.activeSuspension ∈ tr.controls.map Prod.fst
  | _ => false

/-- The tokens a thread was given. -/
def tokens (i : Nat) (events : List Event) : List Nat := (log i events).filterMap (granted b)

/-- Whether a thread has looked for a continuation since it asked for the lease. -/
def looked (i : Nat) (events : List Event) : Bool :=
  (log i events).foldl (fun seen e => if (bid b e).isSome then false else seen || looks b e) false

/-- The thread has set out to finalize this very continuation. -/
def Finalizes (i : Nat) (active : Suspension) (events : List Event) : Prop :=
  ∃ e ∈ log i events, resumes b active e

/-- What the ledger holds under the continuation key. -/
def cell (s : Scene) : Step Value := s.world.store.read b Effects.activeSuspension

/-- The continuation parked on the branch. -/
def live (s : Scene) : Option Suspension := AgentRuntime.liveSuspension (cell b s)

def issued (s : Scene) : Nat := s.world.store.issued b

/-- A thread may begin an attempt: it holds the newest token, and if it has not looked for a
continuation under its lease there is none. -/
def Fit (i : Nat) (s : Scene) : Prop :=
  issued b s ∈ tokens b i s.events ∧ (looked b i s.events = false → live b s = none)

end

/-- Threads whose attempts all begin fit. -/
def guarded (out : Outside) (self : Nat → Nat) (b : String) (i : Nat) :
    Prog.Exec Op Op.Res Exn Scene :=
  fun o s r s' => exec out self i o s r s' ∧ (Begins o → Fit b i s)

/-- What else happens: the renewal of a lease some call has asked for, and anything that leaves
the ledger of this branch alone. -/
inductive Elsewhere (out : Outside) (b : String) : Scene → Scene → Prop
  | renew (s : Scene) (owner : String) (ttl : ℚ) (a : Attempt)
      (asked : ∃ e ∈ s.events, bid b e = some owner) :
      Elsewhere out b s ⟨(step out (.ledger (.acquire b owner ttl)) s.world a).2.1, s.attempts,
        s.events⟩
  | perform (s : Scene) (o : Op) (a : Attempt) (attempts : Nat → Attempt)
      (apart : ∀ c, o = .ledger c → c.branchId ≠ b) :
      Elsewhere out b s ⟨(step out o s.world a).2.1, attempts, s.events⟩

/-- How leases and tokens answer for what the threads did. -/
structure Inv (out : Outside) (b : String) (s : Scene) : Prop where
  handed : ∀ e ∈ s.events, ∀ owner, Parked.handed e = some owner →
    ∃ n < s.world.instant, owner = out.uuid4 n
  distinct : ∀ e ∈ s.events, ∀ f ∈ s.events, ∀ owner, Parked.handed e = some owner →
    Parked.handed f = some owner → e.thread = f.thread
  bid : ∀ e ∈ s.events, ∀ owner, Parked.bid b e = some owner →
    ∃ f ∈ s.events, f.thread = e.thread ∧ Parked.handed f = some owner
  leased : ∀ l, s.world.store.leases.get? b = some l → l.owner = "" ∨
    ∃ e ∈ s.events, Parked.bid b e = some l.owner
  issued : ∀ i, ∀ t ∈ tokens b i s.events, t ≠ 0 ∧ t ≤ Parked.issued b s
  exclusive : ∀ i j t, t ∈ tokens b i s.events → t ∈ tokens b j s.events → i = j

/-- One step keeps what is parked, but for a finalization of it that ends; and it begins no
attempt but of that finalization. -/
structure Respects (b : String) (s : Scene) (e : Event) (s' : Scene) : Prop where
  begins : Begins e.op → ∀ active, live b s = some active → Finalizes b e.thread active s.events
  kept : ∀ active, live b s = some active →
    (∃ active', live b s' = some active' ∧ parkOf active' = parkOf active) ∨
      (Finalizes b e.thread active s.events ∧ ends b active e)

structure Rely (out : Outside) (b : String) (i : Nat) (s s' : Scene) : Prop where
  inv : Inv out b s'
  own : log i s'.events = log i s.events
  later : issued b s ≤ issued b s'
  kept : ∀ t ∈ tokens b i s.events, issued b s' = t → cell b s' = cell b s

structure Guarantee (out : Outside) (b : String) (i : Nat) (s s' : Scene) : Prop where
  inv : Inv out b s'
  event : ∃ e, s'.events = s.events ++ [e] ∧ e.thread = i ∧ Respects b s e s'
  later : issued b s ≤ issued b s'
  holder : cell b s' ≠ cell b s → issued b s ∈ tokens b i s.events

/-- What a thread keeps through the steps of others and its own harmless ones. -/
structure Still (out : Outside) (b : String) (i : Nat) (s s' : Scene) : Prop where
  inv : Inv out b s'
  tokens : tokens b i s'.events = tokens b i s.events
  bids : (∀ e ∈ log i s.events, bid b e = none) → ∀ e ∈ log i s'.events, bid b e = none
  kept : ∀ t ∈ Parked.tokens b i s.events, issued b s' = t → issued b s = t ∧ cell b s' = cell b s
  finalizes : ∀ active, Finalizes b i active s.events → Finalizes b i active s'.events

/-- An operation that leaves the continuation and the tokens of the branch alone. -/
def Calm (b : String) : Op → Prop
  | .ledger c => c.branchId = b → match c with
    | .start _ k _ | .finishEffect _ k _ _ | .writeControl _ k _ _ | .forget _ k _ =>
      k ≠ Effects.activeSuspension
    | .commitTransition .. | .acquire .. => False
    | _ => True
  | _ => True

/-- An operation that cannot disturb a park. -/
def Harmless (b : String) (o : Op) : Prop := Calm b o ∧ ¬ Begins o

theorem keeps_begins {f : Attempt → Attempt} (keeps : Keeps f) : ¬ Begins (.modify f) := by
  rintro ⟨g, hg, hf⟩
  cases hg
  have := keeps { seen := [""] }
  rw [hf] at this
  simp at this

theorem harmless_performs {b : String} {eff : Effects} {o : Op} (h : Performs eff false .effects o) :
    Harmless b o := by
  have heffect : ∀ {k}, Effects.EffectKey k → k ≠ Effects.activeSuspension :=
    fun hk => Effects.effect_control hk (.inr (.inr (.inr rfl)))
  have hother : ∀ o : Op, (∀ f, o ≠ .modify f) → ¬ Begins o := by
    rintro o ho ⟨f, rfl, -⟩
    exact ho f rfl
  cases h with
  | modify f keeps => exact ⟨trivial, keeps_begins keeps⟩
  | start _ _ _ hk | finishEffect _ _ _ hk | forget _ _ _ hk =>
    exact ⟨fun _ => heffect hk, hother _ (by simp)⟩
  | writeControl _ _ _ _ hk =>
    refine ⟨fun _ => ?_, hother _ (by simp)⟩
    rcases hk with rfl | ⟨id, rfl⟩
    · exact Effects.pendingRound_active
    · exact Effects.afterKey_active id
  | read | listInputs | claimInput | admitInputs | discardInputs | enqueueInput =>
    exact ⟨fun _ => trivial, hother _ (by simp)⟩
  | _ => exact ⟨trivial, hother _ (by simp)⟩

section
variable {b : String} {i : Nat} {events : List Event} {e : Event}

theorem mem_log : e ∈ log i events ↔ e ∈ events ∧ e.thread = i := by
  simp [log]

theorem mem_tokens {t : Nat} :
    t ∈ tokens b i events ↔ ∃ e ∈ events, e.thread = i ∧ granted b e = some t := by
  simp only [tokens, List.mem_filterMap, mem_log, and_assoc]

theorem looked_append (events : List Event) (e : Event) (h : e.thread = i) :
    looked b i (events ++ [e]) =
      if (bid b e).isSome then false else looked b i events || looks b e := by
  simp [looked, log, h]

theorem granted_bid (h : bid b e = none) : granted b e = none := by
  unfold bid at h
  unfold granted
  split
  · rename_i b' _ _ t
    simp only [ite_eq_right_iff, reduceCtorEq, imp_false] at h ⊢
    simp [h]
  · rfl

/-- A calm operation asks for no lease of the branch. -/
theorem calm_bid {o : Op} {r : Except Exn o.Res} (ho : Calm b o) :
    bid b ⟨i, o, r⟩ = none := by
  cases o with
  | ledger c =>
    cases c with
    | acquire b' owner ttl =>
      have hb : b' ≠ b := fun h => (ho h).elim
      simp [bid, hb]
    | _ => rfl
  | _ => rfl

/-- A calm operation leaves the continuation alone. -/
theorem calm_cell (out : Outside) {o : Op} (ho : Calm b o) (w : World) (a : Attempt) :
    (step out o w a).2.1.store.read b Effects.activeSuspension =
      w.store.read b Effects.activeSuspension := by
  cases o with
  | ledger c =>
    have htouch := exec_touch c (out.clock w.instant) (out.clock (w.instant + 1)) w.store b
      Effects.activeSuspension
    simp only [step, MemorySteps.read, MemorySteps.step]
    generalize w.store.entries.get? (b, Effects.activeSuspension) = st at htouch
    generalize (c.exec _ _ w.store).2.entries.get? (b, Effects.activeSuspension) = st' at htouch ⊢
    cases htouch with
    | same => rfl
    | start t h => subst h; exact (ho rfl rfl).elim
    | finish v t h => subst h; exact (ho rfl rfl).elim
    | control _ v t h => subst h; exact (ho rfl rfl).elim
    | forget _ t h => subst h; exact (ho rfl rfl).elim
    | transition _ tr v t h => subst h; exact (ho rfl).elim
  | _ => rfl

/-- It hands out no token of the branch, and of its leases only one may be given back. -/
theorem calm_leases (out : Outside) {o : Op} (ho : Calm b o) (w : World) (a : Attempt) :
    (step out o w a).2.1.store.issued b = w.store.issued b ∧
      ∀ l, (step out o w a).2.1.store.leases.get? b = some l → l.owner = "" ∨
        w.store.leases.get? b = some l := by
  cases o with
  | ledger c =>
    simp only [step]
    generalize out.clock w.instant = now
    generalize out.clock (w.instant + 1) = now'
    by_cases hc : c.owner? = none
    · obtain ⟨htokens, hleases⟩ := exec_same c now now' w.store hc
      rw [hleases]
      exact ⟨by unfold MemorySteps.issued; rw [htokens], fun l hl => .inr hl⟩
    · cases c with
      | acquire b' owner ttl =>
        have hb : b ≠ b' := fun h => (ho h.symm).elim
        simp only [Call.exec]
        rcases MemorySteps.acquire_cases w.store b' owner ttl now now' with ⟨held, -, -, h⟩ |
          ⟨held, -, -, -, h⟩ | ⟨-, h⟩
        · rw [h]
          exact ⟨rfl, fun l hl => .inr ((Dict.get?_insert_ne _ _ hb).symm.trans hl)⟩
        · rw [h]
          exact ⟨rfl, fun l hl => .inr hl⟩
        · rw [h]
          refine ⟨?_, fun l hl => .inr ((Dict.get?_insert_ne _ _ hb).symm.trans hl)⟩
          exact congrArg (fun t => Option.getD t 0) (Dict.get?_insert_ne _ _ hb)
      | release b' owner =>
        simp only [Call.exec]
        rcases MemorySteps.release_cases w.store b' owner now with ⟨held, -, -, h⟩ | ⟨-, h⟩
        · rw [h]
          refine ⟨rfl, ?_⟩
          intro l hl
          simp only [Dict.get?_insert] at hl
          split at hl
          · cases hl
            exact .inl rfl
          · exact .inr hl
        · rw [h]
          exact ⟨rfl, fun l hl => .inr hl⟩
      | _ => exact absurd rfl hc
  | _ => exact ⟨rfl, fun l hl => .inr hl⟩

/-- A lease is no matter of the continuation. -/
theorem acquire_cell (out : Outside) (owner : String) (ttl : ℚ) (w : World) (a : Attempt) :
    (step out (.ledger (.acquire b owner ttl)) w a).2.1.store.read b Effects.activeSuspension =
      w.store.read b Effects.activeSuspension := by
  have htouch := exec_touch (.acquire b owner ttl) (out.clock w.instant)
    (out.clock (w.instant + 1)) w.store b Effects.activeSuspension
  simp only [step, MemorySteps.read, MemorySteps.step]
  generalize w.store.entries.get? (b, Effects.activeSuspension) = st at htouch
  generalize (Call.exec (.acquire b owner ttl) _ _ w.store).2.entries.get?
    (b, Effects.activeSuspension) = st' at htouch ⊢
  cases htouch with
  | same => rfl
  | start _ h | finish _ _ h | control _ _ _ h | forget _ _ h | transition _ _ _ _ h => cases h

/-- A lease asked for is the asker's, or stays whose it was. -/
theorem acquire_leases (out : Outside) (owner : String) (ttl : ℚ) (w : World) (a : Attempt) :
    w.store.issued b ≤ (step out (.ledger (.acquire b owner ttl)) w a).2.1.store.issued b ∧
      ∀ l, (step out (.ledger (.acquire b owner ttl)) w a).2.1.store.leases.get? b = some l →
        l.owner = owner ∨ w.store.leases.get? b = some l := by
  simp only [step, Call.exec]
  rcases MemorySteps.acquire_cases w.store b owner ttl (out.clock w.instant)
    (out.clock (w.instant + 1)) with ⟨held, -, -, h⟩ | ⟨held, -, -, -, h⟩ | ⟨-, h⟩
  · rw [h]
    refine ⟨Nat.le_refl _, ?_⟩
    intro l hl
    simp only [Dict.get?_insert_self, Option.some.injEq] at hl
    rw [← hl]
    exact .inl rfl
  · rw [h]
    exact ⟨Nat.le_refl _, fun l hl => .inr hl⟩
  · rw [h]
    refine ⟨by simp [MemorySteps.issued], ?_⟩
    intro l hl
    simp only [Dict.get?_insert_self, Option.some.injEq] at hl
    rw [← hl]
    exact .inl rfl

end

section
variable {out : Outside} {self : Nat → Nat} {b : String} {i : Nat} {s s' : Scene} {e : Event}

/-- The threads stay accounted for when one more event is. -/
theorem inv_append (h : Inv out b s) (hevents : s'.events = s.events ++ [e])
    (hinstant : s'.world.instant = s.world.instant + 1)
    (hhanded : ∀ owner, handed e = some owner → owner = out.uuid4 s.world.instant)
    (hbid : ∀ owner, bid b e = some owner → ∃ f ∈ s.events, f.thread = e.thread ∧
      handed f = some owner)
    (hleased : ∀ l, s'.world.store.leases.get? b = some l → l.owner = "" ∨
      s.world.store.leases.get? b = some l ∨ bid b e = some l.owner)
    (hissued : issued b s ≤ issued b s')
    (hgranted : ∀ t, granted b e = some t → t ≠ 0 ∧ issued b s < t ∧ t ≤ issued b s') :
    Inv out b s' := by
  have hold : ∀ f ∈ s.events, ∀ owner, handed f = some owner → handed e ≠ some owner := by
    intro f hf owner hfo heo
    obtain ⟨n, hn, hfresh⟩ := h.handed f hf owner hfo
    have := out.uuid4_fresh _ _ (hfresh.symm.trans (hhanded owner heo))
    omega
  have hmem : ∀ {f}, f ∈ s'.events → f ∈ s.events ∨ f = e := by
    intro f hf
    rw [hevents] at hf
    simpa using hf
  have htokens : ∀ {j t}, t ∈ tokens b j s'.events → t ∈ tokens b j s.events ∨
      (e.thread = j ∧ granted b e = some t) := by
    intro j t ht
    obtain ⟨f, hf, hj, hg⟩ := mem_tokens.mp ht
    rcases hmem hf with hf | rfl
    · exact .inl (mem_tokens.mpr ⟨f, hf, hj, hg⟩)
    · exact .inr ⟨hj, hg⟩
  refine ⟨?_, ?_, ?_, ?_, ?_, ?_⟩
  · intro f hf owner ho
    rcases hmem hf with hf | rfl
    · obtain ⟨n, hn, hfresh⟩ := h.handed f hf owner ho
      exact ⟨n, by omega, hfresh⟩
    · exact ⟨s.world.instant, by omega, hhanded owner ho⟩
  · intro f hf g hg owner hfo hgo
    rcases hmem hf with hf | rfl
    · rcases hmem hg with hg | rfl
      · exact h.distinct f hf g hg owner hfo hgo
      · exact absurd hgo (hold f hf owner hfo)
    · rcases hmem hg with hg | rfl
      · exact absurd hfo (hold g hg owner hgo)
      · rfl
  · intro f hf owner ho
    have hfound : ∃ g ∈ s.events, g.thread = f.thread ∧ handed g = some owner := by
      rcases hmem hf with hf | rfl
      · exact h.bid f hf owner ho
      · exact hbid owner ho
    obtain ⟨g, hg, hthread, hgo⟩ := hfound
    exact ⟨g, by rw [hevents]; exact List.mem_append_left _ hg, hthread, hgo⟩
  · intro l hl
    rcases hleased l hl with hempty | hsame | hnew
    · exact .inl hempty
    · rcases h.leased l hsame with hempty | ⟨f, hf, hfo⟩
      · exact .inl hempty
      · exact .inr ⟨f, by rw [hevents]; exact List.mem_append_left _ hf, hfo⟩
    · exact .inr ⟨e, by simp [hevents], hnew⟩
  · intro j t ht
    rcases htokens ht with ht | ⟨-, ht⟩
    · obtain ⟨hpos, hle⟩ := h.issued j t ht
      exact ⟨hpos, hle.trans hissued⟩
    · obtain ⟨hpos, -, hle⟩ := hgranted t ht
      exact ⟨hpos, hle⟩
  · intro j k t hj hk
    rcases htokens hj with hj | ⟨hje, hj⟩
    · rcases htokens hk with hk | ⟨hke, hk⟩
      · exact h.exclusive j k t hj hk
      · have := (h.issued j t hj).2
        have := (hgranted t hk).2.1
        omega
    · rcases htokens hk with hk | ⟨hke, hk⟩
      · have := (h.issued k t hk).2
        have := (hgranted t hj).2.1
        omega
      · exact hje.symm.trans hke

theorem finalizes_append {active : Suspension} (hevents : s'.events = s.events ++ [e])
    (h : Finalizes b i active s.events) : Finalizes b i active s'.events := by
  obtain ⟨f, hf, hr⟩ := h
  refine ⟨f, ?_, hr⟩
  rw [hevents, mem_log]
  exact ⟨List.mem_append_left _ (mem_log.mp hf).1, (mem_log.mp hf).2⟩

theorem still_refl (h : Inv out b s) : Still out b i s s :=
  ⟨h, rfl, fun h => h, fun _ _ h => ⟨h, rfl⟩, fun _ h => h⟩

theorem still_trans {s'' : Scene} (h : Still out b i s s') (h' : Still out b i s' s'') :
    Still out b i s s'' := by
  refine ⟨h'.inv, h'.tokens.trans h.tokens, fun hb => h'.bids (h.bids hb), ?_,
    fun active hf => h'.finalizes active (h.finalizes active hf)⟩
  intro t ht hissued
  obtain ⟨hissued', hcell'⟩ := h'.kept t (h.tokens ▸ ht) hissued
  obtain ⟨hissued, hcell⟩ := h.kept t ht hissued'
  exact ⟨hissued, hcell'.trans hcell⟩

theorem still_rely (hi : Inv out b s) (h : Rely out b i s s') : Still out b i s s' := by
  refine ⟨h.inv, ?_, ?_, ?_, ?_⟩
  · unfold tokens
    rw [h.own]
  · rw [h.own]
    exact fun hb => hb
  · intro t ht hissued
    have hle := (hi.issued i t ht).2
    have hlater := h.later
    exact ⟨by omega, h.kept t ht hissued⟩
  · unfold Finalizes
    rw [h.own]
    exact fun _ hf => hf

/-- A call that is no matter of a lease, or a calm operation: no thread is given a token by it. -/
theorem inv_op {o : Op} {r : Except Exn o.Res} (hbid : bid b ⟨i, o, r⟩ = none) (hi : Inv out b s)
    (hissued : (step out o s.world (s.attempts (self i))).2.1.store.issued b = s.world.store.issued b)
    (hleases : ∀ l, (step out o s.world (s.attempts (self i))).2.1.store.leases.get? b = some l →
      l.owner = "" ∨ s.world.store.leases.get? b = some l)
    (h : exec out self i o s r s') :
    Inv out b s' ∧ issued b s' = issued b s ∧ tokens b i s'.events = tokens b i s.events := by
  obtain ⟨hevents, hworld, hr⟩ := exec_events h
  rw [← hworld] at hissued hleases
  have hgranted : granted b ⟨i, o, r⟩ = none := granted_bid hbid
  have hlog : log i s'.events = log i s.events ++ [⟨i, o, r⟩] := log_mine hevents
  refine ⟨inv_append hi hevents ?_ ?_ ?_ ?_ (Nat.le_of_eq hissued.symm) ?_, hissued, ?_⟩
  · rw [hworld]
    exact step_instant out o _ _
  · intro owner howner
    cases o with
    | uuid4 =>
      subst hr
      cases howner
      rfl
    | _ => cases howner
  · simp [hbid]
  · intro l hl
    rcases hleases l hl with h | h
    · exact .inl h
    · exact .inr (.inl h)
  · simp [hgranted]
  · simp [tokens, hlog, hgranted]

/-- A calm operation of a thread leaves it where it is. -/
theorem calm_still {o : Op} {r : Except Exn o.Res} (ho : Calm b o) (hi : Inv out b s)
    (h : exec out self i o s r s') :
    Still out b i s s' ∧ issued b s' = issued b s ∧ cell b s' = cell b s := by
  obtain ⟨hevents, hworld, -⟩ := exec_events h
  have hcell : cell b s' = cell b s := by
    unfold cell
    rw [hworld]
    exact calm_cell out ho _ _
  have hbid : bid b ⟨i, o, r⟩ = none := calm_bid ho
  obtain ⟨hissued, hleases⟩ := calm_leases out ho s.world (s.attempts (self i))
  obtain ⟨hinv, hissued, htokens⟩ := inv_op hbid hi hissued hleases h
  have hlog : log i s'.events = log i s.events ++ [⟨i, o, r⟩] := log_mine hevents
  refine ⟨⟨hinv, htokens, ?_, ?_, ?_⟩, hissued, hcell⟩
  · intro hb f hf
    rw [hlog] at hf
    rcases List.mem_append.mp hf with hf | hf
    · exact hb f hf
    · rw [List.mem_singleton.mp hf]
      exact hbid
  · intro t _ ht
    exact ⟨hissued.symm.trans ht, hcell⟩
  · exact fun active hf => finalizes_append hevents hf

/-- A calm operation of a thread, which may begin an attempt only where it finalizes the park. -/
theorem calm_op {o : Op} {r : Except Exn o.Res} (ho : Calm b o) (hi : Inv out b s)
    (hbegins : Begins o → ∀ active, live b s = some active → Finalizes b i active s.events)
    (h : exec out self i o s r s') : Guarantee out b i s s' ∧ Still out b i s s' := by
  obtain ⟨hevents, -, -⟩ := exec_events h
  obtain ⟨hstill, hissued, hcell⟩ := calm_still ho hi h
  refine ⟨⟨hstill.inv, ⟨_, hevents, rfl, hbegins, ?_⟩, Nat.le_of_eq hissued.symm, ?_⟩, hstill⟩
  · intro active hlive
    refine .inl ⟨active, ?_, rfl⟩
    unfold live
    rw [hcell]
    exact hlive
  · exact fun hne => absurd hcell hne

/-- A call that is no matter of a lease. -/
theorem inv_call {c : Call Value} {r : Except Exn (Op.ledger c).Res} (howner : c.owner? = none)
    (hi : Inv out b s) (h : exec out self i (.ledger c) s r s') :
    Inv out b s' ∧ issued b s' = issued b s ∧ tokens b i s'.events = tokens b i s.events := by
  have hbid : bid b ⟨i, .ledger c, r⟩ = none := by
    cases c with
    | acquire => cases howner
    | _ => rfl
  obtain ⟨htokens, hleases⟩ := exec_same c (out.clock s.world.instant)
    (out.clock (s.world.instant + 1)) s.world.store howner
  refine inv_op hbid hi ?_ ?_ h
  · simp only [step, MemorySteps.issued, htokens]
  · intro l hl
    simp only [step, hleases] at hl
    exact .inr hl

/-- A stale token is refused. -/
theorem stale_op {c : Call Value} {t : Nat} {r : Except Exn (Op.ledger c).Res}
    (hb : c.branchId = b) (htoken : c.token? = some t) (hpos : t ≠ 0) (hlt : t < issued b s)
    (h : exec out self i (.ledger c) s r s') :
    s'.world.store = s.world.store ∧
      r = .error (.store (.fenced c.branchId t (s.world.store.issued c.branchId))) := by
  obtain ⟨-, hworld, hr⟩ := exec_events h
  subst hb
  have hexec := exec_stale c (out.clock s.world.instant) (out.clock (s.world.instant + 1))
    s.world.store t htoken hpos hlt
  refine ⟨?_, hr.trans (congrArg (fun done => done.1.mapError Exn.store) hexec)⟩
  rw [hworld]
  exact congrArg Prod.snd hexec

/-- A write under a thread's token: the token is the newest, or the write is refused. -/
theorem token_op {c : Call Value} {t : Nat} {r : Except Exn (Op.ledger c).Res}
    (hb : c.branchId = b) (htoken : c.token? = some t) (howner : c.owner? = none)
    (hi : Inv out b s) (hmine : t ∈ tokens b i s.events) (h : exec out self i (.ledger c) s r s') :
    Inv out b s' ∧ issued b s' = issued b s ∧ tokens b i s'.events = tokens b i s.events ∧
      (issued b s = t ∨ s'.world.store = s.world.store ∧ ∃ error, r = .error error) := by
  obtain ⟨hpos, hle⟩ := hi.issued i t hmine
  obtain ⟨hinv, hissued, htokens⟩ := inv_call howner hi h
  refine ⟨hinv, hissued, htokens, ?_⟩
  by_cases hcur : issued b s = t
  · exact .inl hcur
  · obtain ⟨hstore, hr⟩ := stale_op hb htoken hpos (by omega) h
    exact .inr ⟨hstore, _, hr⟩

/-- A write under the newest token is what the ledger then holds. -/
theorem newest_op {value : Value} {t : Nat} {r : Except Exn Unit} (hcur : issued b s = t)
    (h : exec out self i (.ledger (.writeControl b Effects.activeSuspension value t)) s r s') :
    r = .ok () ∧ cell b s' = .done value := by
  obtain ⟨-, hworld, hreply⟩ := exec_events h
  have hfence : s.world.store.fenced b t ((.ok (), s.world.store.put b
      Effects.activeSuspension (.done value)) : Except StoreError Unit × MemorySteps Value) = _ :=
    MemorySteps.fenced_ok (.inr (Nat.le_of_eq hcur))
  refine ⟨hreply.trans (congrArg (fun done => done.1.mapError Exn.store) hfence), ?_⟩
  unfold cell
  rw [hworld]
  refine (congrArg (fun done => done.2.read b Effects.activeSuspension) hfence).trans ?_
  simp [MemorySteps.read, MemorySteps.step_put]

/-- A write under the continuation key counts only if its thread holds the newest token. -/
theorem holder_op {c : Call Value} {t : Nat} {r : Except Exn (Op.ledger c).Res}
    (hb : c.branchId = b) (htoken : c.token? = some t) (howner : c.owner? = none)
    (hi : Inv out b s) (hmine : t ∈ tokens b i s.events) (h : exec out self i (.ledger c) s r s')
    (hkept : issued b s = t → ∀ active, live b s = some active →
      (∃ active', live b s' = some active' ∧ parkOf active' = parkOf active) ∨
        (Finalizes b i active s.events ∧ ends b active ⟨i, .ledger c, r⟩)) :
    Guarantee out b i s s' ∧ tokens b i s'.events = tokens b i s.events ∧
      issued b s' = issued b s ∧ (issued b s = t ∨ ∃ error, r = .error error) := by
  obtain ⟨hevents, -, -⟩ := exec_events h
  obtain ⟨hinv, hissued, htokens, hcase⟩ := token_op hb htoken howner hi hmine h
  refine ⟨⟨hinv, ⟨_, hevents, rfl, ?_, ?_⟩, Nat.le_of_eq hissued.symm, ?_⟩, htokens, hissued, ?_⟩
  · rintro ⟨f, hf, -⟩
    cases hf
  · intro active hlive
    rcases hcase with hcur | ⟨hstore, -⟩
    · exact hkept hcur active hlive
    · refine .inl ⟨active, ?_, rfl⟩
      unfold live cell
      rw [hstore]
      exact hlive
  · intro hne
    rcases hcase with hcur | ⟨hstore, -⟩
    · rw [hcur]
      exact hmine
    · refine absurd ?_ hne
      unfold cell
      rw [hstore]
  · exact hcase.imp_right (fun hrefused => hrefused.2)

abbrev Safe (out : Outside) (self : Nat → Nat) (b : String) (i : Nat) {α : Type} (p : Program α)
    (Q : Except Exn α → Scene → Prop) (s : Scene) : Prop :=
  Prog.safe (guarded out self b i) (Rely out b i) (Guarantee out b i) p Q s

theorem safe_harmless {α : Type} {p : Program α} (hp : p.AllOps (Harmless b)) (hi : Inv out b s) :
    Safe out self b i p (fun _ s' => Still out b i s s') s := by
  refine Prog.safe_of_allOps ?_ ?_ hp (still_refl hi)
  · intro s₁ s₂ hr h
    exact still_trans h (still_rely h.inv hr)
  · intro o ho s₁ r s₂ h he
    obtain ⟨hg, hstill⟩ := calm_op ho.1 h.inv (fun hb => absurd hb ho.2) he.1
    exact ⟨hg, still_trans h hstill⟩

/-- A harmless program that does not look for a continuation either. -/
theorem safe_unlooking {α : Type} {p : Program α}
    (hp : p.AllOps (fun o => Harmless b o ∧ ∀ r, looks b ⟨i, o, r⟩ = false)) (hi : Inv out b s) :
    Safe out self b i p (fun _ s' => Still out b i s s' ∧
      looked b i s'.events = looked b i s.events) s := by
  refine Prog.safe_of_allOps ?_ ?_ hp
    (⟨still_refl hi, rfl⟩ : Still out b i s s ∧ looked b i s.events = looked b i s.events)
  · intro s₁ s₂ hr h
    refine ⟨still_trans h.1 (still_rely h.1.inv hr), ?_⟩
    rw [← h.2]
    unfold looked
    rw [hr.own]
  · intro o ho s₁ r s₂ h he
    obtain ⟨hg, hstill⟩ := calm_op ho.1.1 h.1.inv (fun hb => absurd hb ho.1.2) he.1
    refine ⟨hg, still_trans h.1 hstill, ?_⟩
    obtain ⟨hevents, -, -⟩ := exec_events he.1
    have happend : looked b i (s₁.events ++ [⟨i, o, r⟩]) =
        if (bid b ⟨i, o, r⟩).isSome then false else looked b i s₁.events || looks b ⟨i, o, r⟩ :=
      looked_append s₁.events ⟨i, o, r⟩ rfl
    rw [hevents, happend, calm_bid ho.1.1, ho.2 r]
    simpa using h.2

end

/-! What a thread knows under its lease. -/

/-- The thread holds token `t`; as long as that is the newest, the ledger holds `v` under the
continuation key. -/
structure Knows (out : Outside) (b : String) (i t : Nat) (v : Step Value) (s : Scene) : Prop where
  inv : Inv out b s
  mine : tokens b i s.events = [t]
  cell : issued b s = t → Parked.cell b s = v

/-- What it knows to be parked there it is finalizing. -/
structure Drives (out : Outside) (b : String) (i t : Nat) (v : Step Value) (s : Scene) : Prop
    extends Knows out b i t v s where
  finalizes : ∀ active, AgentRuntime.liveSuspension v = some active →
    Finalizes b i active s.events

/-- The thread has the lease and has not looked for a continuation. -/
structure Blind (out : Outside) (b : String) (i t : Nat) (s : Scene) : Prop where
  inv : Inv out b s
  mine : tokens b i s.events = [t]
  blind : looked b i s.events = false

/-- The thread has not asked for the lease. -/
structure Idle (out : Outside) (b : String) (i : Nat) (s : Scene) : Prop where
  inv : Inv out b s
  idle : ∀ e ∈ log i s.events, bid b e = none

section
variable {out : Outside} {self : Nat → Nat} {b : String} {i t : Nat} {v : Step Value}
variable {s s' : Scene}

theorem Knows.still (h : Knows out b i t v s) (hs : Still out b i s s') : Knows out b i t v s' := by
  refine ⟨hs.inv, hs.tokens.trans h.mine, ?_⟩
  intro ht
  obtain ⟨hissued, hcell⟩ := hs.kept t (by simp [h.mine]) ht
  exact hcell.trans (h.cell hissued)

theorem Drives.still (h : Drives out b i t v s) (hs : Still out b i s s') :
    Drives out b i t v s' :=
  ⟨h.toKnows.still hs, fun active hv => hs.finalizes active (h.finalizes active hv)⟩

/-- What the holder of the newest token knows is so. -/
theorem Knows.current (h : Knows out b i t v s) (hfit : Fit b i s) : Parked.cell b s = v := by
  refine h.cell ?_
  have := hfit.1
  rw [h.mine] at this
  exact List.mem_singleton.mp this

theorem Idle.still (h : Idle out b i s) (hs : Still out b i s s') : Idle out b i s' :=
  ⟨hs.inv, hs.bids h.idle⟩

/-- Looking for the continuation. -/
theorem safe_look (hi : Inv out b s) :
    Safe out self b i (perform (.ledger (.read b Effects.activeSuspension)))
      (fun r s' => Still out b i s s' ∧ ∀ v, r = .ok v → Parked.cell b s' = v) s := by
  refine (Prog.safe_op _ _ _).mpr ?_
  intro s₁ hr r s₂ he
  have hcalm : Calm b (.ledger (.read b Effects.activeSuspension)) := fun _ => trivial
  obtain ⟨hg, hstill⟩ := calm_op hcalm hr.inv (by rintro ⟨f, hf, -⟩; cases hf) he.1
  refine ⟨hg, still_trans (still_rely hi hr) hstill, ?_⟩
  intro v hv
  obtain ⟨-, hworld, hreply⟩ := exec_events he.1
  subst hv
  cases hreply
  unfold cell
  rw [hworld]
  rfl

/-- Asking for the lease under an identifier of one's own. -/
theorem acquire_op {owner : String} {ttl : ℚ} {r : Except Exn Nat} (hidle : Idle out b i s)
    (howner : ∃ e ∈ log i s.events, handed e = some owner) (hnonempty : owner ≠ "")
    (h : exec out self i (.ledger (.acquire b owner ttl)) s r s') :
    Inv out b s' ∧ issued b s ≤ issued b s' ∧
      ∀ t, r = .ok t → t ≠ 0 → Blind out b i t s' ∧ issued b s' = t := by
  obtain ⟨f, hf, hfo⟩ := howner
  obtain ⟨hfm, hft⟩ := mem_log.mp hf
  obtain ⟨hevents, hworld, hreply⟩ := exec_events h
  -- nobody has asked for a lease under this identifier
  have hunasked : ∀ e ∈ s.events, bid b e ≠ some owner := by
    intro e he hbid
    obtain ⟨g, hg, hgt, hgo⟩ := hidle.inv.bid e he owner hbid
    have hthread := hidle.inv.distinct g hg f hfm owner hgo hfo
    have := hidle.idle e (mem_log.mpr ⟨he, by rw [← hgt, hthread, hft]⟩)
    rw [this] at hbid
    cases hbid
  have hbid : bid b ⟨i, .ledger (.acquire b owner ttl), r⟩ = some owner := if_pos rfl
  have htokens : tokens b i s.events = [] := by
    refine List.eq_nil_iff_forall_not_mem.mpr ?_
    intro t ht
    obtain ⟨e, he, het, hg⟩ := mem_tokens.mp ht
    rw [granted_bid (hidle.idle e (mem_log.mpr ⟨he, het⟩))] at hg
    cases hg
  have hlooked : looked b i s'.events = false := by
    rw [hevents]
    refine (looked_append s.events ⟨i, .ledger (.acquire b owner ttl), r⟩ rfl).trans ?_
    simp [hbid]
  have hcases : (r = .ok 0 ∧ s'.world.store = s.world.store) ∨
      (r = .ok (issued b s + 1) ∧ issued b s' = issued b s + 1 ∧
        ∀ l, s'.world.store.leases.get? b = some l → l.owner = owner) := by
    unfold issued
    rw [hworld]
    simp only [step, Call.exec] at hreply ⊢
    rcases MemorySteps.acquire_cases s.world.store b owner ttl (out.clock s.world.instant)
      (out.clock (s.world.instant + 1)) with ⟨held, hheld, howned, h⟩ | ⟨held, -, -, -, h⟩ | ⟨-, h⟩
    · rcases hidle.inv.leased held hheld with hempty | ⟨e, he, hbid⟩
      · exact absurd (howned.symm.trans hempty) hnonempty
      · exact absurd (howned ▸ hbid) (hunasked e he)
    · rw [h] at hreply ⊢
      exact .inl ⟨hreply, rfl⟩
    · rw [h] at hreply ⊢
      refine .inr ⟨hreply, ?_, ?_⟩
      · simp [MemorySteps.issued]
      · intro l hl
        simp only [Dict.get?_insert_self, Option.some.injEq] at hl
        rw [← hl]
  have hlater : issued b s ≤ issued b s' := by
    rcases hcases with ⟨-, hstore⟩ | ⟨-, hissued, -⟩
    · unfold issued
      rw [hstore]
    · omega
  have hinv : Inv out b s' := by
    refine inv_append hidle.inv hevents ?_ ?_ ?_ ?_ hlater ?_
    · rw [hworld]
      exact step_instant out _ _ _
    · intro o ho
      cases ho
    · intro o ho
      rw [hbid] at ho
      cases ho
      exact ⟨f, hfm, hft, hfo⟩
    · intro l hl
      rcases hcases with ⟨-, hstore⟩ | ⟨-, -, hlease⟩
      · rw [hstore] at hl
        exact .inr (.inl hl)
      · rw [hlease l hl]
        exact .inr (.inr hbid)
    · intro t ht
      rcases hcases with ⟨rfl, -⟩ | ⟨rfl, hissued, -⟩
      · simp [granted] at ht
      · simp only [granted, true_and, ite_not, Option.ite_none_left_eq_some, Option.some.injEq] at ht
        omega
  refine ⟨hinv, hlater, ?_⟩
  intro t ht hpos
  subst ht
  have hlog : log i s'.events = log i s.events ++
      [⟨i, .ledger (.acquire b owner ttl), .ok t⟩] := log_mine hevents
  have hmine : tokens b i s'.events = tokens b i s.events ++ [t] := by
    simp [tokens, hlog, granted, hpos]
  refine ⟨⟨hinv, by rw [hmine, htokens]; rfl, hlooked⟩, ?_⟩
  rcases hcases with ⟨hzero, -⟩ | ⟨hok, hissued, -⟩
  · exact absurd (Except.ok.inj hzero) hpos
  · rw [hissued]
    exact (Except.ok.inj hok).symm

theorem safe_acquire {owner : String} {ttl : ℚ} (h : Idle out b i s)
    (howner : ∃ e ∈ log i s.events, handed e = some owner) (hnonempty : owner ≠ "") :
    Safe out self b i (perform (.ledger (.acquire b owner ttl)))
      (fun r s' => Inv out b s' ∧ ∀ t, r = .ok t → t ≠ 0 → Blind out b i t s') s := by
  apply (Prog.safe_op _ _ _).mpr
  intro s₁ hr r s₂ he
  have hidle : Idle out b i s₁ := h.still (still_rely h.inv hr)
  rw [← hr.own] at howner
  obtain ⟨hevents, hworld, -⟩ := exec_events he.1
  have hcell : cell b s₂ = cell b s₁ := by
    unfold cell
    rw [hworld]
    exact acquire_cell out _ _ _ _
  obtain ⟨hinv, hlater, hblind⟩ := acquire_op hidle howner hnonempty he.1
  refine ⟨⟨hinv, ⟨_, hevents, rfl, ?_, ?_⟩, hlater, fun hne => absurd hcell hne⟩, hinv,
    fun t ht hpos => (hblind t ht hpos).1⟩
  · rintro ⟨f, hf, -⟩
    cases hf
  · intro active hlive
    refine .inl ⟨active, ?_, rfl⟩
    unfold live
    rw [hcell]
    exact hlive

/-- Writing under the continuation key: the same park, or the end of one being finalized. -/
theorem safe_write {value : Value} (h : Knows out b i t v s)
    (hvalue : ∀ active, AgentRuntime.liveSuspension v = some active →
      (∃ active', value = .suspension active' ∧ parkOf active' = parkOf active) ∨
        (Finalizes b i active s.events ∧ value = .completed active.callId active.callIds)) :
    Safe out self b i (perform (.ledger (.writeControl b Effects.activeSuspension value t)))
      (fun r s' => Inv out b s' ∧ ∀ u, r = .ok u → Knows out b i t (.done value) s' ∧
        ∀ active, resumes b active ⟨i, .ledger (.writeControl b Effects.activeSuspension value t),
          .ok u⟩ → Finalizes b i active s'.events) s := by
  refine (Prog.safe_op _ _ _).mpr ?_
  intro s₁ hr r s₂ he
  have hstill := still_rely h.inv hr
  have h₁ : Knows out b i t v s₁ := h.still hstill
  obtain ⟨hevents, -, -⟩ := exec_events he.1
  have hwritten : issued b s₁ = t → r = .ok () ∧ cell b s₂ = .done value :=
    fun hcur => newest_op hcur he.1
  have hmine : t ∈ tokens b i s₁.events := by simp [h₁.mine]
  have hb : (Call.writeControl b Effects.activeSuspension value t).branchId = b := rfl
  obtain ⟨hg, htokens, hissued, hok⟩ := holder_op hb rfl rfl h₁.inv hmine he.1 (by
    intro hcur active hlive
    obtain ⟨hr, hcell⟩ := hwritten hcur
    unfold live at hlive ⊢
    rw [h₁.cell hcur] at hlive
    rw [hcell]
    rcases hvalue active hlive with ⟨active', rfl, hpark⟩ | ⟨hfin, rfl⟩
    · exact .inl ⟨active', rfl, hpark⟩
    · exact .inr ⟨hstill.finalizes active hfin, by simp [ends, hr]⟩)
  refine ⟨hg, hg.inv, ?_⟩
  intro u hu
  rcases hok with hcur | ⟨error, herror⟩
  · refine ⟨⟨hg.inv, htokens.trans h₁.mine, fun _ => (hwritten hcur).2⟩, ?_⟩
    intro active hresumes
    refine ⟨_, ?_, hresumes⟩
    rw [mem_log, hevents, hu]
    exact ⟨List.mem_append_right _ (List.mem_singleton_self _), rfl⟩
  · rw [hu] at herror
    cases herror

/-- Parking a round, over nothing or over the park being finalized. -/
theorem safe_repark {tr : ExecutionTransition Value} (h : Drives out b i t v s)
    (hkey : Effects.activeSuspension ∈ tr.controls.map Prod.fst) :
    Safe out self b i (perform (.ledger (.commitTransition b tr t))) (fun _ s' => Inv out b s') s := by
  refine (Prog.safe_op _ _ _).mpr ?_
  intro s₁ hr r s₂ he
  have h₁ : Drives out b i t v s₁ := h.still (still_rely h.inv hr)
  obtain ⟨-, hworld, hreply⟩ := exec_events he.1
  have hmine : t ∈ tokens b i s₁.events := by simp [h₁.mine]
  have hb : (Call.commitTransition b tr t).branchId = b := rfl
  obtain ⟨hg, -, -, -⟩ := holder_op hb rfl rfl h₁.inv hmine he.1 (by
    intro hcur active hlive
    have hv : AgentRuntime.liveSuspension v = some active := by
      rw [← h₁.cell hcur]
      exact hlive
    cases hr : r with
    | ok inserted => exact .inr ⟨h₁.finalizes active hv, by simpa [ends] using hkey⟩
    | error error =>
      refine .inl ⟨active, ?_, rfl⟩
      have hrefused : s₂.world.store = s₁.world.store := by
        rw [hworld]
        simp only [step] at hreply ⊢
        cases hexec : (Call.exec (.commitTransition b tr t) (out.clock s₁.world.instant)
          (out.clock (s₁.world.instant + 1)) s₁.world.store).1 with
        | ok ids =>
          rw [hexec, hr] at hreply
          cases hreply
        | error refusal => exact exec_refused _ _ _ _ hexec
      unfold live cell
      rw [hrefused]
      exact hlive)
  exact ⟨hg, hg.inv⟩

end

/-! The pieces of an attempt. -/

section
variable {b : String}

theorem harmless_within {α : Type} {eff : Effects} {p : Program α} (h : Within eff false .effects p) :
    p.AllOps (Harmless b) := h.mono (fun _ => harmless_performs)

/-- An operation on no ledger and on no attempt's objects. -/
theorem harmless_outer {o : Op} (hledger : ∀ c, o ≠ .ledger c) (hmodify : ∀ f, o ≠ .modify f) :
    (perform o).AllOps (Harmless b) := by
  refine (Prog.allOps_op _).mpr ⟨?_, ?_⟩
  · cases o with
    | ledger c => exact absurd rfl (hledger c)
    | _ => trivial
  · rintro ⟨f, rfl, -⟩
    exact hmodify f rfl

theorem harmless_ledger {c : Call Value} (h : Calm b (.ledger c)) :
    (perform (.ledger c)).AllOps (Harmless b) :=
  (Prog.allOps_op _).mpr ⟨h, by rintro ⟨f, hf, -⟩; cases hf⟩

variable (rt : AgentRuntime) (e : Execution)

theorem harmless_openBranch (messageHistory : Option (List ModelMessage)) :
    (rt.openBranch e messageHistory).AllOps (Harmless b) := by
  have hupdate : ∀ f : Attempt → Attempt, (∀ a, (f a).seen = a.seen) →
      (update f).AllOps (Harmless b) := fun f h =>
    harmless_within (within_talk h : Within { store := none, branchId := b } false .effects (update f))
  unfold AgentRuntime.openBranch
  split
  · refine Prog.allOps_bind (Prog.allOps_bind (harmless_outer (by simp) (by simp)) (fun entries =>
      Prog.allOps_bind (Prog.allOps_bind (harmless_outer (by simp) (by simp)) (fun _ =>
        harmless_outer (by simp) (by simp))) (fun _ => hupdate _ (fun _ => rfl)))) (fun _ => ?_)
    cases messageHistory with
    | none => exact Prog.allOps_bind (harmless_outer (by simp) (by simp)) (fun _ => trivial)
    | some history =>
      have hreplace : Within { store := none, branchId := b, record := some ⟨e.conversation⟩ } false .effects
          (Branch.replace e.conversation history) := within_replace rfl history
      exact Prog.allOps_bind (harmless_within hreplace) (fun _ => trivial)
  · trivial

theorem harmless_close (output : Output) : (rt.close e output).AllOps (Harmless b) := by
  refine Prog.allOps_bind (harmless_outer (by simp) (by simp)) (fun a =>
    Prog.allOps_bind ?_ (fun _ => trivial))
  unfold AgentRuntime.closeRecord
  split
  · refine Prog.allOps_bind (harmless_outer (by simp) (by simp)) (fun instant =>
      Prog.allOps_bind (harmless_outer (by simp) (by simp)) (fun _ => ?_))
    induction AgentRuntime.usageOf a with
    | nil => trivial
    | cons item usage ih =>
      exact Prog.allOps_bind (harmless_outer (by simp) (by simp)) (fun _ => ih)
  · trivial

end

section
variable {out : Outside} {self : Nat → Nat} {b : String} {i t : Nat} {v : Step Value}
variable {s s' : Scene} {rt : AgentRuntime} {e : Execution}

theorem drive_then {α β : Type} {p : Program α} {f : α → Program β}
    {Q : Except Exn β → Scene → Prop} (hp : p.AllOps (Harmless b)) (h : Drives out b i t v s)
    (hf : ∀ a s', Drives out b i t v s' → Safe out self b i (f a) Q s')
    (hQ : ∀ error s', Inv out b s' → Q (.error error) s') : Safe out self b i (p.bind f) Q s := by
  refine (Prog.safe_bind _ _ _ _).mpr (Prog.safe_post (safe_harmless hp h.inv) ?_)
  intro r s₁ hstill
  cases r with
  | ok a => exact hf a s₁ (h.still hstill)
  | error error => exact hQ error s₁ hstill.inv

/-- What one index and the continuation of a parked round are filed under. -/
theorem parkWrites_active (conversation first : String) (continuation : Continuation) :
    Effects.activeSuspension ∈
      (AgentRuntime.parkWrites conversation first continuation).map Prod.fst := by
  simp [AgentRuntime.parkWrites]

theorem safe_persist {conversation first : String} {continuation : Continuation}
    (h : Drives out b i t v s) :
    Safe out self b i (rt.persist e conversation first continuation t)
      (fun _ s' => Inv out b s') s := by
  unfold AgentRuntime.persist
  split
  · exact h.inv
  · rename_i store _
    refine (Prog.safe_bind _ _ _ _).mpr ?_
    by_cases hb : store.filed e.branchId = b
    · rw [hb]
      refine Prog.safe_post (safe_repark h (parkWrites_active _ _ _)) ?_
      intro r s₁ h₁
      cases r <;> exact h₁
    · refine Prog.safe_post (safe_harmless (harmless_ledger (fun hc => absurd hc hb)) h.inv) ?_
      intro r s₁ hstill
      cases r <;> exact hstill.inv

theorem safe_park {α : Type} {conversation : String} {eff : Effects}
    {requests : DeferredToolRequests} {Q : Except Exn α → Scene → Prop}
    (h : Drives out b i t v s) (hQ : ∀ error s', Inv out b s' → Q (.error error) s') :
    Safe out self b i (rt.park e conversation eff requests t : Program α) Q s := by
  unfold AgentRuntime.park
  split
  · exact hQ _ _ h.inv
  · split
    · exact hQ _ _ h.inv
    · exact hQ _ _ h.inv
    · rename_i call request rest _
      simp only
      split
      · exact hQ _ _ h.inv
      · refine drive_then (harmless_outer (by simp) (by simp)) h ?_ hQ
        intro a s₁ h₁
        have hannounce : ∀ parked, Within eff false .effects (AgentRuntime.announce eff a parked) :=
          within_announce eff a
        refine drive_then (harmless_within (hannounce _)) h₁ ?_ hQ
        intro _ s₂ h₂
        refine (Prog.safe_bind _ _ _ _).mpr (Prog.safe_post (safe_persist h₂) ?_)
        intro r s₃ h₃
        cases r <;> exact hQ _ _ h₃

/-- An attempt, begun where its thread may: under the newest token, over nothing or over the park
being finalized. -/
theorem safe_attemptRun {P : Step Value → Prop} {agent : Agent}
    (gathers : Gathers agent.toPydanticAI) (prompt : Option String) (options : Options)
    (hmay : ∀ s₁, Rely out b i s s₁ → Fit b i s₁ → ∃ v, P v ∧ Drives out b i t v s₁ ∧
      Parked.cell b s₁ = v) :
    Safe out self b i (rt.attemptRun e t agent prompt options) (fun r s' => Inv out b s' ∧
      ∀ outcome, r = .ok outcome → ∃ v, P v ∧ Drives out b i t v s') s := by
  refine (Prog.safe_bind _ _ _ _).mpr ((Prog.safe_op _ _ _).mpr ?_)
  intro s₁ hr r s₂ he
  obtain ⟨v, hP, hdrives, hcell⟩ := hmay s₁ hr (he.2 ⟨_, rfl, fun _ => rfl⟩)
  have hcalm : Calm b (.modify (fun _ => {})) := trivial
  obtain ⟨hg, hstill⟩ := calm_op hcalm hr.inv (by
    intro _ active hlive
    refine hdrives.finalizes active ?_
    rw [← hcell]
    exact hlive) he.1
  have hd : Drives out b i t v s₂ := hdrives.still hstill
  refine ⟨hg, ?_⟩
  have hQ : ∀ error s', Inv out b s' → Inv out b s' ∧ ∀ outcome : Outcome,
      (Except.error error : Except Exn Outcome) = .ok outcome → ∃ v, P v ∧ Drives out b i t v s' := by
    intro error s' h
    exact ⟨h, by simp⟩
  cases r with
  | error error => exact hQ error s₂ hd.inv
  | ok u =>
    refine drive_then (harmless_openBranch rt e _) hd ?_ hQ
    intro history s₃ h₃
    refine drive_then (harmless_within (within_admitPrompt rt e t agent options _ _)) h₃ ?_ hQ
    intro prompt s₄ h₄
    refine drive_then (harmless_within (within_run gathers _ _ _)) h₄ ?_ hQ
    intro output s₅ h₅
    refine drive_then (harmless_within (within_replaceFinal rt e t agent options)) h₅ ?_ hQ
    intro _ s₆ h₆
    have hclose : ∀ output, Safe out self b i (rt.close e output) (fun r s' => Inv out b s' ∧
        ∀ outcome, r = .ok outcome → ∃ v, P v ∧ Drives out b i t v s') s₆ := by
      intro output
      refine Prog.safe_post (safe_harmless (harmless_close rt e output) h₆.inv) ?_
      exact fun r s₇ hstill => ⟨hstill.inv, fun _ _ => ⟨v, hP, h₆.still hstill⟩⟩
    cases output with
    | deferred requests => exact safe_park h₆ hQ
    | text content => exact hclose _
    | value value => exact hclose _

end

/-! The entry points. -/

section
variable {b : String} (rt : AgentRuntime) (e : Execution)

theorem harmless_active : (rt.active e).AllOps (Harmless b) := by
  refine Prog.allOps_bind ?_ (fun store =>
    Prog.allOps_bind (harmless_ledger (fun _ => trivial)) (fun _ => trivial))
  unfold AgentRuntime.requireStore
  split <;> trivial

theorem harmless_state : (rt.state e).AllOps (Harmless b) := by
  refine Prog.allOps_bind ?_ (fun parked => ?_)
  · unfold AgentRuntime.parkedOn
    split
    · exact harmless_active rt e
    · trivial
  · split
    · trivial
    · split
      · refine Prog.allOps_bind (harmless_outer (by simp) (by simp)) (fun record => ?_)
        split <;> trivial
      · trivial

theorem harmless_committedHistory : (rt.committedHistory e).AllOps (Harmless b) := by
  unfold AgentRuntime.committedHistory
  split
  · exact Prog.allOps_bind (harmless_outer (by simp) (by simp)) (fun _ => trivial)
  · trivial

theorem harmless_submit (item : PendingInput) : (rt.submit e item).AllOps (Harmless b) := by
  refine Prog.allOps_bind ?_ (fun originId => Prog.allOps_bind ?_ (fun store =>
    Prog.allOps_bind (harmless_ledger (fun _ => trivial)) (fun _ => trivial)))
  · unfold AgentRuntime.inputIdOf
    split
    · exact harmless_outer (by simp) (by simp)
    · exact harmless_outer (by simp) (by simp)
    · trivial
  · unfold AgentRuntime.requireStore
    split <;> trivial

theorem harmless_queueBehind {α : Type} (active : Suspension) (text : String)
    (promptId : Option String) :
    (rt.queueBehind e active text promptId : Program α).AllOps (Harmless b) := by
  refine Prog.allOps_bind (harmless_outer (by simp) (by simp)) (fun instant =>
    Prog.allOps_bind (harmless_submit rt e _) (fun _ => ?_))
  split <;> trivial

end

section
variable {out : Outside} {self : Nat → Nat} {b : String} {i t : Nat} {v : Step Value}
variable {s s' : Scene} {rt : AgentRuntime} {e : Execution} {agent : Agent}

theorem Blind.knows (h : Blind out b i t s) (hs : Still out b i s s') :
    Knows out b i t (Parked.cell b s') s' :=
  ⟨hs.inv, hs.tokens.trans h.mine, fun _ => rfl⟩

/-- An attempt begun without looking: over nothing. -/
theorem safe_blind (gathers : Gathers agent.toPydanticAI) (prompt : Option String)
    (options : Options) (h : Blind out b i t s) :
    Safe out self b i (rt.attemptRun e t agent prompt options) (fun _ s' => Inv out b s') s := by
  refine Prog.safe_post (safe_attemptRun gathers _ _ (P := fun _ => True) ?_) (fun _ _ h => h.1)
  intro s₁ hr hfit
  have hstill := still_rely h.inv hr
  have hblind : looked b i s₁.events = false := by
    rw [← h.blind]
    unfold looked
    rw [hr.own]
  have hnone := hfit.2 hblind
  refine ⟨cell b s₁, trivial, ⟨h.knows hstill, ?_⟩, rfl⟩
  intro p hp
  cases hp.symm.trans hnone

/-- Where a call is on its way, on the branch that the ledger files under `b`. -/
def course (out : Outside) (b : String) (i : Nat) : Course Scene where
  idle := Idle out b i
  named owner s := Idle out b i s ∧ (∃ e ∈ log i s.events, handed e = some owner) ∧ owner ≠ ""
  leased := Blind out b i
  looked := Knows out b i
  clear t s := ∃ v, Drives out b i t v s
  decided t active answers s := ∃ v, Knows out b i t v s ∧
    (∀ parked, AgentRuntime.liveSuspension v = some parked → parkOf parked = parkOf active) ∧
    AgentRuntime.undecided { active with answers } = []
  resuming t active answers := Drives out b i t
    (.done (.suspension { active with state := .resuming, answers }))
  acted t active _ s := ∃ answers, Drives out b i t
    (.done (.suspension { active with state := .resuming, answers })) s
  ends _ _ := Inv out b
  closes _ := Inv out b

/-- An identifier just made up is the thread's own. -/
theorem handed_uuid4 {owner : String} (he : exec out self i .uuid4 s (.ok owner) s') :
    (∃ e ∈ log i s'.events, handed e = some owner) ∧ owner ≠ "" := by
  obtain ⟨hevents, -, hreply⟩ := exec_events he
  refine ⟨⟨⟨i, .uuid4, .ok owner⟩, ?_, rfl⟩, ?_⟩
  · rw [log_mine hevents]
    simp
  · cases hreply
    exact out.uuid4_nonempty _

theorem safe_name (h : Idle out b i s) : Safe out self b i (perform .uuid4)
    ((course out b i).Outer (course out b i).named) s := by
  refine (Prog.safe_op _ _ _).mpr ?_
  intro s₁ hr r s₂ he
  have hidle := h.still (still_rely h.inv hr)
  have hcalm : Calm b .uuid4 := trivial
  obtain ⟨hg, hstill⟩ := calm_op hcalm hidle.inv (by rintro ⟨f, hf, -⟩; cases hf) he.1
  refine ⟨hg, ?_⟩
  cases r with
  | error error => exact hstill.inv
  | ok owner => exact ⟨hidle.still hstill, handed_uuid4 he.1⟩

theorem leases (hledger : rt.executionStore = true)
    (hb : View.filed ⟨e.conversationId⟩ e.branchId = b) :
    Course.Leases (guarded out self b i) (Rely out b i) (Guarantee out b i) (course out b i) rt e
      b where
  here := hb
  fails _ _ h := h.inv
  bare h := by simp [hledger] at h
  names _ := safe_name
  acquires owner s h := by
    obtain ⟨hidle, hhanded, hnonempty⟩ := h
    exact Prog.safe_either (safe_acquire hidle hhanded hnonempty)
      (fun t _ h => ⟨h.2 t rfl, fun _ => h.1⟩) (fun _ _ h => h.1)
  releases owner t r s h := Prog.safe_either
    (safe_harmless (harmless_ledger (fun _ => trivial)) h) (fun _ _ h => h.inv) (fun _ _ h => h.inv)

/-- The write a finalization begins with. -/
theorem safe_mark {active : Suspension} {answers : List (String × Answer)}
    (h : (course out b i).decided t active answers s) :
    Safe out self b i (perform (.ledger (.writeControl b Effects.activeSuspension
        (.suspension { active with state := .resuming, answers }) t)))
      ((course out b i).Inner t (fun _ => (course out b i).resuming t active answers)) s := by
  obtain ⟨v, hknows, hpark, hdecided⟩ := h
  refine Prog.safe_either (safe_write hknows ?_) ?_ (fun _ _ h => h.1)
  · intro parked hparked
    exact .inl ⟨_, rfl, (hpark parked hparked).symm⟩
  · intro u s₁ h₁
    obtain ⟨hknows₁, hresumes⟩ := h₁.2 u rfl
    refine ⟨hknows₁, ?_⟩
    intro parked hparked
    cases hparked
    exact hresumes _ (decide_eq_true ⟨rfl, rfl, rfl, hdecided, rfl⟩)

/-- The write a finalization ends with. -/
theorem safe_complete {active : Suspension} {outcome : Outcome}
    (h : (course out b i).acted t active outcome s) :
    Safe out self b i (perform (.ledger (.writeControl b Effects.activeSuspension
        (.completed active.callId active.callIds) t)))
      ((course out b i).Inner t (fun _ => (course out b i).ends t (.ok outcome))) s := by
  obtain ⟨answers, hdrives⟩ := h
  refine Prog.safe_either (safe_write hdrives.toKnows ?_) (fun _ _ h => h.1) (fun _ _ h => h.1)
  intro parked hparked
  refine .inr ⟨hdrives.finalizes parked hparked, ?_⟩
  cases hparked
  rfl

/-- An attempt over what the thread drives, or over nothing. -/
theorem safe_driven (gathers : Gathers agent.toPydanticAI) (prompt : Option String)
    (options : Options) (h : Drives out b i t v s) :
    Safe out self b i (rt.attemptRun e t agent prompt options) (fun r s' => Inv out b s' ∧
      ∀ outcome, r = .ok outcome → Drives out b i t v s') s := by
  refine Prog.safe_post (safe_attemptRun gathers _ _ (P := fun v' => v' = v) ?_) ?_
  · intro s₁ hr hfit
    have h₁ := h.still (still_rely h.inv hr)
    exact ⟨_, rfl, h₁, h₁.toKnows.current hfit⟩
  · intro r s₁ h₁
    refine ⟨h₁.1, ?_⟩
    intro outcome houtcome
    obtain ⟨v', rfl, hdrives⟩ := h₁.2 outcome houtcome
    exact hdrives

/-- Every step of a call keeps its branch accounted for. -/
theorem steps (hb : View.filed ⟨e.conversationId⟩ e.branchId = b)
    (gathers : Gathers agent.toPydanticAI) :
    Course.Steps (guarded out self b i) (Rely out b i) (Guarantee out b i) (course out b i) rt e b
      t agent where
  here := hb
  leased_fails _ _ h := h.inv
  looked_fails _ _ _ h := h.inv
  clear_fails _ _ h := h.elim (fun _ h => h.inv)
  decided_fails _ _ _ _ h := h.elim (fun _ h => h.1.inv)
  attempts prompt options _ h := safe_blind gathers prompt options h
  looks s h := by
    refine Prog.safe_either (safe_look h.inv) ?_ (fun _ _ h => h.1.inv)
    intro v s₁ h₁
    exact h₁.2 v rfl ▸ h.knows h₁.1
  reads v s h hnone := by
    have hdrives : Drives out b i t v s := ⟨h, by simp [hnone]⟩
    exact Prog.safe_either (safe_harmless (harmless_ledger (fun _ => trivial)) h.inv)
      (fun _ _ hstill => ⟨v, hdrives.still hstill⟩) (fun _ _ hstill => hstill.inv)
  again options s h := by
    obtain ⟨v, hdrives⟩ := h
    exact Prog.safe_post (safe_driven gathers none options hdrives) (fun _ _ h => h.1)
  marks _ _ _ := safe_mark
  acts active answers options s h := Prog.safe_either (safe_driven gathers none options h)
    (fun outcome _ h => ⟨answers, h.2 outcome rfl⟩) (fun _ _ h => h.1)
  completes _ _ _ := safe_complete

theorem keeps (hledger : rt.executionStore = true)
    (hb : View.filed ⟨e.conversationId⟩ e.branchId = b) (gathers : Gathers agent.toPydanticAI) :
    Course.Keeps (guarded out self b i) (Rely out b i) (Guarantee out b i) (course out b i) rt e b
      agent where
  toLeases := leases hledger hb
  peeks _ _ h := Prog.safe_either (safe_harmless (harmless_active rt e) h.inv)
    (fun _ _ hstill => h.still hstill) (fun _ _ hstill => hstill.inv)
  queues _ _ _ _ h := Prog.safe_post (safe_harmless (harmless_queueBehind rt e _ _ _) h.inv)
    (fun _ _ hstill => hstill.inv)
  steps _ := steps hb gathers

end

end Semora.Proofs.Parked
