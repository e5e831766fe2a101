import Semora.Proofs.Closing
import Semora.Proofs.Refused
import Semora.Proofs.ScopedState

/-! Workers whose lease was taken over, beside the one that has it now. -/

namespace Semora.Proofs.Takeover
open Semora.Lib Semora.Store Semora.Transcript
open Parked (Inv Calm Harmless Idle tokens issued bid)
open Scopes (Home Stays)
open Writing (Orderly Apart)
open Closing (Holds Tidy)

/-- The operation writes what `committed_history` and `state` are read off. -/
def Publishes (e : Execution) : Op → Prop
  | .append entry => entry.conversationId = e.conversation
  | .recordBranch b _ => b = e.branchId
  | _ => False

/-- The worker was given a token, and a newer one has been issued since. -/
def Replaced (e : Execution) (i : Nat) (s : Scene) : Prop :=
  tokens (filedName e) i s.events ≠ [] ∧
    issued (filedName e) s ∉ tokens (filedName e) i s.events

/-- The ledger has refused the worker's token. -/
def Told (i : Nat) (s : Scene) : Prop := ∃ ev ∈ log i s.events, Refused ev.op ev.reply

/-- Workers that, once replaced, come to no write of the transcript before the ledger has told
them so. -/
def lawful (out : Outside) (e : Execution) (i : Nat) : Prog.Exec Op Op.Res Exn Scene :=
  fun o s r s' => exec out id i o s r s' ∧ (Publishes e o → Replaced e i s → Told i s)

/-- What else happens: the renewal of a lease a worker has asked for, and whatever neither leases
the branch nor writes its continuation, its conversation or its run record. -/
inductive Beside (out : Outside) (e : Execution) : Scene → Scene → Prop
  | renew (s : Scene) (owner : String) (ttl : ℚ) (a : Attempt)
      (asked : ∃ ev ∈ s.events, bid (filedName e) ev = some owner) :
      Beside out e s ⟨(step out (.ledger (.acquire (filedName e) owner ttl)) s.world a).2.1,
        s.attempts, s.events⟩
  | perform (s : Scene) (o : Op) (a : Attempt) (calm : Calm (filedName e) o)
      (unpublished : ¬ Publishes e o) :
      Beside out e s ⟨(step out o s.world a).2.1, s.attempts, s.events⟩

/-- What `committed_history` and `state` are read off is as it was. -/
structure Same (e : Execution) (w w' : World) : Prop where
  read : w'.transcript.read e.conversation = w.transcript.read e.conversation
  record : w'.transcript.readBranch e.branchId = w.transcript.readBranch e.branchId
  parked : w'.store.read (filedName e) Effects.activeSuspension =
    w.store.read (filedName e) Effects.activeSuspension

structure Rely (out : Outside) (e : Execution) (i : Nat) (s s' : Scene) : Prop where
  inv : Inv out (filedName e) s'
  home : Home e s'.world
  orderly : Orderly e.conversation s'.world
  own : log i s'.events = log i s.events
  memory : s'.attempts i = s.attempts i
  instant : s.world.instant ≤ s'.world.instant
  kept : ∀ t ∈ tokens (filedName e) i s.events, issued (filedName e) s' = t →
    issued (filedName e) s = t ∧
      s'.world.transcript.read e.conversation = s.world.transcript.read e.conversation

/-- What a worker does in any case: it moves nothing it does not hold the newest token for. -/
structure Bounded (out : Outside) (e : Execution) (i : Nat) (s s' : Scene) : Prop where
  inv : Inv out (filedName e) s'
  home : Home e s'.world
  later : issued (filedName e) s ≤ issued (filedName e) s'
  instant : s.world.instant ≤ s'.world.instant
  event : ∃ ev, s'.events = s.events ++ [ev] ∧ ev.thread = i
  others : ∀ j, j ≠ i → s'.attempts j = s.attempts j
  still : issued (filedName e) s ∉ tokens (filedName e) i s.events → Same e s.world s'.world

structure Guarantee (out : Outside) (e : Execution) (i : Nat) (s s' : Scene) : Prop
    extends Bounded out e i s s' where
  orderly : Orderly e.conversation s.world → Orderly e.conversation s'.world

/-- An outcome is what the conversation holds, as long as the worker has the newest token. -/
def Closes (e : Execution) (i : Nat) (r : Except Exn Outcome) (s : Scene) : Prop :=
  ∀ outcome, r = .ok outcome → issued (filedName e) s ∈ tokens (filedName e) i s.events →
    Holds e.conversation outcome.messages s

abbrev Safe (out : Outside) (e : Execution) (i : Nat) {α : Type} (p : Program α)
    (Q : Except Exn α → Scene → Prop) (s : Scene) : Prop :=
  Prog.safe (lawful out e i) (Rely out e i) (Guarantee out e i) p Q s

theorem unpublished {e : Execution} {o : Op} (h : Unpublished o) : ¬ Publishes e o := by
  intro hp
  cases o with
  | append entry => exact h
  | recordBranch b fields => exact h
  | _ => exact hp

theorem read_step {e : Execution} {o : Op} (h : ¬ Publishes e o) (out : Outside) (w : World)
    (a : Attempt) : (step out o w a).2.1.transcript.read e.conversation =
      w.transcript.read e.conversation := by
  cases o with
  | append entry => exact MemoryTranscript.read_append_other _ (fun hc => h hc.symm)
  | _ => rfl

/-- What writes neither the conversation, the run record nor the continuation. -/
theorem same_step {e : Execution} {o : Op} (hcalm : Calm (filedName e) o)
    (h : ¬ Publishes e o) (out : Outside) (w : World) (a : Attempt) :
    Same e w (step out o w a).2.1 := by
  refine ⟨read_step h out w a, ?_, Parked.calm_cell out hcalm w a⟩
  · cases o with
    | append entry => exact RunRecord.readBranch_append _ entry _
    | recordBranch b fields => exact Dict.get?_insert_ne _ _ (fun hb => h hb.symm)
    | _ => rfl

theorem Same.home {e : Execution} {w w' : World} (h : Same e w w') (hw : Home e w) : Home e w' := by
  intro active hactive
  rw [h.parked] at hactive
  exact hw active hactive

theorem Same.orderly {e : Execution} {w w' : World} (h : Same e w w')
    (hw : Orderly e.conversation w) (hinstant : w.instant ≤ w'.instant) :
    Orderly e.conversation w' :=
  hw.later h.read hinstant

/-- An operation under token `t`: none of the continuation, or one the ledger checks `t` for. -/
def Leased (b : String) (t : Nat) (o : Op) : Prop :=
  Calm b o ∨ ∃ c, o = .ledger c ∧ c.branchId = b ∧ c.token? = some t

/-- What an attempt under token `t` may do. -/
def Presents (e : Execution) (t : Nat) (o : Op) : Prop := Stays e o ∧ Leased (filedName e) t o

/-- Where a worker under token `t` is. -/
structure Sits (out : Outside) (e : Execution) (i t : Nat) (s : Scene) : Prop where
  inv : Inv out (filedName e) s
  home : Home e s.world
  mine : tokens (filedName e) i s.events = [t]

/-- The token is the newest. -/
def Leads (e : Execution) (i t : Nat) (s : Scene) : Prop :=
  tokens (filedName e) i s.events = [t] ∧ issued (filedName e) s = t

section
variable {out : Outside} {e : Execution} {i t : Nat} {s s' : Scene} {o : Op}

theorem owner_none {c : Call Value} (h : c.token? = some t) : c.owner? = none := by
  cases c <;> first | rfl | cases h

/-- An operation under a token gives no other. -/
theorem leased_tokens {b : String} {r : Except Exn o.Res} (ho : Leased b t o)
    (he : exec out id i o s r s') :
    tokens b i s'.events = tokens b i s.events ∧ issued b s' = issued b s := by
  obtain ⟨hevents, hworld, -⟩ := exec_events he
  have hlog : log i s'.events = log i s.events ++ [⟨i, o, r⟩] := log_mine hevents
  have hbid : bid b ⟨i, o, r⟩ = none := by
    rcases ho with hcalm | ⟨c, rfl, -, htoken⟩
    · exact Parked.calm_bid hcalm
    · cases c with
      | acquire => cases htoken
      | _ => rfl
  constructor
  · simp [tokens, hlog, Parked.granted_bid hbid]
  · unfold issued
    rw [hworld]
    rcases ho with hcalm | ⟨c, rfl, -, htoken⟩
    · exact (Parked.calm_leases out hcalm _ _).1
    · have hsame := exec_same c (out.clock s.world.instant) (out.clock (s.world.instant + 1))
        s.world.store (owner_none htoken)
      unfold MemorySteps.issued
      exact congrArg (fun tokens => (tokens.get? b).getD 0) hsame.1

theorem leads_op {r : Except Exn o.Res} (ho : Presents e t o)
    (he : exec out id i o s r s') (h : Leads e i t s') : Leads e i t s := by
  obtain ⟨htokens, hissued⟩ := leased_tokens ho.2 he
  exact ⟨htokens ▸ h.1, hissued ▸ h.2⟩

theorem Sits.rely (h : Sits out e i t s) (hr : Rely out e i s s') : Sits out e i t s' := by
  refine ⟨hr.inv, hr.home, ?_⟩
  rw [← h.mine]
  unfold tokens
  rw [hr.own]

theorem untold_rely (h : ¬ Told i s) (hr : Rely out e i s s') : ¬ Told i s' := by
  unfold Told
  rw [hr.own]
  exact h

theorem leads_rely (hr : Rely out e i s s') (h : Leads e i t s') : Leads e i t s := by
  obtain ⟨hmine, hissued⟩ := h
  have htokens : tokens (filedName e) i s.events = [t] := by
    rw [← hmine]
    unfold tokens
    rw [hr.own]
  exact ⟨htokens, (hr.kept t (by simp [htokens]) hissued).1⟩

/-- A step under the token, which publishes only if the token is the newest. -/
theorem bounded_op {r : Except Exn o.Res} (ho : Presents e t o) (h : Sits out e i t s)
    (hpublishes : Publishes e o → issued (filedName e) s = t) (he : exec out id i o s r s') :
    Bounded out e i s s' ∧ Sits out e i t s' := by
  obtain ⟨hevents, hworld, -⟩ := exec_events he
  have hattempts := exec_attempts he
  obtain ⟨htokens, hissued⟩ := leased_tokens ho.2 he
  have hinv : Inv out (filedName e) s' := by
    rcases ho.2 with hcalm | ⟨c, rfl, -, htoken⟩
    · obtain ⟨hissued, hleases⟩ := Parked.calm_leases out hcalm s.world (s.attempts i)
      exact (Parked.inv_op (Parked.calm_bid hcalm) h.inv hissued hleases he).1
    · exact (Parked.inv_call (owner_none htoken) h.inv he).1
  have hhome : Home e s'.world := by
    rw [hworld]
    exact Scopes.stays_home ho.1 (fun _ => rfl) h.home out _
  refine ⟨⟨hinv, hhome, Nat.le_of_eq hissued.symm, ?_, ⟨_, hevents, rfl⟩, ?_, ?_⟩, hinv, hhome,
    htokens.trans h.mine⟩
  · rw [hworld, step_instant]
    exact Nat.le_succ _
  · intro j hj
    rw [hattempts]
    exact Function.update_of_ne hj _ _
  · intro hstale
    rw [h.mine] at hstale
    have hne : issued (filedName e) s ≠ t := by simpa using hstale
    rcases ho.2 with hcalm | ⟨c, rfl, hb, htoken⟩
    · rw [hworld]
      exact same_step hcalm (fun hp => hne (hpublishes hp)) out _ _
    · obtain ⟨hpos, hle⟩ := h.inv.issued i t (by simp [h.mine])
      obtain ⟨hstore, -⟩ := Parked.stale_op hb htoken hpos (by omega) he
      refine ⟨?_, ?_, by rw [hstore]⟩
      · rw [hworld]
        rfl
      · rw [hworld]
        rfl

/-- A step under the token that publishes nothing. -/
theorem guarantee_op {r : Except Exn o.Res} (ho : Presents e t o) (h : Sits out e i t s)
    (hpublishes : ¬ Publishes e o) (he : exec out id i o s r s') :
    Guarantee out e i s s' ∧ Sits out e i t s' := by
  obtain ⟨hbounded, hsits⟩ := bounded_op ho h (fun hp => absurd hp hpublishes) he
  obtain ⟨-, hworld, -⟩ := exec_events he
  refine ⟨⟨hbounded, ?_⟩, hsits⟩
  intro horderly
  apply horderly.later _ hbounded.instant
  rw [hworld]
  exact read_step hpublishes out _ _

/-- What a worker that has been told may still do. -/
theorem safe_told {α : Type} {p : Program α} (hp : p.AllOps (Presents e t))
    (hunpublished : p.AllOps Unpublished) (h : Sits out e i t s) :
    Prog.safe (lawful out e i) (Rely out e i)
      (fun a b => Guarantee out e i a b ∧ tokens (filedName e) i a.events = [t]) p
      (fun _ s' => Sits out e i t s') s := by
  apply Prog.safe_of_allOps _ _ (hp.and hunpublished) h
  · exact fun a b hr ha => ha.rely hr
  · intro o ho a r b ha he
    obtain ⟨hg, hb⟩ := guarantee_op ho.1 ha (unpublished ho.2) he.1
    exact ⟨⟨hg, ha.mine⟩, hb⟩

/-- A worker that heeds a refusal moves nothing but under the newest token. -/
theorem safe_heeding {α : Type} {p : Program α} (hp : p.AllOps (Presents e t))
    (hheeds : Heeding p) (h : Sits out e i t s) (huntold : ¬ Told i s) :
    Prog.safe (lawful out e i) (Rely out e i)
      (fun a b => Bounded out e i a b ∧ tokens (filedName e) i a.events = [t]) p
      (fun r s' => Sits out e i t s' ∧ ∀ a, r = .ok a → ¬ Told i s') s := by
  induction p generalizing s with
  | ret a => exact ⟨h, fun _ _ => huntold⟩
  | raise error => exact ⟨h, by simp⟩
  | call o k ih =>
    intro s₁ hr r s₂ he
    have h₁ := h.rely hr
    have huntold₁ := untold_rely huntold hr
    have hpublishes : Publishes e o → issued (filedName e) s₁ = t := by
      intro hp
      by_contra hne
      apply huntold₁
      apply he.2 hp
      constructor <;> simp [h₁.mine, hne]
    obtain ⟨hbounded, h₂⟩ := bounded_op hp.1 h₁ hpublishes he.1
    refine ⟨⟨hbounded, h₁.mine⟩, ?_⟩
    obtain ⟨hstops, hrest⟩ := hheeds r
    by_cases hrefused : Refused o r
    · have hstopped := hstops hrefused
      apply Prog.safe_mono (Prog.safe_rets hstopped.allRets
        (safe_told (hp.2 r) hstopped.allOps h₂))
      · exact fun a b hg => ⟨hg.1.toBounded, hg.2⟩
      · intro r' s' hs'
        exact ⟨hs'.1, fun a ha => (hs'.2 a ha).elim⟩
    · apply ih r (hp.2 r) hrest h₂
      rintro ⟨ev, hev, hrefuses⟩
      rw [log_mine (exec_events he.1).1] at hev
      rcases List.mem_append.mp hev with hev | hev
      · exact huntold₁ ⟨ev, hev, hrefuses⟩
      · rw [List.mem_singleton.mp hev] at hrefuses
        exact hrefused hrefuses

/-- Where a worker is that may begin an attempt under token `t`. -/
structure Ready (out : Outside) (e : Execution) (i t : Nat) (s : Scene) : Prop
    extends Sits out e i t s where
  orderly : Orderly e.conversation s.world
  untold : ¬ Told i s

/-- What a worker does under its token around its attempt. -/
theorem safe_errand {α : Type} {p : Program α} (hp : p.AllOps (Presents e t))
    (hunpublished : p.AllOps Unpublished) (hheeds : Heeding p) (h : Ready out e i t s) :
    Safe out e i p (fun r s' => Sits out e i t s' ∧ ∀ a, r = .ok a → Ready out e i t s') s := by
  have horderly : Prog.safe (lawful out e i) (Rely out e i)
      (fun a b => Orderly e.conversation a.world → Orderly e.conversation b.world) p
      (fun _ s' => Orderly e.conversation s'.world) s := by
    apply Prog.safe_of_allOps (I := fun (s : Scene) => Orderly e.conversation s.world) _ _ hunpublished
      h.orderly
    · exact fun a b hr _ => hr.orderly
    · intro o ho a r b ha he
      obtain ⟨-, hworld, -⟩ := exec_events he.1
      have hkeeps : Orderly e.conversation b.world := by
        apply ha.later
        · rw [hworld]
          exact read_step (unpublished ho) out _ _
        · rw [hworld, step_instant]
          exact Nat.le_succ _
      exact ⟨fun _ => hkeeps, hkeeps⟩
  apply Prog.safe_mono (Prog.safe_and (safe_heeding hp hheeds h.toSits h.untold) horderly)
  · exact fun a b hg => ⟨hg.1.1, hg.2⟩
  · exact fun r s' hs' => ⟨hs'.1.1, fun a ha => ⟨hs'.1.1, hs'.2, hs'.1.2 a ha⟩⟩

/-- What a worker does once its attempt has closed. -/
theorem safe_behind {α : Type} {p : Program α} {messages : List ModelMessage}
    (hp : p.AllOps (Presents e t)) (hunpublished : p.AllOps Unpublished) (h : Sits out e i t s)
    (hholds : Leads e i t s → Holds e.conversation messages s) :
    Safe out e i p (fun _ s' => Sits out e i t s' ∧
      (Leads e i t s' → Holds e.conversation messages s')) s := by
  apply Prog.safe_of_allOps _ _ (hp.and hunpublished) ⟨h, hholds⟩
  · intro a b hr ha
    refine ⟨ha.1.rely hr, ?_⟩
    intro hleads
    have hkept := hr.kept t (by simp [ha.1.mine]) hleads.2
    have hh := ha.2 (leads_rely hr hleads)
    unfold Holds Writing.committed at hh ⊢
    rw [hkept.2]
    exact hh
  · intro o ho a r b ha he
    obtain ⟨hg, hb⟩ := guarantee_op ho.1 ha.1 (unpublished ho.2) he.1
    refine ⟨hg, hb, ?_⟩
    intro hleads
    have hh := ha.2 (leads_op ho.1 he.1 hleads)
    obtain ⟨-, hworld, -⟩ := exec_events he.1
    unfold Holds Writing.committed at hh ⊢
    rw [hworld, read_step (unpublished ho.2)]
    exact hh

variable {rt : AgentRuntime}

/-- An attempt under the token: it moves the conversation only while the token is the newest, and
what it closes with is then what the conversation holds. -/
theorem safe_attempt (htranscript : rt.transcript = true) {agent : Agent}
    (gathers : Gathers agent.toPydanticAI) (propagates : Propagates agent.toPydanticAI)
    (prompt : Option String) (options : Options)
    (hpresents : (rt.attemptRun e t agent prompt options).AllOps (Presents e t))
    (h : Ready out e i t s) :
    Safe out e i (rt.attemptRun e t agent prompt options) (fun r s' => Sits out e i t s' ∧
      ∀ outcome, r = .ok outcome → Leads e i t s' → Holds e.conversation outcome.messages s') s := by
  have halone : Closing.Alone out e.conversation i
      (fun o a r b => Leads e i t a ∧ lawful out e i o a r b)
      (fun a b => Rely out e i a b ∧ Leads e i t b) := by
    constructor
    · exact fun _ _ _ _ he => he.2.1
    · intro a b hr
      have hmine := (leads_rely hr.1 hr.2).1
      have hkept := hr.1.kept t (by simp [hmine]) hr.2.2
      exact ⟨hr.1.memory, hkept.2, hr.1.instant⟩
  have hlapsing := Prog.safe_lapsing (fun a b hr => leads_rely hr)
    (fun o ho a r b he => leads_op ho he.1) hpresents
    (fun _ => Closing.safe_attemptRun halone htranscript rfl gathers prompt options h.orderly)
    (safe_heeding hpresents (heeding_attemptRun rt e t propagates prompt options) h.toSits h.untold)
  apply Prog.safe_mono hlapsing
  · intro a b hg
    obtain ⟨htidy, hbounded, hmine⟩ := hg
    refine ⟨hbounded, ?_⟩
    intro horderly
    by_cases hnewest : issued (filedName e) a = t
    · exact htidy ⟨hmine, hnewest⟩
    · exact (hbounded.still (by simp [hmine, hnewest])).orderly horderly hbounded.instant
  · intro r s' hs'
    exact ⟨hs'.2.1, fun outcome houtcome hleads => hs'.1 hleads outcome houtcome⟩

end

end Semora.Proofs.Takeover
