import Semora.Scene

/-! A durable step is carried out at most once, whoever interleaves with it. -/

namespace Semora.Proofs.AtMostOnce
open Semora.Lib Semora.Store

/-- One durable step of some attempt, as the hooks are asked to carry it out. -/
inductive Job
  | tool (eff : Effects) (call : ToolCall) (args : Json)
  | model (eff : Effects) (request : RequestContext)

namespace Job

def eff : Job → Effects
  | tool eff .. => eff
  | model eff _ => eff

def program (digest : Json → String) : Job → Program Unit
  | tool eff call args => do
    let _ ← eff.wrapToolExecute call args (fun args => perform (.handle call args))
    return ()
  | model eff request => do
    let _ ← eff.wrapModelRequest digest request (fun request => perform (.provide request))
    return ()

/-- The branch as the ledger files it, and the step's key. -/
def key (digest : Json → String) (job : Job) : String × String :=
  ((job.eff.store.getD ⟨none⟩).filed job.eff.branchId, match job with
    | tool _ call _ => Effects.stepKey call.toolCallId
    | model _ request => Effects.modelStepKey digest request)

/-- The step is carried out against a ledger, and a running step is not retried. -/
def Guarded (job : Job) : Prop := job.eff.store.isSome ∧ job.eff.retryRunning = false

end Job

/-- Everything else that happens to the stores meanwhile: any operation but a `forget`, by anyone,
with any token, at any time. -/
inductive Elsewhere (out : Outside) : Scene → Scene → Prop
  | perform (s : Scene) (o : Op) (a : Attempt) (attempts : Nat → Attempt)
      (forget : ∀ b k t, o ≠ .ledger (.forget b k t)) :
      Elsewhere out s ⟨(step out o s.world a).2.1, attempts, s.events⟩

/-- A thread's own significant events. -/
def own (i : Nat) (events : List Event) : List Event :=
  events.filter (fun e => e.thread = i ∧ e.significant)

/-- The thread has put its intent into the ledger and not taken it out again. -/
def Holds (i : Nat) (events : List Event) : Prop :=
  (∃ e ∈ own i events, e.inserted) ∧ ∀ e ∈ own i events, ¬ e.forgot

def present (w : World) (key : String × String) : Prop := (w.store.entries.get? key).isSome

variable (keys : Nat → String × String)

/-- What the events of the threads can only be like. -/
structure Orderly (events : List Event) : Prop where
  /-- An invocation is the thread's first, under an intent of its own. -/
  intended : ∀ (j : Nat) (e : Event), events[j]? = some e → e.invoked →
    Holds e.thread (events.take j) ∧ ∀ f ∈ own e.thread (events.take j), ¬ f.invoked
  /-- An intent is only taken back after an invocation that came to nothing. -/
  reported : ∀ (m : Nat) (e : Event), events[m]? = some e → e.forgot →
    ∃ f ∈ own e.thread (events.take m), f.invoked ∧ f.cleared
  /-- Never do two threads hold one step. -/
  exclusive : ∀ j ≤ events.length, ∀ p q, p ≠ q → Holds p (events.take j) →
    Holds q (events.take j) → keys p ≠ keys q

/-- What holds between any two operations: the events are orderly, and a held step is present. -/
structure Inv (s : Scene) : Prop where
  orderly : Orderly keys s.events
  held : ∀ i, Holds i s.events → present s.world (keys i)

section
variable {keys} {s s' : Scene} {e : Event} {events : List Event} {i : Nat}

theorem own_append (j : Nat) : own j (events ++ [e]) =
    own j events ++ if e.thread = j ∧ e.significant then [e] else [] := by
  simp only [own, List.filter_append, List.filter_cons, List.filter_nil, Bool.decide_and,
    Bool.decide_eq_true, Bool.and_eq_true, decide_eq_true_eq]

theorem own_plain (j : Nat) (h : e.significant = false) :
    own j (events ++ [e]) = own j events := by
  simp [own_append, h]

theorem own_other (j : Nat) (h : e.thread ≠ j) : own j (events ++ [e]) = own j events := by
  simp [own_append, h]

theorem own_mine (h : e.significant = true) :
    own e.thread (events ++ [e]) = own e.thread events ++ [e] := by
  simp [own_append, h]

theorem holds_congr {j : Nat} {events' : List Event} (h : own j events' = own j events) :
    Holds j events' ↔ Holds j events := by
  unfold Holds
  rw [h]

theorem take_before {j : Nat} (h : j ≤ events.length) :
    (events ++ [e]).take j = events.take j := by
  rw [List.take_append_of_le_length h]

/-- The events so far stay orderly when one more is; the last clause is about that one. -/
theorem orderly_append (h : Orderly keys events)
    (hinv : e.invoked → Holds e.thread events ∧ ∀ f ∈ own e.thread events, ¬ f.invoked)
    (hfor : e.forgot → ∃ f ∈ own e.thread events, f.invoked ∧ f.cleared)
    (hex : ∀ p q, p ≠ q → Holds p (events ++ [e]) → Holds q (events ++ [e]) → keys p ≠ keys q) :
    Orderly keys (events ++ [e]) := by
  refine ⟨?_, ?_, ?_⟩
  · intro j f hf hi
    by_cases hj : j < events.length
    · rw [List.getElem?_append_left hj] at hf
      rw [take_before (Nat.le_of_lt hj)]
      exact h.intended j f hf hi
    · have hlen := (List.getElem?_eq_some_iff.mp hf).1
      simp only [List.length_append, List.length_singleton] at hlen
      have hje : j = events.length := by omega
      subst hje
      simp only [List.getElem?_concat_length, Option.some.injEq] at hf
      subst hf
      rw [take_before (Nat.le_refl _), List.take_length]
      exact hinv hi
  · intro m f hf hfo
    by_cases hm : m < events.length
    · rw [List.getElem?_append_left hm] at hf
      rw [take_before (Nat.le_of_lt hm)]
      exact h.reported m f hf hfo
    · have hlen := (List.getElem?_eq_some_iff.mp hf).1
      simp only [List.length_append, List.length_singleton] at hlen
      have hme : m = events.length := by omega
      subst hme
      simp only [List.getElem?_concat_length, Option.some.injEq] at hf
      subst hf
      rw [take_before (Nat.le_refl _), List.take_length]
      exact hfor hfo
  · intro j hj p q hpq
    by_cases hje : j ≤ events.length
    · rw [take_before hje]
      exact h.exclusive j hje p q hpq
    · have hlast : (events ++ [e]).take j = events ++ [e] := by
        rw [List.take_of_length_le]
        simp only [List.length_append, List.length_singleton] at hj ⊢
        omega
      rw [hlast]
      exact hex p q hpq

theorem exclusive_now (h : Orderly keys events) {p q : Nat} (hpq : p ≠ q) (hp : Holds p events)
    (hq : Holds q events) : keys p ≠ keys q := by
  have hnow := h.exclusive events.length (Nat.le_refl _) p q hpq
  rw [List.take_length] at hnow
  exact hnow hp hq

/-- An event that is no start, no invocation and no `forget`. -/
theorem inv_plain (h : Inv keys s) (he : e.significant = false)
    (hevents : s'.events = s.events ++ [e])
    (hworld : ∀ key, present s.world key → present s'.world key) : Inv keys s' := by
  have hsame : ∀ j, Holds j (s.events ++ [e]) ↔ Holds j s.events :=
    fun j => holds_congr (own_plain j he)
  simp only [Event.significant, Bool.or_eq_false_iff] at he
  refine ⟨?_, ?_⟩
  · rw [hevents]
    refine orderly_append h.orderly (by simp [he]) (by simp [he]) ?_
    intro p q hpq hp hq
    exact exclusive_now h.orderly hpq ((hsame p).mp hp) ((hsame q).mp hq)
  · intro j hj
    rw [hevents, hsame] at hj
    exact hworld _ (h.held j hj)

/-- An intent goes in where there was none. -/
theorem inv_inserted (h : Inv keys s) (hi : e.invoked = false)
    (hf : e.forgot = false) (hevents : s'.events = s.events ++ [e])
    (habsent : ¬ present s.world (keys e.thread)) (hpresent : present s'.world (keys e.thread))
    (hworld : ∀ key, present s.world key → present s'.world key) : Inv keys s' := by
  have hother : ∀ j, j ≠ e.thread → (Holds j (s.events ++ [e]) ↔ Holds j s.events) :=
    fun j hj => holds_congr (own_other j (Ne.symm hj))
  have hfree : ∀ j, Holds j s.events → keys j ≠ keys e.thread := by
    intro j hj heq
    exact habsent (heq ▸ h.held j hj)
  refine ⟨?_, ?_⟩
  · rw [hevents]
    refine orderly_append h.orderly (by simp [hi]) (by simp [hf]) ?_
    intro p q hpq hp hq
    by_cases hpe : p = e.thread
    · have hqe : q ≠ e.thread := fun hqe => hpq (hpe.trans hqe.symm)
      rw [hpe]
      exact (hfree q ((hother q hqe).mp hq)).symm
    · by_cases hqe : q = e.thread
      · rw [hqe]
        exact hfree p ((hother p hpe).mp hp)
      · exact exclusive_now h.orderly hpq ((hother p hpe).mp hp) ((hother q hqe).mp hq)
  · intro j hj
    rw [hevents] at hj
    by_cases hje : j = e.thread
    · rw [hje]
      exact hpresent
    · exact hworld _ (h.held j ((hother j hje).mp hj))

/-- The holder of a step invokes it, for the first time. -/
theorem inv_invoked (h : Inv keys s) (hf : e.forgot = false)
    (hevents : s'.events = s.events ++ [e]) (hholds : Holds e.thread s.events)
    (hfirst : ∀ f ∈ own e.thread s.events, ¬ f.invoked)
    (hworld : ∀ key, present s.world key → present s'.world key) : Inv keys s' := by
  have hmem : ∀ j, Holds j (s.events ++ [e]) → Holds j s.events := by
    intro j hj
    by_cases hje : e.thread = j
    · exact hje ▸ hholds
    · exact (holds_congr (own_other j hje)).mp hj
  refine ⟨?_, ?_⟩
  · rw [hevents]
    refine orderly_append h.orderly (fun _ => ⟨hholds, hfirst⟩) (by simp [hf]) ?_
    intro p q hpq hp hq
    exact exclusive_now h.orderly hpq (hmem p hp) (hmem q hq)
  · intro j hj
    rw [hevents] at hj
    exact hworld _ (h.held j (hmem j hj))

/-- The holder takes its intent back after an invocation that came to nothing. -/
theorem inv_forgot (h : Inv keys s) (hi : e.invoked = false) (hf : e.forgot = true)
    (hevents : s'.events = s.events ++ [e]) (hholds : Holds e.thread s.events)
    (hcleared : ∃ f ∈ own e.thread s.events, f.invoked ∧ f.cleared)
    (hworld : ∀ key, key ≠ keys e.thread → present s.world key → present s'.world key) :
    Inv keys s' := by
  have hsig : e.significant = true := by simp [Event.significant, hf]
  have hmine : ¬ Holds e.thread (s.events ++ [e]) := by
    intro hj
    refine hj.2 e ?_ hf
    rw [own_mine hsig]
    exact List.mem_append_right _ (List.mem_singleton_self e)
  have hmem : ∀ j, Holds j (s.events ++ [e]) → j ≠ e.thread ∧ Holds j s.events := by
    intro j hj
    have hje : e.thread ≠ j := by
      rintro rfl
      exact hmine hj
    exact ⟨hje.symm, (holds_congr (own_other j hje)).mp hj⟩
  refine ⟨?_, ?_⟩
  · rw [hevents]
    refine orderly_append h.orderly (by simp [hi]) (fun _ => hcleared) ?_
    intro p q hpq hp hq
    exact exclusive_now h.orderly hpq (hmem p hp).2 (hmem q hq).2
  · intro j hj
    rw [hevents] at hj
    obtain ⟨hje, hjs⟩ := hmem j hj
    exact hworld _ (exclusive_now h.orderly hje hjs hholds) (h.held j hjs)

end

/-! What the operations do to the presence of a step. -/

section
variable {V : Type} {s : MemorySteps V} {key : String × String}

/-- Only `forget` makes a step disappear. -/
theorem present_exec [BEq V] (c : Call V) (now now' : ℚ) (hc : ∀ b k t, c ≠ .forget b k t)
    (h : (s.entries.get? key).isSome) : ((c.exec now now' s).2.entries.get? key).isSome := by
  obtain ⟨b, k⟩ := key
  have htouch := exec_touch c now now' s b k
  generalize s.entries.get? (b, k) = st at h htouch
  generalize (c.exec now now' s).2.entries.get? (b, k) = st' at htouch ⊢
  cases htouch with
  | same => exact h
  | forget _ t hcall => exact absurd hcall (hc b k t)
  | _ => rfl

/-- A `forget` takes out the step it names at most. -/
theorem present_forget [BEq V] (b k : String) (t : Nat) (hk : key ≠ (b, k))
    (h : (s.entries.get? key).isSome) : ((s.forget b k t).2.entries.get? key).isSome := by
  obtain ⟨b', k'⟩ := key
  have htouch := exec_touch (.forget b k t) 0 0 s b' k'
  simp only [Call.exec] at htouch
  generalize s.entries.get? (b', k') = st at h htouch
  generalize (s.forget b k t).2.entries.get? (b', k') = st' at htouch ⊢
  cases htouch with
  | same => exact h
  | forget _ t' hcall =>
    cases hcall
    exact absurd rfl hk
  | _ => rfl

/-- A `start` that reports insertion found nothing and left an intent. -/
theorem start_inserted {b k : String} {t : Nat} (h : (s.start b k t).1 = .ok true) :
    s.entries.get? (b, k) = none ∧ (s.start b k t).2 = s.put b k .running := by
  unfold MemorySteps.start MemorySteps.fenced at h ⊢
  cases hf : s.fence b t with
  | error e => simp [hf] at h
  | ok u =>
    cases hn : s.entries.get? (b, k) with
    | some st => simp [hf, hn] at h
    | none => exact ⟨rfl, rfl⟩

/-- A refused `forget` changes nothing. -/
theorem forget_refused {b k : String} {t : Nat} (h : (s.forget b k t).1 ≠ .ok ()) :
    (s.forget b k t).2 = s := by
  unfold MemorySteps.forget MemorySteps.fenced at h ⊢
  cases hf : s.fence b t with
  | error e => rfl
  | ok u =>
    simp only [hf] at h
    split at h <;> exact absurd rfl h

end

theorem present_step (out : Outside) (o : Op) (w : World) (a : Attempt) (key : String × String)
    (ho : ∀ b k t, o ≠ .ledger (.forget b k t)) (h : present w key) :
    present (step out o w a).2.1 key := by
  cases o with
  | ledger c => exact present_exec c _ _ (fun b k t hc => ho b k t (by rw [hc])) h
  | _ => exact h

/-! Each job keeps the threads orderly. -/

section
variable (out : Outside) (self : Nat → Nat) (keys : Nat → String × String) (i : Nat)

def Rely (s s' : Scene) : Prop := Inv keys s' ∧ own i s'.events = own i s.events

def Guarantee (s s' : Scene) : Prop :=
  Inv keys s' ∧ ∀ j, j ≠ i → own j s'.events = own j s.events

/-- An operation no event of which is significant. -/
def Quiet : Op → Prop
  | .ledger (.start ..) | .ledger (.forget ..) | .handle .. | .provide _ => False
  | _ => True

abbrev Safe {α : Type} (p : Program α) (Q : Except Exn α → Scene → Prop) (s : Scene) : Prop :=
  Prog.safe (exec out self i) (Rely keys i) (Guarantee keys i) p Q s

variable {out self keys i} {s s' : Scene}

/-- The event of one operation is no other thread's. -/
theorem others_own {o : Op} {r : Except Exn o.Res} (h : s'.events = s.events ++ [⟨i, o, r⟩]) :
    ∀ j, j ≠ i → own j s'.events = own j s.events := by
  intro j hj
  rw [h]
  exact own_other j (Ne.symm hj)

theorem quiet_op {o : Op} {r : Except Exn o.Res} (ho : Quiet o) (hi : Inv keys s)
    (h : exec out self i o s r s') :
    Guarantee keys i s s' ∧ Inv keys s' ∧ own i s'.events = own i s.events := by
  obtain ⟨hevents, hworld, -⟩ := exec_events h
  have hsig : (⟨i, o, r⟩ : Event).significant = false := by
    cases o with
    | ledger c => cases c <;> first | rfl | exact ho.elim
    | handle | provide => exact ho.elim
    | _ => rfl
  have hpres : ∀ key, present s.world key → present s'.world key := by
    intro key hk
    rw [hworld]
    refine present_step out o s.world _ key ?_ hk
    rintro b k t rfl
    exact ho
  have hinv := inv_plain hi hsig hevents hpres
  exact ⟨⟨hinv, others_own hevents⟩, hinv, by rw [hevents]; exact own_plain i hsig⟩

/-- Whatever a quiet program does, the thread's own record stays as it is. -/
theorem safe_quiet {α : Type} {p : Program α} (hp : p.AllOps Quiet) (hi : Inv keys s) :
    Safe out self keys i p (fun _ s' => Inv keys s' ∧ own i s'.events = own i s.events) s := by
  refine Prog.safe_of_allOps ?_ ?_ hp ⟨hi, rfl⟩
  · rintro a b ⟨hb, hown⟩ ⟨-, ha⟩
    exact ⟨hb, hown.trans ha⟩
  · rintro o ho a r b ⟨ha, hown⟩ h
    obtain ⟨hg, hb, hob⟩ := quiet_op ho ha h
    exact ⟨hg, hb, hob.trans hown⟩

/-- The thread has recorded its intent and not invoked anything yet. -/
def Intended (i : Nat) (events : List Event) : Prop :=
  Holds i events ∧ ∀ f ∈ own i events, ¬ f.invoked

/-- The thread holds its step and its invocation came back with an outcome. -/
def Invoked (i : Nat) (cleared : Prop) (events : List Event) : Prop :=
  Holds i events ∧ (cleared → ∃ f ∈ own i events, f.invoked ∧ f.cleared)

/-- `start` either leaves the thread with its intent, or with nothing done. -/
theorem safe_start {v : View} {b k : String} {t : Nat} (hkey : keys i = (v.filed b, k))
    (hown : own i s.events = []) :
    Safe out self keys i (v.start b k t)
      (fun r s' => Inv keys s' ∧ (r = .ok true → Intended i s'.events)) s := by
  refine (Prog.safe_op _ _ _).mpr ?_
  intro s₁ ⟨hi₁, hown₁⟩ r s₂ he
  rw [hown] at hown₁
  obtain ⟨hevents, hworld, hr⟩ := exec_events he
  by_cases htrue : r = .ok true
  · subst htrue
    have hdone : (s₁.world.store.start (v.filed b) k t).1 = .ok true := by
      cases hd : (s₁.world.store.start (v.filed b) k t).1 with
      | error e => simp [step, Call.exec, hd, Except.mapError] at hr
      | ok inserted => simpa [step, Call.exec, hd, Except.mapError] using hr.symm
    obtain ⟨habsent, hput⟩ := start_inserted hdone
    have hstore : s₂.world.store = s₁.world.store.put (v.filed b) k .running := by
      rw [hworld]
      exact hput
    have hmine : own i s₂.events = [⟨i, .ledger (.start (v.filed b) k t), .ok true⟩] := by
      rw [hevents]
      exact (own_mine (e := ⟨i, .ledger (.start (v.filed b) k t), .ok true⟩) rfl).trans
        (by rw [hown₁, List.nil_append])
    have hinv : Inv keys s₂ := by
      refine inv_inserted hi₁ (e := ⟨i, .ledger (.start (v.filed b) k t), .ok true⟩) rfl rfl
        hevents ?_ ?_ ?_
      · simp [present, hkey, habsent]
      · simp [present, hkey, hstore, MemorySteps.put]
      · intro key hk
        rw [hworld]
        exact present_step out _ _ _ key (by simp) hk
    refine ⟨⟨hinv, others_own hevents⟩, hinv, fun _ => ⟨⟨?_, ?_⟩, ?_⟩⟩
    · exact ⟨_, by rw [hmine]; exact List.mem_singleton_self _, rfl⟩
    · rw [hmine]
      simp [Event.forgot]
    · rw [hmine]
      simp [Event.invoked]
  · have hsig : (⟨i, .ledger (.start (v.filed b) k t), r⟩ : Event).significant = false := by
      simp only [Event.significant, Event.inserted, Event.invoked, Event.forgot]
      split
      · rename_i heq
        simp only [Event.mk.injEq, Op.ledger.injEq, heq_eq_eq] at heq
        exact absurd (by simp_all) htrue
      · rfl
    have hinv : Inv keys s₂ := by
      refine inv_plain hi₁ hsig hevents ?_
      intro key hk
      rw [hworld]
      exact present_step out _ _ _ key (by simp) hk
    exact ⟨⟨hinv, others_own hevents⟩, hinv, fun h => absurd h htrue⟩

/-- An invocation, made while the thread holds its step. -/
theorem safe_invoke {o : Op} (ho : (∃ call args, o = .handle call args) ∨ ∃ r, o = .provide r)
    (hint : Intended i s.events) :
    Safe out self keys i (perform o) (fun r s' => Inv keys s' ∧
      Invoked i ((⟨i, o, r⟩ : Event).cleared = true) s'.events) s := by
  refine (Prog.safe_op _ _ _).mpr ?_
  intro s₁ ⟨hi₁, hown₁⟩ r s₂ he
  obtain ⟨hevents, hworld, -⟩ := exec_events he
  have hholds : Holds i s₁.events := (holds_congr hown₁).mpr hint.1
  have hkind : (⟨i, o, r⟩ : Event).inserted = false ∧ (⟨i, o, r⟩ : Event).invoked = true ∧
      (⟨i, o, r⟩ : Event).forgot = false := by
    rcases ho with ⟨call, args, rfl⟩ | ⟨request, rfl⟩ <;> exact ⟨rfl, rfl, rfl⟩
  have hinv : Inv keys s₂ := by
    refine inv_invoked hi₁ hkind.2.2 hevents hholds ?_ ?_
    · rw [hown₁]
      exact hint.2
    · intro key hk
      rw [hworld]
      refine present_step out _ _ _ key ?_ hk
      rcases ho with ⟨call, args, rfl⟩ | ⟨request, rfl⟩ <;> simp
  have hmine : own i s₂.events = own i s₁.events ++ [⟨i, o, r⟩] := by
    rw [hevents]
    exact own_mine (e := ⟨i, o, r⟩) (by simp [Event.significant, hkind])
  refine ⟨⟨hinv, others_own hevents⟩, hinv, ⟨?_, ?_⟩, ?_⟩
  · obtain ⟨e, hmem, hins⟩ := hholds.1
    exact ⟨e, by rw [hmine]; exact List.mem_append_left _ hmem, hins⟩
  · intro e hmem
    rw [hmine] at hmem
    rcases List.mem_append.mp hmem with hmem | hmem
    · exact hholds.2 e hmem
    · rw [List.mem_singleton.mp hmem, hkind.2.2]
      simp
  · intro hcleared
    exact ⟨_, by rw [hmine]; exact List.mem_append_right _ (List.mem_singleton_self _),
      hkind.2.1, hcleared⟩

/-- A `forget` after an invocation that came to nothing. -/
theorem safe_forget {v : View} {b k : String} {t : Nat} (hkey : keys i = (v.filed b, k))
    (hinvoked : Invoked i True s.events) :
    Safe out self keys i (v.forget b k t) (fun _ s' => Inv keys s') s := by
  refine (Prog.safe_op _ _ _).mpr ?_
  intro s₁ ⟨hi₁, hown₁⟩ r s₂ he
  obtain ⟨hevents, hworld, hr⟩ := exec_events he
  have hholds : Holds i s₁.events := (holds_congr hown₁).mpr hinvoked.1
  have hkept : ∀ key, key ≠ keys i → present s₁.world key → present s₂.world key := by
    intro key hk hp
    rw [hworld]
    exact present_forget (v.filed b) k t (by rw [← hkey]; exact hk) hp
  have hinv : Inv keys s₂ := by
    cases r with
    | ok u =>
      refine inv_forgot hi₁ (e := ⟨i, .ledger (.forget (v.filed b) k t), .ok u⟩) rfl rfl hevents
        hholds ?_ hkept
      rw [hown₁]
      exact hinvoked.2 trivial
    | error e =>
      refine inv_plain hi₁ (e := ⟨i, .ledger (.forget (v.filed b) k t), .error e⟩) rfl hevents ?_
      intro key hk
      have hrefused : (s₁.world.store.forget (v.filed b) k t).1 ≠ .ok () := by
        intro hok
        simp [step, Call.exec, hok, Except.mapError] at hr
      have hsame : s₂.world.store = s₁.world.store := by
        rw [hworld]
        exact forget_refused hrefused
      rw [present, hsame]
      exact hk
  exact ⟨⟨hinv, others_own hevents⟩, hinv⟩

variable {eff : Effects} {v : View} {digest : Json → String}

theorem quiet_ctx (messages : List ModelMessage) : (eff.ctx messages).AllOps Quiet :=
  Prog.allOps_bind ((Prog.allOps_op _).mpr trivial) (fun _ => trivial)

theorem quiet_project (plane : String) (call : ToolCall) (record : Record) :
    (eff.project plane call record).AllOps Quiet := by
  refine Prog.allOps_bind (quiet_ctx _) (fun here => ?_)
  cases record <;>
    exact Prog.allOps_bind ((Prog.allOps_op _).mpr trivial) (fun _ => trivial)

theorem quiet_readStep (key : String) : (eff.readStep key).AllOps Quiet := by
  unfold Effects.readStep
  split
  · trivial
  · exact (Prog.allOps_op _).mpr trivial

theorem quiet_journal (key : String) (record : Record) : (eff.journal key record).AllOps Quiet := by
  unfold Effects.journal
  split
  · trivial
  · exact (Prog.allOps_op _).mpr trivial

theorem quiet_finishStep (key : Option String) (record : Record) :
    (eff.finishStep key record).AllOps Quiet := by
  unfold Effects.finishStep
  split
  · exact (Prog.allOps_op _).mpr trivial
  · trivial

/-- Journaling the projection invokes nothing and forgets nothing. -/
theorem quiet_journalOnce (call : ToolCall) (record : Record) :
    (eff.journalOnce call record).AllOps Quiet := by
  unfold Effects.journalOnce
  refine Prog.allOps_bind (quiet_readStep _) (fun journaled => ?_)
  split
  · trivial
  · trivial
  · split
    · trivial
    · refine Prog.allOps_bind (quiet_project _ _ _) (fun projected => ?_)
      exact Prog.allOps_bind (quiet_journal _ _) (fun _ => trivial)

/-- A quiet program with what follows it left out. -/
theorem safe_quiet_inv {α : Type} {p : Program α} (hp : p.AllOps Quiet) (hi : Inv keys s) :
    Safe out self keys i p (fun _ s' => Inv keys s') s :=
  Prog.safe_post (safe_quiet hp hi) (fun _ _ h => h.1)

/-- What the catch boundary does with an invocation that raised. -/
theorem safe_caught {k : String} {error : Exn} (hstore : eff.store = some v)
    (hkey : keys i = (v.filed eff.branchId, k)) (hi : Inv keys s)
    (hinvoked : Invoked i (error.nothingHappened = true) s.events) :
    Safe out self keys i (eff.caught (some k) error) (fun _ s' => Inv keys s') s := by
  unfold Effects.caught
  by_cases hnothing : error.nothingHappened
  · simp only [hnothing, ↓reduceIte, Effects.clearIntent, hstore]
    refine (Prog.safe_bind _ _ _ _).mpr ?_
    refine Prog.safe_post (safe_forget hkey ⟨hinvoked.1, fun _ => hinvoked.2 hnothing⟩) ?_
    intro r s₁ hi₁
    cases r <;> exact hi₁
  · simp only [hnothing, Bool.false_eq_true, ↓reduceIte]
    split <;> exact hi

theorem safe_execute {call : ToolCall} {args : Json} {k : String} (hstore : eff.store = some v)
    (hkey : keys i = (v.filed eff.branchId, k)) (hint : Intended i s.events) :
    Safe out self keys i (eff.execute (some k) args (fun args => perform (.handle call args)))
      (fun _ s' => Inv keys s') s := by
  have hfinish : ∀ record s₁, Inv keys s₁ → Safe out self keys i
      ((eff.finishStep (some k) record).bind (fun _ => Prog.ret record))
      (fun _ s' => Inv keys s') s₁ := by
    intro record s₁ hi₁
    exact safe_quiet_inv (Prog.allOps_bind (quiet_finishStep _ _) (fun _ => trivial)) hi₁
  unfold Effects.execute
  refine (Prog.safe_bind _ _ _ _).mpr ((Prog.safe_tryCatch _ _ _ _).mpr
    ((Prog.safe_bind _ _ _ _).mpr ?_))
  refine Prog.safe_post (safe_invoke (.inl ⟨call, args, rfl⟩) hint) ?_
  intro r s₁ ⟨hi₁, hinvoked⟩
  cases r with
  | ok value => exact hfinish (.ok value) s₁ hi₁
  | error error =>
    refine Prog.safe_post (safe_caught hstore hkey hi₁ hinvoked) ?_
    intro r s₂ hi₂
    cases r with
    | ok record => exact hfinish record s₂ hi₂
    | error e => exact hi₂

theorem safe_runOrReplay {call : ToolCall} {args : Json} (hstore : eff.store = some v)
    (hretry : eff.retryRunning = false)
    (hkey : keys i = (v.filed eff.branchId, Effects.stepKey call.toolCallId))
    (hi : Inv keys s) (hown : own i s.events = []) :
    Safe out self keys i (eff.runOrReplay call args (fun args => perform (.handle call args)))
      (fun _ s' => Inv keys s') s := by
  unfold Effects.runOrReplay
  simp only [hstore, Prog.bind_eq]
  refine (Prog.safe_bind _ _ _ _).mpr ?_
  refine Prog.safe_post (safe_quiet ((Prog.allOps_op _).mpr trivial) hi) ?_
  intro r s₁ ⟨hi₁, hown₁⟩
  rw [hown] at hown₁
  cases r with
  | error e => exact hi₁
  | ok read =>
    cases read with
    | done value => cases value <;> exact hi₁
    | running =>
      simp only [hretry, Bool.false_eq_true, ↓reduceIte]
      exact hi₁
    | absent =>
      refine (Prog.safe_bind _ _ _ _).mpr (Prog.safe_post (safe_start hkey hown₁) ?_)
      intro r s₂ ⟨hi₂, hint⟩
      cases r with
      | error e => exact hi₂
      | ok inserted =>
        cases inserted with
        | false => exact hi₂
        | true => exact safe_execute hstore hkey (hint rfl)

/-- What follows a provider call that raised. -/
theorem safe_unasked {k : String} {error : Exn} (hkey : keys i = (v.filed eff.branchId, k))
    (hi : Inv keys s) (hinvoked : Invoked i (error ≠ .cancelled) s.events) :
    Safe out self keys i (eff.unasked v k error) (fun _ s' => Inv keys s') s := by
  unfold Effects.unasked
  split
  · exact hi
  · rename_i hcancel
    refine (Prog.safe_bind _ _ _ _).mpr ?_
    refine Prog.safe_post (safe_forget hkey ⟨hinvoked.1, fun _ => hinvoked.2 hcancel⟩) ?_
    intro r s₁ hi₁
    cases r <;> exact hi₁

theorem safe_requestOnce {request : RequestContext} {k : String}
    (hkey : keys i = (v.filed eff.branchId, k)) (hown : own i s.events = []) :
    Safe out self keys i (eff.requestOnce v k request (fun request => perform (.provide request)))
      (fun _ s' => Inv keys s') s := by
  have hfinish : ∀ response s₁, Inv keys s₁ → Safe out self keys i
      ((v.finishEffect eff.branchId k (.modelResult response) eff.token).bind
        (fun _ => Prog.ret response)) (fun _ s' => Inv keys s') s₁ := by
    intro response s₁ hi₁
    exact safe_quiet_inv (Prog.allOps_bind ((Prog.allOps_op _).mpr trivial) (fun _ => trivial)) hi₁
  unfold Effects.requestOnce
  refine (Prog.safe_bind _ _ _ _).mpr (Prog.safe_post (safe_start hkey hown) ?_)
  intro r s₁ ⟨hi₁, hint⟩
  cases r with
  | error e => exact hi₁
  | ok inserted =>
    cases inserted with
    | false => exact hi₁
    | true =>
      refine (Prog.safe_bind _ _ _ _).mpr ((Prog.safe_tryCatch _ _ _ _).mpr ?_)
      refine Prog.safe_post (safe_invoke (.inr ⟨request, rfl⟩) (hint rfl)) ?_
      intro r s₂ ⟨hi₂, hinvoked⟩
      cases r with
      | ok response => exact hfinish response s₂ hi₂
      | error error =>
        refine Prog.safe_post (safe_unasked hkey hi₂
          ⟨hinvoked.1, fun h => hinvoked.2 (by simpa [Event.cleared] using h)⟩) ?_
        intro r s₃ hi₃
        cases r with
        | ok response => exact hfinish response s₃ hi₃
        | error e => exact hi₃

theorem safe_wrapModelRequest {request : RequestContext} (hstore : eff.store = some v)
    (hretry : eff.retryRunning = false)
    (hkey : keys i = (v.filed eff.branchId, Effects.modelStepKey digest request))
    (hi : Inv keys s) (hown : own i s.events = []) :
    Safe out self keys i (eff.wrapModelRequest digest request (fun request => perform (.provide request)))
      (fun _ s' => Inv keys s') s := by
  unfold Effects.wrapModelRequest
  simp only [hstore, Prog.bind_eq]
  refine (Prog.safe_bind _ _ _ _).mpr ?_
  refine Prog.safe_post (safe_quiet ((Prog.allOps_op _).mpr trivial) hi) ?_
  intro r s₁ ⟨hi₁, hown₁⟩
  rw [hown] at hown₁
  cases r with
  | error e => exact hi₁
  | ok read =>
    cases read with
    | done value => cases value <;> exact hi₁
    | running =>
      simp only [hretry, Bool.false_eq_true, ↓reduceIte]
      exact hi₁
    | absent => exact safe_requestOnce hkey hown₁

/-- One durable step keeps the threads orderly, from its first operation to its last. -/
theorem safe_job {job : Job} (hjob : job.Guarded) (hkey : keys i = job.key digest)
    (hi : Inv keys s) (hown : own i s.events = []) :
    Safe out self keys i (job.program digest) (fun _ s' => Inv keys s') s := by
  obtain ⟨hsome, hretry⟩ := hjob
  obtain ⟨v, hstore⟩ := Option.isSome_iff_exists.mp hsome
  cases job with
  | tool eff call args =>
    simp only [Job.key, Job.eff] at hkey hstore hretry
    simp only [hstore, Option.getD_some] at hkey
    simp only [Job.program, Effects.wrapToolExecute, Prog.bind_eq, Prog.bind_assoc]
    refine (Prog.safe_bind _ _ _ _).mpr
      (Prog.safe_post (safe_runOrReplay hstore hretry hkey hi hown) ?_)
    intro r s₁ hi₁
    cases r with
    | error e => exact hi₁
    | ok record =>
      refine Prog.safe_post (safe_quiet (Prog.allOps_bind (quiet_journalOnce _ _)
        (fun record => ?_)) hi₁) (fun _ _ h => h.1)
      cases record <;> trivial
  | model eff request =>
    simp only [Job.key, Job.eff] at hkey hstore hretry
    simp only [hstore, Option.getD_some] at hkey
    refine (Prog.safe_bind _ _ _ _).mpr
      (Prog.safe_post (safe_wrapModelRequest hstore hretry hkey hi hown) ?_)
    intro r s₁ hi₁
    cases r <;> exact hi₁

end

theorem compatible (out : Outside) (keys : Nat → String × String) :
    Compatible (Elsewhere out) (Inv keys) (Rely keys) (Guarantee keys)
      (fun _ (_ : Except Exn Unit) _ => True) where
  refl i a h := ⟨h, rfl⟩
  trans i a b c h h' := ⟨h'.1, h'.2.trans h.2⟩
  stable := by simp
  keeps i a b _ h := h.1
  other i j a b hij _ h := ⟨h.1, h.2 j (Ne.symm hij)⟩
  env a b h move := by
    obtain ⟨o, w, attempts, hforget⟩ := move
    have hinv : Inv keys ⟨(step out o a.world w).2.1, attempts, a.events⟩ := by
      refine ⟨h.orderly, ?_⟩
      intro i hi
      exact present_step out o _ _ _ hforget (h.held i hi)
    exact ⟨hinv, fun i => ⟨hinv, rfl⟩⟩

/-- Of two invocations of one durable step, the first came to nothing and its thread took the
intent back, past the fence, before the second. -/
def OnceEach (keys : Nat → String × String) (events : List Event) : Prop :=
  ∀ (i j : Nat) (e f : Event), i < j → events[i]? = some e → events[j]? = some f →
    e.invoked → f.invoked → keys e.thread = keys f.thread →
    e.cleared ∧ ∃ (m : Nat) (g : Event), i < m ∧ m < j ∧ events[m]? = some g ∧
      g.thread = e.thread ∧ g.forgot

theorem mem_own {i j : Nat} {e : Event} {events : List Event} (h : e ∈ own j (events.take i)) :
    ∃ m, m < i ∧ events[m]? = some e ∧ e.thread = j := by
  obtain ⟨hmem, hcond⟩ := List.mem_filter.mp h
  obtain ⟨m, hm⟩ := List.getElem?_of_mem hmem
  have hlt : m < i := by
    have := (List.getElem?_eq_some_iff.mp hm).1
    simp only [List.length_take] at this
    omega
  rw [List.getElem?_take_of_lt hlt] at hm
  exact ⟨m, hlt, hm, by simpa using (of_decide_eq_true hcond).1⟩

theorem own_mem {i m : Nat} {e : Event} {events : List Event} (hm : m < i)
    (he : events[m]? = some e) (hs : e.significant = true) : e ∈ own e.thread (events.take i) := by
  refine List.mem_filter.mpr ⟨?_, by simp [hs]⟩
  exact List.mem_of_getElem? (by rw [List.getElem?_take_of_lt hm]; exact he)

/-- Orderly threads carry a step out at most once. -/
theorem orderly_once {keys : Nat → String × String} {events : List Event}
    (h : Orderly keys events) : OnceEach keys events := by
  intro i j e f hij he hf hie hif hkeys
  have hsig : e.significant = true := by simp [Event.significant, hie]
  obtain ⟨hholdsf, hfirstf⟩ := h.intended j f hf hif
  obtain ⟨hholdse, hfirste⟩ := h.intended i e he hie
  have hne : e.thread ≠ f.thread := by
    intro heq
    refine hfirstf e ?_ hie
    rw [← heq]
    exact own_mem hij he hsig
  -- both threads cannot hold the step when the second invokes it
  have hlost : ¬ Holds e.thread (events.take j) := by
    intro hholds
    have hj : j ≤ events.length := Nat.le_of_lt (List.getElem?_eq_some_iff.mp hf).1
    exact h.exclusive j hj e.thread f.thread hne hholds hholdsf hkeys
  have hgone : ∃ g ∈ own e.thread (events.take j), g.forgot := by
    by_contra hnone
    simp only [not_exists, not_and] at hnone
    refine hlost ⟨?_, hnone⟩
    obtain ⟨g, hg, hins⟩ := hholdse.1
    obtain ⟨m, hm, hgm, hgt⟩ := mem_own hg
    refine ⟨g, ?_, hins⟩
    rw [← hgt]
    exact own_mem (by omega) hgm (by simp [Event.significant, hins])
  obtain ⟨g, hg, hforgot⟩ := hgone
  obtain ⟨m, hm, hgm, hgt⟩ := mem_own hg
  obtain ⟨c, hc, hci, hcc⟩ := h.reported m g hgm hforgot
  obtain ⟨n, hn, hcn, hct⟩ := mem_own hc
  -- the cleared invocation is this one: a thread invokes once
  have hni : n = i := by
    rcases Nat.lt_trichotomy n i with hlt | heq | hlater
    · exact absurd hci (hfirste c (by
        rw [← hgt, ← hct]
        exact own_mem hlt hcn (by simp [Event.significant, hci])))
    · exact heq
    · exact absurd hie ((h.intended n c hcn hci).2 e (by
        rw [hct, hgt]
        exact own_mem hlater he hsig))
  subst hni
  rw [he] at hcn
  cases hcn
  exact ⟨hcc, m, g, hn, hm, hgm, hgt, hforgot⟩

/-- Any number of durable steps, of any attempts, interleaved with each other and with everything
else that happens to the stores, from any ledger on: each step is carried out at most once. -/
theorem at_most_once (out : Outside) (self : Nat → Nat) (digest : Json → String) (jobs : Nat → Job)
    (guarded : ∀ i, (jobs i).Guarded) {world : World} {attempts : Nat → Attempt}
    {pool : Nat → Program Unit} {s : Scene}
    (run : Interleaved (exec out self) (Elsewhere out) (fun i => (jobs i).program digest)
      ⟨world, attempts, []⟩ pool s) :
    OnceEach (fun i => (jobs i).key digest) s.events := by
  have hstart : Inv (fun i => (jobs i).key digest) (⟨world, attempts, []⟩ : Scene) := by
    refine ⟨⟨by simp, by simp, ?_⟩, ?_⟩
    · intro j hj p q hpq hp
      simp [Holds, own] at hp
    · intro i hi
      simp [Holds, own] at hi
  have hsafe := interleaved_safe (compatible out _) hstart
    (fun i => Prog.safe_post (safe_job (guarded i) rfl hstart rfl) (fun _ _ _ => trivial)) run
  exact orderly_once hsafe.1.orderly

/-- Two workers with one call: the first invocation asks for a retry, the second succeeds. -/
def retriedOnce : Outside :=
  .answering (fun n _ _ => if n < 4 then .error (.modelRetry "again") else .ok (.str "sent"))
    (fun _ _ => .error (.other "no model")) (fun _ _ _ => .error (.other "no controls"))

def sameCall (_ : Nat) : Job :=
  .tool { store := some ⟨none⟩, branchId := "run", token := 1 } ⟨"send", .dict [], "c1"⟩ (.dict [])

/-- The first worker up to its `forget`, then the second to the end, around its read. -/
def twoWorkers : Scene :=
  (scheduled (Scene.perform retriedOnce id) [1, 0, 0, 0, 0, 1, 1, 1, 1]
    (fun i => (sameCall i).program (fun _ => "")) ⟨{}, fun _ => {}, []⟩).2

theorem at_most_once_two :
    OnceEach (fun i => (sameCall i).key (fun _ => "")) twoWorkers.events :=
  at_most_once retriedOnce id (fun _ => "") sameCall (fun _ => ⟨rfl, rfl⟩)
    (interleaved_scheduled (Scene.perform retriedOnce id) (Elsewhere retriedOnce) _ _ _)

end Semora.Proofs.AtMostOnce
