import Semora.Runtime.Attempt
import Semora.Scene
import Semora.Store.Branches

/-! Workers under one branch's lease, and their renewals: who holds it, and under which token. -/

namespace Semora.Proofs.LeaseHolder
open Semora.Lib Semora.Store
open Outside (unasked)

section
variable (b : String)

/-- The operation asks for no lease of the branch and gives none back. -/
def Leaseless : Op → Prop
  | .ledger c => c.owner? = none ∨ c.branchId ≠ b
  | _ => True

/-- The owner and the token an event gave the lease under. -/
def given : Event → Option (String × Nat)
  | ⟨_, .ledger (.acquire b' owner _), .ok token⟩ =>
    if b' = b ∧ token ≠ 0 then some (owner, token) else none
  | _ => none

/-- The owner an event gave the lease back as. -/
def givenBack : Event → Option String
  | ⟨_, .ledger (.release b' owner), _⟩ => if b' = b then some owner else none
  | _ => none

/-- The worker was given the lease as `owner`, under `token`. -/
def Given (i : Nat) (owner : String) (token : Nat) (events : List Event) : Prop :=
  ∃ ev ∈ events, ev.thread = i ∧ given b ev = some (owner, token)

/-- The worker is inside the body it was given the lease for. -/
def Inside (i : Nat) (owner : String) (token : Nat) (events : List Event) : Prop :=
  Given b i owner token events ∧ ∀ ev ∈ events, ev.thread = i → givenBack b ev ≠ some owner

/-- A renewal by `owner` would find its own lease, or one of another that has not expired. -/
def Timely (out : Outside) (owner : String) (s : Scene) : Prop :=
  ∃ held, s.world.store.leases.get? b = some held ∧
    (held.owner = owner ∨ out.clock s.world.instant < held.deadline)

/-- What goes on beside the bodies: renewals by workers that were given the lease, early, late or
past their bodies, as far as `ok` lets them; and whatever else leaves the branch's lease alone. -/
inductive Beside (out : Outside) (ok : Nat → String → Scene → Prop) : Scene → Scene → Prop
  | renew (s : Scene) (i : Nat) (owner : String) (token : Nat) (ttl : ℚ) (a : Attempt)
      (given : Given b i owner token s.events) (may : ok i owner s) :
      Beside out ok s
        ⟨(step out (.ledger (.acquire b owner ttl)) s.world a).2.1, s.attempts, s.events⟩
  | perform (s : Scene) (o : Op) (a : Attempt) (attempts : Nat → Attempt) (leaseless : Leaseless b o) :
      Beside out ok s ⟨(step out o s.world a).2.1, attempts, s.events⟩

/-- While a worker is inside its body, its renewals come in time. -/
def Prompt (out : Outside) (i : Nat) (owner : String) (s : Scene) : Prop :=
  (∃ token, Inside b i owner token s.events) → Timely b out owner s

/-- How the branch's lease answers for what the workers did. -/
structure Inv (out : Outside) (s : Scene) : Prop where
  handed : ∀ i owner, ⟨i, .uuid4, .ok owner⟩ ∈ s.events → ∃ n < s.world.instant, owner = out.uuid4 n
  distinct : ∀ i j owner, ⟨i, .uuid4, .ok owner⟩ ∈ s.events → ⟨j, .uuid4, .ok owner⟩ ∈ s.events → i = j
  asked : ∀ i owner ttl r, ⟨i, .ledger (.acquire b owner ttl), r⟩ ∈ s.events →
    ⟨i, .uuid4, .ok owner⟩ ∈ s.events
  carries : ∀ i owner token, Inside b i owner token s.events →
    ∀ held, s.world.store.leases.get? b = some held → held.owner = owner → held.token = token

/-- What a worker may do next: ask for the lease once, under an identifier of its own; give back
what it holds under that; and nothing else about the branch's lease. -/
def Permitted (i : Nat) (o : Op) (events : List Event) : Prop :=
  Leaseless b o ∨
    (∃ owner ttl, o = .ledger (.acquire b owner ttl) ∧ ⟨i, .uuid4, .ok owner⟩ ∈ events ∧
      ∀ owner' ttl' r, ⟨i, .ledger (.acquire b owner' ttl'), r⟩ ∉ events) ∨
    ∃ owner, o = .ledger (.release b owner) ∧ ⟨i, .uuid4, .ok owner⟩ ∈ events

end

section
variable {b : String} {out : Outside} {i j : Nat} {owner : String} {token : Nat} {s s' : Scene}

theorem given_event {ev : Event} (h : given b ev = some (owner, token)) :
    token ≠ 0 ∧ ∃ i ttl, ev = ⟨i, .ledger (.acquire b owner ttl), .ok token⟩ := by
  unfold given at h
  split at h
  · split at h
    · rename_i hb
      cases h
      obtain ⟨rfl, hne⟩ := hb
      exact ⟨hne, _, _, rfl⟩
    · cases h
  · cases h

theorem Given.mem {events : List Event} (h : Given b i owner token events) :
    token ≠ 0 ∧ ∃ ttl, ⟨i, .ledger (.acquire b owner ttl), .ok token⟩ ∈ events := by
  obtain ⟨ev, hev, ht, hgiven⟩ := h
  obtain ⟨hne, j, ttl, rfl⟩ := given_event hgiven
  cases ht
  exact ⟨hne, ttl, hev⟩

/-- Who is inside was inside before, or has just been given the lease. -/
theorem inside_append {o : Op} {r : Except Exn o.Res} (he : s'.events = s.events ++ [⟨i, o, r⟩])
    (h : Inside b j owner token s'.events) :
    Inside b j owner token s.events ∨
      j = i ∧ ∃ ttl, o = .ledger (.acquire b owner ttl) ∧ HEq r (Except.ok (ε := Exn) token) := by
  obtain ⟨⟨ev, hev, ht, hgiven⟩, hout⟩ := h
  rw [he] at hev
  rcases List.mem_append.mp hev with hev | hev
  · refine .inl ⟨⟨ev, hev, ht, hgiven⟩, fun ev' hev' => hout ev' ?_⟩
    rw [he]
    exact List.mem_append_left _ hev'
  · rw [List.mem_singleton.mp hev] at ht hgiven
    obtain ⟨-, k, ttl, heq⟩ := given_event hgiven
    cases heq
    exact .inr ⟨ht.symm, ttl, rfl, HEq.rfl⟩

/-- An operation that is about no lease of the branch leaves it alone. -/
theorem leaseless_step {o : Op} (ho : Leaseless b o) (w : World) (a : Attempt) :
    (step out o w a).2.1.store.leases.get? b = w.store.leases.get? b := by
  cases o with
  | ledger c =>
    rcases ho with hnone | hne
    · simp only [step, (exec_same c _ _ w.store hnone).2]
    · exact (exec_other c _ _ w.store hne).leases
  | _ => rfl

/-- What asking for the lease makes of it: the owner's own, still under its token; another's, left
alone; or a new one under the next token. -/
theorem acquire_lease (w : World) (a : Attempt) (ttl : ℚ) {held : Lease}
    (h : (step out (.ledger (.acquire b owner ttl)) w a).2.1.store.leases.get? b = some held) :
    (∃ old, w.store.leases.get? b = some old ∧ old.owner = owner ∧ held.owner = owner ∧
      held.token = old.token ∧
      (step out (.ledger (.acquire b owner ttl)) w a).1 = .ok held.token) ∨
    (w.store.leases.get? b = some held ∧ held.owner ≠ owner ∧
      out.clock w.instant < held.deadline ∧
      (step out (.ledger (.acquire b owner ttl)) w a).1 = .ok 0) ∨
    (held.owner = owner ∧ (step out (.ledger (.acquire b owner ttl)) w a).1 = .ok held.token ∧
      ∀ old, w.store.leases.get? b = some old → old.owner ≠ owner ∧
        old.deadline ≤ out.clock w.instant) := by
  simp only [step, Call.exec, Except.mapError] at h ⊢
  rcases MemorySteps.acquire_cases w.store b owner ttl (out.clock w.instant)
    (out.clock (w.instant + 1)) with ⟨old, hl, ho, he⟩ | ⟨old, hl, ho, hd, he⟩ | ⟨hfree, he⟩ <;>
    rw [he] at h ⊢
  · simp only [Dict.get?_insert_self, Option.some.injEq] at h
    subst h
    exact .inl ⟨old, hl, ho, rfl, rfl, rfl⟩
  · rw [hl] at h
    cases h
    exact .inr (.inl ⟨hl, ho, hd, rfl⟩)
  · simp only [Dict.get?_insert_self, Option.some.injEq] at h
    subst h
    exact .inr (.inr ⟨rfl, rfl, hfree⟩)

/-- What one operation of a worker keeps. -/
theorem inv_step {o : Op} {r : Except Exn o.Res} (h : Inv b out s) (ho : Permitted b i o s.events)
    (he : exec out id i o s r s') : Inv b out s' := by
  obtain ⟨hevents, hw, hreply⟩ := exec_events he
  simp only [id] at hw hreply
  have hinstant : s'.world.instant = s.world.instant + 1 := by rw [hw, step_instant]
  have hold : ∀ {ev : Event}, ev ∈ s.events → ev ∈ s'.events := by
    intro ev hev
    rw [hevents]
    exact List.mem_append_left _ hev
  have hcase : ∀ {ev : Event}, ev ∈ s'.events → ev ∈ s.events ∨ ev = ⟨i, o, r⟩ := by
    intro ev hev
    rw [hevents] at hev
    rcases List.mem_append.mp hev with hev | hev
    · exact .inl hev
    · exact .inr (List.mem_singleton.mp hev)
  have hnow : ∀ {j owner}, (⟨j, .uuid4, .ok owner⟩ : Event) = ⟨i, o, r⟩ →
      j = i ∧ owner = out.uuid4 s.world.instant := by
    intro j owner heq
    cases heq
    exact ⟨rfl, Except.ok.inj hreply⟩
  have hearlier : ∀ {j}, ⟨j, .uuid4, .ok (out.uuid4 s.world.instant)⟩ ∉ s.events := by
    intro j hmem
    obtain ⟨n, hn, he⟩ := h.handed _ _ hmem
    have := out.uuid4_fresh _ _ he
    omega
  refine ⟨?_, ?_, ?_, ?_⟩
  · intro j owner hmem
    rw [hinstant]
    rcases hcase hmem with hmem | heq
    · obtain ⟨n, hn, ho⟩ := h.handed j owner hmem
      exact ⟨n, by omega, ho⟩
    · exact ⟨s.world.instant, by omega, (hnow heq).2⟩
  · intro j k owner hj hk
    rcases hcase hj with hj | hj
    · rcases hcase hk with hk | hk
      · exact h.distinct j k owner hj hk
      · obtain ⟨-, rfl⟩ := hnow hk
        exact absurd hj hearlier
    · obtain ⟨rfl, rfl⟩ := hnow hj
      rcases hcase hk with hk | hk
      · exact absurd hk hearlier
      · exact (hnow hk).1.symm
  · intro j owner ttl r' hmem
    rcases hcase hmem with hmem | heq
    · exact hold (h.asked j owner ttl r' hmem)
    · cases heq
      rcases ho with (hnone | hne) | ⟨_, _, heq, hmine, -⟩ | ⟨_, heq, -⟩
      · cases hnone
      · exact absurd rfl hne
      · cases heq
        exact hold hmine
      · cases heq
  · intro j owner token hinside held hheld howner
    have mine : Inside b j owner token s.events → ⟨j, .uuid4, .ok owner⟩ ∈ s.events := by
      rintro ⟨hgiven, -⟩
      obtain ⟨-, ttl, hmem⟩ := hgiven.mem
      exact h.asked _ _ _ _ hmem
    rcases inside_append hevents hinside with hbefore | ⟨rfl, ttl, rfl, hr⟩
    · rcases ho with hcalm | ⟨owner', ttl, rfl, hmine, hnone⟩ | ⟨owner', rfl, hmine⟩
      · rw [hw, leaseless_step hcalm] at hheld
        exact h.carries j owner token hbefore held hheld howner
      · rw [hw] at hheld
        rcases acquire_lease s.world (s.attempts i) ttl hheld with
          ⟨old, hl, ho, hh, ht, -⟩ | ⟨hl, -⟩ | ⟨hh, -⟩
        · rw [ht]
          exact h.carries j owner token hbefore old hl (ho.trans (hh.symm.trans howner))
        · exact h.carries j owner token hbefore held hl howner
        · -- A new lease is this worker's own: it asks for one only once.
          obtain rfl : owner' = owner := hh.symm.trans howner
          obtain rfl := h.distinct i j owner' hmine (mine hbefore)
          obtain ⟨-, ttl', hmem⟩ := hbefore.1.mem
          exact absurd hmem (hnone _ _ _)
      · rw [hw] at hheld
        simp only [step, Call.exec] at hheld
        rcases MemorySteps.release_cases s.world.store b owner' (out.clock s.world.instant) with
          ⟨old, hl, ho, he⟩ | ⟨-, he⟩
        · rw [he] at hheld
          simp only [Dict.get?_insert_self, Option.some.injEq] at hheld
          subst hheld
          obtain ⟨n, -, hn⟩ := h.handed j owner (mine hbefore)
          exact absurd (hn.symm.trans howner.symm) (out.uuid4_nonempty n)
        · rw [he] at hheld
          exact h.carries j owner token hbefore held hheld howner
    · cases hr
      rw [hw] at hheld
      rcases acquire_lease s.world (s.attempts j) ttl hheld with
        ⟨-, -, -, -, -, ht⟩ | ⟨-, -, -, ht⟩ | ⟨-, ht, -⟩
      · exact (Except.ok.inj (hreply.trans ht)).symm
      · exact absurd (Except.ok.inj (hreply.trans ht)) hinside.1.mem.1
      · exact (Except.ok.inj (hreply.trans ht)).symm

/-- What goes on beside the bodies keeps it too, if renewals come in time. -/
theorem inv_beside (h : Inv b out s) (move : Beside b out (Prompt b out) s s') :
    Inv b out s' ∧ s'.events = s.events := by
  cases move with
  | perform o a attempts leaseless =>
    refine ⟨⟨?_, h.distinct, h.asked, ?_⟩, rfl⟩
    · intro i owner hmem
      obtain ⟨n, hn, ho⟩ := h.handed i owner hmem
      exact ⟨n, by simp only [step_instant]; omega, ho⟩
    · intro i owner token hinside held hheld howner
      rw [leaseless_step leaseless] at hheld
      exact h.carries i owner token hinside held hheld howner
  | renew i owner token ttl a given may =>
    refine ⟨⟨?_, h.distinct, h.asked, ?_⟩, rfl⟩
    · intro j owner' hmem
      obtain ⟨n, hn, ho⟩ := h.handed j owner' hmem
      exact ⟨n, by simp only [step_instant]; omega, ho⟩
    · intro j owner' token' hinside held hheld howner
      rcases acquire_lease s.world a ttl hheld with ⟨old, hl, ho, hh, ht, -⟩ | ⟨hl, -⟩ | ⟨hh, -, hfree⟩
      · rw [ht]
        exact h.carries j owner' token' hinside old hl (ho.trans (hh.symm.trans howner))
      · exact h.carries j owner' token' hinside held hl howner
      · -- A lease taken back: its worker is past its body.
        obtain rfl : owner = owner' := hh.symm.trans howner
        obtain ⟨-, ttl', hmem⟩ := given.mem
        obtain ⟨-, ttl'', hmem'⟩ := hinside.1.mem
        obtain rfl := h.distinct i j owner (h.asked _ _ _ _ hmem) (h.asked _ _ _ _ hmem')
        obtain ⟨old, hl, hkeeps⟩ := may ⟨token', hinside⟩
        obtain ⟨hne, hexpired⟩ := hfree old hl
        rcases hkeeps with ho | hlater
        · exact absurd ho hne
        · exact absurd hexpired (not_le.mpr hlater)

end

/-! The workers. -/

structure Guarantee (b : String) (out : Outside) (i : Nat) (s s' : Scene) : Prop where
  inv : Inv b out s'
  others : ∀ j, j ≠ i → log j s'.events = log j s.events

structure Rely (b : String) (out : Outside) (i : Nat) (s s' : Scene) : Prop where
  inv : Inv b out s'
  own : log i s'.events = log i s.events

section
variable {b : String} {out : Outside} {i : Nat} {s : Scene}

theorem mem_log {ev : Event} {events : List Event} (h : ev.thread = i) :
    ev ∈ log i events ↔ ev ∈ events := by
  simp [log, h]

theorem compatible (α : Type) : Compatible (ε := Exn) (α := α) (Beside b out (Prompt b out)) (Inv b out)
    (Rely b out) (Guarantee b out) (fun _ _ _ => True) where
  refl _ _ h := ⟨h, rfl⟩
  trans _ _ _ _ h h' := ⟨h'.inv, h'.own.trans h.own⟩
  stable _ _ _ _ _ _ := trivial
  keeps _ _ _ _ h := h.inv
  other _ j _ _ hne _ h := ⟨h.inv, h.others j (Ne.symm hne)⟩
  env _ _ h move := by
    obtain ⟨hinv, he⟩ := inv_beside h move
    exact ⟨hinv, fun j => ⟨hinv, by rw [he]⟩⟩

theorem guarantee_step {o : Op} {r : Except Exn o.Res} {s' : Scene} (h : Inv b out s)
    (ho : Permitted b i o s.events) (he : exec out id i o s r s') : Guarantee b out i s s' :=
  ⟨inv_step h ho he, log_other (exec_events he).1⟩

/-- What a worker has done it has done whatever the others do. -/
theorem Rely.mem {s' : Scene} (h : Rely b out i s s') {ev : Event} (ht : ev.thread = i) :
    ev ∈ s'.events ↔ ev ∈ s.events := by
  rw [← mem_log ht, h.own, mem_log ht]

/-- A body, or anything else that is about no lease of the branch. -/
theorem safe_leaseless {α : Type} {p : Program α} (h : Inv b out s) (hp : p.AllOps (Leaseless b)) :
    Prog.safe (exec out id i) (Rely b out i) (Guarantee b out i) p (fun _ s' => Inv b out s' ∧
      ∀ ev ∈ s.events, ev.thread = i → ev ∈ s'.events) s := by
  refine Prog.safe_of_allOps (I := fun s' => Inv b out s' ∧
    ∀ ev ∈ s.events, ev.thread = i → ev ∈ s'.events) ?_ ?_ hp ⟨h, fun _ hev _ => hev⟩
  · rintro s₁ s₂ hrely ⟨-, hkept⟩
    exact ⟨hrely.inv, fun ev hev ht => (hrely.mem ht).mpr (hkept ev hev ht)⟩
  · rintro o ho s₁ r s₂ ⟨hinv, hkept⟩ he
    have hg := guarantee_step hinv (.inl ho) he
    refine ⟨hg, hg.inv, fun ev hev ht => ?_⟩
    rw [(exec_events he).1]
    exact List.mem_append_left _ (hkept ev hev ht)

variable {rt : AgentRuntime} {e : Execution}

/-- A worker that has done nothing yet. -/
theorem safe_lease {α : Type} {body : Nat → Program α}
    (hb : (View.mk e.conversationId).filed e.branchId = b)
    (leaseless : ∀ token, (body token).AllOps (Leaseless b)) (h : Inv b out s)
    (hnone : log i s.events = []) :
    Prog.safe (exec out id i) (Rely b out i) (Guarantee b out i) (rt.lease e body)
      (fun _ _ => True) s := by
  subst hb
  unfold AgentRuntime.lease
  cases hstore : rt.storeFor e with
  | none => exact Prog.safe_post (safe_leaseless h (leaseless 0)) (fun _ _ _ => trivial)
  | some v =>
    obtain rfl : v = ⟨e.conversationId⟩ := by
      unfold AgentRuntime.storeFor at hstore
      split at hstore
      · exact (Option.some.inj hstore).symm
      · cases hstore
    simp only
    -- Its identifier, the lease asked for under it, the body, and the lease given back.
    refine (Prog.safe_bind _ _ _ _).mpr ((Prog.safe_op _ _ _).mpr (fun s₁ hr₁ r₁ s₂ he₁ => ?_))
    have hg₁ := guarantee_step (o := .uuid4) hr₁.inv (.inl trivial) he₁
    refine ⟨hg₁, ?_⟩
    cases r₁ with
    | error error => trivial
    | ok owner =>
      have hown₂ : log i s₂.events = [⟨i, .uuid4, .ok owner⟩] := by
        rw [log_mine (exec_events he₁).1, hr₁.own, hnone]
        rfl
      have hmine₂ : ⟨i, .uuid4, .ok owner⟩ ∈ s₂.events := by
        rw [← mem_log rfl, hown₂]
        exact List.mem_singleton_self _
      refine (Prog.safe_bind _ _ _ _).mpr ((Prog.safe_op _ _ _).mpr (fun s₃ hr₃ r₃ s₄ he₃ => ?_))
      have hmine₃ := (hr₃.mem rfl).mpr hmine₂
      have hg₃ := guarantee_step hr₃.inv (.inr (.inl ⟨owner, rt.leaseTtl, rfl, hmine₃, by
        intro owner' ttl' r' hmem
        rw [hr₃.mem rfl, ← mem_log rfl, hown₂] at hmem
        cases List.mem_singleton.mp hmem⟩)) he₃
      have hmine₄ : ⟨i, .uuid4, .ok owner⟩ ∈ s₄.events := by
        rw [(exec_events he₃).1]
        exact List.mem_append_left _ hmine₃
      refine ⟨hg₃, ?_⟩
      cases r₃ with
      | error error => trivial
      | ok token =>
        simp only
        split
        · trivial
        · refine (Prog.safe_finally _ _ _ _).mpr
            (Prog.safe_post (safe_leaseless hg₃.inv (leaseless token)) (fun r s₅ h₅ => ?_))
          refine (Prog.safe_op _ _ _).mpr (fun s₆ hr₆ r₆ s₇ he₆ => ⟨?_, ?_⟩)
          · exact guarantee_step hr₆.inv
              (.inr (.inr ⟨owner, rfl, (hr₆.mem rfl).mpr (h₅.2 _ hmine₄ rfl)⟩)) he₆
          · cases r₆ <;> trivial

end

/-- Whenever a worker is inside its body, a lease of the branch held as its owner is under the
token it carries: as long as a worker inside its body renews only a lease it still holds, or finds
another's that has not expired. -/
theorem holder_carries {α : Type} {out : Outside} {e : Execution} {w : World}
    {rt : Nat → AgentRuntime} {body : Nat → Nat → Program α} {pool : Nat → Program α} {s : Scene}
    (leaseless : ∀ i token, (body i token).AllOps
      (Leaseless ((View.mk e.conversationId).filed e.branchId)))
    (run : Interleaved (fun i => exec out id i)
      (Beside ((View.mk e.conversationId).filed e.branchId) out
        (Prompt ((View.mk e.conversationId).filed e.branchId) out))
      (fun i => (rt i).lease e (body i)) ⟨w, fun _ => {}, []⟩ pool s)
    {i : Nat} {owner : String} {token : Nat}
    (inside : Inside ((View.mk e.conversationId).filed e.branchId) i owner token s.events)
    {held : Lease}
    (lease : s.world.store.leases.get? ((View.mk e.conversationId).filed e.branchId) = some held)
    (holder : held.owner = owner) : held.token = token := by
  have hinv : Inv ((View.mk e.conversationId).filed e.branchId) out ⟨w, fun _ => {}, []⟩ := by
    refine ⟨by simp, by simp, by simp, ?_⟩
    rintro i owner token ⟨⟨ev, hev, -⟩, -⟩
    cases hev
  obtain ⟨hs, -⟩ := interleaved_safe (compatible α) hinv
    (fun i => safe_lease rfl (leaseless i) hinv rfl) run
  exact hs.carries i owner token inside held lease holder

/-- The claim that the holder is never fenced, whenever renewals come. -/
def AlwaysCarries : Prop :=
  ∀ (out : Outside) (e : Execution) (w : World) (rt : Nat → AgentRuntime)
    (body : Nat → Nat → Program Unit) (pool : Nat → Program Unit) (s : Scene),
    (∀ i token, (body i token).AllOps (Leaseless ((View.mk e.conversationId).filed e.branchId))) →
    Interleaved (fun i => exec out id i)
      (Beside ((View.mk e.conversationId).filed e.branchId) out (fun _ _ _ => True))
      (fun i => (rt i).lease e (body i)) ⟨w, fun _ => {}, []⟩ pool s →
    ∀ i owner token, Inside ((View.mk e.conversationId).filed e.branchId) i owner token s.events →
    ∀ held, s.world.store.leases.get? ((View.mk e.conversationId).filed e.branchId) = some held →
      held.owner = owner → held.token = token

/-! A worker that loses its lease, and one that has come and gone. -/

/-- The first worker has something to do inside, the others have not. -/
def stays (i _ : Nat) : Program Unit :=
  if i = 0 then update id else return ()

theorem stays_leaseless {b : String} (i token : Nat) : (stays i token).AllOps (Leaseless b) := by
  unfold stays
  split
  · exact (Prog.allOps_op _).mpr trivial
  · trivial

def pair (i : Nat) : Program Unit :=
  ({ leaseTtl := 1 } : AgentRuntime).lease { branchId := "run" } (stays i)

/-- Both have been given the lease, the second has given it back. -/
def replaced : (Nat → Program Unit) × Scene :=
  scheduled (Scene.perform unasked id) [0, 0, 1, 1, 1] pair ⟨{}, fun _ => {}, []⟩

theorem replaced_inside : Inside "run" 0 (unasked.uuid4 0) 1 replaced.2.events := by
  unfold Inside Given
  decide +kernel

/-- The first worker renews, and is given a lease it does not know the token of. -/
theorem not_always_carries : ¬ AlwaysCarries := by
  intro h
  have hrun := interleaved_scheduled (Scene.perform unasked id)
    (Beside "run" unasked (fun _ _ _ => True)) [0, 0, 1, 1, 1] pair ⟨{}, fun _ => {}, []⟩
  have hlate := h unasked { branchId := "run" } {} (fun _ => { leaseTtl := 1 }) stays _ _ stays_leaseless
    (.env hrun (.renew replaced.2 0 (unasked.uuid4 0) 1 1 {} replaced_inside.1 trivial)) 0 (unasked.uuid4 0) 1
    replaced_inside
  revert hlate
  decide +kernel

/-- The first worker's lease has expired, and the second was given it. -/
def overtaken : Scene :=
  (scheduled (Scene.perform unasked id) [0, 0, 1, 1] pair ⟨{}, fun _ => {}, []⟩).2

/-- A worker asks for the lease once more. -/
def renewing (owner : String) (s : Scene) : Scene :=
  ⟨(step unasked (.ledger (.acquire "run" owner 1)) s.world {}).2.1, s.attempts, s.events⟩

/-- The second renews its lease, then the first comes to renew the one it has lost. -/
def outlasted : Scene := renewing (unasked.uuid4 0) (renewing (unasked.uuid4 2) overtaken)

/-- The lease that stands is under the token the second worker carries. -/
theorem holder_carries_renewed :
    Inside "run" 0 (unasked.uuid4 0) 1 overtaken.events ∧
      Inside "run" 1 (unasked.uuid4 2) 2 overtaken.events ∧
      ∃ held : Lease, outlasted.world.store.leases.get? "run" = some held ∧
        held.owner = unasked.uuid4 2 ∧ held.token = 2 := by
  have hrun : Interleaved (fun i => exec unasked id i) (Beside "run" unasked (Prompt "run" unasked)) pair
      ⟨{}, fun _ => {}, []⟩ _ overtaken :=
    interleaved_scheduled (Scene.perform unasked id) (Beside "run" unasked (Prompt "run" unasked))
      [0, 0, 1, 1] pair _
  have hfirst : Inside "run" 0 (unasked.uuid4 0) 1 overtaken.events := by
    unfold Inside Given
    decide +kernel
  have hsecond : Inside "run" 1 (unasked.uuid4 2) 2 overtaken.events := by
    unfold Inside Given
    decide +kernel
  have hlease : overtaken.world.store.leases.get? "run" = some ⟨unasked.uuid4 2, 2, 5⟩ := by
    decide +kernel
  have hrenewed := hrun.env (.renew overtaken 1 (unasked.uuid4 2) 2 1 {} hsecond.1
    (fun _ => ⟨_, hlease, .inl rfl⟩))
  have hheld : (renewing (unasked.uuid4 2) overtaken).world.store.leases.get? "run" =
      some ⟨unasked.uuid4 2, 2, 6⟩ := by
    decide +kernel
  have hlate := hrenewed.env (.renew (renewing (unasked.uuid4 2) overtaken) 0 (unasked.uuid4 0) 1 1 {}
    hfirst.1 (fun _ => ⟨_, hheld, .inr (by decide +kernel)⟩))
  have hkept : outlasted.world.store.leases.get? "run" = some ⟨unasked.uuid4 2, 2, 6⟩ := by
    decide +kernel
  exact ⟨hfirst, hsecond, _, hkept, rfl,
    holder_carries (e := { branchId := "run" }) stays_leaseless hlate hsecond hkept rfl⟩

end Semora.Proofs.LeaseHolder
