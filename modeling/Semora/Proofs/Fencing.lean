import Mathlib.Tactic.NormNum
import Semora.Store.Calls

/-! Fencing tokens over whole runs of the in-memory ledger. -/

namespace Semora.Proofs.Fencing
open Semora.Lib Semora.Store MemorySteps

/-- A lease as it was handed out: to whom, under which token, until when. -/
structure Grant where
  branchId : String
  owner : String
  token : Nat
  deadline : ℚ

variable {V : Type}

/-- The lease an event handed out or renewed; none when it was any other call or was refused. -/
def grant? : Event V → Option Grant
  | ⟨.acquire b o ttl, _, now', _, _, .ok t⟩ => if t = 0 then none else some ⟨b, o, t, now' + ttl⟩
  | _ => none

/-- What ends a lease before its deadline: its owner renews it, or gives it back. -/
def Ends (g : Grant) (e : Event V) : Prop :=
  (∃ g', grant? e = some g' ∧ g'.branchId = g.branchId ∧ g'.owner = g.owner) ∨
    e.call = .release g.branchId g.owner

/-- `g` is the last lease of branch `b` handed out before position `j`. -/
def PreviousGrant (events : List (Event V)) (j : Nat) (b : String) (g : Grant) : Prop :=
  ∃ (m : Nat) (e : Event V), m < j ∧ events[m]? = some e ∧ grant? e = some g ∧ g.branchId = b ∧
    ∀ (k : Nat) (f : Event V) (g' : Grant), m < k → k < j → events[k]? = some f →
      grant? f = some g' → g'.branchId ≠ b

theorem grant_none {e : Event V} (h : e.call.owner? = none) : grant? e = none := by
  obtain ⟨c, now, now', before, after, reply⟩ := e
  cases c <;> first | rfl | simp [Call.owner?] at h

theorem grant_release {b o : String} {now now' : ℚ} {before after : MemorySteps V}
    {reply : Except StoreError Unit} :
    grant? (⟨.release b o, now, now', before, after, reply⟩ : Event V) = none := rfl

theorem grant_acquire {b o : String} {ttl now now' : ℚ} {before after : MemorySteps V} {t : Nat}
    (h : t ≠ 0) :
    grant? (⟨.acquire b o ttl, now, now', before, after, .ok t⟩ : Event V) =
      some ⟨b, o, t, now' + ttl⟩ := by
  simp [grant?, h]

/-- How the leases and tokens of a ledger answer for the events that led to it. -/
structure Accounted (events : List (Event V)) (s : MemorySteps V) : Prop where
  current : ∀ b held, s.leases.get? b = some held → held.token = s.issued b ∧ held.token ≠ 0
  bounded : ∀ e ∈ events, ∀ g, grant? e = some g → g.token ≤ s.issued g.branchId
  holder : ∀ b held, s.leases.get? b = some held → held.owner ≠ "" →
    ∃ g, PreviousGrant events events.length b g ∧ g.owner = held.owner
  kept : ∀ (i : Nat) (e : Event V) (g : Grant), events[i]? = some e → grant? e = some g →
    (∀ (k : Nat) (f : Event V), i < k → events[k]? = some f → ¬ Ends g f ∧ f.now < g.deadline) →
    s.leases.get? g.branchId = some ⟨g.owner, g.token, g.deadline⟩

theorem accounted_empty : Accounted [] ({} : MemorySteps V) := by
  refine ⟨?_, ?_, ?_, ?_⟩
  · intro b held h
    simp at h
  · simp
  · intro b held h
    simp at h
  · intro i e g h
    simp at h

theorem previous_append {events : List (Event V)} {e : Event V} {b : String} {g : Grant}
    (h : PreviousGrant events events.length b g)
    (hn : ∀ g', grant? e = some g' → g'.branchId ≠ b) :
    PreviousGrant (events ++ [e]) (events ++ [e]).length b g := by
  obtain ⟨m, f, hm, hf, hg, hb, hlast⟩ := h
  refine ⟨m, f, by simp; omega, by rw [List.getElem?_append_left hm]; exact hf, hg, hb, ?_⟩
  intro k f' g' hk hlen hf' hg'
  by_cases hkl : k < events.length
  · rw [List.getElem?_append_left hkl] at hf'
    exact hlast k f' g' hk hkl hf' hg'
  · have hke : k = events.length := by simp at hlen; omega
    subst hke
    simp at hf'
    subst hf'
    exact hn g' hg'

theorem previous_last {events : List (Event V)} {e : Event V} {g : Grant}
    (hg : grant? e = some g) :
    PreviousGrant (events ++ [e]) (events ++ [e]).length g.branchId g := by
  refine ⟨events.length, e, by simp, by simp, hg, rfl, ?_⟩
  intro k f g' hk hl
  simp at hl
  omega

/-- A grant that nothing has ended yet, seen from the events before the last one. -/
theorem kept_before {events : List (Event V)} {e : Event V} {s : MemorySteps V}
    (h : Accounted events s) {i : Nat} {f : Event V} {g : Grant} (hi : i < events.length)
    (hf : (events ++ [e])[i]? = some f) (hg : grant? f = some g)
    (hk : ∀ (k : Nat) (f' : Event V), i < k → (events ++ [e])[k]? = some f' →
      ¬ Ends g f' ∧ f'.now < g.deadline) :
    s.leases.get? g.branchId = some ⟨g.owner, g.token, g.deadline⟩ ∧ ¬ Ends g e ∧
      e.now < g.deadline := by
  rw [List.getElem?_append_left hi] at hf
  refine ⟨h.kept i f g hf hg ?_, hk events.length e hi (by simp)⟩
  intro k f' hik hf'
  have hkl : k < events.length := (List.getElem?_eq_some_iff.mp hf').1
  exact hk k f' hik (by rw [List.getElem?_append_left hkl]; exact hf')

theorem mem_append_grant {events : List (Event V)} {e : Event V} {P : Grant → Prop}
    (h : ∀ f ∈ events, ∀ g, grant? f = some g → P g) (he : ∀ g, grant? e = some g → P g) :
    ∀ f ∈ events ++ [e], ∀ g, grant? f = some g → P g := by
  intro f hf
  rcases List.mem_append.mp hf with hf | hf
  · exact h f hf
  · rw [List.mem_singleton.mp hf]
    exact he

/-- An event that leaves the leases and tokens alone and hands nothing out. -/
theorem accounted_same {events : List (Event V)} {e : Event V} {s u : MemorySteps V}
    (h : Accounted events s) (hs : SameLeases s u) (hg : grant? e = none) :
    Accounted (events ++ [e]) u := by
  have hi : ∀ b, u.issued b = s.issued b := by
    intro b
    simp only [issued, hs.1]
  refine ⟨?_, ?_, ?_, ?_⟩
  · intro b held hl
    rw [hs.2] at hl
    rw [hi]
    exact h.current b held hl
  · refine mem_append_grant ?_ (by simp [hg])
    intro f hf g hfg
    rw [hi]
    exact h.bounded f hf g hfg
  · intro b held hl ho
    rw [hs.2] at hl
    obtain ⟨g, hp, he⟩ := h.holder b held hl ho
    exact ⟨g, previous_append hp (by simp [hg]), he⟩
  · intro i f g hf hfg hk
    rw [hs.2]
    by_cases hlen : i < events.length
    · exact (kept_before h hlen hf hfg hk).1
    · have hie : i = events.length := by
        have := (List.getElem?_eq_some_iff.mp hf).1
        simp at this
        omega
      subst hie
      simp at hf
      subst hf
      simp [hg] at hfg

theorem accounted_release {events : List (Event V)} {s u : MemorySteps V} {b o : String}
    {now now' : ℚ} {reply : Except StoreError Unit} (h : Accounted events s)
    (hu : u = s.release b o now) :
    Accounted (events ++ [⟨.release b o, now, now', s, u, reply⟩]) u := by
  rcases release_cases s b o now with ⟨held, hl, hown, he⟩ | ⟨hother, he⟩
  · rw [he] at hu
    have hi : ∀ b', u.issued b' = s.issued b' := by
      intro b'
      rw [hu]
      rfl
    have hlease : ∀ b', u.leases.get? b' =
        if b' = b then some ⟨"", held.token, now⟩ else s.leases.get? b' := by
      intro b'
      rw [hu]
      exact Dict.get?_insert _ _ _ _
    refine ⟨?_, ?_, ?_, ?_⟩
    · intro b' held' hl'
      rw [hlease] at hl'
      rw [hi]
      split at hl'
      · rename_i hb
        cases hl'
        subst hb
        exact h.current b' held hl
      · exact h.current b' held' hl'
    · refine mem_append_grant ?_ (by simp [grant_release])
      intro f hf g hfg
      rw [hi]
      exact h.bounded f hf g hfg
    · intro b' held' hl' hne
      rw [hlease] at hl'
      split at hl'
      · cases hl'
        exact absurd rfl hne
      · obtain ⟨g, hp, heq⟩ := h.holder b' held' hl' hne
        exact ⟨g, previous_append hp (by simp [grant_release]), heq⟩
    · intro i f g hf hfg hk
      by_cases hlen : i < events.length
      · obtain ⟨hkept, hends, _⟩ := kept_before h hlen hf hfg hk
        rw [hlease]
        split
        · -- the lease given back is this very one, which `hk` excludes
          rename_i hb
          rw [hb] at hkept
          rw [hl] at hkept
          cases hkept
          exact absurd (.inr (by rw [hb, ← hown])) hends
        · exact hkept
      · have hie : i = events.length := by
          have := (List.getElem?_eq_some_iff.mp hf).1
          simp at this
          omega
        subst hie
        simp at hf
        subst hf
        simp [grant_release] at hfg
  · rw [he] at hu
    subst hu
    exact accounted_same h (.refl _) grant_release

/-- A lease is handed out or renewed: the new record is that of the last event. -/
theorem accounted_grant {events : List (Event V)} {e : Event V} {s u : MemorySteps V} {g : Grant}
    (h : Accounted events s) (hg : grant? e = some g) (htok : g.token ≠ 0)
    (hle : s.issued g.branchId ≤ g.token)
    (hissued : ∀ b, u.issued b = if b = g.branchId then g.token else s.issued b)
    (hlease : ∀ b, u.leases.get? b =
      if b = g.branchId then some ⟨g.owner, g.token, g.deadline⟩ else s.leases.get? b)
    (hother : ∀ held, s.leases.get? g.branchId = some held → held.owner ≠ g.owner →
      held.deadline ≤ e.now) :
    Accounted (events ++ [e]) u := by
  refine ⟨?_, ?_, ?_, ?_⟩
  · intro b held hl
    rw [hlease] at hl
    rw [hissued]
    split at hl
    · rename_i hb
      cases hl
      simp [hb, htok]
    · rename_i hb
      simp only [hb, ↓reduceIte]
      exact h.current b held hl
  · refine mem_append_grant ?_ ?_
    · intro f hf g' hfg
      have := h.bounded f hf g' hfg
      rw [hissued]
      split
      · rename_i hb
        rw [hb] at this
        omega
      · exact this
    · intro g' hg'
      rw [hg] at hg'
      cases hg'
      simp [hissued]
  · intro b held hl ho
    rw [hlease] at hl
    split at hl
    · rename_i hb
      cases hl
      exact ⟨g, hb ▸ previous_last hg, rfl⟩
    · rename_i hb
      obtain ⟨g', hp, heq⟩ := h.holder b held hl ho
      refine ⟨g', previous_append hp ?_, heq⟩
      intro g'' hg''
      rw [hg] at hg''
      cases hg''
      exact fun he => hb he.symm
  · intro i f g' hf hfg hk
    by_cases hlen : i < events.length
    · obtain ⟨hkept, hends, hnow⟩ := kept_before h hlen hf hfg hk
      rw [hlease]
      split
      · -- an older unexpired grant of the same branch: this event would have to renew it
        rename_i hb
        exfalso
        have hown : g'.owner ≠ g.owner := by
          intro he
          exact hends (.inl ⟨g, hg, hb.symm, he.symm⟩)
        rw [hb] at hkept
        exact absurd (hother _ hkept hown) (not_le.mpr hnow)
      · exact hkept
    · have hie : i = events.length := by
        have := (List.getElem?_eq_some_iff.mp hf).1
        simp at this
        omega
      subst hie
      simp at hf
      subst hf
      rw [hg] at hfg
      cases hfg
      simp [hlease]

theorem accounted_acquire {events : List (Event V)} {s u : MemorySteps V} {b o : String}
    {ttl now now' : ℚ} {t : Nat} (h : Accounted events s)
    (hu : s.acquire b o ttl now now' = (t, u)) :
    Accounted (events ++ [⟨.acquire b o ttl, now, now', s, u, .ok t⟩]) u := by
  rcases acquire_cases s b o ttl now now' with ⟨held, hl, hown, he⟩ | ⟨held, hl, hown, hd, he⟩ |
    ⟨hfree, he⟩
  · rw [he] at hu
    cases hu
    obtain ⟨hcur, hne⟩ := h.current b held hl
    refine accounted_grant h (grant_acquire hne) hne (Nat.le_of_eq hcur.symm) ?_ ?_ ?_
    · intro b'
      split
      · rename_i hb
        simp only at hb
        subst hb
        exact hcur.symm
      · rfl
    · intro b'
      exact Dict.get?_insert _ _ _ _
    · intro held' hl' hne'
      simp only at hl' hne'
      rw [hl] at hl'
      cases hl'
      exact absurd hown hne'
  · rw [he] at hu
    cases hu
    exact accounted_same h (.refl _) rfl
  · rw [he] at hu
    cases hu
    refine accounted_grant h (grant_acquire (Nat.succ_ne_zero _)) (Nat.succ_ne_zero _)
      (Nat.le_succ _) ?_ ?_ ?_
    · intro b'
      simp only [issued, Dict.get?_insert]
      split <;> rfl
    · intro b'
      exact Dict.get?_insert _ _ _ _
    · intro held' hl' _
      exact (hfree held' hl').2

/-- The two leases named last before one position are the same. -/
theorem previous_unique {events : List (Event V)} {j : Nat} {b : String} {g g' : Grant}
    (h : PreviousGrant events j b g) (h' : PreviousGrant events j b g') : g = g' := by
  obtain ⟨m, e, hm, he, hg, hb, hlast⟩ := h
  obtain ⟨m', e', hm', he', hg', hb', hlast'⟩ := h'
  rcases Nat.lt_trichotomy m m' with hlt | heq | hgt
  · exact absurd hb' (hlast m' e' g' hlt hm' he' hg')
  · subst heq
    rw [he] at he'
    cases he'
    rw [hg] at hg'
    exact Option.some.inj hg'
  · exact absurd hb (hlast' m e g hgt hm he hg)

theorem previous_take {events : List (Event V)} {j : Nat} {b : String} {g : Grant}
    (hj : j ≤ events.length) :
    PreviousGrant (events.take j) (events.take j).length b g ↔ PreviousGrant events j b g := by
  have hlen : (events.take j).length = j := by simp [hj]
  rw [hlen]
  constructor
  · rintro ⟨m, e, hm, he, hg, hb, hlast⟩
    rw [List.getElem?_take_of_lt hm] at he
    refine ⟨m, e, hm, he, hg, hb, ?_⟩
    intro k f g' hmk hkj hf
    exact hlast k f g' hmk hkj (by rw [List.getElem?_take_of_lt hkj]; exact hf)
  · rintro ⟨m, e, hm, he, hg, hb, hlast⟩
    refine ⟨m, e, hm, by rw [List.getElem?_take_of_lt hm]; exact he, hg, hb, ?_⟩
    intro k f g' hmk hkj hf
    rw [List.getElem?_take_of_lt hkj] at hf
    exact hlast k f g' hmk hkj hf

/-- Only a successful `acquire` hands out a lease. -/
theorem grant_inv {e : Event V} {g : Grant} (h : grant? e = some g) :
    ∃ ttl now now' before after, e = ⟨.acquire g.branchId g.owner ttl, now, now', before, after,
      .ok g.token⟩ ∧ g.token ≠ 0 ∧ g.deadline = now' + ttl := by
  unfold grant? at h
  split at h
  · split at h
    · cases h
    · rename_i hne
      cases h
      exact ⟨_, _, _, _, _, rfl, hne, rfl⟩
  · cases h

variable [BEq V]

theorem accounted_step {events : List (Event V)} {s u : MemorySteps V} {c : Call V} {now now' : ℚ}
    {reply : Except StoreError c.Reply} (h : Accounted events s) (done : c.exec now now' s = (reply, u)) :
    Accounted (events ++ [⟨c, now, now', s, u, reply⟩]) u := by
  cases hc : c.owner? with
  | none =>
    have hs := exec_same c now now' s hc
    rw [done] at hs
    exact accounted_same h hs (grant_none (e := ⟨c, now, now', s, u, reply⟩) hc)
  | some owner =>
    cases c <;> simp only [Call.owner?, Option.some.injEq, reduceCtorEq] at hc
    case acquire b o ttl =>
      cases done
      exact accounted_acquire h rfl
    case release b o =>
      cases done
      exact accounted_release h rfl

theorem run_accounted {events : List (Event V)} {s : MemorySteps V} (run : Run {} events s) :
    Accounted events s := by
  generalize h0 : ({} : MemorySteps V) = s₀ at run
  induction run with
  | nil => subst h0; exact accounted_empty
  | call run later order done ih => exact accounted_step ih done

/-- Fencing safety of a run: how tokens grow, what a stale token meets, and who is kept out. -/
structure FencingSafe (events : List (Event V)) : Prop where
  /-- The tokens handed out for a branch never decrease. -/
  monotone : ∀ (i j : Nat) (e f : Event V) (g g' : Grant), i < j → events[i]? = some e →
    events[j]? = some f → grant? e = some g → grant? f = some g' → g.branchId = g'.branchId →
    g.token ≤ g'.token
  /-- Another owner than the last one gets a token above every earlier one. -/
  takeover : ∀ (j : Nat) (f : Event V) (last g' : Grant), events[j]? = some f →
    grant? f = some g' → PreviousGrant events j g'.branchId last → last.owner ≠ g'.owner →
    ∀ (i : Nat) (e : Event V) (g : Grant), i < j → events[i]? = some e → grant? e = some g →
      g.branchId = g'.branchId → g.token < g'.token
  /-- A release leaves every token where it was. -/
  released : ∀ e ∈ events, ∀ b o, e.call = .release b o → e.after.tokens = e.before.tokens ∧
    ∀ b', (e.after.leases.get? b').map Lease.token = (e.before.leases.get? b').map Lease.token
  /-- A leased write with an overtaken token is `Fenced` and changes nothing. -/
  stale : ∀ (i j : Nat) (e f : Event V) (g : Grant) (u : Nat), i < j → events[i]? = some e →
    events[j]? = some f → grant? e = some g → f.call.branchId = g.branchId →
    f.call.token? = some u → 0 < u → u < g.token →
    f.reply = .error (.fenced f.call.branchId u (f.before.issued f.call.branchId)) ∧
      f.after = f.before
  /-- While a lease is held and unexpired, another owner's `acquire` gets zero and changes
  nothing. -/
  exclusive : ∀ (i j : Nat) (e : Event V) (g : Grant) (o : String) (ttl now now' : ℚ)
    (before after : MemorySteps V) (reply : Except StoreError Nat), i < j →
    events[i]? = some e → events[j]? = some ⟨.acquire g.branchId o ttl, now, now', before, after,
      reply⟩ → grant? e = some g → o ≠ g.owner → now < g.deadline →
    (∀ (k : Nat) (f : Event V), i < k → k < j → events[k]? = some f → ¬ Ends g f) →
    reply = .ok 0 ∧ after = before

/-- Where a lease handed out at position `j` comes from: the holder's own, or the next token. -/
theorem grant_source {s : MemorySteps V} {events : List (Event V)} {j : Nat} {f : Event V}
    {g : Grant} (run : Run {} events s) (hf : events[j]? = some f) (hg : grant? f = some g) :
    (∃ held, f.before.leases.get? g.branchId = some held ∧ held.owner = g.owner ∧
      g.token = f.before.issued g.branchId) ∨ g.token = f.before.issued g.branchId + 1 := by
  obtain ⟨hrun, hexec, -, -⟩ := run_at run hf
  obtain ⟨ttl, now, now', before, after, rfl, hne, -⟩ := grant_inv hg
  have hacq : before.acquire g.branchId g.owner ttl now now' = (g.token, after) := by
    simp only [Call.exec, Prod.mk.injEq, Except.ok.injEq] at hexec
    exact Prod.ext hexec.1 hexec.2
  rcases acquire_cases before g.branchId g.owner ttl now now' with ⟨held, hl, hown, he⟩ |
    ⟨held, hl, hown, hd, he⟩ | ⟨-, he⟩
  · rw [he] at hacq
    have htok := (run_accounted hrun).current g.branchId held hl
    exact .inl ⟨held, hl, hown, (congrArg Prod.fst hacq).symm.trans htok.1⟩
  · rw [he] at hacq
    exact absurd (congrArg Prod.fst hacq).symm hne
  · rw [he] at hacq
    exact .inr (congrArg Prod.fst hacq).symm

/-- A lease handed out before position `j` is covered by the token issued there. -/
theorem grant_bounded {s : MemorySteps V} {events : List (Event V)} {i j : Nat} {e f : Event V}
    {g : Grant} (run : Run {} events s) (hij : i < j) (he : events[i]? = some e)
    (hf : events[j]? = some f) (hg : grant? e = some g) :
    g.token ≤ f.before.issued g.branchId := by
  obtain ⟨hrun, -⟩ := run_at run hf
  refine (run_accounted hrun).bounded e ?_ g hg
  exact List.mem_of_getElem? (by rw [List.getElem?_take_of_lt hij]; exact he)

/-- Over every run by any owners, with a clock that never goes backwards. -/
theorem fencing_safe {events : List (Event V)} {s : MemorySteps V} (run : Run {} events s)
    (owners : ∀ e ∈ events, e.call.owner? ≠ some "") : FencingSafe events := by
  refine ⟨?_, ?_, ?_, ?_, ?_⟩
  · intro i j e f g g' hij he hf hg hg' hb
    have hle := grant_bounded run hij he hf hg
    rw [hb] at hle
    rcases grant_source run hf hg' with ⟨-, -, -, htok⟩ | htok <;> omega
  · intro j f last g' hf hg' hlast hown i e g hij he hg hb
    have hle := grant_bounded run hij he hf hg
    rw [hb] at hle
    rcases grant_source run hf hg' with ⟨held, hl, ho, -⟩ | htok
    · -- a renewal: the lease still names the last owner it was handed to
      exfalso
      have hj : j ≤ events.length := Nat.le_of_lt (List.getElem?_eq_some_iff.mp hf).1
      have hne : held.owner ≠ "" := by
        obtain ⟨ttl, now, now', before, after, rfl, -⟩ := grant_inv hg'
        intro hempty
        exact owners _ (List.mem_of_getElem? hf) (by simp [Call.owner?, ← ho, hempty])
      obtain ⟨p, hp, hpo⟩ := (run_accounted (run_at run hf).1).holder g'.branchId held hl hne
      rw [previous_take hj] at hp
      rw [previous_unique hlast hp] at hown
      exact hown (hpo.trans ho)
    · omega
  · intro e he b o hc
    obtain ⟨j, hj⟩ := List.getElem?_of_mem he
    obtain ⟨-, hexec, -⟩ := run_at run hj
    obtain ⟨c, now, now', before, after, reply⟩ := e
    subst hc
    have hafter : after = before.release b o now := (congrArg Prod.snd hexec).symm
    rcases release_cases before b o now with ⟨held, hl, -, hr⟩ | ⟨-, hr⟩
    · rw [hr] at hafter
      subst hafter
      refine ⟨rfl, ?_⟩
      intro b'
      simp only [Dict.get?_insert]
      split
      · rename_i hb
        simp [hb, hl]
      · rfl
    · rw [hr] at hafter
      subst hafter
      exact ⟨rfl, fun _ => rfl⟩
  · intro i j e f g u hij he hf hg hb htok h0 hu
    obtain ⟨-, hexec, -⟩ := run_at run hf
    have hle := grant_bounded run hij he hf hg
    rw [← hb] at hle
    have hstale := exec_stale f.call f.now f.now' f.before u htok (by omega) (by omega)
    rw [hexec] at hstale
    exact ⟨congrArg Prod.fst hstale, congrArg Prod.snd hstale⟩
  · intro i j e g o ttl now now' before after reply hij he hf hg ho hd hno
    obtain ⟨hrun, hexec, hlater, -⟩ := run_at run hf
    have hkept := (run_accounted hrun).kept i e g
      (by rw [List.getElem?_take_of_lt hij]; exact he) hg ?_
    · simp only [Call.exec, acquire, hkept, ho.symm, ↓reduceIte, not_le.mpr hd] at hexec
      exact ⟨(congrArg Prod.fst hexec).symm, (congrArg Prod.snd hexec).symm⟩
    · intro k f hik hk
      have hkj : k < j := by
        have := (List.getElem?_eq_some_iff.mp hk).1
        simp at this
        omega
      have hmem := List.mem_of_getElem? hk
      rw [List.getElem?_take_of_lt hkj] at hk
      refine ⟨hno k f hik hkj hk, ?_⟩
      have hle := hlater f hmem
      exact lt_of_le_of_lt ((run_at run hk).2.2.2.trans hle) hd

/-- A worker replaced after its lease expired, and what its late write meets. -/
def replacedWorker : List (Call String × ℚ × ℚ) :=
  [(.acquire "run" "dead" 60, 0, 0), (.start "run" "tool:c1" 1, 1, 1),
    (.acquire "run" "live" 60, 2, 2), (.acquire "run" "live" 60, 61, 61),
    (.finishEffect "run" "tool:c1" "late" 1, 62, 62), (.release "run" "live", 63, 63),
    (.acquire "run" "next" 60, 64, 64)]

theorem fencing_safe_replaced : FencingSafe (trace {} replacedWorker) :=
  fencing_safe (run_timed {} replacedWorker 0 (by norm_num [replacedWorker, Timed])) (by decide)

end Semora.Proofs.Fencing
