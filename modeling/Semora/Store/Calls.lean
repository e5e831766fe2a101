import Semora.Store.Ledger

/-! Every operation of the execution store as data, and the runs made of them. -/

namespace Semora.Store
open Semora.Lib

/-- One call of an `ExecutionStore` method. -/
inductive Call (V : Type)
  | read (branchId key : String)
  | start (branchId key : String) (token : Nat)
  | finishEffect (branchId key : String) (value : V) (token : Nat)
  | writeControl (branchId key : String) (value : V) (token : Nat)
  | forget (branchId key : String) (token : Nat)
  | acquire (branchId owner : String) (ttl : ℚ)
  | release (branchId owner : String)
  | enqueueInput (branchId inputId : String) (value : V)
  | listInputs (branchId : String)
  | claimInput (branchId inputId : String) (token : Nat)
  | admitInputs (branchId : String) (inputIds : List String) (token : Nat)
  | discardInputs (branchId : String) (inputIds : List String) (token : Nat)
  | commitTransition (branchId : String) (transition : ExecutionTransition V) (token : Nat)

namespace Call

variable {V : Type}

/-- The type of the method's result. -/
@[reducible] def Reply : Call V → Type
  | read .. => Step V
  | start .. => Bool
  | acquire .. => Nat
  | enqueueInput .. => Bool
  | listInputs .. => List (InputRecord V)
  | commitTransition .. => List String
  | _ => Unit

/-- Run one call at clock readings `now` and `now'`. -/
def exec [BEq V] (c : Call V) (now now' : ℚ) (s : MemorySteps V) :
    Except StoreError c.Reply × MemorySteps V :=
  match c with
  | read b k => (.ok (s.read b k), s)
  | start b k t => s.start b k t
  | finishEffect b k v t => s.finishEffect b k v t
  | writeControl b k v t => s.writeControl b k v t
  | forget b k t => s.forget b k t
  | acquire b o ttl => ((.ok (s.acquire b o ttl now now').1), (s.acquire b o ttl now now').2)
  | release b o => (.ok (), s.release b o now)
  | enqueueInput b i v => (.ok (s.enqueueInput b i v).1, (s.enqueueInput b i v).2)
  | listInputs b => (.ok (s.listInputs b), s)
  | claimInput b i t => s.claimInput b i t
  | admitInputs b is t => s.admitInputs b is t
  | discardInputs b is t => s.discardInputs b is t
  | commitTransition b tr t => s.commitTransition b tr t

def branchId : Call V → String
  | read b .. | start b .. | finishEffect b .. | writeControl b .. | forget b .. | acquire b ..
  | release b .. | enqueueInput b .. | listInputs b | claimInput b .. | admitInputs b ..
  | discardInputs b .. | commitTransition b .. => b

/-- The token a leased write presents; the other calls present none. -/
def token? : Call V → Option Nat
  | start _ _ t | finishEffect _ _ _ t | writeControl _ _ _ t | forget _ _ t | claimInput _ _ t
  | admitInputs _ _ t | discardInputs _ _ t | commitTransition _ _ t => some t
  | _ => none

/-- The owner a lease call names. -/
def owner? : Call V → Option String
  | acquire _ o _ | release _ o => some o
  | _ => none

end Call

namespace MemorySteps

variable {V : Type} {s : MemorySteps V} {b : String} {t : Nat}

/-- Whether a leased write on `b` with token `t` is turned away. -/
def Stale (s : MemorySteps V) (b : String) (t : Nat) : Prop := t ≠ 0 ∧ t < s.issued b

instance (s : MemorySteps V) (b : String) (t : Nat) : Decidable (Stale s b t) :=
  inferInstanceAs (Decidable (_ ∧ _))

/-- The number the next input of the branch gets. -/
def counter (s : MemorySteps V) (b : String) : Nat := (s.inputSequence.get? b).getD 0

theorem fence_ok (h : t = 0 ∨ s.issued b ≤ t) : s.fence b t = .ok () := by
  unfold fence
  rw [if_neg (by omega)]

theorem fence_stale (h0 : t ≠ 0) (h : t < s.issued b) :
    s.fence b t = .error (.fenced b t (s.issued b)) := by
  unfold fence
  rw [if_pos ⟨h0, h⟩]

theorem fenced_ok {α : Type} {w : Except StoreError α × MemorySteps V}
    (h : t = 0 ∨ s.issued b ≤ t) : s.fenced b t w = w := by
  simp [fenced, fence_ok h]

theorem fenced_stale {α : Type} {w : Except StoreError α × MemorySteps V}
    (h0 : t ≠ 0) (h : t < s.issued b) :
    s.fenced b t w = (.error (.fenced b t (s.issued b)), s) := by
  simp [fenced, fence_stale h0 h]

/-- A fenced write either does what it would do unfenced or nothing at all. -/
theorem fenced_state {α : Type} (w : Except StoreError α × MemorySteps V) :
    (s.fenced b t w).2 = s ∨ s.fenced b t w = w := by
  unfold fenced
  cases s.fence b t with
  | error e => exact .inl rfl
  | ok u => exact .inr rfl

theorem fenced_unchanged {α : Type} {w : Except StoreError α × MemorySteps V} (h : w.2 = s) :
    (s.fenced b t w).2 = s := by
  rcases fenced_state (s := s) (b := b) (t := t) w with he | he
  · rw [he]
  · rw [he, h]

@[simp] theorem put_tokens (k : String) (st : Step V) : (s.put b k st).tokens = s.tokens := rfl
@[simp] theorem put_leases (k : String) (st : Step V) : (s.put b k st).leases = s.leases := rfl
@[simp] theorem put_inputs (k : String) (st : Step V) : (s.put b k st).inputs = s.inputs := rfl

theorem step_put (k : String) (st : Step V) (b' k' : String) :
    (s.put b k st).step b' k' = if (b', k') = (b, k) then st else s.step b' k' := by
  unfold step put
  rw [Dict.get?_insert]
  split <;> rfl

/-- Two ledgers with the same leases and the same tokens. -/
def SameLeases (s s' : MemorySteps V) : Prop := s'.tokens = s.tokens ∧ s'.leases = s.leases

theorem SameLeases.refl (s : MemorySteps V) : SameLeases s s := ⟨rfl, rfl⟩

theorem SameLeases.trans {s s' s'' : MemorySteps V} (h : SameLeases s s') (h' : SameLeases s' s'') :
    SameLeases s s'' := ⟨h'.1.trans h.1, h'.2.trans h.2⟩

theorem fenced_same {α : Type} {w : Except StoreError α × MemorySteps V}
    (h : SameLeases s w.2) : SameLeases s (s.fenced b t w).2 := by
  rcases fenced_state (s := s) (b := b) (t := t) w with he | he
  · rw [he]; exact .refl s
  · rw [he]; exact h

theorem mark_same (status : InputStatus) (keep : InputStatus → Bool) (i : String) :
    SameLeases s (mark status keep b s i) := by
  unfold mark
  split
  · exact .refl s
  · split <;> exact ⟨rfl, rfl⟩

theorem foldl_mark_same (status : InputStatus) (keep : InputStatus → Bool) (is : List String) :
    SameLeases s (is.foldl (mark status keep b) s) := by
  induction is generalizing s with
  | nil => exact .refl s
  | cons i is ih => exact (mark_same status keep i).trans ih

theorem putAll_same (items : List (String × V)) : SameLeases s (putAll b items s) := by
  induction items generalizing s with
  | nil => exact .refl s
  | cons item items ih => exact SameLeases.trans ⟨rfl, rfl⟩ ih

theorem insertInputs_same (items : List (String × V)) (inserted : List String) :
    SameLeases s (insertInputs b items s inserted).2 := by
  induction items generalizing s inserted with
  | nil => exact .refl s
  | cons item items ih =>
    unfold insertInputs
    split
    · exact ih inserted
    · exact SameLeases.trans ⟨rfl, rfl⟩ (ih _)

/-- What `acquire` can do: renew, refuse, or hand out the next token. -/
theorem acquire_cases (s : MemorySteps V) (b o : String) (ttl now now' : ℚ) :
    (∃ held, s.leases.get? b = some held ∧ held.owner = o ∧
      s.acquire b o ttl now now' =
        (held.token, { s with leases := s.leases.insert b ⟨o, held.token, now' + ttl⟩ })) ∨
    (∃ held, s.leases.get? b = some held ∧ held.owner ≠ o ∧ now < held.deadline ∧
      s.acquire b o ttl now now' = (0, s)) ∨
    ((∀ held, s.leases.get? b = some held → held.owner ≠ o ∧ held.deadline ≤ now) ∧
      s.acquire b o ttl now now' = (s.issued b + 1,
        { s with
          tokens := s.tokens.insert b (s.issued b + 1)
          leases := s.leases.insert b ⟨o, s.issued b + 1, now' + ttl⟩ })) := by
  unfold acquire
  cases hl : s.leases.get? b with
  | none => exact .inr (.inr ⟨by simp, rfl⟩)
  | some held =>
    by_cases ho : held.owner = o
    · exact .inl ⟨held, rfl, ho, by simp [ho]⟩
    · by_cases hd : held.deadline ≤ now
      · exact .inr (.inr ⟨by rintro _ ⟨⟩; exact ⟨ho, hd⟩, by simp [ho, hd]⟩)
      · exact .inr (.inl ⟨held, rfl, ho, not_le.mp hd, by simp [ho, hd]⟩)

/-- `release` changes at most the owner and the deadline of the caller's own lease. -/
theorem release_cases (s : MemorySteps V) (b o : String) (now : ℚ) :
    (∃ held, s.leases.get? b = some held ∧ held.owner = o ∧
      s.release b o now = { s with leases := s.leases.insert b ⟨"", held.token, now⟩ }) ∨
    ((∀ held, s.leases.get? b = some held → held.owner ≠ o) ∧ s.release b o now = s) := by
  unfold release
  cases hl : s.leases.get? b with
  | none => exact .inr ⟨by simp, rfl⟩
  | some held =>
    by_cases ho : held.owner = o
    · exact .inl ⟨held, rfl, ho, by simp [ho]⟩
    · exact .inr ⟨by rintro _ ⟨⟩; exact ho, by simp [ho]⟩

/-- What `start` can do: refuse, find the step there, or put its intent in. -/
theorem start_cases (s : MemorySteps V) (b k : String) (t : Nat) :
    (∃ e, s.start b k t = (.error e, s)) ∨
    (∃ st, s.entries.get? (b, k) = some st ∧ s.start b k t = (.ok false, s)) ∨
    (s.entries.get? (b, k) = none ∧ s.start b k t = (.ok true, s.put b k .running)) := by
  simp only [start, fenced]
  cases s.fence b t with
  | error e => exact .inl ⟨e, rfl⟩
  | ok u =>
    cases hentry : s.entries.get? (b, k) with
    | some st => exact .inr (.inl ⟨st, rfl, rfl⟩)
    | none => exact .inr (.inr ⟨rfl, rfl⟩)

/-- What `finish_effect` can do to a running step: refuse, or finish it. -/
theorem finishEffect_cases [BEq V] {k : String} (v : V) (t : Nat)
    (h : s.entries.get? (b, k) = some .running) :
    (∃ e, s.finishEffect b k v t = (.error e, s)) ∨
      s.finishEffect b k v t = (.ok (), s.put b k (.done v)) := by
  have hstep : s.step b k = .running := by simp [step, h]
  simp only [finishEffect, fenced, hstep]
  cases s.fence b t with
  | error e => exact .inl ⟨e, rfl⟩
  | ok u => exact .inr rfl

end MemorySteps

section
variable {V : Type} [BEq V]
open MemorySteps

/-- Only `acquire` and `release` touch a lease or a token. -/
theorem exec_same (c : Call V) (now now' : ℚ) (s : MemorySteps V) (h : c.owner? = none) :
    SameLeases s (c.exec now now' s).2 := by
  cases c with
  | acquire | release => simp [Call.owner?] at h
  | read | listInputs => exact .refl s
  | start b k t =>
    apply fenced_same
    split <;> exact ⟨rfl, rfl⟩
  | finishEffect b k v t =>
    apply fenced_same
    split
    · split <;> exact ⟨rfl, rfl⟩
    · exact .refl s
    · exact ⟨rfl, rfl⟩
  | writeControl => exact fenced_same ⟨rfl, rfl⟩
  | forget =>
    apply fenced_same
    split <;> exact ⟨rfl, rfl⟩
  | enqueueInput b i v =>
    simp only [Call.exec, enqueueInput]
    split <;> exact ⟨rfl, rfl⟩
  | claimInput b i t => exact fenced_same (mark_same _ _ i)
  | admitInputs b is t => exact fenced_same (foldl_mark_same _ _ is)
  | discardInputs b is t => exact fenced_same (foldl_mark_same _ _ is)
  | commitTransition b tr t =>
    apply fenced_same
    split
    · exact .refl s
    · dsimp only
      split
      · exact .refl s
      · exact ((putAll_same _).trans (putAll_same _)).trans (insertInputs_same _ _)

/-- A leased write with a token that was overtaken is refused and changes nothing. -/
theorem exec_stale (c : Call V) (now now' : ℚ) (s : MemorySteps V) (u : Nat)
    (hc : c.token? = some u) (h0 : u ≠ 0) (h : u < s.issued c.branchId) :
    c.exec now now' s = (.error (.fenced c.branchId u (s.issued c.branchId)), s) := by
  cases c <;> simp only [Call.token?, Option.some.injEq, reduceCtorEq] at hc
  all_goals subst hc
  all_goals exact fenced_stale h0 h

/-- A refused call changes nothing. -/
theorem exec_refused (c : Call V) (now now' : ℚ) (s : MemorySteps V) {error : StoreError}
    (h : (c.exec now now' s).1 = .error error) : (c.exec now now' s).2 = s := by
  have hfenced : ∀ {α : Type} {b : String} {t : Nat} {w : Except StoreError α × MemorySteps V},
      (w.1 = .error error → w.2 = s) → (s.fenced b t w).1 = .error error →
      (s.fenced b t w).2 = s := by
    intro α b t w hw h
    unfold fenced at h ⊢
    cases hf : s.fence b t with
    | error e => rfl
    | ok u =>
      rw [hf] at h
      exact hw h
  cases c with
  | read | listInputs => rfl
  | acquire | release | enqueueInput => cases h
  | start b k t =>
    refine hfenced ?_ h
    split <;> simp
  | finishEffect b k v t =>
    refine hfenced ?_ h
    split
    · split <;> simp
    · simp
    · simp
  | writeControl | claimInput | admitInputs | discardInputs => exact hfenced (by simp) h
  | forget =>
    refine hfenced ?_ h
    split <;> simp
  | commitTransition b tr t =>
    refine hfenced ?_ h
    split
    · simp
    · dsimp only
      split <;> simp

end

/-! What a call can do to one step. -/

section
variable {V : Type}

/-- How a call may change the entry of one step, from the first option to the second. -/
inductive Touch (c : Call V) (b k : String) : Option (Step V) → Option (Step V) → Prop
  | same (st : Option (Step V)) : Touch c b k st st
  | start (t : Nat) (h : c = .start b k t) : Touch c b k none (some .running)
  | finish (v : V) (t : Nat) (h : c = .finishEffect b k v t) :
      Touch c b k (some .running) (some (.done v))
  | control (st : Option (Step V)) (v : V) (t : Nat) (h : c = .writeControl b k v t) :
      Touch c b k st (some (.done v))
  | forget (st : Option (Step V)) (t : Nat) (h : c = .forget b k t)
      (undone : ∀ v, st ≠ some (.done v)) : Touch c b k st none
  | transition (st : Option (Step V)) (tr : ExecutionTransition V) (v : V) (t : Nat)
      (h : c = .commitTransition b tr t)
      (undone : k ∈ tr.controls.map Prod.fst ∨
        k ∈ tr.effects.map EffectCompletion.key ∧ ∀ v, st ≠ some (.done v)) :
      Touch c b k st (some (.done v))

open MemorySteps

variable {s : MemorySteps V} {b k : String}

theorem mark_entries (status : InputStatus) (keep : InputStatus → Bool) (b' i : String) :
    (mark status keep b' s i).entries = s.entries := by
  unfold mark
  split
  · rfl
  · split <;> rfl

theorem foldl_mark_entries (status : InputStatus) (keep : InputStatus → Bool) (b' : String)
    (is : List String) : (is.foldl (mark status keep b') s).entries = s.entries := by
  induction is generalizing s with
  | nil => rfl
  | cons i is ih => exact ih.trans (mark_entries status keep b' i)

theorem insertInputs_entries (b' : String) (items : List (String × V)) (inserted : List String) :
    (insertInputs b' items s inserted).2.entries = s.entries := by
  induction items generalizing s inserted with
  | nil => rfl
  | cons item items ih =>
    unfold insertInputs
    split
    · exact ih inserted
    · exact (ih _).trans rfl

theorem entry_put (b' k' : String) (st : Step V) :
    (s.put b' k' st).entries.get? (b, k) =
      if (b, k) = (b', k') then some st else s.entries.get? (b, k) :=
  Dict.get?_insert s.entries (b', k') (b, k) st

theorem entry_put_other {b' k' : String} {st : Step V} (h : (b, k) ≠ (b', k')) :
    (s.put b' k' st).entries.get? (b, k) = s.entries.get? (b, k) := by
  rw [entry_put, if_neg h]

/-- Filing values one after the other leaves a step alone or done with one of them. -/
theorem entry_putAll (b' : String) (items : List (String × V)) :
    (putAll b' items s).entries.get? (b, k) = s.entries.get? (b, k) ∨
      b = b' ∧ ∃ item ∈ items, item.1 = k ∧
        (putAll b' items s).entries.get? (b, k) = some (.done item.2) := by
  induction items generalizing s with
  | nil => exact .inl rfl
  | cons item items ih =>
    rcases ih (s := s.put b' item.1 (.done item.2)) with h | ⟨hb, later, hm, hk, h⟩
    · by_cases he : (b, k) = (b', item.1)
      · obtain ⟨rfl, rfl⟩ := Prod.mk.inj he
        refine .inr ⟨rfl, item, List.mem_cons_self, rfl, h.trans ?_⟩
        rw [entry_put, if_pos rfl]
      · exact .inl (h.trans (entry_put_other he))
    · exact .inr ⟨hb, later, List.mem_cons_of_mem _ hm, hk, h⟩

theorem fenced_touch {α : Type} {c : Call V} {b' : String} {t : Nat}
    {w : Except StoreError α × MemorySteps V}
    (h : Touch c b k (s.entries.get? (b, k)) (w.2.entries.get? (b, k))) :
    Touch c b k (s.entries.get? (b, k)) ((s.fenced b' t w).2.entries.get? (b, k)) := by
  rcases fenced_state (s := s) (b := b') (t := t) w with he | he
  · rw [he]
    exact .same _
  · rw [he]
    exact h

variable [BEq V]

/-- The checking loop lists only effects it was given, and none of a finished step. -/
theorem checkEffects_completed {b' : String} {effects : List (EffectCompletion V)}
    {seen seen' : List String} {completed completed' : List (String × V)}
    (h : s.checkEffects b' effects seen completed = .ok (seen', completed')) :
    ∀ item ∈ completed', item ∈ completed ∨
      item.1 ∈ effects.map EffectCompletion.key ∧ ∀ v, s.step b' item.1 ≠ .done v := by
  induction effects generalizing seen completed with
  | nil =>
    cases h
    exact fun item hi => .inl hi
  | cons effect rest ih =>
    have later : ∀ completed₁,
        s.checkEffects b' rest (seen ++ [effect.key]) completed₁ = .ok (seen', completed') →
        ∀ item ∈ completed', item ∈ completed₁ ∨
          item.1 ∈ (effect :: rest).map EffectCompletion.key ∧ ∀ v, s.step b' item.1 ≠ .done v := by
      intro completed₁ h₁ item hi
      rcases ih h₁ item hi with hi | ⟨hm, hu⟩
      · exact .inl hi
      · exact .inr ⟨List.mem_cons_of_mem _ hm, hu⟩
    unfold checkEffects at h
    split at h
    · cases h
    · split at h
      · split at h
        · exact later _ h
        · cases h
      · rename_i hundone
        split at h
        · intro item hi
          rcases later _ h item hi with hi | hi
          · rcases List.mem_append.mp hi with hi | hi
            · exact .inl hi
            · rw [List.mem_singleton.mp hi]
              exact .inr ⟨List.mem_cons_self, hundone⟩
          · exact .inr hi
        · cases h

omit [BEq V] in
theorem entry_undone (h : ∀ v, s.step b k ≠ .done v) : ∀ v, s.entries.get? (b, k) ≠ some (.done v) := by
  intro v he
  exact h v (by simp [MemorySteps.step, he])

/-- What each method does to the entry of one step. -/
theorem exec_touch (c : Call V) (now now' : ℚ) (s : MemorySteps V) (b k : String) :
    Touch c b k (s.entries.get? (b, k)) ((c.exec now now' s).2.entries.get? (b, k)) := by
  cases c with
  | read | listInputs => exact .same _
  | start b' k' t =>
    apply fenced_touch
    split
    · exact .same _
    · rename_i hn
      simp only [entry_put]
      split
      · rename_i he
        obtain ⟨rfl, rfl⟩ := Prod.mk.inj he
        rw [hn]
        exact .start t rfl
      · exact .same _
  | finishEffect b' k' v t =>
    apply fenced_touch
    split
    · split <;> exact .same _
    · exact .same _
    · rename_i hr
      simp only [entry_put]
      split
      · rename_i he
        obtain ⟨rfl, rfl⟩ := Prod.mk.inj he
        have hrun : s.entries.get? (b, k) = some .running := by
          unfold MemorySteps.step at hr
          cases hg : s.entries.get? (b, k) with
          | none => simp [hg] at hr
          | some st => simpa [hg] using hr
        rw [hrun]
        exact .finish v t rfl
      · exact .same _
  | writeControl b' k' v t =>
    apply fenced_touch
    simp only [entry_put]
    split
    · rename_i he
      obtain ⟨rfl, rfl⟩ := Prod.mk.inj he
      exact .control _ v t rfl
    · exact .same _
  | forget b' k' t =>
    apply fenced_touch
    split
    · exact .same _
    · rename_i hundone
      simp only [Dict.get?_erase]
      split
      · rename_i he
        obtain ⟨rfl, rfl⟩ := Prod.mk.inj he
        exact .forget _ t rfl (entry_undone hundone)
      · exact .same _
  | acquire b' o ttl =>
    simp only [Call.exec, acquire]
    split
    · exact .same _
    · split
      · exact .same _
      · split <;> exact .same _
  | release b' o =>
    simp only [Call.exec, release]
    split
    · exact .same _
    · split <;> exact .same _
  | enqueueInput b' i v =>
    simp only [Call.exec, enqueueInput]
    split <;> exact .same _
  | claimInput b' i t => exact fenced_touch (by rw [mark_entries]; exact .same _)
  | admitInputs b' is t => exact fenced_touch (by rw [foldl_mark_entries]; exact .same _)
  | discardInputs b' is t => exact fenced_touch (by rw [foldl_mark_entries]; exact .same _)
  | commitTransition b' tr t =>
    apply fenced_touch
    split
    · exact .same _
    · rename_i seen completed hcheck
      dsimp only
      split
      · exact .same _
      · rw [insertInputs_entries]
        have hundone := checkEffects_completed hcheck
        rcases entry_putAll (s := putAll b' completed s) (b := b) (k := k) b' tr.controls with h |
          ⟨rfl, item, hm, rfl, h⟩
        · rw [h]
          rcases entry_putAll (s := s) (b := b) (k := k) b' completed with h | ⟨rfl, item, hm, rfl, h⟩
          · rw [h]
            exact .same _
          · rw [h]
            rcases hundone item hm with hnil | ⟨hkey, hu⟩
            · cases hnil
            · exact .transition _ tr _ t rfl (.inr ⟨hkey, entry_undone hu⟩)
        · rw [h]
          exact .transition _ tr _ t rfl (.inl (List.mem_map_of_mem hm))

/-- A transition of controls only leaves a step alone or done with one of them. -/
theorem transition_filed {tr : ExecutionTransition V} (b' : String) (t : Nat)
    (heffects : tr.effects = []) :
    (s.commitTransition b' tr t).2.entries.get? (b, k) = s.entries.get? (b, k) ∨
      ∃ item ∈ tr.controls, item.1 = k ∧
        (s.commitTransition b' tr t).2.entries.get? (b, k) = some (.done item.2) := by
  unfold commitTransition
  simp only [heffects, checkEffects, List.filter_nil, ne_eq, not_true_eq_false, ↓reduceIte]
  rcases fenced_state (s := s) (b := b') (t := t) (.ok (insertInputs b' tr.inputs
    (putAll b' tr.controls (putAll b' [] s)) []).1, (insertInputs b' tr.inputs
    (putAll b' tr.controls (putAll b' [] s)) []).2) with he | he
  · rw [he]
    exact .inl rfl
  · rw [he, insertInputs_entries]
    exact (entry_putAll (s := s) b' tr.controls).imp_right (fun h => h.2)

end

/-- One call of a run with its clock readings, the states around it and its outcome. -/
structure Event (V : Type) where
  call : Call V
  now : ℚ
  now' : ℚ
  before : MemorySteps V
  after : MemorySteps V
  reply : Except StoreError call.Reply

/-- A run of the ledger from one state to another, by any callers in any order. The clock it reads
never goes backwards. -/
inductive Run {V : Type} [BEq V] : MemorySteps V → List (Event V) → MemorySteps V → Prop
  | nil (s : MemorySteps V) : Run s [] s
  | call {s t u : MemorySteps V} {events : List (Event V)} {c : Call V} {now now' : ℚ}
      {reply : Except StoreError c.Reply} (run : Run s events t)
      (later : ∀ e ∈ events, e.now' ≤ now) (order : now ≤ now')
      (done : c.exec now now' t = (reply, u)) : Run s (events ++ [⟨c, now, now', t, u, reply⟩]) u

/-- What an event of a run was: a call made in the state the events before it led to. -/
theorem run_at {V : Type} [BEq V] {s u : MemorySteps V} {events : List (Event V)} {j : Nat}
    {f : Event V} (run : Run s events u) (hf : events[j]? = some f) :
    Run s (events.take j) f.before ∧ f.call.exec f.now f.now' f.before = (f.reply, f.after) ∧
      (∀ e ∈ events.take j, e.now' ≤ f.now) ∧ f.now ≤ f.now' := by
  induction run with
  | nil => simp at hf
  | call run later order done ih =>
    rename_i t u events c now now' reply
    by_cases hj : j < events.length
    · rw [List.getElem?_append_left hj] at hf
      rw [List.take_append_of_le_length (Nat.le_of_lt hj)]
      exact ih hf
    · have hlen : j = events.length := by
        have := (List.getElem?_eq_some_iff.mp hf).1
        simp at this
        omega
      subst hlen
      simp at hf
      subst hf
      simp only [List.take_left']
      exact ⟨run, done, later, order⟩

/-- The events of a list of timed calls made one after the other. -/
def trace {V : Type} [BEq V] : MemorySteps V → List (Call V × ℚ × ℚ) → List (Event V)
  | _, [] => []
  | s, (c, now, now') :: calls =>
    ⟨c, now, now', s, (c.exec now now' s).2, (c.exec now now' s).1⟩ ::
      trace (c.exec now now' s).2 calls

/-- The state a list of timed calls leads to. -/
def final {V : Type} [BEq V] : MemorySteps V → List (Call V × ℚ × ℚ) → MemorySteps V
  | s, [] => s
  | s, (c, now, now') :: calls => final (c.exec now now' s).2 calls

/-- The clock readings of a list of timed calls never go backwards from `low` on. -/
def Timed {V : Type} (low : ℚ) : List (Call V × ℚ × ℚ) → Prop
  | [] => True
  | (_, now, now') :: calls => low ≤ now ∧ now ≤ now' ∧ Timed now' calls

theorem run_trace {V : Type} [BEq V] {calls : List (Call V × ℚ × ℚ)} {low : ℚ}
    {s₀ s : MemorySteps V} {events : List (Event V)} (run : Run s₀ events s)
    (hlow : ∀ e ∈ events, e.now' ≤ low) (ht : Timed low calls) :
    Run s₀ (events ++ trace s calls) (final s calls) := by
  induction calls generalizing low s events with
  | nil => simpa [trace, final] using run
  | cons timed calls ih =>
    obtain ⟨c, now, now'⟩ := timed
    obtain ⟨h₁, h₂, h₃⟩ := ht
    have hstep : Run s₀ (events ++ [⟨c, now, now', s, (c.exec now now' s).2,
        (c.exec now now' s).1⟩]) (c.exec now now' s).2 :=
      Run.call run (fun e he => (hlow e he).trans h₁) h₂ rfl
    rw [trace, final, List.append_cons]
    refine ih hstep ?_ h₃
    intro e he
    rcases List.mem_append.mp he with he | he
    · exact (hlow e he).trans (h₁.trans h₂)
    · rw [List.mem_singleton.mp he]

theorem run_timed {V : Type} [BEq V] (s : MemorySteps V) (calls : List (Call V × ℚ × ℚ)) (low : ℚ)
    (h : Timed low calls) : Run s (trace s calls) (final s calls) :=
  run_trace (.nil s) (by simp) h

end Semora.Store
