import Semora.Store.Calls

/-! The ledger branch by branch: what a call replies, and what it leaves of its own branch, is
settled by that branch alone, and it leaves every other branch as it was. -/

namespace Semora.Store
open Semora.Lib MemorySteps

variable {V : Type}

namespace MemorySteps

/-- The rows of one branch's queue, as the ledger files them. -/
def rows (s : MemorySteps V) (b : String) : List ((String × String) × InputRecord V) :=
  s.inputs.items.filter (fun item => item.1.1 = b)

end MemorySteps

/-- Two ledgers hold the same of one branch. -/
structure Agree (b : String) (s s' : MemorySteps V) : Prop where
  entries : ∀ k, s'.entries.get? (b, k) = s.entries.get? (b, k)
  leases : s'.leases.get? b = s.leases.get? b
  tokens : s'.tokens.get? b = s.tokens.get? b
  rows : s'.rows b = s.rows b
  sequence : s'.inputSequence.get? b = s.inputSequence.get? b

section
variable {b : String} {s s' s'' : MemorySteps V}

theorem Agree.refl (b : String) (s : MemorySteps V) : Agree b s s := ⟨fun _ => rfl, rfl, rfl, rfl, rfl⟩

theorem Agree.symm (h : Agree b s s') : Agree b s' s :=
  ⟨fun k => (h.entries k).symm, h.leases.symm, h.tokens.symm, h.rows.symm, h.sequence.symm⟩

theorem Agree.trans (h : Agree b s s') (h' : Agree b s' s'') : Agree b s s'' :=
  ⟨fun k => (h'.entries k).trans (h.entries k), h'.leases.trans h.leases,
    h'.tokens.trans h.tokens, h'.rows.trans h.rows, h'.sequence.trans h.sequence⟩

theorem Agree.issued (h : Agree b s s') : s'.issued b = s.issued b := by
  simp only [MemorySteps.issued, h.tokens]

theorem Agree.step (h : Agree b s s') (k : String) : s'.step b k = s.step b k := by
  simp only [MemorySteps.step, h.entries]

theorem get?_rows (s : MemorySteps V) (b i : String) : s.inputs.get? (b, i) = fetch (b, i) (s.rows b) :=
  (fetch_filter (fun key : String × String => decide (key.1 = b)) s.inputs.items (by simp)).symm

theorem Agree.input (h : Agree b s s') (i : String) : s'.inputs.get? (b, i) = s.inputs.get? (b, i) := by
  rw [get?_rows, get?_rows, h.rows]

/-! The parts calls are made of, on the branch itself. -/

theorem Agree.put (h : Agree b s s') (k : String) (st : Step V) :
    Agree b (s.put b k st) (s'.put b k st) := by
  refine ⟨?_, h.leases, h.tokens, h.rows, h.sequence⟩
  intro k'
  rw [entry_put, entry_put, h.entries]

theorem rows_insert (s : MemorySteps V) (i : String) (r : InputRecord V) :
    { s with inputs := s.inputs.insert (b, i) r }.rows b = upsert (b, i) r (s.rows b) :=
  filter_upsert (fun key : String × String => decide (key.1 = b)) s.inputs.items r (by simp)

theorem Agree.row (h : Agree b s s') (i : String) (r : InputRecord V) :
    Agree b { s with inputs := s.inputs.insert (b, i) r }
      { s' with inputs := s'.inputs.insert (b, i) r } :=
  ⟨h.entries, h.leases, h.tokens, by rw [rows_insert, rows_insert, h.rows], h.sequence⟩

theorem Agree.mark (h : Agree b s s') (status : InputStatus) (keep : InputStatus → Bool)
    (i : String) : Agree b (mark status keep b s i) (mark status keep b s' i) := by
  unfold MemorySteps.mark
  rw [h.input i]
  cases hi : s.inputs.get? (b, i) with
  | none => exact h
  | some record =>
    by_cases hk : keep record.status = true
    · simpa [hk] using h
    · simpa only [hk, Bool.false_eq_true, ↓reduceIte] using h.row i _

theorem Agree.marks (h : Agree b s s') (status : InputStatus) (keep : InputStatus → Bool)
    (is : List String) :
    Agree b (is.foldl (MemorySteps.mark status keep b) s)
      (is.foldl (MemorySteps.mark status keep b) s') := by
  induction is generalizing s s' with
  | nil => exact h
  | cons i is ih => exact ih (h.mark status keep i)

theorem Agree.insertInput (h : Agree b s s') (i : String) (value : V) :
    Agree b (s.insertInput b i value) (s'.insertInput b i value) := by
  unfold MemorySteps.insertInput
  rw [h.sequence]
  have hrow := h.row i ⟨i, .pending, value, (s.inputSequence.get? b).getD 0⟩
  exact ⟨hrow.entries, hrow.leases, hrow.tokens, hrow.rows, by simp only [Dict.get?_insert_self]⟩

theorem Agree.insertInputs (h : Agree b s s') (items : List (String × V)) (inserted : List String) :
    (insertInputs b items s' inserted).1 = (insertInputs b items s inserted).1 ∧
      Agree b (insertInputs b items s inserted).2 (insertInputs b items s' inserted).2 := by
  induction items generalizing s s' inserted with
  | nil => exact ⟨rfl, h⟩
  | cons item items ih =>
    obtain ⟨i, value⟩ := item
    simp only [MemorySteps.insertInputs, h.input i]
    cases s.inputs.get? (b, i) with
    | some record => exact ih h inserted
    | none => exact ih (h.insertInput i value) _

theorem Agree.putAll (h : Agree b s s') (items : List (String × V)) :
    Agree b (putAll b items s) (putAll b items s') := by
  induction items generalizing s s' with
  | nil => exact h
  | cons item items ih => exact ih (h.put item.1 (.done item.2))

theorem Agree.erase (h : Agree b s s') (k : String) :
    Agree b { s with entries := s.entries.erase (b, k) }
      { s' with entries := s'.entries.erase (b, k) } := by
  refine ⟨?_, h.leases, h.tokens, h.rows, h.sequence⟩
  intro k'
  simp only [Dict.get?_erase, h.entries]

theorem Agree.lease (h : Agree b s s') (l : Lease) :
    Agree b { s with leases := s.leases.insert b l } { s' with leases := s'.leases.insert b l } :=
  ⟨h.entries, by simp only [Dict.get?_insert_self], h.tokens, h.rows, h.sequence⟩

theorem Agree.grant (h : Agree b s s') (t : Nat) (l : Lease) :
    Agree b { s with tokens := s.tokens.insert b t, leases := s.leases.insert b l }
      { s' with tokens := s'.tokens.insert b t, leases := s'.leases.insert b l } :=
  ⟨h.entries, by simp only [Dict.get?_insert_self], by simp only [Dict.get?_insert_self], h.rows,
    h.sequence⟩

/-- A leased write in two ledgers: turned away by both, or let through by both. -/
theorem Agree.fenced {α : Type} {w w' : Except StoreError α × MemorySteps V} (h : Agree b s s')
    (t : Nat) (hw : w'.1 = w.1 ∧ Agree b w.2 w'.2) :
    (s'.fenced b t w').1 = (s.fenced b t w).1 ∧ Agree b (s.fenced b t w).2 (s'.fenced b t w').2 := by
  simp only [MemorySteps.fenced, fence, h.issued]
  split
  · exact ⟨rfl, h⟩
  · exact hw

theorem Agree.checkEffects [BEq V] (h : Agree b s s') (effects : List (EffectCompletion V))
    (seen : List String) (completed : List (String × V)) :
    s'.checkEffects b effects seen completed = s.checkEffects b effects seen completed := by
  induction effects generalizing seen completed with
  | nil => rfl
  | cons effect effects ih => simp only [MemorySteps.checkEffects, h.step, ih]

theorem Agree.listInputs (h : Agree b s s') : s'.listInputs b = s.listInputs b := by
  have hrows := h.rows
  unfold MemorySteps.rows at hrows
  simp only [MemorySteps.listInputs, hrows]

end

/-! Another branch. -/

section
variable {b b' : String} {s : MemorySteps V}

theorem agree_put (h : b ≠ b') (k : String) (st : Step V) : Agree b' s (s.put b k st) := by
  refine ⟨?_, rfl, rfl, rfl, rfl⟩
  intro k'
  exact entry_put_other (fun he => h (congrArg Prod.fst he).symm)

theorem rows_other (h : b ≠ b') (i : String) (r : InputRecord V) :
    { s with inputs := s.inputs.insert (b, i) r }.rows b' = s.rows b' :=
  filter_upsert_other (fun key : String × String => decide (key.1 = b')) s.inputs.items r (by simpa)

theorem agree_mark (h : b ≠ b') (status : InputStatus) (keep : InputStatus → Bool) (i : String) :
    Agree b' s (mark status keep b s i) := by
  unfold MemorySteps.mark
  split
  · exact .refl b' s
  · split
    · exact .refl b' s
    · exact ⟨fun _ => rfl, rfl, rfl, rows_other h i _, rfl⟩

theorem agree_marks (h : b ≠ b') (status : InputStatus) (keep : InputStatus → Bool)
    (is : List String) : Agree b' s (is.foldl (mark status keep b) s) := by
  induction is generalizing s with
  | nil => exact .refl b' s
  | cons i is ih => exact (agree_mark h status keep i).trans ih

theorem agree_insertInput (h : b ≠ b') (i : String) (value : V) :
    Agree b' s (s.insertInput b i value) := by
  refine ⟨fun _ => rfl, rfl, rfl, rows_other h i _, ?_⟩
  exact Dict.get?_insert_ne s.inputSequence _ (Ne.symm h)

theorem agree_insertInputs (h : b ≠ b') (items : List (String × V)) (inserted : List String) :
    Agree b' s (insertInputs b items s inserted).2 := by
  induction items generalizing s inserted with
  | nil => exact .refl b' s
  | cons item items ih =>
    unfold insertInputs
    split
    · exact ih inserted
    · exact (agree_insertInput h _ _).trans (ih _)

theorem agree_putAll (h : b ≠ b') (items : List (String × V)) : Agree b' s (putAll b items s) := by
  induction items generalizing s with
  | nil => exact .refl b' s
  | cons item items ih => exact (agree_put h _ _).trans ih

theorem agree_fenced {α : Type} {w : Except StoreError α × MemorySteps V} (t : Nat)
    (hw : Agree b' s w.2) : Agree b' s (s.fenced b t w).2 := by
  rcases fenced_state (s := s) (b := b) (t := t) w with he | he
  · rw [he]
    exact .refl b' s
  · rw [he]
    exact hw

theorem agree_lease (h : b ≠ b') (l : Lease) : Agree b' s { s with leases := s.leases.insert b l } :=
  ⟨fun _ => rfl, Dict.get?_insert_ne s.leases l (Ne.symm h), rfl, rfl, rfl⟩

theorem agree_grant (h : b ≠ b') (t : Nat) (l : Lease) :
    Agree b' s { s with tokens := s.tokens.insert b t, leases := s.leases.insert b l } :=
  ⟨fun _ => rfl, Dict.get?_insert_ne s.leases l (Ne.symm h),
    Dict.get?_insert_ne s.tokens t (Ne.symm h), rfl, rfl⟩

end

variable [BEq V]

/-- Over two ledgers that hold the same of its branch, a call replies the same and leaves them so. -/
theorem exec_agree (c : Call V) (now now' : ℚ) {s s' : MemorySteps V} (h : Agree c.branchId s s') :
    (c.exec now now' s').1 = (c.exec now now' s).1 ∧
      Agree c.branchId (c.exec now now' s).2 (c.exec now now' s').2 := by
  generalize hb : c.branchId = b at h ⊢
  cases c <;> (simp only [Call.branchId] at hb; subst hb)
  case read k => exact ⟨congrArg Except.ok (h.step k), h⟩
  case listInputs => exact ⟨congrArg Except.ok h.listInputs, h⟩
  case start k t =>
    apply h.fenced t
    rw [h.entries k]
    split
    · exact ⟨rfl, h⟩
    · exact ⟨rfl, h.put k .running⟩
  case finishEffect k v t =>
    apply h.fenced t
    rw [h.step k]
    split
    · split <;> exact ⟨rfl, h⟩
    · exact ⟨rfl, h⟩
    · exact ⟨rfl, h.put k (.done v)⟩
  case writeControl k v t => exact h.fenced t ⟨rfl, h.put k (.done v)⟩
  case forget k t =>
    apply h.fenced t
    rw [h.step k]
    split
    · exact ⟨rfl, h⟩
    · exact ⟨rfl, h.erase k⟩
  case acquire o ttl =>
    simp only [Call.exec, acquire, h.leases, h.issued]
    split
    · exact ⟨rfl, h.grant _ _⟩
    · split
      · exact ⟨rfl, h.lease _⟩
      · split
        · exact ⟨rfl, h.grant _ _⟩
        · exact ⟨rfl, h⟩
  case release o =>
    refine ⟨rfl, ?_⟩
    simp only [Call.exec, release, h.leases]
    split
    · exact h
    · split
      · exact h.lease _
      · exact h
  case enqueueInput i v =>
    simp only [Call.exec, enqueueInput, h.input]
    split
    · exact ⟨rfl, h⟩
    · exact ⟨rfl, h.insertInput i v⟩
  case claimInput i t =>
    apply h.fenced t
    refine ⟨rfl, ?_⟩
    dsimp only
    exact h.mark .claimed _ i
  case admitInputs is t => exact h.fenced t ⟨rfl, h.marks _ _ is⟩
  case discardInputs is t => exact h.fenced t ⟨rfl, h.marks _ _ is⟩
  case commitTransition tr t =>
    apply h.fenced t
    rw [h.checkEffects]
    split
    · exact ⟨rfl, h⟩
    · rename_i seen completed hcheck
      dsimp only
      split
      · exact ⟨rfl, h⟩
      · obtain ⟨hids, hstate⟩ :=
          ((h.putAll completed).putAll tr.controls).insertInputs tr.inputs []
        exact ⟨congrArg Except.ok hids, hstate⟩

/-- A call leaves every branch but its own as it was. -/
theorem exec_other (c : Call V) (now now' : ℚ) (s : MemorySteps V) {b : String}
    (h : c.branchId ≠ b) : Agree b s (c.exec now now' s).2 := by
  cases c with
  | read | listInputs => exact .refl b s
  | start b' k t =>
    apply agree_fenced
    split
    · exact .refl b s
    · exact agree_put h k .running
  | finishEffect b' k v t =>
    apply agree_fenced
    split
    · split <;> exact .refl b s
    · exact .refl b s
    · exact agree_put h k (.done v)
  | writeControl b' k v t => exact agree_fenced t (agree_put h k (.done v))
  | forget b' k t =>
    apply agree_fenced
    split
    · exact .refl b s
    · refine ⟨?_, rfl, rfl, rfl, rfl⟩
      intro k'
      rw [Dict.get?_erase, if_neg (fun he => h (congrArg Prod.fst he).symm)]
  | acquire b' o ttl =>
    rcases acquire_cases s b' o ttl now now' with ⟨held, -, -, he⟩ | ⟨held, -, -, -, he⟩ | ⟨-, he⟩
    · simp only [Call.exec, he]
      exact agree_lease h _
    · simp only [Call.exec, he]
      exact .refl b s
    · simp only [Call.exec, he]
      exact agree_grant h _ _
  | release b' o =>
    rcases release_cases s b' o now with ⟨held, -, -, he⟩ | ⟨-, he⟩
    · simp only [Call.exec, he]
      exact agree_lease h _
    · simp only [Call.exec, he]
      exact .refl b s
  | enqueueInput b' i v =>
    simp only [Call.exec, enqueueInput]
    split
    · exact .refl b s
    · exact agree_insertInput h i v
  | claimInput b' i t =>
    apply agree_fenced
    dsimp only
    exact agree_mark h .claimed _ i
  | admitInputs b' is t => exact agree_fenced t (agree_marks h _ _ is)
  | discardInputs b' is t => exact agree_fenced t (agree_marks h _ _ is)
  | commitTransition b' tr t =>
    apply agree_fenced
    split
    · exact .refl b s
    · dsimp only
      split
      · exact .refl b s
      · exact ((agree_putAll h _).trans (agree_putAll h _)).trans (agree_insertInputs h _ _)

end Semora.Store
