import Semora.Store.Calls

/-! The rows of one branch's input queue: which of them a listing shows, and what the operations
leave of them. -/

namespace Semora.Store
open Semora.Lib

/-- Whether a row of this status is never claimed again. -/
def InputStatus.settled : InputStatus → Bool
  | admitted | discarded => true
  | pending | claimed => false

namespace MemorySteps

variable {V : Type} {b : String} {s s' s'' : MemorySteps V}

/-- Rows are added at most. -/
def Added (b : String) (s s' : MemorySteps V) : Prop :=
  ∀ x row, s.inputs.get? (b, x) = some row → s'.inputs.get? (b, x) = some row

/-- No row is lost, holds another value or is open again. -/
def Advanced (b : String) (s s' : MemorySteps V) : Prop :=
  ∀ x row, s.inputs.get? (b, x) = some row → ∃ row', s'.inputs.get? (b, x) = some row' ∧
    row'.value = row.value ∧ (row.status.settled = true → row'.status.settled = true)

/-- Every row is filed under its own id, and what it holds under that id is as `ok` says. -/
def Labelled (ok : String → V → Prop) (b : String) (s : MemorySteps V) : Prop :=
  ∀ x row, s.inputs.get? (b, x) = some row → row.inputId = x ∧ ok x row.value

theorem Added.refl (s : MemorySteps V) : Added b s s := fun _ _ h => h

theorem Added.trans (h : Added b s s') (h' : Added b s' s'') : Added b s s'' :=
  fun x row hrow => h' x row (h x row hrow)

theorem added_inputs (h : s'.inputs = s.inputs) : Added b s s' := by
  intro x row hrow
  rw [h]
  exact hrow

theorem Added.advanced (h : Added b s s') : Advanced b s s' :=
  fun x row hrow => ⟨row, h x row hrow, rfl, id⟩

theorem Advanced.trans (h : Advanced b s s') (h' : Advanced b s' s'') : Advanced b s s'' := by
  intro x row hrow
  obtain ⟨row', hrow', hvalue, hsettled⟩ := h x row hrow
  obtain ⟨row'', hrow'', hvalue', hsettled'⟩ := h' x row' hrow'
  exact ⟨row'', hrow'', hvalue'.trans hvalue, fun h => hsettled' (hsettled h)⟩

/-! Listing. -/

theorem mem_listInputs {row : InputRecord V} :
    row ∈ s.listInputs b ↔ ∃ x, s.inputs.get? (b, x) = some row := by
  simp only [listInputs, List.mem_insertionSort, List.mem_map, List.mem_filter, Dict.mem_items]
  constructor
  · intro hlisted
    obtain ⟨⟨⟨b', x⟩, row'⟩, ⟨hmem, hb⟩, hrow⟩ := hlisted
    simp only [decide_eq_true_eq] at hb hrow
    subst hb hrow
    exact ⟨x, hmem⟩
  · intro hfiled
    obtain ⟨x, hrow⟩ := hfiled
    exact ⟨((b, x), row), ⟨hrow, by simp⟩, rfl⟩

variable {ok : String → V → Prop}

theorem nodup_listInputs (h : Labelled ok b s) :
    ((s.listInputs b).map InputRecord.inputId).Nodup := by
  have hperm := (List.perm_insertionSort (fun x y : InputRecord V => x.sequence ≤ y.sequence)
    ((s.inputs.items.filter (fun item => item.1.1 = b)).map Prod.snd)).map InputRecord.inputId
  apply hperm.nodup_iff.mpr
  have hkeys : ((s.inputs.items.filter (fun item => item.1.1 = b)).map Prod.fst).Nodup :=
    s.inputs.distinct.sublist (List.filter_sublist.map Prod.fst)
  apply List.Nodup.of_map (fun x => (b, x))
  rw [List.map_map, List.map_map, Function.comp_assoc]
  have hsame : (s.inputs.items.filter (fun item => item.1.1 = b)).map
      ((fun x => (b, x)) ∘ InputRecord.inputId ∘ Prod.snd) =
      (s.inputs.items.filter (fun item => item.1.1 = b)).map Prod.fst := by
    apply List.map_congr_left
    intro item hitem
    obtain ⟨⟨b', x⟩, row⟩ := item
    obtain ⟨hmem, hb⟩ := List.mem_filter.mp hitem
    simp only [decide_eq_true_eq] at hb
    subst hb
    have hid := (h x row ((s.inputs.mem_items _ _).mpr hmem)).1
    simp [hid]
  rw [hsame]
  exact hkeys

/-! Marking rows. -/

theorem get?_mark (status : InputStatus) (keep : InputStatus → Bool) (b' i j : String) :
    (mark status keep b' s i).inputs.get? (b, j) = (s.inputs.get? (b, j)).map (fun row =>
      if (b, j) = (b', i) ∧ keep row.status = false then ⟨i, status, row.value, row.sequence⟩
      else row) := by
  unfold mark
  by_cases he : (b, j) = (b', i)
  · rw [he]
    cases hrow : s.inputs.get? (b', i) with
    | none => simp [hrow]
    | some row => cases hkeep : keep row.status <;> simp [hrow, hkeep]
  · cases hrow : s.inputs.get? (b', i) with
    | none => simp [he]
    | some row => cases hkeep : keep row.status <;> simp [hkeep, he, Dict.get?_insert]

theorem mark_other {b' i j : String} (status : InputStatus) (keep : InputStatus → Bool)
    (h : (b, j) ≠ (b', i)) :
    (mark status keep b' s i).inputs.get? (b, j) = s.inputs.get? (b, j) := by
  simp [get?_mark, h]

/-- Rows of another branch are not marked. -/
theorem marks_elsewhere {b' : String} (status : InputStatus) (keep : InputStatus → Bool)
    (hb : b' ≠ b) (is : List String) (j : String) :
    (is.foldl (mark status keep b') s).inputs.get? (b, j) = s.inputs.get? (b, j) := by
  induction is generalizing s with
  | nil => rfl
  | cons i is ih =>
    rw [List.foldl_cons, ih, mark_other]
    intro he
    exact hb (Prod.mk.inj he).1.symm

/-! Adding rows. -/

theorem insertInput_adds {x : String} {value : V} {b' : String}
    (hnew : s.inputs.get? (b', x) = none) (hok : b' = b → ok x value) :
    Added b s (s.insertInput b' x value) ∧
      (Labelled ok b s → Labelled ok b (s.insertInput b' x value)) := by
  constructor
  · intro y row hrow
    have hne : (b, y) ≠ (b', x) := by
      intro he
      rw [he, hnew] at hrow
      cases hrow
    simp only [insertInput, Dict.get?_insert_ne _ _ hne]
    exact hrow
  · intro h y row hrow
    simp only [insertInput, Dict.get?_insert] at hrow
    split at hrow
    · rename_i he
      obtain ⟨rfl, rfl⟩ := Prod.mk.inj he
      cases hrow
      exact ⟨rfl, hok rfl⟩
    · exact h y row hrow

theorem insertInputs_adds {b' : String} (items : List (String × V)) (inserted : List String)
    (hok : b' = b → ∀ item ∈ items, ok item.1 item.2) :
    Added b s (insertInputs b' items s inserted).2 ∧
      (Labelled ok b s → Labelled ok b (insertInputs b' items s inserted).2) := by
  induction items generalizing s inserted with
  | nil => exact ⟨Added.refl s, id⟩
  | cons item items ih =>
    obtain ⟨x, value⟩ := item
    have hrest : b' = b → ∀ item ∈ items, ok item.1 item.2 :=
      fun hb item hitem => hok hb item (List.mem_cons_of_mem _ hitem)
    simp only [insertInputs]
    cases hrow : s.inputs.get? (b', x) with
    | some row => exact ih inserted hrest
    | none =>
      have hfirst : Added b s (s.insertInput b' x value) ∧
          (Labelled ok b s → Labelled ok b (s.insertInput b' x value)) :=
        insertInput_adds hrow (fun hb => hok hb _ List.mem_cons_self)
      obtain ⟨hadded, hlabelled⟩ := hfirst
      obtain ⟨hadded', hlabelled'⟩ := ih (s := s.insertInput b' x value) (inserted ++ [x]) hrest
      exact ⟨hadded.trans hadded', fun h => hlabelled' (hlabelled h)⟩

end MemorySteps

/-- Of this branch's queue, the call leaves every row as it is; what it adds is as `ok` says. -/
def Call.Adds {V : Type} (ok : String → V → Prop) (b : String) : Call V → Prop
  | enqueueInput b' x value => b' = b → ok x value
  | claimInput b' .. | admitInputs b' .. | discardInputs b' .. => b' ≠ b
  | commitTransition b' tr _ => b' = b → ∀ item ∈ tr.inputs, ok item.1 item.2
  | _ => True

namespace MemorySteps

variable {V : Type} {b : String} {s s' : MemorySteps V} {ok : String → V → Prop}

theorem added_labelled (h : s'.inputs = s.inputs) :
    Added b s s' ∧ (Labelled ok b s → Labelled ok b s') := by
  refine ⟨added_inputs h, ?_⟩
  intro hs x row hrow
  rw [h] at hrow
  exact hs x row hrow

/-- A fenced write that keeps to the queue keeps to it when it is turned away. -/
theorem fenced_adds {α : Type} {w : Except StoreError α × MemorySteps V} {b' : String} {t : Nat}
    (h : Added b s w.2 ∧ (Labelled ok b s → Labelled ok b w.2)) :
    Added b s (s.fenced b' t w).2 ∧ (Labelled ok b s → Labelled ok b (s.fenced b' t w).2) := by
  rcases fenced_state (s := s) (b := b') (t := t) w with he | he
  · rw [he]
    exact ⟨Added.refl s, id⟩
  · rw [he]
    exact h

theorem marks_adds {b' : String} (status : InputStatus) (keep : InputStatus → Bool) (hb : b' ≠ b)
    (is : List String) : Added b s (is.foldl (mark status keep b') s) ∧
      (Labelled ok b s → Labelled ok b (is.foldl (mark status keep b') s)) := by
  have hrows := marks_elsewhere (s := s) status keep hb is
  constructor
  · intro x row hrow
    rw [hrows]
    exact hrow
  · intro h x row hrow
    rw [hrows] at hrow
    exact h x row hrow

theorem putAll_inputs (b' : String) (items : List (String × V)) :
    (putAll b' items s).inputs = s.inputs := by
  unfold putAll
  induction items generalizing s with
  | nil => rfl
  | cons item items ih => exact ih

theorem exec_adds [BEq V] {c : Call V} (now now' : ℚ) (h : c.Adds ok b) :
    Added b s (c.exec now now' s).2 ∧ (Labelled ok b s → Labelled ok b (c.exec now now' s).2) := by
  cases c with
  | read | listInputs => exact added_labelled rfl
  | start b' k t =>
    apply fenced_adds
    split <;> exact added_labelled rfl
  | finishEffect b' k v t =>
    apply fenced_adds
    split
    · split <;> exact added_labelled rfl
    · exact added_labelled rfl
    · exact added_labelled rfl
  | writeControl b' k v t => exact fenced_adds (added_labelled rfl)
  | forget b' k t =>
    apply fenced_adds
    split <;> exact added_labelled rfl
  | acquire b' o ttl =>
    simp only [Call.exec, acquire]
    split
    · exact added_labelled rfl
    · split
      · exact added_labelled rfl
      · split <;> exact added_labelled rfl
  | release b' o =>
    simp only [Call.exec, release]
    split
    · exact added_labelled rfl
    · split <;> exact added_labelled rfl
  | enqueueInput b' x value =>
    simp only [Call.exec, enqueueInput]
    split
    · exact added_labelled rfl
    · exact insertInput_adds ‹_› h
  | claimInput b' x t =>
    exact fenced_adds (marks_adds .claimed (fun st => st = .admitted ∨ st = .discarded) h [x])
  | admitInputs b' xs t => exact fenced_adds (marks_adds _ _ h xs)
  | discardInputs b' xs t => exact fenced_adds (marks_adds _ _ h xs)
  | commitTransition b' tr t =>
    apply fenced_adds
    split
    · exact added_labelled rfl
    · dsimp only
      split
      · exact added_labelled rfl
      · rename_i seen completed _ _
        have hqueued : Added b (putAll b' tr.controls (putAll b' completed s)) _ ∧
            (Labelled ok b (putAll b' tr.controls (putAll b' completed s)) → Labelled ok b _) :=
          insertInputs_adds tr.inputs [] h
        have hwritten : Added b s (putAll b' tr.controls (putAll b' completed s)) ∧
            (Labelled ok b s → Labelled ok b (putAll b' tr.controls (putAll b' completed s))) :=
          added_labelled (by rw [putAll_inputs, putAll_inputs])
        obtain ⟨hadded, hlabelled⟩ := hwritten
        obtain ⟨hadded', hlabelled'⟩ := hqueued
        exact ⟨hadded.trans hadded', fun hs => hlabelled' (hlabelled hs)⟩

/-- The same rows, whatever has become of them. -/
def SameRows (s s' : MemorySteps V) : Prop :=
  ∀ key, (s'.inputs.get? key).isSome = (s.inputs.get? key).isSome

theorem sameRows_inputs (h : s'.inputs = s.inputs) : SameRows s s' := by
  intro key
  rw [h]

theorem fenced_sameRows {α : Type} {w : Except StoreError α × MemorySteps V} {b' : String}
    {t : Nat} (h : SameRows s w.2) : SameRows s (s.fenced b' t w).2 := by
  rcases fenced_state (s := s) (b := b') (t := t) w with he | he
  · rw [he]
    exact sameRows_inputs rfl
  · rw [he]
    exact h

theorem marks_sameRows {b' : String} (status : InputStatus) (keep : InputStatus → Bool)
    (is : List String) : SameRows s (is.foldl (mark status keep b') s) := by
  intro key
  obtain ⟨b, j⟩ := key
  induction is generalizing s with
  | nil => rfl
  | cons i is ih =>
    rw [List.foldl_cons, ih, get?_mark, Option.isSome_map]

/-- Only `enqueue_input` and a transition that lists inputs file new rows. -/
theorem exec_sameRows [BEq V] (c : Call V) (now now' : ℚ)
    (henqueue : ∀ b x value, c ≠ .enqueueInput b x value)
    (htransition : ∀ b tr t, c = .commitTransition b tr t → tr.inputs = []) :
    SameRows s (c.exec now now' s).2 := by
  cases c with
  | read | listInputs => exact sameRows_inputs rfl
  | start b' k t =>
    apply fenced_sameRows
    split <;> exact sameRows_inputs rfl
  | finishEffect b' k v t =>
    apply fenced_sameRows
    split
    · split <;> exact sameRows_inputs rfl
    · exact sameRows_inputs rfl
    · exact sameRows_inputs rfl
  | writeControl b' k v t => exact fenced_sameRows (sameRows_inputs rfl)
  | forget b' k t =>
    apply fenced_sameRows
    split <;> exact sameRows_inputs rfl
  | acquire b' o ttl =>
    simp only [Call.exec, acquire]
    split
    · exact sameRows_inputs rfl
    · split
      · exact sameRows_inputs rfl
      · split <;> exact sameRows_inputs rfl
  | release b' o =>
    simp only [Call.exec, release]
    split
    · exact sameRows_inputs rfl
    · split <;> exact sameRows_inputs rfl
  | enqueueInput b' x value => exact absurd rfl (henqueue b' x value)
  | claimInput b' x t =>
    exact fenced_sameRows (marks_sameRows .claimed (fun st => st = .admitted ∨ st = .discarded) [x])
  | admitInputs b' xs t => exact fenced_sameRows (marks_sameRows _ _ xs)
  | discardInputs b' xs t => exact fenced_sameRows (marks_sameRows _ _ xs)
  | commitTransition b' tr t =>
    apply fenced_sameRows
    split
    · exact sameRows_inputs rfl
    · dsimp only
      split
      · exact sameRows_inputs rfl
      · apply sameRows_inputs
        rw [htransition b' tr t rfl]
        simp only [insertInputs, putAll_inputs]

end MemorySteps

end Semora.Store
