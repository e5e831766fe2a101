import Mathlib.Data.List.Range
import Semora.Store.Queue

/-! What becomes of input rows, whatever the calls: each stands where it was inserted, and its
status only moves on. -/

namespace Semora.Proofs.Inputs
open Semora.Lib Semora.Store MemorySteps

variable {V : Type} {s s' s'' : MemorySteps V} {arrived : List (String × String)}

/-- How far a status is along. -/
def rank : InputStatus → Nat
  | .pending => 0
  | .claimed => 1
  | .admitted => 2
  | .discarded => 3

/-- The rows that a call has inserted, by its reply. -/
def inserts : Event V → List (String × String)
  | ⟨.enqueueInput b x _, _, _, _, _, .ok true⟩ => [(b, x)]
  | ⟨.commitTransition b _ _, _, _, _, _, .ok inserted⟩ => inserted.map (fun x => (b, x))
  | _ => []

/-- The rows stand in the order of their arrival, and each branch counts its own. -/
structure Queued (arrived : List (String × String)) (s : MemorySteps V) : Prop where
  labelled : ∀ item ∈ s.inputs.items, item.2.inputId = item.1.2
  ordered : s.inputs.items.map Prod.fst = arrived
  counted : ∀ b,
    (s.inputs.items.filter (fun item => item.1.1 = b)).map (fun item => item.2.sequence) =
      List.range (counter s b)

/-- No row is lost, renumbered, holds another value or is less far along. -/
def Onward (s s' : MemorySteps V) : Prop :=
  ∀ b x row, s.inputs.get? (b, x) = some row → ∃ row', s'.inputs.get? (b, x) = some row' ∧
    row'.value = row.value ∧ row'.sequence = row.sequence ∧ rank row.status ≤ rank row'.status

theorem Onward.refl (s : MemorySteps V) : Onward s s :=
  fun _ _ row hrow => ⟨row, hrow, rfl, rfl, Nat.le_refl _⟩

theorem Onward.trans (h : Onward s s') (h' : Onward s' s'') : Onward s s'' := by
  intro b x row hrow
  obtain ⟨row', hrow', hvalue, hsequence, hrank⟩ := h b x row hrow
  obtain ⟨row'', hrow'', hvalue', hsequence', hrank'⟩ := h' b x row' hrow'
  exact ⟨row'', hrow'', hvalue'.trans hvalue, hsequence'.trans hsequence, hrank.trans hrank'⟩

theorem onward_added (h : ∀ b, Added b s s') : Onward s s' :=
  fun b x row hrow => ⟨row, h b x row hrow, rfl, rfl, Nat.le_refl _⟩

/-- What one operation makes of the queues: these rows arrive behind the others. -/
structure Moves (added : List (String × String)) (s s' : MemorySteps V) : Prop where
  queued : ∀ arrived, Queued arrived s → Queued (arrived ++ added) s'
  onward : Onward s s'

theorem moves_same (hinputs : s'.inputs = s.inputs) (hcount : s'.inputSequence = s.inputSequence) :
    Moves [] s s' where
  queued := by
    intro arrived h
    have hcounter : counter s' = counter s := by
      funext b
      rw [counter, hcount, counter]
    rw [List.append_nil]
    constructor
    · rw [hinputs]
      exact h.labelled
    · rw [hinputs]
      exact h.ordered
    · rw [hinputs, hcounter]
      exact h.counted
  onward := onward_added (fun _ => added_inputs hinputs)

theorem Moves.refl (s : MemorySteps V) : Moves [] s s := moves_same rfl rfl

theorem Moves.trans {added added' : List (String × String)} (h : Moves added s s')
    (h' : Moves added' s' s'') : Moves (added ++ added') s s'' where
  queued := by
    intro arrived hs
    rw [← List.append_assoc]
    exact h'.queued _ (h.queued arrived hs)
  onward := h.onward.trans h'.onward

/-! Inserting. -/

theorem added_insertInput {b x : String} (value : V) (hnew : s.inputs.get? (b, x) = none)
    (b' : String) : Added b' s (s.insertInput b x value) := by
  have hadds : Added b' s (s.insertInput b x value) ∧
      (Labelled (fun _ _ => True) b' s → Labelled (fun _ _ => True) b' (s.insertInput b x value)) :=
    insertInput_adds hnew (fun _ => trivial)
  exact hadds.1

theorem moves_insertInput {b x : String} (value : V) (hnew : s.inputs.get? (b, x) = none) :
    Moves [(b, x)] s (s.insertInput b x value) where
  queued := by
    intro arrived h
    have hitems : (s.insertInput b x value).inputs.items =
        s.inputs.items ++ [((b, x), ⟨x, .pending, value, counter s b⟩)] :=
      s.inputs.items_insert_new _ hnew
    constructor
    · intro item hitem
      rw [hitems] at hitem
      rcases List.mem_append.mp hitem with hold | hnew
      · exact h.labelled item hold
      · rw [List.mem_singleton.mp hnew]
    · rw [hitems, List.map_append, h.ordered]
      rfl
    · intro b'
      rw [hitems, List.filter_append, List.map_append, h.counted b']
      by_cases hb : b = b'
      · subst hb
        simp [counter, insertInput, List.range_succ]
      · simp [counter, insertInput, hb, Dict.get?_insert_ne _ _ (Ne.symm hb)]
  onward := onward_added (added_insertInput value hnew)

/-- The insertion loop reports what it inserts behind what it has inserted. -/
theorem moves_insertInputs {b : String} (items : List (String × V)) (inserted : List String) :
    ∃ more, (insertInputs b items s inserted).1 = inserted ++ more ∧
      Moves (more.map (fun x => (b, x))) s (insertInputs b items s inserted).2 := by
  induction items generalizing s inserted with
  | nil => exact ⟨[], (List.append_nil _).symm, .refl s⟩
  | cons item items ih =>
    obtain ⟨x, value⟩ := item
    simp only [insertInputs]
    cases hrow : s.inputs.get? (b, x) with
    | some row => exact ih inserted
    | none =>
      obtain ⟨more, hmore, hmoves⟩ := ih (s := s.insertInput b x value) (inserted ++ [x])
      refine ⟨x :: more, ?_, (moves_insertInput value hrow).trans hmoves⟩
      rw [hmore, List.append_assoc, List.singleton_append]

/-! Marking. -/

theorem items_mark (status : InputStatus) (keep : InputStatus → Bool) (b i : String) :
    (mark status keep b s i).inputs.items = s.inputs.items.map (fun item =>
      if item.1 = (b, i) ∧ keep item.2.status = false then
        (item.1, ⟨i, status, item.2.value, item.2.sequence⟩)
      else item) := by
  have hrow : ∀ item ∈ s.inputs.items, item.1 = (b, i) → s.inputs.get? (b, i) = some item.2 :=
    fun item hitem hk => (s.inputs.mem_items _ _).mpr (hk ▸ hitem)
  unfold mark
  split
  · rename_i hnone
    symm
    rw [List.map_congr_left (g := id) ?_, List.map_id]
    intro item hitem
    refine if_neg (fun hmarked => ?_)
    rw [hrow item hitem hmarked.1] at hnone
    cases hnone
  · rename_i row hsome
    split
    · rename_i hkeep
      symm
      rw [List.map_congr_left (g := id) ?_, List.map_id]
      intro item hitem
      refine if_neg (fun hmarked => ?_)
      rw [hrow item hitem hmarked.1] at hsome
      rw [Option.some.inj hsome, hkeep] at hmarked
      cases hmarked.2
    · rename_i hkeep
      dsimp only
      rw [s.inputs.items_insert_old _ hsome]
      apply List.map_congr_left
      intro item hitem
      by_cases hk : item.1 = (b, i)
      · have hitem' := hrow item hitem hk
        rw [hsome] at hitem'
        cases hitem'
        rw [if_pos hk, if_pos ⟨hk, Bool.eq_false_iff.mpr hkeep⟩, hk]
      · rw [if_neg hk, if_neg (fun hmarked => hk hmarked.1)]

/-- What spares the rows that are further along moves the others on. -/
theorem moves_mark {status : InputStatus} {keep : InputStatus → Bool}
    (h : ∀ st : InputStatus, keep st = false → rank st ≤ rank status) (b i : String) :
    Moves [] s (mark status keep b s i) where
  queued := by
    intro arrived hs
    have hcounter : counter (mark status keep b s i) = counter s := by
      funext b'
      unfold mark
      split
      · rfl
      · split <;> rfl
    rw [List.append_nil]
    constructor
    · intro item hitem
      rw [items_mark] at hitem
      obtain ⟨old, hold, rfl⟩ := List.mem_map.mp hitem
      split
      · rename_i hmarked
        rw [hmarked.1]
      · exact hs.labelled old hold
    · rw [items_mark, List.map_map, ← hs.ordered]
      apply List.map_congr_left
      intro item _
      dsimp only [Function.comp]
      split <;> rfl
    · intro b'
      rw [items_mark, List.filter_map, List.map_map, hcounter, ← hs.counted b']
      have hsame : ∀ item : (String × String) × InputRecord V,
          (if item.1 = (b, i) ∧ keep item.2.status = false then
            (item.1, (⟨i, status, item.2.value, item.2.sequence⟩ : InputRecord V))
          else item).1 = item.1 := by
        intro item
        split <;> rfl
      simp only [Function.comp_def, hsame]
      apply List.map_congr_left
      intro item _
      split <;> rfl
  onward := by
    intro b' x row hrow
    rw [get?_mark, hrow]
    refine ⟨_, rfl, ?_⟩
    dsimp only
    split
    · rename_i hmarked
      exact ⟨rfl, rfl, h row.status hmarked.2⟩
    · exact ⟨rfl, rfl, Nat.le_refl _⟩

theorem moves_marks {status : InputStatus} {keep : InputStatus → Bool}
    (h : ∀ st : InputStatus, keep st = false → rank st ≤ rank status) (b : String)
    (is : List String) : Moves [] s (is.foldl (mark status keep b) s) := by
  induction is generalizing s with
  | nil => exact .refl s
  | cons i is ih => exact (moves_mark h b i).trans ih

/-! One call. -/

theorem fenced_moves {α : Type} {w : Except StoreError α × MemorySteps V} {b : String} {t : Nat}
    (h : Moves [] s w.2) : Moves [] s (s.fenced b t w).2 := by
  rcases fenced_state (s := s) (b := b) (t := t) w with he | he
  · rw [he]
    exact .refl s
  · rw [he]
    exact h

theorem putAll_inputSequence (b : String) (items : List (String × V)) :
    (putAll b items s).inputSequence = s.inputSequence := by
  unfold putAll
  induction items generalizing s with
  | nil => rfl
  | cons item items ih => exact ih

theorem moves_exec [BEq V] (c : Call V) (now now' : ℚ) (s : MemorySteps V) :
    Moves (inserts ⟨c, now, now', s, (c.exec now now' s).2, (c.exec now now' s).1⟩) s
      (c.exec now now' s).2 := by
  cases c with
  | read | listInputs => exact .refl s
  | start b k t =>
    apply fenced_moves
    split <;> exact moves_same rfl rfl
  | finishEffect b k v t =>
    apply fenced_moves
    split
    · split <;> exact .refl s
    · exact .refl s
    · exact moves_same rfl rfl
  | writeControl b k v t => exact fenced_moves (moves_same rfl rfl)
  | forget b k t =>
    apply fenced_moves
    split <;> exact moves_same rfl rfl
  | acquire b o ttl =>
    simp only [Call.exec, acquire]
    split
    · exact moves_same rfl rfl
    · split
      · exact moves_same rfl rfl
      · split <;> exact moves_same rfl rfl
  | release b o =>
    simp only [Call.exec, release]
    split
    · exact .refl s
    · split <;> exact moves_same rfl rfl
  | enqueueInput b x value =>
    simp only [Call.exec, enqueueInput]
    split
    · exact .refl s
    · exact moves_insertInput value ‹_›
  | claimInput b x t =>
    have hmark : Moves [] s
        (mark .claimed (fun st => st = .admitted ∨ st = .discarded) b s x) := by
      refine moves_mark (fun st hst => ?_) b x
      cases st <;> simp [rank] at hst ⊢
    exact fenced_moves hmark
  | admitInputs b xs t =>
    refine fenced_moves (moves_marks (fun st hst => ?_) b xs)
    cases st <;> simp [rank] at hst ⊢
  | discardInputs b xs t =>
    refine fenced_moves (moves_marks (fun st _ => ?_) b xs)
    cases st <;> simp [rank]
  | commitTransition b tr t =>
    simp only [Call.exec, commitTransition, fenced]
    split
    · exact .refl s
    · split
      · exact .refl s
      · split
        · exact .refl s
        · rename_i seen completed _ _
          obtain ⟨more, hmore, hmoves⟩ := moves_insertInputs (b := b)
            (s := putAll b tr.controls (putAll b completed s)) tr.inputs []
          rw [List.nil_append] at hmore
          dsimp only [inserts]
          rw [hmore]
          have hwritten : Moves [] s (putAll b tr.controls (putAll b completed s)) := by
            apply moves_same
            · rw [putAll_inputs, putAll_inputs]
            · rw [putAll_inputSequence, putAll_inputSequence]
          exact hwritten.trans hmoves

/-! Runs. -/

/-- The rows in the order of their arrival, by the replies of a run. -/
def arrivals (events : List (Event V)) : List (String × String) := events.flatMap inserts

theorem moves_run [BEq V] (calls : List (Call V × ℚ × ℚ)) (s : MemorySteps V) :
    Moves (arrivals (trace s calls)) s (final s calls) := by
  induction calls generalizing s with
  | nil => exact .refl s
  | cons timed calls ih =>
    obtain ⟨c, now, now'⟩ := timed
    exact (moves_exec c now now' s).trans (ih _)

/-- A row that is discarded stays the row it is. -/
theorem Moves.discarded {added : List (String × String)} (h : Moves added s s')
    (hs : Queued arrived s) {b x : String} {row : InputRecord V}
    (hrow : s.inputs.get? (b, x) = some row) (hstatus : row.status = .discarded) :
    s'.inputs.get? (b, x) = some row := by
  obtain ⟨row', hrow', hvalue, hsequence, hrank⟩ := h.onward b x row hrow
  have hid := hs.labelled _ ((s.inputs.mem_items _ _).mp hrow)
  have hid' := (h.queued arrived hs).labelled _ ((s'.inputs.mem_items _ _).mp hrow')
  have hstatus' : row'.status = .discarded := by
    rw [hstatus] at hrank
    cases he : row'.status <;> rw [he] at hrank <;> simp [rank] at hrank ⊢
  rw [hrow']
  obtain ⟨inputId, status, value, sequence⟩ := row
  obtain ⟨inputId', status', value', sequence'⟩ := row'
  simp only at hvalue hsequence hid hid' hstatus hstatus'
  rw [hvalue, hsequence, hid', hstatus', ← hid, hstatus]

theorem queued_empty : Queued [] ({} : MemorySteps V) where
  labelled := fun _ hitem => nomatch hitem
  ordered := rfl
  counted := fun _ => rfl

/-- The listing shows the rows of the branch as they stand. -/
theorem Queued.listInputs (h : Queued arrived s) (b : String) :
    s.listInputs b = (s.inputs.items.filter (fun item => item.1.1 = b)).map Prod.snd := by
  apply List.Pairwise.insertionSort_eq
  have hsorted := (List.pairwise_lt_range (n := counter s b)).imp (fun h => Nat.le_of_lt h)
  rw [← h.counted b, List.pairwise_map] at hsorted
  rw [List.pairwise_map]
  exact hsorted

/-- What is so of a branch's listing: the rows of this branch alone, numbered from zero without a
gap, in the order in which they arrived. -/
structure Listed (arrived : List (String × String)) (b : String) (s : MemorySteps V) : Prop where
  own : ∀ row, row ∈ s.listInputs b ↔ s.inputs.get? (b, row.inputId) = some row
  ids : (s.listInputs b).map InputRecord.inputId =
    (arrived.filter (fun row => row.1 = b)).map Prod.snd
  sequences : (s.listInputs b).map InputRecord.sequence =
    List.range (arrived.filter (fun row => row.1 = b)).length
  increasing : (s.listInputs b).Pairwise (fun row row' => row.sequence < row'.sequence)

theorem Queued.listed (h : Queued arrived s) (b : String) : Listed arrived b s := by
  have hkeys : (arrived.filter (fun row => row.1 = b)) =
      (s.inputs.items.filter (fun item => item.1.1 = b)).map Prod.fst := by
    rw [← h.ordered, List.filter_map]
    rfl
  have hsequences : (s.listInputs b).map InputRecord.sequence =
      List.range (arrived.filter (fun row => row.1 = b)).length := by
    have hcount := h.counted b
    have hlength := congrArg List.length hcount
    rw [List.length_map, List.length_range] at hlength
    rw [h.listInputs, List.map_map, hkeys, List.length_map, hlength]
    exact hcount
  refine ⟨?_, ?_, hsequences, ?_⟩
  · intro row
    rw [mem_listInputs]
    constructor
    · intro ⟨x, hx⟩
      have hid := h.labelled _ ((s.inputs.mem_items _ _).mp hx)
      dsimp only at hid
      rw [hid]
      exact hx
    · intro hrow
      exact ⟨row.inputId, hrow⟩
  · rw [h.listInputs, List.map_map, hkeys, List.map_map]
    apply List.map_congr_left
    intro item hitem
    exact h.labelled item (List.mem_of_mem_filter hitem)
  · have hrange := List.pairwise_lt_range (n := (arrived.filter (fun row => row.1 = b)).length)
    rw [← hsequences, List.pairwise_map] at hrange
    exact hrange

/-- An id that is present is not inserted again, and its row stays as it is. -/
structure Once [BEq V] (b x : String) (s : MemorySteps V) : Prop where
  enqueue : ∀ value, s.enqueueInput b x value = (false, s)
  transition : ∀ tr token inserted, (s.commitTransition b tr token).1 = .ok inserted → x ∉ inserted
  kept : ∀ tr token, (s.commitTransition b tr token).2.inputs.get? (b, x) = s.inputs.get? (b, x)

/-- The insertion loop leaves an id that is present out. -/
theorem insertInputs_present {b x : String} {row : InputRecord V} (items : List (String × V))
    (inserted : List String) (hnew : x ∉ inserted) (hrow : s.inputs.get? (b, x) = some row) :
    x ∉ (insertInputs b items s inserted).1 := by
  induction items generalizing s inserted with
  | nil => exact hnew
  | cons item items ih =>
    obtain ⟨y, value⟩ := item
    simp only [insertInputs]
    cases hy : s.inputs.get? (b, y) with
    | some row' => exact ih inserted hnew hrow
    | none =>
      have hne : x ≠ y := by
        rintro rfl
        rw [hy] at hrow
        cases hrow
      refine ih (inserted ++ [y]) (by simp [hnew, hne]) ?_
      exact added_insertInput value hy b x row hrow

theorem once [BEq V] {b x : String} {row : InputRecord V} (hrow : s.inputs.get? (b, x) = some row) :
    Once b x s where
  enqueue := by
    intro value
    simp only [enqueueInput, hrow]
  transition := by
    intro tr token inserted hreply
    unfold commitTransition fenced at hreply
    split at hreply
    · cases hreply
    · split at hreply
      · cases hreply
      · dsimp only at hreply
        split at hreply
        · cases hreply
        · rename_i seen completed _ _
          cases hreply
          have hwritten : (putAll b tr.controls (putAll b completed s)).inputs.get? (b, x) =
              some row := by
            rw [putAll_inputs, putAll_inputs]
            exact hrow
          exact insertInputs_present tr.inputs [] List.not_mem_nil hwritten
  kept := by
    intro tr token
    have hadds : (Call.commitTransition b tr token).Adds (fun _ _ => True) b :=
      fun _ _ _ => trivial
    rw [hrow]
    exact (exec_adds (s := s) 0 0 hadds).1 x row hrow

/-- Whatever is called in whatever order, input records only move forward. -/
theorem inputs_onward [BEq V] (calls later : List (Call V × ℚ × ℚ)) :
    Onward (final {} calls) (final (final {} calls) later) ∧
      (∀ b x row, (final {} calls).inputs.get? (b, x) = some row → row.status = .discarded →
        (final (final {} calls) later).inputs.get? (b, x) = some row) ∧
      (∀ b, Listed (arrivals (trace {} calls)) b (final {} calls)) ∧
      ∀ b x row, (final {} calls).inputs.get? (b, x) = some row → Once b x (final {} calls) := by
  have hqueued := (moves_run calls ({} : MemorySteps V)).queued [] queued_empty
  have hlater := moves_run later (final ({} : MemorySteps V) calls)
  rw [List.nil_append] at hqueued
  refine ⟨hlater.onward, ?_, hqueued.listed, fun b x row hrow => once hrow⟩
  intro b x row hrow hstatus
  exact hlater.discarded hqueued hrow hstatus

end Semora.Proofs.Inputs
