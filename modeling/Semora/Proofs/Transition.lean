import Semora.Store.Queue

/-! A transition of the ledger is all or nothing: when it is refused, and what it leaves. -/

namespace Semora.Proofs.Transition
open Semora.Lib Semora.Store MemorySteps

section
variable {V : Type}

/-- Some effect's key repeats. -/
def Repeats (tr : ExecutionTransition V) : Prop := ¬ (tr.effects.map EffectCompletion.key).Nodup

/-- Some effect's key is a control's too. -/
def Overlaps (tr : ExecutionTransition V) : Prop :=
  ∃ effect ∈ tr.effects, effect.key ∈ tr.controls.map Prod.fst

/-- The effects that are not done yet, with their values. -/
def undone (s : MemorySteps V) (b : String) (effects : List (EffectCompletion V)) :
    List (String × V) :=
  (effects.filter (fun effect => match s.step b effect.key with
    | .done _ => false
    | _ => true)).map (fun effect => (effect.key, effect.value))

/-- The ids that are not queued yet, each at its first occurrence. -/
def arrivals (s : MemorySteps V) (b : String) (inputs : List (String × V)) : List String :=
  ((inputs.map Prod.fst).filter (fun x => (s.inputs.get? (b, x)).isNone)).eraseDups

variable [BEq V]

/-- The effect is done with a different value, or it is undone and not in the state it expects. -/
def Contradicts (s : MemorySteps V) (b : String) (effect : EffectCompletion V) : Prop :=
  match s.step b effect.key with
  | .done recorded => (recorded == effect.value) = false
  | undone => undone.status ≠ effect.expected.status

instance (tr : ExecutionTransition V) : Decidable (Repeats tr) := inferInstanceAs (Decidable (¬ _))

instance (tr : ExecutionTransition V) : Decidable (Overlaps tr) :=
  inferInstanceAs (Decidable (∃ effect ∈ tr.effects, effect.key ∈ _))

instance (s : MemorySteps V) (b : String) (effect : EffectCompletion V) :
    Decidable (Contradicts s b effect) :=
  match h : s.step b effect.key with
  | .done recorded => decidable_of_iff ((recorded == effect.value) = false)
      (by simp only [Contradicts, h])
  | .absent => decidable_of_iff ("absent" ≠ effect.expected.status)
      (by simp only [Contradicts, h, Step.status])
  | .running => decidable_of_iff ("running" ≠ effect.expected.status)
      (by simp only [Contradicts, h, Step.status])

/-- What a transition is refused for. -/
def Refusable (s : MemorySteps V) (b : String) (tr : ExecutionTransition V) (t : Nat) : Prop :=
  Stale s b t ∨ Repeats tr ∨ Overlaps tr ∨ ∃ effect ∈ tr.effects, Contradicts s b effect

/-- What a transition that is let through leaves, and nothing else. -/
structure Applied (s : MemorySteps V) (b : String) (tr : ExecutionTransition V)
    (ids : List String) (s' : MemorySteps V) : Prop where
  effects : ∀ effect ∈ tr.effects, ∃ value, s'.step b effect.key = .done value ∧
    (value = effect.value ∨ s.step b effect.key = .done value ∧ (value == effect.value) = true)
  controls : ∀ item ∈ tr.controls, s'.step b item.1 = .done item.2
  queued : ∀ item ∈ tr.inputs, (s'.inputs.get? (b, item.1)).isSome
  returned : ids = arrivals s b tr.inputs ∧
    ∀ x, x ∈ ids ↔ x ∈ tr.inputs.map Prod.fst ∧ s.inputs.get? (b, x) = none
  numbered : ∀ n x, ids[n]? = some x → ∃ value, fetch x tr.inputs = some value ∧
    s'.inputs.get? (b, x) = some ⟨x, .pending, value, counter s b + n⟩
  counted : s'.inputSequence.get? b =
    if ids = [] then s.inputSequence.get? b else some (counter s b + ids.length)
  steps_frame : ∀ b' k, (b' = b → k ∉ tr.effects.map EffectCompletion.key ++ tr.controls.map Prod.fst) →
    s'.entries.get? (b', k) = s.entries.get? (b', k)
  inputs_frame : ∀ b' x, (b' = b → x ∉ ids) → s'.inputs.get? (b', x) = s.inputs.get? (b', x)
  counter_frame : ∀ b', b' ≠ b → s'.inputSequence.get? b' = s.inputSequence.get? b'
  leases_frame : s'.leases = s.leases ∧ s'.tokens = s.tokens

variable {s : MemorySteps V} {b : String}

/-! The checks. -/

theorem check_ok {effects : List (EffectCompletion V)} (seen : List String)
    (completed : List (String × V)) (hnew : ∀ effect ∈ effects, effect.key ∉ seen)
    (hnodup : (effects.map EffectCompletion.key).Nodup)
    (hmeets : ∀ effect ∈ effects, ¬ Contradicts s b effect) :
    s.checkEffects b effects seen completed =
      .ok (seen ++ effects.map EffectCompletion.key, completed ++ undone s b effects) := by
  induction effects generalizing seen completed with
  | nil => simp [checkEffects, undone]
  | cons effect effects ih =>
    obtain ⟨hfirst, hrest⟩ := List.nodup_cons.mp hnodup
    have hlater : ∀ later ∈ effects, later.key ∉ seen ++ [effect.key] := by
      intro later hmem hkey
      rcases List.mem_append.mp hkey with hkey | hkey
      · exact hnew later (List.mem_cons_of_mem _ hmem) hkey
      · rw [List.mem_singleton] at hkey
        exact hfirst (hkey ▸ List.mem_map_of_mem hmem)
    have hmeet := hmeets effect List.mem_cons_self
    have hgo := fun completed => ih _ completed hlater hrest
      (fun later hmem => hmeets later (List.mem_cons_of_mem _ hmem))
    unfold checkEffects
    rw [if_neg (hnew effect List.mem_cons_self)]
    unfold Contradicts at hmeet
    cases hstep : s.step b effect.key with
    | done recorded =>
      simp only [hstep, Bool.not_eq_false] at hmeet
      simp [hmeet, hgo, undone, hstep]
    | absent | running =>
      simp only [hstep, ne_eq, not_not] at hmeet
      simp [hmeet, hgo, undone, hstep]

theorem check_error {effects : List (EffectCompletion V)} (seen : List String)
    (completed : List (String × V))
    (h : (∃ effect ∈ effects, effect.key ∈ seen) ∨ ¬ (effects.map EffectCompletion.key).Nodup ∨
      ∃ effect ∈ effects, Contradicts s b effect) :
    ∃ error, s.checkEffects b effects seen completed = .error error := by
  induction effects generalizing seen completed with
  | nil => simp at h
  | cons effect effects ih =>
    unfold checkEffects
    by_cases hseen : effect.key ∈ seen
    · exact ⟨_, by rw [if_pos hseen]⟩
    · rw [if_neg hseen]
      by_cases hmeet : Contradicts s b effect
      · unfold Contradicts at hmeet
        cases hstep : s.step b effect.key with
        | done recorded =>
          simp only [hstep] at hmeet
          simp [hmeet]
        | absent | running =>
          simp only [hstep] at hmeet
          simp [hmeet]
      · have hlater : (∃ later ∈ effects, later.key ∈ seen ++ [effect.key]) ∨
            ¬ (effects.map EffectCompletion.key).Nodup ∨
            ∃ later ∈ effects, Contradicts s b later := by
          rcases h with ⟨later, hmem, hkey⟩ | hrepeats | ⟨later, hmem, hlater⟩
          · rcases List.mem_cons.mp hmem with rfl | hmem
            · exact absurd hkey hseen
            · exact .inl ⟨later, hmem, List.mem_append_left _ hkey⟩
          · rw [List.map_cons, List.nodup_cons, not_and_or, not_not] at hrepeats
            rcases hrepeats with hkey | hrepeats
            · obtain ⟨later, hmem, hkey⟩ := List.mem_map.mp hkey
              exact .inl ⟨later, hmem, by simp [hkey]⟩
            · exact .inr (.inl hrepeats)
          · rcases List.mem_cons.mp hmem with rfl | hmem
            · exact absurd hlater hmeet
            · exact .inr (.inr ⟨later, hmem, hlater⟩)
        unfold Contradicts at hmeet
        cases hstep : s.step b effect.key with
        | done recorded =>
          simp only [hstep, Bool.not_eq_false] at hmeet
          simpa [hmeet] using ih _ _ hlater
        | absent | running =>
          simp only [hstep, ne_eq, not_not] at hmeet
          simpa [hmeet] using ih _ _ hlater

end

section
variable {V : Type} {s : MemorySteps V} {b : String}

/-! The writes. -/

theorem putAll_other {items : List (String × V)} {b' k : String}
    (h : b' = b → k ∉ items.map Prod.fst) :
    (putAll b items s).entries.get? (b', k) = s.entries.get? (b', k) := by
  rcases entry_putAll (s := s) (b := b') (k := k) b items with hsame | ⟨hb, item, hmem, hk, -⟩
  · exact hsame
  · exact absurd (hk ▸ List.mem_map_of_mem hmem) (h hb)

theorem putAll_mem {items : List (String × V)} (hnodup : (items.map Prod.fst).Nodup)
    {k : String} {value : V} (hmem : (k, value) ∈ items) :
    (putAll b items s).step b k = .done value := by
  unfold putAll
  induction items generalizing s with
  | nil => cases hmem
  | cons item items ih =>
    obtain ⟨hfirst, hrest⟩ := List.nodup_cons.mp hnodup
    rcases List.mem_cons.mp hmem with rfl | hmem
    · have hother : (putAll b items (s.put b k (.done value))).entries.get? (b, k) = _ :=
        putAll_other (fun _ => hfirst)
      unfold putAll at hother
      simp only [List.foldl_cons, step, hother, entry_put, ↓reduceIte, Option.getD_some]
    · exact ih hrest hmem

/-! The queue. -/

theorem arrivals_old {x : String} {value : V} {row : InputRecord V}
    (h : s.inputs.get? (b, x) = some row) (items : List (String × V)) :
    arrivals s b ((x, value) :: items) = arrivals s b items := by
  simp [arrivals, h]

theorem arrivals_new {x : String} (value : V) (h : s.inputs.get? (b, x) = none)
    (items : List (String × V)) :
    arrivals s b ((x, value) :: items) = x :: arrivals (s.insertInput b x value) b items := by
  have hsame : ((items.map Prod.fst).filter (fun y => (s.inputs.get? (b, y)).isNone)).filter
      (fun y => !y == x) = (items.map Prod.fst).filter
      (fun y => ((s.insertInput b x value).inputs.get? (b, y)).isNone) := by
    rw [List.filter_filter]
    apply List.filter_congr
    intro y _
    by_cases hy : y = x
    · simp [hy, insertInput]
    · simp [hy, insertInput, Dict.get?_insert]
  simp only [arrivals, List.map_cons, List.filter_cons, h, Option.isNone_none, ↓reduceIte,
    List.eraseDups_cons, hsame]

theorem mem_arrivals {x : String} {items : List (String × V)} :
    x ∈ arrivals s b items ↔ x ∈ items.map Prod.fst ∧ s.inputs.get? (b, x) = none := by
  simp [arrivals]

theorem counter_insertInput (x : String) (value : V) :
    counter (s.insertInput b x value) b = counter s b + 1 := by
  simp [counter, insertInput]

theorem insertInputs_returned (items : List (String × V)) (inserted : List String) :
    (insertInputs b items s inserted).1 = inserted ++ arrivals s b items := by
  induction items generalizing s inserted with
  | nil => simp [insertInputs, arrivals]
  | cons item items ih =>
    obtain ⟨x, value⟩ := item
    simp only [insertInputs]
    cases hrow : s.inputs.get? (b, x) with
    | some row => rw [ih, arrivals_old hrow]
    | none => rw [ih, arrivals_new value hrow, List.append_assoc, List.singleton_append]

theorem insertInputs_frame (items : List (String × V)) (inserted : List String) {b' x : String}
    (h : b' = b → x ∉ arrivals s b items) :
    (insertInputs b items s inserted).2.inputs.get? (b', x) = s.inputs.get? (b', x) := by
  induction items generalizing s inserted with
  | nil => rfl
  | cons item items ih =>
    obtain ⟨y, value⟩ := item
    simp only [insertInputs]
    cases hrow : s.inputs.get? (b, y) with
    | some row =>
      rw [arrivals_old hrow] at h
      exact ih inserted h
    | none =>
      rw [arrivals_new value hrow] at h
      have hne : (b', x) ≠ (b, y) := by
        intro he
        obtain ⟨rfl, rfl⟩ := Prod.mk.inj he
        exact h rfl List.mem_cons_self
      rw [ih _ (fun hb hmem => h hb (List.mem_cons_of_mem _ hmem))]
      simp [insertInput, Dict.get?_insert, hne]

theorem insertInputs_counted (items : List (String × V)) (inserted : List String) :
    (insertInputs b items s inserted).2.inputSequence.get? b =
      if arrivals s b items = [] then s.inputSequence.get? b
      else some (counter s b + (arrivals s b items).length) := by
  induction items generalizing s inserted with
  | nil => simp [insertInputs, arrivals]
  | cons item items ih =>
    obtain ⟨x, value⟩ := item
    simp only [insertInputs]
    cases hrow : s.inputs.get? (b, x) with
    | some row => rw [ih, arrivals_old hrow]
    | none =>
      rw [ih, arrivals_new value hrow, counter_insertInput, if_neg (List.cons_ne_nil _ _)]
      split
      · rename_i hnil
        rw [hnil]
        simp [insertInput, counter]
      · simp only [List.length_cons]
        congr 1
        omega

theorem insertInputs_counters (items : List (String × V)) (inserted : List String) {b' : String}
    (h : b' ≠ b) :
    (insertInputs b items s inserted).2.inputSequence.get? b' = s.inputSequence.get? b' := by
  induction items generalizing s inserted with
  | nil => rfl
  | cons item items ih =>
    obtain ⟨x, value⟩ := item
    simp only [insertInputs]
    split
    · exact ih inserted
    · rw [ih]
      simp [insertInput, Dict.get?_insert, h]

/-- New inputs are numbered from the counter on, and hold what they are first listed with. -/
theorem insertInputs_numbered (items : List (String × V)) (inserted : List String) {n : Nat}
    {x : String} (h : (arrivals s b items)[n]? = some x) : ∃ value, fetch x items = some value ∧
    (insertInputs b items s inserted).2.inputs.get? (b, x) =
      some ⟨x, .pending, value, counter s b + n⟩ := by
  induction items generalizing s inserted n with
  | nil => simp [arrivals] at h
  | cons item items ih =>
    obtain ⟨y, value⟩ := item
    simp only [insertInputs]
    cases hrow : s.inputs.get? (b, y) with
    | some row =>
      rw [arrivals_old hrow] at h
      have hnew := (mem_arrivals.mp (List.mem_of_getElem? h)).2
      have hne : x ≠ y := by
        intro he
        rw [he, hrow] at hnew
        cases hnew
      obtain ⟨value', hvalue, hafter⟩ := ih inserted h
      exact ⟨value', by simpa [fetch, hne] using hvalue, hafter⟩
    | none =>
      rw [arrivals_new value hrow] at h
      cases n with
      | zero =>
        simp only [List.getElem?_cons_zero, Option.some.injEq] at h
        subst h
        have hold : y ∉ arrivals (s.insertInput b y value) b items := by
          intro hmem
          have hnone := (mem_arrivals.mp hmem).2
          simp [insertInput] at hnone
        refine ⟨value, by simp [fetch], ?_⟩
        rw [insertInputs_frame _ _ (fun _ => hold)]
        simp [insertInput, counter]
      | succ n =>
        simp only [List.getElem?_cons_succ] at h
        have hnew := (mem_arrivals.mp (List.mem_of_getElem? h)).2
        have hne : x ≠ y := by
          intro he
          simp [he, insertInput] at hnew
        obtain ⟨value', hvalue, hafter⟩ := ih (s := s.insertInput b y value) (inserted ++ [y]) h
        refine ⟨value', by simpa [fetch, hne] using hvalue, ?_⟩
        rw [hafter, counter_insertInput]
        congr 2
        omega

/-! Numbers are handed out once. -/

/-- Every queued input was numbered before the counter got where it is. -/
def Numbered (s : MemorySteps V) : Prop :=
  ∀ b x row, s.inputs.get? (b, x) = some row → row.sequence < counter s b

theorem Numbered.same {s' : MemorySteps V} (h : Numbered s) (hinputs : s'.inputs = s.inputs)
    (hcounter : s'.inputSequence = s.inputSequence) : Numbered s' := by
  intro b x row hrow
  rw [hinputs] at hrow
  have hlt := h b x row hrow
  unfold counter at hlt ⊢
  rwa [hcounter]

theorem Numbered.mark (h : Numbered s) (status : InputStatus) (keep : InputStatus → Bool)
    (b' i : String) : Numbered (mark status keep b' s i) := by
  intro b x row hrow
  rw [get?_mark] at hrow
  obtain ⟨old, hold, rfl⟩ := Option.map_eq_some_iff.mp hrow
  have hlt := h b x old hold
  have hcounter : counter (MemorySteps.mark status keep b' s i) b = counter s b := by
    unfold MemorySteps.mark counter
    split
    · rfl
    · split <;> rfl
  rw [hcounter]
  split <;> exact hlt

theorem Numbered.marks (h : Numbered s) (status : InputStatus) (keep : InputStatus → Bool)
    (b' : String) (is : List String) : Numbered (is.foldl (MemorySteps.mark status keep b') s) := by
  induction is generalizing s with
  | nil => exact h
  | cons i is ih => exact ih (h.mark status keep b' i)

theorem Numbered.insertInput (h : Numbered s) {b' x : String} {value : V} :
    Numbered (s.insertInput b' x value) := by
  intro b y row hrow
  simp only [MemorySteps.insertInput, Dict.get?_insert] at hrow
  by_cases hb : b = b'
  · subst hb
    rw [counter_insertInput]
    split at hrow
    · cases hrow
      exact Nat.lt_succ_self _
    · exact Nat.lt_succ_of_lt (h b y row hrow)
  · have hcounter : counter (s.insertInput b' x value) b = counter s b := by
      simp [counter, MemorySteps.insertInput, Dict.get?_insert, hb]
    rw [hcounter]
    rw [if_neg (fun he => hb (Prod.mk.inj he).1)] at hrow
    exact h b y row hrow

theorem Numbered.insertInputs (h : Numbered s) {b' : String} (items : List (String × V))
    (inserted : List String) : Numbered (insertInputs b' items s inserted).2 := by
  induction items generalizing s inserted with
  | nil => exact h
  | cons item items ih =>
    simp only [MemorySteps.insertInputs]
    split
    · exact ih h inserted
    · exact ih h.insertInput _

variable [BEq V]

theorem Numbered.exec (h : Numbered s) (c : Call V) (now now' : ℚ) :
    Numbered (c.exec now now' s).2 := by
  have hfenced : ∀ {α : Type} {w : Except StoreError α × MemorySteps V} {b' : String} {t : Nat},
      Numbered w.2 → Numbered (s.fenced b' t w).2 := by
    intro α w b' t hw
    rcases fenced_state (s := s) (b := b') (t := t) w with he | he
    · rwa [he]
    · rwa [he]
  cases c with
  | read | listInputs => exact h
  | start b' k t =>
    apply hfenced
    split
    · exact h
    · exact h.same rfl rfl
  | finishEffect b' k v t =>
    apply hfenced
    split
    · split <;> exact h
    · exact h
    · exact h.same rfl rfl
  | writeControl b' k v t => exact hfenced (h.same rfl rfl)
  | forget b' k t =>
    apply hfenced
    split
    · exact h
    · exact h.same rfl rfl
  | acquire b' o ttl =>
    simp only [Call.exec, acquire]
    split
    · exact h.same rfl rfl
    · split
      · exact h.same rfl rfl
      · split
        · exact h.same rfl rfl
        · exact h
  | release b' o =>
    simp only [Call.exec, release]
    split
    · exact h
    · split
      · exact h.same rfl rfl
      · exact h
  | enqueueInput b' x value =>
    simp only [Call.exec, enqueueInput]
    split
    · exact h
    · exact h.insertInput
  | claimInput b' x t => exact hfenced (h.mark _ _ b' x)
  | admitInputs b' xs t => exact hfenced (h.marks _ _ b' xs)
  | discardInputs b' xs t => exact hfenced (h.marks _ _ b' xs)
  | commitTransition b' tr t =>
    apply hfenced
    split
    · exact h
    · dsimp only
      split
      · exact h
      · have hsequence : ∀ (items : List (String × V)) (s : MemorySteps V),
            (putAll b' items s).inputSequence = s.inputSequence := by
          intro items
          unfold putAll
          induction items with
          | nil => exact fun _ => rfl
          | cons item items ih => exact fun s => ih _
        apply Numbered.insertInputs
        apply h.same
        · rw [putAll_inputs, putAll_inputs]
        · rw [hsequence, hsequence]

theorem run_numbered {events : List (Event V)} (run : Run {} events s) : Numbered s := by
  generalize hs : ({} : MemorySteps V) = s₀ at run
  induction run with
  | nil =>
    subst hs
    intro b x row hrow
    simp at hrow
  | @call t u events c now now' reply run later order done ih =>
    have hu : u = (c.exec now now' t).2 := by rw [done]
    rw [hu]
    exact ih.exec c now now'

/-! The whole transition. -/

theorem refused {tr : ExecutionTransition V} {t : Nat} (h : Refusable s b tr t) :
    ∃ error, s.commitTransition b tr t = (.error error, s) := by
  unfold commitTransition
  by_cases hstale : Stale s b t
  · exact ⟨_, fenced_stale hstale.1 hstale.2⟩
  · have hcurrent : t = 0 ∨ s.issued b ≤ t := by
      unfold Stale at hstale
      omega
    rw [fenced_ok hcurrent]
    by_cases hchecks : Repeats tr ∨ ∃ effect ∈ tr.effects, Contradicts s b effect
    · obtain ⟨error, herror⟩ := check_error [] [] (.inr hchecks)
      exact ⟨error, by rw [herror]⟩
    · rw [not_or] at hchecks
      obtain ⟨hnodup, hmeets⟩ := hchecks
      have hok := check_ok (s := s) (b := b) [] [] (by simp)
        (not_not.mp hnodup) (fun effect hmem hbad => hmeets ⟨effect, hmem, hbad⟩)
      rw [hok]
      rcases h with h | h | ⟨effect, hmem, hkey⟩ | h
      · exact absurd h hstale
      · exact absurd h hnodup
      · have hoverlap : (tr.effects.map EffectCompletion.key).filter
            (fun key => key ∈ tr.controls.map Prod.fst) ≠ [] := by
          apply List.ne_nil_of_mem (a := effect.key)
          exact List.mem_filter.mpr ⟨List.mem_map_of_mem hmem, by simpa using hkey⟩
        simp only [List.nil_append]
        rw [if_pos hoverlap]
        exact ⟨_, rfl⟩
      · exact absurd h hmeets

/-- The ledger once the steps are written, before the inputs are. -/
def written (s : MemorySteps V) (b : String) (tr : ExecutionTransition V) : MemorySteps V :=
  putAll b tr.controls (putAll b (undone s b tr.effects) s)

omit [BEq V] in
theorem undone_done {effects : List (EffectCompletion V)} {key : String} {value : V}
    (h : s.step b key = .done value) : key ∉ (undone s b effects).map Prod.fst := by
  intro hmem
  obtain ⟨item, hitem, rfl⟩ := List.mem_map.mp hmem
  obtain ⟨effect, heffect, rfl⟩ := List.mem_map.mp hitem
  have hopen := (List.mem_filter.mp heffect).2
  simp [h] at hopen

omit [BEq V] in
theorem undone_keys (effects : List (EffectCompletion V)) :
    List.Sublist ((undone s b effects).map Prod.fst) (effects.map EffectCompletion.key) := by
  have hkeys : (undone s b effects).map Prod.fst = (effects.filter (fun effect =>
      match s.step b effect.key with
      | .done _ => false
      | _ => true)).map EffectCompletion.key := by
    simp [undone, Function.comp_def]
  rw [hkeys]
  exact List.filter_sublist.map _

omit [BEq V] in
theorem written_rows (tr : ExecutionTransition V) :
    (written s b tr).inputs = s.inputs ∧ (written s b tr).inputSequence = s.inputSequence ∧
      (written s b tr).leases = s.leases ∧ (written s b tr).tokens = s.tokens := by
  have hput : ∀ (items : List (String × V)) (s : MemorySteps V),
      (putAll b items s).inputs = s.inputs ∧ (putAll b items s).inputSequence = s.inputSequence ∧
        (putAll b items s).leases = s.leases ∧ (putAll b items s).tokens = s.tokens := by
    intro items
    unfold putAll
    induction items with
    | nil => exact fun _ => ⟨rfl, rfl, rfl, rfl⟩
    | cons item items ih => exact fun s => ih _
  unfold written
  obtain ⟨h₁, h₂, h₃, h₄⟩ := hput (undone s b tr.effects) s
  obtain ⟨h₁', h₂', h₃', h₄'⟩ := hput tr.controls (putAll b (undone s b tr.effects) s)
  exact ⟨h₁'.trans h₁, h₂'.trans h₂, h₃'.trans h₃, h₄'.trans h₄⟩

omit [BEq V] in
/-- What is asked of the queue does not depend on the steps. -/
theorem arrivals_written (tr : ExecutionTransition V) (inputs : List (String × V)) :
    arrivals (written s b tr) b inputs = arrivals s b inputs ∧
      counter (written s b tr) b = counter s b := by
  obtain ⟨hinputs, hsequence, -, -⟩ := written_rows (s := s) (b := b) tr
  simp only [arrivals, counter, hinputs, hsequence, and_self]

theorem applied_insertInputs {tr : ExecutionTransition V}
    (hnodup : (tr.effects.map EffectCompletion.key).Nodup) (hoverlap : ¬ Overlaps tr)
    (hmeets : ¬ ∃ effect ∈ tr.effects, Contradicts s b effect)
    (mapping : (tr.controls.map Prod.fst).Nodup) :
    Applied s b tr (insertInputs b tr.inputs (written s b tr) []).1
      (insertInputs b tr.inputs (written s b tr) []).2 := by
  have hreturned : (insertInputs b tr.inputs (written s b tr) []).1 = arrivals s b tr.inputs := by
    rw [insertInputs_returned, (arrivals_written tr _).1, List.nil_append]
  have hsteps : ∀ b' k, (insertInputs b tr.inputs (written s b tr) []).2.step b' k =
      (written s b tr).step b' k := by
    intro b' k
    unfold step
    rw [insertInputs_entries]
  have hnumbered : ∀ n x, (arrivals s b tr.inputs)[n]? = some x →
      ∃ value, fetch x tr.inputs = some value ∧
        (insertInputs b tr.inputs (written s b tr) []).2.inputs.get? (b, x) =
          some ⟨x, .pending, value, counter s b + n⟩ := by
    intro n x hx
    rw [← (arrivals_written tr _).1] at hx
    rw [← (arrivals_written tr tr.inputs).2]
    exact insertInputs_numbered _ [] hx
  have hframe : ∀ b' x, (b' = b → x ∉ arrivals s b tr.inputs) →
      (insertInputs b tr.inputs (written s b tr) []).2.inputs.get? (b', x) =
        s.inputs.get? (b', x) := by
    intro b' x hx
    rw [← (arrivals_written tr _).1] at hx
    rw [insertInputs_frame _ _ hx, (written_rows tr).1]
  constructor
  case effects =>
    intro effect hmem
    have hkey : effect.key ∉ tr.controls.map Prod.fst := fun hkey => hoverlap ⟨effect, hmem, hkey⟩
    have hmeet : ¬ Contradicts s b effect := fun hbad => hmeets ⟨effect, hmem, hbad⟩
    have hcontrols : (written s b tr).step b effect.key =
        (putAll b (undone s b tr.effects) s).step b effect.key := by
      unfold written step
      rw [putAll_other (fun _ => hkey)]
    rw [hsteps, hcontrols]
    cases hstep : s.step b effect.key with
    | done recorded =>
      unfold Contradicts at hmeet
      simp only [hstep, Bool.not_eq_false] at hmeet
      refine ⟨recorded, ?_, .inr ⟨rfl, hmeet⟩⟩
      unfold step at hstep ⊢
      rwa [putAll_other (fun _ => undone_done hstep)]
    | absent | running =>
      refine ⟨effect.value, ?_, .inl rfl⟩
      apply putAll_mem (hnodup.sublist (undone_keys _))
      apply List.mem_map.mpr
      exact ⟨effect, List.mem_filter.mpr ⟨hmem, by simp [hstep]⟩, rfl⟩
  case controls =>
    intro item hmem
    rw [hsteps]
    exact putAll_mem mapping hmem
  case queued =>
    intro item hmem
    cases hrow : s.inputs.get? (b, item.1) with
    | some row =>
      rw [hframe b item.1]
      · simp [hrow]
      · intro _ hnew
        rw [(mem_arrivals.mp hnew).2] at hrow
        cases hrow
    | none =>
      have hnew : item.1 ∈ arrivals s b tr.inputs :=
        mem_arrivals.mpr ⟨List.mem_map_of_mem hmem, hrow⟩
      obtain ⟨n, hn⟩ := List.getElem?_of_mem hnew
      obtain ⟨value, -, hafter⟩ := hnumbered n item.1 hn
      simp [hafter]
  case returned =>
    rw [hreturned]
    exact ⟨rfl, fun x => mem_arrivals⟩
  case numbered =>
    rw [hreturned]
    exact hnumbered
  case counted =>
    rw [hreturned, insertInputs_counted, (arrivals_written tr _).1, (arrivals_written tr tr.inputs).2,
      (written_rows tr).2.1]
  case steps_frame =>
    intro b' k hk
    rw [insertInputs_entries]
    unfold written
    rw [putAll_other, putAll_other]
    · intro hb hmem
      exact hk hb (List.mem_append_left _ ((undone_keys _).subset hmem))
    · intro hb hmem
      exact hk hb (List.mem_append_right _ hmem)
  case inputs_frame =>
    rw [hreturned]
    exact hframe
  case counter_frame =>
    intro b' hb
    rw [insertInputs_counters _ _ hb, (written_rows tr).2.1]
  case leases_frame =>
    obtain ⟨htokens, hleases⟩ := insertInputs_same (s := written s b tr) (b := b) tr.inputs []
    exact ⟨hleases.trans (written_rows tr).2.2.1, htokens.trans (written_rows tr).2.2.2⟩

theorem applied {tr : ExecutionTransition V} {t : Nat} (h : ¬ Refusable s b tr t)
    (mapping : (tr.controls.map Prod.fst).Nodup) :
    ∃ ids s', s.commitTransition b tr t = (.ok ids, s') ∧ Applied s b tr ids s' := by
  unfold Refusable at h
  simp only [not_or] at h
  obtain ⟨hstale, hnodup, hoverlap, hmeets⟩ := h
  have hcurrent : t = 0 ∨ s.issued b ≤ t := by
    unfold Stale at hstale
    omega
  have hok := check_ok (s := s) (b := b) [] [] (by simp)
    (not_not.mp hnodup) (fun effect hmem hbad => hmeets ⟨effect, hmem, hbad⟩)
  have hnone : (tr.effects.map EffectCompletion.key).filter
      (fun key => key ∈ tr.controls.map Prod.fst) = [] := by
    apply List.filter_eq_nil_iff.mpr
    intro key hmem hkey
    obtain ⟨effect, heffect, rfl⟩ := List.mem_map.mp hmem
    exact hoverlap ⟨effect, heffect, by simpa using hkey⟩
  have hcommit : s.commitTransition b tr t =
      (.ok (insertInputs b tr.inputs (written s b tr) []).1,
        (insertInputs b tr.inputs (written s b tr) []).2) := by
    unfold commitTransition
    rw [fenced_ok hcurrent, hok]
    simp only [List.nil_append]
    rw [if_neg (not_not.mpr hnone)]
    rfl
  exact ⟨_, _, hcommit, applied_insertInputs (not_not.mp hnodup) hoverlap hmeets mapping⟩

/-- A transition is refused for exactly these reasons, and then nothing has changed; or it is
applied as a whole, and in a state some run leads to the numbers it hands out are new. -/
theorem all_or_nothing (s : MemorySteps V) (b : String) (tr : ExecutionTransition V) (t : Nat)
    (mapping : (tr.controls.map Prod.fst).Nodup) :
    ((∃ error, (s.commitTransition b tr t).1 = .error error) ↔ Refusable s b tr t) ∧
      (∀ error, (s.commitTransition b tr t).1 = .error error →
        (s.commitTransition b tr t).2 = s) ∧
      ∀ ids, (s.commitTransition b tr t).1 = .ok ids →
        Applied s b tr ids (s.commitTransition b tr t).2 ∧
          ∀ events, Run {} events s → ∀ x row, s.inputs.get? (b, x) = some row →
            row.sequence < counter s b := by
  have hfresh : ∀ events, Run {} events s → ∀ x row, s.inputs.get? (b, x) = some row →
      row.sequence < counter s b := fun events run => run_numbered run b
  by_cases hrefused : Refusable s b tr t
  · obtain ⟨error, herror⟩ := refused hrefused
    rw [herror]
    refine ⟨⟨fun _ => hrefused, fun _ => ⟨error, rfl⟩⟩, fun _ _ => rfl, ?_⟩
    intro ids hids
    cases hids
  · obtain ⟨ids, s', hcommit, happlied⟩ := applied hrefused mapping
    rw [hcommit]
    refine ⟨⟨?_, fun h => absurd h hrefused⟩, ?_, ?_⟩
    · intro ⟨error, herror⟩
      cases herror
    · intro error herror
      cases herror
    · intro ids' hids
      cases hids
      exact ⟨happlied, hfresh⟩

/-- An effect, a control and a batch that queues an input twice. -/
theorem all_or_nothing_batch :
    Applied (V := Nat) {} "b" ⟨[⟨"tool:1", 7, .absent⟩], [("run", 2)], [("x", 3), ("y", 4), ("x", 5)]⟩
      ["x", "y"] (({} : MemorySteps Nat).commitTransition "b"
        ⟨[⟨"tool:1", 7, .absent⟩], [("run", 2)], [("x", 3), ("y", 4), ("x", 5)]⟩ 0).2 :=
  ((all_or_nothing {} "b" ⟨[⟨"tool:1", 7, .absent⟩], [("run", 2)],
    [("x", 3), ("y", 4), ("x", 5)]⟩ 0 (by decide)).2.2 ["x", "y"] (by decide +kernel)).1

end

end Semora.Proofs.Transition
