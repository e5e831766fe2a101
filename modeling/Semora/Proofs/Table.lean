import Semora.Runtime.Dispatch

/-! A router does what its table says: the first row that takes the command in the state of the run
and is not contended decides it, and no other row has a say in it. -/

namespace Semora.Proofs.Table
open Semora.Lib Semora.Store Dispatch

/-- A world that answers every operation, and that is not changed by being read. -/
structure Answering (σ : Type) where
  step : (o : Op) → σ → Except Exn o.Res × σ
  read : ∀ b k s, ∃ v, step (.ledger (.read b k)) s = (.ok v, s)
  readBranch : ∀ b s, ∃ v, step (.readBranch b) s = (.ok v, s)

/-- The stores at one instant, with whatever is outside. -/
def still (out : Outside) : Answering (World × Attempt) where
  step o s :=
    let done := Semora.step out o s.1 s.2
    (done.1, { done.2.1 with instant := s.1.instant }, done.2.2)
  read _ _ _ := ⟨_, rfl⟩
  readBranch _ _ := ⟨_, rfl⟩

variable {σ α : Type} (D : Answering σ) (rt : AgentRuntime) (e : Execution)

/-- What a program comes to from here, and what it leaves. -/
def Answering.does (p : Program α) (s : σ) : Except Exn α × σ := p.eval D.step s

/-- The state of the run, as it is observed here. -/
def observed (s : σ) : String :=
  match (D.does (rt.state e) s).1 with
  | .ok state => state
  | .error _ => ""

def contended {α : Type} : Except Exn α → Bool
  | .error (.store (.contended _)) => true
  | _ => false

/-- Whether a row takes the command while the run is in this state. -/
def accepts (command : Command) (state : String) (row : Transition) : Bool :=
  row.applies command && row.states.all (fun states => state ∈ states)

/-- Whether a row that takes the command declares the states it accepts. -/
def declared (rows : List Transition) (command : Command) : Bool :=
  (rows.filter (fun row => row.applies command)).any (fun row => row.states.isSome)

/-- The state that the rows are handed. -/
def shown (rows : List Transition) (command : Command) (s : σ) : Option String :=
  if declared rows command then some (observed D rt e s) else none

/-- Each of these rows raises `Contended`, one after the other; the last of them, or one before. -/
inductive Passes (command : Command) (state : Option String) :
    Option String → List Transition → σ → Option String → σ → Prop
  | nil (c s) : Passes command state c [] s c s
  | cons {c row rows s b s' c' s''}
      (busy : D.does (row.apply command state) s = (.error (.store (.contended b)), s'))
      (rest : Passes command state (some b) rows s' c' s'') :
      Passes command state c (row :: rows) s c' s''

/-- What the table says of a command. -/
inductive Decides (rows : List Transition) (command : Command) (s : σ) :
    Except Exn Applied × σ → Prop
  | won {pre row post c s' r}
      (table : rows.filter (accepts command (observed D rt e s)) = pre ++ row :: post)
      (passed : Passes D command (shown D rt e rows command s) none pre s c s')
      (done : D.does (row.apply command (shown D rt e rows command s)) s' = r)
      (decided : contended r.1 = false) : Decides rows command s r
  | lost {b s'}
      (passed : Passes D command (shown D rt e rows command s) none
        (rows.filter (accepts command (observed D rt e s))) s (some b) s') :
      Decides rows command s (.error (.store (.contended b)), s')
  | refused (table : rows.filter (accepts command (observed D rt e s)) = []) :
      Decides rows command s (D.does (invalidTransition (observed D rt e s) command) s)

section
variable {D rt e}

theorem does_bind {β : Type} (p : Program α) (f : α → Program β) (s : σ) :
    D.does (p.bind f) s =
      match D.does p s with
      | (.ok a, s') => D.does (f a) s'
      | (.error x, s') => (.error x, s') := by
  unfold Answering.does
  rw [Prog.eval_bind]
  rcases p.eval D.step s with ⟨_ | _, _⟩ <;> rfl

theorem does_tryCatch (p : Program α) (f : Exn → Program α) (s : σ) :
    D.does (p.tryCatch f) s =
      match D.does p s with
      | (.ok a, s') => (.ok a, s')
      | (.error x, s') => D.does (f x) s' := by
  unfold Answering.does
  rw [Prog.eval_tryCatch]
  rcases p.eval D.step s with ⟨_ | _, _⟩ <;> rfl

theorem does_perform (o : Op) (s : σ) : D.does (perform o) s = D.step o s :=
  Prog.eval_op D.step o s

theorem does_read (v : View) (b k : String) (s : σ) :
    ∃ st, D.does (v.read b k) s = (.ok st, s) := by
  obtain ⟨st, hread⟩ := D.read (v.filed b) k s
  exact ⟨st, (does_perform _ s).trans hread⟩

variable (D rt e) in
theorem does_active (s : σ) : ∃ parked, D.does (rt.parkedOn e) s = (.ok parked, s) := by
  unfold AgentRuntime.parkedOn
  split
  · rename_i hstore
    unfold AgentRuntime.active AgentRuntime.requireStore AgentRuntime.storeFor
    obtain ⟨st, hread⟩ := does_read (D := D) ⟨e.conversationId⟩ e.branchId
      Effects.activeSuspension s
    simp only [hstore, ↓reduceIte, Prog.pure_eq, Prog.bind_eq, Prog.ret_bind, does_bind, hread]
    exact ⟨_, rfl⟩
  · exact ⟨_, rfl⟩

theorem does_state (s : σ) : D.does (rt.state e) s = (.ok (observed D rt e s), s) := by
  have hstate : ∃ state, D.does (rt.state e) s = (.ok state, s) := by
    obtain ⟨parked, hparked⟩ := does_active D rt e s
    unfold AgentRuntime.state
    rw [Prog.bind_eq, does_bind, hparked]
    cases parked with
    | some active => exact ⟨_, rfl⟩
    | none =>
      dsimp only
      split
      · rw [Prog.bind_eq, does_bind, does_perform]
        obtain ⟨v, hread⟩ := D.readBranch e.branchId s
        rw [hread]
        cases v with
        | none => exact ⟨_, rfl⟩
        | some fields => exact ⟨_, rfl⟩
      · exact ⟨_, rfl⟩
  obtain ⟨state, hstate⟩ := hstate
  rw [observed, hstate]

/-! Offering. -/

/-- The rows of these that accept what is observed. -/
def accepting (state : String) (rows : List Transition) : List Transition :=
  rows.filter (fun row => row.states.all (fun states => state ∈ states))

theorem all_shown {state : String} {st : Option String} {row : Transition}
    (hst : st = some state ∨ row.states = none) :
    (row.states.all (fun states => st.any (fun s => s ∈ states))) =
      row.states.all (fun states => state ∈ states) := by
  cases hstates : row.states with
  | none => rfl
  | some states =>
    rcases hst with rfl | hnone
    · rfl
    · rw [hnone] at hstates
      cases hstates

variable (D rt e) in
/-- How an offer ends: with the first row that is not contended, or with none of them left. -/
theorem offer_decides (command : Command) (state : String) (st : Option String)
    (rows : List Transition)
    (hst : ∀ row ∈ rows, st = some state ∨ row.states = none) (c : Option String) (s : σ) :
    (∃ pre row post c' s', accepting state rows = pre ++ row :: post ∧
      Passes D command st c pre s c' s' ∧ contended (D.does (row.apply command st) s').1 = false ∧
      D.does (offer rt e command st rows (c.map (fun b => .store (.contended b)))) s =
        D.does (row.apply command st) s') ∨
    ∃ c' s', Passes D command st c (accepting state rows) s c' s' ∧
      D.does (offer rt e command st rows (c.map (fun b => .store (.contended b)))) s =
        match c' with
        | some b => (.error (.store (.contended b)), s')
        | none => D.does (named rt e st >>= fun state => invalidTransition state command) s' := by
  induction rows generalizing c s with
  | nil =>
    refine .inr ⟨c, s, .nil c s, ?_⟩
    cases c <;> rfl
  | cons row rows ih =>
    have hrest : ∀ row ∈ rows, st = some state ∨ row.states = none :=
      fun row hrow => hst row (List.mem_cons_of_mem _ hrow)
    have hall := all_shown (hst row List.mem_cons_self)
    unfold offer
    rw [hall]
    by_cases hopen : row.states.all (fun states => state ∈ states) = true
    · have hrows : accepting state (row :: rows) = row :: accepting state rows :=
        List.filter_cons_of_pos hopen
      rw [hrows, if_pos hopen, does_tryCatch]
      rcases hdone : D.does (row.apply command st) s with ⟨x | a, s'⟩
      · by_cases hbusy : contended (.error x : Except Exn Applied) = true
        · unfold contended at hbusy
          split at hbusy
          · rename_i b hx
            cases hx
            dsimp only
            rcases ih hrest (some b) s' with
              ⟨pre, row', post, c', s'', htable, hpassed, hkept, he⟩ | ⟨c', s'', hpassed, he⟩
            · refine .inl ⟨row :: pre, row', post, c', s'', ?_, .cons hdone hpassed, hkept, he⟩
              rw [htable, List.cons_append]
            · exact .inr ⟨c', s'', .cons hdone hpassed, he⟩
          · cases hbusy
        · refine .inl ⟨[], row, accepting state rows, c, s, rfl, .nil c s, ?_, ?_⟩
          · rw [hdone]
            simpa using hbusy
          · rw [hdone]
            dsimp only
            split
            · exact absurd rfl hbusy
            · rfl
      · refine .inl ⟨[], row, accepting state rows, c, s, rfl, .nil c s, ?_, ?_⟩
        · rw [hdone]
          rfl
        · rw [hdone]
    · have hrows : accepting state (row :: rows) = accepting state rows :=
        List.filter_cons_of_neg hopen
      rw [hrows, if_neg hopen]
      exact ih hrest c s

theorem passes_none {command : Command} {st : Option String} {c : Option String}
    {rows : List Transition} {s s' : σ} (h : Passes D command st c rows s none s') :
    c = none ∧ rows = [] ∧ s' = s := by
  have hsome : ∀ {c c' : Option String} {rows : List Transition} {s s' : σ},
      Passes D command st c rows s c' s' → c.isSome = true → c'.isSome = true := by
    intro c c' rows s s' h hc
    induction h with
    | nil => exact hc
    | cons _ _ ih => exact ih rfl
  cases h with
  | nil => exact ⟨rfl, rfl, rfl⟩
  | cons _ rest => cases hsome rest rfl

theorem does_named {st : Option String} {s : σ} (hst : st = some (observed D rt e s) ∨ st = none) :
    D.does (named rt e st) s = (.ok (observed D rt e s), s) := by
  rcases hst with rfl | rfl
  · rfl
  · exact does_state s

theorem accepting_filter (rows : List Transition) (command : Command) (state : String) :
    accepting state (rows.filter (fun row => row.applies command)) =
      rows.filter (accepts command state) := by
  unfold accepting
  rw [List.filter_filter]
  apply List.filter_congr
  intro row _
  rw [accepts, Bool.and_comm]

theorem route_declared {rows : List Transition} {command : Command}
    (h : declared rows command = true) :
    route rt e rows command = (rt.state e).bind (fun state => offer rt e command (some state)
      (rows.filter (fun row => row.applies command)) none) := by
  unfold route observe
  dsimp only
  unfold declared at h
  rw [if_pos h]
  simp only [Prog.pure_eq, Prog.bind_eq, Prog.bind_assoc, Prog.ret_bind]

theorem route_undeclared {rows : List Transition} {command : Command}
    (h : declared rows command = false) :
    route rt e rows command =
      offer rt e command none (rows.filter (fun row => row.applies command)) none := by
  unfold route observe
  dsimp only
  unfold declared at h
  rw [if_neg (Bool.eq_false_iff.mp h)]
  rfl

/-- Behind what it observes, a router offers the command to the rows that take it. -/
theorem does_route (rows : List Transition) (command : Command) (s : σ) :
    D.does (route rt e rows command) s =
      D.does (offer rt e command (shown D rt e rows command s)
        (rows.filter (fun row => row.applies command)) none) s := by
  unfold shown
  cases hdeclared : declared rows command with
  | true => rw [route_declared hdeclared, does_bind, does_state, if_pos rfl]
  | false => rw [route_undeclared hdeclared, if_neg Bool.false_ne_true]

variable (D rt e) in
theorem shown_or (rows : List Transition) (command : Command) (s : σ) :
    (shown D rt e rows command s = some (observed D rt e s) ∨ shown D rt e rows command s = none) ∧
    ∀ row ∈ rows.filter (fun row => row.applies command),
      shown D rt e rows command s = some (observed D rt e s) ∨ row.states = none := by
  unfold shown
  by_cases hdeclared : declared rows command = true
  · rw [if_pos hdeclared]
    exact ⟨.inl rfl, fun _ _ => .inl rfl⟩
  · rw [if_neg hdeclared]
    refine ⟨.inr rfl, fun row hrow => .inr ?_⟩
    have hnone := List.any_eq_false.mp (Bool.eq_false_iff.mpr hdeclared) row hrow
    simpa using hnone

theorem route_decides (rows : List Transition) (command : Command) (s : σ) :
    Decides D rt e rows command s (D.does (route rt e rows command) s) := by
  obtain ⟨hnamed, hst⟩ := shown_or D rt e rows command s
  have hoffer := offer_decides D rt e command (observed D rt e s)
    (shown D rt e rows command s) (rows.filter (fun row => row.applies command)) hst none s
  rw [accepting_filter] at hoffer
  rw [does_route]
  rcases hoffer with ⟨pre, row, post, c', s', htable, hpassed, hkept, he⟩ | ⟨c', s', hpassed, he⟩
  · exact .won htable hpassed he.symm (he ▸ hkept)
  · cases c' with
    | some b =>
      have hlost : D.does (offer rt e command (shown D rt e rows command s)
          (rows.filter (fun row => row.applies command)) none) s =
          (.error (.store (.contended b)), s') := he
      rw [hlost]
      exact .lost hpassed
    | none =>
      obtain ⟨-, htable, rfl⟩ := passes_none hpassed
      have hrefused : D.does (offer rt e command (shown D rt e rows command s')
          (rows.filter (fun row => row.applies command)) none) s' =
          D.does (invalidTransition (observed D rt e s') command) s' := by
        refine he.trans ?_
        dsimp only
        rw [Prog.bind_eq, does_bind, does_named hnamed]
      rw [hrefused]
      exact .refused htable

/-! What the router reads. -/

/-- Once the state is observed, or when there are rows that take any, an offer reads nothing. -/
theorem offer_blind {rt' : AgentRuntime} {e' : Execution} (command : Command) (st : Option String)
    (rows : List Transition) (c : Option Exn)
    (h : st.isSome ∨ ((∀ row ∈ rows, row.states = none) ∧ (rows ≠ [] ∨ c.isSome))) :
    offer rt e command st rows c = offer rt' e' command st rows c := by
  induction rows generalizing c with
  | nil =>
    cases c with
    | some x => rfl
    | none =>
      unfold offer named
      rcases h with hst | ⟨-, hne | hc⟩
      · cases st with
        | none => cases hst
        | some state => rfl
      · exact absurd rfl hne
      · cases hc
  | cons row rows ih =>
    have hnext : ∀ b, st.isSome ∨ ((∀ row ∈ rows, row.states = none) ∧
        (rows ≠ [] ∨ (some (Exn.store (.contended b))).isSome)) := by
      intro b
      exact h.imp_right (fun h => ⟨fun row hrow => h.1 row (List.mem_cons_of_mem _ hrow), .inr rfl⟩)
    unfold offer
    split
    · congr 1
      funext x
      split
      · rename_i b
        exact ih _ (hnext b)
      · rfl
    · rename_i hopen
      rcases h with hst | ⟨hnone, -⟩
      · exact ih c (.inl hst)
      · rw [hnone row List.mem_cons_self] at hopen
        exact absurd rfl hopen

/-! Taking a row out. -/

section
variable (D)

/-- Rows that leave the world as it is when they are contended, and do not look at the state. -/
structure Free (command : Command) (rows : List Transition) : Prop where
  effectless : ∀ row ∈ rows, ∀ s, contended (D.does (row.apply command none) s).1 = true →
    (D.does (row.apply command none) s).2 = s
  blind : ∀ row ∈ rows, ∀ state, row.apply command state = row.apply command none

/-- Whether a row is contended here. -/
def busy (command : Command) (s : σ) (row : Transition) : Bool :=
  contended (D.does (row.apply command none) s).1

/-- What the rows that accept a command come to, when the contended ones do nothing. -/
def settled (command : Command) (s : σ) (accepting : List Transition)
    (refusal : Except Exn Applied × σ) : Except Exn Applied × σ :=
  match (accepting.find? (fun row => !busy D command s row)).or accepting.getLast? with
  | some row => D.does (row.apply command none) s
  | none => refusal

/-- The row behind `pre` and before `post` is the one that the outcome comes from: all that accept
the command before it are contended, and so is it only if none accepts the command behind it. -/
def Supplies (rt : AgentRuntime) (e : Execution) (command : Command) (s : σ)
    (pre : List Transition) (row : Transition) (post : List Transition) : Prop :=
  accepts command (observed D rt e s) row = true ∧
    (∀ r ∈ pre, accepts command (observed D rt e s) r = true → busy D command s r = true) ∧
    (busy D command s row = true →
      ∀ r ∈ post, accepts command (observed D rt e s) r = false)

end

theorem passes_free {command : Command} {st : Option String} {c c' : Option String}
    {rows : List Transition} {s s' : σ} (hfree : Free D command rows)
    (h : Passes D command st c rows s c' s') :
    s' = s ∧ (∀ row ∈ rows, busy D command s row = true) ∧
      ∀ row ∈ rows.getLast?, ∃ b, c' = some b ∧
        D.does (row.apply command none) s = (.error (.store (.contended b)), s) := by
  induction h with
  | nil => exact ⟨rfl, by simp, by simp⟩
  | @cons c row rows s b s' c' s'' hbusy hrest ih =>
    rw [hfree.blind row List.mem_cons_self] at hbusy
    have hhere : busy D command s row = true := by
      unfold busy
      rw [hbusy]
      rfl
    have hstays := hfree.effectless row List.mem_cons_self s hhere
    rw [hbusy] at hstays
    dsimp only at hstays
    subst hstays
    obtain ⟨hs, hbusies, hlast⟩ := ih
      ⟨fun row hrow => hfree.effectless row (List.mem_cons_of_mem _ hrow),
        fun row hrow => hfree.blind row (List.mem_cons_of_mem _ hrow)⟩
    refine ⟨hs, ?_, ?_⟩
    · intro row' hrow'
      rcases List.mem_cons.mp hrow' with rfl | hrow'
      · exact hhere
      · exact hbusies row' hrow'
    · intro row' hrow'
      cases rows with
      | nil =>
        cases hrow'
        cases hrest with
        | nil => exact ⟨b, rfl, hbusy⟩
      | cons next rows =>
        rw [List.getLast?_cons_cons] at hrow'
        exact hlast row' hrow'

theorem Free.of_mem {command : Command} {rows rows' : List Transition} (h : Free D command rows)
    (hsub : ∀ row ∈ rows', row ∈ rows) : Free D command rows' where
  effectless := fun row hrow => h.effectless row (hsub row hrow)
  blind := fun row hrow => h.blind row (hsub row hrow)

/-- When contended rows do nothing, the table is settled by what each row comes to from here. -/
theorem decides_free {rows : List Transition} {command : Command} {s : σ}
    {r : Except Exn Applied × σ} (hfree : Free D command rows)
    (h : Decides D rt e rows command s r) :
    r = settled D command s (rows.filter (accepts command (observed D rt e s)))
      (D.does (invalidTransition (observed D rt e s) command) s) := by
  have hopen : Free D command (rows.filter (accepts command (observed D rt e s))) :=
    hfree.of_mem (fun row hrow => List.mem_of_mem_filter hrow)
  unfold settled
  cases h with
  | @won pre row post c s' _ htable hpassed hdone hkept =>
    rw [htable] at hopen ⊢
    have hpre : Free D command pre := hopen.of_mem (by simp +contextual)
    obtain ⟨rfl, hbusy, -⟩ := passes_free hpre hpassed
    rw [hopen.blind row (by simp)] at hdone
    subst hdone
    have hfirst : (pre ++ row :: post).find? (fun row => !busy D command s' row) = some row := by
      refine List.find?_eq_some_iff_append.mpr ⟨?_, pre, post, rfl, ?_⟩
      · simpa [busy] using hkept
      · intro row' hrow'
        simpa using hbusy row' hrow'
    rw [hfirst]
    rfl
  | @lost b s' hpassed =>
    obtain ⟨rfl, hbusy, hlast⟩ := passes_free hopen hpassed
    have hnone : (rows.filter (accepts command (observed D rt e s'))).find?
        (fun row => !busy D command s' row) = none := by
      refine List.find?_eq_none.mpr (fun row hrow => ?_)
      simpa using hbusy row hrow
    rw [hnone, Option.none_or]
    cases hl : (rows.filter (accepts command (observed D rt e s'))).getLast? with
    | none =>
      rw [List.getLast?_eq_none_iff] at hl
      rw [hl] at hpassed
      cases hpassed
    | some row =>
      obtain ⟨b', hb, hdone⟩ := hlast row hl
      cases hb
      exact hdone.symm
  | refused htable =>
    rw [htable]
    rfl

/-- What settles a table is not changed by a row that does not. -/
theorem settled_without {command : Command} {s : σ} {pre post : List Transition} {row : Transition}
    {refusal : Except Exn Applied × σ}
    (h : (∃ r ∈ pre, busy D command s r = false) ∨ (busy D command s row = true ∧ post ≠ [])) :
    settled D command s (pre ++ post) refusal =
      settled D command s (pre ++ row :: post) refusal := by
  unfold settled
  congr 1
  rcases h with ⟨r, hr, hfree⟩ | ⟨hbusy, hpost⟩
  · have hfound : (pre.find? (fun row => !busy D command s row)).isSome = true := by
      rw [List.find?_isSome]
      exact ⟨r, hr, by rw [hfree]; rfl⟩
    obtain ⟨r', hr'⟩ := Option.isSome_iff_exists.mp hfound
    rw [List.find?_append, List.find?_append, hr']
    rfl
  · rw [List.find?_append, List.find?_append, List.find?_cons_of_neg (by simp [hbusy])]
    congr 1
    obtain ⟨next, rest, rfl⟩ := List.exists_cons_of_ne_nil hpost
    rw [List.getLast?_append, List.getLast?_append, List.getLast?_cons_cons]

end

/-- What is so of a router with these rows. -/
structure Tabled (rows : List Transition) (command : Command) : Prop where
  decides : ∀ s, Decides D rt e rows command s (D.does (route rt e rows command) s)
  /-- Where a row declares states, the state is read first, and behind that the router is the same
  for every run of every runtime: it reads nothing more. -/
  once : declared rows command = true → ∃ rest : String → Program Applied, ∀ rt e,
    route rt e rows command = (rt.state e).bind rest
  never : declared rows command = false → rows.filter (fun row => row.applies command) ≠ [] →
    ∃ rest : Program Applied, ∀ rt e, route rt e rows command = rest
  refusing : rows.filter (fun row => row.applies command) = [] → ∀ rt e,
    route rt e rows command = (rt.state e).bind (fun state => invalidTransition state command)
  without : ∀ pre row post, rows = pre ++ row :: post → Free D command rows →
    ∀ s, ¬ Supplies D rt e command s pre row post →
      D.does (route rt e (pre ++ post) command) s = D.does (route rt e rows command) s

/-- The router is its table. -/
theorem tabled (rows : List Transition) (command : Command) : Tabled D rt e rows command where
  decides := route_decides rows command
  once := by
    intro hdeclared
    refine ⟨fun state => offer rt e command (some state)
      (rows.filter (fun row => row.applies command)) none, fun rt' e' => ?_⟩
    rw [route_declared hdeclared]
    congr 1
    funext state
    exact offer_blind command (some state) _ none (.inl rfl)
  never := by
    intro hdeclared hne
    have hnone : ∀ row ∈ rows.filter (fun row => row.applies command), row.states = none := by
      intro row hrow
      simpa using List.any_eq_false.mp hdeclared row hrow
    refine ⟨route rt e rows command, fun rt' e' => ?_⟩
    rw [route_undeclared hdeclared, route_undeclared hdeclared]
    exact offer_blind command none _ none (.inr ⟨hnone, .inl hne⟩)
  refusing := by
    intro hnone rt' e'
    unfold route observe
    dsimp only
    rw [hnone]
    rfl
  without := by
    intro pre row post htable hfree s hother
    subst htable
    have hless : Free D command (pre ++ post) := hfree.of_mem (by simp +contextual [or_imp])
    rw [decides_free hless (route_decides (pre ++ post) command s),
      decides_free hfree (route_decides (pre ++ row :: post) command s)]
    rw [List.filter_append, List.filter_append]
    by_cases haccepts : accepts command (observed D rt e s) row = true
    · rw [List.filter_cons_of_pos haccepts]
      apply settled_without
      by_cases hbefore : ∀ r ∈ pre, accepts command (observed D rt e s) r = true →
          busy D command s r = true
      · right
        by_cases hbusy : busy D command s row = true
        · refine ⟨hbusy, fun hpost => hother ⟨haccepts, hbefore, fun _ r hr => ?_⟩⟩
          have hnot := List.filter_eq_nil_iff.mp hpost r hr
          simpa using hnot
        · exact absurd ⟨haccepts, hbefore, fun h => absurd h hbusy⟩ hother
      · left
        simp only [not_forall] at hbefore
        obtain ⟨r, hr, hopen, hfree⟩ := hbefore
        exact ⟨r, List.mem_filter.mpr ⟨hr, hopen⟩, Bool.eq_false_iff.mpr hfree⟩
    · rw [List.filter_cons_of_neg haccepts]

end Semora.Proofs.Table
