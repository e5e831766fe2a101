import Semora.Proofs.RunRecord
import Semora.Proofs.Scopes

/-! One branch id in two scopes of one ledger and one transcript: when what is reported of the one
is what it would be had the other never been used. -/

namespace Semora.Proofs.ScopedState
open Semora.Lib Semora.Store Semora.Transcript RunRecord Scopes

/-- The execution names the same branch in the same scope. -/
def Coincides (e e' : Execution) : Prop :=
  e'.branchId = e.branchId ∧ e'.conversationId = e.conversationId

instance (e e' : Execution) : Decidable (Coincides e e') := inferInstanceAs (Decidable (_ ∧ _))

/-- Time passes, and nothing else happens. -/
def tick (s : Scene) : Scene := { s with world := { s.world with instant := s.world.instant + 1 } }

/-- What the operations of some of the threads make of a scene, each made at its own instant, with
nothing done at the instants of the others. -/
def played (out : Outside) (self : Nat → Nat) (who : Nat → Prop) [DecidablePred who] :
    List Event → Scene → Scene
  | [], s => s
  | ev :: events, s =>
    played out self who events
      (if who ev.thread then (s.perform out self ev.thread ev.op).2 else tick s)

/-- The row of the default table that takes `Recover` in this state. -/
def decision (rt : AgentRuntime) (e : Execution) (agent : Agent) (controls : Option String)
    (rules name : String) : Option Nat :=
  (Dispatch.defaultRouter rt e agent controls rules).findIdx?
    (fun row => row.applies .recover && row.states.all (fun states => name ∈ states))

def routed (out : Outside) (self : Nat → Nat) (i : Nat) (rt : AgentRuntime) (e : Execution)
    (agent : Agent) (controls : Option String) (rules : String) (s : Scene) :
    Except Exn (Option Nat) :=
  (observed out self i rt e s).map (decision rt e agent controls rules)

/-- The state reported and the routing of `Recover` are those of the threads in the execution's
scope alone. -/
def Unaffected (out : Outside) (self : Nat → Nat) (rt : AgentRuntime) (e : Execution)
    (callers : Nat → Caller) (start s : Scene) : Prop :=
  ∀ i, observed out self i rt e s = observed out self i rt e
      (played out self (fun j => Coincides e (callers j).execution) s.events start) ∧
    ∀ agent controls rules, routed out self i rt e agent controls rules s =
      routed out self i rt e agent controls rules
        (played out self (fun j => Coincides e (callers j).execution) s.events start)

/-- What is parked on the execution's branch. -/
def parked (e : Execution) (w : World) : Option Suspension :=
  AgentRuntime.liveSuspension (w.store.read (filedName e) Effects.activeSuspension)

/-- The event writes the run record of a branch. -/
def records (b : String) : Event → Bool
  | ⟨_, .recordBranch b' _, _⟩ => b' = b
  | _ => false

/-- The branch has a run record. -/
def Recorded (b : String) (w : World) : Prop := (w.transcript.readBranch b).isSome

/-- The run record tells of an end. -/
def Ended (b : String) (w : World) : Prop :=
  ∃ fields, w.transcript.readBranch b = some fields ∧ fields.endedAt.isSome

/-- What the threads outside the scope did to the run record, the scope had come to before or by
its own threads. -/
structure Anticipated (e : Execution) (callers : Nat → Caller) (w : World) (events : List Event) :
    Prop where
  opened : (∃ ev ∈ events, ¬ Coincides e (callers ev.thread).execution ∧ records e.branchId ev) →
    Recorded e.branchId w ∨
      ∃ ev ∈ events, Coincides e (callers ev.thread).execution ∧ records e.branchId ev
  closed : (∃ ev ∈ events, ¬ Coincides e (callers ev.thread).execution ∧ closes e.branchId ev) →
    Ended e.branchId w ∨
      ∃ ev ∈ events, Coincides e (callers ev.thread).execution ∧ closes e.branchId ev

section
variable {e e' : Execution}

theorem coincides_filed (h : Coincides e e') : filedName e' = filedName e := by
  unfold filedName
  rw [h.1, h.2]

theorem coincides_conversation (h : Coincides e e') : e'.conversation = e.conversation := by
  unfold Execution.conversation
  rw [h.1, h.2]

/-- Two scopes of one branch id are filed apart. -/
theorem scopes_filed (hbranch : e'.branchId = e.branchId)
    (hscope : e'.conversationId ≠ e.conversationId) : filedName e' ≠ filedName e := by
  have hprefix : ∀ c : String, c ++ "/" ++ e.branchId ≠ e.branchId := by
    intro c h
    have hlength := congrArg String.length h
    simp only [String.length_append] at hlength
    have hslash : "/".length = 1 := rfl
    omega
  intro h
  unfold filedName View.filed at h
  rw [hbranch] at h
  cases he : e.conversationId with
  | none =>
    cases he' : e'.conversationId with
    | none => exact hscope (he'.trans he.symm)
    | some c' =>
      rw [he, he'] at h
      exact hprefix c' h
  | some c =>
    cases he' : e'.conversationId with
    | none =>
      rw [he, he'] at h
      exact hprefix c h.symm
    | some c' =>
      rw [he, he'] at h
      apply hscope
      rw [he, he']
      have hsame : c' ++ "/" = c ++ "/" := by simpa using h
      simpa using hsame

end

section
variable {out : Outside} {self : Nat → Nat} {who : Nat → Prop} [DecidablePred who]
variable {s s' start : Scene} {events : List Event}

theorem played_append (events : List Event) (ev : Event) (s : Scene) :
    played out self who (events ++ [ev]) s =
      if who ev.thread then ((played out self who events s).perform out self ev.thread ev.op).2
      else tick (played out self who events s) := by
  induction events generalizing s with
  | nil => rfl
  | cons ev' events ih => exact ih _

/-- A run is what its events make of the scene it started in. -/
theorem interleaved_played {pool pool' : Nat → Program Unit} (hstart : start.events = [])
    (run : Interleaved (exec out self) (fun _ _ => False) pool start pool' s) :
    s = played out self (fun _ => True) s.events start := by
  induction run with
  | start => rw [hstart]; rfl
  | @op pool' s i o k r s' run next done ih =>
    rw [(exec_events done).1, played_append, ← ih, if_pos trivial]
    exact (congrArg Prod.snd done).symm
  | env _ move _ => exact move.elim

end

/-! What is reported, and what it depends on. -/

section
variable {rt : AgentRuntime} {e : Execution} {out : Outside} {self : Nat → Nat} {i : Nat}
variable {w w' : World} {s : Scene}

theorem observed_parked {active : Suspension} (hledger : rt.executionStore = true)
    (hparked : parked e s.world = some active) :
    observed out self i rt e s = .ok active.state.text := by
  have hstore : rt.storeFor e = some ⟨e.conversationId⟩ := by
    simp [AgentRuntime.storeFor, hledger]
  simp only [observed, AgentRuntime.state, AgentRuntime.parkedOn, hledger, ↓reduceIte,
    AgentRuntime.active, AgentRuntime.requireStore, hstore, Prog.bind_eq, Prog.pure_eq,
    Prog.ret_bind, View.read, Semora.perform, Prog.eval_bind, Prog.eval_op]
  have hread : Scene.perform out self i (.ledger (.read (View.filed ⟨e.conversationId⟩ e.branchId)
      Effects.activeSuspension)) s = (.ok (s.world.store.read (filedName e)
        Effects.activeSuspension), (Scene.perform out self i (.ledger (.read (filedName e)
          Effects.activeSuspension)) s).2) := rfl
  have hlive : AgentRuntime.liveSuspension (s.world.store.read (filedName e)
      Effects.activeSuspension) = some active := hparked
  simp only [hread, Prog.eval, hlive]

theorem unparked_parked (h : parked e w = none) : Unparked rt e w := by
  intro store hstore
  unfold AgentRuntime.storeFor at hstore
  split at hstore
  · rw [← Option.some.inj hstore]
    exact h
  · cases hstore

/-- With nothing parked, what is reported is whether there is a run record and whether it tells
of an end. -/
theorem observed_same_iff (htranscript : rt.transcript = true) {s s' : Scene}
    (h : parked e s.world = none) (h' : parked e s'.world = none) :
    observed out self i rt e s = observed out self i rt e s' ↔
      ((Recorded e.branchId s.world ↔ Recorded e.branchId s'.world) ∧
        (Ended e.branchId s.world ↔ Ended e.branchId s'.world)) := by
  rw [observed_unparked htranscript (unparked_parked h),
    observed_unparked htranscript (unparked_parked h')]
  unfold Recorded Ended
  cases s.world.transcript.readBranch e.branchId with
  | none =>
    cases s'.world.transcript.readBranch e.branchId with
    | none => simp
    | some fields' => cases hend' : fields'.endedAt <;> simp [hend']
  | some fields =>
    cases s'.world.transcript.readBranch e.branchId with
    | none => cases hend : fields.endedAt <;> simp [hend]
    | some fields' =>
      cases hend : fields.endedAt <;> cases hend' : fields'.endedAt <;> simp [hend, hend']

end

section
variable {out : Outside} {self : Nat → Nat} {who : Nat → Prop} [DecidablePred who] {b : String}
variable {s s' : Scene}

/-- One operation writes the run record, or leaves it alone. -/
theorem marks_step (out : Outside) (o : Op) (i : Nat) (r : Except Exn o.Res) (w : World)
    (a : Attempt) :
    (Recorded b (step out o w a).2.1 ↔ Recorded b w ∨ records b ⟨i, o, r⟩) ∧
      (Ended b (step out o w a).2.1 ↔ Ended b w ∨ closes b ⟨i, o, r⟩) := by
  by_cases hspares : Spares b o
  · have hsame := readBranch_step out w a hspares
    have hrecords : records b ⟨i, o, r⟩ = false := by
      cases o with
      | recordBranch b' fields =>
        have hb : b' ≠ b := by
          rintro rfl
          exact hspares fields rfl
        simp [records, hb]
      | _ => rfl
    simp [Recorded, Ended, hsame, hrecords, (spares_event (i := i) r hspares).2]
  · unfold Spares at hspares
    push Not at hspares
    obtain ⟨fields, rfl⟩ := hspares
    have hwritten : (step out (.recordBranch b fields) w a).2.1.transcript.readBranch b =
        some (((w.transcript.readBranch b).getD {}).update fields) :=
      (readBranch_recordBranch _ _ _ _).trans (if_pos rfl)
    constructor
    · simp [Recorded, hwritten, records]
    · unfold Ended
      rw [hwritten]
      cases hold : w.transcript.readBranch b with
      | none =>
        cases hend : fields.endedAt <;> simp [closes, BranchFields.update, hend]
      | some old =>
        cases hend : fields.endedAt <;> simp [closes, BranchFields.update, hend]

variable (out self who) in
/-- The record left behind is what the threads that acted made of it. -/
theorem marks_played (b : String) (events : List Event) (s : Scene) :
    (Recorded b (played out self who events s).world ↔
      Recorded b s.world ∨ ∃ ev ∈ events, who ev.thread ∧ records b ev) ∧
    (Ended b (played out self who events s).world ↔
      Ended b s.world ∨ ∃ ev ∈ events, who ev.thread ∧ closes b ev) := by
  induction events generalizing s with
  | nil => simp [played]
  | cons ev events ih =>
    unfold played
    obtain ⟨hrecorded, hended⟩ := ih (if who ev.thread then (s.perform out self ev.thread ev.op).2
      else tick s)
    rw [hrecorded, hended]
    by_cases hwho : who ev.thread
    · obtain ⟨hrecords, hcloses⟩ := marks_step (b := b) out ev.op ev.thread ev.reply s.world
        (s.attempts (self ev.thread))
      rw [if_pos hwho]
      simp only [Scene.perform, hrecords, hcloses, List.exists_mem_cons_iff, hwho, true_and, or_assoc,
        and_self]
    · rw [if_neg hwho]
      simp only [List.exists_mem_cons_iff, hwho, false_and, false_or]
      exact ⟨Iff.rfl, Iff.rfl⟩

variable (out self who) in
/-- A branch holds the same with or without the operations that are about others. -/
theorem agree_played {n : String} {events : List Event}
    (hothers : ∀ ev ∈ events, ¬ who ev.thread → ∀ c, ev.op = .ledger c →
      (∃ b k, c = .read b k) ∨ c.branchId ≠ n)
    (hagree : Agree n s.world.store s'.world.store)
    (hinstant : s'.world.instant = s.world.instant) :
    Agree n (played out self (fun _ => True) events s).world.store
      (played out self who events s').world.store := by
  induction events generalizing s s' with
  | nil => exact hagree
  | cons ev events ih =>
    have hrest := fun ev' hev' => hothers ev' (List.mem_cons_of_mem ev hev')
    have hnext := step_instant out ev.op s.world (s.attempts (self ev.thread))
    unfold played
    rw [if_pos trivial]
    by_cases hwho : who ev.thread
    · rw [if_pos hwho]
      have hnext' := step_instant out ev.op s'.world (s'.attempts (self ev.thread))
      apply ih hrest
      · cases hop : ev.op with
        | ledger c =>
          simp only [Scene.perform, step, hinstant]
          by_cases hn : c.branchId = n
          · subst hn
            exact (exec_agree c _ _ hagree).2
          · exact (exec_other c _ _ _ hn).symm.trans (hagree.trans (exec_other c _ _ _ hn))
        | _ => exact hagree
      · exact hnext'.trans ((congrArg (· + 1) hinstant).trans hnext.symm)
    · rw [if_neg hwho]
      apply ih hrest
      · cases hop : ev.op with
        | ledger c =>
          rcases hothers ev List.mem_cons_self hwho c hop with ⟨b, k, rfl⟩ | hn
          · exact hagree
          · exact (exec_other c _ _ _ hn).symm.trans hagree
        | _ => exact hagree
      · exact (congrArg (· + 1) hinstant).trans hnext.symm

end

/-! What the scope's threads leave when they alone are played is a run of theirs alone, where they
neither read the other scope nor share its conversation. -/

/-- Two worlds that are the same to an attempt on the execution. -/
structure Alike (e : Execution) (w w' : World) : Prop where
  ledger : Agree (filedName e) w.store w'.store
  entries : w'.transcript.read e.conversation = w.transcript.read e.conversation
  instant : w'.instant = w.instant

section
variable {e e' : Execution} {w w' : World}

theorem alike_step (out : Outside) {o : Op} (ho : Addresses e o) (hrecord : ∀ b, o ≠ .readBranch b)
    (h : Alike e w w') (a : Attempt) :
    (step out o w' a).1 = (step out o w a).1 ∧ (step out o w' a).2.2 = (step out o w a).2.2 ∧
      Alike e (step out o w a).2.1 (step out o w' a).2.1 := by
  obtain ⟨hledger, hentries, hinstant⟩ := h
  have hnext : w'.instant + 1 = w.instant + 1 := congrArg (· + 1) hinstant
  cases o with
  | ledger c =>
    have ho : c.branchId = filedName e := ho
    rw [← ho] at hledger
    obtain ⟨hreply, hafter⟩ := exec_agree c (out.clock w.instant) (out.clock (w.instant + 1)) hledger
    rw [ho] at hafter
    simp only [step, hinstant]
    exact ⟨by rw [hreply], trivial, hafter, hentries, rfl⟩
  | append entry =>
    have ho : entry.conversationId = e.conversation := ho
    have hrows : w'.transcript.read entry.conversationId = w.transcript.read entry.conversationId := by
      rw [ho]
      exact hentries
    by_cases hold : ∃ old ∈ w.transcript.read entry.conversationId, old.uuid = entry.uuid
    · simp only [step, MemoryTranscript.append_old _ hold,
        MemoryTranscript.append_old w'.transcript (hrows ▸ hold)]
      exact ⟨trivial, trivial, hledger, hentries, hnext⟩
    · simp only [not_exists, not_and] at hold
      obtain ⟨hreply, -, hread⟩ := MemoryTranscript.append_new w.transcript hold
      obtain ⟨hreply', -, hread'⟩ := MemoryTranscript.append_new w'.transcript (hrows ▸ hold)
      refine ⟨congrArg Except.ok (hreply'.trans hreply.symm), rfl, hledger, ?_, hnext⟩
      simp only [step, hread, hread', hentries]
  | readEntries c =>
    have ho : c = e.conversation := ho
    simp only [step, ho, hentries]
    exact ⟨trivial, trivial, hledger, hentries, hnext⟩
  | recordBranch | recordModelUsage | get | modify => exact ⟨rfl, rfl, hledger, hentries, hnext⟩
  | readBranch b => exact absurd rfl (hrecord b)
  | handle | provide | ask | uuid4 | now =>
    simp only [step, hinstant]
    exact ⟨trivial, trivial, hledger, hentries, rfl⟩

/-- An operation in another scope and another conversation is no matter of the execution. -/
theorem alike_other (out : Outside) {o : Op} (ho : Stays e' o) (hfiled : filedName e' ≠ filedName e)
    (hconversation : e'.conversation ≠ e.conversation) (h : Alike e w w') (a : Attempt) :
    Alike e (step out o w a).2.1 { w' with instant := w'.instant + 1 } := by
  have hinstant : w'.instant + 1 = (step out o w a).2.1.instant := by
    rw [step_instant, h.instant]
  cases o with
  | ledger c =>
    refine ⟨?_, h.entries, hinstant⟩
    rcases ho with ⟨b, k, rfl⟩ | ⟨hb, -⟩
    · exact h.ledger
    · have hne : c.branchId ≠ filedName e := fun he => hfiled (hb.symm.trans he)
      exact (exec_other c _ _ w.store hne).symm.trans h.ledger
  | append entry =>
    refine ⟨h.ledger, ?_, hinstant⟩
    have hne : e.conversation ≠ entry.conversationId := fun he => hconversation (ho.symm.trans he.symm)
    exact h.entries.trans (MemoryTranscript.read_append_other _ hne).symm
  | _ => exact ⟨h.ledger, h.entries, hinstant⟩

end

section
variable {out : Outside} {self : Nat → Nat} {who : Nat → Prop} [DecidablePred who]
variable {e e' : Execution} {start s : Scene} {programs pool : Nat → Program Unit}

/-- The programs of some of the threads; the others have nothing to do. -/
def only (who : Nat → Prop) [DecidablePred who] (programs : Nat → Program Unit) (i : Nat) :
    Program Unit := if who i then programs i else .ret ()

theorem only_update (i : Nat) (p : Program Unit) :
    only who (Function.update programs i p) =
      if who i then Function.update (only who programs) i p else only who programs := by
  funext j
  unfold only
  by_cases hi : who i
  · rw [if_pos hi]
    by_cases hj : j = i
    · subst hj
      rw [if_pos hi, Function.update_self, Function.update_self]
    · rw [Function.update_of_ne hj, Function.update_of_ne hj]
  · rw [if_neg hi]
    by_cases hj : j = i
    · subst hj
      rw [if_neg hi, if_neg hi]
    · rw [Function.update_of_ne hj]

/-- Played alone, the threads of a scope get the replies they got: what they leave is a run of
theirs, with ticks for what the others did. -/
theorem played_run (hfiled : filedName e' ≠ filedName e)
    (hconversation : e'.conversation ≠ e.conversation)
    (hself : ∀ i j, who i → ¬ who j → self i ≠ self j) (hstart : start.events = [])
    (run : Interleaved (exec out self) (fun _ _ => False) programs start pool s)
    (hmine : ∀ ev ∈ s.events, who ev.thread → Addresses e ev.op ∧ ∀ b, ev.op ≠ .readBranch b)
    (hothers : ∀ ev ∈ s.events, ¬ who ev.thread → Stays e' ev.op) :
    Interleaved (exec out self) (fun s s' => s' = tick s) (only who programs) start
        (only who pool) (played out self who s.events start) ∧
      Alike e s.world (played out self who s.events start).world ∧
      ∀ i, who i → (played out self who s.events start).attempts (self i) = s.attempts (self i) := by
  induction run with
  | start =>
    rw [hstart]
    exact ⟨.start, ⟨.refl _ _, rfl, rfl⟩, fun _ _ => rfl⟩
  | env _ move _ => exact move.elim
  | @op pool s i o k r s' run next done ih =>
    obtain ⟨hevents, hworld, hreply⟩ := exec_events done
    have hattempts := exec_attempts done
    rw [hevents] at hmine hothers
    obtain ⟨hrun, halike, hown⟩ := ih
      (fun ev hev => hmine ev (List.mem_append_left _ hev))
      (fun ev hev => hothers ev (List.mem_append_left _ hev))
    have hlast : (⟨i, o, r⟩ : Event) ∈ s.events ++ [⟨i, o, r⟩] :=
      List.mem_append_right _ (List.mem_singleton_self _)
    rw [hevents, played_append, only_update]
    by_cases hwho : who i
    · obtain ⟨haddresses, hrecord⟩ := hmine _ hlast hwho
      obtain ⟨hreply', hmemory, hafter⟩ :=
        alike_step out haddresses hrecord halike (s.attempts (self i))
      rw [if_pos hwho, if_pos hwho]
      have hnext : only who pool i = .call o k := (if_pos hwho).trans next
      have hdone : exec out self i o (played out self who s.events start) r
          ((played out self who s.events start).perform out self i o).2 := by
        refine Prod.ext ?_ rfl
        rw [hreply, ← hreply', ← hown i hwho]
        rfl
      refine ⟨.op hrun hnext hdone, ?_, ?_⟩
      · rw [hworld]
        simp only [Scene.perform, hown i hwho]
        exact hafter
      · intro j hj
        rw [hattempts]
        simp only [Scene.perform, hown i hwho, Function.update_apply, hmemory]
        split
        · rfl
        · exact hown j hj
    · rw [if_neg hwho, if_neg hwho]
      refine ⟨.env hrun rfl, ?_, ?_⟩
      · rw [hworld]
        exact alike_other out (hothers _ hlast hwho) hfiled hconversation halike _
      · intro j hj
        rw [hattempts, Function.update_of_ne (hself j i hj hwho)]
        exact hown j hj

end

/-! Runs. -/

section
variable {out : Outside} {self : Nat → Nat} {rt : AgentRuntime} {e : Execution}
variable {callers : Nat → Caller} {start s : Scene}

variable (out self e callers start s) in
/-- What all threads together left of the record is what the scope's own would have left exactly if
the scope had come to all of it itself. -/
theorem marks_anticipated :
    ((Recorded e.branchId (played out self (fun _ => True) s.events start).world ↔
        Recorded e.branchId (played out self (fun j => Coincides e (callers j).execution) s.events
          start).world) ∧
      (Ended e.branchId (played out self (fun _ => True) s.events start).world ↔
        Ended e.branchId (played out self (fun j => Coincides e (callers j).execution) s.events
          start).world)) ↔ Anticipated e callers start.world s.events := by
  have hone : ∀ (marked : Prop) (marks : Event → Bool),
      ((marked ∨ ∃ ev ∈ s.events, True ∧ marks ev) ↔
        marked ∨ ∃ ev ∈ s.events, Coincides e (callers ev.thread).execution ∧ marks ev) ↔
      ((∃ ev ∈ s.events, ¬ Coincides e (callers ev.thread).execution ∧ marks ev) →
        marked ∨ ∃ ev ∈ s.events, Coincides e (callers ev.thread).execution ∧ marks ev) := by
    intro marked marks
    constructor
    · rintro h ⟨ev, hev, -, hmarks⟩
      exact h.mp (.inr ⟨ev, hev, trivial, hmarks⟩)
    · intro h
      constructor
      · rintro (hmarked | ⟨ev, hev, -, hmarks⟩)
        · exact .inl hmarked
        · by_cases hmine : Coincides e (callers ev.thread).execution
          · exact .inr ⟨ev, hev, hmine, hmarks⟩
          · exact h ⟨ev, hev, hmine, hmarks⟩
      · rintro (hmarked | ⟨ev, hev, -, hmarks⟩)
        · exact .inl hmarked
        · exact .inr ⟨ev, hev, trivial, hmarks⟩
  obtain ⟨hrecorded, hended⟩ := marks_played out self (fun _ => True) e.branchId s.events start
  obtain ⟨hrecorded', hended'⟩ := marks_played out self
    (fun j => Coincides e (callers j).execution) e.branchId s.events start
  rw [hrecorded, hended, hrecorded', hended', hone, hone]
  exact ⟨fun h => ⟨h.1, h.2⟩, fun h => ⟨h.opened, h.closed⟩⟩

end

/-- The claim that the other scope never shows. -/
def AlwaysUnaffected : Prop :=
  ∀ (out : Outside) (self : Nat → Nat) (rt : AgentRuntime) (e e' : Execution)
    (callers : Nat → Caller) (attempts : Nat → Attempt) (world : World)
    (pool : Nat → Program Unit) (s : Scene), rt.executionStore = true → rt.transcript = true →
    e'.branchId = e.branchId → e'.conversationId ≠ e.conversationId →
    (∀ i, Coincides e (callers i).execution ∨ Coincides e' (callers i).execution) →
    Home e world → Home e' world →
    Interleaved (exec out self) (fun _ _ => False) (fun i => (callers i).program)
      ⟨world, attempts, []⟩ pool s →
    Unaffected out self rt e callers ⟨world, attempts, []⟩ s

def fresh : Execution := { branchId := "run", conversationId := some "one" }

def used : Execution := { branchId := "run", conversationId := some "two" }

/-- Everybody prompts the branch in the second conversation. -/
def promptsUsed (_ : Nat) : Caller where
  rt := {}
  execution := used
  work := .call (.run { PydanticAI.standard (fun _ => "") [] 8 with } (some "hi") {})
  plain := by
    rintro entry ⟨⟩
    exact gathers_standard _ _ _

/-- One of them to its end. -/
def usedOnce : (Nat → Program Unit) × Scene :=
  scheduled (Scene.perform prompted id) (List.replicate 60 0) (fun i => (promptsUsed i).program)
    ⟨{}, fun _ => {}, []⟩

theorem usedOnce_run : Interleaved (exec prompted id) (fun _ _ => False)
    (fun i => (promptsUsed i).program) ⟨{}, fun _ => {}, []⟩ usedOnce.1 usedOnce.2 :=
  interleaved_scheduled (Scene.perform prompted id) _ _ _ _

theorem home_empty (e : Execution) : Home e {} := by
  intro active hactive
  cases hactive

/-- The branch that was never used in the first conversation is reported as completed there. -/
theorem usedOnce_observed : observed prompted id 0 {} fresh usedOnce.2 = .ok "completed" := by
  decide +kernel

theorem usedOnce_alone : observed prompted id 0 {} fresh
    (played prompted id (fun j => Coincides fresh (promptsUsed j).execution) usedOnce.2.events
      ⟨{}, fun _ => {}, []⟩) = .ok "fresh" := by
  decide +kernel

end Semora.Proofs.ScopedState
