import Semora.Proofs.Answering
import Semora.Proofs.Own

/-! Batch answers under contention. What a call that answers has done, in order, leaves only a few
places where it can be; and the answers held are those accepted last. -/

namespace Semora.Proofs.Answers
open Semora.Lib Semora.Store Semora.Transcript
open AgentRuntime (undecided callOf approvals approvalOf resumedCalls liveSuspension pendingPairs
  rejoined)
open Parked (cell live)
open Prog (Played)

/-- An operation on the lease or the continuation: it calls no model and no tool, asks no control
plane and begins no attempt. -/
def Clerical : Op → Prop
  | .uuid4 | .ledger (.acquire ..) | .ledger (.release ..) | .ledger (.read ..)
  | .ledger (.writeControl ..) => True
  | _ => False

/-- What a fully answered round is finalized with: each call's own answer, and with it what was
asked about that very call. -/
def Pairs (active : Suspension) (results : DeferredToolResults) : Prop :=
  ∀ item ∈ active.continuation.calls, ∃ answer,
    fetch item.1.toolCallId active.answers = some answer ∧
    fetch item.1.toolCallId results = some (approvalOf answer) ∧
    fetch item.1.toolCallId (resumedCalls active active.answers) =
      some ⟨answer, item.2, active.continuation.rulesVersion⟩

/-- What is left of `_finalize` once it has begun. -/
def finalizing (rt : AgentRuntime) (e : Execution) (token : Nat) (agent : Agent)
    (controls : Option String) (rulesVersion : String) (active : Suspension)
    (results : DeferredToolResults) : Program Outcome := do
  let outcome ← rt.attemptRun (rejoined e active) token agent none
    { controls, rulesVersion, messageHistory := some active.continuation.messages, results
      resumed := resumedCalls active active.answers }
  View.writeControl ⟨e.conversationId⟩ e.branchId Effects.activeSuspension
    (.completed active.callId active.callIds) token
  return outcome

section
variable {active : Suspension} {results : DeferredToolResults}

theorem fetch_mapM {α : Type} {f : Answer → α} {parked : List (ToolCall × Request)}
    {answers : List (String × Answer)} {found : List (String × α)}
    (h : parked.mapM (fun item => (fetch item.1.toolCallId answers).map
      (fun answer => (item.1.toolCallId, f answer))) = some found) :
    ∀ item ∈ parked, ∃ answer, fetch item.1.toolCallId answers = some answer ∧
      fetch item.1.toolCallId found = some (f answer) := by
  induction parked generalizing found with
  | nil => intro item hitem; cases hitem
  | cons first parked ih =>
    rw [List.mapM_cons] at h
    obtain ⟨pair, hpair, h⟩ := Option.bind_eq_some_iff.mp h
    obtain ⟨rest, hrest, h⟩ := Option.bind_eq_some_iff.mp h
    cases h
    obtain ⟨answer, hanswer, rfl⟩ := Option.map_eq_some_iff.mp hpair
    intro item hitem
    by_cases hid : item.1.toolCallId = first.1.toolCallId
    · refine ⟨answer, hid ▸ hanswer, ?_⟩
      simp [fetch, hid]
    · have hmem : item ∈ parked := by
        rcases List.mem_cons.mp hitem with rfl | hmem
        · exact absurd rfl hid
        · exact hmem
      obtain ⟨answer', hanswer', hfound⟩ := ih hrest item hmem
      refine ⟨answer', hanswer', ?_⟩
      simp only [fetch, if_neg hid]
      exact hfound

/-- The requests are paired with the answers call by call. -/
theorem fetch_resumed {parked : List (ToolCall × Request)} {answers : List (String × Answer)}
    {rules : String} (hdistinct : (parked.map (fun item => item.1.toolCallId)).Nodup) :
    ∀ item ∈ parked, ∀ answer, fetch item.1.toolCallId answers = some answer →
      fetch item.1.toolCallId (parked.filterMap (fun item =>
        (fetch item.1.toolCallId answers).map (fun answer =>
          (item.1.toolCallId, (⟨answer, item.2, rules⟩ : Resumed))))) =
        some ⟨answer, item.2, rules⟩ := by
  induction parked with
  | nil => intro item hitem; cases hitem
  | cons first parked ih =>
    obtain ⟨hfresh, hrest⟩ := List.nodup_cons.mp hdistinct
    intro item hitem answer hanswer
    rcases List.mem_cons.mp hitem with rfl | hmem
    · simp [hanswer, fetch]
    · have hid : item.1.toolCallId ≠ first.1.toolCallId := by
        intro he
        exact hfresh (List.mem_map.mpr ⟨item, hmem, he⟩)
      have hfound := ih hrest item hmem answer hanswer
      cases hfirst : fetch first.1.toolCallId answers with
      | none => simpa [hfirst] using hfound
      | some other => simpa [hfirst, fetch, hid] using hfound

theorem pairs_of_approvals (hdistinct : Distinct active)
    (h : approvals active.continuation.calls active.answers = some results) :
    Pairs active results := by
  intro item hitem
  obtain ⟨answer, hanswer, hfound⟩ := fetch_mapM h item hitem
  have hids := hdistinct.callIds
  unfold pendingPairs at hids
  rw [List.map_map] at hids
  exact ⟨answer, hanswer, hfound, fetch_resumed hids item hitem answer hanswer⟩

end

/-! What a call has done. -/

/-- A release that failed. -/
def refusedRelease : Event → Bool
  | ⟨_, .ledger (.release ..), .error _⟩ => true
  | _ => false

/-- Operations on the lease and the continuation that wrote no continuation. -/
def Idly (b : String) (i : Nat) (done : List Done) : Prop :=
  ∀ d ∈ done, Clerical d.op ∧ writes b ⟨i, d.op, d.reply⟩ = none

section
variable {b : String} {i t : Nat} {rt : AgentRuntime} {e : Execution} {agent : Agent}
variable {done : List Done} {q : Program Outcome} {controls : Option String} {rules : String}

theorem Idly.not_mem (h : Idly b i done) {d : Done}
    (hacts : ¬ Clerical d.op ∨ writes b ⟨i, d.op, d.reply⟩ ≠ none) : d ∉ done := by
  intro hd
  rcases hacts with hacts | hacts
  · exact hacts (h d hd).1
  · exact hacts (h d hd).2

/-- After a look at the continuation. -/
theorem played_active {α : Type} {f : Option Suspension → Program α} {q : Program α}
    (hledger : rt.executionStore = true) (hb : View.filed ⟨e.conversationId⟩ e.branchId = b)
    (h : Played ((rt.active e).bind f) done q) : Idly b i done ∨
      ∃ v rest, done = ⟨.ledger (.read b Effects.activeSuspension), .ok v⟩ :: rest ∧
        Played (f (liveSuspension v)) rest q := by
  subst hb
  unfold AgentRuntime.active at h
  rw [Course.requireStore_some hledger] at h
  simp only [Prog.bind_eq, Prog.ret_bind, Prog.bind_assoc] at h
  rcases Prog.played_op h with ⟨rfl, -⟩ | ⟨error, rfl, -⟩ | ⟨v, rest, rfl, hrest⟩
  · exact .inl (fun d hd => by cases hd)
  · refine .inl (fun d hd => ?_)
    rw [List.mem_singleton.mp hd]
    exact ⟨trivial, rfl⟩
  · exact .inr ⟨v, rest, rfl, hrest⟩

/-- After the write of a continuation. -/
theorem played_write {α : Type} {f : Unit → Program α} {q : Program α} {active : Suspension}
    (h : Played ((perform (.ledger (.writeControl b Effects.activeSuspension
      (.suspension active) t))).bind f) done q) : Idly b i done ∨
      ∃ rest, done = ⟨.ledger (.writeControl b Effects.activeSuspension (.suspension active) t),
        .ok ()⟩ :: rest ∧ Played (f ()) rest q := by
  rcases Prog.played_op h with ⟨rfl, -⟩ | ⟨error, rfl, -⟩ | ⟨u, rest, rfl, hrest⟩
  · exact .inl (fun d hd => by cases hd)
  · refine .inl (fun d hd => ?_)
    rw [List.mem_singleton.mp hd]
    exact ⟨trivial, rfl⟩
  · exact .inr ⟨rest, rfl, hrest⟩

/-- A call has set out to finalize, and what is left of it is the attempt with these results. -/
def Finalized (b : String) (rt : AgentRuntime) (e : Execution) (t : Nat) (agent : Agent)
    (controls : Option String) (rules : String) (active : Suspension) (done : List Done)
    (q : Program Outcome) : Prop :=
  ∃ results rest,
    done = ⟨.ledger (.writeControl b Effects.activeSuspension (.suspension active) t), .ok ()⟩ ::
      rest ∧ active.state = .resuming ∧ undecided active = [] ∧
    (Distinct active → Pairs active results) ∧
    Played (finalizing rt e t agent controls rules active results) rest q

theorem played_finalize {active : Suspension} {answers : List (String × Answer)}
    (hledger : rt.executionStore = true) (hb : View.filed ⟨e.conversationId⟩ e.branchId = b)
    (hdecided : undecided { active with answers } = [])
    (h : Played (rt.finalize e t agent active answers controls rules) done q) : Idly b i done ∨
      Finalized b rt e t agent controls rules (resuming { active with answers }) done q := by
  subst hb
  unfold AgentRuntime.finalize at h
  rw [Course.requireStore_some hledger] at h
  simp only [Prog.bind_eq, Prog.ret_bind] at h
  split at h
  · obtain ⟨rfl, -⟩ := Prog.played_ended (r := (.error _ : Except Exn Outcome)) h
    exact .inl (fun d hd => by cases hd)
  · rename_i results hresults
    rcases played_write (i := i) h with hidle | ⟨rest, rfl, hrest⟩
    · exact .inl hidle
    · exact .inr ⟨results, rest, rfl, rfl, hdecided,
        fun hdistinct => pairs_of_approvals hdistinct hresults, hrest⟩

/-- An answer accepted while others are missing. -/
def Partial (b : String) (t : Nat) (active : Suspension) (done : List Done)
    (q : Program Outcome) : Prop :=
  undecided active ≠ [] ∧
    done = [⟨.ledger (.writeControl b Effects.activeSuspension (.suspension active) t), .ok ()⟩] ∧
    q = .raise (.agentSuspended (undecided active))

theorem played_resumeLeased {pendingId : String} {payload : Answer}
    (hledger : rt.executionStore = true) (hb : View.filed ⟨e.conversationId⟩ e.branchId = b)
    (h : Played (rt.resumeLeased e t pendingId payload agent controls rules) done q) :
    Idly b i done ∨ ∃ v rest, done = ⟨.ledger (.read b Effects.activeSuspension), .ok v⟩ :: rest ∧
      ∃ active, Partial b t active rest q ∨ undecided active = [] ∧ ∃ rest',
        rest = ⟨.ledger (.writeControl b Effects.activeSuspension (.suspension active) t),
          .ok ()⟩ :: rest' ∧
        (Idly b i rest' ∨ Finalized b rt e t agent controls rules (resuming active) rest' q) := by
  subst hb
  unfold AgentRuntime.resumeLeased at h
  rw [Course.requireStore_some hledger] at h
  simp only [Prog.bind_eq, Prog.ret_bind] at h
  rcases played_active (i := i) hledger rfl h with hidle | ⟨v, rest, rfl, hrest⟩
  · exact .inl hidle
  · split at hrest
    · obtain ⟨rfl, -⟩ := Prog.played_ended (r := (.error _ : Except Exn Outcome)) hrest
      refine .inl (fun d hd => ?_)
      rw [List.mem_singleton.mp hd]
      exact ⟨trivial, rfl⟩
    · rename_i active call _
      rcases played_write (i := i) hrest with hidle | ⟨rest', rfl, hrest'⟩
      · refine .inl (fun d hd => ?_)
        rcases List.mem_cons.mp hd with rfl | hd
        · exact ⟨trivial, rfl⟩
        · exact hidle d hd
      · refine .inr ⟨v, _, rfl, answered active call payload, ?_⟩
        split at hrest'
        · rename_i hdecided
          exact .inr ⟨hdecided, rest', rfl, played_finalize hledger rfl hdecided hrest'⟩
        · rename_i hmissing
          obtain ⟨rfl, rfl⟩ := Prog.played_ended (r := (.error _ : Except Exn Outcome)) hrest'
          exact .inl ⟨hmissing, rfl, rfl⟩

/-- A recovery has found nothing parked. -/
def FoundNothing (b : String) (done : List Done) : Prop :=
  ∃ v, (⟨.ledger (.read b Effects.activeSuspension), .ok v⟩ : Done) ∈ done ∧
    liveSuspension v = none

theorem played_recoverLeased {history : List ModelMessage} (hledger : rt.executionStore = true)
    (hb : View.filed ⟨e.conversationId⟩ e.branchId = b)
    (h : Played (rt.recoverLeased e t agent history controls rules) done q) :
    Idly b i done ∨ FoundNothing b done ∨ ∃ v rest active,
      done = ⟨.ledger (.read b Effects.activeSuspension), .ok v⟩ :: rest ∧
        Finalized b rt e t agent controls rules (resuming active) rest q := by
  have hstore : rt.storeFor e = some ⟨e.conversationId⟩ := by
    simp [AgentRuntime.storeFor, hledger]
  unfold AgentRuntime.recoverLeased at h
  rw [hstore] at h
  simp only [Prog.bind_eq] at h
  rcases played_active (i := i) hledger hb h with hidle | ⟨v, rest, rfl, hrest⟩
  · exact .inl hidle
  · cases hlive : liveSuspension v with
    | none => exact .inr (.inl ⟨v, List.mem_cons_self, hlive⟩)
    | some active =>
      have hread : ∀ rest', Idly b i rest' →
          Idly b i (⟨.ledger (.read b Effects.activeSuspension), .ok v⟩ :: rest') := by
        intro rest' hidle d hd
        rcases List.mem_cons.mp hd with rfl | hd
        · exact ⟨trivial, rfl⟩
        · exact hidle d hd
      rw [hlive] at hrest
      dsimp only at hrest
      split at hrest
      · rename_i hdecided
        rcases played_finalize (i := i) hledger hb hdecided hrest with hidle | hfinal
        · exact .inl (hread rest hidle)
        · exact .inr (.inr ⟨v, rest, active, rfl, hfinal⟩)
      · obtain ⟨rfl, -⟩ := Prog.played_ended (r := (.error _ : Except Exn Outcome)) hrest
        exact .inl (hread [] (fun d hd => by cases hd))

/-- What a call under the lease has done: it has not entered its body, or what it has done since
is its body's, but for the lease it gives back at the end. -/
theorem played_lease {body : Nat → Program Outcome} (hledger : rt.executionStore = true)
    (hb : View.filed ⟨e.conversationId⟩ e.branchId = b)
    (h : Played (rt.lease e body) done q) : Idly b i done ∨
      ∃ front rest t owner, done = front ++ rest ∧ Idly b i front ∧
        Played ((body t).finally_ (perform (.ledger (.release b owner)))) rest q := by
  have hstore : rt.storeFor e = some ⟨e.conversationId⟩ := by
    simp [AgentRuntime.storeFor, hledger]
  subst hb
  unfold AgentRuntime.lease at h
  rw [hstore] at h
  simp only [Prog.bind_eq] at h
  have hlone : ∀ d : Done, Clerical d.op →
      writes (View.filed ⟨e.conversationId⟩ e.branchId) ⟨i, d.op, d.reply⟩ = none →
      Idly (View.filed ⟨e.conversationId⟩ e.branchId) i [d] := by
    intro d hclerical hquiet d' hd'
    rw [List.mem_singleton.mp hd']
    exact ⟨hclerical, hquiet⟩
  have hpair : ∀ owner (r : Except Exn Nat), Idly (View.filed ⟨e.conversationId⟩ e.branchId) i
      [⟨.uuid4, .ok owner⟩, ⟨.ledger (.acquire (View.filed ⟨e.conversationId⟩ e.branchId) owner
        rt.leaseTtl), r⟩] := by
    intro owner r d hd
    rcases List.mem_cons.mp hd with rfl | hd
    · exact ⟨trivial, rfl⟩
    · rw [List.mem_singleton.mp hd]
      exact ⟨trivial, rfl⟩
  rcases Prog.played_op h with ⟨rfl, -⟩ | ⟨error, rfl, -⟩ | ⟨owner, rest, rfl, hrest⟩
  · exact .inl (fun d hd => by cases hd)
  · exact .inl (hlone ⟨.uuid4, .error error⟩ trivial rfl)
  · rcases Prog.played_op hrest with ⟨rfl, -⟩ | ⟨error, rfl, -⟩ | ⟨t, rest', rfl, hrest'⟩
    · exact .inl (hlone ⟨.uuid4, .ok owner⟩ trivial rfl)
    · exact .inl (hpair owner _)
    · split at hrest'
      · obtain ⟨rfl, -⟩ := Prog.played_ended (r := (.error _ : Except Exn Outcome)) hrest'
        exact .inl (hpair owner _)
      · exact .inr ⟨_, rest', t, owner, rfl, hpair owner (.ok t), hrest'⟩

/-- Giving the lease back, which nothing refuses. -/
theorem played_release {r : Except Exn Outcome} {owner : String}
    (h : Played ((Prog.ofExcept r).finally_ (perform (.ledger (.release b owner)))) done q)
    (hfreed : ∀ d ∈ done, refusedRelease ⟨i, d.op, d.reply⟩ = false) : Idly b i done ∧
      (q = (Prog.ofExcept r).finally_ (perform (.ledger (.release b owner))) ∨
        q = Prog.ofExcept r) := by
  have hthen : (Prog.ofExcept r : Program Outcome).finally_
      (perform (.ledger (.release b owner))) =
        (perform (.ledger (.release b owner))).bind (fun _ => Prog.ofExcept r) := by
    cases r <;> rfl
  rw [hthen] at h ⊢
  rcases Prog.played_op h with ⟨rfl, rfl⟩ | ⟨error, rfl, -⟩ | ⟨u, rest, rfl, hrest⟩
  · exact ⟨(fun d hd => by cases hd), .inl rfl⟩
  · cases hfreed _ (List.mem_singleton_self _)
  · obtain ⟨rfl, rfl⟩ := Prog.played_ended hrest
    refine ⟨?_, .inr rfl⟩
    intro d hd
    rw [List.mem_singleton.mp hd]
    exact ⟨trivial, rfl⟩

/-- What is left of a finalization answers nothing more. -/
theorem finalizing_quiet {active : Suspension} {results : DeferredToolResults}
    (hb : View.filed ⟨e.conversationId⟩ e.branchId = b) (gathers : Gathers agent.toPydanticAI)
    (h : Played (finalizing rt e t agent controls rules active results) done q) :
    ∀ d ∈ done, writes b ⟨i, d.op, d.reply⟩ = none := by
  subst hb
  have hall : (finalizing rt e t agent controls rules active results).AllOps
      (fun o => ∀ r, writes (View.filed ⟨e.conversationId⟩ e.branchId) ⟨i, o, r⟩ = none) := by
    apply Prog.allOps_bind
    · apply (parks_attemptRun (b := View.filed ⟨e.conversationId⟩ e.branchId) (t := t) rt
        (rejoined e active) gathers none _).mono
      intro o ho r
      rcases ho with hcalm | ⟨items, active, rfl, -⟩
      · exact calm_writes hcalm
      · rfl
    · intro outcome
      exact Prog.allOps_bind ((Prog.allOps_op _).mpr (fun _ => rfl)) (fun _ => trivial)
  exact fun d hd => (h.allOps hall).1 d hd d.reply

/-- A call that has accepted an answer and left others missing has done no more than that. -/
theorem resumeLeased_missing {pendingId : String} {payload : Answer} {active : Suspension}
    (hledger : rt.executionStore = true) (hb : View.filed ⟨e.conversationId⟩ e.branchId = b)
    (gathers : Gathers agent.toPydanticAI)
    (h : Played (rt.resumeLeased e t pendingId payload agent controls rules) done q) {d : Done}
    (hd : d ∈ done) (hwrites : writes b ⟨i, d.op, d.reply⟩ = some active)
    (hmissing : undecided active ≠ []) :
    (∀ d ∈ done, Clerical d.op) ∧ q = .raise (.agentSuspended (undecided active)) := by
  have hput : ∀ active' : Suspension, writes b ⟨i, .ledger (.writeControl b
      Effects.activeSuspension (.suspension active') t), .ok ()⟩ = some active' :=
    fun active' => if_pos ⟨rfl, rfl⟩
  rcases played_resumeLeased (i := i) hledger hb h with hidle | ⟨v, rest, rfl, answer, hrest⟩
  · cases (hidle d hd).2.symm.trans hwrites
  · rcases List.mem_cons.mp hd with rfl | hd
    · cases hwrites
    · rcases hrest with ⟨-, rfl, rfl⟩ | ⟨hdecided, rest', rfl, hrest'⟩
      · rw [List.mem_singleton.mp hd, hput] at hwrites
        cases hwrites
        refine ⟨?_, rfl⟩
        intro d' hd'
        rcases List.mem_cons.mp hd' with rfl | hd'
        · trivial
        · rw [List.mem_singleton.mp hd']
          trivial
      · rcases List.mem_cons.mp hd with rfl | hd
        · rw [hput] at hwrites
          cases hwrites
          exact absurd hdecided hmissing
        · rcases hrest' with hidle | ⟨results, rest'', rfl, -, hagain, -, hplayed⟩
          · cases (hidle d hd).2.symm.trans hwrites
          · rcases List.mem_cons.mp hd with rfl | hd
            · rw [hput] at hwrites
              cases hwrites
              exact absurd hagain hmissing
            · cases (finalizing_quiet hb gathers hplayed d hd).symm.trans hwrites

/-- A call has done `front`, clerical all of it, then set out to finalize the round it wrote, and
what is left of it is the attempt with these results, and the lease to give back. -/
def Finalizes (b : String) (rt : AgentRuntime) (e : Execution) (agent : Agent)
    (controls : Option String) (rules : String) (done : List Done) (q : Program Outcome) : Prop :=
  ∃ front active results t owner rest,
    done = front ++
      ⟨.ledger (.writeControl b Effects.activeSuspension (.suspension active) t), .ok ()⟩ :: rest ∧
    (∀ d ∈ front, Clerical d.op) ∧ undecided active = [] ∧
    (Distinct active → Pairs active results) ∧
    Played ((finalizing rt e t agent controls rules active results).finally_
      (perform (.ledger (.release b owner)))) rest q

theorem Finalized.finalizes {active : Suspension} {front rest done' : List Done}
    {p' : Program Outcome} {owner : String}
    (h : Finalized b rt e t agent controls rules active rest p')
    (hfront : ∀ d ∈ front, Clerical d.op)
    (hafter : Played (p'.finally_ (perform (.ledger (.release b owner)))) done' q) :
    Finalizes b rt e agent controls rules (front ++ rest ++ done') q := by
  obtain ⟨results, rest', rfl, -, hdecided, hpairs, hplayed⟩ := h
  refine ⟨front, active, results, t, owner, rest' ++ done', ?_, hfront, hdecided, hpairs, ?_⟩
  · simp
  · exact (hplayed.finally_ _).append hafter

/-- Where a call under the lease is, once it has entered its body: part way through that, or past
it and giving the lease back. -/
structure Leased (b : String) (i : Nat) (p : Program Outcome) (owner : String)
    (done front middle after : List Done) (left q : Program Outcome) : Prop where
  all : done = front ++ middle ++ after
  before : Idly b i front
  played : Played p middle left
  last : Played (left.finally_ (perform (.ledger (.release b owner)))) after q
  idle : Idly b i after
  there : q = left.finally_ (perform (.ledger (.release b owner))) ∨ q = left

theorem played_leased {body : Nat → Program Outcome} (hledger : rt.executionStore = true)
    (hb : View.filed ⟨e.conversationId⟩ e.branchId = b) (h : Played (rt.lease e body) done q)
    (hfreed : ∀ d ∈ done, refusedRelease ⟨i, d.op, d.reply⟩ = false) :
    Idly b i done ∨ ∃ t owner front middle after left,
      Leased b i (body t) owner done front middle after left q := by
  rcases played_lease (i := i) hledger hb h with hidle | ⟨front, rest, t, owner, rfl, hidle, hrest⟩
  · exact .inl hidle
  · obtain ⟨middle, after, left, rfl, hplayed, hafter, hend⟩ := Prog.played_finally hrest
    have hlast : Idly b i after ∧
        (q = left.finally_ (perform (.ledger (.release b owner))) ∨ q = left) := by
      rcases hend with rfl | ⟨r, rfl⟩
      · exact ⟨(fun d hd => by cases hd), .inl (Prog.played_nil hafter)⟩
      · exact played_release hafter (fun d hd => hfreed d (by simp [hd]))
    exact .inr ⟨t, owner, front, middle, after, left, (List.append_assoc _ _ _).symm, hidle,
      hplayed, hafter, hlast.1, hlast.2⟩

/-- What a call has done beyond clerical work it has done in its body. -/
theorem Leased.acting {p left : Program Outcome} {owner : String} {front middle after : List Done}
    (h : Leased b i p owner done front middle after left q) {d : Done} (hd : d ∈ done)
    (hacts : ¬ Clerical d.op ∨ writes b ⟨i, d.op, d.reply⟩ ≠ none) : d ∈ middle := by
  rw [h.all] at hd
  simp only [List.mem_append] at hd
  rcases hd with (hd | hd) | hd
  · exact absurd hd (h.before.not_mem hacts)
  · exact hd
  · exact absurd hd (h.idle.not_mem hacts)

/-- A resumption that has accepted an answer and left calls undecided has executed nothing, and
raises what is missing. -/
theorem resume_missing {pendingId : String} {payload : Answer} {active : Suspension}
    (hledger : rt.executionStore = true) (hb : View.filed ⟨e.conversationId⟩ e.branchId = b)
    (gathers : Gathers agent.toPydanticAI)
    (h : Played (rt.resume e pendingId payload agent controls rules) done q)
    (hfreed : ∀ d ∈ done, refusedRelease ⟨i, d.op, d.reply⟩ = false) {d : Done} (hd : d ∈ done)
    (hwrites : writes b ⟨i, d.op, d.reply⟩ = some active) (hmissing : undecided active ≠ []) :
    (∀ d ∈ done, Clerical d.op) ∧ ∃ owner,
      q = (Prog.raise (.agentSuspended (undecided active)) : Program Outcome).finally_
        (perform (.ledger (.release b owner))) ∨
      q = .raise (.agentSuspended (undecided active)) := by
  unfold AgentRuntime.resume at h
  rw [Course.requireStore_some hledger] at h
  simp only [Prog.bind_eq, Prog.ret_bind] at h
  rcases played_leased hledger hb h hfreed with hidle |
    ⟨t, owner, front, middle, after, left, leased⟩
  · cases (hidle d hd).2.symm.trans hwrites
  · have hmem := leased.acting hd (.inr (by simp [hwrites]))
    obtain ⟨hclerical, hleft⟩ :=
      resumeLeased_missing hledger hb gathers leased.played hmem hwrites hmissing
    have hthere := leased.there
    rw [hleft] at hthere
    refine ⟨?_, owner, hthere⟩
    intro d' hd'
    rw [leased.all] at hd'
    simp only [List.mem_append] at hd'
    rcases hd' with (hd' | hd') | hd'
    · exact (leased.before d' hd').1
    · exact hclerical d' hd'
    · exact (leased.idle d' hd').1

/-- A resumption that has done more than clerical work is finalizing. -/
theorem resume_finalizes {pendingId : String} {payload : Answer}
    (hledger : rt.executionStore = true) (hb : View.filed ⟨e.conversationId⟩ e.branchId = b)
    (h : Played (rt.resume e pendingId payload agent controls rules) done q)
    (hfreed : ∀ d ∈ done, refusedRelease ⟨i, d.op, d.reply⟩ = false) {d : Done} (hd : d ∈ done)
    (hacts : ¬ Clerical d.op) : Finalizes b rt e agent controls rules done q := by
  unfold AgentRuntime.resume at h
  rw [Course.requireStore_some hledger] at h
  simp only [Prog.bind_eq, Prog.ret_bind] at h
  rcases played_leased hledger hb h hfreed with hidle |
    ⟨t, owner, front, middle, after, left, leased⟩
  · exact absurd (hidle d hd).1 hacts
  · have hmem := leased.acting hd (.inl hacts)
    obtain ⟨rfl, hbefore, hplayed, hlast, -, -⟩ := leased
    have hfront : ∀ (done' : List Done), (∀ d ∈ done', Clerical d.op) →
        ∀ d ∈ front ++ done', Clerical d.op := by
      intro done' hdone' d' hd'
      rcases List.mem_append.mp hd' with hd' | hd'
      · exact (hbefore d' hd').1
      · exact hdone' d' hd'
    rcases played_resumeLeased (i := i) hledger hb hplayed with hidle | ⟨v, rest, rfl, active, hrest⟩
    · exact absurd (hidle d hmem).1 hacts
    · rcases List.mem_cons.mp hmem with rfl | hmem
      · exact absurd trivial hacts
      · rcases hrest with ⟨-, rfl, rfl⟩ | ⟨-, rest', rfl, hrest'⟩
        · rw [List.mem_singleton.mp hmem] at hacts
          exact absurd trivial hacts
        · rcases List.mem_cons.mp hmem with rfl | hmem
          · exact absurd trivial hacts
          · rcases hrest' with hidle | hfinal
            · exact absurd (hidle d hmem).1 hacts
            · have hdone := hfinal.finalizes (hfront
                [⟨.ledger (.read b Effects.activeSuspension), .ok v⟩,
                  ⟨.ledger (.writeControl b Effects.activeSuspension (.suspension active) t),
                    .ok ()⟩] (by simp [Clerical])) hlast
              simpa using hdone

/-- A recovery that has written a continuation, or done more than clerical work, is finalizing,
unless it has found nothing parked. -/
theorem recover_finalizes {history : List ModelMessage}
    (hledger : rt.executionStore = true) (hb : View.filed ⟨e.conversationId⟩ e.branchId = b)
    (h : Played (rt.recover e agent history controls rules) done q)
    (hfreed : ∀ d ∈ done, refusedRelease ⟨i, d.op, d.reply⟩ = false) {d : Done} (hd : d ∈ done)
    (hacts : ¬ Clerical d.op ∨ writes b ⟨i, d.op, d.reply⟩ ≠ none) :
    Finalizes b rt e agent controls rules done q ∨ FoundNothing b done := by
  rcases played_leased hledger hb h hfreed with hidle |
    ⟨t, owner, front, middle, after, left, leased⟩
  · exact absurd hd (hidle.not_mem hacts)
  · have hmem := leased.acting hd hacts
    obtain ⟨rfl, hbefore, hplayed, hlast, -, -⟩ := leased
    rcases played_recoverLeased (i := i) hledger hb hplayed with
      hidle | ⟨v, hread, hnone⟩ | ⟨v, rest, active, rfl, hfinal⟩
    · exact absurd hmem (hidle.not_mem hacts)
    · refine .inr ⟨v, ?_, hnone⟩
      simp [hread]
    · refine .inl ?_
      have hclerical : ∀ d ∈ front ++ [⟨.ledger (.read b Effects.activeSuspension), .ok v⟩],
          Clerical d.op := by
        intro d' hd'
        rcases List.mem_append.mp hd' with hd' | hd'
        · exact (hbefore d' hd').1
        · rw [List.mem_singleton.mp hd']
          trivial
      have hdone := hfinal.finalizes hclerical hlast
      simpa using hdone

end

/-! Together. -/

/-- What a thread has performed. -/
def did (i : Nat) (events : List Event) : List Done :=
  (log i events).map (fun e => ⟨e.op, e.reply⟩)

namespace Errand

def controls : Errand → Option String
  | .run _ options => options.controls
  | .resume _ _ controls _ | .recover _ controls _ => controls

def rulesVersion : Errand → String
  | .run _ options => options.rulesVersion
  | .resume _ _ _ rulesVersion | .recover _ _ rulesVersion => rulesVersion

def recovers : Errand → Bool
  | .recover .. => true
  | _ => false

def resumes : Errand → Bool
  | .resume .. => true
  | _ => false

end Errand

section
variable {out : Outside} {self : Nat → Nat} {b : String}

/-- Batch answers are neither lost nor mixed up. -/
structure Sound (callers : Nat → Caller b) (pool : Nat → Program Outcome) (s : Scene) : Prop where
  kept : ∀ active pendingId payload, Distinct active →
    Latest b (fun i => (callers i).asks) s.events active pendingId payload →
      ∃ active', live b s = some active' ∧ active'.continuation = active.continuation ∧
        Holds active' pendingId payload
  own : Recorded b (fun i => (callers i).asks) s
  missing : ∀ i, (callers i).errand.resumes = true → ∀ e ∈ log i s.events, ∀ active,
    writes b e = some active → undecided active ≠ [] →
      (∀ f ∈ log i s.events, Clerical f.op) ∧ ∃ owner,
        pool i = (Prog.raise (.agentSuspended (undecided active)) : Program Outcome).finally_
          (perform (.ledger (.release b owner))) ∨
        pool i = .raise (.agentSuspended (undecided active))
  finalizes : ∀ i, (callers i).errand.resumes = true ∨ (callers i).errand.recovers = true →
    (∃ e ∈ log i s.events, ¬ Clerical e.op ∨
      (callers i).errand.recovers = true ∧ writes b e ≠ none) →
      Finalizes b (callers i).rt (callers i).execution (callers i).agent
        (callers i).errand.controls (callers i).errand.rulesVersion (did i s.events) (pool i) ∨
      (callers i).errand.recovers = true ∧ FoundNothing b (did i s.events)

variable {callers : Nat → Caller b} {attempts : Nat → Attempt} {pool : Nat → Program Outcome}
variable {s : Scene}

theorem released {pool₀ : Nat → Program Outcome}
    (run : Interleaved (exec out self) (Parked.Elsewhere out b) pool₀ ⟨{}, attempts, []⟩ pool s) :
    ∀ e ∈ s.events, refusedRelease e = false := by
  induction run with
  | start =>
    intro e he
    cases he
  | @op pool' s' i o k r s'' _ _ done ih =>
    obtain ⟨hevents, -, hreply⟩ := exec_events done
    intro e he
    rw [hevents] at he
    rcases List.mem_append.mp he with he | he
    · exact ih e he
    · rw [List.mem_singleton.mp he, hreply]
      cases o with
      | ledger c => cases c <;> rfl
      | _ => rfl
  | env _ move ih =>
    rw [(Parked.elsewhere_same move).1]
    exact ih

theorem run_did {pool₀ : Nat → Program Outcome}
    (run : Interleaved (exec out self) (Parked.Elsewhere out b) pool₀ ⟨{}, attempts, []⟩ pool s)
    (i : Nat) : Played (pool₀ i) (did i s.events) (pool i) := by
  obtain ⟨done, hdone, hplayed⟩ := Prog.interleaved_played (fun i s => did i s.events)
    (by
      intro i o s r s' he
      obtain ⟨hevents, -, -⟩ := exec_events he
      refine ⟨?_, ?_⟩
      · simp [did, log_mine hevents]
      · intro j hj
        simp [did, log_other hevents j hj])
    (by
      intro s s' move i
      rw [(Parked.elsewhere_same move).1]) run i
  have hstart : did i ([] : List Event) = [] := rfl
  rw [hdone, hstart, List.nil_append]
  exact hplayed

theorem did_of_mem {i : Nat} {e : Event} (h : e ∈ log i s.events) :
    (⟨e.op, e.reply⟩ : Done) ∈ did i s.events ∧ (⟨i, e.op, e.reply⟩ : Event) = e := by
  refine ⟨List.mem_map_of_mem h, ?_⟩
  have hthread := of_decide_eq_true (List.mem_filter.mp h).2
  subst hthread
  rfl

theorem did_released (h : ∀ e ∈ s.events, refusedRelease e = false) (i : Nat) :
    ∀ d ∈ did i s.events, refusedRelease ⟨i, d.op, d.reply⟩ = false := by
  intro d hd
  obtain ⟨e, he, rfl⟩ := List.mem_map.mp hd
  dsimp only
  rw [(did_of_mem he).2]
  exact h e (List.mem_filter.mp he).1

/-- However the calls on a branch interleave, whenever a lease changes hands. -/
theorem answers_sound (run : Interleaved (exec out self) (Parked.Elsewhere out b)
    (fun i => (callers i).program) ⟨{}, attempts, []⟩ pool s) : Sound callers pool s := by
  obtain ⟨hfaithful, hrecorded⟩ := run_faithful callers run
  refine ⟨hfaithful.kept, hrecorded, ?_, ?_⟩
  · intro i hresumes e he active hwrites hmissing
    have hplayed := run_did run i
    have hfreed := did_released (released run) i
    obtain ⟨hdid, heta⟩ := did_of_mem he
    rw [← heta] at hwrites
    generalize hc : callers i = c at hresumes hplayed
    obtain ⟨rt, execution, agent, errand, hledger, hb, gathers⟩ := c
    cases errand with
    | resume pendingId payload controls rules =>
      obtain ⟨hclerical, hthere⟩ :=
        resume_missing hledger hb gathers hplayed hfreed hdid hwrites hmissing
      refine ⟨?_, hthere⟩
      intro f hf
      exact hclerical _ (did_of_mem hf).1
    | run prompt options => cases hresumes
    | recover history controls rules => cases hresumes
  · intro i herrand hacting
    obtain ⟨e, he, hacts⟩ := hacting
    have hplayed := run_did run i
    have hfreed := did_released (released run) i
    obtain ⟨hdid, heta⟩ := did_of_mem he
    rw [← heta] at hacts
    generalize callers i = c at herrand hplayed hacts ⊢
    obtain ⟨rt, execution, agent, errand, hledger, hb, gathers⟩ := c
    cases errand with
    | resume pendingId payload controls rules =>
      rcases hacts with hacts | ⟨hrecovers, -⟩
      · exact .inl (resume_finalizes hledger hb hplayed hfreed hdid hacts)
      · cases hrecovers
    | recover history controls rules =>
      rcases recover_finalizes hledger hb hplayed hfreed hdid (hacts.imp_right And.right) with
        hfinal | hnothing
      · exact .inl hfinal
      · exact .inr ⟨rfl, hnothing⟩
    | run prompt options => rcases herrand with h | h <;> cases h

end

/-- A model that calls a tool twice, behind a policy that asks a person about each call. -/
def askingTwice : Outside :=
  .answering (fun _ _ _ => .ok .null)
    (fun _ _ => .ok { parts := [.toolCall ⟨"send", .dict [], "c1"⟩,
      .toolCall ⟨"send", .dict [], "c2"⟩] })
    (fun _ _ q => match q with
      | .preToolUse _ call => .ok (.suspend
          { pendingId := some (if call.toolCallId = "c1" then "p1" else "p2") })
      | .onInputs _ inputs => .ok (.inputs inputs)
      | .beforeModel _ => .ok (.proceed [])
      | .onResume .. => .ok .continue
      | .onSuspend .. => .ok ()
      | _ => .error (.other "not asked"))

def oneAgent : Agent := { PydanticAI.standard (fun _ => "") [] 8 with }

theorem oneAgent_plain : Gathers oneAgent.toPydanticAI := gathers_standard _ _ _

def oneRun : Execution := { branchId := "run" }

theorem oneRun_here : View.filed ⟨oneRun.conversationId⟩ oneRun.branchId = "run" := rfl

theorem ledger_default : ({} : AgentRuntime).executionStore = true := rfl

/-- A prompt that parks both calls, and an answer to the second. -/
def promptThenAnswer (i : Nat) : Caller "run" where
  rt := {}
  execution := oneRun
  agent := oneAgent
  errand := if i = 0 then .run (some "hi") { controls := some "plane" }
    else .resume "p2" {} (some "plane") ""
  ledger := ledger_default
  here := oneRun_here
  plain := oneAgent_plain

/-- The answer has come, and the first call waits for its own. -/
def halfAnswered : (Nat → Program Outcome) × Scene :=
  scheduled (Scene.perform askingTwice id) (List.replicate 70 0 ++ List.replicate 6 1)
    (fun i => (promptThenAnswer i).program) ⟨{}, fun _ => {}, []⟩

theorem answers_sound_half : Sound promptThenAnswer halfAnswered.1 halfAnswered.2 ∧
    (live "run" halfAnswered.2).map undecided = some [("p1", "c1")] :=
  ⟨answers_sound (interleaved_scheduled (Scene.perform askingTwice id) _ _ _ _),
    by decide +kernel⟩

end Semora.Proofs.Answers
