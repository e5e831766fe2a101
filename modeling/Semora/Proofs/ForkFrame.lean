import Semora.Proofs.Coordinates
import Semora.Scene

/-! Forks and the branch they start from: what no operation of a fork writes. -/

namespace Semora.Proofs.ForkFrame
open Semora.Lib Semora.Store Semora.Transcript
open Outside (unasked)

/-- The source's steps, controls, lease and inputs, and its committed history, are the same. -/
structure Kept (src : Execution) (w w' : World) : Prop where
  ledger : Agree (filedName src) w.store w'.store
  history : messagesOf (w'.transcript.read src.conversation) =
    messagesOf (w.transcript.read src.conversation)

/-- Whatever happens to the stores in between, no operation of a fork from `src` into `dst` writes
the source. -/
def Framed (src dst : Execution) : Prop :=
  ∀ (out : Outside) (rt : AgentRuntime) (at_ : Option Uuid) (agent : Agent) (prompt : Option String)
    (history : Option (List ModelMessage)) (regate : Bool) (options : Options),
    Gathers agent.toPydanticAI → ∀ (i : Nat) (s t u : Scene) (o : Op)
    (k : Except Exn o.Res → Program Outcome) (r : Except Exn o.Res),
    Prog.Runs (exec out id i) (fun s s' => s'.attempts i = s.attempts i)
      (rt.fork src at_ dst agent prompt history regate options) s (.call o k) t →
    exec out id i o t r u → Kept src t.world u.world

/-- The operation reads, or is about another branch and another conversation. -/
def Apart (src : Execution) : Op → Prop
  | .ledger c => (∃ b k, c = .read b k) ∨ c.branchId ≠ filedName src
  | .append entry => entry.conversationId ≠ src.conversation
  | _ => True

section
variable {src dst : Execution}

theorem apart_kept {o : Op} (h : Apart src o) (out : Outside) (w : World) (a : Attempt) :
    Kept src w (step out o w a).2.1 := by
  cases o with
  | ledger c =>
    refine ⟨?_, rfl⟩
    rcases h with ⟨b, k, rfl⟩ | h
    · exact .refl _ _
    · exact exec_other c _ _ _ h
  | append entry =>
    refine ⟨.refl _ _, ?_⟩
    simp only [step]
    rw [MemoryTranscript.read_append_other _ (Ne.symm h)]
  | readEntries | recordBranch | readBranch | recordModelUsage | handle | provide | ask | uuid4 | now
  | get | modify => exact ⟨.refl _ _, rfl⟩

/-- What is about the target is about no part of a source with another name in another
conversation. -/
theorem addresses_apart (hname : filedName src ≠ filedName dst)
    (hconversation : src.conversation ≠ dst.conversation) {o : Op} (h : Addresses dst o) :
    Apart src o := by
  cases o with
  | ledger c => exact .inr (fun he => hname (he.symm.trans h))
  | append entry => exact fun he => hconversation (he.symm.trans h)
  | readEntries | recordBranch | readBranch | recordModelUsage | handle | provide | ask | uuid4 | now
  | get | modify => trivial

variable {rt : AgentRuntime}

theorem apart_forkHistory (at_ : Option Uuid) (history : Option (List ModelMessage)) :
    (rt.forkHistory src at_ history).AllOps (Apart src) := by
  unfold AgentRuntime.forkHistory
  split
  · trivial
  · split
    · refine Prog.allOps_bind ((Prog.allOps_op _).mpr trivial) (fun entries => ?_)
      split
      · trivial
      · split <;> trivial
    · trivial

theorem apart_copyRound (hname : filedName src ≠ filedName dst) (token : Nat)
    (history : List ModelMessage) : (rt.copyRound src dst token history).AllOps (Apart src) := by
  unfold AgentRuntime.copyRound
  split
  · rename_i source target _ htarget
    have hfiled : target.filed dst.branchId ≠ filedName src := by
      rw [storeFor_view htarget]
      exact Ne.symm hname
    induction unansweredToolCalls history with
    | nil => trivial
    | cons call calls ih =>
      refine Prog.allOps_bind ((Prog.allOps_op _).mpr (.inl ⟨_, _, rfl⟩)) (fun record => ?_)
      split
      · exact ih
      · exact Prog.allOps_bind ((Prog.allOps_op _).mpr (.inr hfiled)) (fun _ => ih)
      · refine Prog.allOps_bind ((Prog.allOps_op _).mpr (.inr hfiled)) (fun inserted => ?_)
        split
        · exact Prog.allOps_bind ((Prog.allOps_op _).mpr (.inr hfiled)) (fun _ =>
            Prog.allOps_bind ih (fun _ => trivial))
        · exact ih
  · trivial

theorem apart_fork (hname : filedName src ≠ filedName dst)
    (hconversation : src.conversation ≠ dst.conversation) {agent : Agent}
    (gathers : Gathers agent.toPydanticAI) (at_ : Option Uuid) (prompt : Option String)
    (history : Option (List ModelMessage)) (regate : Bool) (options : Options) :
    (rt.fork src at_ dst agent prompt history regate options).AllOps (Apart src) := by
  refine Prog.allOps_bind (apart_forkHistory at_ history) (fun history => ?_)
  have hbody : ∀ token, Prog.AllOps (Apart src) (do
      let copied ← rt.copyRound src dst token history
      rt.attemptRun dst token agent prompt
        { options with messageHistory := some history, regate := if regate then copied else [] }) := by
    intro token
    refine Prog.allOps_bind (apart_copyRound hname token history) (fun copied => ?_)
    exact Prog.AllOps.mono (addresses_attemptRun token agent _ gathers prompt)
      (fun _ => addresses_apart hname hconversation)
  unfold AgentRuntime.lease
  split
  · exact hbody 0
  · rename_i store hstore
    have hfiled : store.filed dst.branchId ≠ filedName src := by
      rw [storeFor_view hstore]
      exact Ne.symm hname
    refine Prog.allOps_bind ((Prog.allOps_op _).mpr trivial) (fun owner =>
      Prog.allOps_bind ((Prog.allOps_op _).mpr (.inr hfiled)) (fun token => ?_))
    split
    · trivial
    · exact Prog.allOps_finally (hbody token) ((Prog.allOps_op _).mpr (.inr hfiled))

/-! The two ways a fork writes its source. -/

def plain : Agent := { toPydanticAI := .standard (fun _ => "") [] 0 }

/-- What a fork that has come to a program goes on to do alone. -/
theorem framed_alone (h : Framed src dst) {rt : AgentRuntime} {history : List ModelMessage}
    {s s' t : Scene} {q : Program Outcome} {n : Nat} {o : Op} {k : Except Exn o.Res → Program Outcome}
    (run : Prog.Runs (exec unasked id 0) (fun s s' => s'.attempts 0 = s.attempts 0)
      (rt.fork src none dst plain none (some history) false {}) s q s')
    (he : q.crash (fun o s => s.perform unasked id 0 o) n s' = (.call o k, t)) :
    Kept src t.world (t.perform unasked id 0 o).2.world := by
  have hrun := run.crash n
  rw [he] at hrun
  exact h unasked rt none plain none (some history) false {} (gathers_standard _ _ _) 0 s t _ o k _
    hrun rfl

/-- A target filed under the source's name is leased under it. -/
theorem unframed_name (hname : filedName src = filedName dst) : ¬ Framed src dst := by
  intro h
  have hrun : Prog.Runs (exec unasked id 0) (fun s s' => s'.attempts 0 = s.attempts 0)
      (({} : AgentRuntime).fork src none dst plain none (some []) false {}) ⟨{}, fun _ => {}, []⟩ _ _ :=
    .refl _ _
  have hkept := framed_alone h (n := 1) hrun rfl
  have htokens := hkept.ledger.tokens
  rw [hname] at htokens
  cases (Dict.get?_insert_self .empty (filedName dst) 1).symm.trans htokens

def asked : ModelMessage := .request { parts := [.userPrompt (.str "hi") .null] }

/-- A target in the source's conversation moves its tip: here back before its first message. -/
theorem unframed_conversation (hconversation : src.conversation = dst.conversation) :
    ¬ Framed src dst := by
  intro h
  let e := messageEntry asked dst.conversation none 0
  let s : Scene := ⟨{ transcript := { rows := Dict.empty.insert dst.conversation [e] } },
    fun _ => {}, []⟩
  have hread : s.world.transcript.read dst.conversation = [e] := by
    simp [s, MemoryTranscript.read]
  let s₁ := (s.perform unasked id 0 (.modify (fun _ => {}))).2
  have hreply : s₁.perform unasked id 0 (.readEntries dst.conversation) =
      (.ok [e], (s₁.perform unasked id 0 (.readEntries dst.conversation)).2) := by
    rw [← hread]
    rfl
  have hrun : Prog.Runs (exec unasked id 0) (fun s s' => s'.attempts 0 = s.attempts 0)
      (({ executionStore := false } : AgentRuntime).fork src none dst plain none (some []) false {})
      s _ _ := .op (Prog.Runs.crash (.refl _ s) 1) hreply
  have hhistory := (framed_alone h (n := 5) hrun rfl).history
  rw [hconversation] at hhistory
  -- Only the run record was written meanwhile; the next operation appends a marker.
  have hbefore : ∀ transcript : MemoryTranscript, transcript.rows = s.world.transcript.rows →
      messagesOf ((transcript.append (leafEntry dst.conversation none 6)).2.read dst.conversation) =
        [] := by
    intro transcript hrows
    have hsame : transcript.read dst.conversation = [e] := by
      rw [← hread]
      unfold MemoryTranscript.read
      rw [hrows]
    have hnew : ∀ old ∈ transcript.read dst.conversation,
        old.uuid ≠ (leafEntry dst.conversation none 6).uuid := by
      rw [hsame]
      simp [e, messageEntry, leafEntry, entryId]
    have hmine : dst.conversation = (leafEntry dst.conversation none 6).conversationId := rfl
    rw [(transcript.append_new hnew).2.2, if_pos hmine, hsame]
    rfl
  have hstays : messagesOf (s.world.transcript.read dst.conversation) = [asked] := by
    rw [hread]
    rfl
  refine absurd (((hbefore _ ?_).symm.trans hhistory).trans hstays) (by simp)
  rfl

/-- A fork into one coordinate leaves the source at another alone, at every operation and in
whatever run, if and only if the two are filed apart and belong to different conversations. -/
theorem framed_iff (src dst : Execution) :
    Framed src dst ↔ filedName src ≠ filedName dst ∧ src.conversation ≠ dst.conversation := by
  constructor
  · intro h
    exact ⟨fun hname => unframed_name hname h, fun hsame => unframed_conversation hsame h⟩
  · rintro ⟨hname, hconversation⟩ out rt at_ agent prompt history regate options gathers i s t u o k r
      run he
    have hops := Prog.runs_allOps
      (apart_fork hname hconversation gathers at_ prompt history regate options) run
    rw [(exec_events he).2.1]
    exact apart_kept hops.1 out t.world _

/-- A target beside its source in one conversation. -/
theorem not_always_framed : ¬ ∀ src dst : Execution, src.branchId ≠ dst.branchId → Framed src dst := by
  intro h
  have hsame : Execution.conversation ⟨"run", some "talk", none⟩ =
      Execution.conversation ⟨"fork", some "talk", none⟩ := rfl
  exact unframed_conversation hsame (h _ _ (by decide))

end

end Semora.Proofs.ForkFrame
