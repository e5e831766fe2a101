import Semora.Lib.Succession
import Semora.Proofs.Permanence
import Semora.Runtime.Entry
import Semora.Scene

/-! Forks that stop in their copy loop and are made again: what the target's ledger then holds of
the calls the source left open. -/

namespace Semora.Proofs.ForkRetry
open Semora.Lib Semora.Store Semora.Transcript Semora.Effects MemorySteps
open Outside (unasked)

/-- What `fork` is called with. -/
structure Fork where
  rt : AgentRuntime
  src : Execution
  at_ : Option Uuid
  dst : Execution
  agent : Agent
  prompt : Option String
  history : Option (List ModelMessage)
  regate : Bool
  options : Options

namespace Fork

def program (f : Fork) : Program Outcome :=
  f.rt.fork f.src f.at_ f.dst f.agent f.prompt f.history f.regate f.options

/-- The names the ledger files both ends under. -/
def source (f : Fork) : String := (View.mk f.src.conversationId).filed f.src.branchId

def target (f : Fork) : String := (View.mk f.dst.conversationId).filed f.dst.branchId

/-- The history the fork starts from, if there is one. -/
def point (f : Fork) (t : MemoryTranscript) : Option (List ModelMessage) :=
  match f.history with
  | some history => some history
  | none =>
    if f.rt.transcript then
      match f.at_ with
      | none => some (messagesOf (t.read f.src.conversation))
      | some uuid => messagesAt (t.read f.src.conversation) (some uuid)
    else none

end Fork

def modifies : Op → Bool
  | .modify _ => true
  | _ => false

/-- The fork of this number has begun its attempt, whose first operation clears its memory. -/
def Begun (i : Nat) (events : List Event) : Prop :=
  ∃ ev ∈ events, ev.thread = i ∧ modifies ev.op = true

/-- The fork of this number put the intent of a call the source had finished into the target's
ledger, and not its result. -/
def Torn (f : Fork) (w : World) (j : Nat) (k : String) (events : List Event) : Prop :=
  (∃ v, w.store.step f.source k = .done v) ∧
    (∃ t, ⟨j, .ledger (.start f.target k t), .ok true⟩ ∈ events) ∧
      ∀ v t, ⟨j, .ledger (.finishEffect f.target k v t), .ok ()⟩ ∉ events

/-- What goes on meanwhile: anything that leaves the steps of both ends and the source's
conversation alone. -/
def Elsewhere (f : Fork) (s s' : Scene) : Prop :=
  s'.events = s.events ∧
    (∀ k, s'.world.store.step f.source k = s.world.store.step f.source k) ∧
    (∀ k, s'.world.store.entries.get? (f.target, k) = s.world.store.entries.get? (f.target, k)) ∧
    s'.world.transcript.read f.src.conversation = s.world.transcript.read f.src.conversation

/-- The same fork over and over, each stopping anywhere before it has begun its attempt. -/
def Retried (f : Fork) (out : Outside) (w : World) : Nat → Program Outcome → Scene → Prop :=
  Successive (fun i => exec out id i) (Elsewhere f) (fun _ p => p = f.program)
    (fun i _ s => ¬ Begun i s.events) ⟨w, fun _ => {}, []⟩

/-! What the target's ledger holds while forks come and go. -/

/-- What the target holds of a step: nothing, a copy of the source's, or a torn copy. -/
inductive Copied (σ : Step Value) : Option (Step Value) → Prop → Prop
  | nothing {torn : Prop} (whole : ¬ torn) : Copied σ none torn
  | copy {torn : Prop} (whole : ¬ torn) (began : σ ≠ .absent) : Copied σ (some σ) torn
  | torn {torn : Prop} (v : Value) (finished : σ = .done v) (open_ : torn) :
      Copied σ (some .running) torn

structure Along (f : Fork) (w : World) (s : Scene) : Prop where
  source : ∀ k, s.world.store.step f.source k = w.store.step f.source k
  conversation : s.world.transcript.read f.src.conversation =
    w.transcript.read f.src.conversation
  copied : ∀ k, Copied (w.store.step f.source k) (s.world.store.entries.get? (f.target, k))
    (∃ j, Torn f w j k s.events)
  closed : ∀ j k v t, ⟨j, .ledger (.finishEffect f.target k v t), .ok ()⟩ ∈ s.events →
    s.world.store.entries.get? (f.target, k) ≠ none

/-- Between two calls of its copy loop: the fork in hand has torn nothing. -/
structure Between (f : Fork) (w : World) (i : Nat) (s : Scene) : Prop where
  along : Along f w s
  early : ¬ Begun i s.events
  whole : ∀ k, ¬ Torn f w i k s.events

/-- The loop has dealt with the step. -/
def Dealt (f : Fork) (w : World) (s : Scene) (k : String) : Prop :=
  w.store.step f.source k = .absent ∨ s.world.store.entries.get? (f.target, k) ≠ none

/-- What one operation of a fork leaves. Its attempt begins between two calls, when every call of
the history has been dealt with. -/
structure Leaves (f : Fork) (w : World) (calls : List ToolCall) (i : Nat) (s s' : Scene) : Prop where
  grown : ∃ o r, s'.events = s.events ++ [⟨i, o, r⟩]
  along : ¬ Begun i s'.events → Along f w s'
  begins : ¬ Begun i s.events → Begun i s'.events →
    Between f w i s ∧ ∀ call ∈ calls, Dealt f w s (stepKey call.toolCallId)

section
variable {f : Fork} {w : World} {calls : List ToolCall} {out : Outside} {i : Nat} {s s' : Scene}

theorem begun_append {o : Op} {r : Except Exn o.Res} (he : s'.events = s.events ++ [⟨i, o, r⟩])
    (ho : modifies o = false) (h : ¬ Begun i s.events) : ¬ Begun i s'.events := by
  rintro ⟨ev, hev, ht, hg⟩
  rw [he] at hev
  rcases List.mem_append.mp hev with hev | hev
  · exact h ⟨ev, hev, ht, hg⟩
  · rw [List.mem_singleton.mp hev, ho] at hg
    cases hg

/-- An event that is no copy of `k` changes nothing about what is torn there. -/
theorem torn_append {o : Op} {r : Except Exn o.Res} {j : Nat} {k : String}
    (he : s'.events = s.events ++ [⟨i, o, r⟩])
    (hstart : ∀ t, (⟨j, .ledger (.start f.target k t), .ok true⟩ : Event) ≠ ⟨i, o, r⟩)
    (hfinish : ∀ v t, (⟨j, .ledger (.finishEffect f.target k v t), .ok ()⟩ : Event) ≠ ⟨i, o, r⟩) :
    Torn f w j k s'.events ↔ Torn f w j k s.events := by
  simp only [Torn, he, List.mem_append, List.mem_singleton, hstart, hfinish, or_false]

theorem Along.elsewhere (h : Along f w s) (move : Elsewhere f s s') : Along f w s' := by
  obtain ⟨hevents, hsource, htarget, hconversation⟩ := move
  refine ⟨fun k => (hsource k).trans (h.source k), hconversation.trans h.conversation, ?_, ?_⟩
  · intro k
    rw [hevents, htarget k]
    exact h.copied k
  · intro j k v t hev
    rw [htarget k]
    exact h.closed j k v t (hevents ▸ hev)

theorem Between.elsewhere (h : Between f w i s) (move : Elsewhere f s s') : Between f w i s' := by
  refine ⟨h.along.elsewhere move, ?_, ?_⟩
  · rw [move.1]
    exact h.early
  · intro k
    rw [move.1]
    exact h.whole k

theorem Dealt.elsewhere {k : String} (h : Dealt f w s k) (move : Elsewhere f s s') :
    Dealt f w s' k := by
  unfold Dealt
  rw [move.2.2.1 k]
  exact h

/-- The operations of a fork that copy nothing. -/
def Quiet : Op → Prop
  | .uuid4 | .readEntries _ => True
  | .ledger (.read ..) | .ledger (.acquire ..) | .ledger (.release ..) => True
  | _ => False

theorem quiet_entries (out : Outside) {o : Op} (ho : Quiet o) (u : World) (a : Attempt) :
    (step out o u a).2.1.store.entries = u.store.entries ∧
      (step out o u a).2.1.transcript = u.transcript := by
  cases o with
  | ledger c =>
    refine ⟨?_, rfl⟩
    cases c with
    | read => rfl
    | acquire b owner ttl =>
      rcases MemorySteps.acquire_cases u.store b owner ttl (out.clock u.instant)
        (out.clock (u.instant + 1)) with ⟨held, -, -, he⟩ | ⟨held, -, -, -, he⟩ | ⟨-, he⟩ <;>
      · simp only [step, Call.exec, he]
    | release b owner =>
      rcases MemorySteps.release_cases u.store b owner (out.clock u.instant) with
        ⟨held, -, -, he⟩ | ⟨-, he⟩ <;>
      · simp only [step, Call.exec, he]
    | _ => exact False.elim ho
  | uuid4 => exact ⟨rfl, rfl⟩
  | readEntries => exact ⟨rfl, rfl⟩
  | _ => exact False.elim ho

/-- An event that is no intent and no result of the target, and leaves its steps alone. -/
structure Plain (f : Fork) (i : Nat) (s s' : Scene) : Prop where
  event : ∃ o r, s'.events = s.events ++ [⟨i, o, r⟩] ∧ modifies o = false ∧
    (∀ j k t, (⟨j, .ledger (.start f.target k t), .ok true⟩ : Event) ≠ ⟨i, o, r⟩) ∧
    ∀ j k v t, (⟨j, .ledger (.finishEffect f.target k v t), .ok ()⟩ : Event) ≠ ⟨i, o, r⟩
  entries : s'.world.store.entries = s.world.store.entries
  transcript : s'.world.transcript = s.world.transcript

namespace Plain

theorem torn (h : Plain f i s s') (j : Nat) (k : String) :
    Torn f w j k s'.events ↔ Torn f w j k s.events := by
  obtain ⟨o, r, he, -, hstart, hfinish⟩ := h.event
  exact torn_append he (hstart j k) (hfinish j k)

theorem early (h : Plain f i s s') (hs : ¬ Begun i s.events) : ¬ Begun i s'.events := by
  obtain ⟨o, r, he, ho, -⟩ := h.event
  exact begun_append he ho hs

theorem along (h : Plain f i s s') (hs : Along f w s) : Along f w s' := by
  refine ⟨?_, ?_, ?_, ?_⟩
  · intro k
    rw [← hs.source k]
    simp only [MemorySteps.step, h.entries]
  · rw [h.transcript, hs.conversation]
  · intro k
    simp only [h.torn, h.entries]
    exact hs.copied k
  · intro j k v t hev
    obtain ⟨o, r, he, -, -, hfinish⟩ := h.event
    rw [he] at hev
    rw [h.entries]
    rcases List.mem_append.mp hev with hev | hev
    · exact hs.closed j k v t hev
    · exact absurd (List.mem_singleton.mp hev) (hfinish j k v t)

theorem between (h : Plain f i s s') (hs : Between f w i s) : Between f w i s' :=
  ⟨h.along hs.along, h.early hs.early, fun k => (h.torn i k).not.mpr (hs.whole k)⟩

theorem dealt (h : Plain f i s s') (k : String) : Dealt f w s' k ↔ Dealt f w s k := by
  simp only [Dealt, h.entries]

theorem leaves (h : Plain f i s s') (hs : Along f w s) (early : ¬ Begun i s.events) :
    Leaves f w calls i s s' := by
  obtain ⟨o, r, he, -⟩ := h.event
  exact ⟨⟨o, r, he⟩, fun _ => h.along hs, fun _ hb => absurd hb (h.early early)⟩

end Plain

theorem quiet_plain {o : Op} {r : Except Exn o.Res} (ho : Quiet o) (he : exec out id i o s r s') :
    Plain f i s s' := by
  obtain ⟨hevents, hw, -⟩ := exec_events he
  obtain ⟨hentries, htranscript⟩ := quiet_entries out ho s.world (s.attempts i)
  simp only [id] at hw
  rw [← hw] at hentries htranscript
  refine ⟨⟨o, r, hevents, ?_, ?_, ?_⟩, hentries, htranscript⟩
  · cases o <;> first | rfl | exact False.elim ho
  · intro j k t heq
    cases heq
    exact ho
  · intro j k v t heq
    cases heq
    exact ho

end

/-! The copy loop. -/

/-- A fork on its own: what each result leads to; an exception leaves no more than a torn copy. -/
abbrev Safe (f : Fork) (w : World) (calls : List ToolCall) (out : Outside) (i : Nat) {α : Type}
    (p : Program α) (Q : α → Scene → Prop) (s : Scene) : Prop :=
  Prog.safe (exec out id i) (Elsewhere f) (Leaves f w calls i) p
    (fun r s' => match r with
      | .ok a => Q a s'
      | .error _ => Along f w s' ∧ ¬ Begun i s'.events) s

section
variable {f : Fork} {w : World} {calls : List ToolCall} {out : Outside} {i : Nat} {s : Scene}

theorem safe_bind {α β : Type} {p : Program α} {g : α → Program β} {Q : β → Scene → Prop}
    (h : Safe f w calls out i p (fun a s' => Safe f w calls out i (g a) Q s') s) :
    Safe f w calls out i (p.bind g) Q s :=
  (Prog.safe_bind _ _ _ _).mpr (Prog.safe_post h (fun r _ hr => by cases r <;> exact hr))

/-- Before the fork is known to have copied everything, nothing is asked of how it ends. -/
theorem safe_then {α β : Type} {p : Program α} {g : α → Program β}
    (h : Safe f w calls out i p (fun a s' => Prog.safe (exec out id i) (Elsewhere f)
      (Leaves f w calls i) (g a) (fun _ _ => True) s') s) :
    Prog.safe (exec out id i) (Elsewhere f) (Leaves f w calls i) (p.bind g) (fun _ _ => True) s :=
  (Prog.safe_bind _ _ _ _).mpr (Prog.safe_post h (fun r _ hr => by cases r <;> first | exact hr | trivial))

theorem safe_quiet {o : Op} {Q : o.Res → Scene → Prop} (ho : Quiet o) (h : Between f w i s)
    (hQ : ∀ a s' s'', Elsewhere f s s' → Plain f i s' s'' → Between f w i s'' →
      (step out o s'.world (s'.attempts i)).1 = .ok a → Q a s'') :
    Safe f w calls out i (perform o) Q s := by
  refine (Prog.safe_op _ _ _).mpr (fun s₁ move r s₂ he => ?_)
  have h₁ := h.elsewhere move
  have hplain : Plain f i s₁ s₂ := quiet_plain ho he
  refine ⟨hplain.leaves h₁.along h₁.early, ?_⟩
  obtain ⟨-, -, hreply⟩ := exec_events he
  cases r with
  | error e => exact ⟨hplain.along h₁.along, hplain.early h₁.early⟩
  | ok a => exact hQ a s₁ s₂ move hplain (hplain.between h₁) hreply.symm

/-- Between a call's intent and its result: the copy in hand is torn, by this fork alone. -/
structure Midway (f : Fork) (w : World) (i : Nat) (k : String) (v : Value) (s : Scene) : Prop where
  along : Along f w s
  early : ¬ Begun i s.events
  finished : w.store.step f.source k = .done v
  running : s.world.store.entries.get? (f.target, k) = some .running
  mine : ∀ j k', Torn f w j k' s.events → k' = k ∨ j ≠ i
  alone : ∀ j, Torn f w j k s.events → j = i

theorem Midway.elsewhere {k : String} {v : Value} {s' : Scene} (h : Midway f w i k v s)
    (move : Elsewhere f s s') : Midway f w i k v s' := by
  refine ⟨h.along.elsewhere move, ?_, h.finished, (move.2.2.1 k).trans h.running, ?_, ?_⟩
  · rw [move.1]
    exact h.early
  · rw [move.1]
    exact h.mine
  · rw [move.1]
    exact h.alone

/-- Putting the intent of a step the source began into the target's ledger. -/
theorem safe_start {k : String} {token : Nat} {Q : Bool → Scene → Prop}
    (apart : f.source = f.target → ∀ k, w.store.step f.source k = .absent)
    (hk : w.store.step f.source k ≠ .absent) (h : Between f w i s)
    (hQ : ∀ inserted s' s'', Elsewhere f s s' → (∀ k', Dealt f w s' k' → Dealt f w s'' k') →
      Dealt f w s'' k →
      (Between f w i s'' ∧ (inserted = true → ∀ v, w.store.step f.source k ≠ .done v)) ∨
        (inserted = true ∧ ∃ v, Midway f w i k v s'') → Q inserted s'') :
    Safe f w calls out i (perform (.ledger (.start f.target k token))) Q s := by
  refine (Prog.safe_op _ _ _).mpr (fun s₁ move r s₂ he => ?_)
  have h₁ := h.elsewhere move
  obtain ⟨hevents, hw, hreply⟩ := exec_events he
  have early : ¬ Begun i s₂.events := begun_append hevents rfl h₁.early
  have plain : r ≠ .ok true → s₂.world.store.entries = s₁.world.store.entries →
      s₂.world.transcript = s₁.world.transcript → Plain f i s₁ s₂ := by
    intro hr hstore htranscript
    refine ⟨⟨_, r, hevents, rfl, ?_, ?_⟩, hstore, htranscript⟩
    · intro j k' t heq
      cases heq
      exact hr rfl
    · intro j k' v t heq
      cases heq
  simp only [step, Call.exec, id] at hw hreply
  rcases start_cases s₁.world.store f.target k token with ⟨e, hf⟩ | ⟨st, hentry, hf⟩ | ⟨hentry, hf⟩ <;>
    rw [hf] at hw hreply
  · subst hreply
    have hplain := plain (by simp [Except.mapError]) (by rw [hw]) (by rw [hw])
    exact ⟨hplain.leaves h₁.along h₁.early, hplain.along h₁.along, early⟩
  · subst hreply
    have hplain := plain (by simp [Except.mapError]) (by rw [hw]) (by rw [hw])
    refine ⟨hplain.leaves h₁.along h₁.early, hQ false s₁ s₂ move (fun k' => (hplain.dealt k').mpr)
      (.inr ?_) (.inl ⟨hplain.between h₁, by simp⟩)⟩
    simp [hw, hentry]
  · subst hreply
    have hput : ∀ k', s₂.world.store.entries.get? (f.target, k') =
        if k' = k then some .running else s₁.world.store.entries.get? (f.target, k') := by
      intro k'
      rw [hw]
      simp [entry_put]
    have hdealt : ∀ k', Dealt f w s₁ k' → Dealt f w s₂ k' := by
      intro k' hd
      unfold Dealt
      rw [hput]
      split
      · exact .inr (by simp)
      · exact hd
    have hsource : ∀ k', s₂.world.store.step f.source k' = w.store.step f.source k' := by
      intro k'
      rw [← h₁.along.source k', hw]
      refine (step_put _ _ _ _).trans (if_neg ?_)
      intro heq
      obtain ⟨hname, rfl⟩ := Prod.mk.inj heq
      exact hk (apart hname k')
    have hother : ∀ j k', k' ≠ k ∨ j ≠ i → (Torn f w j k' s₂.events ↔ Torn f w j k' s₁.events) := by
      intro j k' hne
      refine torn_append hevents ?_ ?_
      · intro t heq
        cases heq
        simp at hne
      · intro v t heq
        cases heq
    -- The step was absent, so no copy of it was torn before, and none finished.
    have hbefore : ∀ j, ¬ Torn f w j k s₁.events := by
      intro j htorn
      have hc := h₁.along.copied k
      rw [hentry] at hc
      cases hc with
      | nothing whole => exact whole ⟨j, htorn⟩
    have hopen : ∀ j v t, ⟨j, .ledger (.finishEffect f.target k v t), .ok ()⟩ ∉ s₂.events := by
      intro j v t hev
      rw [hevents] at hev
      rcases List.mem_append.mp hev with hev | hev
      · exact h₁.along.closed j k v t hev hentry
      · cases List.mem_singleton.mp hev
    have halong : Copied (w.store.step f.source k) (some .running) (∃ j, Torn f w j k s₂.events) →
        Along f w s₂ := by
      intro hk'
      refine ⟨hsource, by rw [hw]; exact h₁.along.conversation, ?_, ?_⟩
      · intro k'
        rw [hput]
        split
        · rename_i he
          exact he ▸ hk'
        · rename_i hne
          simp only [hother _ k' (.inl hne)]
          exact h₁.along.copied k'
      · intro j k' v t hev
        rw [hevents] at hev
        rw [hput]
        split
        · simp
        · rcases List.mem_append.mp hev with hev | hev
          · exact h₁.along.closed j k' v t hev
          · cases List.mem_singleton.mp hev
    have hgrown : Along f w s₂ → Leaves f w calls i s₁ s₂ := fun ha =>
      ⟨⟨_, _, hevents⟩, fun _ => ha, fun _ hb => absurd hb early⟩
    have hdealtk : Dealt f w s₂ k := .inr (by simp [hput])
    by_cases hdone : ∃ v, w.store.step f.source k = .done v
    · obtain ⟨v, hv⟩ := hdone
      have htorn : Torn f w i k s₂.events :=
        ⟨⟨v, hv⟩, ⟨token, by rw [hevents]; exact List.mem_append_right _ (List.mem_singleton_self _)⟩,
          hopen i⟩
      have ha := halong (.torn v hv ⟨i, htorn⟩)
      refine ⟨hgrown ha, hQ true s₁ s₂ move hdealt hdealtk (.inr ⟨rfl, v, ha, early, hv, by simp [hput],
        ?_, ?_⟩)⟩
      · intro j k' hj
        by_cases hne : k' ≠ k ∨ j ≠ i
        · by_cases hji : j = i
          · subst hji
            exact absurd ((hother j k' hne).mp hj) (h₁.whole k')
          · exact .inr hji
        · exact .inl (by simpa using (not_or.mp hne).1)
      · intro j hj
        by_contra hji
        exact hbefore j ((hother j k (.inr hji)).mp hj)
    · have hnot : ∀ j, ¬ Torn f w j k s₂.events := fun j htorn => hdone htorn.1
      have hrunning : w.store.step f.source k = .running := by
        cases hs : w.store.step f.source k with
        | absent => exact absurd hs hk
        | running => rfl
        | done v => exact absurd ⟨v, hs⟩ hdone
      have hcopy : Copied (w.store.step f.source k) (some .running) (∃ j, Torn f w j k s₂.events) := by
        rw [hrunning]
        exact .copy (by simpa using hnot) (by simp)
      have ha := halong hcopy
      refine ⟨hgrown ha, hQ true s₁ s₂ move hdealt hdealtk (.inl ⟨⟨ha, early, ?_⟩, ?_⟩)⟩
      · intro k' hk'
        by_cases he : k' = k
        · exact hnot i (he ▸ hk')
        · exact h₁.whole k' ((hother i k' (.inl he)).mp hk')
      · intro _ v hv
        exact hdone ⟨v, hv⟩

/-- Finishing a copy. -/
theorem safe_finish {k : String} {v : Value} {token : Nat} {Q : Unit → Scene → Prop}
    (apart : f.source = f.target → ∀ k, w.store.step f.source k = .absent)
    (h : Midway f w i k v s)
    (hQ : ∀ s' s'', Elsewhere f s s' → (∀ k', Dealt f w s' k' → Dealt f w s'' k') →
      Between f w i s'' → Q () s'') :
    Safe f w calls out i (perform (.ledger (.finishEffect f.target k v token))) Q s := by
  refine (Prog.safe_op _ _ _).mpr (fun s₁ move r s₂ he => ?_)
  have h₁ := h.elsewhere move
  obtain ⟨hevents, hw, hreply⟩ := exec_events he
  have early : ¬ Begun i s₂.events := begun_append hevents rfl h₁.early
  simp only [step, Call.exec, id] at hw hreply
  rcases finishEffect_cases v token h₁.running with ⟨e, hf⟩ | hf <;> rw [hf] at hw hreply
  · subst hreply
    have hplain : Plain f i s₁ s₂ := by
      refine ⟨⟨_, _, hevents, rfl, ?_, ?_⟩, by rw [hw], by rw [hw]⟩
      · intro j k' t heq
        cases heq
      · intro j k' v' t heq
        cases heq
    exact ⟨hplain.leaves h₁.along h₁.early, hplain.along h₁.along, early⟩
  · subst hreply
    have hput : ∀ k', s₂.world.store.entries.get? (f.target, k') =
        if k' = k then some (.done v) else s₁.world.store.entries.get? (f.target, k') := by
      intro k'
      rw [hw]
      simp [entry_put]
    have hother : ∀ j k', k' ≠ k ∨ j ≠ i → (Torn f w j k' s₂.events ↔ Torn f w j k' s₁.events) := by
      intro j k' hne
      refine torn_append hevents ?_ ?_
      · intro t heq
        cases heq
      · intro v' t heq
        cases heq
        simp at hne
    have hclosed : ¬ Torn f w i k s₂.events := by
      rintro ⟨-, -, hopen⟩
      refine hopen v token ?_
      rw [hevents]
      exact List.mem_append_right _ (List.mem_singleton_self _)
    have hwhole : ∀ j, ¬ Torn f w j k s₂.events := by
      intro j hj
      by_cases hji : j = i
      · exact hclosed (hji ▸ hj)
      · exact hji (h₁.alone j ((hother j k (.inr hji)).mp hj))
    have ha : Along f w s₂ := by
      refine ⟨?_, by rw [hw]; exact h₁.along.conversation, ?_, ?_⟩
      · intro k'
        rw [← h₁.along.source k', hw]
        refine (step_put _ _ _ _).trans (if_neg ?_)
        intro heq
        obtain ⟨hname, rfl⟩ := Prod.mk.inj heq
        have habsent := apart hname k'
        rw [h₁.finished] at habsent
        cases habsent
      · intro k'
        rw [hput]
        split
        · rename_i he
          rw [he, h₁.finished]
          exact .copy (by simpa using hwhole) (by simp)
        · rename_i hne
          simp only [hother _ k' (.inl hne)]
          exact h₁.along.copied k'
      · intro j k' v' t hev
        rw [hevents] at hev
        rw [hput]
        split
        · simp
        · rename_i hne
          rcases List.mem_append.mp hev with hev | hev
          · exact h₁.along.closed j k' v' t hev
          · cases List.mem_singleton.mp hev
            exact absurd rfl hne
    refine ⟨⟨⟨_, _, hevents⟩, fun _ => ha, fun _ hb => absurd hb early⟩, hQ s₁ s₂ move ?_ ⟨ha, early, ?_⟩⟩
    · intro k' hd
      unfold Dealt
      rw [hput]
      split
      · exact .inr (by simp)
      · exact hd
    · intro k' hk'
      by_cases hne : k' = k
      · exact hclosed (hne ▸ hk')
      · rcases h₁.mine i k' ((hother i k' (.inl hne)).mp hk') with he | he
        · exact hne he
        · exact he rfl

/-- The loop over the open calls. -/
theorem safe_copyCalls (done rest : List ToolCall) {token : Nat} {Q : List String → Scene → Prop}
    (apart : f.source = f.target → ∀ k, w.store.step f.source k = .absent)
    (h : Between f w i s) (hdone : ∀ call ∈ done, Dealt f w s (stepKey call.toolCallId))
    (hQ : ∀ copied s', Between f w i s' →
      (∀ call ∈ done ++ rest, Dealt f w s' (stepKey call.toolCallId)) → Q copied s') :
    Safe f w calls out i (AgentRuntime.copyCalls ⟨f.src.conversationId⟩ ⟨f.dst.conversationId⟩ f.src
      f.dst token rest) Q s := by
  induction rest generalizing done s Q with
  | nil => exact hQ [] s h (by simpa using hdone)
  | cons call rest ih =>
    have hnext : ∀ {Q : List String → Scene → Prop} {s' : Scene}, Between f w i s' →
        (∀ c ∈ done, Dealt f w s' (stepKey c.toolCallId)) → Dealt f w s' (stepKey call.toolCallId) →
        (∀ copied s'', Between f w i s'' →
          (∀ c ∈ done ++ call :: rest, Dealt f w s'' (stepKey c.toolCallId)) → Q copied s'') →
        Safe f w calls out i (AgentRuntime.copyCalls ⟨f.src.conversationId⟩ ⟨f.dst.conversationId⟩
          f.src f.dst token rest) Q s' := by
      intro Q s' hs' hd hcall hq
      refine ih (done ++ [call]) hs' ?_ (fun copied s'' hs'' hall => hq copied s'' hs'' ?_)
      · intro c hc
        rcases List.mem_append.mp hc with hc | hc
        · exact hd c hc
        · rw [List.mem_singleton.mp hc]
          exact hcall
      · simpa using hall
    unfold AgentRuntime.copyCalls
    refine safe_bind (safe_quiet trivial h (fun record s₁ s₂ move hplain h₂ hreply => ?_))
    have hd₂ : ∀ c ∈ done, Dealt f w s₂ (stepKey c.toolCallId) := fun c hc =>
      (hplain.dealt _).mpr ((hdone c hc).elsewhere move)
    have hrecord : record = w.store.step f.source (stepKey call.toolCallId) := by
      rw [← (h.along.elsewhere move).source]
      simp only [step, Call.exec, Except.mapError, Except.ok.injEq] at hreply
      exact hreply.symm
    cases record with
    | absent => exact hnext h₂ hd₂ (.inl hrecord.symm) hQ
    | running =>
      refine safe_bind (safe_start apart (by simp [← hrecord]) h₂
        (fun inserted s₃ s₄ move₃ hdealt hcall hcases => ?_))
      have hbetween : Between f w i s₄ := by
        rcases hcases with ⟨hb, -⟩ | ⟨-, v, hm⟩
        · exact hb
        · have := hm.finished
          rw [← hrecord] at this
          cases this
      exact hnext hbetween (fun c hc => hdealt _ ((hd₂ c hc).elsewhere move₃)) hcall hQ
    | done value =>
      refine safe_bind (safe_start apart (by simp [← hrecord]) h₂
        (fun inserted s₃ s₄ move₃ hdealt hcall hcases => ?_))
      have hd₄ : ∀ c ∈ done, Dealt f w s₄ (stepKey c.toolCallId) := fun c hc =>
        hdealt _ ((hd₂ c hc).elsewhere move₃)
      cases inserted with
      | false =>
        rcases hcases with ⟨hb, -⟩ | ⟨he, -⟩
        · exact hnext hb hd₄ hcall hQ
        · cases he
      | true =>
        rcases hcases with ⟨-, hnot⟩ | ⟨-, v, hm⟩
        · exact absurd hrecord.symm (hnot rfl value)
        · have hvalue : v = value := by
            have := hm.finished
            rw [← hrecord] at this
            exact (Step.done.inj this).symm
          subst hvalue
          simp only [↓reduceIte]
          refine safe_bind (safe_finish apart hm (fun s₅ s₆ move₅ hdealt₆ h₆ => ?_))
          refine safe_bind (hnext h₆ (fun c hc => hdealt₆ _ ((hd₄ c hc).elsewhere move₅))
            (hdealt₆ _ (hcall.elsewhere move₅)) (fun copied s₇ h₇ hall => ?_))
          exact hQ _ s₇ h₇ hall

/-- Reading where the fork starts. -/
theorem safe_forkHistory {history : List ModelMessage} {Q : List ModelMessage → Scene → Prop}
    (hpoint : f.point w.transcript = some history) (h : Between f w i s)
    (hQ : ∀ s', Between f w i s' → Q history s') :
    Safe f w calls out i (f.rt.forkHistory f.src f.at_ f.history) Q s := by
  unfold Fork.point at hpoint
  unfold AgentRuntime.forkHistory
  cases hh : f.history with
  | some given =>
    rw [hh] at hpoint
    cases hpoint
    exact hQ s h
  | none =>
    simp only [hh] at hpoint
    split at hpoint
    · rename_i ht
      rw [if_pos ht]
      refine safe_bind (safe_quiet trivial h (fun entries s₁ s₂ move hplain h₂ hreply => ?_))
      have hentries : entries = w.transcript.read f.src.conversation := by
        rw [← (h.along.elsewhere move).conversation]
        exact (Except.ok.inj hreply).symm
      subst hentries
      cases hat : f.at_ with
      | none =>
        simp only [hat, Option.some.injEq] at hpoint
        subst hpoint
        exact hQ s₂ h₂
      | some uuid =>
        simp only [hat] at hpoint
        simp only [hpoint]
        exact hQ s₂ h₂
    · cases hpoint

/-- Once the attempt has begun nothing more is asked of the fork. -/
theorem safe_begun {α : Type} (p : Program α) (h : Begun i s.events) :
    Prog.safe (exec out id i) (Elsewhere f) (Leaves f w calls i) p
      (fun _ s' => Begun i s'.events) s := by
  refine Prog.safe_of_allOps (P := fun _ => True) ?_ ?_ (Prog.allOps_any p) h
  · intro a b move ha
    rw [move.1]
    exact ha
  · intro o _ a r b ha he
    obtain ⟨hevents, -, -⟩ := exec_events he
    have hb : Begun i b.events := by
      obtain ⟨ev, hev, hrest⟩ := ha
      exact ⟨ev, by rw [hevents]; exact List.mem_append_left _ hev, hrest⟩
    exact ⟨⟨⟨o, r, hevents⟩, fun hn => absurd hb hn, fun hn => absurd ha hn⟩, hb⟩

/-- The attempt of a fork whose loop is over. -/
theorem safe_attemptRun {token : Nat} {options : Options} (h : Between f w i s)
    (hall : ∀ call ∈ calls, Dealt f w s (stepKey call.toolCallId)) :
    Prog.safe (exec out id i) (Elsewhere f) (Leaves f w calls i)
      (f.rt.attemptRun f.dst token f.agent f.prompt options) (fun _ s' => Begun i s'.events) s := by
  unfold AgentRuntime.attemptRun
  refine (Prog.safe_bind _ _ _ _).mpr ((Prog.safe_op _ _ _).mpr (fun s₁ move r s₂ he => ?_))
  obtain ⟨hevents, -, -⟩ := exec_events he
  have hb : Begun i s₂.events :=
    ⟨_, by rw [hevents]; exact List.mem_append_right _ (List.mem_singleton_self _), rfl, rfl⟩
  refine ⟨⟨⟨_, r, hevents⟩, fun hn => absurd hb hn, fun _ _ => ⟨h.elsewhere move, ?_⟩⟩, ?_⟩
  · exact fun call hcall => (hall call hcall).elsewhere move
  · cases r with
    | error e => exact hb
    | ok u => exact safe_begun _ hb

/-- Releasing the lease. -/
theorem safe_release {b owner : String} (h : Along f w s ∧ ¬ Begun i s.events ∨ Begun i s.events) :
    Prog.safe (exec out id i) (Elsewhere f) (Leaves f w calls i)
      (perform (.ledger (.release b owner))) (fun _ _ => True) s := by
  rcases h with ⟨halong, hearly⟩ | hbegun
  · refine (Prog.safe_op _ _ _).mpr (fun s₁ move r s₂ he => ⟨?_, trivial⟩)
    have hplain : Plain f i s₁ s₂ := quiet_plain (by trivial) he
    exact hplain.leaves (halong.elsewhere move) (by rw [move.1]; exact hearly)
  · exact Prog.safe_post (safe_begun _ hbegun) (fun _ _ _ => trivial)

/-- One fork. -/
theorem safe_fork (ledger : f.rt.executionStore = true) {history : List ModelMessage}
    (hpoint : f.point w.transcript = some history)
    (apart : f.source = f.target → ∀ k, w.store.step f.source k = .absent) (h : Between f w i s) :
    Prog.safe (exec out id i) (Elsewhere f) (Leaves f w (unansweredToolCalls history) i) f.program
      (fun _ _ => True) s := by
  have hstore : ∀ e, f.rt.storeFor e = some ⟨e.conversationId⟩ := by
    intro e
    rw [AgentRuntime.storeFor, if_pos ledger]
  unfold Fork.program AgentRuntime.fork
  refine safe_then (safe_forkHistory hpoint h (fun s₁ h₁ => ?_))
  simp only [AgentRuntime.lease, hstore]
  refine safe_then (safe_quiet trivial h₁ (fun owner _ s₂ _ _ h₂ _ => ?_))
  refine safe_then (safe_quiet trivial h₂ (fun acquired _ s₃ _ _ h₃ _ => ?_))
  split
  · trivial
  · refine (Prog.safe_finally _ _ _ _).mpr ((Prog.safe_bind _ _ _ _).mpr ?_)
    simp only [AgentRuntime.copyRound, hstore]
    refine Prog.safe_post (safe_copyCalls [] (unansweredToolCalls history)
      (Q := fun _ s' => Between f w i s' ∧
        ∀ call ∈ unansweredToolCalls history, Dealt f w s' (stepKey call.toolCallId))
      apart h₃ (by simp) (fun _ _ hb hall => ⟨hb, hall⟩)) ?_
    rintro (error | copied) s₄ h₄
    · exact Prog.safe_post (safe_release (.inl h₄)) (by rintro (e | u) _ _ <;> trivial)
    · refine Prog.safe_post (safe_attemptRun h₄.1 h₄.2) (fun r s₅ h₅ => ?_)
      exact Prog.safe_post (safe_release (.inr h₅)) (by rintro (e | u) _ _ <;> trivial)

end

/-- A copy loop that is over has left every open call of the history as the source has it, if and
only if no fork before it tore the copy of a call the source had finished. -/
theorem retried_iff {f : Fork} {out : Outside} {w : World} {n : Nat} {s : Scene}
    {g : Attempt → Attempt} {rest : Except Exn Unit → Program Outcome}
    (history : List ModelMessage) (ledger : f.rt.executionStore = true)
    (point : f.point w.transcript = some history)
    (fresh : ∀ k, w.store.entries.get? (f.target, k) = none)
    (run : Retried f out w n (.call (.modify g) rest) s) (ended : ¬ Begun n s.events) :
    (∀ call ∈ unansweredToolCalls history, s.world.store.step f.target (stepKey call.toolCallId) =
        w.store.step f.source (stepKey call.toolCallId)) ↔
      ∀ j < n, ∀ call ∈ unansweredToolCalls history,
        ¬ Torn f w j (stepKey call.toolCallId) s.events := by
  have apart : f.source = f.target → ∀ k, w.store.step f.source k = .absent := by
    intro he k
    simp only [MemorySteps.step, he, fresh, Option.getD_none]
  obtain ⟨⟨hthreads, -⟩, hsafe⟩ :
      ((∀ ev ∈ s.events, ev.thread ≤ n) ∧ (¬ Begun n s.events → Along f w s)) ∧
        Prog.safe (exec out id n) (Elsewhere f) (Leaves f w (unansweredToolCalls history) n)
          (.call (.modify g) rest) (fun _ _ => True) s := by
    refine successive_safe (J := fun i s => (∀ ev ∈ s.events, ev.thread < i) ∧ Along f w s)
      (I := fun i s => (∀ ev ∈ s.events, ev.thread ≤ i) ∧ (¬ Begun i s.events → Along f w s))
      (R := fun _ => Elsewhere f) (G := Leaves f w (unansweredToolCalls history))
      (Q := fun _ _ _ => True) ?start ?next ?begin ?safe ?refl ?trans ?stable ?keeps ?env run
    case start =>
      refine ⟨by simp, fun _ => rfl, rfl, ?_, by simp⟩
      intro k
      simp only [fresh]
      refine .nothing ?_
      rintro ⟨j, -, ⟨t, ht⟩, -⟩
      cases ht
    case next =>
      intro i q s hI hstop
      exact ⟨fun ev hev => Nat.lt_succ_of_le (hI.1 ev hev), hI.2 hstop⟩
    case begin => exact fun i s hJ => ⟨fun ev hev => Nat.le_of_lt (hJ.1 ev hev), fun _ => hJ.2⟩
    case safe =>
      rintro i p s rfl ⟨hthreads, halong⟩
      have hnone : ∀ ev ∈ s.events, ev.thread ≠ i := fun ev hev => Nat.ne_of_lt (hthreads ev hev)
      refine safe_fork ledger point apart ⟨halong, ?_, ?_⟩
      · rintro ⟨ev, hev, ht, -⟩
        exact hnone ev hev ht
      · rintro k ⟨-, ⟨t, ht⟩, -⟩
        exact hnone _ ht rfl
    case refl => exact fun i s _ => ⟨rfl, fun _ => rfl, fun _ => rfl, rfl⟩
    case trans =>
      rintro i a b c ⟨h₁, h₂, h₃, h₄⟩ ⟨h₁', h₂', h₃', h₄'⟩
      exact ⟨h₁'.trans h₁, fun k => (h₂' k).trans (h₂ k), fun k => (h₃' k).trans (h₃ k), h₄'.trans h₄⟩
    case stable => exact fun _ _ _ _ _ _ => trivial
    case keeps =>
      intro i a b hI hG
      obtain ⟨o, r, hevents⟩ := hG.grown
      refine ⟨?_, hG.along⟩
      intro ev hev
      rw [hevents] at hev
      rcases List.mem_append.mp hev with hev | hev
      · exact hI.1 ev hev
      · rw [List.mem_singleton.mp hev]
    case env =>
      intro i a b hI move
      refine ⟨⟨?_, ?_⟩, move⟩
      · rw [move.1]
        exact hI.1
      · rw [move.1]
        exact fun hn => (hI.2 hn).elsewhere move
  obtain ⟨hbetween, hdealt⟩ : Between f w n s ∧
      ∀ call ∈ unansweredToolCalls history, Dealt f w s (stepKey call.toolCallId) := by
    have he : exec out id n (.modify g) s (s.perform out id n (.modify g)).1
        (s.perform out id n (.modify g)).2 := rfl
    have hgo := hsafe s ⟨rfl, fun _ => rfl, fun _ => rfl, rfl⟩ _ _ he
    refine hgo.1.begins ended ⟨⟨n, .modify g, (s.perform out id n (.modify g)).1⟩, ?_, rfl, rfl⟩
    rw [(exec_events he).1]
    exact List.mem_append_right _ (List.mem_singleton_self _)
  constructor
  · intro hsame j _ call hcall htorn
    have hc := hbetween.along.copied (stepKey call.toolCallId)
    generalize hentry : s.world.store.entries.get? (f.target, stepKey call.toolCallId) = entry at hc
    cases hc with
    | nothing whole => exact whole ⟨j, htorn⟩
    | copy whole => exact whole ⟨j, htorn⟩
    | torn v finished =>
      have hstep := hsame call hcall
      rw [finished] at hstep
      simp [MemorySteps.step, hentry] at hstep
  · intro hwhole call hcall
    have hnone : ¬ ∃ j, Torn f w j (stepKey call.toolCallId) s.events := by
      rintro ⟨j, htorn⟩
      obtain ⟨-, ⟨t, ht⟩, -⟩ := id htorn
      rcases Nat.lt_or_eq_of_le (hthreads _ ht) with hlt | heq
      · exact hwhole j hlt call hcall htorn
      · change j = n at heq
        exact hbetween.whole _ (heq ▸ htorn)
    have hc := hbetween.along.copied (stepKey call.toolCallId)
    have hd := hdealt call hcall
    unfold Dealt at hd
    simp only [MemorySteps.step]
    generalize s.world.store.entries.get? (f.target, stepKey call.toolCallId) = entry at hc hd
    cases hc with
    | nothing =>
      rcases hd with hd | hd
      · exact hd.symm
      · exact absurd rfl hd
    | copy => rfl
    | torn v finished htorn => exact absurd htorn hnone

/-- The claim that a fork can always be made again. -/
def AlwaysRetryable : Prop :=
  ∀ (f : Fork) (out : Outside) (w : World) (n : Nat) (s : Scene) (history : List ModelMessage)
    (g : Attempt → Attempt) (rest : Except Exn Unit → Program Outcome),
    f.rt.executionStore = true → f.point w.transcript = some history →
    (∀ k, w.store.entries.get? (f.target, k) = none) →
    Retried f out w n (.call (.modify g) rest) s → ¬ Begun n s.events →
    ∀ call ∈ unansweredToolCalls history, s.world.store.step f.target (stepKey call.toolCallId) =
      w.store.step f.source (stepKey call.toolCallId)

/-! A fork of a run that had finished its one open call. -/

def charge : ToolCall := ⟨"charge", .dict [], "c1"⟩

def charged : World where
  store := ({} : MemorySteps Value).put "source" (stepKey "c1") (.done (.toolResult (.ok (.str "paid"))))

def again : Fork where
  rt := {}
  src := { branchId := "source" }
  at_ := none
  dst := { branchId := "target" }
  agent := { PydanticAI.standard (fun _ => "") [] 8 with }
  prompt := none
  history := some [.response { parts := [.toolCall charge] }]
  regate := false
  options := {}

/-- Time passes, until the lease has expired. -/
def waited (s : Scene) : Scene :=
  { s with world := { s.world with instant := s.world.instant + 100 } }

/-- The fork stopped after `n` operations, and made again until its attempt begins. -/
def stopped (n : Nat) : Program Outcome × Scene :=
  Prog.crash (Scene.perform unasked id 0) n again.program ⟨charged, fun _ => {}, []⟩

def remade (n m : Nat) : Program Outcome × Scene :=
  Prog.crash (Scene.perform unasked id 1) m again.program (waited (stopped n).2)

def atAttempt : Program Outcome → Bool
  | .call (.modify _) _ => true
  | _ => false

theorem atAttempt_call {p : Program Outcome} (h : atAttempt p = true) :
    ∃ g k, p = .call (.modify g) k := by
  unfold atAttempt at h
  split at h
  · exact ⟨_, _, rfl⟩
  · cases h

theorem remade_run (n m : Nat) (h : ¬ Begun 0 (stopped n).2.events) :
    Retried again unasked charged 1 (remade n m).1 (remade n m).2 := by
  refine successive_crash (fun _ _ => true) (fun _ _ _ => rfl) (.env (.next
    (successive_crash (fun _ _ => true) (fun _ _ _ => rfl) (.first rfl) n (passes_any _ _ _ _))
    h rfl) ⟨rfl, fun _ => rfl, fun _ => rfl, rfl⟩) m (passes_any _ _ _ _)

theorem charged_fresh (k : String) : charged.store.entries.get? (again.target, k) = none := by
  have hname : again.target ≠ "source" := by decide
  exact Dict.get?_insert_ne _ _ (fun h => hname (congrArg Prod.fst h))

/-- A fork that dies between the intent and the result leaves a charge in doubt that the source
had finished. -/
theorem not_always_retryable : ¬ AlwaysRetryable := by
  intro h
  have hearly : ¬ Begun 0 (stopped 4).2.events := by
    unfold Begun
    decide +kernel
  have hover : ¬ Begun 1 (remade 4 4).2.events := by
    unfold Begun
    decide +kernel
  obtain ⟨g, rest, hcall⟩ := atAttempt_call (p := (remade 4 4).1) (by decide +kernel)
  have hsame := h again unasked charged 1 (remade 4 4).2 _ g rest rfl rfl charged_fresh
    (hcall ▸ remade_run 4 4 hearly) hover charge (by decide)
  revert hsame
  decide +kernel

/-- One that dies before it put the intent in leaves nothing behind. -/
theorem retried_iff_before :
    ∃ g rest, (remade 3 5).1 = .call (.modify g) rest ∧
      ((∀ call ∈ [charge], (remade 3 5).2.world.store.step "target" (stepKey call.toolCallId) =
          charged.store.step "source" (stepKey call.toolCallId)) ↔
        ∀ j < 1, ∀ call ∈ [charge],
          ¬ Torn again charged j (stepKey call.toolCallId) (remade 3 5).2.events) := by
  have hearly : ¬ Begun 0 (stopped 3).2.events := by
    unfold Begun
    decide +kernel
  have hover : ¬ Begun 1 (remade 3 5).2.events := by
    unfold Begun
    decide +kernel
  obtain ⟨g, rest, hcall⟩ := atAttempt_call (p := (remade 3 5).1) (by decide +kernel)
  exact ⟨g, rest, hcall, retried_iff [.response { parts := [.toolCall charge] }] rfl rfl
    charged_fresh (hcall ▸ remade_run 3 5 hearly) hover⟩

end Semora.Proofs.ForkRetry
