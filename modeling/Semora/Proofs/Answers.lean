import Semora.Lib.Trace
import Semora.Proofs.ParkSurvives

/-! The answers to a parked round: whoever brings one, and whenever, it is put to its own call and
stays there. -/

namespace Semora.Proofs.Answers
open Semora.Lib Semora.Store Semora.Transcript
open AgentRuntime (undecided callOf pendingPairs liveSuspension)
open Parked (cell live)

/-- No two calls of the round share their pending id, or their call id. -/
structure Distinct (active : Suspension) : Prop where
  pendingIds : ((pendingPairs active.continuation.calls).map Prod.fst).Nodup
  callIds : ((pendingPairs active.continuation.calls).map Prod.snd).Nodup

/-- The call with this pending id has this answer. -/
def Holds (active : Suspension) (pendingId : String) (payload : Answer) : Prop :=
  ∃ call, callOf active pendingId = some call ∧
    fetch call.toolCallId active.answers = some payload

/-- The continuation with one more answer. -/
def answered (active : Suspension) (call : ToolCall) (payload : Answer) : Suspension :=
  { active with answers := upsert call.toolCallId payload active.answers }

/-- The continuation while it is finalized. -/
def resuming (active : Suspension) : Suspension := { active with state := .resuming }

section
variable {active active' : Suspension} {pendingId : String} {payload : Answer} {call : ToolCall}

theorem callOf_mem (h : callOf active pendingId = some call) :
    ∃ request, (call, request) ∈ active.continuation.calls ∧
      request.pendingId.getD "" = pendingId := by
  obtain ⟨⟨call', request⟩, hfound, hcall⟩ := Option.map_eq_some_iff.mp h
  cases hcall
  refine ⟨request, List.mem_reverse.mp (List.mem_of_find?_eq_some hfound), ?_⟩
  simpa using List.find?_some hfound

/-- The calls of a round are told apart by their call ids. -/
theorem Distinct.item_inj (h : Distinct active) {item item' : ToolCall × Request}
    (hitem : item ∈ active.continuation.calls) (hitem' : item' ∈ active.continuation.calls)
    (hid : item.1.toolCallId = item'.1.toolCallId) : item = item' := by
  have hids := h.callIds
  unfold pendingPairs at hids
  rw [List.map_map] at hids
  exact List.inj_on_of_nodup_map hids hitem hitem' hid

/-- And by their pending ids. -/
theorem Distinct.pending_inj (h : Distinct active) {item item' : ToolCall × Request}
    (hitem : item ∈ active.continuation.calls) (hitem' : item' ∈ active.continuation.calls)
    (hid : item.2.pendingId.getD "" = item'.2.pendingId.getD "") : item = item' := by
  have hids := h.pendingIds
  unfold pendingPairs at hids
  rw [List.map_map] at hids
  exact List.inj_on_of_nodup_map hids hitem hitem' hid

theorem Distinct.of_continuation (h : Distinct active)
    (hsame : active'.continuation = active.continuation) : Distinct active' :=
  ⟨hsame ▸ h.pendingIds, hsame ▸ h.callIds⟩

/-- An answer that is put to a call is held. -/
theorem holds_answered (hcall : callOf active pendingId = some call) :
    Holds (answered active call payload) pendingId payload := by
  refine ⟨call, hcall, ?_⟩
  unfold answered
  rw [fetch_upsert, if_pos rfl]

/-- An answer put to another call leaves those that are held. -/
theorem Holds.answered (h : Holds active pendingId payload) (hdistinct : Distinct active)
    {pendingId' : String} {payload' : Answer} (hcall : callOf active pendingId' = some call)
    (hne : pendingId' ≠ pendingId) : Holds (answered active call payload') pendingId payload := by
  obtain ⟨mine, hmine, hfetch⟩ := h
  refine ⟨mine, hmine, ?_⟩
  have hother : mine.toolCallId ≠ call.toolCallId := by
    intro hid
    obtain ⟨request, hmem, hpending⟩ := callOf_mem hmine
    obtain ⟨request', hmem', hpending'⟩ := callOf_mem hcall
    have hsame := hdistinct.item_inj hmem hmem' hid
    cases hsame
    exact hne (hpending'.symm.trans hpending)
  unfold Answers.answered
  rw [fetch_upsert, if_neg hother]
  exact hfetch

end

/-! What a thread may write under the continuation key. -/

section
variable (b : String)

/-- The continuation the event wrote, answered or to be finalized. -/
def writes : Event → Option Suspension
  | ⟨_, .ledger (.writeControl b' k (.suspension active) _), .ok _⟩ =>
    if b' = b ∧ k = Effects.activeSuspension then some active else none
  | _ => none

/-- The event marked what was parked completed, or parked a round in its place. -/
def concludes : Event → Bool
  | ⟨_, .ledger (.writeControl b' k (.completed _ _) _), .ok _⟩ =>
    b' = b ∧ k = Effects.activeSuspension
  | ⟨_, .ledger (.commitTransition b' tr _), .ok _⟩ =>
    b' = b ∧ Effects.activeSuspension ∈ tr.controls.map Prod.fst
  | _ => false

/-- The thread has written the continuation. -/
def wrote (i : Nat) (events : List Event) : Bool :=
  (log i events).any (fun e => (writes b e).isSome)

/-- The event is the first accepted write of a thread that brings this answer. -/
structure Brings (asks : Nat → Option (String × Answer)) (before : List Event) (e : Event)
    (pendingId : String) (payload : Answer) (active : Suspension) : Prop where
  brought : asks e.thread = some (pendingId, payload)
  first : wrote b e.thread before = false
  accepted : writes b e = some active

/-- The event ends the round, or answers this pending id. -/
def Undoes (asks : Nat → Option (String × Answer)) (before : List Event) (e : Event)
    (pendingId : String) : Prop :=
  concludes b e = true ∨ ∃ payload active, Brings b asks before e pendingId payload active

/-- What one event makes of the round on the table, where its thread brings an answer or none and
has written before or not. -/
inductive Turn (asks : Option (String × Answer)) (before : Bool) (e : Event) (s s' : Scene) : Prop
  | same (cell : cell b s' = cell b s) (quiet : writes b e = none) (goes : concludes b e = false)
  | answer (active : Suspension) (pendingId : String) (payload : Answer) (call : ToolCall)
      (brought : asks = some (pendingId, payload)) (first : before = false)
      (parked : live b s = some active) (found : callOf active pendingId = some call)
      (accepted : writes b e = some (answered active call payload))
      (written : live b s' = some (answered active call payload))
  | resume (active : Suspension) (later : asks = none ∨ before = true)
      (parked : live b s = some active) (decided : undecided active = [])
      (accepted : writes b e = some (resuming active))
      (written : live b s' = some (resuming active))
  | conclude (goes : concludes b e = true)
      (fresh : ∀ active, live b s' = some active → active.answers = [])

/-- An answer for this pending id was accepted, for the round parked now, and nothing has undone
it. -/
def Latest (asks : Nat → Option (String × Answer)) (events : List Event) (active : Suspension)
    (pendingId : String) (payload : Answer) : Prop :=
  ∃ k e active', events[k]? = some e ∧
    Brings b asks (events.take k) e pendingId payload active' ∧
    active'.continuation = active.continuation ∧
    ∀ k' f, k < k' → events[k']? = some f → ¬ Undoes b asks (events.take k') f pendingId

end

/-- The answers held are those accepted last. -/
structure Faithful (b : String) (asks : Nat → Option (String × Answer)) (s : Scene) : Prop where
  kept : ∀ active pendingId payload, Distinct active →
    Latest b asks s.events active pendingId payload →
      ∃ active', live b s = some active' ∧ active'.continuation = active.continuation ∧
        Holds active' pendingId payload
  origin : ∀ active, live b s = some active → Distinct active →
    ∀ item ∈ active.continuation.calls, ∀ payload,
      fetch item.1.toolCallId active.answers = some payload →
        Latest b asks s.events active (item.2.pendingId.getD "") payload

/-- Every continuation that was written held the answers accepted last. -/
def Recorded (b : String) (asks : Nat → Option (String × Answer)) (s : Scene) : Prop :=
  ∀ (k : Nat) (e : Event) (active : Suspension), s.events[k]? = some e →
    writes b e = some active → Distinct active → ∀ item ∈ active.continuation.calls, ∀ payload,
      fetch item.1.toolCallId active.answers = some payload →
        Latest b asks (s.events.take (k + 1)) active (item.2.pendingId.getD "") payload

section
variable {b : String} {asks : Nat → Option (String × Answer)} {s s' : Scene} {e : Event}
variable {active : Suspension} {pendingId : String} {payload : Answer}

theorem faithful_start (h : s.events = []) (hnone : live b s = none) : Faithful b asks s where
  kept := by
    intro active pendingId payload _ hlatest
    obtain ⟨k, e, _, hk, _⟩ := hlatest
    rw [h] at hk
    cases hk
  origin := by
    intro active hlive
    rw [hnone] at hlive
    cases hlive

/-- One more event that does not undo the answer. -/
theorem Latest.append (h : Latest b asks s.events active pendingId payload)
    (hevents : s'.events = s.events ++ [e]) (hlast : ¬ Undoes b asks s.events e pendingId) :
    Latest b asks s'.events active pendingId payload := by
  obtain ⟨k, f, active', hk, hanswers, hsame, hrest⟩ := h
  have hlt : k < s.events.length := (List.getElem?_eq_some_iff.mp hk).1
  refine ⟨k, f, active', ?_, ?_, hsame, ?_⟩
  · rw [hevents, List.getElem?_append_left hlt]
    exact hk
  · rw [hevents, List.take_append_of_le_length (by omega)]
    exact hanswers
  · intro k' g hkk' hg
    rw [hevents] at hg ⊢
    by_cases hold : k' < s.events.length
    · rw [List.getElem?_append_left hold] at hg
      rw [List.take_append_of_le_length (by omega)]
      exact hrest k' g hkk' hg
    · have hk' : k' = s.events.length := by
        have hin := (List.getElem?_eq_some_iff.mp hg).1
        simp only [List.length_append, List.length_singleton] at hin
        omega
      subst hk'
      simp only [List.getElem?_concat_length, Option.some.injEq] at hg
      subst hg
      rw [List.take_left' rfl]
      exact hlast

/-- The answer just accepted. -/
theorem latest_last (hevents : s'.events = s.events ++ [e])
    {active' : Suspension} (h : Brings b asks s.events e pendingId payload active')
    (hsame : active'.continuation = active.continuation) :
    Latest b asks s'.events active pendingId payload := by
  refine ⟨s.events.length, e, active', ?_, ?_, hsame, ?_⟩
  · rw [hevents]
    simp
  · rw [hevents, List.take_left' rfl]
    exact h
  · intro k' g hlt hg
    have hin := (List.getElem?_eq_some_iff.mp hg).1
    rw [hevents] at hin
    simp only [List.length_append, List.length_singleton] at hin
    omega

/-- An answer accepted last before one more event, or by it. -/
theorem Latest.cases (h : Latest b asks s'.events active pendingId payload)
    (hevents : s'.events = s.events ++ [e]) :
    (Latest b asks s.events active pendingId payload ∧ ¬ Undoes b asks s.events e pendingId) ∨
      ∃ active', Brings b asks s.events e pendingId payload active' ∧
        active'.continuation = active.continuation := by
  obtain ⟨k, f, active', hk, hanswers, hsame, hrest⟩ := h
  rw [hevents] at hk hanswers hrest
  by_cases hold : k < s.events.length
  · rw [List.getElem?_append_left hold] at hk
    rw [List.take_append_of_le_length (by omega)] at hanswers
    have hlast := hrest s.events.length e hold (by simp)
    rw [List.take_left' rfl] at hlast
    refine .inl ⟨⟨k, f, active', hk, hanswers, hsame, ?_⟩, hlast⟩
    intro k' g hkk' hg
    have hin := (List.getElem?_eq_some_iff.mp hg).1
    have hgo := hrest k' g hkk' (by rw [List.getElem?_append_left hin]; exact hg)
    rw [List.take_append_of_le_length (by omega)] at hgo
    exact hgo
  · have hk' : k = s.events.length := by
      have hin := (List.getElem?_eq_some_iff.mp hk).1
      simp only [List.length_append, List.length_singleton] at hin
      omega
    subst hk'
    simp only [List.getElem?_concat_length, Option.some.injEq] at hk
    subst hk
    rw [List.take_left' rfl] at hanswers
    exact .inr ⟨active', hanswers, hsame⟩

/-- A write of the continuation ends no round. -/
theorem writes_concludes (h : writes b e = some active) : concludes b e = false := by
  unfold writes at h
  split at h
  · rfl
  · cases h

/-- An event that writes no continuation answers nothing. -/
theorem undoes_quiet (hquiet : writes b e = none) (hgoes : concludes b e = false)
    (before : List Event) : ¬ Undoes b asks before e pendingId := by
  intro hundoes
  rcases hundoes with hends | ⟨payload, active, hanswers⟩
  · rw [hgoes] at hends
    cases hends
  · cases hquiet.symm.trans hanswers.accepted

theorem undoes_later {before : List Event} (hwrites : writes b e = some active)
    (hlater : asks e.thread = none ∨ wrote b e.thread before = true) :
    ¬ Undoes b asks before e pendingId := by
  intro hundoes
  rcases hundoes with hends | ⟨payload, active, hanswers⟩
  · rw [writes_concludes hwrites] at hends
    cases hends
  · rcases hlater with hnone | hwrote
    · cases hnone.symm.trans hanswers.brought
    · cases hwrote.symm.trans hanswers.first

/-- An answer for another pending id undoes nothing. -/
theorem undoes_other {before : List Event} {pendingId' : String} {payload' : Answer}
    (hwrites : writes b e = some active) (hbrought : asks e.thread = some (pendingId', payload'))
    (hne : pendingId' ≠ pendingId) : ¬ Undoes b asks before e pendingId := by
  intro hundoes
  rcases hundoes with hends | ⟨payload, active, hanswers⟩
  · rw [writes_concludes hwrites] at hends
    cases hends
  · have hsame := hbrought.symm.trans hanswers.brought
    cases hsame
    exact hne rfl

/-- One event, whatever it makes of the round, leaves the answers faithful. -/
theorem faithful_step (h : Faithful b asks s) (hevents : s'.events = s.events ++ [e])
    (turn : Turn b (asks e.thread) (wrote b e.thread s.events) e s s') : Faithful b asks s' := by
  cases turn with
  | same hcell hquiet hgoes =>
    have hlive : live b s' = live b s := congrArg liveSuspension hcell
    constructor
    · intro active pendingId payload hdistinct hlatest
      rw [hlive]
      rcases hlatest.cases hevents with ⟨hold, -⟩ | ⟨active', hanswers, -⟩
      · exact h.kept active pendingId payload hdistinct hold
      · cases hquiet.symm.trans hanswers.accepted
    · intro active hparked hdistinct item hitem payload hfetch
      rw [hlive] at hparked
      exact (h.origin active hparked hdistinct item hitem payload hfetch).append hevents
        (undoes_quiet hquiet hgoes _)
  | answer active pendingId payload call hbrought hfirst hparked hfound haccepted hwritten =>
    have hanswers : Brings b asks s.events e pendingId payload (answered active call payload) :=
      ⟨hbrought, hfirst, haccepted⟩
    constructor
    · intro other pendingId' payload' hdistinct hlatest
      rcases hlatest.cases hevents with ⟨hold, hundone⟩ | ⟨active', hnew, hsame⟩
      · obtain ⟨active', hlive, hsame, hholds⟩ :=
          h.kept other pendingId' payload' hdistinct hold
        cases Option.some.inj (hparked.symm.trans hlive)
        have hne : pendingId ≠ pendingId' := by
          intro he
          subst he
          exact hundone (.inr ⟨_, _, hanswers⟩)
        exact ⟨_, hwritten, hsame, hholds.answered (hdistinct.of_continuation hsame) hfound hne⟩
      · have hid := hbrought.symm.trans hnew.brought
        cases hid
        have hactive := haccepted.symm.trans hnew.accepted
        cases hactive
        exact ⟨_, hwritten, hsame, holds_answered hfound⟩
    · intro active' hlive hdistinct item hitem payload' hfetch
      rw [hwritten] at hlive
      cases hlive
      obtain ⟨request, hmem, hpending⟩ := callOf_mem hfound
      unfold answered at hfetch
      rw [fetch_upsert] at hfetch
      by_cases hid : item.1.toolCallId = call.toolCallId
      · rw [if_pos hid] at hfetch
        cases hfetch
        obtain rfl : item = (call, request) := hdistinct.item_inj hitem hmem hid
        rw [hpending]
        exact latest_last hevents hanswers rfl
      · rw [if_neg hid] at hfetch
        have hold := h.origin active hparked (hdistinct.of_continuation rfl) item hitem payload'
          hfetch
        have hne : pendingId ≠ item.2.pendingId.getD "" := by
          intro he
          have hsame := hdistinct.pending_inj hitem hmem (he.symm.trans hpending.symm)
          rw [hsame] at hid
          exact hid rfl
        exact hold.append hevents (undoes_other haccepted hbrought hne)
  | resume active hlater hparked hdecided haccepted hwritten =>
    constructor
    · intro other pendingId payload hdistinct hlatest
      rcases hlatest.cases hevents with ⟨hold, -⟩ | ⟨active', hanswers, -⟩
      · obtain ⟨active', hlive, hsame, hholds⟩ := h.kept other pendingId payload hdistinct hold
        cases Option.some.inj (hparked.symm.trans hlive)
        exact ⟨_, hwritten, hsame, hholds⟩
      · exact absurd (.inr ⟨_, _, hanswers⟩) (undoes_later haccepted hlater)
    · intro active' hlive hdistinct item hitem payload hfetch
      rw [hwritten] at hlive
      cases hlive
      exact (h.origin active hparked (hdistinct.of_continuation rfl) item hitem payload
        hfetch).append hevents (undoes_later haccepted hlater)
  | conclude hgoes hfresh =>
    constructor
    · intro active pendingId payload hdistinct hlatest
      rcases hlatest.cases hevents with ⟨-, hundone⟩ | ⟨active', hanswers, -⟩
      · exact absurd (.inl hgoes) hundone
      · rw [writes_concludes hanswers.accepted] at hgoes
        cases hgoes
    · intro active hlive _ item _ payload hfetch
      rw [hfresh active hlive] at hfetch
      cases hfetch

/-- A continuation just written is on the table. -/
theorem Turn.written {ask : Option (String × Answer)} {before : Bool}
    (turn : Turn b ask before e s s') (h : writes b e = some active) : live b s' = some active := by
  cases turn with
  | same _ hquiet _ => cases hquiet.symm.trans h
  | answer _ _ _ _ _ _ _ _ haccepted hwritten =>
    cases haccepted.symm.trans h
    exact hwritten
  | resume _ _ _ _ haccepted hwritten =>
    cases haccepted.symm.trans h
    exact hwritten
  | conclude hgoes _ => cases (writes_concludes h).symm.trans hgoes

theorem recorded_step (h : Recorded b asks s) (hfaithful : Faithful b asks s')
    (hevents : s'.events = s.events ++ [e])
    (hwritten : ∀ active, writes b e = some active → live b s' = some active) :
    Recorded b asks s' := by
  intro k f active hk hwrites hdistinct item hitem payload hfetch
  by_cases hold : k < s.events.length
  · rw [hevents, List.getElem?_append_left hold] at hk
    rw [hevents, List.take_append_of_le_length (by omega)]
    exact h k f active hk hwrites hdistinct item hitem payload hfetch
  · have hlen : s'.events.length = s.events.length + 1 := by simp [hevents]
    have hlast : k = s.events.length := by
      have hin := (List.getElem?_eq_some_iff.mp hk).1
      omega
    rw [List.take_of_length_le (by omega)]
    rw [hlast, hevents, List.getElem?_concat_length] at hk
    cases hk
    exact hfaithful.origin active (hwritten active hwrites) hdistinct item hitem payload hfetch

end

end Semora.Proofs.Answers
