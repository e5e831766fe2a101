import Mathlib.Data.List.Chain
import Semora.Lib.Succession
import Semora.Proofs.Writing

/-! The committed conversation against what the model saw: over any succession of attempts, it is
a prefix of the messages of the attempt in hand and repeats no message in a row, unless a node taken
out of the history is recorded again, a request is recorded behind a round that closed the history,
or what is sent is the message it is sent behind. -/

namespace Semora.Proofs.Prefix
open Semora.Lib Semora.Store Semora.Transcript Writing

/-- Pydantic AI keeps the history it is given, or takes its trailing request out again. -/
def Enters (ai : PydanticAI) : Prop :=
  ∀ history prompt results messages node, ai.enter history prompt results = .ok (messages, node) →
    (messages = history ∧ node ≠ .userPrompt) ∨
      ∃ r, history = messages ++ [.request r] ∧ node = .modelRequest r

/-- Pydantic AI closes a history with one request of tool returns, if with any. -/
def Closes (ai : PydanticAI) : Prop :=
  ∀ response outcomes messages output appended,
    ai.settle response outcomes messages = .ok (.finish output appended) →
      appended = [] ∨ ∃ r, appended = [.request r]

/-- No message stands behind its equal. -/
def Unrepeated (messages : List ModelMessage) : Prop :=
  messages.IsChain (fun m m' => ¬ same m m')

/-- The last message is the one before it over again. -/
def doubled (messages : List ModelMessage) : Bool :=
  match messages.reverse with
  | last :: before :: _ => decide (same before last)
  | _ => false

/-- The operation leaves the conversation alone, and what the attempt holds of it. -/
def Aside : Op → Prop
  | .append _ => False
  | .modify f => ∀ a, talk (f a) = talk a
  | _ => True

abbrev Silent {α : Type} (p : Program α) : Prop := p.AllOps Aside

theorem performs_aside {eff : Effects} {o : Op} (h : Performs eff true .effects o) : Aside o := by
  cases h with
  | modify f keeps apart => exact apart rfl
  | append entry recorder h conversation loud => cases loud
  | _ => trivial

theorem silent (eff : Effects) {α : Type} {p : Program α} (h : Within eff true .effects p) : Silent p :=
  Prog.AllOps.mono h (fun _ => performs_aside)

/-- The attempt may record: the node in hand was not taken out of the history, the history was not
closed before the request in hand, and neither that request nor what closed the history is the
message before it over again. -/
def Records (a : Attempt) : Prop :=
  a.reentered = false ∧ (a.closing && a.request.isSome) = false ∧ doubled a.visible = false

instance (a : Attempt) : Decidable (Records a) := inferInstanceAs (Decidable (_ ∧ _))

/-- The step does not make the conversation say more than the model saw: nothing is recorded but
where the attempt may, and a request that was taken out of the history stays. -/
def Kept (a : Attempt) : Op → Prop
  | .append _ => Records a
  | .modify f => a.reentered = true → (f a).request = a.request
  | _ => True

instance (a : Attempt) : DecidablePred (Kept a) := fun o => by
  cases o <;> unfold Kept <;> infer_instance

/-- An operation of an attempt, if it is kept. -/
def kept (out : Outside) (i : Nat) : Prog.Exec Op Op.Res Exn Scene :=
  fun o s r s' => Kept (s.attempts i) o ∧ exec out id i o s r s'

/-- No gist stands behind its equal. -/
def Fresh (said : List Json) : Prop := said.IsChain (· ≠ ·)

/-- These bodies are, up to what replays vary, the first the model saw, and none stands behind its
equal. -/
structure Heard (a : Attempt) (bodies : List Json) : Prop where
  fresh : Fresh (bodies.map Json.numeral)
  seen : a.running = true → bodies.map Json.numeral <+: gists a.visible

/-- The conversation says no more than the attempt's messages. -/
structure Good (c : String) (i : Nat) (s : Scene) : Prop where
  orderly : Orderly c s.world
  heard : Heard (s.attempts i) (spelled c s)

/-- Where an attempt stands, up to what its conversation does not depend on. -/
structure Stands (c : String) (i : Nat) (t : Attempt) (entries : List Entry) (s : Scene) :
    Prop where
  talks : talk (s.attempts i) = talk t
  read : s.world.transcript.read c = entries
  orderly : Orderly c s.world
  heard : Heard t (path (tip entries))

/-- What an attempt's step leaves. -/
def Leaves (c : String) (i : Nat) (a b : Scene) : Prop :=
  Good c i b ∧ ∀ j, j ≠ i → b.attempts j = a.attempts j

theorem visible_talk {a b : Attempt} (h : talk a = talk b) : a.visible = b.visible := by
  simp only [talk, Prod.mk.injEq] at h
  simp [Attempt.visible, h.1.1, h.1.2]

theorem Heard.talk {a b : Attempt} {bodies : List Json} (h : Heard a bodies)
    (ht : talk a = Proofs.talk b) : Heard b bodies := by
  have hrunning : a.running = b.running := congrArg (fun x => x.2.1.1) ht
  refine ⟨h.fresh, fun hb => ?_⟩
  rw [← visible_talk ht]
  exact h.seen (hrunning.trans hb)

/-! Messages that stand behind one another. -/

theorem unrepeated_iff {messages : List ModelMessage} :
    Unrepeated messages ↔ Fresh (gists messages) := by
  unfold Fresh gists
  rw [List.isChain_map]
  exact List.IsChain.iff (fun m m' => not_congr (same_iff m m'))

/-- The item a key names in a dictionary. -/
def item (k : String) : Json → Option Json
  | .dict items => fetch k items
  | _ => none

theorem fetch_place {k k' : String} {v : Json} {items : List (String × Json)} :
    fetch k (Json.place k' v items) = if k = k' then some v else fetch k items := by
  induction items with
  | nil => rfl
  | cons first items ih =>
    obtain ⟨k'', v''⟩ := first
    simp only [Json.place]
    split
    · rfl
    · rename_i hlt
      have hne : k' ≠ k'' := fun h => hlt (h ▸ String.le_refl k')
      simp only [fetch, ih]
      by_cases hk : k = k''
      · subst hk
        simp [Ne.symm hne]
      · simp [hk]

theorem fetch_canonical (k : String) (items : List (String × Json)) :
    fetch k (Json.canonicalItems items) = (fetch k items).map Json.canonical := by
  induction items with
  | nil => rfl
  | cons first items ih =>
    obtain ⟨k', v⟩ := first
    simp only [Json.canonicalItems, fetch_place, ih, fetch]
    split <;> rfl

theorem fetch_numeral (k : String) (items : List (String × Json)) :
    fetch k (Json.numeralItems items) = (fetch k items).map Json.numeral := by
  induction items with
  | nil => rfl
  | cons first items ih =>
    obtain ⟨k', v⟩ := first
    simp only [Json.numeralItems, ih, fetch]
    split <;> rfl

theorem fetch_without {k : String} (hk : k ∉ volatile) (items : List (String × Json)) :
    fetch k (Json.withoutItems volatile items) = (fetch k items).map (Json.without volatile) := by
  induction items with
  | nil => rfl
  | cons first items ih =>
    obtain ⟨k', v⟩ := first
    simp only [Json.withoutItems, fetch]
    by_cases hkk : k = k'
    · subst hkk
      simp [hk, fetch]
    · rw [if_neg hkk, ← ih]
      split
      · rfl
      · simp [fetch, hkk]

def kind : ModelMessage → String
  | .request _ => "request"
  | .response _ => "response"

/-- What a message says names its kind. -/
theorem gist_kind (m : ModelMessage) : item "kind" (gist m) = some (.str (kind m)) := by
  have hstable : "kind" ∉ volatile := by decide
  have hgist : ∀ items, encodeMessage m = .dict items → item "kind" (gist m) =
      (((fetch "kind" items).map (Json.without volatile)).map Json.canonical).map Json.numeral := by
    intro items hencode
    simp only [gist, body, stripped, hencode, Json.without, Json.canonical, Json.numeral, item,
      fetch_numeral, fetch_canonical, fetch_without hstable]
  cases m with
  | request r =>
    rw [hgist _ rfl]
    simp [fetch, Json.without, Json.canonical, Json.numeral, kind]
  | response r =>
    rw [hgist _ rfl]
    simp [fetch, Json.without, Json.canonical, Json.numeral, kind]

theorem request_ne_response (r : ModelRequest) (response : ModelResponse) :
    gist (.request r) ≠ gist (.response response) := by
  intro h
  have hkind := congrArg (item "kind") h
  rw [gist_kind, gist_kind] at hkind
  simp [kind] at hkind

theorem fresh_snoc {messages : List ModelMessage} {m : ModelMessage}
    (h : Fresh (gists messages)) (hlast : ∀ m', messages.getLast? = some m' → gist m' ≠ gist m) :
    Fresh (gists (messages ++ [m])) := by
  unfold Fresh at *
  rw [gists, List.map_append, List.isChain_append]
  refine ⟨h, by simp, ?_⟩
  intro x hx y hy
  obtain ⟨m', hm', rfl⟩ : ∃ m', messages.getLast? = some m' ∧ gist m' = x := by
    simpa [gists, List.getLast?_map] using hx
  obtain rfl : gist m = y := by simpa using hy
  exact hlast m' hm'

/-- One message more is no repetition unless it is the last one over again. -/
theorem fresh_behind {messages : List ModelMessage} {m : ModelMessage}
    (h : Fresh (gists messages)) (hd : doubled (messages ++ [m]) = false) :
    Fresh (gists (messages ++ [m])) := by
  refine fresh_snoc h (fun m' hm' heq => ?_)
  obtain ⟨front, rfl⟩ := List.getLast?_eq_some_iff.mp hm'
  simp [doubled, same_iff, heq] at hd

/-- A round stands behind its request, and what closes the history behind the round. -/
theorem fresh_round {front appended : List ModelMessage} {r : ModelRequest}
    {response : ModelResponse} (h : Fresh (gists (front ++ [.request r])))
    (hclose : appended = [] ∨ ∃ r, appended = [.request r]) :
    Fresh (gists (front ++ [.request r] ++ [.response response] ++ appended)) := by
  have hresponse : Fresh (gists (front ++ [.request r] ++ [.response response])) := by
    refine fresh_snoc h (fun m' hm' => ?_)
    obtain rfl : ModelMessage.request r = m' := by simpa using hm'
    exact request_ne_response r response
  rcases hclose with rfl | ⟨r', rfl⟩
  · simpa using hresponse
  · refine fresh_snoc hresponse (fun m' hm' => ?_)
    obtain rfl : ModelMessage.response response = m' := by simpa using hm'
    exact (request_ne_response r' response).symm

section
variable {out : Outside} {c : String} {i : Nat} {t : Attempt} {entries : List Entry} {s : Scene}

theorem Stands.good (h : Stands c i t entries s) : Good c i s := by
  refine ⟨h.orderly, ?_⟩
  unfold spelled
  rw [h.read]
  exact h.heard.talk h.talks.symm

theorem Good.stands (h : Good c i s) :
    Stands c i (s.attempts i) (s.world.transcript.read c) s :=
  ⟨rfl, rfl, h.orderly, h.heard⟩

theorem Stands.apart {s' : Scene} (h : Stands c i t entries s) (hr : Apart c i s s') :
    Stands c i t entries s' where
  talks := by rw [hr.memory, h.talks]
  read := hr.read.trans h.read
  orderly := h.orderly.later hr.read hr.instant
  heard := h.heard

/-- One operation of an attempt that does not write. -/
theorem step_safe {o : Op} {Q : Except Exn o.Res → Scene → Prop} {t' : Attempt}
    (h : Stands c i t entries s)
    (hread : ∀ w a, (step out o w a).2.1.transcript.read c = w.transcript.read c)
    (hinstant : ∀ w a, (step out o w a).2.1.instant = w.instant + 1)
    (ht : ∀ w a, talk a = talk t → Kept a o → talk (step out o w a).2.2 = talk t' ∧
      Heard t' (path (tip entries)))
    (hQ : ∀ w a s', talk a = talk t → Stands c i t' entries s' → Q (step out o w a).1 s') :
    Prog.safe (kept out i) (Apart c i) (Leaves c i) (perform o) Q s := by
  refine (Prog.safe_op _ _ _).mpr (fun s₁ hr r s₂ he => ?_)
  have hm := h.apart hr
  obtain ⟨hkept, he⟩ := he
  obtain ⟨-, hw, hrep⟩ := exec_events he
  have ha := exec_attempts he
  simp only [id] at hw hrep ha
  obtain ⟨htalk, hheard⟩ := ht s₁.world (s₁.attempts i) hm.talks hkept
  have hm' : Stands c i t' entries s₂ := by
    refine ⟨by rw [ha, Function.update_self, htalk], ?_, ?_, hheard⟩
    · rw [hw, hread, hm.read]
    · exact hm.orderly.later (by rw [hw, hread]) (by rw [hw, hinstant]; exact Nat.le_succ _)
  refine ⟨⟨hm'.good, fun j hj => ?_⟩, ?_⟩
  · rw [ha, Function.update_of_ne hj]
  · rw [hrep]
    exact hQ _ _ s₂ hm.talks hm'

theorem read_aside {o : Op} (h : Aside o) (w : World) (a : Attempt) :
    (step out o w a).2.1.transcript.read c = w.transcript.read c := by
  cases o with
  | append entry => exact False.elim h
  | _ => rfl

theorem talk_aside {o : Op} (h : Aside o) (w : World) (a : Attempt) :
    talk (step out o w a).2.2 = talk a := by
  cases o with
  | modify f => exact h a
  | _ => rfl

/-- The safety of a program of the attempt, whatever it raises. -/
abbrev Safe (out : Outside) (c : String) (i : Nat) {α : Type} (p : Program α)
    (Q : α → Scene → Prop) (s : Scene) : Prop :=
  Prog.safe (kept out i) (Apart c i) (Leaves c i) p
    (fun r s' => match r with
      | .ok a => Q a s'
      | .error _ => True) s

theorem safe_bind {α β : Type} {p : Program α} {f : α → Program β} {Q : β → Scene → Prop}
    (h : Safe out c i p (fun a s' => Safe out c i (f a) Q s') s) :
    Safe out c i (p.bind f) Q s :=
  (Prog.safe_bind _ _ _ _).mpr (Prog.safe_post h (fun r _ hr => by cases r <;> exact hr))

/-- A silent program leaves the attempt where it stands. -/
theorem safe_silent {α : Type} {p : Program α} {Q : α → Scene → Prop} (hp : Silent p)
    (h : Stands c i t entries s) (hQ : ∀ a s', Stands c i t entries s' → Q a s') :
    Safe out c i p Q s := by
  induction p generalizing s with
  | ret a => exact hQ a s h
  | raise e => trivial
  | call o k ih =>
    intro s₁ hr r s₂ he
    have hop : Prog.safe (kept out i) (Apart c i) (Leaves c i) (perform o)
        (fun r s' => Safe out c i (k r) Q s') s :=
      step_safe h (read_aside hp.1) (step_instant out o)
        (fun w a ha _ => ⟨(talk_aside hp.1 w a).trans ha, h.heard⟩)
        (fun w a s' _ hs' => ih _ (hp.2 _) hs')
    exact (Prog.safe_op _ _ _).mp hop s₁ hr r s₂ he

theorem safe_attempt {Q : Attempt → Scene → Prop} (h : Stands c i t entries s)
    (hQ : ∀ a s', talk a = talk t → Stands c i t entries s' → Q a s') :
    Safe out c i attempt Q s :=
  step_safe h (fun _ _ => rfl) (fun _ _ => rfl) (fun _ _ ha _ => ⟨ha, h.heard⟩)
    (fun _ a s' ha hs' => hQ a s' ha hs')

/-- An update of what the attempt holds of the conversation. -/
theorem safe_update (t' : Attempt) {f : Attempt → Attempt} {Q : Unit → Scene → Prop}
    (h : Stands c i t entries s) (ht : ∀ a, talk a = talk t → talk (f a) = talk t')
    (hheard : (t.reentered = true → t'.request = t.request) → Heard t' (path (tip entries)))
    (hQ : (t.reentered = true → t'.request = t.request) → ∀ s', Stands c i t' entries s' → Q () s') :
    Safe out c i (update f) Q s := by
  by_cases hguard : t.reentered = true → t'.request = t.request
  · exact step_safe h (fun _ _ => rfl) (fun _ _ => rfl) (fun _ a ha _ => ⟨ht a ha, hheard hguard⟩)
      (fun _ _ s' _ hs' => hQ hguard s' hs')
  · -- The update would not be kept.
    refine (Prog.safe_op _ _ _).mpr (fun s₁ hr r s₂ he => absurd ?_ hguard)
    have ha := (h.apart hr).talks
    have hrequest : (f (s₁.attempts i)).request = t'.request := congrArg (fun x => x.1.2) (ht _ ha)
    simp only [talk, Prod.mk.injEq] at ha
    have hkept := he.1
    simp only [Kept, ha, hrequest] at hkept
    exact hkept

/-! The writer behind the guard. -/

/-- The writer of an attempt that goes on from `a`, as long as what it writes was heard. -/
theorem follows (a : Attempt) :
    Follows out c i a (Heard a) (kept out i) (Apart c i) (Leaves c i) where
  exec := fun _ _ _ _ h => h.2
  rely := fun _ _ h => h
  guarantee := by
    intro s s' h
    obtain ⟨branch, hmemory⟩ := h.memory
    exact ⟨⟨h.orderly, by rw [hmemory]; exact ⟨h.allowed.fresh, h.allowed.seen⟩⟩, h.others⟩

theorem Stands.midway (h : Stands c i t entries s) :
    Midway c i (s.attempts i) (Heard (s.attempts i)) (s.attempts i).branch entries s :=
  ⟨rfl, h.read, h.orderly, h.heard.talk h.talks.symm⟩

theorem Midway.stands {a : Attempt} {branch : Semora.Branch}
    (h : Midway c i a (Heard a) branch entries s) (ha : talk a = talk t) :
    Stands c i { t with branch } entries s := by
  simp only [talk, Prod.mk.injEq] at ha
  refine ⟨?_, h.read, h.orderly, ?_⟩
  · simp [h.memory, talk, ha]
  · refine Heard.talk (a := { a with branch }) ⟨h.allowed.fresh, h.allowed.seen⟩ ?_
    simp [talk, ha]

theorem records_talk {a : Attempt} (h : talk a = talk t) : Records a ↔ Records t := by
  have hvisible := visible_talk h
  simp only [talk, Prod.mk.injEq] at h
  simp [Records, hvisible, h]

/-- Where the attempt may not record, it records nothing. -/
theorem safe_barred {messages : List ModelMessage} {Q : Unit → Scene → Prop}
    (h : Stands c i t entries s) (barred : ¬ Records t) (hQ : messages = [] → Q () s) :
    Safe out c i (Branch.append c messages) Q s := by
  cases messages with
  | nil => exact hQ rfl
  | cons m messages =>
    -- The first append of the writer would not be kept.
    unfold Branch.append record
    refine safe_bind (safe_bind (safe_attempt h ?_))
    intro a s₁ _ h₁
    refine safe_bind (step_safe h₁ (fun _ _ => rfl) (fun _ _ => rfl)
      (fun _ _ ha _ => ⟨ha, h₁.heard⟩) (fun w _ s₂ _ h₂ => ?_))
    refine safe_bind ((Prog.safe_op _ _ _).mpr (fun s₃ hr r s₄ he => ?_))
    exact absurd ((records_talk (h₂.apart hr).talks).mp he.1) barred

/-- Recording one more message. -/
theorem safe_record {eff : Effects} {m : ModelMessage} {Q : Unit → Scene → Prop}
    (heff : eff.record = some ⟨c⟩) (h : Stands c i t entries s) (hlinked : Linked t.branch entries)
    (hheard : Records t → gists t.branch.messages ++ [gist m] <+: gists t.visible)
    (hfresh : Records t → Fresh (gists (t.branch.messages ++ [m])))
    (hQ : ∀ branch entries' s', Records t → Stands c i { t with branch } entries' s' →
      Linked branch entries' → branch.messages = t.branch.messages ++ [m] → Q () s') :
    Safe out c i (eff.recordMessage m) Q s := by
  simp only [Effects.recordMessage, heff]
  have ht := h.talks
  simp only [talk, Prod.mk.injEq] at ht
  by_cases hopen : Records t
  · refine Writing.append_safe (follows (s.attempts i)) h.midway (by rwa [ht.2.2]) (fun k => ?_)
      (fun branch entries' s' h' hlinked' hmessages => ?_)
    · have hgo := hheard hopen
      have hnew := hfresh hopen
      simp only [gists, List.map_append, List.map_cons, List.map_nil] at hnew
      rw [← gists, hlinked.said] at hnew
      rw [hlinked.said] at hgo
      cases k with
      | zero =>
        have hheard := h.midway.allowed
        simpa using hheard
      | succ k =>
        refine ⟨by simpa [gist] using hnew, fun _ => ?_⟩
        rw [visible_talk h.talks]
        simpa [gist] using hgo
    · exact hQ branch entries' s' hopen (Midway.stands h' h.talks) hlinked'
        (by rw [hmessages, ht.2.2])
  · exact safe_barred h hopen (fun hnil => by cases hnil)

/-! The nodes of a run. -/

/-- The conversation holds a part of the messages, and none of them stands behind its equal, but the
last one may. -/
structure Whole (t : Attempt) : Prop where
  said : gists t.branch.messages <+: gists t.messages
  fresh : doubled t.messages = false → Fresh (gists t.messages)

/-- Where an attempt stands before a node: the conversation holds its messages, but the request or
the round in hand; a node taken out of the history it holds too, and what closed the history it
does not. -/
def Ready (t : Attempt) : Node → Prop
  | .userPrompt => t.request = none ∧ t.reentered = false ∧ t.closing = false ∧
      gists t.branch.messages = gists t.messages
  | .modelRequest r => t.request = some r ∧
      ((t.reentered = true ∧ gists t.branch.messages = gists (t.messages ++ [.request r])) ∨
        (t.closing = true ∧ Whole t) ∨
        (t.reentered = false ∧ gists t.branch.messages = gists t.messages))
  | .callTools response _ => t.request = none ∧
      ((t.reentered = true ∧ gists t.branch.messages = gists t.messages) ∨
        (t.reentered = false ∧ t.closing = false ∧ ∃ front r,
          t.messages = front ++ [.request r] ++ [.response response] ∧
            gists t.branch.messages = gists (front ++ [.request r])))

/-- Where an attempt stands once its run has ended. -/
def Ended (t : Attempt) : Prop := Whole t ∨ (t.reentered = true ∧ t.request.isSome)

/-- The next node in hand. -/
def advanced (next : Node) (t : Attempt) : Attempt :=
  match next with
  | .modelRequest request => if t.request.isSome then t else
      { t with request := some request, reentered := false }
  | _ => t

theorem advanced_branch (next : Node) (t : Attempt) : (advanced next t).branch = t.branch := by
  unfold advanced
  split
  · split <;> rfl
  · rfl

theorem advanced_running (next : Node) (t : Attempt) : (advanced next t).running = t.running := by
  unfold advanced
  split
  · split <;> rfl
  · rfl

theorem advanced_visible (next : Node) (t : Attempt) :
    gists t.visible <+: gists (advanced next t).visible := by
  unfold advanced
  split
  · split
    · exact List.prefix_rfl
    · rename_i hnone
      simp only [Bool.not_eq_true, Option.isSome_eq_false_iff, Option.isNone_iff_eq_none] at hnone
      simp [Attempt.visible, hnone, gists]
  · exact List.prefix_rfl

/-- Where a node leaves an attempt. -/
structure Left (c : String) (i : Nat) (result : NodeResult) (t : Attempt) (entries : List Entry)
    (s : Scene) : Prop where
  stands : Stands c i t entries s
  linked : Linked t.branch entries
  running : t.running = true
  next : match result with
    | .finish _ => Ended t
    | .node next => Ready (advanced next t) next

section
variable {eff : Effects} {ai : PydanticAI}

theorem silent_update {f : Attempt → Attempt} (h : ∀ a, talk (f a) = talk a) : Silent (update f) :=
  (Prog.allOps_op _).mpr h

theorem Heard.visible {a : Attempt} {bodies : List Json} (h : Heard t bodies)
    (hrunning : a.running = t.running) (hvisible : gists t.visible <+: gists a.visible) :
    Heard a bodies :=
  ⟨h.fresh, fun ha => (h.seen (hrunning ▸ ha)).trans hvisible⟩

theorem Stands.fresh (h : Stands c i t entries s) (hlinked : Linked t.branch entries) :
    Fresh (gists t.branch.messages) := by
  rw [hlinked.said]
  exact h.heard.fresh

/-- Where the conversation holds all the messages. -/
theorem Stands.whole (h : Stands c i t entries s) (hlinked : Linked t.branch entries)
    (hsaid : gists t.branch.messages = gists t.messages) : Whole t :=
  ⟨hsaid ▸ List.prefix_rfl, fun _ => hsaid ▸ h.fresh hlinked⟩

/-- Entering a history: a node of it, taken out or not. -/
theorem safe_enterNode (enters : Enters ai) {prompt : Option Json} {results : DeferredToolResults}
    (h : Stands c i t entries s) (hlinked : Linked t.branch entries) (hrunning : t.running = true)
    (hready : Ready t .userPrompt) :
    Safe out c i (ai.enterNode prompt results)
      (fun result s' => ∃ t' entries', Left c i result t' entries' s') s := by
  obtain ⟨hrequest, hreentered, hclosing, hsaid⟩ := hready
  unfold PydanticAI.enterNode
  refine safe_bind (safe_attempt h (fun a s₁ ha h₁ => ?_))
  have hmessages : a.messages = t.messages := congrArg (fun x => x.1.1) ha
  rw [hmessages]
  split
  · trivial
  · rename_i messages node henter
    have hvisible : t.visible = t.messages := by simp [Attempt.visible, hrequest]
    rcases enters _ _ _ _ _ henter with ⟨rfl, hnode⟩ | ⟨r, hhistory, rfl⟩
    · cases node with
      | userPrompt => exact absurd rfl hnode
      | modelRequest r =>
        refine safe_bind (safe_update { t with request := some r } h₁ ?_ ?_ ?_)
        · intro a ha
          simp only [talk, Prod.mk.injEq] at ha ⊢
          simp [ha, hreentered]
        · intro _
          refine h.heard.visible rfl ?_
          simp [hrequest, gists, Attempt.visible]
        · intro _ s₂ h₂
          refine safe_bind (safe_silent (silent_update (fun _ => rfl)) h₂ (fun _ s₃ h₃ => ?_))
          exact ⟨_, _, h₃, hlinked, hrunning, rfl, .inr (.inr ⟨hreentered, hsaid⟩)⟩
      | callTools response results =>
        refine safe_bind (safe_update { t with reentered := true } h₁ ?_ ?_ ?_)
        · intro a ha
          simp only [talk, Prod.mk.injEq] at ha ⊢
          simp [ha, hrequest]
        · exact fun _ => ⟨h.heard.fresh, h.heard.seen⟩
        · intro _ s₂ h₂
          refine safe_bind (safe_silent (silent_update (fun _ => rfl)) h₂ (fun _ s₃ h₃ => ?_))
          exact ⟨_, _, h₃, hlinked, hrunning, hrequest, .inl ⟨rfl, hsaid⟩⟩
    · refine safe_bind (safe_update
        { t with messages := messages, request := some r, reentered := true } h₁ ?_ ?_ ?_)
      · intro a ha
        simp only [talk, Prod.mk.injEq] at ha ⊢
        simp [ha, hhistory]
      · intro _
        refine h.heard.visible rfl ?_
        simp [hrequest, hhistory, gists, Attempt.visible]
      · intro _ s₂ h₂
        refine safe_bind (safe_silent (silent_update (fun _ => rfl)) h₂ (fun _ s₃ h₃ => ?_))
        rw [hhistory] at hsaid
        exact ⟨_, _, h₃, hlinked, hrunning, rfl, .inl ⟨rfl, hsaid⟩⟩

/-- Asking the model, once the request is recorded. -/
theorem safe_requestNode {r : ModelRequest} (h : Stands c i t entries s)
    (hlinked : Linked t.branch entries) (hrunning : t.running = true)
    (hrequest : t.request = some r) (hreentered : t.reentered = false) (hclosing : t.closing = false)
    (hsaid : gists t.branch.messages = gists (t.messages ++ [.request r])) :
    Safe out c i (ai.requestNode eff r)
      (fun result s' => ∃ t' entries', Left c i result t' entries' s') s := by
  unfold PydanticAI.requestNode
  refine safe_bind (safe_update
    { t with messages := t.messages ++ [.request r], request := none } h ?_ ?_ ?_)
  · intro a ha
    simp only [talk, Prod.mk.injEq] at ha ⊢
    simp [ha, hreentered]
  · intro _
    refine h.heard.visible rfl ?_
    simp [Attempt.visible, hrequest]
  intro _ s₁ h₁
  refine safe_bind (safe_silent (silent_update (fun _ => rfl)) h₁ (fun _ s₂ h₂ => ?_))
  refine safe_bind (safe_attempt h₂ (fun a s₃ ha h₃ => ?_))
  refine safe_bind (safe_silent (silent eff (within_wrapModelRequest _ _)) h₃
    (fun response s₄ h₄ => ?_))
  refine safe_bind (safe_update { t with
      messages := t.messages ++ [.request r] ++ [.response response], request := none } h₄ ?_ ?_ ?_)
  · intro a ha
    simp only [talk, Prod.mk.injEq] at ha ⊢
    simp [ha]
  · intro _
    refine h₄.heard.visible rfl ?_
    simp [Attempt.visible, gists]
  intro _ s₅ h₅
  exact ⟨_, _, h₅, hlinked, hrunning, rfl, .inr ⟨hreentered, hclosing, _, _, rfl, hsaid⟩⟩

/-- Where a round leaves an attempt, before it is recorded. -/
def Rounded (t : Attempt) (response : ModelResponse) (result : NodeResult) : Prop :=
  t.request = none ∧ (∀ next, result = .node next → ∃ r, next = .modelRequest r) ∧
    ((t.reentered = true ∧ Whole t) ∨
      (t.reentered = false ∧ ∃ front r appended, (t.closing = false → appended = []) ∧
        (appended = [] ∨ ∃ r, appended = [.request r]) ∧
        t.messages = front ++ [.request r] ++ [.response response] ++ appended ∧
        gists t.branch.messages = gists (front ++ [.request r])))

theorem safe_callToolsNode (gathers : Gathers ai) (closes : Closes ai) {response : ModelResponse}
    {results : DeferredToolResults} {Q : NodeResult → Scene → Prop} (h : Stands c i t entries s)
    (hlinked : Linked t.branch entries) (hready : Ready t (.callTools response results))
    (hQ : ∀ result t' s', t'.branch = t.branch → t'.running = t.running →
      Rounded t' response result → Stands c i t' entries s' → Q result s') :
    Safe out c i (ai.callToolsNode eff response results) Q s := by
  obtain ⟨hrequest, hready⟩ := hready
  unfold PydanticAI.callToolsNode
  refine safe_bind (safe_attempt h (fun a s₁ ha h₁ => ?_))
  have hgather : Silent (ai.gather ((ai.round response a.messages results).map
      (fun item => ai.executeCall eff item.1 item.2))) := by
    refine silent eff (gathers _ _ (fun call hcall => ?_))
    obtain ⟨item, -, rfl⟩ := List.mem_map.mp hcall
    exact within_executeCall ai item.1 item.2
  refine safe_bind (safe_silent hgather h₁ (fun outcomes s₂ h₂ => ?_))
  split
  · trivial
  · refine hQ _ t s₂ rfl rfl ⟨hrequest, by simp, ?_⟩ h₂
    rcases hready with ⟨hr, hsaid⟩ | ⟨hr, hclosing, front, r, hmessages, hsaid⟩
    · exact .inl ⟨hr, h.whole hlinked hsaid⟩
    · exact .inr ⟨hr, front, r, [], by simp, .inl rfl, by simpa using hmessages, hsaid⟩
  · rename_i output appended hsettle
    have hclose := closes _ _ _ _ _ hsettle
    refine safe_bind (safe_update { t with
      messages := t.messages ++ appended, closing := t.closing || !appended.isEmpty } h₂ ?_ ?_ ?_)
    · intro a ha
      simp only [talk, Prod.mk.injEq] at ha ⊢
      simp [ha]
    · intro _
      refine h₂.heard.visible rfl ?_
      simp [Attempt.visible, hrequest, gists]
    intro _ s₃ h₃
    refine hQ (.finish output) { t with
      messages := t.messages ++ appended, closing := t.closing || !appended.isEmpty } s₃ rfl rfl ?_ h₃
    refine ⟨hrequest, by simp, ?_⟩
    rcases hready with ⟨hr, hsaid⟩ | ⟨hr, hclosing, front, r, hmessages, hsaid⟩
    · refine .inl ⟨hr, ?_, fun hd => ?_⟩
      · simp only [hsaid]
        simp [gists]
      · have hfresh : Fresh (gists t.messages) := hsaid ▸ h.fresh hlinked
        rcases hclose with rfl | ⟨r, rfl⟩
        · simpa using hfresh
        · exact fresh_behind hfresh hd
    · refine .inr ⟨hr, front, r, appended, ?_, hclose, by simp [hmessages], hsaid⟩
      simp [hclosing]

/-- Whether the round parked. -/
def parks : NodeResult → Bool
  | .finish output => output.isDeferred
  | .node _ => false

/-- What decides the finish leads to, once the round is recorded. -/
theorem left_request (h : Stands c i t entries s) (hlinked : Linked t.branch entries)
    (hrunning : t.running = true) (hrequest : t.request = none) (r : ModelRequest)
    (hwhole : Whole t) (hopen : t.closing = false → gists t.branch.messages = gists t.messages) :
    Left c i (.node (.modelRequest r)) t entries s := by
  refine ⟨h, hlinked, hrunning, ?_⟩
  simp only [advanced, hrequest, Option.isSome_none, Bool.false_eq_true, ↓reduceIte]
  refine ⟨rfl, .inr ?_⟩
  by_cases hclosing : t.closing = true
  · exact .inl ⟨hclosing, hwhole.said, hwhole.fresh⟩
  · exact .inr ⟨rfl, hopen (by simpa using hclosing)⟩

/-- Deciding the finish of a round that is recorded, or that parked. -/
theorem safe_decideFinish (eff : Effects) {result : NodeResult} (h : Stands c i t entries s)
    (hlinked : Linked t.branch entries) (hrunning : t.running = true) (hrequest : t.request = none)
    (hnext : ∀ next, result = .node next → ∃ r, next = .modelRequest r)
    (hwhole : Whole t)
    (hopen : parks result = false → t.closing = false →
      gists t.branch.messages = gists t.messages) :
    Safe out c i (eff.decideFinish result)
      (fun result s' => ∃ t' entries', Left c i result t' entries' s') s := by
  have hfinish : ∀ output s', Stands c i t entries s' → Left c i (.finish output) t entries s' :=
    fun output s' h' => ⟨h', hlinked, hrunning, .inl hwhole⟩
  cases result with
  | node next =>
    obtain ⟨r, rfl⟩ := hnext next rfl
    exact ⟨t, entries, left_request h hlinked hrunning hrequest r hwhole (hopen rfl)⟩
  | finish output =>
    have hrequests : parks (.finish output) = false → ∀ r s', Stands c i t entries s' →
        Left c i (.node (.modelRequest r)) t entries s' :=
      fun hp r s' h' => left_request h' hlinked hrunning hrequest r hwhole (hopen hp)
    simp only [Effects.decideFinish]
    split
    · exact ⟨t, entries, hfinish output s h⟩
    · rename_i hparks
      replace hrequests := hrequests (by simpa [parks] using hparks)
      refine safe_bind (safe_silent (silent eff within_lateInputs) h (fun late s₁ h₁ => ?_))
      split
      · refine safe_bind (safe_silent (silent_update (fun _ => rfl)) h₁ (fun _ s₂ h₂ => ?_))
        exact ⟨t, entries, hrequests _ s₂ h₂⟩
      · split
        · refine safe_bind (safe_silent (silent_update (fun _ => rfl)) h₁ (fun _ s₂ h₂ => ?_))
          exact ⟨t, entries, hfinish output s₂ h₂⟩
        · refine safe_bind (safe_silent (silent eff (within_ctx _)) h₁ (fun here s₂ h₂ => ?_))
          refine safe_bind (safe_silent (silent eff (within_ask _ _)) h₂
            (fun decision s₃ h₃ => ?_))
          cases decision with
          | proceed steers => exact ⟨t, entries, hrequests _ s₃ h₃⟩
          | halt reason =>
            refine safe_bind (safe_silent (silent_update (fun _ => rfl)) h₃ (fun _ s₄ h₄ => ?_))
            exact ⟨t, entries, hfinish output s₄ h₄⟩

/-- Recording a round, unless it parked, and deciding its finish. -/
theorem safe_recordTurn (heff : eff.record = some ⟨c⟩) {response : ModelResponse}
    {result : NodeResult} (h : Stands c i t entries s) (hlinked : Linked t.branch entries)
    (hrunning : t.running = true) (hround : Rounded t response result) :
    Safe out c i ((eff.recordTurn response result).bind (fun _ => eff.decideFinish result))
      (fun result s' => ∃ t' entries', Left c i result t' entries' s') s := by
  obtain ⟨hrequest, hnext, hround⟩ := hround
  have hvisible : t.visible = t.messages := by simp [Attempt.visible, hrequest]
  unfold Effects.recordTurn
  split
  · -- A parked round is not recorded.
    refine safe_decideFinish eff h hlinked hrunning hrequest hnext ?_ (by simp [parks, Output.isDeferred])
    rcases hround with ⟨-, hwhole⟩ | ⟨-, front, r, appended, -, hclose, hmessages, hsaid⟩
    · exact hwhole
    · refine ⟨?_, fun _ => ?_⟩
      · rw [hsaid, hmessages]
        simp [gists]
      · rw [hmessages]
        exact fresh_round (hsaid ▸ h.fresh hlinked) hclose
  · rcases hround with ⟨hr, -⟩ | ⟨hr, front, r, appended, hclosing, hclose, hmessages, hsaid⟩
    · have barred : ¬ Records t := by
        simp [Records, hr]
      exact safe_bind (safe_record heff h hlinked (fun hrecords => absurd hrecords barred)
        (fun hrecords => absurd hrecords barred)
        (fun _ _ _ hrecords => absurd hrecords barred))
    have hwhole : Fresh (gists (front ++ [.request r] ++ [.response response] ++ appended)) :=
      fresh_round (hsaid ▸ h.fresh hlinked) hclose
    have hturn : ∀ messages, gists messages = gists (front ++ [.request r]) →
        gists (messages ++ [.response response]) =
          gists (front ++ [.request r] ++ [.response response]) := by
      intro messages hm
      simp only [gists, List.map_append] at hm ⊢
      rw [hm]
    refine safe_bind (safe_record heff h hlinked ?_ ?_ ?_)
    · intro _
      rw [hvisible, hsaid, hmessages]
      simp [gists]
    · intro _
      rw [hturn _ hsaid]
      exact hwhole.prefix (by simp [gists])
    · intro branch entries' s' _ h' hlinked' hmore
      have hsaid' := hturn _ hsaid
      rw [← hmore] at hsaid'
      refine safe_decideFinish eff h' hlinked' hrunning hrequest hnext ⟨?_, fun _ => ?_⟩
        (fun _ hc => ?_)
      · rw [hsaid', hmessages]
        simp [gists]
      · exact hmessages ▸ hwhole
      · rw [hsaid', hmessages, hclosing hc, List.append_nil]

/-- A boundary: the request is rewritten and recorded before the model is asked. -/
theorem safe_admit (heff : eff.record = some ⟨c⟩) {r : ModelRequest} {prompt : Option Json}
    {results : DeferredToolResults} (h : Stands c i t entries s) (hlinked : Linked t.branch entries)
    (hrunning : t.running = true) (hready : Ready t (.modelRequest r)) :
    Safe out c i (eff.admit_ r (ai.runNode eff prompt results))
      (fun result s' => ∃ t' entries', Left c i result t' entries' s') s := by
  obtain ⟨hrequest, hready⟩ := hready
  unfold Effects.admit_
  refine safe_bind (safe_silent (silent eff within_drain) h (fun pending s₁ h₁ => ?_))
  refine safe_bind (safe_silent (silent eff (within_steered _ _)) h₁ (fun decision s₂ h₂ => ?_))
  split
  · unfold Effects.halt
    refine safe_bind (safe_silent (silent_update (fun _ => rfl)) h₂ (fun _ s₃ h₃ => ?_))
    refine safe_bind (safe_attempt h₃ (fun a s₄ _ h₄ => ?_))
    refine ⟨t, entries, h₄, hlinked, hrunning, ?_⟩
    rcases hready with ⟨hr, -⟩ | ⟨-, hwhole⟩ | ⟨-, hsaid⟩
    · exact .inr ⟨hr, by simp [hrequest]⟩
    · exact .inl hwhole
    · exact .inl (h₄.whole hlinked hsaid)
  · rename_i inputs steers
    have hbehind : t.reentered = false → gists t.branch.messages <+: gists t.messages := by
      intro hr
      rcases hready with ⟨hr', -⟩ | ⟨-, hwhole⟩ | ⟨-, hsaid⟩
      · rw [hr] at hr'
        cases hr'
      · exact hwhole.said
      · exact hsaid ▸ List.prefix_rfl
    refine safe_bind (safe_update
      { t with request := some (Effects.rewritten r inputs steers) } h₂ ?_ ?_ ?_)
    · intro a ha
      simp only [talk, Prod.mk.injEq] at ha ⊢
      simp [ha]
    · intro hguard
      by_cases hr : t.reentered = true
      · refine h₂.heard.visible rfl ?_
        simp [Attempt.visible, ← hguard hr]
      · refine ⟨h₂.heard.fresh, fun _ => ?_⟩
        rw [← hlinked.said]
        refine (hbehind (by simpa using hr)).trans ?_
        simp [Attempt.visible, gists]
    intro _ s₃ h₃
    have hkept : t.reentered = false → (t.closing && true) = false →
        t.closing = false ∧ gists t.branch.messages = gists t.messages := by
      intro hr hc
      rcases hready with ⟨hr', -⟩ | ⟨hc', -⟩ | ⟨-, hsaid⟩
      · rw [hr] at hr'
        cases hr'
      · rw [hc'] at hc
        cases hc
      · exact ⟨by simpa using hc, hsaid⟩
    have hsent : ∀ m, Records { t with request := some (Effects.rewritten r inputs steers) } →
        gists (t.branch.messages ++ [m]) = gists (t.messages ++ [m]) := by
      intro m hrecords
      have hsaid := (hkept hrecords.1 hrecords.2.1).2
      simp only [gists] at hsaid
      simp [gists, hsaid]
    refine safe_bind (safe_record heff h₃ hlinked ?_ ?_ ?_)
    · intro hrecords
      rw [(hkept hrecords.1 hrecords.2.1).2]
      simp [Attempt.visible, gists]
    · intro hrecords
      rw [hsent _ hrecords]
      have hfresh := h₃.fresh hlinked
      rw [(hkept hrecords.1 hrecords.2.1).2] at hfresh
      exact fresh_behind hfresh hrecords.2.2
    · intro branch entries' s₄ hrecords h₄ hlinked' hmore
      refine safe_bind (safe_silent (silent eff (within_admitInputs _)) h₄ (fun _ s₅ h₅ => ?_))
      refine safe_requestNode h₅ hlinked' hrunning rfl hrecords.1
        (hkept hrecords.1 hrecords.2.1).1 ?_
      rw [hmore]
      exact hsent _ hrecords

/-- One node, wherever the attempt stands before it. -/
theorem safe_wrapNodeRun (enters : Enters ai) (gathers : Gathers ai) (closes : Closes ai)
    (heff : eff.record = some ⟨c⟩) {node : Node} {prompt : Option Json}
    {results : DeferredToolResults} (h : Stands c i t entries s) (hlinked : Linked t.branch entries)
    (hrunning : t.running = true) (hready : Ready t node) :
    Safe out c i (eff.wrapNodeRun node (ai.runNode eff prompt results))
      (fun result s' => ∃ t' entries', Left c i result t' entries' s') s := by
  unfold Effects.wrapNodeRun
  refine safe_bind (safe_silent (silent_update (fun _ => rfl)) h (fun _ s₁ h₁ => ?_))
  split
  · exact safe_admit heff h₁ hlinked hrunning hready
  · refine safe_bind (safe_silent (silent_update (fun _ => rfl)) h₁ (fun _ s₂ h₂ => ?_))
    refine safe_bind (safe_silent (silent eff (within_recordPending _)) h₂ (fun _ s₃ h₃ => ?_))
    refine safe_bind (safe_callToolsNode gathers closes h₃ hlinked hready ?_)
    intro result t' s₄ hbranch hrunning' hround h₄
    exact safe_recordTurn heff h₄ (hbranch ▸ hlinked) (hrunning'.trans hrunning) hround
  · exact safe_enterNode enters h₁ hlinked hrunning hready

/-- A run of nodes. -/
theorem safe_iterate (enters : Enters ai) (gathers : Gathers ai) (closes : Closes ai) (heff : eff.record = some ⟨c⟩)
    {prompt : Option Json} {results : DeferredToolResults} (fuel : Nat) {node : Node}
    (h : Stands c i t entries s) (hlinked : Linked t.branch entries)
    (hrunning : t.running = true) (hready : Ready t node) :
    Safe out c i (ai.iterate eff prompt results fuel node)
      (fun _ s' => ∃ t' entries', Stands c i t' entries' s' ∧ Linked t'.branch entries' ∧
        t'.running = true ∧ Ended t') s := by
  induction fuel generalizing t entries s node with
  | zero => trivial
  | succ fuel ih =>
    unfold PydanticAI.iterate
    refine safe_bind (Prog.safe_post (safe_wrapNodeRun enters gathers closes heff h hlinked hrunning hready)
      ?_)
    intro r s₁ hr
    cases r with
    | error e => trivial
    | ok result =>
      obtain ⟨t₁, entries₁, hleft⟩ := hr
      cases result with
      | finish output => exact ⟨t₁, entries₁, hleft.stands, hleft.linked, hleft.running, hleft.next⟩
      | node next =>
        refine safe_bind (safe_update (advanced next t₁) hleft.stands ?_ ?_ ?_)
        · intro a ha
          simp only [talk, Prod.mk.injEq] at ha
          cases next with
          | modelRequest r =>
            simp only [advanced, talk, ha]
            split <;> simp [ha]
          | userPrompt | callTools => simp [advanced, talk, ha]
        · exact fun _ => hleft.stands.heard.visible (advanced_running next t₁) (advanced_visible next t₁)
        · intro _ s₂ h₂
          refine ih h₂ ?_ ?_ hleft.next
          · rw [advanced_branch]
            exact hleft.linked
          · rw [advanced_running]
            exact hleft.running

/-- A whole run of the agent over the history the conversation holds. -/
theorem safe_run (enters : Enters ai) (gathers : Gathers ai) (closes : Closes ai) (heff : eff.record = some ⟨c⟩)
    {prompt : Option Json} {history : List ModelMessage} {results : DeferredToolResults}
    (h : Stands c i t entries s) (hlinked : Linked t.branch entries) (hrequest : t.request = none)
    (hreentered : t.reentered = false) (hclosing : t.closing = false)
    (hsaid : gists t.branch.messages = gists history) :
    Safe out c i (ai.run eff prompt history results)
      (fun _ s' => ∃ t' entries', Stands c i t' entries' s' ∧ Linked t'.branch entries' ∧
        t'.request = none ∧ t'.reentered = false ∧ t'.closing = false ∧ Whole t') s := by
  unfold PydanticAI.run
  refine safe_bind (safe_update { t with messages := history, running := true } h ?_ ?_ ?_)
  · intro a ha
    simp only [talk, Prod.mk.injEq] at ha ⊢
    simp [ha]
  · refine fun _ => ⟨h.heard.fresh, fun _ => ?_⟩
    rw [← hlinked.said, hsaid]
    simp [Attempt.visible, hrequest]
  intro _ s₁ h₁
  refine safe_bind (Prog.safe_post (safe_iterate enters gathers closes heff ai.nodeLimit h₁ hlinked rfl
    ⟨hrequest, hreentered, hclosing, hsaid⟩) ?_)
  intro r s₂ hr
  cases r with
  | error e => trivial
  | ok output =>
    obtain ⟨t₂, entries₂, h₂, hlinked₂, hrunning₂, hended⟩ := hr
    have hgiven : (t₂.reentered = true → none = t₂.request) → Whole t₂ := by
      intro hguard
      rcases hended with hwhole | ⟨hr, hsome⟩
      · exact hwhole
      · -- A request taken out of the history may not be given up.
        rw [← hguard hr] at hsome
        cases hsome
    refine safe_bind (safe_update
      { t₂ with request := none, reentered := false, closing := false } h₂ ?_ ?_ ?_)
    · intro a ha
      simp only [talk, Prod.mk.injEq] at ha ⊢
      simp [ha]
    · refine fun hguard => ⟨h₂.heard.fresh, fun _ => ?_⟩
      rw [← hlinked₂.said]
      simpa [Attempt.visible] using (hgiven hguard).said
    · intro hguard s₃ h₃
      exact ⟨_, _, h₃, hlinked₂, rfl, rfl, rfl, (hgiven hguard).said, (hgiven hguard).fresh⟩

end

/-! A whole attempt. -/

section
variable {rt : AgentRuntime} {e : Execution} {token : Nat} {agent : Agent} {options : Options}

/-- Opening the conversation, and moving it to the history the attempt continues. -/
theorem safe_openBranch (htranscript : rt.transcript = true) (hconversation : e.conversation = c)
    {messageHistory : Option (List ModelMessage)}
    (hgiven : ∀ history, messageHistory = some history → Unrepeated history)
    (h : Stands c i {} entries s) :
    Safe out c i (rt.openBranch e messageHistory)
      (fun history s' => ∃ branch entries', Stands c i { ({} : Attempt) with branch } entries' s' ∧
        Linked branch entries' ∧ gists branch.messages = gists history) s := by
  have hidle : ∀ bodies, Fresh (bodies.map Json.numeral) → Heard (s.attempts i) bodies := by
    refine fun bodies hfresh => ⟨hfresh, fun hrunning => ?_⟩
    have ht := congrArg (fun x => x.2.1.1) h.talks
    simp only [talk] at ht
    rw [ht] at hrunning
    cases hrunning
  unfold AgentRuntime.openBranch
  rw [if_pos htranscript, hconversation]
  refine safe_bind (Writing.opening_safe (follows (s.attempts i)) h.midway
    (fun branch s₁ h₁ hlinked _ => ?_))
  cases messageHistory with
  | none =>
    refine safe_bind (safe_attempt (Midway.stands h₁ h.talks) (fun a s₂ ha h₂ => ?_))
    have hbranch : a.branch = branch := congrArg (fun x => x.2.2) ha
    exact ⟨branch, entries, h₂, hlinked, by rw [hbranch]⟩
  | some history =>
    refine safe_bind (Writing.replace_safe (follows (s.attempts i)) h₁ hlinked
      (fun k => hidle _ ?_) (fun branch₂ entries₂ s₂ h₂ hlinked₂ hsaid => ?_))
    · -- Whatever of it is written, is a front of the history.
      have hfresh := unrepeated_iff.mp (hgiven history rfl)
      rw [numeral_bodies]
      refine hfresh.prefix ?_
      have htake := common_take branch.messages history
      simp only [gists] at htake
      simp only [gists, List.map_append, htake]
      rw [← List.map_append, ← List.take_add]
      exact (List.take_prefix _ _).map gist
    exact ⟨branch₂, entries₂, Midway.stands h₂ h.talks, hlinked₂, hsaid⟩

/-- Committing the final history: it goes on from what the conversation holds. -/
theorem safe_replaceFinal (htranscript : rt.transcript = true) (hconversation : e.conversation = c)
    (h : Stands c i t entries s) (hlinked : Linked t.branch entries) (hrequest : t.request = none)
    (hwhole : Whole t) :
    Safe out c i (rt.replaceFinal e) (fun _ s' => ∃ t' entries', Stands c i t' entries' s') s := by
  obtain ⟨hsaid, hfresh⟩ := hwhole
  have hall : t.visible = t.messages := by simp [Attempt.visible, hrequest]
  unfold AgentRuntime.replaceFinal
  rw [if_pos htranscript, hconversation]
  refine safe_bind (safe_attempt h (fun a s₁ ha h₁ => ?_))
  have ht := h₁.talks
  simp only [talk, Prod.mk.injEq] at ha ht
  by_cases hdoubled : doubled t.messages = true
  · -- What closed the history is the message before it over again, and stays unwritten.
    have barred : ¬ Records t := by
      simp [Records, hall, hdoubled]
    unfold Branch.replace
    refine safe_bind (safe_attempt h₁ (fun b s₂ hb h₂ => ?_))
    have hbranch : b.branch = t.branch := congrArg (fun x => x.2.2) hb
    have hcommon : Branch.common b.branch.messages a.messages = b.branch.messages.length := by
      rw [hbranch, ha.1.1]
      exact common_prefix hsaid
    simp only [hcommon, Branch.cut, Nat.lt_irrefl, if_false]
    exact safe_bind (safe_barred h₂ barred (fun _ => ⟨t, entries, h₂⟩))
  have hfresh := hfresh (by simpa using hdoubled)
  refine Writing.replace_safe (follows (s₁.attempts i)) h₁.midway (by rwa [ht.2.2]) (fun k => ?_)
    (fun branch entries₂ s₂ h₂ _ _ => ⟨_, _, Midway.stands h₂ h₁.talks⟩)
  rw [ha.1.1, ht.2.2, common_prefix hsaid, List.take_length]
  obtain ⟨rest, hrest⟩ := hsaid
  have hdrop : gists (t.messages.drop t.branch.messages.length) = rest := by
    have hlen := congrArg (List.drop t.branch.messages.length) hrest
    simpa [gists, List.drop_append] using hlen.symm
  have hfront : gists (t.branch.messages ++ (t.messages.drop t.branch.messages.length).take k) <+:
      gists t.messages := by
    rw [← hrest, ← hdrop]
    simp only [gists, List.map_append, List.prefix_append_right_inj, List.map_take]
    exact List.take_prefix _ _
  refine ⟨?_, fun _ => ?_⟩
  · rw [numeral_bodies]
    exact hfresh.prefix hfront
  · rw [numeral_bodies, visible_talk h₁.talks, hall]
    exact hfront

theorem ends_aside {o : Op} (h : Ends o) : Aside o := by
  cases o <;> trivial

/-- An attempt. -/
theorem safe_attemptRun (htranscript : rt.transcript = true) (hconversation : e.conversation = c)
    (enters : Enters agent.toPydanticAI) (gathers : Gathers agent.toPydanticAI)
    (closes : Closes agent.toPydanticAI)
    (hgiven : ∀ history, options.messageHistory = some history → Unrepeated history)
    {prompt : Option String} (h : Good c i s) :
    Safe out c i (rt.attemptRun e token agent prompt options) (fun _ _ => True) s := by
  have heff : (rt.effectsOf e token agent options).record = some ⟨c⟩ := by
    rw [effectsOf_record rt e token agent options htranscript, hconversation]
  unfold AgentRuntime.attemptRun
  refine safe_bind (safe_update {} h.stands (fun _ _ => rfl) ?_ ?_)
  · refine fun _ => ⟨h.heard.fresh, fun hrunning => ?_⟩
    cases hrunning
  intro _ s₁ h₁
  refine safe_bind (Prog.safe_post (safe_openBranch htranscript hconversation hgiven h₁) ?_)
  rintro (error | history) s₂ hr
  · trivial
  obtain ⟨branch, entries₂, h₂, hlinked₂, hsaid₂⟩ := hr
  refine safe_bind (safe_silent (silent _ (within_admitPrompt rt e token agent options prompt _)) h₂
    (fun prompt s₃ h₃ => ?_))
  refine safe_bind (Prog.safe_post (safe_run enters gathers closes heff h₃ hlinked₂ rfl rfl rfl hsaid₂) ?_)
  rintro (error | output) s₄ hr
  · trivial
  obtain ⟨t₄, entries₄, h₄, hlinked₄, hrequest, -, -, hsaid₄⟩ := hr
  refine safe_bind (Prog.safe_post
    (safe_replaceFinal htranscript hconversation h₄ hlinked₄ hrequest hsaid₄) ?_)
  rintro (error | u) s₅ hr
  · trivial
  obtain ⟨t₅, entries₅, h₅⟩ := hr
  refine safe_silent ?_ h₅ (fun _ _ _ => trivial)
  split
  · exact Prog.AllOps.mono (ends_park rt e token) (fun _ => ends_aside)
  · exact Prog.AllOps.mono (ends_close rt e) (fun _ => ends_aside)

end

end

/-! Successions of attempts. -/

/-- What others do meanwhile: anything but write to the conversation. -/
def Elsewhere (out : Outside) (c : String) (s s' : Scene) : Prop :=
  ∃ o a, (∀ entry, o = .append entry → entry.conversationId ≠ c) ∧
    s' = { s with world := (step out o s.world a).2.1 }

theorem elsewhere_apart {out : Outside} {c : String} {s s' : Scene} (h : Elsewhere out c s s')
    (i : Nat) : Apart c i s s' := by
  obtain ⟨o, a, ho, rfl⟩ := h
  refine ⟨rfl, ?_, by simp only [step_instant]; exact Nat.le_succ _⟩
  cases o with
  | append entry => exact MemoryTranscript.read_append_other _ (Ne.symm (ho entry rfl))
  | _ => rfl

/-- An attempt at a run of the conversation: fresh, without a prompt, over a history or with the
answers of a park. A history it is given repeats no message in a row. -/
def Begins (c : String) (p : Program Outcome) : Prop :=
  ∃ (rt : AgentRuntime) (e : Execution) (token : Nat) (agent : Agent) (prompt : Option String)
    (options : Options), rt.transcript = true ∧ e.conversation = c ∧
      Enters agent.toPydanticAI ∧ Gathers agent.toPydanticAI ∧ Closes agent.toPydanticAI ∧
      (∀ history, options.messageHistory = some history → Unrepeated history) ∧
      p = rt.attemptRun e token agent prompt options

/-- Attempts on a conversation that was empty, one after the other, each crashing anywhere: the
number of the one in hand, what is left of it, and the scene. -/
def Attempts (out : Outside) (c : String) (ex : Nat → Prog.Exec Op Op.Res Exn Scene) (i : Nat)
    (p : Program Outcome) (s : Scene) : Prop :=
  ∃ w : World, w.transcript.read c = [] ∧
    Successive ex (Elsewhere out c) (fun _ p => Begins c p) (fun _ _ _ => True)
      ⟨w, fun _ => {}, []⟩ i p s

/-- `messages` is a prefix of what was seen, up to what replays vary. -/
def SaysNoMore (messages visible : List ModelMessage) : Prop :=
  ∃ front, front <+: visible ∧ List.Forall₂ same messages front

theorem saysNoMore_iff {messages visible : List ModelMessage} :
    SaysNoMore messages visible ↔ gists messages <+: gists visible := by
  constructor
  · rintro ⟨front, ⟨rest, rfl⟩, h⟩
    rw [(forall₂_same _ _).mp h]
    simp [gists]
  · rintro ⟨rest, h⟩
    refine ⟨visible.take messages.length, List.take_prefix _ _, (forall₂_same _ _).mpr ?_⟩
    have := congrArg (List.take messages.length) h
    simpa [gists] using this

/-- However often attempts crash, the committed conversation is a prefix of what the model of the
attempt in hand has seen, and holds no message twice in a row: as long as nothing is recorded or
given up while the node in hand is one taken out of the history, no request is recorded behind a
round that closed the history, and nothing is recorded while the request in hand, or what closed the
history, is the message before it over again. -/
theorem committed_prefix {out : Outside} {c : String} {i : Nat} {p : Program Outcome} {s : Scene}
    (run : Attempts out c (kept out) i p s) :
    ((s.attempts i).running = true → SaysNoMore (committed c s) (s.attempts i).visible) ∧
      Unrepeated (committed c s) := by
  obtain ⟨w, hempty, run⟩ := run
  have hgood : Good c i s := by
    refine (successive_safe (J := fun i s => Good c i s ∧ ∀ j, i < j → s.attempts j = {})
      (I := fun i s => Good c i s ∧ ∀ j, i < j → s.attempts j = {})
      (R := fun i => Apart c i) (G := fun i => Leaves c i) (Q := fun _ _ _ => True)
      ?start ?next (fun _ _ h => h) ?safe ?refl ?trans ?stable ?keeps ?env run).1.1
    case start =>
      refine ⟨⟨⟨by simp only [hempty]; exact .nil, by simp [hempty]⟩, ?_, fun hrunning => ?_⟩,
        fun _ _ => rfl⟩
      · simp only [spelled, hempty]
        exact List.isChain_nil
      · cases hrunning
    case next =>
      intro i q s hI _
      refine ⟨⟨hI.1.orderly, hI.1.heard.fresh, fun hrunning => ?_⟩, fun j hj => hI.2 j (by omega)⟩
      rw [hI.2 (i + 1) (by omega)] at hrunning
      cases hrunning
    case safe =>
      intro i p s hbegins hI
      obtain ⟨rt, e, token, agent, prompt, options, ht, hc, enters, gathers, closes, hgiven, rfl⟩ :=
        hbegins
      exact Prog.safe_post (safe_attemptRun ht hc enters gathers closes hgiven hI.1)
        (fun _ _ _ => trivial)
    case refl => exact fun i s _ => Apart.refl c i s
    case trans => exact fun i a b d => Apart.trans
    case stable => exact fun _ _ _ _ _ _ => trivial
    case keeps =>
      intro i a b hI hG
      exact ⟨hG.1, fun j hj => (hG.2 j (by omega)).trans (hI.2 j hj)⟩
    case env =>
      intro i a b hI hmove
      have hapart := elsewhere_apart hmove i
      obtain ⟨o, x, -, rfl⟩ := hmove
      exact ⟨⟨(hI.1.stands.apart hapart).good, hI.2⟩, hapart⟩
  have hsaid : gists (committed c s) = (spelled c s).map Json.numeral := by
    rw [← hgood.orderly.committed, numeral_bodies]
  refine ⟨fun running => ?_, ?_⟩
  · rw [saysNoMore_iff, hsaid]
    exact hgood.heard.seen running
  · rw [unrepeated_iff, hsaid]
    exact hgood.heard.fresh

/-- The claim that the committed conversation never says more and never repeats a message in a row,
whatever the attempts record. -/
def NeverSaysMore : Prop :=
  ∀ (out : Outside) (c : String) (i : Nat) (p : Program Outcome) (s : Scene),
    Attempts out c (fun i => exec out id i) i p s →
    ((s.attempts i).running = true → SaysNoMore (committed c s) (s.attempts i).visible) ∧
      Unrepeated (committed c s)

theorem enters_standard (digest : Json → String) (unapproved : List String) (nodeLimit : Nat) :
    Enters (.standard digest unapproved nodeLimit) := by
  intro history prompt results messages node h
  simp only [PydanticAI.standard, PydanticAI.Standard.enter] at h
  have hlast : ∀ r, history.getLast? = some (.request r) →
      history = history.dropLast ++ [.request r] := by
    intro r hr
    rw [List.getLast?_eq_some_iff] at hr
    obtain ⟨front, rfl⟩ := hr
    simp
  split at h
  · split at h
    · cases h
    · cases h
      exact .inl ⟨rfl, by simp⟩
  · cases h
    exact .inl ⟨rfl, by simp⟩
  · split at h
    · cases h
      exact .inr ⟨_, hlast _ ‹_›, rfl⟩
    · cases h
      exact .inl ⟨rfl, by simp⟩
  · cases h
    exact .inr ⟨_, hlast _ ‹_›, rfl⟩
  · cases h

/-- A provider that answers at once. -/
def answering : Outside :=
  .answering (fun _ _ _ => .ok .null) (fun _ _ => .ok { parts := [.text "done"] })
    (fun _ _ _ => .error (.other "not asked"))

def plain : Agent := { PydanticAI.standard (fun _ => "") [] 8 with }

def attempted (prompt : Option String) : Program Outcome :=
  AgentRuntime.attemptRun {} { branchId := "run" } 1 plain prompt {}

theorem closes_standard (digest : Json → String) (unapproved : List String) (nodeLimit : Nat) :
    Closes (.standard digest unapproved nodeLimit) := by
  intro response outcomes messages output appended h
  simp only [PydanticAI.standard, PydanticAI.Standard.settle] at h
  split at h
  · cases h
    split
    · exact .inl rfl
    · exact .inr ⟨_, rfl⟩
  · split at h
    · cases h
      exact .inl rfl
    · cases h

theorem attempted_begins (prompt : Option String) : Begins "run" (attempted prompt) := by
  refine ⟨{}, { branchId := "run" }, 1, plain, prompt, {}, rfl, rfl, enters_standard _ _ _,
    gathers_standard _ _ _, closes_standard _ _ _, fun history hgiven => ?_, rfl⟩
  cases hgiven

/-- The first attempt dies once its request is recorded. -/
def died : Program Outcome × Scene :=
  Prog.crash (Scene.perform answering id 0) 24 (attempted (some "hi")) ⟨{}, fun _ => {}, []⟩

/-- The second takes the request out of the history, and has recorded it again. -/
def recordedAgain : Program Outcome × Scene :=
  Prog.crash (Scene.perform answering id 1) 20 (attempted none) died.2

theorem recordedAgain_run :
    Attempts answering "run" (fun i => exec answering id i) 1 recordedAgain.1 recordedAgain.2 :=
  ⟨{}, rfl, successive_crash (fun _ _ => true) (fun _ _ _ => rfl) (.next
    (successive_crash (fun _ _ => true) (fun _ _ _ => rfl) (.first (attempted_begins _)) 24 (passes_any _ _ _ _))
    trivial (attempted_begins _)) 20 (passes_any _ _ _ _)⟩

/-- The conversation holds the request twice, which the model saw once. -/
theorem not_never_says_more : ¬ NeverSaysMore := by
  intro h
  have hmore := (h _ _ _ _ _ recordedAgain_run).1 (by decide +kernel)
  rw [saysNoMore_iff] at hmore
  have hlength := hmore.length_le
  revert hlength
  decide +kernel

/-- Behind the request it finds, the second attempt sends another one. -/
def askedMore : Program Outcome × Scene :=
  Prog.crash (Scene.perform answering id 1) 60 (attempted (some "ho")) died.2

theorem askedMore_run : Attempts answering "run" (kept answering) 1 askedMore.1 askedMore.2 :=
  ⟨{}, rfl, successive_crash (fun o s => decide (Kept (s.attempts 1) o))
    (fun _ _ h => ⟨of_decide_eq_true h, rfl⟩) (.next
      (successive_crash (fun o s => decide (Kept (s.attempts 0) o))
        (fun _ _ h => ⟨of_decide_eq_true h, rfl⟩) (.first (attempted_begins _)) 24
        (by decide +kernel))
      trivial (attempted_begins _)) 60 (by decide +kernel)⟩

/-- Both requests are committed, and the answer to them. -/
theorem committed_prefix_asked_more : (committed "run" askedMore.2).length = 3 ∧
    SaysNoMore (committed "run" askedMore.2) (askedMore.2.attempts 1).visible ∧
      Unrepeated (committed "run" askedMore.2) := by
  obtain ⟨hmore, hrepeats⟩ := committed_prefix askedMore_run
  exact ⟨by decide +kernel, hmore (by decide +kernel), hrepeats⟩

end Semora.Proofs.Prefix
