import Semora.Effects.Boundary

/-! What the durable identities of messages tell apart: the key of a model step and the identifier
of a transcript entry. -/

namespace Semora.Proofs.Identity
open Semora.Lib Semora.Transcript

/-- The items that are no volatile fields themselves, whatever they hold. -/
def own (items : List (String × Json)) : List (String × Json) :=
  items.filter (fun item => item.1 ∉ volatile)

/-- A part without its own volatile fields. -/
def barePart : Json → Json
  | .dict items => .dict (own items)
  | value => value

/-- One item of a message, the parts without their own volatile fields. -/
def bareItem (item : String × Json) : String × Json :=
  match item with
  | (k, .list parts) => if k = "parts" then (k, .list (parts.map barePart)) else item
  | _ => item

/-- A message without its own volatile fields and those of its parts: all there is for the model to
tell it from others. Inside a field nothing is left out. -/
def told (message : ModelMessage) : Json :=
  (match encodeMessage message with
    | .dict items => Json.dict ((own items).map bareItem)
    | value => value).canonical

/-- The histories differ in what is told, but only by items somewhere inside the fields whose names
are those of volatile fields. -/
def Masked (history history' : List ModelMessage) : Prop :=
  history.map told ≠ history'.map told ∧
    List.Forall₂ (fun m m' => (told m).Alike volatile (told m')) history history'

/-! A message's identity is what is told of it, without the items inside that have such names. -/

theorem without_own (items : List (String × Json)) :
    Json.withoutItems volatile (own items) = Json.withoutItems volatile items := by
  induction items with
  | nil => rfl
  | cons item items ih =>
    obtain ⟨k, v⟩ := item
    by_cases hk : k ∈ volatile
    · simpa [own, Json.withoutItems, hk] using ih
    · simpa [own, Json.withoutItems, hk] using ih

theorem without_barePart (part : Json) :
    (barePart part).without volatile = part.without volatile := by
  cases part with
  | dict items => exact congrArg Json.dict (without_own items)
  | null | bool | int | float | str | list => rfl

theorem without_bareItems (items : List (String × Json)) :
    Json.withoutItems volatile (items.map bareItem) = Json.withoutItems volatile items := by
  have hparts : ∀ parts : List Json,
      Json.withoutList volatile (parts.map barePart) = Json.withoutList volatile parts := by
    intro parts
    induction parts with
    | nil => rfl
    | cons part parts ih => simp only [List.map_cons, Json.withoutList, without_barePart, ih]
  have hitem : ∀ item, (bareItem item).1 = item.1 ∧
      (bareItem item).2.without volatile = item.2.without volatile := by
    intro item
    unfold bareItem
    split
    · split
      · exact ⟨rfl, congrArg Json.list (hparts _)⟩
      · exact ⟨rfl, rfl⟩
    · exact ⟨rfl, rfl⟩
  induction items with
  | nil => rfl
  | cons item items ih =>
    obtain ⟨hk, hv⟩ := hitem item
    rw [List.map_cons, ← Prod.mk.eta (p := bareItem item), ← Prod.mk.eta (p := item)]
    simp only [Json.withoutItems, hk, hv, ih]

theorem body_told (message : ModelMessage) : body message = (told message).without volatile := by
  obtain ⟨items, he⟩ : ∃ items, encodeMessage message = .dict items := by
    cases message <;> exact ⟨_, rfl⟩
  unfold body told stripped
  rw [he, ← Json.canonical_without]
  simp only [Json.without, without_bareItems, without_own]

/-- Identities agree on messages that are told alike, and on those that are alike but for such
items. -/
theorem body_iff {m m' : ModelMessage} :
    body m = body m' ↔ (told m).Alike volatile (told m') := by
  rw [body_told, body_told, Json.alike_iff]

theorem bodies_iff {history history' : List ModelMessage} :
    history.map body = history'.map body ↔
      List.Forall₂ (fun m m' => (told m).Alike volatile (told m')) history history' := by
  rw [← List.forall₂_eq_eq_eq, List.forall₂_map_left_iff, List.forall₂_map_right_iff]
  simp only [body_iff]

/-- What is told alike has one identity, so an identity separates two histories that are not masked
and no others. -/
theorem separates_iff (history history' : List ModelMessage) :
    (history.map body = history'.map body ↔ history.map told = history'.map told) ↔
      ¬ Masked history history' := by
  have hkept : history.map told = history'.map told → history.map body = history'.map body := by
    intro h
    have hbody : body = Json.without volatile ∘ told := funext body_told
    rw [hbody, ← List.map_map, ← List.map_map, h]
  unfold Masked
  rw [← bodies_iff]
  constructor
  · intro h masked
    exact masked.1 (h.mp masked.2)
  · intro h
    refine ⟨fun hsame => ?_, hkept⟩
    by_contra hne
    exact h ⟨hne, hsame⟩

theorem entryId_iff {parent : Option Uuid} {b b' : Json} :
    entryId parent b = entryId parent b' ↔ b = b' := by
  cases parent <;> simp [entryId]

/-- Two histories put to one model with the same tools. -/
def keyed (digest : Json → String) (modelId : String) (tools : List Json)
    (history : List ModelMessage) : String :=
  Effects.modelStepKey digest ⟨modelId, tools, history⟩

/-- The second entry is dropped behind the first one's parent, as if it were the first again. -/
def Dropped (t : MemoryTranscript) (c : String) (parent : Option Uuid) (instant instant' : Nat)
    (m m' : ModelMessage) : Prop :=
  ((t.append (messageEntry m c parent instant)).2.append (messageEntry m' c parent instant')).1 =
    false

theorem dropped_iff {t : MemoryTranscript} {c : String} {parent : Option Uuid} {m m' : ModelMessage}
    (fresh : ∀ e ∈ t.read c, e.uuid ≠ entryId parent (body m')) (instant instant' : Nat) :
    Dropped t c parent instant instant' m m' ↔ body m = body m' := by
  unfold Dropped
  constructor
  · intro hdropped
    by_contra hne
    have hfresh : ∀ e ∈ (t.append (messageEntry m c parent instant)).2.read c,
        e.uuid ≠ (messageEntry m' c parent instant').uuid := by
      intro e he hid
      rcases t.mem_append he with he | rfl
      · exact fresh e he hid
      · exact hne (entryId_iff.mp hid)
    rw [(MemoryTranscript.append_new _ hfresh).1] at hdropped
    cases hdropped
  · intro hsame
    obtain ⟨e, he, hid⟩ := t.append_holds (messageEntry m c parent instant)
    have hold : ∃ e ∈ (t.append (messageEntry m c parent instant)).2.read c,
        e.uuid = (messageEntry m' c parent instant').uuid := by
      refine ⟨e, he, ?_⟩
      rw [hid, messageEntry, messageEntry, hsame]
    exact congrArg Prod.fst (MemoryTranscript.append_old _ hold)

/-- A model step's key and an entry's identifier separate exactly what the model can tell apart,
and no entry is dropped for another, if and only if what differs is not masked. -/
theorem identified_iff (digest : Json → String) {modelId : String} {tools : List Json}
    {history history' : List ModelMessage}
    (injective : digest (Effects.modelStepBody ⟨modelId, tools, history⟩) =
      digest (Effects.modelStepBody ⟨modelId, tools, history'⟩) →
        Effects.modelStepBody ⟨modelId, tools, history⟩ =
          Effects.modelStepBody ⟨modelId, tools, history'⟩) :
    ((keyed digest modelId tools history = keyed digest modelId tools history' ↔
      history.map told = history'.map told) ↔ ¬ Masked history history') ∧
    ∀ (parent : Option Uuid) (m m' : ModelMessage),
      ((entryId parent (body m) = entryId parent (body m') ↔ told m = told m') ↔
        ¬ Masked [m] [m']) ∧
      ∀ (t : MemoryTranscript) (c : String) (instant instant' : Nat),
        (∀ e ∈ t.read c, e.uuid ≠ entryId parent (body m')) →
        ((Dropped t c parent instant instant' m m' ↔ told m = told m') ↔ ¬ Masked [m] [m']) := by
  have hone : ∀ m m', ((body m = body m' ↔ told m = told m') ↔ ¬ Masked [m] [m']) := by
    intro m m'
    simpa using separates_iff [m] [m']
  refine ⟨?_, fun parent m m' => ⟨?_, ?_⟩⟩
  · have hkey : keyed digest modelId tools history = keyed digest modelId tools history' ↔
        Effects.modelStepBody ⟨modelId, tools, history⟩ =
          Effects.modelStepBody ⟨modelId, tools, history'⟩ :=
      ⟨fun h => injective (Effects.modelKey_injective h), fun h => by
        unfold keyed Effects.modelStepKey
        rw [h]⟩
    rw [hkey, Effects.modelStepBody_iff]
    exact separates_iff history history'
  · rw [entryId_iff]
    exact hone m m'
  · intro t c instant instant' fresh
    rw [dropped_iff fresh]
    exact hone m m'

/-- One call whose argument is named like the time a message is stamped with. -/
def callAt (time : Int) : ModelMessage :=
  .response { parts := [.toolCall ⟨"remind", .dict [("timestamp", .int time)], "c1"⟩] }

/-- One call with an argument of any other name. -/
def callFor (time : Int) : ModelMessage :=
  .response { parts := [.toolCall ⟨"remind", .dict [("at", .int time)], "c1"⟩] }

def printed (value : Json) : String :=
  if value = Effects.modelStepBody ⟨"m", [], [callFor 1]⟩ then "1" else "2"

theorem identified_iff_named :
    (keyed printed "m" [] [callFor 1] = keyed printed "m" [] [callFor 2] ↔
      [callFor 1].map told = [callFor 2].map told) ↔ ¬ Masked [callFor 1] [callFor 2] :=
  (identified_iff printed (fun h => absurd h (by decide +kernel))).1

/-- The claim that the identities separate whatever two histories and two messages. -/
def Identifies (digest : Json → String) : Prop :=
  (∀ modelId tools history history', keyed digest modelId tools history =
    keyed digest modelId tools history' ↔ history.map told = history'.map told) ∧
  ∀ parent m m', entryId parent (body m) = entryId parent (body m') ↔ told m = told m'

/-- Whatever the digest, two calls with different arguments have one key, and one entry. -/
theorem not_always_identified : ¬ ∃ digest : Json → String, Identifies digest := by
  rintro ⟨digest, hkeys, -⟩
  have hsame : Effects.modelStepBody ⟨"m", [], [callAt 1]⟩ =
      Effects.modelStepBody ⟨"m", [], [callAt 2]⟩ := by decide +kernel
  have htold := (hkeys "m" [] [callAt 1] [callAt 2]).mp (by
    unfold keyed Effects.modelStepKey
    rw [hsame])
  revert htold
  decide +kernel

end Semora.Proofs.Identity
