import Semora.Messages

/-! Transcript entries. They chain through `parentUuid`; `leaf` markers move the active tip
without deleting anything, `tombstone` markers hide one entry. -/

namespace Semora.Transcript
open Semora.Lib

/-- Entry identifiers, by what is hashed into them: distinct inputs have distinct digests. -/
inductive Uuid
  | first (body : Json)
  | after (parent : Uuid) (body : Json)
  /-- A `leaf` marker made at one instant, and the entry it moves the tip to. -/
  | rewound (instant : Nat) (leaf : Uuid)
  | reset (instant : Nat)
  | tombstone (deleted : Uuid)
deriving DecidableEq

/-- The stable part of a message, as it is hashed. -/
def body (message : ModelMessage) : Json := (stripped (encodeMessage message)).canonical

/-- Derive an idempotent entry identifier from its parent and stable body. -/
def entryId : Option Uuid → Json → Uuid
  | none, body => .first body
  | some parent, body => .after parent body

inductive EntryType
  | message
  | leaf
  | tombstone
deriving DecidableEq

/-- One transcript entry. Only a chained entry has a parent field; it may name no parent. -/
structure Entry where
  uuid : Uuid
  conversationId : String
  type : EntryType
  timestamp : Nat
  parentUuid : Option (Option Uuid) := none
  message : Option ModelMessage := none
  leafUuid : Option Uuid := none
  deletedUuid : Option Uuid := none
deriving DecidableEq

def messageEntry (message : ModelMessage) (conversationId : String) (parentUuid : Option Uuid)
    (timestamp : Nat) : Entry :=
  { uuid := entryId parentUuid (body message), conversationId, type := .message, timestamp
    parentUuid := some parentUuid, message := some message }

/-- A `leaf` marker. Its identity is positional, so repeated rewinds remain observable. -/
def leafEntry (conversationId : String) (leafUuid : Option Uuid) (timestamp : Nat) : Entry :=
  { uuid := match leafUuid with
      | none => .reset timestamp
      | some uuid => .rewound timestamp uuid
    conversationId, type := .leaf, timestamp, leafUuid }

/-- A `tombstone` marker, content-addressed and therefore idempotent. -/
def tombstoneEntry (conversationId : String) (deletedUuid : Uuid) (timestamp : Nat) : Entry :=
  { uuid := .tombstone deletedUuid, conversationId, type := .tombstone, timestamp
    deletedUuid := some deletedUuid }

/-- The chained entry with this uuid; of several, the last. -/
def chained (entries : List Entry) (uuid : Uuid) : Option Entry :=
  (entries.filter (fun e => e.parentUuid.isSome)).reverse.find? (fun e => e.uuid = uuid)

def buried (entries : List Entry) (uuid : Uuid) : Bool :=
  entries.any (fun e => e.type = .tombstone ∧ e.deletedUuid = some uuid)

/-- The tip of the active branch: the last chained entry after the latest `leaf` marker, or else
what that marker names. Read from the newest entry backwards. -/
def tipBack : List Entry → Option Uuid
  | [] => none
  | e :: older =>
    if e.type = .leaf then e.leafUuid
    else if e.parentUuid.isSome then some e.uuid
    else tipBack older

def tip (entries : List Entry) : Option Uuid := tipBack entries.reverse

/-- Follow parent links from `uuid`, newest first, never through one entry twice. -/
def walk (entries : List Entry) : Nat → Option Uuid → List Uuid → List Entry
  | 0, _, _ => []
  | _, none, _ => []
  | fuel + 1, some uuid, seen =>
    if uuid ∈ seen then []
    else match chained entries uuid with
      | none => []
      | some entry =>
        let older := walk entries fuel (entry.parentUuid.getD none) (uuid :: seen)
        if buried entries uuid then older else entry :: older

/-- Resolve the active transcript branch in chronological order. -/
def activeBranch (entries : List Entry) : List Entry :=
  (walk entries entries.length (tip entries) []).reverse

/-- The model messages of the active transcript branch. -/
def messagesOf (entries : List Entry) : List ModelMessage :=
  (activeBranch entries).filterMap Entry.message

/-- The branch ending at an explicit cursor; `none` when the cursor does not exist. -/
def messagesAt (entries : List Entry) (leafUuid : Option Uuid) : Option (List ModelMessage) :=
  match leafUuid with
  | none => some []
  | some uuid =>
    if (chained entries uuid).isNone then none
    else some ((walk entries entries.length leafUuid []).reverse.filterMap Entry.message)

/-- What a chain of parents spells: the bodies from the first entry to this one. -/
def Uuid.path : Uuid → List Json
  | first body => [body]
  | after parent body => parent.path ++ [body]
  | _ => []

/-- The bodies up to a tip. -/
def path : Option Uuid → List Json
  | none => []
  | some uuid => uuid.path

@[simp] theorem path_none : path none = [] := rfl

@[simp] theorem path_entryId (parent : Option Uuid) (b : Json) :
    path (some (entryId parent b)) = path parent ++ [b] := by
  cases parent <;> rfl

/-- A conversation as its writers leave it: every chained entry hangs under an earlier one and is
named after its message, every `leaf` marker points at an entry, and nothing is buried. -/
inductive Wellformed : List Entry → Prop
  | nil : Wellformed []
  | message {entries : List Entry} {e : Entry} {parent : Option Uuid} {m : ModelMessage}
      (rest : Wellformed entries) (hparent : e.parentUuid = some parent)
      (hmessage : e.message = some m) (htype : e.type = .message)
      (hid : e.uuid = entryId parent (body m))
      (hold : ∀ uuid, parent = some uuid → ∃ old, chained entries uuid = some old)
      (hnew : ∀ old ∈ entries, old.uuid ≠ e.uuid) : Wellformed (entries ++ [e])
  | leaf {entries : List Entry} {e : Entry} (rest : Wellformed entries)
      (hparent : e.parentUuid = none) (htype : e.type = .leaf)
      (hold : ∀ uuid, e.leafUuid = some uuid → ∃ old, chained entries uuid = some old) :
      Wellformed (entries ++ [e])

/-- Whether an entry may follow these: it hangs under one of them and is named after its message, or
is a marker that points at one of them. -/
def Entry.hangs (older : List Entry) (e : Entry) : Bool :=
  match e.parentUuid, e.message with
  | some parent, some m =>
    e.type = .message ∧ e.uuid = entryId parent (body m) ∧
      parent.all (fun uuid => (chained older uuid).isSome) ∧
      older.all (fun old => old.uuid ≠ e.uuid)
  | none, _ => e.type = .leaf ∧ e.leafUuid.all (fun uuid => (chained older uuid).isSome)
  | _, _ => false

/-- Whether these entries may follow, one after the other. -/
def hang (older : List Entry) : List Entry → Bool
  | [] => true
  | e :: newer => e.hangs older && hang (older ++ [e]) newer

theorem Wellformed.hangs {older : List Entry} {e : Entry} (h : Wellformed older)
    (he : e.hangs older = true) : Wellformed (older ++ [e]) := by
  have hpoints : ∀ leaf : Option Uuid, leaf.all (fun uuid => (chained older uuid).isSome) = true →
      ∀ uuid, leaf = some uuid → ∃ old, chained older uuid = some old := by
    rintro leaf hall uuid rfl
    exact Option.isSome_iff_exists.mp hall
  unfold Entry.hangs at he
  split at he
  · rename_i parent m hparent hmessage
    obtain ⟨htype, hid, hall, hnew⟩ := of_decide_eq_true he
    refine .message h hparent hmessage htype hid (hpoints parent hall) (fun old hold => ?_)
    exact of_decide_eq_true (List.all_eq_true.mp hnew old hold)
  · rename_i hparent
    obtain ⟨htype, hall⟩ := of_decide_eq_true he
    exact .leaf h hparent htype (hpoints e.leafUuid hall)
  · cases he

theorem wellformed_of_hang {older newer : List Entry} (h : Wellformed older)
    (hnewer : hang older newer = true) : Wellformed (older ++ newer) := by
  induction newer generalizing older with
  | nil => rwa [List.append_nil]
  | cons e newer ih =>
    obtain ⟨he, hrest⟩ := Bool.and_eq_true_iff.mp hnewer
    rw [List.append_cons]
    exact ih (h.hangs he) hrest

section
variable {entries : List Entry} {e : Entry} {uuid : Uuid}

theorem chained_append_marker (h : e.parentUuid = none) :
    chained (entries ++ [e]) uuid = chained entries uuid := by
  simp [chained, h]

theorem chained_append_new (h : e.parentUuid.isSome) :
    chained (entries ++ [e]) uuid = if e.uuid = uuid then some e else chained entries uuid := by
  simp only [chained, List.filter_append, List.filter_cons, h, ↓reduceIte, List.filter_nil,
    List.reverse_append, List.reverse_cons, List.reverse_nil, List.nil_append, List.cons_append,
    List.find?_cons]
  split
  · rename_i he
    simp [of_decide_eq_true he]
  · rename_i he
    simp [of_decide_eq_false he]

theorem tip_append_leaf (h : e.type = .leaf) : tip (entries ++ [e]) = e.leafUuid := by
  simp [tip, tipBack, h]

theorem tip_append_message (ht : e.type = .message) (hp : e.parentUuid.isSome) :
    tip (entries ++ [e]) = some e.uuid := by
  simp [tip, tipBack, ht, hp]

theorem Wellformed.type (h : Wellformed entries) : ∀ e ∈ entries, e.type ≠ .tombstone := by
  induction h with
  | nil => simp
  | message rest hparent hmessage htype hid hold hnew ih =>
    intro e he
    rcases List.mem_append.mp he with he | he
    · exact ih e he
    · rw [List.mem_singleton.mp he, htype]
      simp
  | leaf rest hparent htype hold ih =>
    intro e he
    rcases List.mem_append.mp he with he | he
    · exact ih e he
    · rw [List.mem_singleton.mp he, htype]
      simp

theorem Wellformed.buried (h : Wellformed entries) : Transcript.buried entries uuid = false := by
  have htype := h.type
  simp only [Transcript.buried, List.any_eq_false, decide_eq_true_eq, not_and]
  intro e he ht
  exact absurd ht (htype e he)

/-- A chained entry carries the message its uuid names, and its parent is chained too. -/
theorem Wellformed.entry (h : Wellformed entries) (hc : chained entries uuid = some e) :
    e.uuid = uuid ∧ ∃ parent m, e.parentUuid = some parent ∧ e.message = some m ∧
      uuid = entryId parent (body m) ∧
      ∀ p, parent = some p → ∃ old, chained entries p = some old := by
  induction h with
  | nil => cases hc
  | @message entries new parent m rest hparent hmessage htype hid hold hnew ih =>
    have hsome : new.parentUuid.isSome := by simp [hparent]
    have keep : ∀ p, (∃ old, chained entries p = some old) →
        ∃ old, chained (entries ++ [new]) p = some old := by
      rintro p ⟨old, hp⟩
      rw [chained_append_new hsome]
      split
      · exact ⟨new, rfl⟩
      · exact ⟨old, hp⟩
    rw [chained_append_new hsome] at hc
    split at hc
    · rename_i hu
      cases hc
      exact ⟨hu, parent, m, hparent, hmessage, hu ▸ hid, fun p hp => keep p (hold p hp)⟩
    · obtain ⟨hu, parent', m', hp', hm', hid', hold'⟩ := ih hc
      exact ⟨hu, parent', m', hp', hm', hid', fun p hp => keep p (hold' p hp)⟩
  | @leaf entries new rest hparent htype hold ih =>
    rw [chained_append_marker hparent] at hc
    obtain ⟨hu, parent', m', hp', hm', hid', hold'⟩ := ih hc
    refine ⟨hu, parent', m', hp', hm', hid', ?_⟩
    intro p hp
    obtain ⟨old, ho⟩ := hold' p hp
    exact ⟨old, by rw [chained_append_marker hparent]; exact ho⟩

theorem Wellformed.tip (h : Wellformed entries) (ht : Transcript.tip entries = some uuid) :
    ∃ e, chained entries uuid = some e := by
  cases h with
  | nil => cases ht
  | @message entries new parent m rest hparent hmessage htype hid hold hnew =>
    have hsome : new.parentUuid.isSome := by simp [hparent]
    rw [tip_append_message htype hsome] at ht
    exact ⟨new, by rw [chained_append_new hsome, if_pos (Option.some.inj ht)]⟩
  | leaf rest hparent htype hold =>
    rw [tip_append_leaf htype] at ht
    obtain ⟨old, ho⟩ := hold uuid ht
    exact ⟨old, by rw [chained_append_marker hparent]; exact ho⟩

/-- A chain is no longer than the conversation. -/
theorem Wellformed.length (h : Wellformed entries) (hc : chained entries uuid = some e) :
    uuid.path.length ≤ entries.length := by
  induction h generalizing uuid e with
  | nil => cases hc
  | @message entries new parent m rest hparent hmessage htype hid hold hnew ih =>
    rw [chained_append_new (by simp [hparent])] at hc
    simp only [List.length_append, List.length_singleton]
    split at hc
    · rename_i hu
      rw [← hu, hid]
      cases parent with
      | none => simp [entryId, Uuid.path]
      | some p =>
        obtain ⟨old, ho⟩ := hold p rfl
        have := ih ho
        simp only [entryId, Uuid.path, List.length_append, List.length_singleton]
        omega
    · have := ih hc
      omega
  | leaf rest hparent htype hold ih =>
    rw [chained_append_marker hparent] at hc
    have := ih hc
    simp only [List.length_append, List.length_singleton]
    omega

/-- Walking back from an entry spells its path. -/
theorem walk_path (h : Wellformed entries) (fuel : Nat) (seen : List Uuid)
    (hc : ∃ e, chained entries uuid = some e) (hf : uuid.path.length ≤ fuel)
    (hs : ∀ s ∈ seen, uuid.path.length < s.path.length) :
    (((walk entries fuel (some uuid) seen).filterMap Entry.message).map body).reverse =
      uuid.path := by
  induction fuel generalizing uuid seen with
  | zero =>
    obtain ⟨e, hc⟩ := hc
    obtain ⟨-, parent, m, -, -, hid, -⟩ := h.entry hc
    have hlen := congrArg List.length (path_entryId parent (body m))
    rw [← hid] at hlen
    simp only [path, List.length_append, List.length_singleton] at hlen
    omega
  | succ fuel ih =>
    obtain ⟨e, hc⟩ := hc
    obtain ⟨-, parent, m, hp, hm, hid, hold⟩ := h.entry hc
    have hnot : uuid ∉ seen := fun hmem => Nat.lt_irrefl _ (hs uuid hmem)
    have hpath : uuid.path = path parent ++ [body m] := by
      have := path_entryId parent (body m)
      rw [← hid] at this
      exact this
    have holder : (((walk entries fuel parent (uuid :: seen)).filterMap Entry.message).map
        body).reverse = path parent := by
      cases parent with
      | none => cases fuel <;> rfl
      | some p =>
        have hlen : uuid.path.length = p.path.length + 1 := by simp [hpath, path]
        refine ih (uuid :: seen) (hold p rfl) (by omega) ?_
        intro s hmem
        rcases List.mem_cons.mp hmem with rfl | hmem
        · omega
        · have := hs s hmem
          omega
    simp only [walk, hnot, ↓reduceIte, hc, hp, Option.getD_some, h.buried, Bool.false_eq_true,
      List.filterMap_cons, hm, List.map_cons, List.reverse_cons, holder, hpath]

/-- The messages of a conversation spell the path to its tip. -/
theorem Wellformed.messages (h : Wellformed entries) :
    (messagesOf entries).map body = path (Transcript.tip entries) := by
  unfold messagesOf activeBranch
  rw [List.filterMap_reverse, List.map_reverse]
  cases ht : Transcript.tip entries with
  | none => cases entries <;> rfl
  | some uuid =>
    obtain ⟨e, he⟩ := h.tip ht
    exact walk_path h _ [] ⟨e, he⟩ (h.length he) (by simp)

/-- Bodies decide whether messages are the same. -/
theorem same_of_body {m m' : ModelMessage} (h : body m = body m') : same m m' :=
  Json.eqv_of_canonical h

end

end Semora.Transcript
