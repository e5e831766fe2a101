import Semora.Transcript.Entries

/-! The in-memory transcript. -/

namespace Semora.Transcript
open Semora.Lib

/-- The run record of one branch, or the fields of one write to it. A missing field is `none`. -/
structure BranchFields where
  conversationId : Option String := none
  stopReason : Option String := none
  toolCalls : Option Nat := none
  interruptedMidTurn : Option Bool := none
  startedAt : Option Nat := none
  endedAt : Option Nat := none
deriving DecidableEq

/-- `record.update(fields)`. -/
def BranchFields.update (record fields : BranchFields) : BranchFields where
  conversationId := fields.conversationId <|> record.conversationId
  stopReason := fields.stopReason <|> record.stopReason
  toolCalls := fields.toolCalls <|> record.toolCalls
  interruptedMidTurn := fields.interruptedMidTurn <|> record.interruptedMidTurn
  startedAt := fields.startedAt <|> record.startedAt
  endedAt := fields.endedAt <|> record.endedAt

/-- The fields of one write of per-model usage. -/
structure UsageFields where
  promptTokens : Nat
  completionTokens : Nat
  totalTokens : Nat
deriving DecidableEq

/-- `runs` are the run records and `rows` the entries of each conversation in arrival order. -/
structure MemoryTranscript where
  rows : Dict String (List Entry) := .empty
  runs : Dict String BranchFields := .empty
  modelUsage : Dict (String × String) UsageFields := .empty
deriving DecidableEq

namespace MemoryTranscript

def read (t : MemoryTranscript) (conversationId : String) : List Entry :=
  (t.rows.get? conversationId).getD []

/-- Append an entry unless its conversation already holds that uuid. -/
def append (t : MemoryTranscript) (entry : Entry) : Bool × MemoryTranscript :=
  let rows := t.read entry.conversationId
  if rows.any (fun e => e.uuid = entry.uuid) then (false, t)
  else (true, { t with rows := t.rows.insert entry.conversationId (rows ++ [entry]) })

/-- Merge fields into the run record. -/
def recordBranch (t : MemoryTranscript) (branchId : String) (fields : BranchFields) :
    MemoryTranscript :=
  { t with runs := t.runs.insert branchId (((t.runs.get? branchId).getD {}).update fields) }

/-- The run record, or `none` if this run was never opened. -/
def readBranch (t : MemoryTranscript) (branchId : String) : Option BranchFields :=
  t.runs.get? branchId

def recordModelUsage (t : MemoryTranscript) (branchId model : String) (counts : UsageFields) :
    MemoryTranscript :=
  { t with modelUsage := t.modelUsage.insert (branchId, model) counts }

/-- This run's token counts per model. -/
def readModelUsage (t : MemoryTranscript) (branchId : String) : List (String × UsageFields) :=
  (t.modelUsage.items.filter (fun item => item.1.1 = branchId)).map (fun item => (item.1.2, item.2))

variable (t : MemoryTranscript)

theorem fetch_readModelUsage (branchId model : String) :
    fetch model (t.readModelUsage branchId) = t.modelUsage.get? (branchId, model) := by
  unfold readModelUsage Dict.get?
  induction t.modelUsage.items with
  | nil => rfl
  | cons item items ih =>
    obtain ⟨⟨b, m⟩, counts⟩ := item
    by_cases hb : b = branchId
    · by_cases hm : model = m
      · simp [fetch, hb, hm]
      · simp [fetch, hb, hm, ih]
    · simp [fetch, hb, Ne.symm hb, ih]

@[simp] theorem read_recordBranch (b : String) (fields : BranchFields) (c : String) :
    (t.recordBranch b fields).read c = t.read c := rfl

@[simp] theorem read_recordModelUsage (b m : String) (counts : UsageFields) (c : String) :
    (t.recordModelUsage b m counts).read c = t.read c := rfl

theorem append_old {entry : Entry} (h : ∃ e ∈ t.read entry.conversationId, e.uuid = entry.uuid) :
    t.append entry = (false, t) := by
  unfold append
  rw [if_pos]
  simpa using h

theorem append_new {entry : Entry}
    (h : ∀ e ∈ t.read entry.conversationId, e.uuid ≠ entry.uuid) :
    (t.append entry).1 = true ∧ (t.append entry).2.runs = t.runs ∧ ∀ c, (t.append entry).2.read c =
      if c = entry.conversationId then t.read c ++ [entry] else t.read c := by
  unfold append
  rw [if_neg (by simpa using h)]
  refine ⟨rfl, rfl, ?_⟩
  intro c
  simp only [read, Dict.get?_insert]
  split
  · rename_i hc
    rw [hc]
    rfl
  · rfl

/-- Another conversation is not touched by an append. -/
theorem read_append_other {entry : Entry} {c : String} (h : c ≠ entry.conversationId) :
    (t.append entry).2.read c = t.read c := by
  by_cases hold : ∃ e ∈ t.read entry.conversationId, e.uuid = entry.uuid
  · rw [append_old t hold]
  · simp only [not_exists, not_and] at hold
    rw [(append_new t hold).2.2 c, if_neg h]

/-- What a conversation holds stays in front of what is appended. -/
theorem read_prefix (entry : Entry) (c : String) : t.read c <+: (t.append entry).2.read c := by
  by_cases hold : ∃ e ∈ t.read entry.conversationId, e.uuid = entry.uuid
  · exact (append_old t hold).symm ▸ List.prefix_refl _
  · simp only [not_exists, not_and] at hold
    rw [(append_new t hold).2.2 c]
    split
    · exact List.prefix_append _ _
    · exact List.prefix_refl _

/-- After an append its conversation holds the uuid, and nothing else that is new. -/
theorem append_holds (entry : Entry) :
    ∃ e ∈ (t.append entry).2.read entry.conversationId, e.uuid = entry.uuid := by
  by_cases hold : ∃ e ∈ t.read entry.conversationId, e.uuid = entry.uuid
  · rw [append_old t hold]
    exact hold
  · simp only [not_exists, not_and] at hold
    rw [(append_new t hold).2.2, if_pos rfl]
    exact ⟨entry, List.mem_append_right _ (List.mem_singleton_self _), rfl⟩

theorem mem_append {entry e : Entry} {c : String} (h : e ∈ (t.append entry).2.read c) :
    e ∈ t.read c ∨ e = entry := by
  by_cases hold : ∃ e ∈ t.read entry.conversationId, e.uuid = entry.uuid
  · rw [append_old t hold] at h
    exact .inl h
  · simp only [not_exists, not_and] at hold
    rw [(append_new t hold).2.2 c] at h
    split at h
    · exact (List.mem_append.mp h).imp_right List.mem_singleton.mp
    · exact .inl h

end MemoryTranscript

end Semora.Transcript
