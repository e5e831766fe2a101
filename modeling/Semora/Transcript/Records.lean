import Semora.Json

/-! The two transcript stores as any caller meets them: entries are JSON objects, records are maps
of named fields. The one keeps dictionaries, the other sends SQL. -/

namespace Semora.Transcript.Records
open Semora.Lib

/-- A value of a record's field. A timestamp is its instant. -/
inductive FieldValue
  | int (n : Int)
  | text (s : String)
  | bool (b : Bool)
  | timestamp (instant : Int)
  | null
deriving DecidableEq

/-- Fields by name. -/
abbrev Fields := Dict String FieldValue

/-- A transcript entry: a JSON object that names its conversation, itself and a timestamp. -/
structure Entry where
  items : Dict String Json
  conversationId : String
  uuid : String
  timestamp : String
  conversation_named : items.get? "conversation_id" = some (.str conversationId)
  uuid_named : items.get? "uuid" = some (.str uuid)
  timestamp_named : items.get? "timestamp" = some (.str timestamp)

/-- Fields accepted by run metadata records. -/
def branchFields : List String :=
  ["conversation_id", "stop_reason", "tool_calls", "interrupted_mid_turn", "started_at", "ended_at"]

/-- Fields accepted by per-model usage records. -/
def modelUsageFields : List String :=
  ["prompt_tokens", "completion_tokens", "total_tokens", "cached_tokens", "cache_write_tokens",
    "cost_usd"]

/-- What a method returns or raises. -/
inductive Reply
  | appended (fresh : Bool)
  | entries (entries : List (Dict String Json))
  | done
  | record (fields : Option Fields)
  | usage (rows : List (String × Fields))
  /-- `ValueError(f"{table} has no field {sorted(unknown)}")` -/
  | valueError (table : String) (unknown : List String)
  /-- An error of the database or its driver. -/
  | databaseError

/-- The names a record has and the table does not, sorted. -/
def unknown (fields : Fields) (allowed : List String) : List String :=
  ((fields.items.map Prod.fst).filter (fun name => name ∉ allowed)).insertionSort (· ≤ ·)

/-- One call of a method of either store. -/
inductive Call
  | append (entry : Entry)
  | read (conversationId : String) (limit : Option Int)
  | recordBranch (branchId : String) (fields : Fields)
  | readBranch (branchId : String)
  | recordModelUsage (branchId model : String) (counts : Fields)
  | readModelUsage (branchId : String)

/-- Where a Python slice `rows[start:]` begins. -/
def sliceStart (length : Nat) (start : Int) : Nat :=
  if start < 0 then (length + start).toNat else start.toNat

/-- Raise `ValueError` when a record contains unsupported fields. -/
def checkFields {σ : Type} (table : String) (fields : Fields) (allowed : List String) (s : σ)
    (next : Reply × σ) : Reply × σ :=
  if unknown fields allowed = [] then next else (.valueError table (unknown fields allowed), s)

structure MemoryTranscript where
  rows : Dict String (List Entry) := .empty
  seen : List (String × String) := []
  runs : Dict String Fields := .empty
  modelUsage : Dict (String × String) Fields := .empty

namespace MemoryTranscript

variable (t : MemoryTranscript)

def rowsOf (conversationId : String) : List Entry := (t.rows.get? conversationId).getD []

/-- Append an entry unless its conversation already holds that uuid. -/
def append (entry : Entry) : Reply × MemoryTranscript :=
  if (entry.conversationId, entry.uuid) ∈ t.seen then (.appended false, t)
  else (.appended true, { t with
    seen := t.seen ++ [(entry.conversationId, entry.uuid)]
    rows := t.rows.insert entry.conversationId (t.rowsOf entry.conversationId ++ [entry]) })

/-- The newest tail: `rows[len(rows) - limit:]`. -/
def window (rows : List Entry) : Option Int → List Entry
  | none => rows
  | some limit =>
    if 0 < limit then rows.drop (sliceStart rows.length (rows.length - limit)) else []

/-- Return entries in arrival order, optionally limited to the newest tail. -/
def read (conversationId : String) (limit : Option Int) : Reply :=
  .entries ((window (t.rowsOf conversationId) limit).map Entry.items)

/-- Merge validated fields into a process-local run record. -/
def recordBranch (branchId : String) (fields : Fields) : Reply × MemoryTranscript :=
  checkFields "run" fields branchFields t (.done, { t with
    runs := t.runs.insert branchId (((t.runs.get? branchId).getD .empty).update fields.items) })

def readBranch (branchId : String) : Reply := .record (t.runs.get? branchId)

/-- Merge validated token counts for one model of one run. -/
def recordModelUsage (branchId model : String) (counts : Fields) : Reply × MemoryTranscript :=
  checkFields "model usage" counts modelUsageFields t (.done, { t with
    modelUsage := t.modelUsage.insert (branchId, model)
      (((t.modelUsage.get? (branchId, model)).getD .empty).update counts.items) })

end MemoryTranscript

/-- The rows of one run among those of all. -/
def usageOf (rows : Dict (String × String) Fields) (branchId : String) : List (String × Fields) :=
  (rows.items.filter (fun item => item.1.1 = branchId)).map (fun item => (item.1.2, item.2))

def MemoryTranscript.readModelUsage (t : MemoryTranscript) (branchId : String) : Reply :=
  .usage (usageOf t.modelUsage branchId)

/-- One call on the process-local store. -/
def MemoryTranscript.run (t : MemoryTranscript) : Call → Reply × MemoryTranscript
  | .append entry => t.append entry
  | .read conversationId limit => (t.read conversationId limit, t)
  | .recordBranch branchId fields => t.recordBranch branchId fields
  | .readBranch branchId => (t.readBranch branchId, t)
  | .recordModelUsage branchId model counts => t.recordModelUsage branchId model counts
  | .readModelUsage branchId => (t.readModelUsage branchId, t)

/-! The SQL. -/

/-- The column types the schema declares. -/
inductive ColumnType
  | text
  | integer
  | boolean
  | timestamptz
  | bigint
  | numeric
deriving DecidableEq

/-- The columns of `ledger_branch` beside its key. -/
def branchColumns : List (String × ColumnType) :=
  [("conversation_id", .text), ("stop_reason", .text), ("tool_calls", .integer),
    ("interrupted_mid_turn", .boolean), ("started_at", .timestamptz), ("ended_at", .timestamptz)]

/-- The columns of `ledger_branch_model` beside its key. -/
def modelColumns : List (String × ColumnType) :=
  [("prompt_tokens", .bigint), ("completion_tokens", .bigint), ("total_tokens", .bigint),
    ("cached_tokens", .bigint), ("cache_write_tokens", .bigint), ("cost_usd", .numeric)]

/-- What PostgreSQL and its driver make of a value: what is read back of it, or nothing where they
refuse it. `jsonb` keeps an object up to the order of its keys and the way numbers are written. -/
structure Database where
  jsonb : Dict String Json → Option (Dict String Json)
  timestamptz : String → Option Int
  /-- Whether a text parameter can carry the string. -/
  text : String → Bool
  /-- A value that is not null, written to a column of this type. -/
  column : ColumnType → FieldValue → Option FieldValue
  jsonb_eqv : ∀ items stored, jsonb items = some stored →
    Json.eqv (.dict items.items) (.dict stored.items)
  jsonb_text : ∀ items stored, jsonb items = some stored → ∀ name s,
    items.get? name = some (.str s) → stored.get? name = some (.str s)

/-- A row of `ledger_transcript`. -/
structure Row where
  entry : Dict String Json
  ts : Int

/-- `entry ->> name`, where it is a text. -/
def Row.text (row : Row) (name : String) : Option String :=
  match row.entry.get? name with
  | some (.str s) => some s
  | _ => none

/-- The generated columns of the unique constraint. -/
def Row.conversationId (row : Row) : Option String := row.text "conversation_id"

def Row.uuid (row : Row) : Option String := row.text "uuid"

/-- `ledgerTranscript` is in the order of `seq`, which only grows. Of a record the columns are kept
that are not null. -/
structure PostgresTranscript where
  ledgerTranscript : List Row := []
  ledgerBranch : Dict String Fields := .empty
  ledgerBranchModel : Dict (String × String) Fields := .empty

/-- The largest `bigint`, which `limit` is. -/
def maxBigint : Int := 9223372036854775807

namespace PostgresTranscript

variable (t : PostgresTranscript) (db : Database)

/-- `insert … on conflict (conversation_id, uuid) do nothing returning seq` -/
def append (entry : Entry) : Reply × PostgresTranscript :=
  match db.jsonb entry.items, db.timestamptz entry.timestamp with
  | some stored, some ts =>
    let row : Row := ⟨stored, ts⟩
    if t.ledgerTranscript.any
        (fun old => old.conversationId = row.conversationId ∧ old.uuid = row.uuid) then
      (.appended false, t)
    else (.appended true, { t with ledgerTranscript := t.ledgerTranscript ++ [row] })
  | _, _ => (.databaseError, t)

def rowsOf (conversationId : String) : List Row :=
  t.ledgerTranscript.filter (fun row => row.conversationId = some conversationId)

/-- The newest tail: `order by seq desc limit max(limit, 0)`, and back in the order of `seq`. -/
def window (rows : List Row) : Option Int → List Row
  | none => rows
  | some limit => (rows.reverse.take (max limit 0).toNat).reverse

def read (conversationId : String) (limit : Option Int) : Reply :=
  if db.text conversationId = true ∧ limit.all (fun n => n ≤ maxBigint) = true then
    .entries ((window (t.rowsOf conversationId) limit).map Row.entry)
  else .databaseError

/-- What a column holds of a value written to it. -/
def held (columns : List (String × ColumnType)) (name : String) : FieldValue → Option FieldValue
  | .null => none
  | value => (fetch name columns).bind (fun type => db.column type value)

/-- Whether every value can be written. -/
def accepts (columns : List (String × ColumnType)) (fields : Fields) : Bool :=
  fields.items.all (fun item => item.2 = .null ∨ (held db columns item.1 item.2).isSome)

/-- `do update set column = excluded.column`, for each column written. -/
def merge (columns : List (String × ColumnType)) (row : Fields) :
    List (String × FieldValue) → Fields
  | [] => row
  | (name, value) :: items =>
    merge columns (match held db columns name value with
      | some held => row.insert name held
      | none => row.erase name) items

/-- Merge allow-listed fields into a keyed record. -/
def upsert {κ : Type} [DecidableEq κ] (columns : List (String × ColumnType)) (keys : List String)
    (key : κ) (fields : Fields) (table : Dict κ Fields) : Option (Dict κ Fields) :=
  if keys.all db.text = true ∧ accepts db columns fields = true then
    some (table.insert key (merge db columns ((table.get? key).getD .empty) fields.items))
  else none

def recordBranch (branchId : String) (fields : Fields) : Reply × PostgresTranscript :=
  checkFields "ledger_branch" fields branchFields t
    (match upsert db branchColumns [branchId] branchId fields t.ledgerBranch with
    | some table => (.done, { t with ledgerBranch := table })
    | none => (.databaseError, t))

def recordModelUsage (branchId model : String) (counts : Fields) : Reply × PostgresTranscript :=
  checkFields "ledger_branch_model" counts modelUsageFields t
    (match upsert db modelColumns [branchId, model] (branchId, model) counts
        t.ledgerBranchModel with
    | some table => (.done, { t with ledgerBranchModel := table })
    | none => (.databaseError, t))

/-- Return a run record with unwritten null fields omitted. -/
def readBranch (branchId : String) : Reply :=
  if db.text branchId = true then .record (t.ledgerBranch.get? branchId) else .databaseError

def readModelUsage (branchId : String) : Reply :=
  if db.text branchId = true then .usage (usageOf t.ledgerBranchModel branchId)
  else .databaseError

/-- One call on the database, as one transaction. -/
def run : Call → Reply × PostgresTranscript
  | .append entry => t.append db entry
  | .read conversationId limit => (t.read db conversationId limit, t)
  | .recordBranch branchId fields => t.recordBranch db branchId fields
  | .readBranch branchId => (t.readBranch db branchId, t)
  | .recordModelUsage branchId model counts => t.recordModelUsage db branchId model counts
  | .readModelUsage branchId => (t.readModelUsage db branchId, t)

end PostgresTranscript

end Semora.Transcript.Records
