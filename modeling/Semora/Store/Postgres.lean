import Semora.Lib.ReadCommitted
import Semora.Store.Calls

/-! The ledger in PostgreSQL: every method as the statements of one transaction. -/

namespace Semora.Store
open Semora.Lib

/-- The primary keys of the three tables. -/
inductive PgKey
  | step (branchId key : String)
  | lease (branchId : String)
  | input (branchId inputId : String)
deriving DecidableEq

/-- A row of `ledger_step`, which is never absent, of `ledger_branch_lease` or of `ledger_input`. -/
inductive PgRow (V : Type)
  | step (step : Step V)
  | lease (lease : Lease)
  | input (record : InputRecord V)
deriving DecidableEq

/-- What a method raises: an exception of the ledger's, or a broken connection's. -/
inductive PgError
  | store (e : StoreError)
  | operational
deriving DecidableEq

abbrev PgOp (V : Type) : Type := Sql PgKey (PgRow V)

abbrev Pg (V : Type) : Type → Type := Prog (PgOp V) Sql.Res PgError

namespace PostgresSteps

variable {V : Type}

def sql (o : PgOp V) : Pg V o.Res := .op o

def statement : Pg V Unit := sql .statement

/-- `select … where` of one row by its primary key. -/
def selectRow (k : PgKey) : Pg V (Option (PgRow V)) := do
  statement
  sql (.select k)

/-- `insert … on conflict`, with the row it conflicted with. -/
def upsertRow (k : PgKey) (f : Option (PgRow V) → Change (PgRow V)) : Pg V (Option (PgRow V)) := do
  statement
  sql (.upsert k f)

/-- `update … where` or `delete … where` of one row: whether there was one. -/
def changeRow (k : PgKey) (f : PgRow V → Change (PgRow V)) : Pg V Bool := do
  statement
  let row ← sql (.change k f)
  return row.isSome

/-- `async with self._pool.connection()`: commit what the body did, roll it back if it raised. -/
def connection {α : Type} (body : Pg V α) : Pg V α := do
  let result ← body.tryCatch (fun e => do
    sql .rollback
    .raise e)
  sql .commit
  return result

/-- `row["token"] if row else 0`. -/
def tokenIn : Option (PgRow V) → Nat
  | some (.lease held) => held.token
  | _ => 0

/-- Reject stale lease holders within the caller's transaction. -/
def fence (branchId : String) (token : Nat) : Pg V Unit :=
  if token = 0 then return ()
  else do
    let row ← selectRow (.lease branchId)
    let issued := tokenIn row
    if token < issued then .raise (.store (.fenced branchId token issued)) else return ()

/-- The step a row of `ledger_step` holds. -/
def stepOf : Option (PgRow V) → Step V
  | some (.step step) => step
  | _ => .absent

def read (branchId key : String) : Pg V (Step V) :=
  connection do
    let row ← selectRow (.step branchId key)
    return stepOf row

/-- `on conflict do nothing returning 1`: whether the row was inserted. -/
def insertRow (k : PgKey) (row : PgRow V) : Pg V Bool := do
  let found ← upsertRow k (fun
    | none => .set row
    | some _ => .leave)
  return found.isNone

def start (branchId key : String) (token : Nat) : Pg V Bool :=
  connection do
    fence branchId token
    insertRow (.step branchId key) (.step .running)

/-- Write an effect's value if the step is as expected. -/
def writeEffect (branchId key : String) (value : V) : Expected → Pg V Bool
  | .absent => insertRow (.step branchId key) (.step (.done value))
  | .running => changeRow (.step branchId key) (fun
    | .step .running => .set (.step (.done value))
    | _ => .leave)

/-- Apply one conditional effect completion inside the caller's transaction. -/
def completeEffect [BEq V] (branchId key : String) (value : V) (expected : Expected) :
    Pg V Unit := do
  let completed ← writeEffect branchId key value expected
  if completed then return ()
  else do
    let row ← selectRow (.step branchId key)
    match stepOf row with
    | .done recorded =>
      if recorded == value then return ()
      else .raise (.store (.effectConflict branchId key "a different result is already committed"))
    | undone => .raise (.store (.effectConflict branchId key
        s!"expected '{expected.status}', found '{undone.status}'"))

def finishEffect [BEq V] (branchId key : String) (value : V) (token : Nat) : Pg V Unit :=
  connection do
    fence branchId token
    completeEffect branchId key value .running

/-- Upsert mutable framework control state, inside the caller's transaction. -/
def putControl (branchId key : String) (value : V) : Pg V Unit := do
  let _ ← upsertRow (.step branchId key) (fun _ => .set (.step (.done value)))
  return ()

def writeControl (branchId key : String) (value : V) (token : Nat) : Pg V Unit :=
  connection do
    fence branchId token
    putControl branchId key value

def forget (branchId key : String) (token : Nat) : Pg V Unit :=
  connection do
    fence branchId token
    let _ ← changeRow (.step branchId key) (fun
      | .step .running => .delete
      | _ => .leave)
    return ()

/-- What `acquire` makes of the branch's lease. A row that is not taken over is locked all the
same. -/
def grant (owner : String) (ttl now : ℚ) : Option (PgRow V) → Change (PgRow V)
  | none => .set (.lease ⟨owner, 1, now + ttl⟩)
  | some (.lease held) =>
    if held.owner = owner ∨ held.deadline < now then
      .set (.lease ⟨owner, held.token + (if held.owner = owner then 0 else 1), now + ttl⟩)
    else .lock
  | some _ => .leave

/-- `now` is the time the transaction began, as everywhere in it. -/
def acquire (branchId owner : String) (ttl now : ℚ) : Pg V Nat :=
  connection do
    let found ← upsertRow (.lease branchId) (grant owner ttl now)
    return match grant owner ttl now found with
      | .set row => tokenIn (some row)
      | _ => 0

/-- What `release` makes of a lease. -/
def expire (owner : String) : PgRow V → Change (PgRow V)
  | .lease held => if held.owner = owner then .set (.lease ⟨"", held.token, 0⟩) else .leave
  | _ => .leave

/-- Expire an owned lease without resetting its fencing token. -/
def release (branchId owner : String) : Pg V Unit :=
  connection do
    let _ ← changeRow (.lease branchId) (expire owner)
    return ()

/-- Append one input inside the caller's transaction, unless its id is there. -/
def insertInput (branchId inputId : String) (value : V) : Pg V Bool := do
  let sequence ← sql .nextval
  insertRow (.input branchId inputId) (.input ⟨inputId, .pending, value, sequence⟩)

def enqueueInput (branchId inputId : String) (value : V) : Pg V Bool :=
  connection (insertInput branchId inputId value)

def listInputs (branchId : String) : Pg V (List (InputRecord V)) :=
  connection do
    statement
    let rows ← sql (.selectAll (fun
      | .input b _ => b = branchId
      | _ => false))
    return (rows.filterMap (fun
      | .input record => some record
      | _ => none)).insertionSort (fun a b => a.sequence ≤ b.sequence)

/-- Move rows to `status` in one statement, but for those `keep` protects. -/
def mark (status : InputStatus) (keep : InputStatus → Bool) (branchId : String) :
    List String → Pg V Unit
  | [] => return ()
  | inputId :: inputIds => do
    let _ ← sql (.change (.input branchId inputId) (fun
      | .input record =>
        if keep record.status then .leave else .set (.input { record with status })
      | _ => .leave))
    mark status keep branchId inputIds

def claimInput (branchId inputId : String) (token : Nat) : Pg V Unit :=
  connection do
    fence branchId token
    statement
    mark .claimed (fun st => st = .admitted ∨ st = .discarded) branchId [inputId]

def admitInputs (branchId : String) (inputIds : List String) (token : Nat) : Pg V Unit :=
  if inputIds = [] then return ()
  else connection do
    fence branchId token
    statement
    mark .admitted (fun st => st = .discarded) branchId inputIds.dedup

def discardInputs (branchId : String) (inputIds : List String) (token : Nat) : Pg V Unit :=
  if inputIds = [] then return ()
  else connection do
    fence branchId token
    statement
    mark .discarded (fun _ => false) branchId inputIds.dedup

/-- The keys of the effects, none of which may appear twice. -/
def effectKeys : List (EffectCompletion V) → List String → Except StoreError (List String)
  | [], seen => .ok seen
  | effect :: rest, seen =>
    if effect.key ∈ seen then
      .error (.valueError s!"effect {quoted effect.key} appears twice in one transition")
    else effectKeys rest (seen ++ [effect.key])

def completeEffects [BEq V] (branchId : String) : List (EffectCompletion V) → Pg V Unit
  | [] => return ()
  | effect :: rest => do
    completeEffect branchId effect.key effect.value effect.expected
    completeEffects branchId rest

def putControls (branchId : String) : List (String × V) → Pg V Unit
  | [] => return ()
  | (key, value) :: rest => do
    putControl branchId key value
    putControls branchId rest

/-- The insertion loop of `commit_transition`, with the ids it inserted. -/
def insertInputs (branchId : String) : List (String × V) → List String → Pg V (List String)
  | [], inserted => return inserted
  | (inputId, value) :: rest, inserted => do
    let new ← insertInput branchId inputId value
    insertInputs branchId rest (if new then inserted ++ [inputId] else inserted)

/-- Atomically apply typed effect, control, and input changes. -/
def commitTransition [BEq V] (branchId : String) (transition : ExecutionTransition V)
    (token : Nat) : Pg V (List String) :=
  connection do
    fence branchId token
    match effectKeys transition.effects [] with
    | .error e => .raise (.store e)
    | .ok seen =>
      let overlap := seen.filter (fun key => key ∈ transition.controls.map Prod.fst)
      if overlap ≠ [] then
        .raise (.store (.valueError ("transition classifies keys as both effect and control: " ++
          MemorySteps.printed (overlap.insertionSort (· ≤ ·)))))
      else do
        completeEffects branchId transition.effects
        putControls branchId transition.controls
        insertInputs branchId transition.inputs []

/-- The transaction of one call, begun at `now`. -/
def method [BEq V] (now : ℚ) : (c : Call V) → Pg V c.Reply
  | .read b k => read b k
  | .start b k t => start b k t
  | .finishEffect b k v t => finishEffect b k v t
  | .writeControl b k v t => writeControl b k v t
  | .forget b k t => forget b k t
  | .acquire b o ttl => acquire b o ttl now
  | .release b o => release b o
  | .enqueueInput b i v => enqueueInput b i v
  | .listInputs b => listInputs b
  | .claimInput b i t => claimInput b i t
  | .admitInputs b is t => admitInputs b is t
  | .discardInputs b is t => discardInputs b is t
  | .commitTransition b tr t => commitTransition b tr t

end PostgresSteps

end Semora.Store
