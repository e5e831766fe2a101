import Mathlib.Data.List.Sort
import Mathlib.Data.Rat.Defs
import Mathlib.Algebra.Order.Ring.Unbundled.Rat
import Semora.Lib.Dict

/-! The durable step ledger and its in-memory implementation. A value is opaque to the ledger:
all it does with one is store it and compare it (`==`). -/

namespace Semora.Store
open Semora.Lib

/-- How `repr` writes a character of a text; a printable one as it is, and here every character past
ASCII is printable. -/
def escaped (quote c : Char) : List Char :=
  let hex := "0123456789abcdef".toList
  if c = quote ∨ c = '\\' then ['\\', c]
  else if c = '\n' then ['\\', 'n']
  else if c = '\r' then ['\\', 'r']
  else if c = '\t' then ['\\', 't']
  else if c.toNat < 32 ∨ c.toNat = 127 then
    ['\\', 'x', hex.getD (c.toNat / 16) '0', hex.getD (c.toNat % 16) '0']
  else [c]

/-- `repr` of a text: in apostrophes, or in quotes where it holds an apostrophe and no quote. -/
def quoted (text : String) : String :=
  let apostrophe := Char.ofNat 39
  let double := Char.ofNat 34
  let quote := if apostrophe ∈ text.toList ∧ double ∉ text.toList then double else apostrophe
  String.ofList (quote :: text.toList.flatMap (escaped quote) ++ [quote])

example : quoted "it's" = "\"it's\"" := by decide

/-- The exceptions the ledger's module declares, and the `ValueError` of a malformed transition. -/
inductive StoreError
  | fenced (branchId : String) (presented issued : Nat)
  | contended (branchId : String)
  | indeterminate (branchId step : String)
  | effectConflict (branchId key reason : String)
  | valueError (message : String)
deriving DecidableEq

/-- The persisted state of one step. A running step has no value yet. -/
inductive Step (V : Type)
  | absent
  | running
  | done (value : V)
deriving DecidableEq

/-- The status word of a step. -/
def Step.status {V : Type} : Step V → String
  | absent => "absent"
  | running => "running"
  | done _ => "done"

inductive InputStatus
  | pending
  | claimed
  | admitted
  | discarded
deriving DecidableEq

/-- One durable input queue row. -/
structure InputRecord (V : Type) where
  inputId : String
  status : InputStatus
  value : V
  sequence : Nat
deriving DecidableEq

/-- The undone states an effect may be completed from. -/
inductive Expected
  | absent
  | running
deriving DecidableEq

def Expected.status : Expected → String
  | absent => "absent"
  | running => "running"

structure EffectCompletion (V : Type) where
  key : String
  value : V
  expected : Expected := .running
deriving DecidableEq

structure ExecutionTransition (V : Type) where
  effects : List (EffectCompletion V) := []
  controls : List (String × V) := []
  inputs : List (String × V) := []
deriving DecidableEq

structure Lease where
  owner : String
  token : Nat
  deadline : ℚ
deriving DecidableEq

structure MemorySteps (V : Type) where
  entries : Dict (String × String) (Step V) := .empty
  leases : Dict String Lease := .empty
  tokens : Dict String Nat := .empty
  inputs : Dict (String × String) (InputRecord V) := .empty
  inputSequence : Dict String Nat := .empty
deriving DecidableEq

namespace MemorySteps

variable {V : Type}

/-- The token last issued for a branch: `_tokens.get(branch_id, 0)`. -/
def issued (s : MemorySteps V) (branchId : String) : Nat :=
  (s.tokens.get? branchId).getD 0

/-- `_entries.get((branch_id, key), Step("absent"))`. -/
def step (s : MemorySteps V) (branchId key : String) : Step V :=
  (s.entries.get? (branchId, key)).getD .absent

def put (s : MemorySteps V) (branchId key : String) (step : Step V) : MemorySteps V :=
  { s with entries := s.entries.insert (branchId, key) step }

/-- Reject stale lease holders while allowing unleased writes with token zero. -/
def fence (s : MemorySteps V) (branchId : String) (token : Nat) : Except StoreError Unit :=
  if token ≠ 0 ∧ token < s.issued branchId then
    .error (.fenced branchId token (s.issued branchId))
  else .ok ()

/-- Run the rest of a leased write behind the fence, which every such write checks first. -/
def fenced {α : Type} (s : MemorySteps V) (branchId : String) (token : Nat)
    (write : Except StoreError α × MemorySteps V) : Except StoreError α × MemorySteps V :=
  match s.fence branchId token with
  | .error e => (.error e, s)
  | .ok () => write

def read (s : MemorySteps V) (branchId key : String) : Step V := s.step branchId key

def start (s : MemorySteps V) (branchId key : String) (token : Nat) :
    Except StoreError Bool × MemorySteps V :=
  s.fenced branchId token <|
    match s.entries.get? (branchId, key) with
    | some _ => (.ok false, s)
    | none => (.ok true, s.put branchId key .running)

def finishEffect [BEq V] (s : MemorySteps V) (branchId key : String) (value : V) (token : Nat) :
    Except StoreError Unit × MemorySteps V :=
  s.fenced branchId token <|
    match s.step branchId key with
    | .done recorded =>
      if recorded == value then (.ok (), s)
      else (.error (.effectConflict branchId key "a different result is already committed"), s)
    | .absent => (.error (.effectConflict branchId key "expected 'running', found 'absent'"), s)
    | .running => (.ok (), s.put branchId key (.done value))

def writeControl (s : MemorySteps V) (branchId key : String) (value : V) (token : Nat) :
    Except StoreError Unit × MemorySteps V :=
  s.fenced branchId token (.ok (), s.put branchId key (.done value))

def forget (s : MemorySteps V) (branchId key : String) (token : Nat) :
    Except StoreError Unit × MemorySteps V :=
  s.fenced branchId token <|
    match s.step branchId key with
    | .done _ => (.ok (), s)
    | _ => (.ok (), { s with entries := s.entries.erase (branchId, key) })

/-- `now` is the clock at the expiry check and `now'` the one the new deadline is counted from.
Zero reports that another owner holds the lease. -/
def acquire (s : MemorySteps V) (branchId owner : String) (ttl now now' : ℚ) :
    Nat × MemorySteps V :=
  -- A new lease or a takeover. Either way the token moves, so a previous holder is fenced.
  let grant : Nat × MemorySteps V :=
    (s.issued branchId + 1,
      { s with
        tokens := s.tokens.insert branchId (s.issued branchId + 1)
        leases := s.leases.insert branchId ⟨owner, s.issued branchId + 1, now' + ttl⟩ })
  match s.leases.get? branchId with
  | none => grant
  | some held =>
    if held.owner = owner then
      (held.token, { s with leases := s.leases.insert branchId ⟨owner, held.token, now' + ttl⟩ })
    else if held.deadline ≤ now then grant
    else (0, s)

/-- Expire an owned lease without resetting its fencing token. -/
def release (s : MemorySteps V) (branchId owner : String) (now : ℚ) : MemorySteps V :=
  match s.leases.get? branchId with
  | none => s
  | some held =>
    if held.owner = owner then
      { s with leases := s.leases.insert branchId ⟨"", held.token, now⟩ }
    else s

/-- Append one input under its id, whose absence the callers have checked. -/
def insertInput (s : MemorySteps V) (branchId inputId : String) (value : V) : MemorySteps V :=
  let sequence := (s.inputSequence.get? branchId).getD 0
  { s with
    inputSequence := s.inputSequence.insert branchId (sequence + 1)
    inputs := s.inputs.insert (branchId, inputId) ⟨inputId, .pending, value, sequence⟩ }

def enqueueInput (s : MemorySteps V) (branchId inputId : String) (value : V) :
    Bool × MemorySteps V :=
  match s.inputs.get? (branchId, inputId) with
  | some _ => (false, s)
  | none => (true, s.insertInput branchId inputId value)

def listInputs (s : MemorySteps V) (branchId : String) : List (InputRecord V) :=
  ((s.inputs.items.filter (fun item => item.1.1 = branchId)).map Prod.snd).insertionSort
    (fun a b => a.sequence ≤ b.sequence)

/-- Move one row to `status` unless it is absent or `keep` protects the status it has. -/
def mark (status : InputStatus) (keep : InputStatus → Bool) (branchId : String)
    (s : MemorySteps V) (inputId : String) : MemorySteps V :=
  match s.inputs.get? (branchId, inputId) with
  | none => s
  | some record =>
    if keep record.status then s
    else
      let marked := ⟨inputId, status, record.value, record.sequence⟩
      { s with inputs := s.inputs.insert (branchId, inputId) marked }

def claimInput (s : MemorySteps V) (branchId inputId : String) (token : Nat) :
    Except StoreError Unit × MemorySteps V :=
  s.fenced branchId token
    (.ok (), s.mark .claimed (fun st => st = .admitted ∨ st = .discarded) branchId inputId)

def admitInputs (s : MemorySteps V) (branchId : String) (inputIds : List String) (token : Nat) :
    Except StoreError Unit × MemorySteps V :=
  s.fenced branchId token
    (.ok (), inputIds.foldl (mark .admitted (fun st => st = .discarded) branchId) s)

def discardInputs (s : MemorySteps V) (branchId : String) (inputIds : List String) (token : Nat) :
    Except StoreError Unit × MemorySteps V :=
  s.fenced branchId token
    (.ok (), inputIds.foldl (mark .discarded (fun _ => false) branchId) s)

/-- The checking loop of `commit_transition`: the effects still to be written, or the refusal. -/
def checkEffects [BEq V] (s : MemorySteps V) (branchId : String) :
    List (EffectCompletion V) → List String → List (String × V) →
      Except StoreError (List String × List (String × V))
  | [], seen, completed => .ok (seen, completed)
  | effect :: rest, seen, completed =>
    if effect.key ∈ seen then
      .error (.valueError s!"effect {quoted effect.key} appears twice in one transition")
    else
      match s.step branchId effect.key with
      | .done recorded =>
        if recorded == effect.value then
          s.checkEffects branchId rest (seen ++ [effect.key]) completed
        else .error (.effectConflict branchId effect.key "a different result is already committed")
      | undone =>
        if undone.status = effect.expected.status then
          s.checkEffects branchId rest (seen ++ [effect.key])
            (completed ++ [(effect.key, effect.value)])
        else .error (.effectConflict branchId effect.key
          s!"expected '{effect.expected.status}', found '{undone.status}'")

/-- The insertion loop of `commit_transition`, with the ids it inserted. -/
def insertInputs (branchId : String) :
    List (String × V) → MemorySteps V → List String → List String × MemorySteps V
  | [], s, inserted => (inserted, s)
  | (inputId, value) :: rest, s, inserted =>
    match s.inputs.get? (branchId, inputId) with
    | some _ => insertInputs branchId rest s inserted
    | none => insertInputs branchId rest (s.insertInput branchId inputId value)
        (inserted ++ [inputId])

/-- A list of strings the way an error text prints it. -/
def printed (keys : List String) : String :=
  "[" ++ ", ".intercalate (keys.map quoted) ++ "]"

/-- File each value as a finished step, in order. -/
def putAll (branchId : String) (items : List (String × V)) (s : MemorySteps V) : MemorySteps V :=
  items.foldl (fun acc item => acc.put branchId item.1 (.done item.2)) s

def commitTransition [BEq V] (s : MemorySteps V) (branchId : String)
    (transition : ExecutionTransition V) (token : Nat) :
    Except StoreError (List String) × MemorySteps V :=
  s.fenced branchId token <|
    match s.checkEffects branchId transition.effects [] [] with
    | .error e => (.error e, s)
    | .ok (seen, completed) =>
      let overlap := seen.filter (fun key => key ∈ transition.controls.map Prod.fst)
      if overlap ≠ [] then
        (.error (.valueError ("transition classifies keys as both effect and control: " ++
          printed (overlap.insertionSort (· ≤ ·)))), s)
      else
        let written := putAll branchId transition.controls (putAll branchId completed s)
        let (inserted, after) := insertInputs branchId transition.inputs written []
        (.ok inserted, after)

end MemorySteps

end Semora.Store
