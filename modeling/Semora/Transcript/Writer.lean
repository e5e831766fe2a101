import Semora.World

/-! Writing one attempt's conversation: `TranscriptWriter` and `Branch`. -/

namespace Semora

namespace Transcript

def setParent (uuid : Option Uuid) (a : Attempt) : Attempt :=
  { a with branch := { a.branch with parentUuid := uuid } }

/-- Register the run and its start timestamp. -/
def opened (conversation branchId : String) : Program Unit := do
  let instant ← now
  perform (.recordBranch branchId { conversationId := some conversation, startedAt := some instant })

def appendLeaf (conversation : String) (leafUuid : Option Uuid) : Program Unit := do
  let instant ← now
  let _ ← perform (.append (leafEntry conversation leafUuid instant))
  return ()

/-- A replayed message appends nothing, so the tip is moved to the entry that holds it. -/
def relink (conversation : String) (appended : Bool) (uuid : Uuid) : Program Unit :=
  if appended then return () else appendLeaf conversation (some uuid)

/-- Append one message idempotently and report whether it was new. -/
def record (conversation : String) (message : ModelMessage) : Program Bool := do
  let a ← attempt
  let instant ← now
  let entry := messageEntry message conversation a.branch.parentUuid instant
  let appended ← perform (.append entry)
  -- Advanced even when the entry was a duplicate: the chain position is the same either way.
  update (setParent (some entry.uuid))
  relink conversation appended entry.uuid
  return appended

/-- Move the active branch tip without deleting transcript entries. -/
def rewind (conversation : String) (leafUuid : Option Uuid) : Program Unit := do
  appendLeaf conversation leafUuid
  update (setParent leafUuid)

/-- Hide an entry from the active branch using a tombstone marker. -/
def forget (conversation : String) (deletedUuid : Uuid) : Program Unit := do
  let instant ← now
  let _ ← perform (.append (tombstoneEntry conversation deletedUuid instant))
  return ()

/-- Record terminal run metadata and per-model usage. -/
def closed (conversation branchId : String) (stopReason : StopReason) (toolCalls : Nat)
    (usage : List (String × UsageFields)) : Program Unit := do
  let instant ← now
  perform (.recordBranch branchId
    { conversationId := some conversation, stopReason := some stopReason.text
      toolCalls := some toolCalls, interruptedMidTurn := some false, endedAt := some instant })
  usage.forM (fun item => perform (.recordModelUsage branchId item.1 item.2))

namespace Branch

/-- Restore a run's active branch and continue writing from its tip. -/
def opening (conversation branchId : String) : Program Unit := do
  let entries ← perform (.readEntries conversation)
  let branch := activeBranch entries
  opened conversation branchId
  update (fun a => { a with branch :=
    { messages := messagesOf entries
      uuids := (branch.filter (fun e => e.message.isSome)).map Entry.uuid
      parentUuid := branch.getLast?.map Entry.uuid } })

/-- Append exact messages and retain their resulting branch coordinates. -/
def append (conversation : String) : List ModelMessage → Program Unit
  | [] => return ()
  | message :: messages => do
    let _ ← record conversation message
    update (fun a => { a with branch := { a.branch with
      messages := a.branch.messages ++ [message]
      uuids := a.branch.uuids ++ a.branch.parentUuid.toList } })
    append conversation messages

/-- How many leading messages two histories share. -/
def common : List ModelMessage → List ModelMessage → Nat
  | m :: ms, m' :: ms' => if same m m' then common ms ms' + 1 else 0
  | _, _ => 0

/-- Give up everything behind the first `kept` messages. -/
def cut (conversation : String) (branch : Semora.Branch) (kept : Nat) : Program Unit :=
  if kept < branch.messages.length then do
    rewind conversation (if kept = 0 then none else branch.uuids[kept - 1]?)
    update (fun a => { a with branch := { a.branch with
      messages := a.branch.messages.take kept
      uuids := a.branch.uuids.take kept } })
  else return ()

/-- Move to the common prefix and append the desired model-visible history. -/
def replace (conversation : String) (desired : List ModelMessage) : Program Unit := do
  let a ← attempt
  let kept := common a.branch.messages desired
  cut conversation a.branch kept
  append conversation (desired.drop kept)

end Branch

end Transcript

end Semora
