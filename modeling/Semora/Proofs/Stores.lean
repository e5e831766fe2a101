import Mathlib.Data.List.Forall2
import Semora.Transcript.Records

/-! The two transcript stores side by side, one call at a time. What keeps them apart is a limit
that wraps past the first row, an explicit null, and a value PostgreSQL refuses or changes. -/

namespace Semora.Proofs.Stores
open Semora.Lib Semora.Transcript.Records

/-! Agreeing replies. -/

def sameRecord : Option Fields → Option Fields → Prop
  | some f, some g => ∀ name, f.get? name = g.get? name
  | none, none => True
  | _, _ => False

/-- The same result, numbers read as numbers, or a refusal of both. -/
def agrees : Reply → Reply → Prop
  | .appended fresh, .appended fresh' => fresh = fresh'
  | .entries xs, .entries ys =>
    List.Forall₂ (fun x y => Json.eqv (.dict x.items) (.dict y.items)) xs ys
  | .done, .done => True
  | .record f, .record g => sameRecord f g
  | .usage xs, .usage ys => ∀ model, sameRecord (fetch model xs) (fetch model ys)
  | .valueError _ _, .valueError _ _ => True
  | _, _ => False

/-- Every call of the sequence has the same result on both stores. -/
def Agreed (db : Database) : MemoryTranscript → PostgresTranscript → List Call → Prop
  | _, _, [] => True
  | m, p, call :: calls =>
    agrees (m.run call).1 (p.run db call).1 ∧ Agreed db (m.run call).2 (p.run db call).2 calls

/-! What it takes. -/

/-- The database takes the keys and every value, and keeps them in columns. -/
def Takes (db : Database) (columns : List (String × ColumnType)) (keys : List String)
    (fields : Fields) : Prop :=
  keys.all db.text = true ∧ PostgresTranscript.accepts db columns fields = true

/-- What is read back of every value is the value; of a null nothing is. -/
def Kept (db : Database) (columns : List (String × ColumnType)) (fields : Fields) : Prop :=
  ∀ name value, fields.get? name = some value →
    PostgresTranscript.held db columns name value = some value

/-- The call, met by the process-local store in this state, is one the two stores agree on. -/
def Fits (db : Database) (m : MemoryTranscript) : Call → Prop
  | .append entry =>
    (db.jsonb entry.items).isSome = true ∧ (db.timestamptz entry.timestamp).isSome = true
  | .read conversationId limit =>
    db.text conversationId = true ∧ ∀ n, limit = some n → n ≤ maxBigint ∧
      ¬ ((m.rowsOf conversationId).length < n ∧ n < 2 * (m.rowsOf conversationId).length)
  | .recordBranch branchId fields =>
    unknown fields branchFields = [] → Takes db branchColumns [branchId] fields
  | .readBranch branchId =>
    db.text branchId = true ∧
      ∀ fields, m.runs.get? branchId = some fields → Kept db branchColumns fields
  | .recordModelUsage branchId model counts =>
    unknown counts modelUsageFields = [] → Takes db modelColumns [branchId, model] counts
  | .readModelUsage branchId =>
    db.text branchId = true ∧
      ∀ model counts, m.modelUsage.get? (branchId, model) = some counts →
        Kept db modelColumns counts

/-- Every call of the sequence fits the process-local store as it then stands. -/
def AllFit (db : Database) : MemoryTranscript → List Call → Prop
  | _, [] => True
  | m, call :: calls => Fits db m call ∧ AllFit db (m.run call).2 calls

/-! The simulation. -/

/-- A row keeps of each field what its column holds. -/
def Mirrors (db : Database) (columns : List (String × ColumnType)) :
    Option Fields → Option Fields → Prop
  | some f, some g =>
    ∀ name, g.get? name = (f.get? name).bind (PostgresTranscript.held db columns name)
  | none, none => True
  | _, _ => False

structure Sim (db : Database) (m : MemoryTranscript) (p : PostgresTranscript) : Prop where
  rows : ∀ c, List.Forall₂ (fun e r => db.jsonb e.items = some r.entry) (m.rowsOf c) (p.rowsOf c)
  seen : ∀ c u, (c, u) ∈ m.seen ↔
    ∃ row ∈ p.ledgerTranscript, row.conversationId = some c ∧ row.uuid = some u
  runs : ∀ b, Mirrors db branchColumns (m.runs.get? b) (p.ledgerBranch.get? b)
  usage : ∀ k, Mirrors db modelColumns (m.modelUsage.get? k) (p.ledgerBranchModel.get? k)

theorem sim_empty (db : Database) : Sim db {} {} where
  rows _ := .nil
  seen c u := by simp
  runs _ := trivial
  usage _ := trivial

section
variable {db : Database} {m : MemoryTranscript} {p : PostgresTranscript}

/-! Entries. -/

theorem row_conversationId {e : Entry} {stored : Dict String Json}
    (h : db.jsonb e.items = some stored) (ts : Int) :
    Row.conversationId ⟨stored, ts⟩ = some e.conversationId := by
  have hkept := db.jsonb_text _ _ h _ _ e.conversation_named
  simp only [Row.conversationId, Row.text, hkept]

theorem row_uuid {e : Entry} {stored : Dict String Json}
    (h : db.jsonb e.items = some stored) (ts : Int) :
    Row.uuid ⟨stored, ts⟩ = some e.uuid := by
  have hkept := db.jsonb_text _ _ h _ _ e.uuid_named
  simp only [Row.uuid, Row.text, hkept]

/-- The set of keys and the unique constraint refuse the same entries. -/
theorem taken_iff (h : Sim db m p) (e : Entry) {stored : Dict String Json}
    (hs : db.jsonb e.items = some stored) (ts : Int) :
    p.ledgerTranscript.any (fun old => old.conversationId = Row.conversationId ⟨stored, ts⟩ ∧
      old.uuid = Row.uuid ⟨stored, ts⟩) = true ↔ (e.conversationId, e.uuid) ∈ m.seen := by
  rw [row_conversationId hs, row_uuid hs, h.seen]
  simp

/-- The new row on both sides. -/
theorem sim_append (h : Sim db m p) (e : Entry) {stored : Dict String Json}
    (hs : db.jsonb e.items = some stored) (ts : Int) :
    Sim db
      { m with
        seen := m.seen ++ [(e.conversationId, e.uuid)]
        rows := m.rows.insert e.conversationId (m.rowsOf e.conversationId ++ [e]) }
      { p with ledgerTranscript := p.ledgerTranscript ++ [⟨stored, ts⟩] } where
  rows c := by
    have hold := h.rows c
    unfold MemoryTranscript.rowsOf PostgresTranscript.rowsOf at *
    rw [List.filter_append, Dict.get?_insert]
    by_cases hc : c = e.conversationId
    · subst hc
      have hkeep : [Row.mk stored ts].filter
          (fun row => row.conversationId = some e.conversationId) = [⟨stored, ts⟩] := by
        simp [row_conversationId hs]
      rw [if_pos rfl, hkeep, Option.getD_some]
      exact List.rel_append hold (.cons hs .nil)
    · have hdrop : [Row.mk stored ts].filter (fun row => row.conversationId = some c) = [] := by
        simp [row_conversationId hs, Ne.symm hc]
      rw [if_neg hc, hdrop, List.append_nil]
      exact hold
  seen c u := by
    simp only [List.mem_append, h.seen c u, List.mem_singleton, Prod.mk.injEq, or_and_right,
      exists_or, exists_eq_left, row_conversationId hs, row_uuid hs, Option.some.injEq]
    simp only [eq_comm]
  runs := h.runs
  usage := h.usage

/-- PostgreSQL refuses an entry that memory takes. -/
theorem refused_append (e : Entry)
    (h : ¬ ((db.jsonb e.items).isSome = true ∧ (db.timestamptz e.timestamp).isSome = true)) :
    p.append db e = (.databaseError, p) := by
  unfold PostgresTranscript.append
  cases hs : db.jsonb e.items with
  | none => rfl
  | some stored =>
    cases ht : db.timestamptz e.timestamp with
    | none => rfl
    | some ts => simp [hs, ht] at h

theorem memory_append (e : Entry) : ∃ fresh, (m.append e).1 = .appended fresh := by
  unfold MemoryTranscript.append
  split
  · exact ⟨false, rfl⟩
  · exact ⟨true, rfl⟩

theorem append_agrees (h : Sim db m p) (e : Entry) (hf : Fits db m (.append e)) :
    agrees (m.append e).1 (p.append db e).1 ∧ Sim db (m.append e).2 (p.append db e).2 := by
  obtain ⟨stored, hs⟩ := Option.isSome_iff_exists.mp hf.1
  obtain ⟨ts, ht⟩ := Option.isSome_iff_exists.mp hf.2
  have htaken := taken_iff h e hs ts
  unfold PostgresTranscript.append MemoryTranscript.append
  by_cases hm : (e.conversationId, e.uuid) ∈ m.seen
  · simp only [hs, ht, if_pos hm, if_pos (htaken.mpr hm)]
    exact ⟨rfl, h⟩
  · simp only [hs, ht, if_neg hm, if_neg (fun ht => hm (htaken.mp ht))]
    exact ⟨rfl, sim_append h e hs ts⟩

theorem append_iff (h : Sim db m p) (e : Entry) :
    agrees (m.append e).1 (p.append db e).1 ↔ Fits db m (.append e) := by
  constructor
  · intro hsame
    by_contra hf
    obtain ⟨fresh, hm⟩ := memory_append (m := m) e
    rw [hm, refused_append e hf] at hsame
    exact hsame
  · intro hf
    exact (append_agrees h e hf).1

/-! The newest tail. -/

/-- The descending query read forward again drops the rows before the tail. -/
theorem window_postgres (rows : List Row) (n : Int) :
    PostgresTranscript.window rows (some n) = rows.drop (rows.length - (max n 0).toNat) := by
  change (rows.reverse.take (max n 0).toNat).reverse = _
  rw [List.take_reverse, List.reverse_reverse]

/-- A limit past the rows makes the start of the slice negative, and Python counts it from the
end. -/
theorem window_memory (rows : List Entry) (n : Int) :
    MemoryTranscript.window rows (some n) =
      rows.drop (if rows.length < n ∧ n < 2 * rows.length then (2 * rows.length - n).toNat
        else rows.length - (max n 0).toNat) := by
  unfold MemoryTranscript.window sliceStart
  by_cases hpos : 0 < n
  · simp only [if_pos hpos]
    congr 1
    split <;> split <;> omega
  · have hmax : (max n 0).toNat = 0 := by omega
    have hnot : ¬ (rows.length < n ∧ n < 2 * rows.length) := by omega
    simp [hpos, hnot, hmax]

/-- Entries written to JSONB and read back are the entries. -/
theorem entries_agree {xs : List Entry} {ys : List Row}
    (h : List.Forall₂ (fun e r => db.jsonb e.items = some r.entry) xs ys) :
    agrees (.entries (xs.map Entry.items)) (.entries (ys.map Row.entry)) := by
  change List.Forall₂ _ (xs.map Entry.items) (ys.map Row.entry)
  rw [List.forall₂_map_left_iff, List.forall₂_map_right_iff]
  exact h.imp (fun e r he => db.jsonb_eqv _ _ he)

theorem window_agrees {xs : List Entry} {ys : List Row}
    (h : List.Forall₂ (fun e r => db.jsonb e.items = some r.entry) xs ys) (n : Int) :
    agrees (.entries ((MemoryTranscript.window xs (some n)).map Entry.items))
        (.entries ((PostgresTranscript.window ys (some n)).map Row.entry)) ↔
      ¬ (xs.length < n ∧ n < 2 * xs.length) := by
  rw [window_memory, window_postgres, ← h.length_eq]
  constructor
  · intro hsame hwraps
    have hlength := List.Forall₂.length_eq hsame
    rw [if_pos hwraps] at hlength
    simp only [List.length_map, List.length_drop, ← h.length_eq] at hlength
    omega
  · intro hnot
    rw [if_neg hnot]
    exact entries_agree (List.forall₂_drop _ h)

theorem read_agrees (h : Sim db m p) (c : String) (limit : Option Int) :
    agrees (m.read c limit) (p.read db c limit) ↔ Fits db m (.read c limit) := by
  unfold PostgresTranscript.read MemoryTranscript.read Fits
  by_cases hc : db.text c = true
  · cases limit with
    | none =>
      simp only [hc, Option.all_none, and_self, if_true, true_and]
      exact iff_of_true (entries_agree (h.rows c)) (by simp)
    | some n =>
      by_cases hn : n ≤ maxBigint
      · simp only [hc, Option.all_some, hn, decide_true, and_self, if_true, true_and,
          Option.some.injEq, forall_eq']
        exact window_agrees (h.rows c) n
      · simp [hc, hn, agrees]
  · simp [hc, agrees]

/-! Records. -/

/-- Writing the columns one by one mirrors the update of the dictionary. -/
theorem merge_mirrors (columns : List (String × ColumnType))
    (items : List (String × FieldValue)) {f g : Fields}
    (h : ∀ name, g.get? name = (f.get? name).bind (PostgresTranscript.held db columns name))
    (name : String) :
    (PostgresTranscript.merge db columns g items).get? name =
      ((f.update items).get? name).bind (PostgresTranscript.held db columns name) := by
  induction items generalizing f g with
  | nil => exact h name
  | cons item items ih =>
    obtain ⟨column, value⟩ := item
    change (PostgresTranscript.merge db columns _ items).get? name =
      (((f.insert column value).update items).get? name).bind _
    apply ih
    intro other
    rw [Dict.get?_insert]
    cases hheld : PostgresTranscript.held db columns column value with
    | none =>
      rw [Dict.get?_erase]
      by_cases he : other = column
      · subst he
        simp [hheld]
      · simpa [he] using h other
    | some kept =>
      rw [Dict.get?_insert]
      by_cases he : other = column
      · subst he
        simp [hheld]
      · simpa [he] using h other

/-- The record before an upsert, empty where there was none. -/
theorem mirrors_default {columns : List (String × ColumnType)} {f g : Option Fields}
    (h : Mirrors db columns f g) (name : String) :
    (g.getD .empty).get? name =
      ((f.getD .empty).get? name).bind (PostgresTranscript.held db columns name) := by
  match f, g, h with
  | some f, some g, h => exact h name
  | none, none, _ => rfl

theorem mirrors_upsert {κ : Type} [DecidableEq κ] {columns : List (String × ColumnType)}
    {runs table : Dict κ Fields} (h : ∀ k, Mirrors db columns (runs.get? k) (table.get? k))
    (key : κ) (fields : Fields) (k : κ) :
    Mirrors db columns
      ((runs.insert key (((runs.get? key).getD .empty).update fields.items)).get? k)
      ((table.insert key (PostgresTranscript.merge db columns ((table.get? key).getD .empty)
        fields.items)).get? k) := by
  rw [Dict.get?_insert, Dict.get?_insert]
  by_cases hk : k = key
  · rw [if_pos hk, if_pos hk]
    exact merge_mirrors columns fields.items (mirrors_default (h key))
  · rw [if_neg hk, if_neg hk]
    exact h k

/-- What an upsert of the database comes to: the merge where it takes the values. -/
theorem upsert_taken {κ : Type} [DecidableEq κ] {columns : List (String × ColumnType)}
    {keys : List String} {fields : Fields} (h : Takes db columns keys fields) (key : κ)
    (table : Dict κ Fields) :
    PostgresTranscript.upsert db columns keys key fields table =
      some (table.insert key (PostgresTranscript.merge db columns
        ((table.get? key).getD .empty) fields.items)) := by
  unfold PostgresTranscript.upsert
  exact if_pos h

theorem upsert_refused {κ : Type} [DecidableEq κ] {columns : List (String × ColumnType)}
    {keys : List String} {fields : Fields} (h : ¬ Takes db columns keys fields) (key : κ)
    (table : Dict κ Fields) :
    PostgresTranscript.upsert db columns keys key fields table = none := by
  unfold PostgresTranscript.upsert
  exact if_neg h

theorem recordBranch_agrees (h : Sim db m p) (b : String) (fields : Fields)
    (hf : Fits db m (.recordBranch b fields)) :
    agrees (m.recordBranch b fields).1 (p.recordBranch db b fields).1 ∧
      Sim db (m.recordBranch b fields).2 (p.recordBranch db b fields).2 := by
  unfold MemoryTranscript.recordBranch PostgresTranscript.recordBranch checkFields
  by_cases hknown : unknown fields branchFields = []
  · simp only [if_pos hknown, upsert_taken (hf hknown)]
    exact ⟨trivial, { h with runs := mirrors_upsert h.runs b fields }⟩
  · simp only [if_neg hknown]
    exact ⟨trivial, h⟩

theorem recordBranch_iff (h : Sim db m p) (b : String) (fields : Fields) :
    agrees (m.recordBranch b fields).1 (p.recordBranch db b fields).1 ↔
      Fits db m (.recordBranch b fields) := by
  constructor
  · intro hsame hknown
    by_contra hf
    unfold MemoryTranscript.recordBranch PostgresTranscript.recordBranch checkFields at hsame
    simp only [if_pos hknown, upsert_refused hf] at hsame
    exact hsame
  · intro hf
    exact (recordBranch_agrees h b fields hf).1

theorem recordModelUsage_agrees (h : Sim db m p) (b model : String) (counts : Fields)
    (hf : Fits db m (.recordModelUsage b model counts)) :
    agrees (m.recordModelUsage b model counts).1 (p.recordModelUsage db b model counts).1 ∧
      Sim db (m.recordModelUsage b model counts).2 (p.recordModelUsage db b model counts).2 := by
  unfold MemoryTranscript.recordModelUsage PostgresTranscript.recordModelUsage checkFields
  by_cases hknown : unknown counts modelUsageFields = []
  · simp only [if_pos hknown, upsert_taken (hf hknown)]
    exact ⟨trivial, { h with usage := mirrors_upsert h.usage (b, model) counts }⟩
  · simp only [if_neg hknown]
    exact ⟨trivial, h⟩

theorem recordModelUsage_iff (h : Sim db m p) (b model : String) (counts : Fields) :
    agrees (m.recordModelUsage b model counts).1 (p.recordModelUsage db b model counts).1 ↔
      Fits db m (.recordModelUsage b model counts) := by
  constructor
  · intro hsame hknown
    by_contra hf
    unfold MemoryTranscript.recordModelUsage PostgresTranscript.recordModelUsage
      checkFields at hsame
    simp only [if_pos hknown, upsert_refused hf] at hsame
    exact hsame
  · intro hf
    exact (recordModelUsage_agrees h b model counts hf).1

/-- A mirrored record reads the same exactly when every value is kept. -/
theorem sameRecord_iff {columns : List (String × ColumnType)} {f g : Option Fields}
    (h : Mirrors db columns f g) :
    sameRecord f g ↔ ∀ fields, f = some fields → Kept db columns fields := by
  match f, g, h with
  | none, none, _ => exact iff_of_true trivial (by simp)
  | some f, some g, h =>
    simp only [Option.some.injEq, forall_eq']
    constructor
    · intro hsame name value hvalue
      have hread := hsame name
      rw [h name, hvalue] at hread
      exact hread.symm
    · intro hkept name
      rw [h name]
      cases hvalue : f.get? name with
      | none => rfl
      | some value => exact (hkept name value hvalue).symm

theorem readBranch_iff (h : Sim db m p) (b : String) :
    agrees (m.readBranch b) (p.readBranch db b) ↔ Fits db m (.readBranch b) := by
  unfold PostgresTranscript.readBranch MemoryTranscript.readBranch Fits
  by_cases hb : db.text b = true
  · simp only [hb, if_true, true_and]
    exact sameRecord_iff (h.runs b)
  · simp [hb, agrees]

/-- The rows of one run are those filed under it. -/
theorem fetch_usageOf (rows : Dict (String × String) Fields) (b model : String) :
    fetch model (usageOf rows b) = rows.get? (b, model) := by
  unfold usageOf Dict.get?
  induction rows.items with
  | nil => rfl
  | cons item items ih =>
    obtain ⟨⟨run, used⟩, counts⟩ := item
    by_cases hrun : run = b
    · subst hrun
      by_cases hmodel : model = used
      · subst hmodel
        simp [fetch]
      · simpa [fetch, hmodel] using ih
    · simpa [fetch, hrun, Ne.symm hrun] using ih

theorem readModelUsage_iff (h : Sim db m p) (b : String) :
    agrees (m.readModelUsage b) (p.readModelUsage db b) ↔ Fits db m (.readModelUsage b) := by
  unfold PostgresTranscript.readModelUsage MemoryTranscript.readModelUsage Fits
  by_cases hb : db.text b = true
  · simp only [hb, if_true, true_and, agrees, fetch_usageOf]
    exact forall_congr' (fun model => sameRecord_iff (h.usage (b, model)))
  · simp [hb, agrees]

/-! The calls. -/

theorem agrees_iff (h : Sim db m p) (call : Call) :
    agrees (m.run call).1 (p.run db call).1 ↔ Fits db m call := by
  cases call with
  | append entry => exact append_iff h entry
  | read conversationId limit => exact read_agrees h conversationId limit
  | recordBranch branchId fields => exact recordBranch_iff h branchId fields
  | readBranch branchId => exact readBranch_iff h branchId
  | recordModelUsage branchId model counts => exact recordModelUsage_iff h branchId model counts
  | readModelUsage branchId => exact readModelUsage_iff h branchId

theorem sim_run (h : Sim db m p) (call : Call) (hf : Fits db m call) :
    Sim db (m.run call).2 (p.run db call).2 := by
  cases call with
  | append entry => exact (append_agrees h entry hf).2
  | recordBranch branchId fields => exact (recordBranch_agrees h branchId fields hf).2
  | recordModelUsage branchId model counts =>
    exact (recordModelUsage_agrees h branchId model counts hf).2
  | read | readBranch | readModelUsage => exact h

theorem agreed_of_sim (h : Sim db m p) (calls : List Call) :
    Agreed db m p calls ↔ AllFit db m calls := by
  induction calls generalizing m p with
  | nil => exact Iff.rfl
  | cons call calls ih =>
    constructor
    · intro ⟨hsame, hrest⟩
      have hf := (agrees_iff h call).mp hsame
      exact ⟨hf, (ih (sim_run h call hf)).mp hrest⟩
    · intro ⟨hf, hrest⟩
      exact ⟨(agrees_iff h call).mpr hf, (ih (sim_run h call hf)).mpr hrest⟩

end

/-- From empty stores the two agree on a sequence of calls exactly when every call of it fits. -/
theorem stores_agree_iff (db : Database) (calls : List Call) :
    Agreed db {} {} calls ↔ AllFit db {} calls :=
  agreed_of_sim (sim_empty db) calls

/-! A database that keeps what it takes. -/

def plain : Database where
  jsonb items := some items
  timestamptz s := if s = "2026-01-01T00:00:00Z" then some 1767225600 else none
  text s := !s.contains '\x00'
  column _ value := some value
  jsonb_eqv items stored h := by cases h; rfl
  jsonb_text items stored h name s hs := by cases h; exact hs

def line (uuid : String) : Entry where
  items := ⟨[("conversation_id", .str "c"), ("uuid", .str uuid),
    ("timestamp", .str "2026-01-01T00:00:00Z")], by simp⟩
  conversationId := "c"
  uuid := uuid
  timestamp := "2026-01-01T00:00:00Z"
  conversation_named := rfl
  uuid_named := rfl
  timestamp_named := rfl

/-- Three entries, of which four are asked for. -/
def tail : List Call :=
  [.append (line "1"), .append (line "2"), .append (line "3"), .read "c" (some 4)]

/-- A field written as null. -/
def nulled : List Call :=
  [.recordBranch "run" ⟨[("ended_at", .null)], by decide⟩, .readBranch "run"]

/-- Memory gives the last of the three entries where PostgreSQL gives them all, and a null field
where PostgreSQL gives none. -/
theorem stores_not_agreed : ¬ Agreed plain {} {} tail ∧ ¬ Agreed plain {} {} nulled := by
  rw [agreed_of_sim (sim_empty plain), agreed_of_sim (sim_empty plain)]
  constructor
  · intro h
    have hread : Fits plain _ (.read "c" (some 4)) := h.2.2.2.1
    have hwraps := (hread.2 4 rfl).2
    exact hwraps (by decide)
  · intro h
    have hread : Fits plain _ (.readBranch "run") := h.2.1
    have hkept := hread.2 _ rfl "ended_at" .null rfl
    cases hkept

end Semora.Proofs.Stores
