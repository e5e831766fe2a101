import Mathlib.Data.List.Dedup
import Semora.Store.Tables
import Semora.Proofs.Transition

/-! The two ledgers side by side: the same calls, one at a time, on one clock. -/

namespace Semora.Proofs.Conformance
open Semora.Lib Semora.Store MemorySteps Transition

/-- A database with a single connection. -/
abbrev Solo (V : Type) : Type := Database Unit PgKey (PgRow V)

abbrev Tables (V : Type) : Type := Table PgKey (PgRow V)

section
variable {V : Type}

/-- The class of an exception. -/
def raised : StoreError → String
  | .fenced .. => "Fenced"
  | .contended .. => "Contended"
  | .indeterminate .. => "Indeterminate"
  | .effectConflict .. => "EffectConflict"
  | .valueError .. => "ValueError"

/-- What an input row says, but for its number. -/
def told (row : InputRecord V) : String × InputStatus × V := (row.inputId, row.status, row.value)

/-- Two replies are the same, where the numbers of input rows do not count. -/
def Tells : (c : Call V) → c.Reply → c.Reply → Prop
  | .listInputs _, rows, rows' => rows.map told = rows'.map told
  | _, a, a' => a = a'

/-- The same value, or an exception of the same class. -/
def Alike (c : Call V) : Except StoreError c.Reply → Except PgError c.Reply → Prop
  | .ok a, .ok a' => Tells c a a'
  | .error e, .error (.store e') => raised e = raised e'
  | _, _ => False

/-- The effects before the first one whose key repeats. -/
def unrepeated : List (EffectCompletion V) → List String → List (EffectCompletion V)
  | [], _ => []
  | effect :: effects, seen =>
    if effect.key ∈ seen then [] else effect :: unrepeated effects (seen ++ [effect.key])

instance [DecidableEq V] : (c : Call V) → (a a' : c.Reply) → Decidable (Tells c a a')
  | .listInputs _, _, _ => inferInstanceAs (Decidable (_ = _))
  | .read .., _, _ | .start .., _, _ | .finishEffect .., _, _ | .writeControl .., _, _
  | .forget .., _, _ | .acquire .., _, _ | .release .., _, _ | .enqueueInput .., _, _
  | .claimInput .., _, _ | .admitInputs .., _, _ | .discardInputs .., _, _
  | .commitTransition .., _, _ => inferInstanceAs (Decidable (_ = _))

instance [DecidableEq V] (c : Call V) (r : Except StoreError c.Reply)
    (r' : Except PgError c.Reply) : Decidable (Alike c r r') :=
  match r, r' with
  | .ok _, .ok _ => inferInstanceAs (Decidable (Tells ..))
  | .error _, .error (.store _) => inferInstanceAs (Decidable (_ = _))
  | .error _, .error .operational | .ok _, .error _ | .error _, .ok _ =>
    inferInstanceAs (Decidable False)

variable [BEq V]

/-- What makes the two ledgers reply alike to a call. A lease is not asked for by another owner at
the very moment it expires, nor a released one before the epoch; a stale token does not come with
no inputs at all; and a transition that is malformed contradicts no step before that is noticed. -/
def Meets (s : MemorySteps V) (now : ℚ) : Call V → Prop
  | .acquire b owner _ => ∀ held ∈ s.leases.get? b, held.owner = owner ∨
      (held.owner = "" ∧ 0 < now) ∨ (held.owner ≠ "" ∧ held.deadline ≠ now)
  | .admitInputs b xs t | .discardInputs b xs t => xs = [] → ¬ Stale s b t
  | .commitTransition b tr t => Stale s b t ∨ (Repeats tr ∨ Overlaps tr →
      ∀ effect ∈ unrepeated tr.effects [], ¬ Contradicts s b effect)
  | _ => True

instance (s : MemorySteps V) (now : ℚ) (c : Call V) : Decidable (Meets s now c) :=
  match c with
  | .acquire b _ _ => inferInstanceAs (Decidable (∀ held ∈ s.leases.get? b, _ ∨ _))
  | .admitInputs .. | .discardInputs .. => inferInstanceAs (Decidable (_ → ¬ _))
  | .commitTransition _ tr _ => inferInstanceAs
      (Decidable (_ ∨ (_ ∨ _ → ∀ effect ∈ unrepeated tr.effects [], ¬ Contradicts _ _ effect)))
  | .read .. | .start .. | .finishEffect .. | .writeControl .. | .forget .. | .release ..
  | .enqueueInput .. | .listInputs .. | .claimInput .. => inferInstanceAs (Decidable True)

/-- Every call of a run meets that, where it is made. -/
def AllMeet : MemorySteps V → List (Call V × ℚ) → Prop
  | _, [] => True
  | s, (c, now) :: calls => Meets s now c ∧ AllMeet (c.exec now now s).2 calls

instance : (s : MemorySteps V) → (calls : List (Call V × ℚ)) → Decidable (AllMeet s calls)
  | _, [] => inferInstanceAs (Decidable True)
  | s, (c, now) :: calls =>
    have := instDecidableAllMeet (c.exec now now s).2 calls
    inferInstanceAs (Decidable (_ ∧ _))

variable [DecidableEq V]

/-- The call as one transaction, with nothing beside it. -/
def transact (now : ℚ) (c : Call V) (db : Solo V) : Except PgError c.Reply × Solo V :=
  (PostgresSteps.method now c).eval (Database.alone ()) db

/-- What can be observed of the two ledgers is the same. -/
structure Same (s : MemorySteps V) (db : Solo V) : Prop where
  step : ∀ b k, (transact 0 (.read b k) db).1 = .ok (s.step b k)
  token : ∀ b, PostgresSteps.tokenIn ((db.rows.get? (.lease b)).map Version.row) = s.issued b
  inputs : ∀ b, Alike (.listInputs b) (.ok (s.listInputs b)) (transact 0 (.listInputs b) db).1

/-- The two ledgers agree throughout: before and after every call, and in what they reply. -/
def Conform : MemorySteps V → Solo V → List (Call V × ℚ) → Prop
  | s, db, [] => Same s db
  | s, db, (c, now) :: calls => Same s db ∧ Alike c (c.exec now now s).1 (transact now c db).1 ∧
      Conform (c.exec now now s).2 (transact now c db).2 calls

end

/-! What the tables hold of a ledger in memory. -/

section
variable {V : Type}

/-- A lease as its row shows it: a released one expired at the epoch. -/
def shown (held : Lease) : PgRow V :=
  .lease ⟨held.owner, held.token, if held.owner = "" then 0 else held.deadline⟩

/-- The tables hold what the ledger in memory does; `number` gives the rows their numbers. -/
structure Mirrors (s : MemorySteps V) (t : Tables V) (number : String × String → Nat) (low : ℚ) :
    Prop where
  step : ∀ b k, t.row (.step b k) = (s.entries.get? (b, k)).map .step
  present : ∀ b k, s.entries.get? (b, k) ≠ some .absent
  lease : ∀ b, t.row (.lease b) = (s.leases.get? b).map shown
  token : ∀ b, s.issued b = ((s.leases.get? b).map Lease.token).getD 0
  released : ∀ b held, s.leases.get? b = some held → held.owner = "" → held.deadline ≤ low
  input : ∀ b x, t.row (.input b x) = (s.inputs.get? (b, x)).map (fun row =>
    .input { row with sequence := number (b, x) })
  labelled : ∀ b x row, s.inputs.get? (b, x) = some row → row.inputId = x
  order : ∀ b x y row row', s.inputs.get? (b, x) = some row → s.inputs.get? (b, y) = some row' →
    (row.sequence < row'.sequence ↔ number (b, x) < number (b, y))
  apart : ∀ b x y row row', s.inputs.get? (b, x) = some row → s.inputs.get? (b, y) = some row' →
    row.sequence = row'.sequence → x = y
  counted : ∀ b x row, s.inputs.get? (b, x) = some row →
    row.sequence < counter s b ∧ number (b, x) < t.sequence

variable {s s' : MemorySteps V} {t t' : Tables V} {number : String × String → Nat} {low low' : ℚ}
variable {b k : String}

theorem mirrors_empty (number : String × String → Nat) (low : ℚ) :
    Mirrors ({} : MemorySteps V) ⟨fun _ => none, 0⟩ number low := by
  constructor
  case step => exact fun _ _ => rfl
  case present => simp
  case lease => exact fun _ => rfl
  case token => exact fun _ => rfl
  case released => simp
  case input => exact fun _ _ => rfl
  case labelled => simp
  case order => simp
  case apart => simp
  case counted => simp

theorem Mirrors.later (h : Mirrors s t number low) (hlow : low ≤ low') : Mirrors s t number low' :=
  { h with released := fun b held hheld hempty => (h.released b held hheld hempty).trans hlow }

theorem Mirrors.sequence (h : Mirrors s t number low) {n : Nat} (hn : t.sequence ≤ n) :
    Mirrors s { t with sequence := n } number low :=
  { h with counted := fun b x row hrow =>
      ⟨(h.counted b x row hrow).1, lt_of_lt_of_le (h.counted b x row hrow).2 hn⟩ }

theorem Mirrors.issued (h : Mirrors s t number low) (b : String) :
    PostgresSteps.tokenIn (t.row (.lease b)) = s.issued b := by
  rw [h.lease, h.token]
  cases s.leases.get? b <;> rfl

theorem Mirrors.stepOf (h : Mirrors s t number low) (b k : String) :
    PostgresSteps.stepOf (t.row (.step b k)) = s.step b k := by
  rw [h.step]
  unfold MemorySteps.step
  cases s.entries.get? (b, k) <;> rfl

/-- The row of a step, by what the step is. -/
theorem Mirrors.row (h : Mirrors s t number low) (b k : String) :
    t.row (.step b k) = match s.step b k with
      | .absent => none
      | st => some (.step st) := by
  have hpresent := h.present b k
  rw [h.step]
  unfold MemorySteps.step
  cases hentry : s.entries.get? (b, k) with
  | none => rfl
  | some st =>
    cases st with
    | absent => exact absurd hentry hpresent
    | running | done => rfl

theorem Mirrors.put (h : Mirrors s t number low) {st : Step V} (hst : st ≠ .absent) :
    Mirrors (s.put b k st) (t.apply (.step b k) (.set (.step st))) number low := by
  constructor
  case step =>
    intro b' k'
    simp only [Table.apply, entry_put, Function.update_apply, PgKey.step.injEq, Prod.mk.injEq]
    split
    · rfl
    · exact h.step b' k'
  case present =>
    intro b' k'
    rw [entry_put]
    split
    · exact fun he => hst (Option.some.inj he)
    · exact h.present b' k'
  case lease => exact h.lease
  case token => exact h.token
  case released => exact h.released
  case input => exact h.input
  case labelled => exact h.labelled
  case order => exact h.order
  case apart => exact h.apart
  case counted => exact h.counted

theorem Mirrors.erase (h : Mirrors s t number low) :
    Mirrors { s with entries := s.entries.erase (b, k) } (t.apply (.step b k) .delete) number
      low := by
  constructor
  case step =>
    intro b' k'
    simp only [Table.apply, Dict.get?_erase, Function.update_apply, PgKey.step.injEq, Prod.mk.injEq]
    split
    · rfl
    · exact h.step b' k'
  case present =>
    intro b' k'
    rw [Dict.get?_erase]
    split
    · exact fun he => by cases he
    · exact h.present b' k'
  case lease => exact h.lease
  case token => exact h.token
  case released => exact h.released
  case input => exact h.input
  case labelled => exact h.labelled
  case order => exact h.order
  case apart => exact h.apart
  case counted => exact h.counted

/-- A branch's lease is given out anew, or expires. -/
theorem Mirrors.relet (h : Mirrors s t number low) {held : Lease}
    (hentries : s'.entries = s.entries) (hinputs : s'.inputs = s.inputs)
    (hsequence : s'.inputSequence = s.inputSequence) (hleases : s'.leases = s.leases.insert b held)
    (hissued : ∀ b', s'.issued b' = if b' = b then held.token else s.issued b')
    (hreleased : held.owner = "" → held.deadline ≤ low) :
    Mirrors s' (t.apply (.lease b) (.set (shown held))) number low := by
  constructor
  case step =>
    rw [hentries]
    exact h.step
  case present =>
    rw [hentries]
    exact h.present
  case lease =>
    intro b'
    simp only [Table.apply, hleases, Dict.get?_insert, Function.update_apply, PgKey.lease.injEq]
    split
    · rfl
    · exact h.lease b'
  case token =>
    intro b'
    rw [hissued, hleases, Dict.get?_insert]
    split
    · rfl
    · exact h.token b'
  case released =>
    intro b' held' hheld
    rw [hleases, Dict.get?_insert] at hheld
    split at hheld
    · cases hheld
      exact hreleased
    · exact h.released b' held' hheld
  case input =>
    rw [hinputs]
    exact h.input
  case labelled =>
    rw [hinputs]
    exact h.labelled
  case order =>
    rw [hinputs]
    exact h.order
  case apart =>
    rw [hinputs]
    exact h.apart
  case counted =>
    unfold counter
    rw [hinputs, hsequence]
    exact h.counted

/-- Rows of a queue are given another status. -/
theorem Mirrors.remark (h : Mirrors s t number low) (turn : String → InputRecord V → InputStatus)
    (hentries : s'.entries = s.entries) (hleases : s'.leases = s.leases)
    (htokens : s'.tokens = s.tokens) (hsequence : s'.inputSequence = s.inputSequence)
    (hinputs : ∀ b' x, s'.inputs.get? (b', x) = (s.inputs.get? (b', x)).map (fun row =>
      if b' = b then { row with status := turn x row } else row))
    (hrows : ∀ k, (∀ x, k ≠ .input b x) → t'.row k = t.row k)
    (hmarked : ∀ x, t'.row (.input b x) = (s.inputs.get? (b, x)).map (fun row =>
      .input { row with status := turn x row, sequence := number (b, x) }))
    (hn : t'.sequence = t.sequence) : Mirrors s' t' number low := by
  have hold : ∀ b' x row', s'.inputs.get? (b', x) = some row' → ∃ row,
      s.inputs.get? (b', x) = some row ∧ row'.inputId = row.inputId ∧
        row'.sequence = row.sequence := by
    intro b' x row' hrow'
    rw [hinputs] at hrow'
    obtain ⟨row, hrow, rfl⟩ := Option.map_eq_some_iff.mp hrow'
    refine ⟨row, hrow, ?_⟩
    split <;> exact ⟨rfl, rfl⟩
  constructor
  case step =>
    intro b' k
    rw [hentries, hrows _ (by simp)]
    exact h.step b' k
  case present =>
    rw [hentries]
    exact h.present
  case lease =>
    intro b'
    rw [hleases, hrows _ (by simp)]
    exact h.lease b'
  case token =>
    unfold MemorySteps.issued
    rw [hleases, htokens]
    exact h.token
  case released =>
    rw [hleases]
    exact h.released
  case input =>
    intro b' x
    rw [hinputs, Option.map_map]
    by_cases hb : b' = b
    · subst hb
      rw [hmarked]
      simp [Function.comp_def]
    · rw [hrows _ (by simp [hb]), h.input]
      simp [Function.comp_def, hb]
  case labelled =>
    intro b' x row' hrow'
    obtain ⟨row, hrow, hid, -⟩ := hold b' x row' hrow'
    exact hid.trans (h.labelled b' x row hrow)
  case order =>
    intro b' x y row' row'' hrow' hrow''
    obtain ⟨row, hrow, -, hseq⟩ := hold b' x row' hrow'
    obtain ⟨row₂, hrow₂, -, hseq₂⟩ := hold b' y row'' hrow''
    rw [hseq, hseq₂]
    exact h.order b' x y row row₂ hrow hrow₂
  case apart =>
    intro b' x y row' row'' hrow' hrow''
    obtain ⟨row, hrow, -, hseq⟩ := hold b' x row' hrow'
    obtain ⟨row₂, hrow₂, -, hseq₂⟩ := hold b' y row'' hrow''
    rw [hseq, hseq₂]
    exact h.apart b' x y row row₂ hrow hrow₂
  case counted =>
    intro b' x row' hrow'
    obtain ⟨row, hrow, -, hseq⟩ := hold b' x row' hrow'
    unfold counter
    rw [hseq, hsequence, hn]
    exact h.counted b' x row hrow

/-- A new row gets the next number of each. -/
theorem Mirrors.inserted (h : Mirrors s t number low) {x : String} (value : V)
    (hnew : s.inputs.get? (b, x) = none) :
    Mirrors (s.insertInput b x value)
      ({ t with sequence := t.sequence + 1 }.apply (.input b x)
        (.set (.input ⟨x, .pending, value, t.sequence⟩)))
      (Function.update number (b, x) t.sequence) low := by
  have hget : ∀ b' y, (s.insertInput b x value).inputs.get? (b', y) =
      if (b', y) = (b, x) then some ⟨x, .pending, value, counter s b⟩
      else s.inputs.get? (b', y) := by
    intro b' y
    simp only [insertInput, Dict.get?_insert]
    rfl
  have hnumber : ∀ b' y, (b', y) ≠ (b, x) →
      Function.update number (b, x) t.sequence (b', y) = number (b', y) :=
    fun b' y hne => Function.update_of_ne hne _ _
  have hcounter : ∀ b', counter s b' ≤ counter (s.insertInput b x value) b' := by
    intro b'
    simp only [counter, insertInput, Dict.get?_insert]
    split
    · rename_i hb
      subst hb
      simp
    · exact le_rfl
  have hcounted : counter (s.insertInput b x value) b = counter s b + 1 := by
    simp [counter, insertInput]
  constructor
  case step => exact h.step
  case present => exact h.present
  case lease => exact h.lease
  case token => exact h.token
  case released => exact h.released
  case input =>
    intro b' y
    rw [hget]
    by_cases he : (b', y) = (b, x)
    · obtain ⟨rfl, rfl⟩ := Prod.mk.inj he
      simp [Table.apply]
    · have hkey : PgKey.input b' y ≠ PgKey.input b x := by
        intro hk
        cases hk
        exact he rfl
      rw [if_neg he, hnumber b' y he]
      simp only [Table.apply, Function.update_of_ne hkey]
      exact h.input b' y
  case labelled =>
    intro b' y row hrow
    rw [hget] at hrow
    split at hrow
    · rename_i he
      cases hrow
      exact (Prod.mk.inj he).2.symm
    · exact h.labelled b' y row hrow
  case order =>
    intro b' y z row row' hrow hrow'
    rw [hget] at hrow hrow'
    by_cases hy : (b', y) = (b, x)
    · obtain ⟨rfl, rfl⟩ := Prod.mk.inj hy
      rw [if_pos rfl] at hrow
      cases hrow
      rw [Function.update_self]
      by_cases hz : (b', z) = (b', y)
      · rw [if_pos hz] at hrow'
        cases hrow'
        rw [hz, Function.update_self]
        simp
      · rw [if_neg hz] at hrow'
        obtain ⟨h₁, h₂⟩ := h.counted b' z row' hrow'
        rw [hnumber b' z hz]
        dsimp only
        omega
    · rw [if_neg hy] at hrow
      obtain ⟨h₁, h₂⟩ := h.counted b' y row hrow
      rw [hnumber b' y hy]
      by_cases hz : (b', z) = (b, x)
      · obtain ⟨rfl, rfl⟩ := Prod.mk.inj hz
        rw [if_pos rfl] at hrow'
        cases hrow'
        rw [Function.update_self]
        dsimp only
        omega
      · rw [if_neg hz] at hrow'
        rw [hnumber b' z hz]
        exact h.order b' y z row row' hrow hrow'
  case apart =>
    intro b' y z row row' hrow hrow' hseq
    rw [hget] at hrow hrow'
    by_cases hy : (b', y) = (b, x)
    · obtain ⟨rfl, rfl⟩ := Prod.mk.inj hy
      rw [if_pos rfl] at hrow
      cases hrow
      by_cases hz : (b', z) = (b', y)
      · exact (Prod.mk.inj hz).2.symm
      · rw [if_neg hz] at hrow'
        have hlt := (h.counted b' z row' hrow').1
        dsimp only at hseq
        omega
    · rw [if_neg hy] at hrow
      by_cases hz : (b', z) = (b, x)
      · obtain ⟨rfl, rfl⟩ := Prod.mk.inj hz
        rw [if_pos rfl] at hrow'
        cases hrow'
        have hlt := (h.counted b' y row hrow).1
        dsimp only at hseq
        omega
      · rw [if_neg hz] at hrow'
        exact h.apart b' y z row row' hrow hrow' hseq
  case counted =>
    intro b' y row hrow
    rw [hget] at hrow
    have hsequence : ({ t with sequence := t.sequence + 1 }.apply (.input b x)
        (.set (.input ⟨x, .pending, value, t.sequence⟩))).sequence = t.sequence + 1 := rfl
    rw [hsequence]
    by_cases hy : (b', y) = (b, x)
    · obtain ⟨rfl, rfl⟩ := Prod.mk.inj hy
      rw [if_pos rfl] at hrow
      cases hrow
      rw [Function.update_self, hcounted]
      exact ⟨Nat.lt_succ_self _, Nat.lt_succ_self _⟩
    · rw [if_neg hy] at hrow
      obtain ⟨h₁, h₂⟩ := h.counted b' y row hrow
      have hle := hcounter b'
      rw [hnumber b' y hy]
      omega

/-! Marking rows, in both. -/

theorem get?_marks (status : InputStatus) (keep : InputStatus → Bool) (xs : List String)
    (b' y : String) :
    (xs.foldl (mark status keep b) s).inputs.get? (b', y) = (s.inputs.get? (b', y)).map (fun row =>
      if b' = b ∧ y ∈ xs ∧ keep row.status = false then ⟨y, status, row.value, row.sequence⟩
      else row) := by
  induction xs generalizing s with
  | nil => simp
  | cons x xs ih =>
    rw [List.foldl_cons, ih, get?_mark, Option.map_map]
    apply Option.map_congr
    intro row _
    by_cases he : (b', y) = (b, x)
    · obtain ⟨rfl, rfl⟩ := Prod.mk.inj he
      by_cases hkeep : keep row.status = false
      · simp [hkeep]
      · simp [hkeep]
    · have hx : b' = b → y ≠ x := fun hb hy => he (by rw [hb, hy])
      by_cases hb : b' = b
      · simp [hb, hx hb]
      · simp [hb]

theorem marks_counters (status : InputStatus) (keep : InputStatus → Bool) (xs : List String) :
    (xs.foldl (mark status keep b) s).inputSequence = s.inputSequence := by
  induction xs generalizing s with
  | nil => rfl
  | cons x xs ih =>
    rw [List.foldl_cons, ih]
    unfold mark
    split
    · rfl
    · split <;> rfl

/-- What one statement does with a row it marks. -/
def marking (status : InputStatus) (keep : InputStatus → Bool) : PgRow V → Change (PgRow V)
  | .input record => if keep record.status then .leave else .set (.input { record with status })
  | _ => .leave

variable [DecidableEq V]

/-- The rows a table shows once some are marked. -/
theorem onTables_mark (status : InputStatus) (keep : InputStatus → Bool) (xs : List String)
    (t : Tables V) (hrows : ∀ x, t.row (.input b x) = none ∨
      ∃ record, t.row (.input b x) = some (.input record)) :
    ∃ t', PostgresSteps.onTables (PostgresSteps.mark status keep b xs) t = (.ok (), t') ∧
      t'.sequence = t.sequence ∧ (∀ k, (∀ x, k ≠ .input b x) → t'.row k = t.row k) ∧
      ∀ x, t'.row (.input b x) = (t.row (.input b x)).map (fun row => match row with
        | .input record => if x ∈ xs ∧ keep record.status = false then .input { record with status }
          else .input record
        | other => other) := by
  induction xs generalizing t with
  | nil =>
    refine ⟨t, rfl, rfl, fun _ _ => rfl, ?_⟩
    intro x
    rcases hrows x with hrow | ⟨record, hrow⟩ <;> simp [hrow]
  | cons x xs ih =>
    have hstep : PostgresSteps.onTables (PostgresSteps.mark status keep b (x :: xs)) t =
        PostgresSteps.onTables (PostgresSteps.mark status keep b xs)
          (t.change (.input b x) (marking status keep)).2 := rfl
    have hother : ∀ k, k ≠ .input b x →
        (t.change (.input b x) (marking status keep)).2.row k = t.row k := by
      intro k hk
      unfold Table.change
      split
      · rfl
      · split
        · rfl
        · unfold Table.apply
          split <;> simp [Function.update_of_ne hk]
    have hmine : (t.change (.input b x) (marking status keep)).2.row (.input b x) =
        (t.row (.input b x)).map (fun row => match row with
          | .input record => if keep record.status = false then .input { record with status }
            else .input record
          | other => other) := by
      unfold Table.change
      rcases hrows x with hrow | ⟨record, hrow⟩
      · simp [hrow]
      · rw [hrow]
        by_cases hkeep : keep record.status = false
        · simp [marking, hkeep, Table.apply]
        · simp [marking, hkeep, hrow]
    have hsequence : (t.change (.input b x) (marking status keep)).2.sequence = t.sequence := by
      unfold Table.change
      split
      · rfl
      · split
        · rfl
        · unfold Table.apply
          split <;> rfl
    obtain ⟨t', heval, hn, hframe, hmarked⟩ := ih (t.change (.input b x) (marking status keep)).2 (by
      intro y
      by_cases hy : y = x
      · subst hy
        rw [hmine]
        rcases hrows y with hrow | ⟨record, hrow⟩
        · exact .inl (by simp [hrow])
        · refine .inr ?_
          rw [hrow]
          by_cases hkeep : keep record.status = false <;> simp [hkeep]
      · rw [hother _ (by simp [hy])]
        exact hrows y)
    refine ⟨t', hstep.trans heval, hn.trans hsequence, ?_, ?_⟩
    · intro k hk
      rw [hframe k hk, hother k (hk x)]
    · intro y
      rw [hmarked]
      by_cases hy : y = x
      · subst hy
        rw [hmine, Option.map_map]
        rcases hrows y with hrow | ⟨record, hrow⟩
        · simp [hrow]
        · rw [hrow]
          by_cases hkeep : keep record.status = false
          · by_cases hmem : y ∈ xs <;> simp [hkeep, hmem]
          · simp [hkeep]
      · rw [hother _ (by simp [hy])]
        rcases hrows y with hrow | ⟨record, hrow⟩ <;> simp [hrow, hy]

/-- Marking rows leaves the tables showing what it leaves in memory, whichever ids repeat. -/
theorem Mirrors.marks (h : Mirrors s t number low) (status : InputStatus)
    (keep : InputStatus → Bool) {xs xs' : List String} (hxs : ∀ x, x ∈ xs ↔ x ∈ xs') :
    ∃ t', PostgresSteps.onTables (PostgresSteps.mark status keep b xs') t = (.ok (), t') ∧
      Mirrors (xs.foldl (MemorySteps.mark status keep b) s) t' number low := by
  have hrows : ∀ x, t.row (.input b x) = none ∨
      ∃ record, t.row (.input b x) = some (.input record) := by
    intro x
    rw [h.input]
    cases s.inputs.get? (b, x) with
    | none => exact .inl rfl
    | some row => exact .inr ⟨_, rfl⟩
  obtain ⟨t', heval, hn, hframe, hmarked⟩ := onTables_mark status keep xs' t hrows
  obtain ⟨htokens, hleases⟩ := foldl_mark_same (s := s) (b := b) status keep xs
  refine ⟨t', heval, h.remark (fun x row => if x ∈ xs ∧ keep row.status = false then status
    else row.status) (foldl_mark_entries _ _ _ _) hleases htokens (marks_counters _ _ _) ?_ hframe
    ?_ hn⟩
  · intro b' x
    rw [get?_marks]
    apply Option.map_congr
    intro row hrow
    have hid := h.labelled b' x row hrow
    by_cases hb : b' = b
    · by_cases hmem : x ∈ xs ∧ keep row.status = false
      · rw [if_pos ⟨hb, hmem⟩, if_pos hb, if_pos hmem, hid]
      · simp [hb, hmem]
    · simp [hb]
  · intro x
    rw [hmarked, h.input, Option.map_map]
    apply Option.map_congr
    intro row _
    simp only [Function.comp_apply, hxs x]
    split <;> rfl

/-! Transitions, in both. -/

variable [BEq V]

theorem onTables_completeEffect (h : Mirrors s t number low) (value : V) (expected : Expected) :
    PostgresSteps.onTables (PostgresSteps.completeEffect b k value expected) t =
      match s.step b k with
      | .done recorded => if recorded == value then (.ok (), t) else
          (.error (.store (.effectConflict b k "a different result is already committed")), t)
      | undone => if undone.status = expected.status then
          (.ok (), t.apply (.step b k) (.set (.step (.done value))))
        else (.error (.store (.effectConflict b k
          s!"expected '{expected.status}', found '{undone.status}'")), t) := by
  have hrow := h.row b k
  have hstep := h.stepOf b k
  have hread : PostgresSteps.onTables (PostgresSteps.writeEffect b k value expected) t =
        (.ok false, t) →
      PostgresSteps.onTables (PostgresSteps.completeEffect b k value expected) t =
        match s.step b k with
        | .done recorded => if recorded == value then (.ok (), t) else
            (.error (.store (.effectConflict b k "a different result is already committed")), t)
        | undone => (.error (.store (.effectConflict b k
            s!"expected '{expected.status}', found '{undone.status}'")), t) := by
    intro hwrite
    unfold PostgresSteps.completeEffect
    rw [Prog.bind_eq, PostgresSteps.onTables_then hwrite, if_neg (by simp), Prog.bind_eq,
      PostgresSteps.onTables_then (PostgresSteps.onTables_selectRow _), hstep]
    cases s.step b k with
    | done recorded =>
      by_cases hsame : (recorded == value) = true
      · simp only [if_pos hsame]
        rfl
      · simp only [if_neg hsame]
        rfl
    | absent | running => rfl
  have hdone : ∀ t', PostgresSteps.onTables (PostgresSteps.writeEffect b k value expected) t =
        (.ok true, t') →
      PostgresSteps.onTables (PostgresSteps.completeEffect b k value expected) t = (.ok (), t') := by
    intro t' hwrite
    unfold PostgresSteps.completeEffect
    rw [Prog.bind_eq, PostgresSteps.onTables_then hwrite, if_pos rfl]
    rfl
  cases expected with
  | absent =>
    have hwrite : PostgresSteps.onTables (PostgresSteps.writeEffect b k value .absent) t = _ :=
      PostgresSteps.onTables_insertRow _ _
    rw [hrow] at hwrite
    cases hst : s.step b k with
    | absent =>
      rw [hst] at hwrite
      exact hdone _ hwrite
    | running | done =>
      rw [hst] at hwrite
      have hgo := hread hwrite
      rw [hst] at hgo
      exact hgo
  | running =>
    have hwrite : PostgresSteps.onTables (PostgresSteps.writeEffect b k value .running) t = _ :=
      PostgresSteps.onTables_changeRow _ _
    unfold Table.change at hwrite
    rw [hrow] at hwrite
    cases hst : s.step b k with
    | running =>
      rw [hst] at hwrite
      exact hdone _ hwrite
    | absent | done =>
      rw [hst] at hwrite
      have hgo := hread hwrite
      rw [hst] at hgo
      exact hgo

/-- Completing effects whose keys are distinct comes to what checking them all at first does. By
induction on the effects, with those before them already written in one of the two. -/
theorem onTables_completeEffects {s₁ : MemorySteps V} {effects : List (EffectCompletion V)}
    (seen : List String) (completed : List (String × V))
    (hnodup : (effects.map EffectCompletion.key).Nodup)
    (hnew : ∀ effect ∈ effects, effect.key ∉ seen) (h : Mirrors s₁ t number low)
    (hsame : ∀ effect ∈ effects, s₁.step b effect.key = s.step b effect.key) :
    match s.checkEffects b effects seen completed with
    | .error e => ∃ t', t'.sequence = t.sequence ∧
        PostgresSteps.onTables (PostgresSteps.completeEffects b effects) t = (.error (.store e), t')
    | .ok checked => ∃ t' more, checked.2 = completed ++ more ∧ t'.sequence = t.sequence ∧
        Mirrors (putAll b more s₁) t' number low ∧
        PostgresSteps.onTables (PostgresSteps.completeEffects b effects) t = (.ok (), t') := by
  induction effects generalizing seen completed s₁ t with
  | nil => exact ⟨t, [], by simp, rfl, h, rfl⟩
  | cons effect effects ih =>
    obtain ⟨hfirst, hrest⟩ := List.nodup_cons.mp hnodup
    have hlater : ∀ later ∈ effects, later.key ∉ seen ++ [effect.key] := by
      intro later hmem hkey
      rcases List.mem_append.mp hkey with hkey | hkey
      · exact hnew later (List.mem_cons_of_mem _ hmem) hkey
      · rw [List.mem_singleton] at hkey
        exact hfirst (hkey ▸ List.mem_map_of_mem hmem)
    have hstep : PostgresSteps.completeEffects b (effect :: effects) =
        (PostgresSteps.completeEffect b effect.key effect.value effect.expected).bind
          (fun _ => PostgresSteps.completeEffects b effects) := rfl
    rw [hstep, PostgresSteps.onTables_bind, onTables_completeEffect h,
      hsame effect List.mem_cons_self]
    unfold checkEffects
    rw [if_neg (hnew effect List.mem_cons_self)]
    -- An undone effect that is as expected is written here, and noted there.
    have hwritten : match s.checkEffects b effects (seen ++ [effect.key])
          (completed ++ [(effect.key, effect.value)]) with
        | .error e => ∃ t', t'.sequence = t.sequence ∧ PostgresSteps.onTables
            (PostgresSteps.completeEffects b effects)
            (t.apply (.step b effect.key) (.set (.step (.done effect.value)))) =
            (.error (.store e), t')
        | .ok checked => ∃ t' more, checked.2 = completed ++ more ∧ t'.sequence = t.sequence ∧
            Mirrors (putAll b more s₁) t' number low ∧ PostgresSteps.onTables
            (PostgresSteps.completeEffects b effects)
            (t.apply (.step b effect.key) (.set (.step (.done effect.value)))) = (.ok (), t') := by
      have hput : Mirrors (s₁.put b effect.key (.done effect.value))
          (t.apply (.step b effect.key) (.set (.step (.done effect.value)))) number low :=
        h.put (fun hst => by cases hst)
      have hgo := ih _ (completed ++ [(effect.key, effect.value)]) hrest hlater hput (by
          intro later hmem
          have hne : (b, later.key) ≠ (b, effect.key) := by
            intro he
            exact hfirst ((Prod.mk.inj he).2 ▸ List.mem_map_of_mem hmem)
          rw [step_put, if_neg hne]
          exact hsame later (List.mem_cons_of_mem _ hmem))
      split
      · rename_i e he
        rw [he] at hgo
        exact hgo
      · rename_i checked he
        rw [he] at hgo
        obtain ⟨t', more, hmore, hn, hmirrors, heval⟩ := hgo
        exact ⟨t', (effect.key, effect.value) :: more, by simp [hmore], hn, hmirrors, heval⟩
    cases hst : s.step b effect.key with
    | done recorded =>
      by_cases hequal : (recorded == effect.value) = true
      · simp only [if_pos hequal]
        exact ih _ _ hrest hlater h (fun later hmem => hsame later (List.mem_cons_of_mem _ hmem))
      · simp only [if_neg hequal]
        exact ⟨t, rfl, rfl⟩
    | absent =>
      by_cases hexpected : (Step.absent : Step V).status = effect.expected.status
      · simp only [if_pos hexpected]
        exact hwritten
      · simp only [if_neg hexpected]
        exact ⟨t, rfl, rfl⟩
    | running =>
      by_cases hexpected : (Step.running : Step V).status = effect.expected.status
      · simp only [if_pos hexpected]
        exact hwritten
      · simp only [if_neg hexpected]
        exact ⟨t, rfl, rfl⟩

omit [BEq V] in
theorem onTables_putControls (h : Mirrors s t number low) (items : List (String × V)) :
    ∃ t', t'.sequence = t.sequence ∧ Mirrors (putAll b items s) t' number low ∧
      PostgresSteps.onTables (PostgresSteps.putControls b items) t = (.ok (), t') := by
  induction items generalizing s t with
  | nil => exact ⟨t, rfl, h, rfl⟩
  | cons item items ih =>
    have hput : Mirrors (s.put b item.1 (.done item.2))
        (t.apply (.step b item.1) (.set (.step (.done item.2)))) number low :=
      h.put (fun hst => by cases hst)
    obtain ⟨t', hn, hmirrors, heval⟩ := ih hput
    refine ⟨t', hn, hmirrors, ?_⟩
    exact (PostgresSteps.onTables_then (PostgresSteps.onTables_putControl item.2)).trans heval

omit [BEq V] in
theorem onTables_insertInputs (h : Mirrors s t number low) (items : List (String × V))
    (inserted : List String) :
    ∃ t' number', Mirrors (insertInputs b items s inserted).2 t' number' low ∧
      PostgresSteps.onTables (PostgresSteps.insertInputs b items inserted) t =
        (.ok (insertInputs b items s inserted).1, t') := by
  induction items generalizing s t number inserted with
  | nil => exact ⟨t, number, h, rfl⟩
  | cons item items ih =>
    obtain ⟨x, value⟩ := item
    have hone := PostgresSteps.onTables_insertInput (b := b) (t := t) x value
    rw [h.input] at hone
    unfold insertInputs
    cases hrow : s.inputs.get? (b, x) with
    | some row =>
      rw [hrow] at hone
      obtain ⟨t', number', hmirrors, heval⟩ := ih (h.sequence (Nat.le_succ _)) inserted
      exact ⟨t', number', hmirrors, (PostgresSteps.onTables_then hone).trans heval⟩
    | none =>
      rw [hrow] at hone
      obtain ⟨t', number', hmirrors, heval⟩ := ih (h.inserted value hrow) (inserted ++ [x])
      exact ⟨t', number', hmirrors, (PostgresSteps.onTables_then hone).trans heval⟩

/-! One call, in both. -/

/-- What a call comes to on the tables: the same, and they mirror it; an exception changes nothing
in either. -/
inductive Comes (c : Call V) (now : ℚ) (t : Tables V) :
    Except StoreError c.Reply × MemorySteps V → Except PgError c.Reply × Tables V → Prop
  | returned {a a' s' t' number} (tells : Tells c a a') (mirrors : Mirrors s' t' number now) :
      Comes c now t (.ok a, s') (.ok a', t')
  | failed {e e' s' t' number} (same : raised e = raised e') (sequence : t'.sequence = t.sequence)
      (mirrors : Mirrors s' t number now) : Comes c now t (.error e, s') (.error (.store e'), t')

/-- And so in the two ledgers. -/
def Settles (c : Call V) (now : ℚ) (memory : Except StoreError c.Reply × MemorySteps V)
    (database : Except PgError c.Reply × Solo V) : Prop :=
  Alike c memory.1 database.1 ∧
    ∃ t number, database.2.Rests () t ∧ Mirrors memory.2 t number now

variable {c : Call V} {now : ℚ} {db : Solo V} {τ : Nat}

omit [BEq V] in
theorem settles {body : Pg V c.Reply} {memory : Except StoreError c.Reply × MemorySteps V}
    (hbody : body.AllOps Sql.Single) (hdb : db.Rests () t)
    (h : Comes c now t memory (PostgresSteps.onTables body t)) :
    Settles c now memory ((PostgresSteps.connection body).eval (Database.alone ()) db) := by
  obtain ⟨hreply, hrests⟩ := PostgresSteps.connection_alone hbody hdb
  unfold Settles
  rw [hreply]
  cases hr : PostgresSteps.onTables body t with
  | mk r t' =>
    rw [hr] at h hrests
    cases h with
    | returned tells mirrors => exact ⟨tells, _, _, hrests, mirrors⟩
    | @failed _ _ _ _ number same sequence mirrors =>
      refine ⟨same, { t with sequence := t'.sequence }, number, hrests, ?_⟩
      exact mirrors.sequence (le_of_eq sequence.symm)

omit [BEq V] in
/-- Both check the same fence first. -/
theorem comes_fenced {body : Pg V c.Reply} {write : Except StoreError c.Reply × MemorySteps V}
    (h : Mirrors s t number now)
    (hwrite : ¬ Stale s b τ → Comes c now t write (PostgresSteps.onTables body t)) :
    Comes c now t (s.fenced b τ write)
      (PostgresSteps.onTables ((PostgresSteps.fence b τ).bind (fun _ => body)) t) := by
  rw [PostgresSteps.onTables_fenced, h.issued]
  by_cases hstale : τ ≠ 0 ∧ τ < s.issued b
  · rw [fenced_stale hstale.1 hstale.2, if_pos hstale]
    exact .failed rfl rfl h
  · have hcurrent : τ = 0 ∨ s.issued b ≤ τ := by omega
    rw [fenced_ok hcurrent, if_neg hstale]
    exact hwrite hstale

omit [BEq V] [DecidableEq V] in
theorem single_fenced {body : Pg V c.Reply} (hbody : body.AllOps Sql.Single) :
    ((PostgresSteps.fence b τ).bind (fun _ => body)).AllOps Sql.Single :=
  Prog.allOps_bind PostgresSteps.single_fence (fun _ => hbody)

theorem settles_acquire {owner : String} {ttl : ℚ} (h : Mirrors s t number now)
    (hdb : db.Rests () t) (howner : owner ≠ "")
    (hmeets : ∀ held, s.leases.get? b = some held → held.owner = owner ∨
      (held.owner = "" ∧ 0 < now) ∨ (held.owner ≠ "" ∧ held.deadline ≠ now)) :
    Settles (.acquire b owner ttl) now
      (.ok (s.acquire b owner ttl now now).1, (s.acquire b owner ttl now now).2)
      (transact now (.acquire b owner ttl) db) := by
  apply settles _ hdb
  · have hevaluated := PostgresSteps.onTables_upsertRow (t := t) (.lease b)
      (PostgresSteps.grant owner ttl now)
    rw [Prog.bind_eq, PostgresSteps.onTables_then hevaluated, h.lease]
    have hissued := h.token b
    -- Both give the lease out under the next token, or again under the holder's.
    have hgranted : ∀ (token : Nat) (s' : MemorySteps V), s'.entries = s.entries →
        s'.inputs = s.inputs → s'.inputSequence = s.inputSequence →
        s'.leases = s.leases.insert b ⟨owner, token, now + ttl⟩ →
        (∀ b', s'.issued b' = if b' = b then token else s.issued b') →
        Mirrors s' (t.apply (.lease b) (.set (.lease ⟨owner, token, now + ttl⟩))) number now := by
      intro token s' hentries hinputs hsequence hleases htokens
      have hshown : (.lease ⟨owner, token, now + ttl⟩ : PgRow V) =
          shown ⟨owner, token, now + ttl⟩ := by
        simp [shown, howner]
      rw [hshown]
      exact h.relet hentries hinputs hsequence hleases htokens (fun he => absurd he howner)
    have hnext : ∀ (token : Nat) (b' : String), MemorySteps.issued { s with
          tokens := s.tokens.insert b token
          leases := s.leases.insert b ⟨owner, token, now + ttl⟩ } b' =
        if b' = b then token else s.issued b' := by
      intro token b'
      simp only [issued, Dict.get?_insert]
      split <;> rfl
    unfold acquire
    cases hheld : s.leases.get? b with
    | none =>
      rw [hheld] at hissued
      simp only [Option.map_none, Option.getD_none] at hissued
      rw [hissued]
      exact .returned rfl (hgranted 1 _ rfl rfl rfl rfl (hnext 1))
    | some held =>
      rw [hheld] at hissued
      simp only [Option.map_some, Option.getD_some] at hissued
      have hrow : PostgresSteps.grant owner ttl now (some (shown held : PgRow V)) =
          if held.owner = owner ∨ (if held.owner = "" then 0 else held.deadline) < now then
            .set (.lease ⟨owner, held.token + (if held.owner = owner then 0 else 1), now + ttl⟩)
          else .lock := rfl
      simp only [Option.map_some, hrow]
      by_cases hown : held.owner = owner
      · simp only [hown, true_or, ↓reduceIte, Nat.add_zero]
        have hrenewed : ∀ b', MemorySteps.issued { s with
              leases := s.leases.insert b ⟨owner, held.token, now + ttl⟩ } b' =
            if b' = b then held.token else s.issued b' := by
          intro b'
          split
          · rename_i hb
            rw [hb]
            exact hissued
          · rfl
        exact .returned rfl (hgranted held.token _ rfl rfl rfl rfl hrenewed)
      · have hexpired : (if held.owner = "" then 0 else held.deadline) < now ↔
            held.deadline ≤ now := by
          rcases hmeets held hheld with hmeets | ⟨hempty, hpast⟩ | ⟨hnonempty, hne⟩
          · exact absurd hmeets hown
          · rw [if_pos hempty]
            exact iff_of_true hpast (h.released b held hheld hempty)
          · rw [if_neg hnonempty]
            exact ⟨le_of_lt, fun hle => lt_of_le_of_ne hle hne⟩
        simp only [hown, false_or, hexpired, ↓reduceIte, hissued]
        by_cases hle : held.deadline ≤ now
        · simp only [if_pos hle]
          exact .returned rfl (hgranted _ _ rfl rfl rfl rfl (hnext _))
        · simp only [if_neg hle]
          exact .returned rfl h
  · apply Prog.allOps_bind (PostgresSteps.single_upsertRow _ _)
    intro found
    trivial

theorem settles_release {owner : String} (h : Mirrors s t number now) (hdb : db.Rests () t) :
    Settles (.release b owner) now (.ok (), s.release b owner now)
      (transact now (.release b owner) db) := by
  apply settles _ hdb
  · have hevaluated := PostgresSteps.onTables_changeRow (t := t) (.lease b)
      (PostgresSteps.expire owner)
    rw [Prog.bind_eq, PostgresSteps.onTables_then hevaluated]
    have hexpired : Mirrors (s.release b owner now)
        (t.change (.lease b) (PostgresSteps.expire owner)).2 number now := by
      unfold release Table.change
      rw [h.lease]
      cases hheld : s.leases.get? b with
      | none => exact h
      | some held =>
        have hrow : PostgresSteps.expire owner (shown held : PgRow V) =
            if held.owner = owner then .set (.lease ⟨"", held.token, 0⟩) else .leave := rfl
        simp only [Option.map_some, hrow]
        by_cases hown : held.owner = owner
        · simp only [if_pos hown, reduceCtorEq, ↓reduceIte]
          have hshown : (.lease ⟨"", held.token, 0⟩ : PgRow V) = shown ⟨"", held.token, now⟩ := rfl
          rw [hshown]
          apply h.relet
          · rfl
          · rfl
          · rfl
          · rfl
          · intro b'
            split
            · rename_i hb
              rw [hb]
              change s.issued b = held.token
              rw [h.token, hheld]
              rfl
            · rfl
          · exact fun _ => le_rfl
        · simp only [if_neg hown, ↓reduceIte]
          exact h
    exact .returned rfl hexpired
  · apply Prog.allOps_bind (PostgresSteps.single_changeRow _ _)
    intro changed
    trivial

/-! The checks of a transition, in both. -/

omit [DecidableEq V] in
theorem check_contradicts {effect : EffectCompletion V} {effects : List (EffectCompletion V)}
    {seen : List String} (completed : List (String × V)) (hnew : effect.key ∉ seen)
    (h : Contradicts s b effect) :
    ∃ reason, s.checkEffects b (effect :: effects) seen completed =
      .error (.effectConflict b effect.key reason) := by
  unfold checkEffects
  rw [if_neg hnew]
  unfold Contradicts at h
  cases hst : s.step b effect.key with
  | done recorded =>
    simp only [hst] at h
    simp [h]
  | absent | running =>
    simp only [hst] at h
    simp [h]

omit [DecidableEq V] in
theorem check_passes {effect : EffectCompletion V} {effects : List (EffectCompletion V)}
    {seen : List String} (completed : List (String × V)) (hnew : effect.key ∉ seen)
    (h : ¬ Contradicts s b effect) :
    ∃ completed', s.checkEffects b (effect :: effects) seen completed =
      s.checkEffects b effects (seen ++ [effect.key]) completed' := by
  unfold Contradicts at h
  rw [checkEffects, if_neg hnew]
  cases hst : s.step b effect.key with
  | done recorded =>
    simp only [hst, Bool.not_eq_false] at h
    exact ⟨completed, by simp [h]⟩
  | absent | running =>
    simp only [hst, ne_eq, not_not] at h
    exact ⟨completed ++ [(effect.key, effect.value)], by simp only [h, ↓reduceIte]⟩

omit [DecidableEq V] in
/-- A step contradicted before a key repeats is noticed first in memory. -/
theorem check_conflict {effects : List (EffectCompletion V)} (seen : List String)
    (completed : List (String × V))
    (h : ∃ effect ∈ unrepeated effects seen, Contradicts s b effect) :
    ∃ k reason, s.checkEffects b effects seen completed = .error (.effectConflict b k reason) := by
  induction effects generalizing seen completed with
  | nil =>
    obtain ⟨effect, hmem, -⟩ := h
    cases hmem
  | cons effect effects ih =>
    unfold unrepeated at h
    by_cases hnew : effect.key ∈ seen
    · rw [if_pos hnew] at h
      obtain ⟨later, hmem, -⟩ := h
      cases hmem
    · rw [if_neg hnew] at h
      by_cases hfirst : Contradicts s b effect
      · obtain ⟨reason, hcheck⟩ := check_contradicts completed hnew hfirst
        exact ⟨_, reason, hcheck⟩
      · obtain ⟨completed', hcheck⟩ := check_passes completed hnew hfirst
        obtain ⟨later, hmem, hlater⟩ := h
        rw [hcheck]
        rcases List.mem_cons.mp hmem with rfl | hmem
        · exact absurd hlater hfirst
        · exact ih _ completed' ⟨later, hmem, hlater⟩

omit [DecidableEq V] in
/-- A repeated key is refused by both, in memory as long as nothing is contradicted before. -/
theorem check_repeated {effects : List (EffectCompletion V)} (seen : List String)
    (completed : List (String × V)) (h : (∃ effect ∈ effects, effect.key ∈ seen) ∨
      ¬ (effects.map EffectCompletion.key).Nodup) :
    ∃ message, PostgresSteps.effectKeys effects seen = .error (.valueError message) ∧
      ((∀ effect ∈ unrepeated effects seen, ¬ Contradicts s b effect) →
        s.checkEffects b effects seen completed = .error (.valueError message)) := by
  induction effects generalizing seen completed with
  | nil => simp at h
  | cons effect effects ih =>
    by_cases hnew : effect.key ∈ seen
    · refine ⟨_, by rw [PostgresSteps.effectKeys, if_pos hnew], ?_⟩
      intro _
      rw [checkEffects, if_pos hnew]
    · have hlater : (∃ later ∈ effects, later.key ∈ seen ++ [effect.key]) ∨
          ¬ (effects.map EffectCompletion.key).Nodup := by
        rcases h with ⟨later, hmem, hkey⟩ | hrepeats
        · rcases List.mem_cons.mp hmem with rfl | hmem
          · exact absurd hkey hnew
          · exact .inl ⟨later, hmem, List.mem_append_left _ hkey⟩
        · rw [List.map_cons, List.nodup_cons, not_and_or, not_not] at hrepeats
          rcases hrepeats with hkey | hrepeats
          · obtain ⟨later, hmem, hkey⟩ := List.mem_map.mp hkey
            exact .inl ⟨later, hmem, by simp [hkey]⟩
          · exact .inr hrepeats
      by_cases hfirst : Contradicts s b effect
      · obtain ⟨message, hkeys, -⟩ := ih (seen ++ [effect.key]) completed hlater
        refine ⟨message, by rw [PostgresSteps.effectKeys, if_neg hnew, hkeys], ?_⟩
        intro hmeets
        unfold unrepeated at hmeets
        rw [if_neg hnew] at hmeets
        exact absurd hfirst (hmeets effect List.mem_cons_self)
      · obtain ⟨completed', hcheck⟩ := check_passes completed hnew hfirst
        obtain ⟨message, hkeys, hrest⟩ := ih (seen ++ [effect.key]) completed' hlater
        refine ⟨message, by rw [PostgresSteps.effectKeys, if_neg hnew, hkeys], ?_⟩
        intro hmeets
        unfold unrepeated at hmeets
        rw [if_neg hnew] at hmeets
        rw [hcheck]
        exact hrest (fun later hmem => hmeets later (List.mem_cons_of_mem _ hmem))

omit [DecidableEq V] [BEq V] in
theorem keys_distinct {effects : List (EffectCompletion V)} (seen : List String)
    (hnew : ∀ effect ∈ effects, effect.key ∉ seen)
    (hnodup : (effects.map EffectCompletion.key).Nodup) :
    PostgresSteps.effectKeys effects seen = .ok (seen ++ effects.map EffectCompletion.key) ∧
      unrepeated effects seen = effects := by
  induction effects generalizing seen with
  | nil => simp [PostgresSteps.effectKeys, unrepeated]
  | cons effect effects ih =>
    obtain ⟨hfirst, hrest⟩ := List.nodup_cons.mp hnodup
    have hlater : ∀ later ∈ effects, later.key ∉ seen ++ [effect.key] := by
      intro later hmem hkey
      rcases List.mem_append.mp hkey with hkey | hkey
      · exact hnew later (List.mem_cons_of_mem _ hmem) hkey
      · rw [List.mem_singleton] at hkey
        exact hfirst (hkey ▸ List.mem_map_of_mem hmem)
    obtain ⟨hkeys, hsame⟩ := ih _ hlater hrest
    have hhead := hnew effect List.mem_cons_self
    rw [PostgresSteps.effectKeys, unrepeated, if_neg hhead, if_neg hhead, hkeys, hsame]
    simp

/-- The part of a transition that is behind the fence, in memory. -/
def transitioned (b : String) (tr : ExecutionTransition V) (s : MemorySteps V) :
    Except StoreError (List String) × MemorySteps V :=
  match s.checkEffects b tr.effects [] [] with
  | .error e => (.error e, s)
  | .ok (seen, completed) =>
    let overlap := seen.filter (fun key => key ∈ tr.controls.map Prod.fst)
    if overlap ≠ [] then
      (.error (.valueError ("transition classifies keys as both effect and control: " ++
        printed (overlap.insertionSort (· ≤ ·)))), s)
    else
      let written := putAll b tr.controls (putAll b completed s)
      let (inserted, after) := insertInputs b tr.inputs written []
      (.ok inserted, after)

/-- And in its transaction. -/
def transition (b : String) (tr : ExecutionTransition V) : Pg V (List String) :=
  match PostgresSteps.effectKeys tr.effects [] with
  | .error e => .raise (.store e)
  | .ok seen =>
    let overlap := seen.filter (fun key => key ∈ tr.controls.map Prod.fst)
    if overlap ≠ [] then
      .raise (.store (.valueError ("transition classifies keys as both effect and control: " ++
        printed (overlap.insertionSort (· ≤ ·)))))
    else do
      PostgresSteps.completeEffects b tr.effects
      PostgresSteps.putControls b tr.controls
      PostgresSteps.insertInputs b tr.inputs []

omit [DecidableEq V] in
theorem single_transition (tr : ExecutionTransition V) : (transition b tr).AllOps Sql.Single := by
  unfold transition
  split
  · trivial
  · dsimp only
    split
    · trivial
    · exact PostgresSteps.single_commit tr

omit [DecidableEq V] [BEq V] in
theorem overlap_iff (tr : ExecutionTransition V) :
    (tr.effects.map EffectCompletion.key).filter (fun key => key ∈ tr.controls.map Prod.fst) ≠ [] ↔
      Overlaps tr := by
  constructor
  · intro h
    obtain ⟨key, hkey⟩ := List.exists_mem_of_ne_nil _ h
    obtain ⟨hmem, hcontrol⟩ := List.mem_filter.mp hkey
    obtain ⟨effect, heffect, rfl⟩ := List.mem_map.mp hmem
    exact ⟨effect, heffect, by simpa using hcontrol⟩
  · intro ⟨effect, hmem, hcontrol⟩
    apply List.ne_nil_of_mem (a := effect.key)
    exact List.mem_filter.mpr ⟨List.mem_map_of_mem hmem, by simpa using hcontrol⟩

/-- A malformed transition is refused as such by the database, whatever else is wrong with it. -/
theorem transition_malformed {tr : ExecutionTransition V} (h : Repeats tr ∨ Overlaps tr)
    (t : Tables V) :
    ∃ message, PostgresSteps.onTables (transition b tr) t = (.error (.store (.valueError message)), t) ∧
      ((∀ effect ∈ unrepeated tr.effects [], ¬ Contradicts s b effect) →
        transitioned b tr s = (.error (.valueError message), s)) := by
  unfold transition transitioned
  by_cases hrepeats : Repeats tr
  · obtain ⟨message, hkeys, hcheck⟩ := check_repeated (s := s) (b := b) [] []
      (.inr hrepeats)
    refine ⟨message, by rw [hkeys]; rfl, ?_⟩
    intro hmeets
    rw [hcheck hmeets]
  · have hoverlap := h.resolve_left hrepeats
    have hnodup : (tr.effects.map EffectCompletion.key).Nodup := not_not.mp hrepeats
    obtain ⟨hkeys, hsame⟩ := keys_distinct [] (by simp) hnodup
    have hnonempty := (overlap_iff tr).mpr hoverlap
    rw [List.nil_append] at hkeys
    refine ⟨_, by rw [hkeys]; dsimp only; rw [if_pos hnonempty]; rfl, ?_⟩
    intro hmeets
    rw [hsame] at hmeets
    rw [check_ok [] [] (by simp) hnodup hmeets, List.nil_append]
    dsimp only
    rw [if_pos hnonempty]

theorem settles_commit {tr : ExecutionTransition V} (h : Mirrors s t number now)
    (hdb : db.Rests () t) (hmeets : Stale s b τ ∨ (Repeats tr ∨ Overlaps tr →
      ∀ effect ∈ unrepeated tr.effects [], ¬ Contradicts s b effect)) :
    Settles (.commitTransition b tr τ) now (s.commitTransition b tr τ)
      (transact now (.commitTransition b tr τ) db) := by
  apply settles (single_fenced (single_transition tr)) hdb
  apply comes_fenced h
  intro hcurrent
  change Comes (.commitTransition b tr τ) now t (transitioned b tr s)
    (PostgresSteps.onTables (transition b tr) t)
  by_cases hmalformed : Repeats tr ∨ Overlaps tr
  · obtain ⟨message, hrefused, hmemory⟩ := transition_malformed (s := s) (b := b) hmalformed t
    rw [hrefused, hmemory (hmeets.resolve_left hcurrent hmalformed)]
    exact .failed rfl rfl h
  · rw [not_or] at hmalformed
    have hnodup : (tr.effects.map EffectCompletion.key).Nodup := not_not.mp hmalformed.1
    have hdistinct : ¬ (tr.effects.map EffectCompletion.key).filter
        (fun key => key ∈ tr.controls.map Prod.fst) ≠ [] :=
      fun hne => hmalformed.2 ((overlap_iff tr).mp hne)
    obtain ⟨hkeys, -⟩ := keys_distinct [] (by simp) hnodup
    rw [List.nil_append] at hkeys
    have hbody : transition b tr = (PostgresSteps.completeEffects b tr.effects).bind (fun _ =>
        (PostgresSteps.putControls b tr.controls).bind (fun _ =>
          PostgresSteps.insertInputs b tr.inputs [])) := by
      unfold transition
      rw [hkeys]
      dsimp only
      rw [if_neg hdistinct]
      rfl
    have hcompared := onTables_completeEffects (s := s) (b := b) [] [] hnodup (by simp) h
      (fun _ _ => rfl)
    unfold transitioned
    rw [hbody, PostgresSteps.onTables_bind]
    cases hcheck : s.checkEffects b tr.effects [] [] with
    | error e =>
      rw [hcheck] at hcompared
      obtain ⟨t', hn, heval⟩ := hcompared
      rw [heval]
      exact .failed rfl hn h
    | ok checked =>
      have hmeet : ∀ effect ∈ tr.effects, ¬ Contradicts s b effect := by
        intro effect hmem hbad
        obtain ⟨e, he⟩ := check_error (s := s) (b := b) [] [] (.inr (.inr ⟨effect, hmem, hbad⟩))
        rw [hcheck] at he
        cases he
      have hok := check_ok (s := s) (b := b) [] [] (by simp) hnodup hmeet
      rw [hcheck] at hok
      cases hok
      rw [hcheck] at hcompared
      obtain ⟨t', more, hmore, -, hmirrors, heval⟩ := hcompared
      simp only [List.nil_append] at hmore
      subst hmore
      obtain ⟨t₂, -, hmirrors₂, heval₂⟩ := onTables_putControls hmirrors tr.controls
      obtain ⟨t₃, number₃, hmirrors₃, heval₃⟩ := onTables_insertInputs hmirrors₂ tr.inputs []
      simp only [List.nil_append]
      rw [heval, if_neg hdistinct]
      dsimp only
      rw [PostgresSteps.onTables_then heval₂, heval₃]
      exact .returned rfl hmirrors₃

omit [BEq V] in
/-- What claiming, admitting and discarding have in common. -/
theorem comes_marks {c : Call V} {a a' : c.Reply} (htells : Tells c a a') (status : InputStatus)
    (keep : InputStatus → Bool) {xs xs' : List String} (h : Mirrors s t number now)
    (hxs : ∀ x, x ∈ xs ↔ x ∈ xs') {body : Pg V c.Reply}
    (hbody : ∀ t', PostgresSteps.onTables (PostgresSteps.mark status keep b xs') t = (.ok (), t') →
      PostgresSteps.onTables body t = (.ok a', t')) :
    Comes c now t (.ok a, xs.foldl (mark status keep b) s) (PostgresSteps.onTables body t) := by
  obtain ⟨t', heval, hmirrors⟩ := h.marks (b := b) status keep hxs
  rw [hbody t' heval]
  exact .returned htells hmirrors

omit [BEq V] [DecidableEq V] in
theorem single_marks {status : InputStatus} {keep : InputStatus → Bool} {xs : List String} :
    ((PostgresSteps.fence b τ).bind (fun _ => PostgresSteps.statement.bind (fun _ =>
      PostgresSteps.mark status keep b xs)) : Pg V Unit).AllOps Sql.Single := by
  apply Prog.allOps_bind PostgresSteps.single_fence
  intro _
  exact Prog.allOps_bind ((Prog.allOps_op _).mpr trivial) (fun _ => PostgresSteps.single_mark _ _ _)

theorem settles_claim {x : String} (h : Mirrors s t number now) (hdb : db.Rests () t) :
    Settles (.claimInput b x τ) now (s.claimInput b x τ) (transact now (.claimInput b x τ) db) := by
  apply settles single_marks hdb
  apply comes_fenced h
  intro _
  have htells : Tells (.claimInput b x τ : Call V) () () := rfl
  have hone : ∀ y, y ∈ [x] ↔ y ∈ [x] := fun _ => Iff.rfl
  exact comes_marks (b := b) htells .claimed (fun st => st = .admitted ∨ st = .discarded) h hone
    (fun _ heval => heval)

theorem settles_admit {xs : List String} (h : Mirrors s t number now) (hdb : db.Rests () t)
    (hmeets : xs = [] → ¬ Stale s b τ) :
    Settles (.admitInputs b xs τ) now (s.admitInputs b xs τ)
      (transact now (.admitInputs b xs τ) db) := by
  by_cases hxs : xs = []
  · subst hxs
    have hcurrent : τ = 0 ∨ s.issued b ≤ τ := by
      have hmeets := hmeets rfl
      unfold Stale at hmeets
      omega
    unfold admitInputs
    rw [fenced_ok hcurrent]
    exact ⟨rfl, t, number, hdb, h⟩
  · have hmethod : (PostgresSteps.admitInputs b xs τ : Pg V Unit) = PostgresSteps.connection
        ((PostgresSteps.fence b τ).bind (fun _ => PostgresSteps.statement.bind (fun _ =>
          PostgresSteps.mark .admitted (fun st => st = .discarded) b xs.dedup))) := by
      unfold PostgresSteps.admitInputs
      rw [if_neg hxs]
      rfl
    change Settles (.admitInputs b xs τ) now (s.admitInputs b xs τ)
      ((PostgresSteps.admitInputs b xs τ).eval (Database.alone ()) db)
    rw [hmethod]
    apply settles single_marks hdb
    apply comes_fenced h
    intro _
    have htells : Tells (.admitInputs b xs τ : Call V) () () := rfl
    exact comes_marks htells .admitted _ h (fun _ => Iff.symm List.mem_dedup) (fun _ heval => heval)

theorem settles_discard {xs : List String} (h : Mirrors s t number now) (hdb : db.Rests () t)
    (hmeets : xs = [] → ¬ Stale s b τ) :
    Settles (.discardInputs b xs τ) now (s.discardInputs b xs τ)
      (transact now (.discardInputs b xs τ) db) := by
  by_cases hxs : xs = []
  · subst hxs
    have hcurrent : τ = 0 ∨ s.issued b ≤ τ := by
      have hmeets := hmeets rfl
      unfold Stale at hmeets
      omega
    unfold discardInputs
    rw [fenced_ok hcurrent]
    exact ⟨rfl, t, number, hdb, h⟩
  · have hmethod : (PostgresSteps.discardInputs b xs τ : Pg V Unit) = PostgresSteps.connection
        ((PostgresSteps.fence b τ).bind (fun _ => PostgresSteps.statement.bind (fun _ =>
          PostgresSteps.mark .discarded (fun _ => false) b xs.dedup))) := by
      unfold PostgresSteps.discardInputs
      rw [if_neg hxs]
      rfl
    change Settles (.discardInputs b xs τ) now (s.discardInputs b xs τ)
      ((PostgresSteps.discardInputs b xs τ).eval (Database.alone ()) db)
    rw [hmethod]
    apply settles single_marks hdb
    apply comes_fenced h
    intro _
    have htells : Tells (.discardInputs b xs τ : Call V) () () := rfl
    exact comes_marks htells .discarded _ h (fun _ => Iff.symm List.mem_dedup) (fun _ heval => heval)

omit [BEq V] [DecidableEq V] in
/-- A listing of the rows the tables show tells what the one in memory does. -/
theorem told_alike (h : Mirrors s t number now) {rows : List (InputRecord V)} (hnodup : rows.Nodup)
    (hmem : ∀ row, row ∈ rows ↔ ∃ x, t.row (.input b x) = some (.input row)) :
    (s.listInputs b).map told =
      (rows.insertionSort (fun row row' => row.sequence ≤ row'.sequence)).map told := by
  let renumbered (row : InputRecord V) : InputRecord V :=
    { row with sequence := number (b, row.inputId) }
  have hlabelled : Labelled (fun _ _ => True) b s :=
    fun x row hrow => ⟨h.labelled b x row hrow, trivial⟩
  have hids : ((s.listInputs b).map renumbered).map InputRecord.inputId =
      (s.listInputs b).map InputRecord.inputId := by
    rw [List.map_map]
    rfl
  have hperm : (s.listInputs b).map renumbered |>.Perm
      (rows.insertionSort (fun row row' => row.sequence ≤ row'.sequence)) := by
    apply List.Perm.trans _ (List.perm_insertionSort _ rows).symm
    apply (List.perm_ext_iff_of_nodup (List.Nodup.of_map InputRecord.inputId _) hnodup).mpr
    · intro row
      rw [List.mem_map, hmem]
      constructor
      · intro ⟨row', hrow', he⟩
        obtain ⟨x, hx⟩ := mem_listInputs.mp hrow'
        have hid := h.labelled b x row' hx
        refine ⟨x, ?_⟩
        rw [h.input, hx, ← he, ← hid]
        rfl
      · intro ⟨x, hx⟩
        rw [h.input] at hx
        obtain ⟨row', hrow', he⟩ := Option.map_eq_some_iff.mp hx
        have hid := h.labelled b x row' hrow'
        refine ⟨row', mem_listInputs.mpr ⟨x, hrow'⟩, ?_⟩
        cases he
        rw [← hid]
    · rw [hids]
      exact nodup_listInputs hlabelled
  have hsorted : ((s.listInputs b).map renumbered).Pairwise
      (fun row row' => row.sequence ≤ row'.sequence) := by
    rw [List.pairwise_map]
    have hlisted : (s.listInputs b).Pairwise (fun row row' => row.sequence ≤ row'.sequence) :=
      List.pairwise_insertionSort _ _
    apply hlisted.imp_of_mem
    intro row row' hrow hrow' hle
    obtain ⟨x, hx⟩ := mem_listInputs.mp hrow
    obtain ⟨y, hy⟩ := mem_listInputs.mp hrow'
    have hidx := h.labelled b x row hx
    have hidy := h.labelled b y row' hy
    have horder := h.order b y x row' row hy hx
    change number (b, row.inputId) ≤ number (b, row'.inputId)
    rw [hidx, hidy]
    omega
  have hsame : (s.listInputs b).map renumbered =
      rows.insertionSort (fun row row' => row.sequence ≤ row'.sequence) := by
    apply List.Perm.eq_of_pairwise _ hsorted (List.pairwise_insertionSort _ _) hperm
    intro row row' hrow hrow' hle hle'
    obtain ⟨row₁, hrow₁, rfl⟩ := List.mem_map.mp hrow
    obtain ⟨row₂, hrow₂, rfl⟩ := List.mem_map.mp (hperm.mem_iff.mpr hrow')
    obtain ⟨x, hx⟩ := mem_listInputs.mp hrow₁
    obtain ⟨y, hy⟩ := mem_listInputs.mp hrow₂
    have hidx := h.labelled b x row₁ hx
    have hidy := h.labelled b y row₂ hy
    have horder := h.order b x y row₁ row₂ hx hy
    have horder' := h.order b y x row₂ row₁ hy hx
    change number (b, row₁.inputId) ≤ number (b, row₂.inputId) at hle
    change number (b, row₂.inputId) ≤ number (b, row₁.inputId) at hle'
    rw [hidx, hidy] at hle hle'
    have hxy := h.apart b x y row₁ row₂ hx hy (by omega)
    subst hxy
    rw [hx] at hy
    cases hy
    rfl
  rw [← hsame, List.map_map]
  rfl

/-- The input a row holds. -/
def inputOf : PgRow V → Option (InputRecord V)
  | .input record => some record
  | _ => none

/-- The row is one of the branch's queue. -/
def queuedOn (b : String) : PgKey → Bool
  | .input b' _ => b' = b
  | _ => false

omit [BEq V] in
/-- The rows a listing finds. -/
theorem listInputs_alone (hdb : db.Rests () t)
    (hlabelled : ∀ x row, t.row (.input b x) = some (.input row) → row.inputId = x) :
    ∃ rows : List (InputRecord V), rows.Nodup ∧
      (∀ row, row ∈ rows ↔ ∃ x, t.row (.input b x) = some (.input row)) ∧
      ((PostgresSteps.listInputs b).eval (Database.alone ()) db).1 =
        .ok (rows.insertionSort (fun row row' => row.sequence ≤ row'.sequence)) ∧
      ((PostgresSteps.listInputs b).eval (Database.alone ()) db).2.Rests () t := by
  let found (item : PgKey × Version (PgRow V)) : Option (InputRecord V) := inputOf item.2.row
  let asked (item : PgKey × Version (PgRow V)) : Bool := queuedOn b item.1
  have hitem : ∀ item ∈ db.rows.items.filter asked, ∀ row ∈ found item, ∃ x,
      item.1 = .input b x ∧ t.row (.input b x) = some (.input row) := by
    intro item hkept row hrow
    obtain ⟨k, version⟩ := item
    obtain ⟨hmem, hasked⟩ := List.mem_filter.mp hkept
    cases k with
    | step | lease => cases hasked
    | input b' x =>
      obtain rfl : b' = b := of_decide_eq_true hasked
      refine ⟨x, rfl, ?_⟩
      rw [← hdb.row, (db.rows.mem_items _ _).mpr hmem]
      obtain ⟨born, shownRow⟩ := version
      cases shownRow with
      | input record =>
        cases hrow
        rfl
      | step | lease => cases hrow
  refine ⟨(db.rows.items.filter asked).filterMap found, ?_, ?_, ?_⟩
  · apply List.pairwise_filterMap.mpr
    have hkeys : (db.rows.items.filter asked).Pairwise (fun item item' => item.1 ≠ item'.1) :=
      List.pairwise_map.mp (db.rows.distinct.sublist (List.filter_sublist.map Prod.fst))
    apply hkeys.imp_of_mem
    intro item item' hmem hmem' hne row hrow row' hrow' he
    obtain ⟨x, hk, hx⟩ := hitem item hmem row hrow
    obtain ⟨y, hk', hy⟩ := hitem item' hmem' row' hrow'
    apply hne
    rw [hk, hk', ← hlabelled x row hx, ← hlabelled y row' hy, he]
  · intro row
    rw [List.mem_filterMap]
    constructor
    · intro hrow
      obtain ⟨item, hmem, hrow⟩ := hrow
      obtain ⟨x, -, hx⟩ := hitem item hmem row hrow
      exact ⟨x, hx⟩
    · intro hrow
      obtain ⟨x, hx⟩ := hrow
      rw [← hdb.row] at hx
      obtain ⟨version, hversion, hrow⟩ := Option.map_eq_some_iff.mp hx
      have hmem := (db.rows.mem_items _ _).mp hversion
      refine ⟨(.input b x, version), List.mem_filter.mpr ⟨hmem, decide_eq_true rfl⟩, ?_⟩
      simp only [found, hrow, inputOf]
  · let opened : Solo V := db.set () { db.sessions () with snapshot := some db.rows }
    have hopened : opened.Shows () t :=
      (hdb.shows.perform (ε := PgError) (o := .statement) trivial).2.1
    have hrun : (PostgresSteps.listInputs b).eval (Database.alone ()) db =
        (.ok (((((overlay db.rows (opened.sessions ()).writes).items.filter asked).map
          (fun item => item.2.row)).filterMap inputOf).insertionSort (fun row row' => row.sequence ≤ row'.sequence)),
          opened.commit ()) := rfl
    have hwrites : (opened.sessions ()).writes = .empty := by
      simp [opened, Database.set, hdb.session]
    rw [hrun, hwrites, List.filterMap_map]
    exact ⟨rfl, hopened.commit⟩

theorem settles_listInputs (h : Mirrors s t number now) (hdb : db.Rests () t) :
    Settles (.listInputs b) now (.ok (s.listInputs b), s) (transact now (.listInputs b) db) := by
  have hlabelled : ∀ x row, t.row (.input b x) = some (.input row) → row.inputId = x := by
    intro x row hrow
    rw [h.input] at hrow
    obtain ⟨row', hrow', he⟩ := Option.map_eq_some_iff.mp hrow
    cases he
    exact h.labelled b x row' hrow'
  obtain ⟨rows, hnodup, hmem, hreply, hrests⟩ := listInputs_alone hdb hlabelled
  have htold := told_alike h hnodup hmem
  refine ⟨?_, t, number, hrests, h⟩
  change Alike (.listInputs b) _ ((PostgresSteps.listInputs b).eval (Database.alone ()) db).1
  rw [hreply]
  exact htold

theorem settles_read (h : Mirrors s t number now) (hdb : db.Rests () t) :
    Settles (.read b k) now (.ok (s.read b k), s) (transact now (.read b k) db) := by
  apply settles _ hdb
  · rw [Prog.bind_eq, PostgresSteps.onTables_then (PostgresSteps.onTables_selectRow _), h.stepOf]
    exact .returned rfl h
  · exact Prog.allOps_bind (PostgresSteps.single_selectRow _) (fun _ => trivial)

theorem settles_start (h : Mirrors s t number now) (hdb : db.Rests () t) :
    Settles (.start b k τ) now (s.start b k τ) (transact now (.start b k τ) db) := by
  apply settles (single_fenced (PostgresSteps.single_insertRow _ _)) hdb
  apply comes_fenced h
  intro _
  rw [PostgresSteps.onTables_insertRow, h.step]
  cases s.entries.get? (b, k) with
  | none => exact .returned rfl (h.put (fun hst => by cases hst))
  | some st => exact .returned rfl h

theorem settles_finishEffect {value : V} (h : Mirrors s t number now) (hdb : db.Rests () t) :
    Settles (.finishEffect b k value τ) now (s.finishEffect b k value τ)
      (transact now (.finishEffect b k value τ) db) := by
  apply settles (single_fenced (PostgresSteps.single_completeEffect _ _)) hdb
  apply comes_fenced h
  intro _
  rw [onTables_completeEffect h]
  cases s.step b k with
  | absent => exact .failed rfl rfl h
  | running => exact .returned rfl (h.put (fun hst => by cases hst))
  | done recorded =>
    by_cases hsame : (recorded == value) = true
    · simp only [if_pos hsame]
      exact .returned rfl h
    · simp only [if_neg hsame]
      exact .failed rfl rfl h

theorem settles_writeControl {value : V} (h : Mirrors s t number now) (hdb : db.Rests () t) :
    Settles (.writeControl b k value τ) now (s.writeControl b k value τ)
      (transact now (.writeControl b k value τ) db) := by
  apply settles (single_fenced (PostgresSteps.single_putControl _)) hdb
  apply comes_fenced h
  intro _
  rw [PostgresSteps.onTables_putControl]
  exact .returned rfl (h.put (fun hst => by cases hst))

theorem settles_forget (h : Mirrors s t number now) (hdb : db.Rests () t) :
    Settles (.forget b k τ) now (s.forget b k τ) (transact now (.forget b k τ) db) := by
  apply settles (single_fenced _) hdb
  · apply comes_fenced h
    intro _
    rw [Prog.bind_eq, PostgresSteps.onTables_then (PostgresSteps.onTables_changeRow _ _)]
    have hrow := h.row b k
    unfold Table.change
    rw [hrow]
    cases hst : s.step b k with
    | absent =>
      rw [hst] at hrow
      have herased : t.apply (.step b k) .delete = t := by
        unfold Table.apply
        rw [Function.update_eq_self_iff.mpr hrow.symm]
      have hmirrors := h.erase (b := b) (k := k)
      rw [herased] at hmirrors
      exact .returned rfl hmirrors
    | running => exact .returned rfl h.erase
    | done recorded => exact .returned rfl h
  · apply Prog.allOps_bind (PostgresSteps.single_changeRow _ _)
    intro changed
    trivial

theorem settles_enqueueInput {x : String} {value : V} (h : Mirrors s t number now)
    (hdb : db.Rests () t) :
    Settles (.enqueueInput b x value) now
      (.ok (s.enqueueInput b x value).1, (s.enqueueInput b x value).2)
      (transact now (.enqueueInput b x value) db) := by
  apply settles (PostgresSteps.single_insertInput _ _) hdb
  rw [PostgresSteps.onTables_insertInput, h.input]
  unfold enqueueInput
  cases hrow : s.inputs.get? (b, x) with
  | none => exact .returned rfl (h.inserted value hrow)
  | some row => exact .returned rfl (h.sequence (Nat.le_succ _))

/-- A call that meets its condition is settled alike, and what it leaves is mirrored again. -/
theorem settles_call (h : Mirrors s t number now) (hdb : db.Rests () t)
    (howner : c.owner? ≠ some "") (hmeets : Meets s now c) :
    Settles c now (c.exec now now s) (transact now c db) := by
  cases c with
  | read => exact settles_read h hdb
  | start => exact settles_start h hdb
  | finishEffect => exact settles_finishEffect h hdb
  | writeControl => exact settles_writeControl h hdb
  | forget => exact settles_forget h hdb
  | acquire b owner ttl =>
    exact settles_acquire h hdb (fun he => howner (by rw [he]; rfl)) hmeets
  | release => exact settles_release h hdb
  | enqueueInput => exact settles_enqueueInput h hdb
  | listInputs => exact settles_listInputs h hdb
  | claimInput => exact settles_claim h hdb
  | admitInputs => exact settles_admit h hdb hmeets
  | discardInputs => exact settles_discard h hdb hmeets
  | commitTransition => exact settles_commit h hdb hmeets

/-- A lease asked for as it expires is given out in memory only. -/
theorem differs_acquire {owner : String} {ttl : ℚ} (h : Mirrors s t number now)
    (hdb : db.Rests () t) (hmeets : ¬ Meets s now (.acquire b owner ttl)) :
    ¬ Alike (.acquire b owner ttl) (Call.exec (.acquire b owner ttl) now now s).1
      (transact now (.acquire b owner ttl) db).1 := by
  unfold Meets at hmeets
  push Not at hmeets
  obtain ⟨held, hmem, hother, hempty, hnonempty⟩ := hmeets
  have hheld : s.leases.get? b = some held := hmem
  have hexpired : held.deadline ≤ now := by
    by_cases howner : held.owner = ""
    · exact h.released b held hheld howner
    · exact le_of_eq (hnonempty howner)
  have hgranted : (s.acquire b owner ttl now now).1 = s.issued b + 1 := by
    unfold acquire
    simp only [hheld, if_neg hother, if_pos hexpired]
  have hsingle := PostgresSteps.single_upsertRow (V := V) (.lease b)
    (PostgresSteps.grant owner ttl now)
  have hlocked : PostgresSteps.grant owner ttl now (t.row (.lease b)) = .lock := by
    rw [h.lease, hheld]
    have hheldOn : ¬ (held.owner = owner ∨
        (if held.owner = "" then 0 else held.deadline) < now) := by
      rw [not_or, not_lt]
      refine ⟨hother, ?_⟩
      split
      · rename_i howner
        exact hempty howner
      · rename_i howner
        exact le_of_eq (hnonempty howner).symm
    exact if_neg hheldOn
  have hrefused : (transact now (.acquire b owner ttl) db).1 = .ok 0 := by
    apply (PostgresSteps.connection_alone (Prog.allOps_bind hsingle (fun _ => by trivial)) hdb).1.trans
    rw [PostgresSteps.onTables_then (PostgresSteps.onTables_upsertRow _ _), hlocked]
    rfl
  intro halike
  rw [hrefused] at halike
  change (s.acquire b owner ttl now now).1 = 0 at halike
  omega

theorem differs (h : Mirrors s t number now) (hdb : db.Rests () t) (hmeets : ¬ Meets s now c) :
    ¬ Alike c (c.exec now now s).1 (transact now c db).1 := by
  cases c with
  | acquire => exact differs_acquire h hdb hmeets
  | admitInputs b xs τ =>
    unfold Meets at hmeets
    push Not at hmeets
    obtain ⟨rfl, hstale⟩ := hmeets
    change ¬ Alike (.admitInputs b [] τ) (s.admitInputs b [] τ).1 (.ok ())
    unfold admitInputs
    rw [fenced_stale hstale.1 hstale.2]
    exact id
  | discardInputs b xs τ =>
    unfold Meets at hmeets
    push Not at hmeets
    obtain ⟨rfl, hstale⟩ := hmeets
    change ¬ Alike (.discardInputs b [] τ) (s.discardInputs b [] τ).1 (.ok ())
    unfold discardInputs
    rw [fenced_stale hstale.1 hstale.2]
    exact id
  | commitTransition b tr τ =>
    unfold Meets at hmeets
    push Not at hmeets
    obtain ⟨hcurrent, hmalformed, hcontradicted⟩ := hmeets
    obtain ⟨k, reason, hcheck⟩ := check_conflict (s := s) (b := b) [] [] hcontradicted
    obtain ⟨message, hrefused, -⟩ := transition_malformed (s := s) (b := b) hmalformed t
    have hfresh : τ = 0 ∨ s.issued b ≤ τ := by
      unfold Stale at hcurrent
      omega
    have hmemory : (s.commitTransition b tr τ).1 = .error (.effectConflict b k reason) := by
      unfold commitTransition
      rw [fenced_ok hfresh, hcheck]
    have hbody : ((PostgresSteps.fence b τ).bind (fun _ => transition b tr)).AllOps Sql.Single :=
      Prog.allOps_bind PostgresSteps.single_fence (fun _ => single_transition tr)
    have hdatabase : (transact now (.commitTransition b tr τ) db).1 =
        .error (.store (.valueError message)) := by
      apply (PostgresSteps.connection_alone hbody hdb).1.trans
      rw [PostgresSteps.onTables_fenced, h.issued]
      unfold Stale at hcurrent
      rw [if_neg hcurrent, hrefused]
    change ¬ Alike (.commitTransition b tr τ) (s.commitTransition b tr τ).1 _
    rw [hmemory, hdatabase]
    simp [Alike, raised]
  | _ => exact absurd trivial hmeets

theorem Mirrors.same {low : ℚ} (h : Mirrors s t number low) (hdb : db.Rests () t) : Same s db := by
  constructor
  case step =>
    intro b k
    have hread : Alike (.read b k) (.ok (s.read b k)) (transact low (.read b k) db).1 :=
      (settles_read h hdb).1
    change (transact low (.read b k) db).1 = _
    cases hr : (transact low (.read b k) db).1 with
    | ok st =>
      rw [hr] at hread
      exact congrArg _ hread.symm
    | error e =>
      rw [hr] at hread
      exact hread.elim
  case token =>
    intro b
    rw [hdb.row]
    exact h.issued b
  case inputs => exact fun b => (settles_listInputs h hdb).1

/-- By induction on the calls: what each leaves is mirrored again, at its own instant. -/
theorem Mirrors.conforms {calls : List (Call V × ℚ)} {low : ℚ} (h : Mirrors s t number low)
    (hdb : db.Rests () t) (howners : ∀ timed ∈ calls, timed.1.owner? ≠ some "")
    (hlow : ∀ timed ∈ calls, low ≤ timed.2)
    (hclock : calls.Pairwise (fun timed later => timed.2 ≤ later.2)) :
    Conform s db calls ↔ AllMeet s calls := by
  induction calls generalizing s db t number low with
  | nil => exact iff_of_true (h.same hdb) trivial
  | cons timed calls ih =>
    obtain ⟨c, now⟩ := timed
    obtain ⟨hlater, hclock⟩ := List.pairwise_cons.mp hclock
    have hnow : Mirrors s t number now := h.later (hlow (c, now) List.mem_cons_self)
    have hrest : ∀ {s' : MemorySteps V} {db' : Solo V} {t' number'}, Mirrors s' t' number' now →
        db'.Rests () t' → (Conform s' db' calls ↔ AllMeet s' calls) := by
      intro s' db' t' number' h' hdb'
      exact ih h' hdb' (fun timed hmem => howners timed (List.mem_cons_of_mem _ hmem)) hlater hclock
    constructor
    · intro ⟨_, halike, hconform⟩
      have hmeets : Meets s now c := by_contra (fun hnot => differs hnow hdb hnot halike)
      obtain ⟨-, t', number', hdb', h'⟩ :=
        settles_call hnow hdb (howners (c, now) List.mem_cons_self) hmeets
      exact ⟨hmeets, (hrest h' hdb').mp hconform⟩
    · intro ⟨hmeets, hall⟩
      obtain ⟨halike, t', number', hdb', h'⟩ :=
        settles_call hnow hdb (howners (c, now) List.mem_cons_self) hmeets
      exact ⟨h.same hdb, halike, (hrest h' hdb').mpr hall⟩

/-- The two ledgers agree on a run of calls exactly when each of its calls meets its condition. -/
theorem conforms_iff {calls : List (Call V × ℚ)}
    (owners : ∀ timed ∈ calls, timed.1.owner? ≠ some "")
    (clock : calls.Pairwise (fun timed later => timed.2 ≤ later.2)) :
    Conform {} {} calls ↔ AllMeet {} calls := by
  have hempty : ({} : Solo V).Rests () ⟨fun _ => none, 0⟩ := ⟨fun _ => rfl, rfl, rfl⟩
  cases calls with
  | nil => exact (mirrors_empty (fun _ => 0) 0).conforms hempty owners (by simp) clock
  | cons timed calls =>
    apply (mirrors_empty (fun _ => 0) timed.2).conforms hempty owners _ clock
    intro later hmem
    rcases List.mem_cons.mp hmem with rfl | hmem
    · exact le_rfl
    · exact (List.pairwise_cons.mp clock).1 later hmem

end

/-- A tool call under a lease, and a takeover once that lease has expired. -/
def handover : List (Call Nat × ℚ) :=
  [(.acquire "run" "a" 5, 1), (.enqueueInput "run" "x" 3, 1), (.start "run" "tool:1" 1, 2),
    (.acquire "run" "b" 5, 7), (.finishEffect "run" "tool:1" 8 1, 7),
    (.commitTransition "run" ⟨[⟨"tool:1", 9, .running⟩], [("parked", 4)], [("y", 2)]⟩ 2, 8)]

theorem conforms_handover : Conform {} {} handover := by
  apply (conforms_iff _ _).mpr
  · decide +kernel
  · decide +kernel
  · decide +kernel

/-- A lease asked for at the instant it expires, nothing admitted under a stale token, and an effect
that is contradicted before its key repeats: each is answered differently. -/
theorem ledgers_differ :
    ¬ Conform {} {} [(.acquire "run" "a" 5, 1), ((.acquire "run" "b" 5 : Call Nat), 6)] ∧
    ¬ Conform {} {} [(.acquire "run" "a" 5, 1), (.acquire "run" "b" 5, 7),
      ((.admitInputs "run" [] 1 : Call Nat), 7)] ∧
    ¬ Conform {} {} [((.commitTransition "run"
      ⟨[⟨"tool:1", 8, .running⟩, ⟨"tool:1", 8, .running⟩], [], []⟩ 0 : Call Nat), 1)] := by
  refine ⟨?_, ?_, ?_⟩
  · intro ⟨_, _, _, halike, _⟩
    exact absurd halike (by decide +kernel)
  · intro ⟨_, _, _, _, _, halike, _⟩
    exact absurd halike (by decide +kernel)
  · intro ⟨_, halike, _⟩
    exact absurd halike (by decide +kernel)

end Semora.Proofs.Conformance
