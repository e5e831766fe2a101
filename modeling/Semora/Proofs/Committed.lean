import Semora.Lib.Returned
import Semora.Proofs.Inputs
import Semora.Proofs.Transactions

/-! What the PostgreSQL ledger has committed, whatever transactions run at the same time: rows only
move onward, and what a call was confirmed stays on record. -/

namespace Semora.Proofs.Committed
open Semora.Lib Semora.Store Semora.Store.PostgresSteps
open Semora.Proofs.Inputs (rank)
open Semora.Proofs.Transactions (Db transactions)

variable {V : Type}

/-- The row is one of its key's table. -/
def Typed : PgKey → Option (PgRow V) → Prop
  | .step .., row => ∀ r, row = some r → ∃ step, r = .step step
  | .lease .., row => ∀ r, row = some r → ∃ lease, r = .lease lease
  | .input .., row => ∀ r, row = some r → ∃ record, r = .input record

/-- What may become of a row: a result stays, a lease is never handed to another owner under its
token, an input is never lost, changed or less far along. Only control state is written over. -/
def Ahead (controls : String → String → V → Prop) :
    PgKey → Option (PgRow V) → Option (PgRow V) → Prop
  | .step b key, found, left => ∀ v, stepOf found = .done v →
      ∃ v', stepOf left = .done v' ∧ (v' = v ∨ controls b key v')
  | .lease _, found, left => ∀ held, found = some (.lease held) →
      ∃ held', left = some (.lease held') ∧ held.token ≤ held'.token ∧
        (held'.token = held.token → held'.owner = held.owner ∨ held'.owner = "")
  | .input .., found, left => ∀ record, found = some (.input record) →
      ∃ status, left = some (.input { record with status }) ∧ rank record.status ≤ rank status

/-- A row goes ahead, and stays in its table. -/
def Moves (controls : String → String → V → Prop) (k : PgKey) (found left : Option (PgRow V)) : Prop :=
  Ahead controls k found left ∧ (Typed k found → Typed k left)

/-- What a call writes over what it finds, whatever that is. -/
def controlWrites : Call V → List (String × V)
  | .writeControl _ key v _ => [(key, v)]
  | .commitTransition _ tr _ => tr.controls
  | _ => []

def Controls (c : Call V) (b key : String) (v : V) : Prop :=
  c.branchId = b ∧ (key, v) ∈ controlWrites c

/-- What the calls of a pool write over what they find. -/
def Controlled (call : Nat → Call V) (b key : String) (v : V) : Prop :=
  ∃ i, Controls (call i) b key v

section
variable {controls : String → String → V → Prop}

theorem preorders_moves : Preorders (Moves (V := V) controls) where
  refl k row := by
    refine ⟨?_, id⟩
    cases k with
    | step b key => exact fun v hv => ⟨v, hv, .inl rfl⟩
    | lease b => exact fun held hheld => ⟨held, hheld, Nat.le_refl _, fun _ => .inl rfl⟩
    | input b x => exact fun record hrecord => ⟨record.status, hrecord, Nat.le_refl _⟩
  trans k row row' row'' h h' := by
    refine ⟨?_, fun ht => h'.2 (h.2 ht)⟩
    obtain ⟨h, -⟩ := h
    obtain ⟨h', -⟩ := h'
    cases k with
    | step b key =>
      intro v hv
      obtain ⟨v', hv', hsame⟩ := h v hv
      obtain ⟨v'', hv'', hsame'⟩ := h' v' hv'
      refine ⟨v'', hv'', ?_⟩
      rcases hsame' with rfl | hcontrol
      · exact hsame
      · exact .inr hcontrol
    | lease b =>
      intro held hheld
      obtain ⟨held', hheld', hle, howner⟩ := h held hheld
      obtain ⟨held'', hheld'', hle', howner'⟩ := h' held' hheld'
      refine ⟨held'', hheld'', hle.trans hle', fun htoken => ?_⟩
      have hfirst : held'.token = held.token := by omega
      have hsecond : held''.token = held'.token := by omega
      rcases howner' hsecond with hsame | hnone
      · rw [hsame]
        exact howner hfirst
      · exact .inr hnone
    | input b x =>
      intro record hrecord
      obtain ⟨status, hstatus, hrank⟩ := h record hrecord
      obtain ⟨status', hstatus', hrank'⟩ := h' _ hstatus
      exact ⟨status', hstatus', hrank.trans hrank'⟩

/-! The statements of the methods. -/

/-- The rows a method leaves are ahead of those it finds. -/
abbrev Heeds (controls : String → String → V → Prop) {α : Type} (p : Pg V α) : Prop :=
  p.AllOps (Sql.Respects (Moves controls))

/-- An operation that writes no row. -/
theorem respects_reading {o : PgOp V} (hk : o.key? = none) : o.Respects (Moves controls) :=
  fun _ h => absurd (hk.symm.trans h) (by simp)

theorem respects_upsert {k : PgKey} {f : Option (PgRow V) → Change (PgRow V)}
    (h : ∀ found, Moves controls k found ((f found).result found)) :
    (Sql.upsert k f : PgOp V).Respects (Moves controls) := by
  intro k' hk found
  cases hk
  exact h found

theorem respects_change {k : PgKey} {f : PgRow V → Change (PgRow V)}
    (h : ∀ row, Moves controls k (some row) ((f row).result (some row))) :
    (Sql.change k f : PgOp V).Respects (Moves controls) := by
  intro k' hk found
  cases hk
  cases found with
  | none => exact preorders_moves.refl _ _
  | some row => exact h row

theorem typed_step {b key : String} {step : Step V} : Typed (.step b key) (some (.step step)) :=
  fun _ h => ⟨step, (Option.some.inj h).symm⟩

theorem typed_lease {b : String} {lease : Lease} :
    Typed (V := V) (.lease b) (some (.lease lease)) :=
  fun _ h => ⟨lease, (Option.some.inj h).symm⟩

theorem typed_input {b x : String} {record : InputRecord V} :
    Typed (.input b x) (some (.input record)) :=
  fun _ h => ⟨record, (Option.some.inj h).symm⟩

/-! What the bodies of the methods are made of. -/

theorem heeds_statement : Heeds controls (statement : Pg V Unit) :=
  (Prog.allOps_op _).mpr (respects_reading rfl)

theorem heeds_selectRow (k : PgKey) : Heeds controls (selectRow k : Pg V _) :=
  Prog.allOps_bind heeds_statement
    (fun _ => (Prog.allOps_op _).mpr (respects_reading rfl))

theorem heeds_upsertRow {k : PgKey} {f : Option (PgRow V) → Change (PgRow V)}
    (h : ∀ found, Moves controls k found ((f found).result found)) :
    Heeds controls (upsertRow k f) :=
  Prog.allOps_bind heeds_statement (fun _ => (Prog.allOps_op _).mpr (respects_upsert h))

theorem heeds_changeRow {k : PgKey} {f : PgRow V → Change (PgRow V)}
    (h : ∀ row, Moves controls k (some row) ((f row).result (some row))) :
    Heeds controls (changeRow k f) :=
  Prog.allOps_bind heeds_statement
    (fun _ => Prog.allOps_bind ((Prog.allOps_op _).mpr (respects_change h)) (fun _ => trivial))

/-- A row inserted where there is none. -/
theorem moves_new {k : PgKey} {row : PgRow V} (htyped : Typed k (some row)) :
    Moves controls k none (some row) := by
  refine ⟨?_, fun _ => htyped⟩
  cases k with
  | step b key => exact fun v hv => by cases hv
  | lease b => exact fun held hheld => (by cases hheld)
  | input b x => exact fun record hrecord => by cases hrecord

theorem heeds_insertRow {k : PgKey} {row : PgRow V} (htyped : Typed k (some row)) :
    Heeds controls (insertRow k row) := by
  refine Prog.allOps_bind (heeds_upsertRow (fun found => ?_)) (fun _ => trivial)
  cases found with
  | none => exact moves_new htyped
  | some _ => exact preorders_moves.refl _ _

theorem heeds_fence (b : String) (t : Nat) : Heeds controls (fence b t : Pg V Unit) := by
  unfold fence
  split
  · trivial
  · refine Prog.allOps_bind (heeds_selectRow _) (fun row => ?_)
    simp only
    split <;> trivial

/-- An intent may be finished, or given up. -/
theorem moves_running {b key : String} {left : Option (PgRow V)}
    (htyped : Typed (.step b key) left) :
    Moves controls (.step b key) (some (.step .running)) left :=
  ⟨fun _ hv => (by cases hv), fun _ => htyped⟩

theorem heeds_writeEffect (b key : String) (value : V) (expected : Expected) :
    Heeds controls (writeEffect b key value expected) := by
  cases expected with
  | absent => exact heeds_insertRow typed_step
  | running =>
    refine heeds_changeRow (fun row => ?_)
    split
    · exact moves_running typed_step
    · exact preorders_moves.refl _ _

theorem heeds_completeEffect [BEq V] (b key : String) (value : V) (expected : Expected) :
    Heeds controls (completeEffect b key value expected) := by
  refine Prog.allOps_bind (heeds_writeEffect b key value expected) (fun completed => ?_)
  split
  · trivial
  · refine Prog.allOps_bind (heeds_selectRow _) (fun row => ?_)
    cases stepOf row with
    | done recorded =>
      simp only
      split <;> trivial
    | absent | running => trivial

theorem heeds_putControl {b key : String} {value : V} (control : controls b key value) :
    Heeds controls (putControl b key value) := by
  refine Prog.allOps_bind (heeds_upsertRow (fun found => ⟨fun v _ => ?_, fun _ => typed_step⟩))
    (fun _ => trivial)
  exact ⟨value, rfl, .inr control⟩

theorem heeds_insertInput (b x : String) (value : V) :
    Heeds controls (insertInput b x value) :=
  Prog.allOps_bind ((Prog.allOps_op _).mpr (respects_reading rfl))
    (fun _ => heeds_insertRow typed_input)

theorem heeds_mark {status : InputStatus} {keep : InputStatus → Bool}
    (hkeep : ∀ st, keep st = false → rank st ≤ rank status) (b : String) (ids : List String) :
    Heeds controls (mark status keep b ids : Pg V Unit) := by
  induction ids with
  | nil => trivial
  | cons x ids ih =>
    refine Prog.allOps_bind ((Prog.allOps_op _).mpr (respects_change (fun row => ?_))) (fun _ => ih)
    split
    · rename_i record
      split
      · exact preorders_moves.refl _ _
      · rename_i hfree
        refine ⟨fun record' hrecord' => ?_, fun _ => typed_input⟩
        cases hrecord'
        exact ⟨status, rfl, hkeep _ (by simpa using hfree)⟩
    · exact preorders_moves.refl _ _

theorem heeds_completeEffects [BEq V] (b : String) (effects : List (EffectCompletion V)) :
    Heeds controls (completeEffects b effects) := by
  induction effects with
  | nil => trivial
  | cons effect effects ih =>
    exact Prog.allOps_bind (heeds_completeEffect b _ _ _) (fun _ => ih)

theorem heeds_putControls {b : String} {items : List (String × V)}
    (h : ∀ item ∈ items, controls b item.1 item.2) : Heeds controls (putControls b items) := by
  induction items with
  | nil => trivial
  | cons item items ih =>
    exact Prog.allOps_bind (heeds_putControl (h item List.mem_cons_self))
      (fun _ => ih (fun item hitem => h item (List.mem_cons_of_mem _ hitem)))

theorem heeds_insertInputs (b : String) (inputs : List (String × V)) (inserted : List String) :
    Heeds controls (insertInputs b inputs inserted) := by
  induction inputs generalizing inserted with
  | nil => trivial
  | cons input inputs ih => exact Prog.allOps_bind (heeds_insertInput b _ _) (fun _ => ih _)

/-- A lease is taken over only under a newer token. -/
theorem moves_grant {b owner : String} {ttl now : ℚ} (found : Option (PgRow V)) :
    Moves controls (.lease b) found ((grant owner ttl now found).result found) := by
  unfold grant
  split
  · exact moves_new typed_lease
  · rename_i held
    split
    · refine ⟨fun held' hheld' => ?_, fun _ => typed_lease⟩
      cases hheld'
      refine ⟨_, rfl, Nat.le_add_right _ _, fun htoken => .inl ?_⟩
      simp only at htoken ⊢
      split at htoken
      · rename_i howner
        exact howner.symm
      · omega
    · exact preorders_moves.refl _ _
  · exact preorders_moves.refl _ _

theorem moves_expire {b owner : String} (row : PgRow V) :
    Moves controls (.lease b) (some row) ((expire owner row).result (some row)) := by
  unfold expire
  split
  · rename_i held
    split
    · refine ⟨fun held' hheld' => ?_, fun _ => typed_lease⟩
      cases hheld'
      exact ⟨_, rfl, Nat.le_refl _, fun _ => .inr rfl⟩
    · exact preorders_moves.refl _ _
  · exact preorders_moves.refl _ _

theorem heeds_connection {α : Type} {body : Pg V α} (h : Heeds controls body) :
    Heeds controls (connection body) := by
  have hending : ∀ o : PgOp V, o.key? = none → Heeds controls (sql o) :=
    fun o ho => (Prog.allOps_op o).mpr (respects_reading ho)
  refine Prog.allOps_bind (Prog.allOps_tryCatch h (fun e => ?_))
    (fun a => Prog.allOps_bind (hending _ rfl) (fun _ => trivial))
  exact Prog.allOps_bind (hending _ rfl) (fun _ => trivial)

theorem heeds_leased {α : Type} {b : String} {t : Nat} {write : Pg V α} (h : Heeds controls write) :
    Heeds controls ((fence b t).bind (fun _ => write)) :=
  Prog.allOps_bind (heeds_fence b t) (fun _ => h)

theorem heeds_transition [BEq V] {b : String} {tr : ExecutionTransition V}
    (h : ∀ item ∈ tr.controls, controls b item.1 item.2) :
    Heeds controls ((completeEffects b tr.effects).bind (fun _ =>
      (putControls b tr.controls).bind (fun _ => insertInputs b tr.inputs []))) :=
  Prog.allOps_bind (heeds_completeEffects b _) (fun _ =>
    Prog.allOps_bind (heeds_putControls h) (fun _ => heeds_insertInputs b _ _))

/-- A method writes over what it finds with its control writes only. -/
theorem heeds_method [BEq V] (c : Call V) (now : ℚ) : Heeds (Controls c) (method now c) := by
  cases c with
  | read b key =>
    exact heeds_connection (Prog.allOps_bind (heeds_selectRow _) (fun _ => trivial))
  | start b key t => exact heeds_connection (heeds_leased (heeds_insertRow typed_step))
  | finishEffect b key v t =>
    exact heeds_connection (heeds_leased (heeds_completeEffect b key v _))
  | writeControl b key v t =>
    exact heeds_connection (heeds_leased (heeds_putControl ⟨rfl, List.mem_cons_self⟩))
  | forget b key t =>
    refine heeds_connection (heeds_leased (Prog.allOps_bind (heeds_changeRow (fun row => ?_))
      (fun _ => trivial)))
    split
    · exact moves_running (fun _ hnone => by cases hnone)
    · exact preorders_moves.refl _ _
  | acquire b owner ttl =>
    exact heeds_connection (Prog.allOps_bind (heeds_upsertRow moves_grant) (fun _ => trivial))
  | release b owner =>
    exact heeds_connection (Prog.allOps_bind (heeds_changeRow moves_expire) (fun _ => trivial))
  | enqueueInput b x v => exact heeds_connection (heeds_insertInput b x v)
  | listInputs b =>
    exact heeds_connection (Prog.allOps_bind heeds_statement (fun _ =>
      Prog.allOps_bind ((Prog.allOps_op _).mpr (respects_reading rfl))
        (fun _ => trivial)))
  | claimInput b x t =>
    refine heeds_connection (heeds_leased (Prog.allOps_bind heeds_statement
      (fun _ => heeds_mark (fun st hst => ?_) b _)))
    cases st <;> simp [rank] at hst ⊢
  | admitInputs b ids t =>
    simp only [method, admitInputs]
    split
    · trivial
    · refine heeds_connection (heeds_leased (Prog.allOps_bind heeds_statement
        (fun _ => heeds_mark (fun st hst => ?_) b _)))
      cases st <;> simp [rank] at hst ⊢
  | discardInputs b ids t =>
    simp only [method, discardInputs]
    split
    · trivial
    · refine heeds_connection (heeds_leased (Prog.allOps_bind heeds_statement
        (fun _ => heeds_mark (fun st hst => ?_) b _)))
      cases st <;> simp [rank]
  | commitTransition b tr t =>
    refine heeds_connection (heeds_leased ?_)
    split
    · trivial
    · simp only
      split
      · trivial
      · exact heeds_transition (fun item hitem => ⟨rfl, hitem⟩)

/-- A database that no transaction is open on, each row in its table. -/
structure Rests (s : Db V) : Prop where
  closed : ∀ i, s.sessions i = {}
  typed : ∀ k, Typed k (s.row k)

theorem Rests.made {onward : Nat → PgKey → Option (PgRow V) → Option (PgRow V) → Prop} {s : Db V}
    (h : Rests s) : s.Made onward := by
  constructor
  · intro i k version hw
    rw [h.closed i] at hw
    cases hw
  · intro i k version hw
    rw [h.closed i] at hw
    cases hw

end

section
variable [DecidableEq V] {call : Nat → Call V} {now : Nat → ℚ}

/-- How the transaction of a call moves the rows it writes. -/
abbrev Goes (call : Nat → Call V) (i : Nat) :
    PgKey → Option (PgRow V) → Option (PgRow V) → Prop := Moves (Controls (call i))

theorem heeds_transactions (i : Nat) :
    (transactions call now i).AllOps (Sql.Respects (Goes call i)) :=
  Prog.allOps_bind (heeds_method _ _) (fun _ => trivial)

omit [DecidableEq V] in
theorem Moves.controlled {i : Nat} {k : PgKey} {found left : Option (PgRow V)}
    (h : Goes call i k found left) : Moves (Controlled call) k found left := by
  refine ⟨?_, h.2⟩
  cases k with
  | step b key =>
    intro v hv
    obtain ⟨v', hv', hsame⟩ := h.1 v hv
    exact ⟨v', hv', hsame.imp_right (fun hcontrol => ⟨i, hcontrol⟩)⟩
  | lease b => exact h.1
  | input b x => exact h.1

/-- However the transactions of any calls are interleaved, statement by statement, and whichever
connections are lost: from any moment to any later one, committed rows only move ahead. -/
theorem rows_ahead {pool pool' : Nat → Pg V Unit} {s s' s'' : Db V} (rests : Rests s)
    (run : Interleaved (Database.exec PgError.operational) (fun _ _ => False)
      (transactions call now) s pool s')
    (on : Interleaved (Database.exec PgError.operational) (fun _ _ => False) pool s' pool' s'')
    (k : PgKey) : Ahead (Controlled call) k (s'.row k) (s''.row k) := by
  obtain ⟨-, hmade, hpool⟩ :=
    Database.stepwise_interleaved (fun _ => preorders_moves) heeds_transactions rests.made run
  obtain ⟨⟨made, hsince, hstepwise⟩, -, -⟩ :=
    Database.stepwise_interleaved (fun _ => preorders_moves) hpool hmade on
  rw [← hsince.row k]
  have hmoves : Moves (Controlled call) k (s'.row k) (s'.rowAfter made k) :=
    hstepwise.along (preorders_moves.refl _ _)
      (fun _ _ _ h hgoes => preorders_moves.trans _ _ _ _ h hgoes.controlled)
  exact hmoves.1

end

/-! What a call that was confirmed has put on record. -/

/-- The result on record is the value, or what a control write of another call has put there in one
of these commits. -/
def Stays (call : Nat → Call V) (i : Nat) (later : List (Commit Nat PgKey (PgRow V)))
    (b key : String) (v : V) (row : Option (PgRow V)) : Prop :=
  ∃ v', stepOf row = .done v' ∧
    (v' = v ∨ ∃ c ∈ later, c.1 ≠ i ∧ Controls (call c.1) b key v')

/-- The value was on record at some moment since `s`, and only a later control write of another call
has replaced it. -/
def Finished (call : Nat → Call V) (i : Nat) (s s' : Db V) (b key : String) (v : V) : Prop :=
  ∃ earlier later, s.Since s' (earlier ++ later) ∧
    stepOf (s.rowAfter earlier (.step b key)) = .done v ∧
    Stays call i later b key v (s'.row (.step b key))

/-- The call's own commit has put the value on record, and only a later control write of another
call has replaced it. -/
def Written (call : Nat → Call V) (i : Nat) (s s' : Db V) (b key : String) (v : V) : Prop :=
  ∃ earlier writes later, s.Since s' (earlier ++ (i, writes) :: later) ∧
    (∃ born, writes.get? (.step b key) = some (some ⟨born, .step (.done v)⟩)) ∧
    Stays call i later b key v (s'.row (.step b key))

/-- The input is on record with its value, unless the id was on record with another before the call
committed. -/
def Listed (i : Nat) (s s' : Db V) (b x : String) (v : V) : Prop :=
  ∃ record, s'.row (.input b x) = some (.input record) ∧
    (record.value = v ∨ ∃ earlier later old, s.Since s' (earlier ++ later) ∧
      (∀ c ∈ earlier, c.1 ≠ i) ∧ s.rowAfter earlier (.input b x) = some (.input old) ∧
      record.value = old.value)

/-- What a call that began at `s` has put on record. Of control writes to one key the last counts,
of inputs under one id the first. -/
def Recorded (call : Nat → Call V) (i : Nat) (s s' : Db V) : Call V → Prop
  | .finishEffect b key v _ => Finished call i s s' b key v
  | .writeControl b key v _ => Written call i s s' b key v
  | .enqueueInput b x v => Listed i s s' b x v
  | .commitTransition b tr _ =>
    (∀ effect ∈ tr.effects, Finished call i s s' b effect.key effect.value) ∧
      (∀ before item after, tr.controls = before ++ item :: after →
        item.1 ∉ after.map Prod.fst → Written call i s s' b item.1 item.2) ∧
      ∀ before item after, tr.inputs = before ++ item :: after →
        item.1 ∉ before.map Prod.fst → Listed i s s' b item.1 item.2
  | _ => True

/-! The keys the bodies write under. -/

/-- It writes rows of these keys only, and ends no transaction. -/
abbrev Within (K : PgKey → Prop) {α : Type} (p : Pg V α) : Prop :=
  p.AllOps (fun o => o.Inner ∧ ∀ k, o.key? = some k → K k)

section
variable {K : PgKey → Prop} {k : PgKey}

theorem within_reading {o : PgOp V} (hinner : o.Inner) (hk : o.key? = none) :
    Within K (sql o) :=
  (Prog.allOps_op o).mpr ⟨hinner, fun k h => absurd (hk.symm.trans h) (by simp)⟩

theorem within_statement : Within K (statement : Pg V Unit) :=
  within_reading ⟨by simp, by simp⟩ rfl

theorem within_selectRow (k : PgKey) : Within K (selectRow k : Pg V _) :=
  Prog.allOps_bind within_statement (fun _ => within_reading ⟨by simp, by simp⟩ rfl)

theorem within_upsertRow {f : Option (PgRow V) → Change (PgRow V)} (h : K k) :
    Within K (upsertRow k f) :=
  Prog.allOps_bind within_statement (fun _ => (Prog.allOps_op _).mpr
    ⟨⟨by simp, by simp⟩, fun k' hk => by cases hk; exact h⟩)

theorem within_changeRow {f : PgRow V → Change (PgRow V)} (h : K k) :
    Within K (changeRow k f) :=
  Prog.allOps_bind within_statement (fun _ => Prog.allOps_bind ((Prog.allOps_op _).mpr
    ⟨⟨by simp, by simp⟩, fun k' hk => by cases hk; exact h⟩) (fun _ => trivial))

theorem within_fence (b : String) (t : Nat) : Within K (fence b t : Pg V Unit) := by
  unfold fence
  split
  · trivial
  · refine Prog.allOps_bind (within_selectRow _) (fun row => ?_)
    simp only
    split <;> trivial

theorem within_completeEffect [BEq V] {b key : String} (h : K (.step b key)) (v : V)
    (expected : Expected) : Within K (completeEffect b key v expected) := by
  have hwrite : Within K (writeEffect b key v expected) := by
    cases expected with
    | absent => exact Prog.allOps_bind (within_upsertRow h) (fun _ => trivial)
    | running => exact within_changeRow h
  refine Prog.allOps_bind hwrite (fun completed => ?_)
  split
  · trivial
  · refine Prog.allOps_bind (within_selectRow _) (fun row => ?_)
    cases stepOf row with
    | done recorded =>
      simp only
      split <;> trivial
    | absent | running => trivial

theorem within_completeEffects [BEq V] {b : String} {effects : List (EffectCompletion V)}
    (h : ∀ effect ∈ effects, K (.step b effect.key)) :
    Within K (completeEffects b effects) := by
  induction effects with
  | nil => trivial
  | cons effect effects ih =>
    exact Prog.allOps_bind (within_completeEffect (h effect List.mem_cons_self) _ _)
      (fun _ => ih (fun effect' he => h effect' (List.mem_cons_of_mem _ he)))

theorem within_putControls {b : String} {items : List (String × V)}
    (h : ∀ item ∈ items, K (.step b item.1)) : Within K (putControls b items) := by
  induction items with
  | nil => trivial
  | cons item items ih =>
    exact Prog.allOps_bind
      (Prog.allOps_bind (within_upsertRow (h item List.mem_cons_self)) (fun _ => trivial))
      (fun _ => ih (fun item' hi => h item' (List.mem_cons_of_mem _ hi)))

theorem within_insertInput {b x : String} (h : K (.input b x)) (v : V) :
    Within K (insertInput b x v) :=
  Prog.allOps_bind (within_reading ⟨by simp, by simp⟩ rfl)
    (fun _ => Prog.allOps_bind (within_upsertRow h) (fun _ => trivial))

theorem within_insertInputs {b : String} {inputs : List (String × V)} (inserted : List String)
    (h : ∀ item ∈ inputs, K (.input b item.1)) :
    Within K (insertInputs b inputs inserted) := by
  induction inputs generalizing inserted with
  | nil => trivial
  | cons item inputs ih =>
    exact Prog.allOps_bind (within_insertInput (h item List.mem_cons_self) _)
      (fun _ => ih _ (fun item' hi => h item' (List.mem_cons_of_mem _ hi)))

/-- What writes under other keys spares every row of this one. -/
theorem Within.spares {α : Type} {p : Pg V α} (h : Within K p) (hk : ¬ K k)
    {written : PgRow V → Prop} :
    p.AllOps (fun o => o.Inner ∧ ∀ row, written row → o.Spares k row) :=
  h.mono (fun _ ho => ⟨ho.1, fun _ _ => ⟨ho.1, fun hkey => absurd (ho.2 k hkey) hk⟩⟩)

theorem Within.clean {α : Type} {p : Pg V α} (h : Within K p) (hk : ¬ K k) :
    p.AllOps (fun o => o.Inner ∧ o.key? ≠ some k) :=
  h.mono (fun _ ho => ⟨ho.1, fun hkey => hk (ho.2 k hkey)⟩)

theorem Within.inner {α : Type} {p : Pg V α} (h : Within K p) : p.AllOps Sql.Inner :=
  h.mono (fun _ ho => ho.1)

end

/-! What the bodies leave of one row. -/

section
variable [DecidableEq V] {i : Nat} {s : Db V} {P : Db V → Prop}

abbrev Leaves (s : Db V) (i : Nat) {α : Type} (P : Db V → Prop) (p : Pg V α)
    (F : α → Db V → Prop) : Prop :=
  Database.Leaves PgError.operational s i P p F

/-- The row is the key's result. -/
def Holds (v : V) (row : PgRow V) : Prop := row = .step (.done v)

/-- The row is an input of this value. -/
def Carries (v : V) (row : PgRow V) : Prop := ∃ record, row = .input record ∧ record.value = v

theorem leaves_upsertRow {k : PgKey} {f : Option (PgRow V) → Change (PgRow V)} {F : _ → Db V → Prop}
    (h : Leaves s i P (.op (.upsert k f)) F) (steady : Database.Steady i P)
    (kept : ∀ s₁ r s₂, Database.exec PgError.operational i .statement s₁ r s₂ → P s₁ → P s₂) :
    Leaves s i P (upsertRow k f) F := by
  refine Database.leaves_bind (Database.leaves_kept (A := fun o => o = .statement) steady ?_
    ((Prog.allOps_op _).mpr rfl)) (fun _ => h)
  intro o ho
  subst ho
  exact ⟨by simp, kept⟩

theorem leaves_putControl (b key : String) (v : V) :
    Leaves s i (fun _ => True) (putControl b key v)
      (fun _ => Database.Left s i (.step b key) (Holds v) (fun _ => False)) := by
  refine Database.leaves_bind (leaves_upsertRow (Database.leaves_upsert (fun _ _ _ _ => trivial))
    (fun _ _ _ _ => trivial) (fun _ _ _ _ _ => trivial)) (fun found => ?_)
  exact Database.leaves_ret (fun s h => .inl ⟨_, rfl, h.1 _ rfl⟩)

theorem leaves_writeEffect (b key : String) (v : V) (expected : Expected) :
    Leaves s i (fun _ => True) (writeEffect b key v expected)
      (fun completed s' => completed = true →
        Database.Left s i (.step b key) (Holds v) (Holds v) s') := by
  cases expected with
  | absent =>
    refine Database.leaves_bind (leaves_upsertRow (Database.leaves_upsert (fun _ _ _ _ => trivial))
      (fun _ _ _ _ => trivial) (fun _ _ _ _ _ => trivial)) (fun found => ?_)
    refine Database.leaves_ret (fun s h hnone => .inl ⟨_, rfl, h.1 _ ?_⟩)
    rw [Option.isNone_iff_eq_none.mp hnone]
  | running =>
    refine Database.leaves_bind (Database.leaves_any
      (Within.inner (K := fun _ => False) within_statement)) (fun _ => ?_)
    refine Database.leaves_bind Database.leaves_change (fun found => ?_)
    refine Database.leaves_ret (fun s h hsome => ?_)
    obtain ⟨old, hold⟩ := Option.isSome_iff_exists.mp hsome
    obtain ⟨hleave, hset⟩ := h old hold
    refine .inl ⟨_, rfl, hset _ ?_⟩
    revert hleave
    split
    · exact fun _ => rfl
    · exact fun hleave => absurd rfl hleave

/-- A completion that did not raise has written its value, or has seen it on record. -/
theorem leaves_completeEffect (b key : String) (v : V) (expected : Expected) :
    Leaves s i (fun _ => True) (completeEffect b key v expected)
      (fun _ => Database.Left s i (.step b key) (Holds v) (Holds v)) := by
  refine Database.leaves_bind (leaves_writeEffect b key v expected) (fun completed => ?_)
  split
  · rename_i hcompleted
    exact Database.leaves_ret (fun s h => h hcompleted)
  · refine Database.leaves_bind Database.leaves_select (fun found => ?_)
    cases hfound : stepOf found with
    | done recorded =>
      simp only
      split
      · rename_i hsame
        refine Database.leaves_ret (fun s' h => ?_)
        obtain rfl : recorded = v := beq_iff_eq.mp hsame
        have hrow : found = some (.step (.done recorded)) := by
          revert hfound
          unfold stepOf
          split
          · rintro rfl
            rfl
          · exact fun hbad => by cases hbad
        rcases h _ hrow with hwrote | hseen
        · exact .inl ⟨_, rfl, hwrote⟩
        · exact .inr ⟨_, rfl, hseen⟩
      · exact Database.leaves_raise
    | absent | running => exact Database.leaves_raise

theorem clean_statement {k : PgKey} (s₁ : Db V) (r : Except PgError Unit) (s₂ : Db V)
    (he : Database.exec PgError.operational i .statement s₁ r s₂) (h : Database.Clean i k s₁) :
    Database.Clean i k s₂ := Database.clean_exec h (by simp [Sql.key?]) he

/-- An id that is new to the transaction is inserted, or was on record before. -/
theorem leaves_insertInput (b x : String) (v : V) :
    Leaves s i (Database.Clean i (.input b x)) (insertInput b x v)
      (fun _ => Database.Left s i (.input b x) (Carries v) (fun _ => True)) := by
  refine Database.leaves_bind (Database.leaves_clean (Within.clean (K := fun _ => False)
    (within_reading ⟨by simp, by simp⟩ rfl) id)) (fun sequence => ?_)
  refine Database.leaves_bind (leaves_upsertRow (Database.leaves_upsert Database.steady_clean)
    Database.steady_clean clean_statement) (fun found => ?_)
  refine Database.leaves_ret (fun s h => ?_)
  cases found with
  | none => exact .inl ⟨_, ⟨_, rfl, rfl⟩, h.1 _ rfl⟩
  | some old =>
    obtain ⟨hclean, hold⟩ := h.2 rfl
    rcases hold old rfl with ⟨born, hwritten⟩ | hseen
    · rw [hclean] at hwritten
      cases hwritten
    · exact .inr ⟨old, trivial, hseen⟩

theorem leaves_completeEffects {b : String} {effects : List (EffectCompletion V)}
    {effect : EffectCompletion V} (hmem : effect ∈ effects)
    (distinct : (effects.map EffectCompletion.key).Nodup) :
    Leaves s i (fun _ => True) (completeEffects b effects)
      (fun _ => Database.Left s i (.step b effect.key) (Holds effect.value)
        (Holds effect.value)) := by
  induction effects with
  | nil => cases hmem
  | cons first rest ih =>
    obtain ⟨hfirst, hrest⟩ := List.nodup_cons.mp distinct
    rcases List.mem_cons.mp hmem with rfl | hmem
    · refine Database.leaves_bind (leaves_completeEffect b _ _ _) (fun _ => ?_)
      refine Database.leaves_spared (Within.spares (within_completeEffects
        (K := fun k => ∃ e ∈ rest, k = .step b e.key) (fun e he => ⟨e, he, rfl⟩)) ?_)
      rintro ⟨e, he, hkey⟩
      exact hfirst ((PgKey.step.inj hkey).2 ▸ List.mem_map_of_mem he)
    · exact Database.leaves_bind (Database.leaves_any (within_completeEffect
        (K := fun _ => True) trivial _ _).inner) (fun _ => ih hmem hrest)

/-- Of the control writes to a key the last is left. -/
theorem leaves_putControls {b : String} {before after : List (String × V)} {item : String × V}
    (last : item.1 ∉ after.map Prod.fst) :
    Leaves s i (fun _ => True) (putControls b (before ++ item :: after))
      (fun _ => Database.Left s i (.step b item.1) (Holds item.2) (fun _ => False)) := by
  induction before with
  | nil =>
    refine Database.leaves_bind (leaves_putControl b _ _) (fun _ => ?_)
    refine Database.leaves_spared (Within.spares (within_putControls
      (K := fun k => ∃ e ∈ after, k = .step b e.1) (fun e he => ⟨e, he, rfl⟩)) ?_)
    rintro ⟨e, he, hkey⟩
    exact last ((PgKey.step.inj hkey).2 ▸ List.mem_map_of_mem he)
  | cons first before ih =>
    exact Database.leaves_bind (Database.leaves_any (Within.inner (K := fun _ => True)
      (Prog.allOps_bind (within_upsertRow trivial) (fun _ => trivial)))) (fun _ => ih)

omit [DecidableEq V] in
/-- An insertion leaves every input alone that is there. -/
theorem spares_insertInputs {b x : String} {inputs : List (String × V)} (inserted : List String)
    {written : PgRow V → Prop} :
    (insertInputs b inputs inserted).AllOps
      (fun o => o.Inner ∧ ∀ row, written row → o.Spares (.input b x) row) := by
  have hreading : ∀ o : PgOp V, o.Inner → o.key? = none →
      (sql o).AllOps (fun o => o.Inner ∧ ∀ row, written row → o.Spares (.input b x) row) :=
    fun o ho hk => Within.spares (K := fun _ => False) (within_reading ho hk) id
  induction inputs generalizing inserted with
  | nil => trivial
  | cons item inputs ih =>
    refine Prog.allOps_bind (Prog.allOps_bind (hreading _ ⟨by simp, by simp⟩ rfl) (fun _ =>
      Prog.allOps_bind (Prog.allOps_bind (hreading _ ⟨by simp, by simp⟩ rfl) (fun _ => ?_))
        (fun _ => trivial))) (fun _ => ih _)
    exact (Prog.allOps_op _).mpr ⟨⟨by simp, by simp⟩, fun _ _ => ⟨⟨by simp, by simp⟩, fun _ => rfl⟩⟩

/-- Of the inputs under an id the first is inserted, or the id was on record before. -/
theorem leaves_insertInputs {b : String} {before after : List (String × V)} {item : String × V}
    (first : item.1 ∉ before.map Prod.fst) (inserted : List String) :
    Leaves s i (Database.Clean i (.input b item.1))
      (insertInputs b (before ++ item :: after) inserted)
      (fun _ => Database.Left s i (.input b item.1) (Carries item.2) (fun _ => True)) := by
  induction before generalizing inserted with
  | nil =>
    exact Database.leaves_bind (leaves_insertInput b _ _)
      (fun _ => Database.leaves_spared (spares_insertInputs _))
  | cons other before ih =>
    obtain ⟨hother, hbefore⟩ := not_or.mp (fun h => first (List.mem_cons.mpr h))
    refine Database.leaves_bind (Database.leaves_clean (Within.clean (within_insertInput
      (K := fun k => k = .input b other.1) rfl _) ?_)) (fun _ => ih hbefore _)
    exact fun hkey => hother (PgKey.input.inj hkey).2

/-- A body that leaves it, and a commit that was confirmed. -/
theorem safe_connection {α : Type} {body : Pg V α} {k : PgKey} {written found : PgRow V → Prop}
    (hbody : Leaves s i P body (fun _ => Database.Left s i k written found)) (begun : P s) :
    Prog.safe (Database.exec PgError.operational i) (Database.Aside i) (Database.Beside i)
      (connection body) (fun r s' => ∀ a, r = .ok a → Database.Kept s i k written found s') s := by
  unfold connection sql
  refine (Prog.safe_bind _ _ _ _).mpr ((Prog.safe_tryCatch _ _ _ _).mpr
    (Prog.safe_post (hbody s (.refl i s) begun) ?_))
  intro r s₁ hleft
  cases r with
  | error e =>
    refine (Prog.safe_bind _ _ _ _).mpr ((Prog.safe_op _ _ _).mpr (fun s₂ _ r s₃ he => ?_))
    refine ⟨Database.beside_exec he, ?_⟩
    cases r with
    | error e => exact fun _ h => by cases h
    | ok u => exact fun _ h => by cases h
  | ok a =>
    refine (Prog.safe_bind _ _ _ _).mpr ((Prog.safe_op _ _ _).mpr (fun s₂ hr r s₃ he => ?_))
    refine ⟨Database.beside_exec he, ?_⟩
    cases r with
    | error e => exact fun _ h => by cases h
    | ok u =>
      exact fun _ _ => (Database.steady_left s₁ s₂ (hleft.2 a rfl) hr).commit he
        (hleft.1.trans hr.aloof)

theorem leaves_leased {α : Type} {b : String} {t : Nat} {write : Pg V α} {k : PgKey}
    {F : α → Db V → Prop} (h : Leaves s i (Database.Clean i k) write F) :
    Leaves s i (Database.Clean i k) ((fence b t).bind (fun _ => write)) F :=
  Database.leaves_bind (Database.leaves_clean
    (Within.clean (K := fun _ => False) (within_fence b t) id)) (fun _ => h)

theorem leaves_anyhow {α : Type} {p : Pg V α} {F : α → Db V → Prop} (h : Leaves s i (fun _ => True) p F) :
    Leaves s i P p F := Database.leaves_weaken h (fun _ _ => trivial) (fun _ _ h => h)

/-! The body of a transition. -/

omit [DecidableEq V] in
theorem effectKeys_ok {effects : List (EffectCompletion V)} {keys before : List String}
    (h : effectKeys effects before = .ok keys) :
    keys = before ++ effects.map EffectCompletion.key ∧
      (effects.map EffectCompletion.key).Nodup ∧
      ∀ key ∈ effects.map EffectCompletion.key, key ∉ before := by
  induction effects generalizing before with
  | nil => simpa [effectKeys, eq_comm] using h
  | cons effect effects ih =>
    unfold effectKeys at h
    split at h
    · cases h
    · rename_i hnew
      obtain ⟨hkeys, hdistinct, hapart⟩ := ih h
      have hhead : effect.key ∉ effects.map EffectCompletion.key :=
        fun hmem => hapart _ hmem (List.mem_append_right _ List.mem_cons_self)
      refine ⟨by simpa using hkeys, List.nodup_cons.mpr ⟨hhead, hdistinct⟩, fun key hkey => ?_⟩
      rcases List.mem_cons.mp hkey with rfl | hkey
      · exact hnew
      · exact fun hbefore => hapart key hkey (List.mem_append_left _ hbefore)

/-- What a transition writes, it writes under keys that are each an effect's or a control's. -/
theorem leaves_transition {b : String} {tr : ExecutionTransition V} {t : Nat} {k : PgKey}
    {F : List String → Db V → Prop}
    (h : (tr.effects.map EffectCompletion.key).Nodup →
      (∀ effect ∈ tr.effects, effect.key ∉ tr.controls.map Prod.fst) →
      Leaves s i (Database.Clean i k) ((completeEffects b tr.effects).bind (fun _ =>
        (putControls b tr.controls).bind (fun _ => insertInputs b tr.inputs []))) F) :
    ∃ body : Pg V (List String), commitTransition b tr t = connection body ∧
      Leaves s i (Database.Clean i k) body F := by
  refine ⟨_, rfl, leaves_leased ?_⟩
  cases hkeys : effectKeys tr.effects [] with
  | error e => exact Database.leaves_raise
  | ok keys =>
    obtain ⟨rfl, hdistinct, -⟩ := effectKeys_ok hkeys
    simp only
    split
    · exact Database.leaves_raise
    · rename_i hoverlap
      refine h hdistinct (fun effect he hcontrol => hoverlap ?_)
      refine List.ne_nil_of_mem (a := effect.key) (List.mem_filter.mpr ⟨?_, by simpa using hcontrol⟩)
      exact List.mem_map_of_mem he

end

/-! What has become of it since. -/

section
variable [DecidableEq V] {call : Nat → Call V} {now : Nat → ℚ} {i : Nat} {s s' : Db V}

omit [DecidableEq V] in
/-- A result that was on record is still there, but for the control writes committed since. -/
theorem stays_since {earlier later : List (Commit Nat PgKey (PgRow V))} {b key : String} {v : V}
    (since : s.Since s' (earlier ++ later))
    (stepwise : Database.Stepwise (Goes call) s (earlier ++ later))
    (hv : stepOf (s.rowAfter earlier (.step b key)) = .done v)
    (others : ∀ c ∈ later, ∀ v', Controls (call c.1) b key v' → c.1 ≠ i) :
    Stays call i later b key v (s'.row (.step b key)) := by
  rw [← since.row]
  have hcarried := Database.Stepwise.carry (k := .step b key)
    (F := fun later row => ∃ v', stepOf row = .done v' ∧
      (v' = v ∨ ∃ c ∈ later, Controls (call c.1) b key v')) stepwise ⟨v, hv, .inl rfl⟩ ?_
  · obtain ⟨v', hv', hsame⟩ := hcarried
    refine ⟨v', hv', hsame.imp_right ?_⟩
    rintro ⟨c, hc, hcontrol⟩
    exact ⟨c, hc, others c hc v' hcontrol, hcontrol⟩
  · intro later c row row' hrow hgoes
    obtain ⟨v', hv', hsame⟩ := hrow
    obtain ⟨v'', hv'', hnext⟩ := hgoes.1 v' hv'
    refine ⟨v'', hv'', ?_⟩
    rcases hnext with rfl | hcontrol
    · refine hsame.imp_right ?_
      rintro ⟨c', hc', hcontrol⟩
      exact ⟨c', List.mem_append_left _ hc', hcontrol⟩
    · exact .inr ⟨c, List.mem_append_right _ List.mem_cons_self, hcontrol⟩

omit [DecidableEq V] in
/-- An input that was on record is still there, with its value. -/
theorem input_since {earlier later : List (Commit Nat PgKey (PgRow V))} {b x : String}
    {record : InputRecord V} (since : s.Since s' (earlier ++ later))
    (stepwise : Database.Stepwise (Goes call) s (earlier ++ later))
    (hrow : s.rowAfter earlier (.input b x) = some (.input record)) :
    ∃ record', s'.row (.input b x) = some (.input record') ∧ record'.value = record.value := by
  rw [← since.row]
  refine Database.Stepwise.carry (k := .input b x)
    (F := fun _ row => ∃ record', row = some (.input record') ∧ record'.value = record.value)
    stepwise ⟨record, hrow, rfl⟩ (fun later c row row' h hgoes => ?_)
  obtain ⟨record', hrecord', hvalue⟩ := h
  obtain ⟨status, hstatus, -⟩ := hgoes.1 record' hrecord'
  exact ⟨_, hstatus, hvalue⟩

/-- The commits of a run, each a move of its own call's. -/
structure Traced (call : Nat → Call V) (s s' : Db V) : Prop where
  typed : ∀ k, Typed k (s.row k)
  stepwise : ∀ made, s.Since s' made → Database.Stepwise (Goes call) s made

omit [DecidableEq V] in
theorem Traced.typedAfter {earlier later : List (Commit Nat PgKey (PgRow V))}
    (h : Traced call s s') (since : s.Since s' (earlier ++ later)) (k : PgKey) :
    Typed k (s.rowAfter earlier k) :=
  (h.stepwise _ since).front.along (h.typed k) (fun _ _ _ htyped hgoes => hgoes.2 htyped)

omit [DecidableEq V] in
theorem written_of_kept {b key : String} {v : V} (traced : Traced call s s')
    (h : Database.Kept s i (.step b key) (Holds v) (fun _ => False) s') :
    Written call i s s' b key v := by
  rcases h with ⟨row, rfl, earlier, writes, later, hsince, -, hbehind, born, hwritten⟩ | ⟨_, hno, -⟩
  · refine ⟨earlier, writes, later, hsince, ⟨born, hwritten⟩, ?_⟩
    have hsplit : earlier ++ (i, writes) :: later = (earlier ++ [(i, writes)]) ++ later := by simp
    rw [hsplit] at hsince
    refine stays_since hsince (traced.stepwise _ hsince) ?_ (fun c hc _ _ => hbehind c hc)
    rw [Database.rowAfter_written s earlier i hwritten]
    rfl
  · exact hno.elim

omit [DecidableEq V] in
/-- Where the call's own control writes are to other keys. -/
theorem finished_of_kept {b key : String} {v : V} (traced : Traced call s s')
    (apart : ∀ v', ¬ Controls (call i) b key v')
    (h : Database.Kept s i (.step b key) (Holds v) (Holds v) s') :
    Finished call i s s' b key v := by
  have hothers : ∀ c : Commit Nat PgKey (PgRow V), ∀ v', Controls (call c.1) b key v' → c.1 ≠ i := by
    intro c v' hcontrol hown
    rw [hown] at hcontrol
    exact apart v' hcontrol
  rcases h with ⟨row, rfl, earlier, writes, later, hsince, -, -, born, hwritten⟩ |
    ⟨row, rfl, earlier, later, hsince, -, hrow⟩
  · have hsplit : earlier ++ (i, writes) :: later = (earlier ++ [(i, writes)]) ++ later := by simp
    rw [hsplit] at hsince
    have hv : stepOf (s.rowAfter (earlier ++ [(i, writes)]) (.step b key)) = .done v := by
      rw [Database.rowAfter_written s earlier i hwritten]
      rfl
    exact ⟨_, later, hsince, hv, stays_since hsince (traced.stepwise _ hsince) hv
      (fun c _ => hothers c)⟩
  · have hv : stepOf (s.rowAfter earlier (.step b key)) = .done v := by
      rw [hrow]
      rfl
    exact ⟨earlier, later, hsince, hv, stays_since hsince (traced.stepwise _ hsince) hv
      (fun c _ => hothers c)⟩

omit [DecidableEq V] in
theorem listed_of_kept {b x : String} {v : V} (traced : Traced call s s')
    (h : Database.Kept s i (.input b x) (Carries v) (fun _ => True) s') : Listed i s s' b x v := by
  rcases h with ⟨row, ⟨record, rfl, hvalue⟩, earlier, writes, later, hsince, -, -, born, hwritten⟩ |
    ⟨row, -, earlier, later, hsince, hothers, hrow⟩
  · have hsplit : earlier ++ (i, writes) :: later = (earlier ++ [(i, writes)]) ++ later := by simp
    rw [hsplit] at hsince
    obtain ⟨record', hrecord', hsame⟩ := input_since hsince (traced.stepwise _ hsince)
      (Database.rowAfter_written s earlier i hwritten)
    exact ⟨record', hrecord', .inl (hsame.trans hvalue)⟩
  · have htyped : Typed (.input b x) (some row) := hrow ▸ traced.typedAfter hsince _
    obtain ⟨old, rfl⟩ := htyped row rfl
    obtain ⟨record', hrecord', hsame⟩ := input_since hsince (traced.stepwise _ hsince) hrow
    exact ⟨record', hrecord', .inr ⟨earlier, later, old, hsince, hothers, hrow, hsame⟩⟩

section
variable {pool pool' : Nat → Pg V Unit} (unbegun : pool i = transactions call now i)
variable (run : Interleaved (Database.exec PgError.operational) (fun _ _ => False) pool s pool' s')
variable (returned : pool' i = .ret ())
include unbegun run returned

/-- What a method comes to by itself holds where its call has returned. -/
theorem kept_returned {k : PgKey} {written found : PgRow V → Prop}
    (hsafe : Prog.safe (Database.exec PgError.operational i) (Database.Aside i) (Database.Beside i)
      (method (now i) (call i)) (fun r s' => ∀ a, r = .ok a → Database.Kept s i k written found s')
      s) : Database.Kept s i k written found s' := by
  refine Database.returned_interleaved (Q := fun _ => Database.Kept s i k written found)
    (fun _ => Database.steady_kept) ?_ run returned
  rw [unbegun]
  refine (Prog.safe_bind _ _ _ _).mpr (Prog.safe_post hsafe (fun r s' h => ?_))
  cases r with
  | error e => exact fun _ hbad => by cases hbad
  | ok a => exact fun _ _ => h a rfl

variable (clean : ∀ k, Database.Clean i k s)
include clean

theorem transition_returned {b : String} {tr : ExecutionTransition V} {t : Nat} {k : PgKey}
    {written found : PgRow V → Prop} (hcall : call i = .commitTransition b tr t)
    (h : (tr.effects.map EffectCompletion.key).Nodup →
      (∀ effect ∈ tr.effects, effect.key ∉ tr.controls.map Prod.fst) →
      Leaves s i (Database.Clean i k) ((completeEffects b tr.effects).bind (fun _ =>
        (putControls b tr.controls).bind (fun _ => insertInputs b tr.inputs [])))
        (fun _ => Database.Left s i k written found)) :
    Database.Kept s i k written found s' := by
  obtain ⟨body, hbody, hleaves⟩ := leaves_transition (t := t) h
  have hsafe := safe_connection hleaves (clean k)
  rw [← hbody] at hsafe
  refine kept_returned unbegun run returned ?_
  rw [hcall]
  exact hsafe

theorem transition_recorded {b : String} {tr : ExecutionTransition V} {t : Nat}
    (traced : Traced call s s') (hcall : call i = .commitTransition b tr t) :
    Recorded call i s s' (.commitTransition b tr t) := by
  refine ⟨fun effect he => ?_, fun front item rest hsplit hlast => ?_,
    fun front item rest hsplit hfirst => ?_⟩
  · have hapart : effect.key ∉ tr.controls.map Prod.fst := by
      -- Or it would not have returned.
      by_contra hbad
      have hnever : Database.Kept s i (.lease b) (fun _ => False) (fun _ => False) s' :=
        transition_returned unbegun run returned clean hcall
          (fun _ hdisjoint => absurd hbad (hdisjoint effect he))
      rcases hnever with ⟨_, hno, -⟩ | ⟨_, hno, -⟩ <;> exact hno
    refine finished_of_kept traced (fun v' hcontrol => ?_)
      (transition_returned unbegun run returned clean hcall (fun hdistinct _ => ?_))
    · rw [hcall] at hcontrol
      exact hapart (List.mem_map_of_mem (f := Prod.fst) hcontrol.2)
    · refine Database.leaves_bind (leaves_anyhow (leaves_completeEffects he hdistinct)) (fun _ => ?_)
      refine Database.leaves_spared (Within.spares
        (K := fun k => (∃ item ∈ tr.controls, k = .step b item.1) ∨ ∃ x, k = .input b x)
        (Prog.allOps_bind (within_putControls (fun item hi => .inl ⟨item, hi, rfl⟩))
          (fun _ => within_insertInputs _ (fun item _ => .inr ⟨item.1, rfl⟩))) ?_)
      rintro (⟨item, hi, hkey⟩ | ⟨x, hkey⟩)
      · exact hapart ((PgKey.step.inj hkey).2 ▸ List.mem_map_of_mem hi)
      · cases hkey
  · refine written_of_kept traced
      (transition_returned unbegun run returned clean hcall (fun _ _ => ?_))
    rw [hsplit]
    refine Database.leaves_bind (leaves_anyhow (Database.leaves_any
      (within_completeEffects (K := fun _ => True) (fun _ _ => trivial)).inner)) (fun _ => ?_)
    refine Database.leaves_bind (leaves_putControls hlast) (fun _ => ?_)
    refine Database.leaves_spared (Within.spares (within_insertInputs
      (K := fun k => ∃ x, k = .input b x) _ (fun item _ => ⟨item.1, rfl⟩)) ?_)
    rintro ⟨x, hkey⟩
    cases hkey
  · refine listed_of_kept traced
      (transition_returned unbegun run returned clean hcall (fun _ _ => ?_))
    have hsteps : ∀ {α : Type} {p : Pg V α}, Within (fun k => ∃ key, k = .step b key) p →
        Leaves s i (Database.Clean i (.input b item.1)) p
          (fun _ => Database.Clean i (.input b item.1)) := by
      intro α p hp
      refine Database.leaves_clean (hp.clean ?_)
      rintro ⟨key, hkey⟩
      cases hkey
    rw [hsplit]
    refine Database.leaves_bind
      (hsteps (within_completeEffects (fun effect _ => ⟨effect.key, rfl⟩))) (fun _ => ?_)
    refine Database.leaves_bind (hsteps (within_putControls (fun item _ => ⟨item.1, rfl⟩)))
      (fun _ => leaves_insertInputs hfirst _)

end

/-- Whatever runs beside it: what a call that returned has put on record stays on record. -/
theorem acknowledged_kept {pool pool' : Nat → Pg V Unit} {s₀ : Db V} (rests : Rests s₀)
    (before : Interleaved (Database.exec PgError.operational) (fun _ _ => False)
      (transactions call now) s₀ pool s)
    (unbegun : pool i = transactions call now i) (idle : s.sessions i = {})
    (run : Interleaved (Database.exec PgError.operational) (fun _ _ => False) pool s pool' s')
    (returned : pool' i = .ret ()) : Recorded call i s s' (call i) := by
  obtain ⟨⟨made₀, hsince₀, hstepwise₀⟩, hmade, hpool⟩ :=
    Database.stepwise_interleaved (fun _ => preorders_moves) heeds_transactions rests.made before
  obtain ⟨⟨made, hsince, hstepwise⟩, -, -⟩ :=
    Database.stepwise_interleaved (fun _ => preorders_moves) hpool hmade run
  have htraced : Traced call s s' := by
    refine ⟨fun k => ?_, fun made' hsince' => hsince.unique hsince' ▸ hstepwise⟩
    rw [← hsince₀.row k]
    exact hstepwise₀.along (rests.typed k) (fun _ _ _ htyped hgoes => hgoes.2 htyped)
  have hclean : ∀ k, Database.Clean i k s := by
    intro k
    unfold Database.Clean
    rw [idle]
    rfl
  cases hcall : call i with
  | finishEffect b key v t =>
    refine finished_of_kept htraced (fun v' hcontrol => ?_)
      (kept_returned unbegun run returned ?_)
    · rw [hcall] at hcontrol
      cases hcontrol.2
    · rw [hcall]
      exact safe_connection (leaves_leased (leaves_anyhow (leaves_completeEffect b key v _)))
        (hclean (.step b key))
  | writeControl b key v t =>
    refine written_of_kept htraced (kept_returned unbegun run returned ?_)
    rw [hcall]
    exact safe_connection (leaves_leased (leaves_anyhow (leaves_putControl b key v)))
      (hclean (.step b key))
  | enqueueInput b x v =>
    refine listed_of_kept htraced (kept_returned unbegun run returned ?_)
    rw [hcall]
    exact safe_connection (leaves_insertInput b x v) (hclean (.input b x))
  | commitTransition b tr t => exact transition_recorded unbegun run returned hclean htraced hcall
  | _ => trivial

end

open Transactions (answered exec_answered)

/-- A step that is finished while another worker is about to forget it. -/
def finishers : Nat → Call Nat
  | 0 => .start "run" "tool:c1" 0
  | 1 => .finishEffect "run" "tool:c1" 7 0
  | 2 => .forget "run" "tool:c1" 0
  | _ => .read "run" "tool:c1"

def afterIntent : (Nat → Pg Nat Unit) × Db Nat :=
  scheduled answered [0, 0, 0] (transactions finishers (fun _ => 0)) {}

/-- The `forget` waits for the row it has seen as an intent, and finds a result. -/
def beforeForget : (Nat → Pg Nat Unit) × Db Nat :=
  scheduled answered [1, 1, 2, 1] afterIntent.1 afterIntent.2

def afterForget : (Nat → Pg Nat Unit) × Db Nat :=
  scheduled answered [2, 2] beforeForget.1 beforeForget.2

theorem rests_empty : Rests ({} : Db Nat) := by
  refine ⟨fun _ => rfl, fun k => ?_⟩
  cases k <;> exact fun r hr => by cases hr

theorem run_afterIntent : Interleaved (Database.exec PgError.operational) (fun _ _ => False)
    (transactions finishers (fun _ => 0)) {} afterIntent.1 afterIntent.2 :=
  interleaved_passed exec_answered (fun _ _ => False) [0, 0, 0] _ {} (by decide +kernel)

theorem run_beforeForget : Interleaved (Database.exec PgError.operational) (fun _ _ => False)
    afterIntent.1 afterIntent.2 beforeForget.1 beforeForget.2 :=
  interleaved_passed exec_answered (fun _ _ => False) [1, 1, 2, 1] _ _ (by decide +kernel)

theorem run_afterForget : Interleaved (Database.exec PgError.operational) (fun _ _ => False)
    beforeForget.1 beforeForget.2 afterForget.1 afterForget.2 :=
  interleaved_passed exec_answered (fun _ _ => False) [2, 2] _ _ (by decide +kernel)

theorem rows_ahead_forgetting : ∃ v, stepOf (afterForget.2.row (.step "run" "tool:c1")) = .done v ∧
    (v = 7 ∨ Controlled finishers "run" "tool:c1" v) :=
  rows_ahead rests_empty (run_afterIntent.trans run_beforeForget) run_afterForget
    (.step "run" "tool:c1") 7 (by decide +kernel)

theorem acknowledged_kept_forgetting :
    stepOf (afterForget.2.row (.step "run" "tool:c1")) = .done 7 ∧
      Finished finishers 1 afterIntent.2 afterForget.2 "run" "tool:c1" 7 :=
  ⟨by decide +kernel, acknowledged_kept (i := 1) rests_empty run_afterIntent rfl rfl
    (run_beforeForget.trans run_afterForget) rfl⟩

end Semora.Proofs.Committed
