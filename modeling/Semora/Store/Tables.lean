import Semora.Lib.Alone
import Semora.Store.Postgres

/-! What the methods of the PostgreSQL ledger are made of, when nothing runs beside them: what each
piece of a transaction's body replies and leaves of the three tables. -/

namespace Semora.Store
open Semora.Lib

namespace PostgresSteps

variable {V α : Type} [DecidableEq V]

/-- The body of a transaction on the tables as they are. -/
def onTables (p : Pg V α) (t : Table PgKey (PgRow V)) : Except PgError α × Table PgKey (PgRow V) :=
  p.eval Table.perform t

variable {t : Table PgKey (PgRow V)} {b k : String} {τ : Nat}

@[simp] theorem onTables_ret (a : α) : onTables (.ret a : Pg V α) t = (.ok a, t) := rfl

@[simp] theorem onTables_raise (e : PgError) : onTables (.raise e : Pg V α) t = (.error e, t) := rfl

theorem onTables_bind {β : Type} (p : Pg V β) (f : β → Pg V α) :
    onTables (p.bind f) t = match onTables p t with
      | (.ok a, t') => onTables (f a) t'
      | (.error e, t') => (.error e, t') := by
  unfold onTables
  rw [Prog.eval_bind]
  obtain ⟨r, t'⟩ := p.eval Table.perform t
  cases r <;> rfl

/-- What follows a piece that cannot fail. -/
theorem onTables_then {β : Type} {p : Pg V β} {f : β → Pg V α} {a : β} {t' : Table PgKey (PgRow V)}
    (h : onTables p t = (.ok a, t')) : onTables (p.bind f) t = onTables (f a) t' := by
  rw [onTables_bind, h]

@[simp] theorem onTables_selectRow (k : PgKey) : onTables (selectRow k) t = (.ok (t.row k), t) := rfl

@[simp] theorem onTables_upsertRow (k : PgKey) (f : Option (PgRow V) → Change (PgRow V)) :
    onTables (upsertRow k f) t = (.ok (t.row k), t.apply k (f (t.row k))) := rfl

theorem onTables_changeRow (k : PgKey) (f : PgRow V → Change (PgRow V)) :
    onTables (changeRow k f) t = (.ok (t.change k f).1.isSome, (t.change k f).2) := rfl

theorem onTables_insertRow (k : PgKey) (row : PgRow V) :
    onTables (insertRow k row) t = match t.row k with
      | none => (.ok true, t.apply k (.set row))
      | some _ => (.ok false, t) := by
  unfold insertRow
  rw [Prog.bind_eq, onTables_then (onTables_upsertRow _ _)]
  cases t.row k <;> rfl

/-- The fence goes by the token of the lease's row. -/
theorem onTables_fence : onTables (fence b τ) t =
    (if τ ≠ 0 ∧ τ < tokenIn (t.row (.lease b)) then
      .error (.store (.fenced b τ (tokenIn (t.row (.lease b))))) else .ok (), t) := by
  unfold fence
  by_cases h0 : τ = 0
  · simp [h0]
  · rw [if_neg h0, Prog.bind_eq, onTables_then (onTables_selectRow _)]
    by_cases hlt : τ < tokenIn (t.row (.lease b)) <;> simp [h0, hlt]

/-- Behind the fence, the rest of a leased write runs or does not. -/
theorem onTables_fenced (body : Pg V α) : onTables ((fence b τ).bind (fun _ => body)) t =
    if τ ≠ 0 ∧ τ < tokenIn (t.row (.lease b)) then
      (.error (.store (.fenced b τ (tokenIn (t.row (.lease b))))), t) else onTables body t := by
  rw [onTables_bind, onTables_fence]
  by_cases hstale : τ ≠ 0 ∧ τ < tokenIn (t.row (.lease b))
  · simp only [if_pos hstale]
  · simp only [if_neg hstale]

theorem onTables_putControl (value : V) : onTables (putControl b k value) t =
    (.ok (), t.apply (.step b k) (.set (.step (.done value)))) := rfl

theorem onTables_insertInput (x : String) (value : V) : onTables (insertInput b x value) t =
    match t.row (.input b x) with
      | none => (.ok true, { t with sequence := t.sequence + 1 }.apply (.input b x)
          (.set (.input ⟨x, .pending, value, t.sequence⟩)))
      | some _ => (.ok false, { t with sequence := t.sequence + 1 }) := by
  have hnumber : onTables (sql .nextval) t =
      ((.ok t.sequence, { t with sequence := t.sequence + 1 }) :
        Except PgError Nat × Table PgKey (PgRow V)) := rfl
  unfold insertInput
  rw [Prog.bind_eq, onTables_then hnumber]
  exact onTables_insertRow _ _

/-! What the body of a transaction consists of. -/

omit [DecidableEq V] in
theorem single_selectRow (k : PgKey) : (selectRow k : Pg V _).AllOps Sql.Single := by
  unfold selectRow
  exact Prog.allOps_bind ((Prog.allOps_op _).mpr trivial) (fun _ => (Prog.allOps_op _).mpr trivial)

omit [DecidableEq V] in
theorem single_upsertRow (k : PgKey) (f : Option (PgRow V) → Change (PgRow V)) :
    (upsertRow k f).AllOps Sql.Single := by
  unfold upsertRow
  exact Prog.allOps_bind ((Prog.allOps_op _).mpr trivial) (fun _ => (Prog.allOps_op _).mpr trivial)

omit [DecidableEq V] in
theorem single_changeRow (k : PgKey) (f : PgRow V → Change (PgRow V)) :
    (changeRow k f).AllOps Sql.Single := by
  unfold changeRow
  apply Prog.allOps_bind ((Prog.allOps_op _).mpr trivial)
  intro _
  exact Prog.allOps_bind ((Prog.allOps_op _).mpr trivial) (fun _ => trivial)

omit [DecidableEq V] in
theorem single_insertRow (k : PgKey) (row : PgRow V) : (insertRow k row).AllOps Sql.Single :=
  Prog.allOps_bind (single_upsertRow _ _) (fun _ => trivial)

omit [DecidableEq V] in
theorem single_fence : (fence b τ : Pg V _).AllOps Sql.Single := by
  unfold fence
  split
  · trivial
  · apply Prog.allOps_bind (single_selectRow _)
    intro _
    dsimp only
    split <;> trivial

omit [DecidableEq V] in
theorem single_completeEffect [BEq V] (value : V) (expected : Expected) :
    (completeEffect b k value expected).AllOps Sql.Single := by
  unfold completeEffect
  apply Prog.allOps_bind
  · cases expected
    · exact single_insertRow _ _
    · exact single_changeRow _ _
  · intro completed
    split
    · trivial
    · apply Prog.allOps_bind (single_selectRow _)
      intro row
      split
      · split <;> trivial
      · trivial

omit [DecidableEq V] in
theorem single_mark (status : InputStatus) (keep : InputStatus → Bool) (xs : List String) :
    (mark status keep b xs : Pg V _).AllOps Sql.Single := by
  induction xs with
  | nil => trivial
  | cons x xs ih => exact Prog.allOps_bind ((Prog.allOps_op _).mpr trivial) (fun _ => ih)

omit [DecidableEq V] in
theorem single_putControl (value : V) : (putControl b k value).AllOps Sql.Single :=
  Prog.allOps_bind (single_upsertRow _ _) (fun _ => trivial)

omit [DecidableEq V] in
theorem single_insertInput (x : String) (value : V) : (insertInput b x value).AllOps Sql.Single :=
  Prog.allOps_bind ((Prog.allOps_op _).mpr trivial) (fun _ => single_insertRow _ _)

omit [DecidableEq V] in
theorem single_commit [BEq V] (tr : ExecutionTransition V) :
    (do
      completeEffects b tr.effects
      putControls b tr.controls
      insertInputs b tr.inputs [] : Pg V (List String)).AllOps Sql.Single := by
  have heffects : ∀ effects : List (EffectCompletion V),
      (completeEffects b effects).AllOps Sql.Single := by
    intro effects
    induction effects with
    | nil => trivial
    | cons effect effects ih => exact Prog.allOps_bind (single_completeEffect _ _) (fun _ => ih)
  have hcontrols : ∀ controls : List (String × V), (putControls b controls).AllOps Sql.Single := by
    intro controls
    induction controls with
    | nil => trivial
    | cons control controls ih => exact Prog.allOps_bind (single_putControl _) (fun _ => ih)
  have hinputs : ∀ (inputs : List (String × V)) (inserted : List String),
      (insertInputs b inputs inserted).AllOps Sql.Single := by
    intro inputs
    induction inputs with
    | nil => exact fun _ => trivial
    | cons input inputs ih => exact fun _ => Prog.allOps_bind (single_insertInput _ _) (fun _ => ih _)
  apply Prog.allOps_bind (heffects _)
  intro _
  exact Prog.allOps_bind (hcontrols _) (fun _ => hinputs _ _)

/-! The transaction. -/

variable {ι : Type} [DecidableEq ι] {db : Database ι PgKey (PgRow V)} {i : ι}

/-- Alone, a transaction takes effect as a whole or not at all; only the sequence stays where it
is. -/
theorem connection_alone {body : Pg V α} (hbody : body.AllOps Sql.Single)
    (h : Database.Rests db i t) :
    ((connection body).eval (Database.alone i) db).1 = (onTables body t).1 ∧
      Database.Rests ((connection body).eval (Database.alone i) db).2 i
        (match (onTables body t).1 with
          | .ok _ => (onTables body t).2
          | .error _ => { t with sequence := (onTables body t).2.sequence }) := by
  obtain ⟨hreply, hshows, hrows⟩ := h.shows.eval hbody
  unfold connection
  simp only [Prog.bind_eq, Prog.eval_bind, Prog.eval_tryCatch]
  unfold onTables
  cases hr : (body.eval (Database.alone i) db).1 with
  | ok a =>
    rw [hr] at hreply
    rw [← hreply, show body.eval (Database.alone i) db = (.ok a, _) from Prod.ext hr rfl]
    exact ⟨rfl, hshows.commit⟩
  | error e =>
    rw [hr] at hreply
    rw [← hreply, show body.eval (Database.alone i) db = (.error e, _) from Prod.ext hr rfl]
    refine ⟨rfl, hshows.rollback ?_⟩
    intro k
    rw [hrows]
    exact h.row k

end PostgresSteps

end Semora.Store
