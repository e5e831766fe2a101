import Semora.Lib.ReadCommitted

/-! A transaction that nothing runs beside. Its statements see the rows as they are and act on them
one after the other; it takes effect as a whole or not at all. -/

namespace Semora.Lib

variable {ι K R ε α : Type} [DecidableEq ι] [DecidableEq K]

/-- Rows by their keys, and the next number of the sequence. -/
structure Table (K R : Type) where
  row : K → Option R
  sequence : Nat

namespace Table

/-- What has become of one row. -/
def apply (t : Table K R) (k : K) : Change R → Table K R
  | .set row => { t with row := Function.update t.row k (some row) }
  | .delete => { t with row := Function.update t.row k none }
  | _ => t

/-- `update` or `delete` of one row: the row that was changed, if one was. -/
def change [DecidableEq R] (t : Table K R) (k : K) (f : R → Change R) : Option R × Table K R :=
  match t.row k with
  | none => (none, t)
  | some row => if f row = .leave then (none, t) else (some row, t.apply k (f row))

/-- One operation on the rows as they are. Only a transaction's own ends and the choice of several
rows are left out. -/
def perform [DecidableEq R] : (o : Sql K R) → Table K R → Except ε o.Res × Table K R
  | .statement, t => (.ok (), t)
  | .select k, t => (.ok (t.row k), t)
  | .selectAll _, t => (.ok [], t)
  | .upsert k f, t => (.ok (t.row k), t.apply k (f (t.row k)))
  | .change k f, t => (.ok (t.change k f).1, (t.change k f).2)
  | .nextval, t => (.ok t.sequence, { t with sequence := t.sequence + 1 })
  | .commit, t => (.ok (), t)
  | .rollback, t => (.ok (), t)

end Table

/-- An operation on single rows, inside a transaction. -/
def Sql.Single : Sql K R → Prop
  | .selectAll _ | .commit | .rollback => False
  | _ => True

namespace Database

/-- One operation of a connection that nothing runs beside. -/
def alone [DecidableEq R] (i : ι) (o : Sql K R) (s : Database ι K R) :
    Except ε o.Res × Database ι K R :=
  (.ok (s.perform i o).1, (s.perform i o).2)

/-- Inside its transaction the connection is where the table is. -/
structure Shows (s : Database ι K R) (i : ι) (t : Table K R) : Prop where
  row : ∀ k, (s.current i k).map Version.row = t.row k
  sequence : s.sequence = t.sequence
  snapshot : (s.sessions i).snapshot.getD s.rows = s.rows

/-- Between two transactions of the connection. -/
structure Rests (s : Database ι K R) (i : ι) (t : Table K R) : Prop where
  row : ∀ k, (s.rows.get? k).map Version.row = t.row k
  sequence : s.sequence = t.sequence
  session : s.sessions i = {}

variable {s : Database ι K R} {i : ι} {t : Table K R}

omit [DecidableEq ι] in
theorem Rests.shows (h : Rests s i t) : Shows s i t := by
  refine ⟨?_, h.sequence, by rw [h.session]; rfl⟩
  intro k
  rw [← h.row k]
  unfold current
  rw [h.session]
  rfl

omit [DecidableEq ι] in
theorem Shows.seen (h : Shows s i t) (k : K) : s.seen i k = s.current i k := by
  unfold Database.seen current
  rw [h.snapshot]

theorem current_write (s : Database ι K R) (k k' : K) (version : Option (Version R)) :
    (s.write i k version).current i k' = if k' = k then version else s.current i k' := by
  simp only [write, set, held, current, Function.update_self, Dict.get?_insert]
  split <;> rfl

theorem Shows.apply (h : Shows s i t) (k : K) (change : Change R) :
    Shows (s.apply i k change) i (t.apply k change) ∧ (s.apply i k change).rows = s.rows := by
  have hwrite : ∀ (s' : Database ι K R) (version : Option (Version R)) (row : Option R),
      s'.rows = s.rows → s'.sessions = s.sessions → s'.sequence = s.sequence →
      version.map Version.row = row →
      Shows (s'.write i k version) i { t with row := Function.update t.row k row } := by
    intro s' version row hrows hsessions hsequence hrow
    refine ⟨?_, hsequence.trans h.sequence, ?_⟩
    · intro k'
      rw [current_write]
      dsimp only
      by_cases hk : k' = k
      · subst hk
        rw [if_pos rfl, Function.update_self, hrow]
      · rw [if_neg hk, Function.update_of_ne hk, ← h.row k']
        simp only [current, hsessions, hrows]
    · simpa [write, set, held, hsessions, hrows] using h.snapshot
  cases change with
  | leave => exact ⟨h, rfl⟩
  | lock => exact ⟨⟨h.row, h.sequence, h.snapshot⟩, rfl⟩
  | delete => exact ⟨hwrite s none none rfl rfl rfl rfl, rfl⟩
  | set row =>
    simp only [Database.apply]
    split
    · exact ⟨hwrite s _ (some row) rfl rfl rfl rfl, rfl⟩
    · exact ⟨hwrite _ _ (some row) rfl rfl rfl rfl, rfl⟩

variable [DecidableEq R]

/-- Each operation replies as it would on the table, and leaves what it leaves there. -/
theorem Shows.perform (h : Shows s i t) {o : Sql K R} (ho : o.Single) :
    (alone i o s).1 = ((t.perform o).1 : Except ε o.Res) ∧
      Shows (s.perform i o).2 i ((t.perform o : Except ε o.Res × Table K R)).2 ∧
      (s.perform i o).2.rows = s.rows := by
  cases o with
  | statement =>
    refine ⟨rfl, ⟨?_, h.sequence, by simp [Database.perform, set]⟩, rfl⟩
    intro k
    have hrow := h.row k
    simpa [Database.perform, Table.perform, set, current] using hrow
  | select k =>
    refine ⟨?_, h, rfl⟩
    simp only [alone, Database.perform, Table.perform, h.seen, h.row]
  | upsert k f =>
    obtain ⟨hshows, hrows⟩ := h.apply k (f (t.row k))
    refine ⟨?_, ?_, ?_⟩
    · simp only [alone, Database.perform, Table.perform, h.row]
    · simpa only [Database.perform, Table.perform, h.row] using hshows
    · simpa only [Database.perform, h.row] using hrows
  | change k f =>
    have hrow := h.row k
    cases hc : s.current i k with
    | none =>
      have htarget : s.target i k f = none := by
        unfold target
        rw [h.seen, hc]
      rw [hc] at hrow
      simp only [Option.map_none] at hrow
      refine ⟨?_, ?_, ?_⟩
      · simp [alone, Database.perform, Table.perform, Table.change, htarget, ← hrow]
      · simpa [Database.perform, Table.perform, Table.change, htarget, ← hrow] using h
      · simp [Database.perform, htarget]
    | some version =>
      have htarget : s.target i k f = if f version.row = .leave then none else some version := by
        unfold target
        rw [h.seen, hc]
        simp
      rw [hc] at hrow
      simp only [Option.map_some] at hrow
      by_cases hf : f version.row = .leave
      · refine ⟨?_, ?_, ?_⟩
        · simp [alone, Database.perform, Table.perform, Table.change, htarget, hf, ← hrow]
        · simpa [Database.perform, Table.perform, Table.change, htarget, hf, ← hrow] using h
        · simp [Database.perform, htarget, hf]
      · obtain ⟨hshows, hrows⟩ := h.apply k (f version.row)
        refine ⟨?_, ?_, ?_⟩
        · simp [alone, Database.perform, Table.perform, Table.change, htarget, hf, ← hrow]
        · simpa [Database.perform, Table.perform, Table.change, htarget, hf, ← hrow] using hshows
        · simpa [Database.perform, htarget, hf] using hrows
  | nextval =>
    refine ⟨?_, ⟨h.row, ?_, h.snapshot⟩, rfl⟩
    · simp only [alone, Database.perform, Table.perform, h.sequence]
    · simp only [Database.perform, Table.perform, h.sequence]
  | selectAll | commit | rollback => exact ho.elim

/-- So does the body of a transaction. -/
theorem Shows.eval {p : Prog (Sql K R) Sql.Res ε α} (hp : p.AllOps Sql.Single) (h : Shows s i t) :
    (p.eval (alone i) s).1 = (p.eval Table.perform t).1 ∧
      Shows (p.eval (alone i) s).2 i (p.eval Table.perform t).2 ∧
      (p.eval (alone i) s).2.rows = s.rows := by
  induction p generalizing s t with
  | ret a => exact ⟨rfl, h, rfl⟩
  | raise e => exact ⟨rfl, h, rfl⟩
  | call o k ih =>
    obtain ⟨hreply, hshows, hrows⟩ := h.perform (ε := ε) hp.1
    obtain ⟨h₁, h₂, h₃⟩ := ih _ (hp.2 _) hshows
    simp only [Prog.eval]
    rw [← hreply]
    exact ⟨h₁, h₂, h₃.trans hrows⟩

omit [DecidableEq R] in
theorem Shows.commit (h : Shows s i t) : Rests (s.commit i) i t := by
  refine ⟨?_, h.sequence, by simp [Database.commit, close]⟩
  intro k
  rw [← h.row k]
  simp only [Database.commit, close, get?_overlay, current]

omit [DecidableEq R] in
theorem Shows.rollback (h : Shows s i t) {t₀ : Table K R}
    (hrows : ∀ k, (s.rows.get? k).map Version.row = t₀.row k) :
    Rests (s.close i) i { t₀ with sequence := t.sequence } :=
  ⟨hrows, h.sequence, by simp [close]⟩

end Database

end Semora.Lib
