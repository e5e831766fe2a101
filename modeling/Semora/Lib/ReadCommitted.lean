import Semora.Lib.Dict
import Semora.Lib.Machine

/-! Transactions over one database at READ COMMITTED, statement by statement. A statement sees what
was committed when it began, and the writes of its own transaction; it waits for a row that another
transaction has written, and then goes on with the row as it has become. -/

namespace Semora.Lib

/-- A row and its birth: a row deleted and inserted again under its key is another row. -/
structure Version (R : Type) where
  born : Nat
  row : R
deriving DecidableEq

/-- What a statement does with the row it has found. -/
inductive Change (R : Type)
  | leave
  | lock
  | set (row : R)
  | delete
deriving DecidableEq

/-- What the statements of a transaction are made of. -/
inductive Sql (K R : Type)
  /-- A statement begins. -/
  | statement
  | select (k : K)
  | selectAll (p : K → Bool)
  /-- `insert … on conflict`: goes by the row there is now, whether the statement sees it or not. -/
  | upsert (k : K) (f : Option R → Change R)
  /-- `update` or `delete` of one row: goes by the row the statement sees, and once more by what
  has become of it. -/
  | change (k : K) (f : R → Change R)
  /-- The next number of a sequence, which no rollback gives back. -/
  | nextval
  | commit
  | rollback

namespace Sql

/-- An `upsert` replies the row it found, a `change` the row it changed. -/
@[reducible] def Res {K R : Type} : Sql K R → Type
  | select _ => Option R
  | selectAll _ => List R
  | upsert .. => Option R
  | change .. => Option R
  | nextval => Nat
  | _ => Unit

/-- The row an operation may write. -/
def key? {K R : Type} : Sql K R → Option K
  | upsert k _ | change k _ => some k
  | _ => none

/-- What an operation does with its row as it is now. -/
def outcome {K R : Type} : Sql K R → Option R → Change R
  | upsert _ f, found => f found
  | change _ f, some row => f row
  | _, _ => .leave

end Sql

/-- A connection and the transaction open on it, if one is. -/
structure Session (K R : Type) where
  /-- What was committed when the statement in hand began; nothing before the first statement. -/
  snapshot : Option (Dict K (Version R)) := none
  /-- The rows written and not committed yet; nothing stands for a deleted row. -/
  writes : Dict K (Option (Version R)) := .empty
  lost : Bool := false

/-- The committed rows, who holds which row, the sessions, and all that was committed so far. -/
structure Database (ι K R : Type) where
  rows : Dict K (Version R) := .empty
  locks : K → Option ι := fun _ => none
  births : Nat := 0
  sequence : Nat := 0
  sessions : ι → Session K R := fun _ => {}
  commits : List (ι × Dict K (Option (Version R))) := []

section
variable {ι K R ε : Type} [DecidableEq ι] [DecidableEq K]

/-- Rows with one written row over them. -/
def lay (rows : Dict K (Version R)) : K × Option (Version R) → Dict K (Version R)
  | (k, some version) => rows.insert k version
  | (k, none) => rows.erase k

/-- Rows with a transaction's writes over them. -/
def overlay (rows : Dict K (Version R)) (writes : Dict K (Option (Version R))) :
    Dict K (Version R) :=
  writes.items.foldl lay rows

theorem get?_lay (rows : Dict K (Version R)) (k k' : K) (version : Option (Version R)) :
    (lay rows (k', version)).get? k = if k = k' then version else rows.get? k := by
  cases version with
  | some version => exact Dict.get?_insert rows k' k version
  | none => exact Dict.get?_erase rows k' k

theorem get?_overlay (rows : Dict K (Version R)) (writes : Dict K (Option (Version R))) (k : K) :
    (overlay rows writes).get? k = (writes.get? k).getD (rows.get? k) := by
  obtain ⟨items, hdistinct⟩ := writes
  unfold overlay
  simp only [Dict.get?]
  induction items generalizing rows with
  | nil => rfl
  | cons item items ih =>
    obtain ⟨k', version⟩ := item
    obtain ⟨hnone, hitems⟩ := List.nodup_cons.mp hdistinct
    rw [List.foldl_cons, ih _ hitems]
    have hlay := get?_lay rows k k' version
    simp only [Dict.get?] at hlay
    rw [hlay, fetch]
    split
    · rename_i hk
      rw [fetch_none (hk ▸ hnone)]
      rfl
    · rfl

namespace Database
variable (s : Database ι K R) (i : ι)

def set (session : Session K R) : Database ι K R :=
  { s with sessions := Function.update s.sessions i session }

/-- The row as the statement in hand sees it. -/
def seen (k : K) : Option (Version R) :=
  ((s.sessions i).writes.get? k).getD (((s.sessions i).snapshot.getD s.rows).get? k)

/-- The row as it is now, but for what others have not committed. -/
def current (k : K) : Option (Version R) :=
  ((s.sessions i).writes.get? k).getD (s.rows.get? k)

def held (k : K) : Database ι K R := { s with locks := Function.update s.locks k (some i) }

/-- Write one row, and hold it. -/
def write (k : K) (version : Option (Version R)) : Database ι K R :=
  (s.held i k).set i
    { s.sessions i with writes := (s.sessions i).writes.insert k version }

/-- Do with the row under `k`, found as it is now, what the statement says. -/
def apply (k : K) : Change R → Database ι K R
  | .leave => s
  | .lock => s.held i k
  | .set row =>
    match s.current i k with
    | some version => s.write i k (some ⟨version.born, row⟩)
    | none => { s with births := s.births + 1 }.write i k (some ⟨s.births, row⟩)
  | .delete => s.write i k none

/-- The transaction ends: it holds no row any more. -/
def close : Database ι K R :=
  { s with
    locks := fun k => if s.locks k = some i then none else s.locks k
    sessions := Function.update s.sessions i {} }

def commit : Database ι K R :=
  { s with
    rows := overlay s.rows (s.sessions i).writes
    commits := s.commits ++ [(i, (s.sessions i).writes)] }.close i

/-- The connection is lost, and the transaction with it. -/
def lose : Database ι K R := (s.close i).set i { lost := true }

/-- Whether another transaction holds the row. -/
def Free (k : K) : Prop := s.locks k = none ∨ s.locks k = some i

instance (k : K) : Decidable (s.Free i k) := inferInstanceAs (Decidable (_ ∨ _))

/-- The row a `change` comes to: the one the statement sees and would change, if it is there. -/
def target [DecidableEq R] (k : K) (f : R → Change R) : Option (Version R) :=
  match s.seen i k, s.current i k with
  | some old, some version =>
    if f old.row = .leave ∨ version.born ≠ old.born then none else some version
  | _, _ => none

/-- Whether the session need not wait for the row. -/
def ready [DecidableEq R] : Sql K R → Bool
  | .upsert k _ => s.Free i k
  | .change k f =>
    match s.target i k f with
    | some _ => s.Free i k
    | none => true
  | _ => true

/-- What one operation replies and leaves, when it need not wait. -/
def perform [DecidableEq R] : (o : Sql K R) → o.Res × Database ι K R
  | .statement => ((), s.set i { s.sessions i with snapshot := some s.rows })
  | .select k => ((s.seen i k).map Version.row, s)
  | .selectAll p => ((((overlay ((s.sessions i).snapshot.getD s.rows)
      (s.sessions i).writes).items.filter (fun item => p item.1)).map (fun item => item.2.row)), s)
  | .upsert k f =>
    let found := (s.current i k).map Version.row
    (found, s.apply i k (f found))
  | .change k f =>
    match s.target i k f with
    | some version =>
      -- What has become of the row in the meantime need not be one to change.
      if f version.row = .leave then (none, s) else (some version.row, s.apply i k (f version.row))
    | none => (none, s)
  | .nextval => (s.sequence, { s with sequence := s.sequence + 1 })
  | .commit => ((), s.commit i)
  | .rollback => ((), s.close i)

/-- One operation of a session. Its connection may be lost at it, before or after it was done. -/
def exec [DecidableEq R] (broken : ε) (i : ι) : Prog.Exec (Sql K R) Sql.Res ε (Database ι K R) :=
  fun o s r s' =>
    if (s.sessions i).lost then r = .error broken ∧ s' = s
    else s.ready i o = true ∧ ((r = .ok (s.perform i o).1 ∧ s' = (s.perform i o).2) ∨
      (r = .error broken ∧ (s' = s.lose i ∨ s' = (s.perform i o).2.lose i)))

/-! What an operation leaves. -/

variable {s} {i}

/-- A transaction holds the rows it has written. -/
def Holding (s : Database ι K R) : Prop :=
  ∀ i k version, (s.sessions i).writes.get? k = some version → s.locks k = some i

/-- What one session's operation leaves to the others: their sessions, the rows they hold, and, short
of a commit, what is committed. -/
structure Moved (i : ι) (s s' : Database ι K R) : Prop where
  others : ∀ j, j ≠ i → s'.sessions j = s.sessions j
  locks : ∀ j k, j ≠ i → s.locks k = some j → s'.locks k = some j
  mine : (∀ k version, (s.sessions i).writes.get? k = some version → s.locks k = some i) →
    ∀ k version, (s'.sessions i).writes.get? k = some version → s'.locks k = some i

theorem Moved.holding {s' : Database ι K R} (h : Moved i s s') (held : Holding s) : Holding s' := by
  intro j k version hw
  by_cases hj : j = i
  · subst hj
    exact h.mine (held j) k version hw
  · rw [h.others j hj] at hw
    exact h.locks j k hj (held j k version hw)

theorem moved_set {session : Session K R} (h : session.writes = (s.sessions i).writes ∨
    session.writes = .empty) : Moved i s (s.set i session) := by
  refine ⟨fun j hj => Function.update_of_ne hj _ _, fun j k hj hl => hl, fun held k version hw => ?_⟩
  simp only [set, Function.update_self] at hw
  rcases h with h | h
  · rw [h] at hw
    exact held k version hw
  · rw [h] at hw
    cases hw

theorem moved_close : Moved i s (s.close i) := by
  refine ⟨fun j hj => Function.update_of_ne hj _ _, fun j k hj hl => ?_, fun _ k version hw => ?_⟩
  · have hother : s.locks k ≠ some i := by
      rw [hl]
      exact fun he => hj (Option.some.inj he)
    simp only [close, if_neg hother]
    exact hl
  · simp only [close, Function.update_self] at hw
    cases hw

omit [DecidableEq ι] in
theorem Moved.trans {s₁ s₂ : Database ι K R} (h : Moved i s s₁) (h' : Moved i s₁ s₂) :
    Moved i s s₂ where
  others j hj := (h'.others j hj).trans (h.others j hj)
  locks j k hj hl := h'.locks j k hj (h.locks j k hj hl)
  mine held := h'.mine (h.mine held)

omit [DecidableEq ι] in
theorem moved_held {k : K} (free : s.Free i k) : Moved i s (s.held i k) := by
  have hlocks : ∀ j k', s.locks k' = some j → (s.held i k).locks k' = some j ∨ k' = k := by
    intro j k' hl
    by_cases hk : k' = k
    · exact .inr hk
    · exact .inl ((Function.update_of_ne hk _ _).trans hl)
  refine ⟨fun j _ => rfl, fun j k' hj hl => ?_, fun held k' version hw => ?_⟩
  · rcases hlocks j k' hl with h | rfl
    · exact h
    · rw [Free, hl] at free
      rcases free with h | h
      · cases h
      · exact absurd (Option.some.inj h) hj
  · rcases hlocks i k' (held k' version hw) with h | rfl
    · exact h
    · exact Function.update_self ..

theorem moved_write {k : K} {version : Option (Version R)} (free : s.Free i k) :
    Moved i s (s.write i k version) := by
  obtain ⟨hothers, hlocks, hmine⟩ := moved_held free
  refine ⟨fun j hj => (Function.update_of_ne hj _ _).trans (hothers j hj), hlocks,
    fun held k' version' hw => ?_⟩
  simp only [write, set, Function.update_self, Dict.get?_insert] at hw
  split at hw
  · rename_i hk
    rw [hk]
    exact Function.update_self ..
  · exact hmine held k' version' hw

theorem moved_apply {k : K} {change : Change R} (free : s.Free i k) :
    Moved i s (s.apply i k change) := by
  cases change with
  | leave => exact ⟨fun _ _ => rfl, fun _ _ _ h => h, fun h => h⟩
  | lock => exact moved_held free
  | delete => exact moved_write free
  | set row =>
    simp only [apply]
    split
    · exact moved_write free
    · exact (⟨fun _ _ => rfl, fun _ _ _ h => h, fun h => h⟩ :
        Moved i s { s with births := s.births + 1 }).trans (moved_write free)

theorem apply_writes (s : Database ι K R) (i : ι) (k : K) (change : Change R) :
    ((s.apply i k change).sessions i).writes.get? k = (s.sessions i).writes.get? k ∨
      (∃ row born, change = .set row ∧
        ((s.apply i k change).sessions i).writes.get? k = some (some ⟨born, row⟩)) ∨
      (change = .delete ∧ ((s.apply i k change).sessions i).writes.get? k = some none) := by
  cases change with
  | leave | lock => exact .inl rfl
  | delete => exact .inr (.inr ⟨rfl, by simp [apply, write, set]⟩)
  | set row =>
    refine .inr (.inl ?_)
    simp only [apply]
    split
    · rename_i version _
      exact ⟨row, version.born, rfl, by simp [write, set]⟩
    · exact ⟨row, s.births, rfl, by simp [write, set]⟩

theorem apply_other (s : Database ι K R) (i : ι) {k k' : K} (change : Change R) (hk : k' ≠ k) :
    ((s.apply i k change).sessions i).writes.get? k' = (s.sessions i).writes.get? k' := by
  cases change with
  | leave | lock => rfl
  | delete => simp [apply, write, set, Dict.get?_insert_ne _ _ hk]
  | set row =>
    simp only [apply]
    split <;> simp [write, set, held, Dict.get?_insert_ne _ _ hk]

theorem apply_session (s : Database ι K R) (i : ι) (k : K) (change : Change R) :
    ((s.apply i k change).sessions i).snapshot = (s.sessions i).snapshot := by
  cases change with
  | leave | lock => rfl
  | delete => simp [apply, write, set]
  | set row =>
    simp only [apply]
    split <;> simp [write, set, held]

variable [DecidableEq R]

theorem moved_perform {o : Sql K R} (hready : s.ready i o = true) :
    Moved i s (s.perform i o).2 := by
  have hsame : Moved i s s := ⟨fun _ _ => rfl, fun _ _ _ h => h, fun h => h⟩
  cases o with
  | statement => exact moved_set (.inl rfl)
  | select k => exact hsame
  | selectAll p => exact hsame
  | upsert k f => exact moved_apply (of_decide_eq_true hready)
  | change k f =>
    simp only [ready] at hready
    simp only [perform]
    cases ht : s.target i k f with
    | none => exact hsame
    | some version =>
      rw [ht] at hready
      simp only
      split
      · exact hsame
      · exact moved_apply (of_decide_eq_true hready)
  | nextval => exact ⟨fun _ _ => rfl, fun _ _ _ h => h, fun h => h⟩
  | commit =>
    have hclosed := @moved_close ι K R _ _ { s with
      rows := overlay s.rows (s.sessions i).writes
      commits := s.commits ++ [(i, (s.sessions i).writes)] } i
    exact ⟨hclosed.others, hclosed.locks, hclosed.mine⟩
  | rollback => exact moved_close

variable {broken : ε} {o : Sql K R} {r : Except ε o.Res} {s' : Database ι K R}

theorem exec_moved (h : exec broken i o s r s') : Moved i s s' := by
  unfold exec at h
  split at h
  · rw [h.2]
    exact ⟨fun _ _ => rfl, fun _ _ _ h => h, fun h => h⟩
  · obtain ⟨hready, ⟨-, rfl⟩ | ⟨-, rfl | rfl⟩⟩ := h
    · exact moved_perform hready
    · exact moved_close.trans (moved_set (.inr rfl))
    · exact (moved_perform hready).trans (moved_close.trans (moved_set (.inr rfl)))

/-- Short of a commit, nothing is committed. -/
theorem perform_rows (ho : o ≠ .commit) :
    (s.perform i o).2.rows = s.rows ∧ (s.perform i o).2.commits = s.commits := by
  have happly : ∀ k change, (s.apply i k change).rows = s.rows ∧
      (s.apply i k change).commits = s.commits := by
    intro k change
    cases change with
    | set row =>
      simp only [apply]
      split <;> exact ⟨rfl, rfl⟩
    | leave | lock | delete => exact ⟨rfl, rfl⟩
  cases o with
  | commit => exact absurd rfl ho
  | upsert k f => exact happly k _
  | change k f =>
    simp only [perform]
    split
    · split
      · exact ⟨rfl, rfl⟩
      · exact happly k _
    · exact ⟨rfl, rfl⟩
  | statement | select | selectAll | nextval | rollback => exact ⟨rfl, rfl⟩

theorem exec_rows (h : exec broken i o s r s') (ho : o ≠ .commit) :
    s'.rows = s.rows ∧ s'.commits = s.commits := by
  unfold exec at h
  split at h
  · rw [h.2]
    exact ⟨rfl, rfl⟩
  · obtain ⟨-, ⟨-, rfl⟩ | ⟨-, rfl | rfl⟩⟩ := h
    · exact perform_rows ho
    · exact ⟨rfl, rfl⟩
    · exact perform_rows ho

/-- A commit commits all the transaction has written, or the connection was lost. -/
theorem exec_commit {r : Except ε Unit} (h : exec broken i (.commit : Sql K R) s r s') :
    (s'.rows = s.rows ∧ s'.commits = s.commits) ∨
      ((s.sessions i).lost = false ∧ s'.rows = overlay s.rows (s.sessions i).writes ∧
        s'.commits = s.commits ++ [(i, (s.sessions i).writes)] ∧
        (s'.sessions i).writes = .empty) := by
  unfold exec at h
  split at h
  · rw [h.2]
    exact .inl ⟨rfl, rfl⟩
  · rename_i hlost
    obtain ⟨-, ⟨-, rfl⟩ | ⟨-, rfl | rfl⟩⟩ := h
    · exact .inr ⟨by simpa using hlost, rfl, rfl, by simp [perform, commit, close]⟩
    · exact .inl ⟨rfl, rfl⟩
    · exact .inr ⟨by simpa using hlost, rfl, rfl, by simp [perform, lose, set, close]⟩

/-- What a transaction has written: nothing more of a row the operation is not about. -/
theorem exec_untouched (h : exec broken i o s r s') {k : K} (hk : o.key? ≠ some k) :
    (s'.sessions i).writes.get? k = (s.sessions i).writes.get? k ∨
      (s'.sessions i).writes.get? k = none := by
  have hlose : ∀ s : Database ι K R, ((s.lose i).sessions i).writes.get? k = none := by
    intro s
    simp [lose, set]
  have hperform : ((s.perform i o).2.sessions i).writes.get? k = (s.sessions i).writes.get? k ∨
      ((s.perform i o).2.sessions i).writes.get? k = none := by
    cases o with
    | statement => exact .inl (by simp [perform, set])
    | select | selectAll | nextval => exact .inl rfl
    | upsert k' f => exact .inl (apply_other s i _ (fun he => hk (congrArg some he.symm)))
    | change k' f =>
      refine .inl ?_
      simp only [perform]
      split
      · split
        · rfl
        · exact apply_other s i _ (fun he => hk (congrArg some he.symm))
      · rfl
    | commit => exact .inr (by simp [perform, commit, close])
    | rollback => exact .inr (by simp [perform, close])
  unfold exec at h
  split at h
  · rw [h.2]
    exact .inl rfl
  · obtain ⟨-, ⟨-, rfl⟩ | ⟨-, rfl | rfl⟩⟩ := h
    · exact hperform
    · exact .inr (hlose s)
    · exact .inr (hlose _)

/-- What a transaction has written of the row an operation is about. -/
theorem exec_touched (h : exec broken i o s r s') {k : K} (hk : o.key? = some k) :
    (s'.sessions i).writes.get? k = (s.sessions i).writes.get? k ∨
      (s'.sessions i).writes.get? k = none ∨
      (∃ row born, o.outcome ((s.current i k).map Version.row) = .set row ∧
        (s'.sessions i).writes.get? k = some (some ⟨born, row⟩)) ∨
      (o.outcome ((s.current i k).map Version.row) = .delete ∧
        (s'.sessions i).writes.get? k = some none) := by
  have hlose : ∀ s : Database ι K R, ((s.lose i).sessions i).writes.get? k = none := by
    intro s
    simp [lose, set]
  have happly : ∀ change, o.outcome ((s.current i k).map Version.row) = change →
      (s.perform i o).2 = s.apply i k change ∨ (s.perform i o).2 = s →
      ((s.perform i o).2.sessions i).writes.get? k = (s.sessions i).writes.get? k ∨
      ((s.perform i o).2.sessions i).writes.get? k = none ∨
      (∃ row born, o.outcome ((s.current i k).map Version.row) = .set row ∧
        ((s.perform i o).2.sessions i).writes.get? k = some (some ⟨born, row⟩)) ∨
      (o.outcome ((s.current i k).map Version.row) = .delete ∧
        ((s.perform i o).2.sessions i).writes.get? k = some none) := by
    intro change ho he
    rw [ho]
    rcases he with he | he
    · rw [he]
      rcases apply_writes s i k change with h | h | h
      · exact .inl h
      · exact .inr (.inr (.inl h))
      · exact .inr (.inr (.inr h))
    · rw [he]
      exact .inl rfl
  have hperform := happly _ rfl (by
    cases o with
    | upsert k' f =>
      cases hk
      exact .inl rfl
    | change k' f =>
      cases hk
      simp only [perform]
      cases ht : s.target i k f with
      | none => exact .inr rfl
      | some version =>
        have hcurrent : s.current i k = some version := by
          unfold target at ht
          split at ht
          · split at ht
            · cases ht
            · rename_i hc _
              rw [hc, Option.some.inj ht]
          · cases ht
        simp only
        split
        · exact .inr rfl
        · rw [hcurrent]
          exact .inl rfl
    | statement | select | selectAll | nextval | commit | rollback => cases hk)
  unfold exec at h
  split at h
  · rw [h.2]
    exact .inl rfl
  · obtain ⟨-, ⟨-, rfl⟩ | ⟨-, rfl | rfl⟩⟩ := h
    · exact hperform
    · exact .inr (.inl (hlose s))
    · exact .inr (.inl (hlose _))

/-- A transaction stays open until it ends. -/
theorem exec_open (h : exec broken i o s r s') (hcommit : o ≠ .commit) (hrollback : o ≠ .rollback) :
    (s'.sessions i).lost = true ∨
      ((s.sessions i).snapshot ≠ none → (s'.sessions i).snapshot ≠ none) := by
  have hlose : ∀ s : Database ι K R, ((s.lose i).sessions i).lost = true := by
    intro s
    simp [lose, set]
  unfold exec at h
  split at h
  · rw [h.2]
    exact .inr fun hopen => hopen
  · obtain ⟨-, ⟨-, rfl⟩ | ⟨-, rfl | rfl⟩⟩ := h
    · refine .inr fun hopen => ?_
      cases o with
      | statement => simp [perform, set]
      | select | selectAll | nextval => exact hopen
      | upsert k f => exact (apply_session s i k _).symm ▸ hopen
      | change k f =>
        simp only [perform]
        split
        · split
          · exact hopen
          · exact (apply_session s i k _).symm ▸ hopen
        · exact hopen
      | commit => exact absurd rfl hcommit
      | rollback => exact absurd rfl hrollback
    · exact .inl (hlose s)
    · exact .inl (hlose _)

end Database

end

end Semora.Lib
