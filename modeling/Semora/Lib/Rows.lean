import Semora.Lib.ReadCommitted

/-! What every statement keeps of the row it finds, every commit keeps of the committed rows: a
transaction holds the rows it writes from the moment it has read them as they are, so nothing is
committed over a row that it was not made from. -/

namespace Semora.Lib

/-- What a change makes of the row it found. -/
def Change.result {R : Type} (found : Option R) : Change R → Option R
  | .leave | .lock => found
  | .set row => some row
  | .delete => none

/-- A transaction that was committed, and what it wrote. -/
abbrev Commit (ι K R : Type) : Type := ι × Dict K (Option (Version R))

section
variable {ι K R ε α : Type} [DecidableEq K]

/-- Whatever row the operation finds, it leaves one onward of it. -/
def Sql.Respects (onward : K → Option R → Option R → Prop) (o : Sql K R) : Prop :=
  ∀ k, o.key? = some k → ∀ found, onward k found ((o.outcome found).result found)

/-- A preorder on what may stand under each key. -/
structure Preorders (onward : K → Option R → Option R → Prop) : Prop where
  refl : ∀ k row, onward k row row
  trans : ∀ k row row' row'', onward k row row' → onward k row' row'' → onward k row row''

namespace Database
variable {onward : ι → K → Option R → Option R → Prop}

/-- The row committed under the key. -/
def row (s : Database ι K R) (k : K) : Option R := (s.rows.get? k).map Version.row

/-- The row under the key as a transaction has it. -/
def mine (s : Database ι K R) (i : ι) (k : K) : Option R := (s.current i k).map Version.row

/-- The rows there are after some commits. -/
def after (s : Database ι K R) (made : List (Commit ι K R)) : Dict K (Version R) :=
  made.foldl (fun rows c => overlay rows c.2) s.rows

def rowAfter (s : Database ι K R) (made : List (Commit ι K R)) (k : K) : Option R :=
  ((s.after made).get? k).map Version.row

/-- What is written and not committed yet is onward of what is committed, as its own transaction
goes. -/
structure Made (onward : ι → K → Option R → Option R → Prop) (s : Database ι K R) : Prop where
  holding : s.Holding
  pending : ∀ i k version, (s.sessions i).writes.get? k = some version →
    onward i k (s.row k) (version.map Version.row)

/-- `s'` has come of `s` by these commits. -/
structure Since (s s' : Database ι K R) (made : List (Commit ι K R)) : Prop where
  commits : s'.commits = s.commits ++ made
  rows : s'.rows = s.after made

/-- Each of the commits moved each row onward, as its own transaction goes. -/
inductive Stepwise (onward : ι → K → Option R → Option R → Prop) (s : Database ι K R) :
    List (Commit ι K R) → Prop
  | start : Stepwise onward s []
  | commit {made c} (before : Stepwise onward s made)
      (moves : ∀ k, onward c.1 k (s.rowAfter made k) (s.rowAfter (made ++ [c]) k)) :
      Stepwise onward s (made ++ [c])

variable {i : ι} {s s' s'' : Database ι K R} {made made' : List (Commit ι K R)}
variable {broken : ε} {o : Sql K R} {r : Except ε o.Res}

theorem mine_cases (s : Database ι K R) (i : ι) (k : K) :
    (∃ version, (s.sessions i).writes.get? k = some version ∧
      s.mine i k = version.map Version.row) ∨
      ((s.sessions i).writes.get? k = none ∧ s.mine i k = s.row k) := by
  unfold mine Database.current row
  cases hw : (s.sessions i).writes.get? k with
  | none => exact .inr ⟨rfl, rfl⟩
  | some version => exact .inl ⟨version, rfl, rfl⟩

/-- The row a transaction has is onward of the committed one. -/
theorem Made.mine (hpre : ∀ i, Preorders (onward i)) (h : s.Made onward) (i : ι) (k : K) :
    onward i k (s.row k) (s.mine i k) := by
  rcases mine_cases s i k with ⟨version, hw, hmine⟩ | ⟨-, hmine⟩
  · rw [hmine]
    exact h.pending i k version hw
  · rw [hmine]
    exact (hpre i).refl _ _

theorem Since.refl (s : Database ι K R) : Since s s [] := ⟨(List.append_nil _).symm, rfl⟩

theorem Since.trans (h : Since s s' made) (h' : Since s' s'' made') :
    Since s s'' (made ++ made') := by
  refine ⟨?_, ?_⟩
  · rw [h'.commits, h.commits, List.append_assoc]
  · rw [h'.rows]
    unfold after
    rw [h.rows, List.foldl_append]
    rfl

theorem Since.row (h : Since s s' made) (k : K) : s.rowAfter made k = s'.row k := by
  unfold rowAfter Database.row
  rw [h.rows]

theorem Since.unique (h : Since s s' made) (h' : Since s s' made') : made = made' :=
  List.append_cancel_left (h.commits.symm.trans h'.commits)

/-- A commit leaves what it wrote. -/
theorem rowAfter_written {writes : Dict K (Option (Version R))} {k : K} {version : Version R}
    (s : Database ι K R) (made : List (Commit ι K R)) (i : ι)
    (h : writes.get? k = some (some version)) :
    s.rowAfter (made ++ [(i, writes)]) k = some version.row := by
  unfold rowAfter after
  rw [List.foldl_append, List.foldl_cons, List.foldl_nil, get?_overlay, h]
  rfl

/-- What a row is after some of the commits, it becomes by the later ones only. -/
theorem Stepwise.carry {k : K} {F : List (Commit ι K R) → Option R → Prop}
    {earlier later : List (Commit ι K R)} (h : Stepwise onward s (earlier ++ later))
    (begun : F [] (s.rowAfter earlier k))
    (carries : ∀ later c row row', F later row → onward c.1 k row row' → F (later ++ [c]) row') :
    F later (s.rowAfter (earlier ++ later) k) := by
  generalize hmade : earlier ++ later = made at h ⊢
  induction h generalizing later with
  | start =>
    obtain ⟨rfl, rfl⟩ := List.append_eq_nil_iff.mp hmade
    exact begun
  | @commit made c before moves ih =>
    rcases later.eq_nil_or_concat with rfl | ⟨later, c', rfl⟩
    · rw [← hmade, List.append_nil]
      exact begun
    · rw [List.concat_eq_append, ← List.append_assoc] at hmade
      obtain ⟨hbefore, hlast⟩ := List.append_inj' hmade rfl
      obtain rfl := List.singleton_inj.mp hlast
      rw [List.concat_eq_append]
      exact carries _ _ _ _ (ih hbefore) (moves k)

/-- What holds of a row, and every commit preserves, holds of it after them. -/
theorem Stepwise.along {k : K} {F : Option R → Prop} {made : List (Commit ι K R)}
    (h : Stepwise onward s made) (begun : F (s.row k))
    (carries : ∀ i row row', F row → onward i k row row' → F row') : F (s.rowAfter made k) := by
  have hmade : Stepwise onward s ([] ++ made) := h
  exact hmade.carry (F := fun _ row => F row) begun (fun _ c row row' => carries c.1 row row')

/-- The row a transaction has is the one it would leave. -/
theorem rowAfter_writes (s : Database ι K R) (i : ι) (k : K) :
    s.rowAfter [(i, (s.sessions i).writes)] k = s.mine i k := by
  unfold rowAfter after mine current
  rw [List.foldl_cons, List.foldl_nil, get?_overlay]

theorem Stepwise.front {earlier later : List (Commit ι K R)}
    (h : Stepwise onward s (earlier ++ later)) : Stepwise onward s earlier := by
  generalize hmade : earlier ++ later = made at h
  induction h generalizing later with
  | start =>
    obtain ⟨rfl, -⟩ := List.append_eq_nil_iff.mp hmade
    exact .start
  | @commit made c before moves ih =>
    rcases later.eq_nil_or_concat with rfl | ⟨later, c', rfl⟩
    · rw [← List.append_nil earlier, hmade]
      exact .commit before moves
    · rw [List.concat_eq_append, ← List.append_assoc] at hmade
      exact ih (List.append_inj' hmade rfl).1

variable [DecidableEq ι] [DecidableEq R]

/-- Short of a commit nothing is committed, and a commit is one of the thread's own. -/
theorem since_exec (he : exec broken i o s r s') :
    Since s s' [] ∨ (o = .commit ∧ Since s s' [(i, (s.sessions i).writes)]) := by
  by_cases hcommit : o = .commit
  · subst hcommit
    rcases exec_commit he with ⟨hrows, hcommits⟩ | ⟨-, hrows, hcommits, -⟩
    · exact .inl ⟨by rw [hcommits, List.append_nil], hrows⟩
    · exact .inr ⟨rfl, hcommits, hrows⟩
  · obtain ⟨hrows, hcommits⟩ := exec_rows he hcommit
    exact .inl ⟨by rw [hcommits, List.append_nil], hrows⟩

theorem made_commit {r : Except ε Unit} (he : exec broken i (.commit : Sql K R) s r s')
    (h : s.Made onward) : s'.Made onward := by
  have hmoved := exec_moved he
  refine ⟨hmoved.holding h.holding, fun j k version hw => ?_⟩
  have hother : j ≠ i → (s.sessions j).writes.get? k = some version :=
    fun hj => hmoved.others j hj ▸ hw
  rcases exec_commit he with ⟨hrows, -⟩ | ⟨-, hrows, -, hempty⟩
  · have hrow : s'.row k = s.row k := by
      unfold row
      rw [hrows]
    rw [hrow]
    by_cases hj : j = i
    · subst hj
      rcases exec_untouched he (k := k) (by simp [Sql.key?]) with hsame | hnone
      · exact h.pending j k version (hsame ▸ hw)
      · rw [hnone] at hw
        cases hw
    · exact h.pending j k version (hother hj)
  · by_cases hj : j = i
    · subst hj
      rw [hempty] at hw
      cases hw
    · have hrow : s'.row k = s.mine i k := by
        unfold row mine current
        rw [hrows, get?_overlay]
      rw [hrow]
      rcases mine_cases s i k with ⟨version', hmine, -⟩ | ⟨-, hmine⟩
      · -- Both would hold the row.
        have hlock := (h.holding i k version' hmine).symm.trans (h.holding j k version (hother hj))
        exact absurd (Option.some.inj hlock).symm hj
      · rw [hmine]
        exact h.pending j k version (hother hj)

/-- One operation that leaves a row only onward of the one it finds. -/
theorem made_exec (hpre : ∀ i, Preorders (onward i)) (respects : o.Respects (onward i))
    (he : exec broken i o s r s') (h : s.Made onward) : s'.Made onward := by
  by_cases hcommit : o = .commit
  · subst hcommit
    exact made_commit he h
  · have hmoved := exec_moved he
    have hrow : s'.row = s.row := by
      funext k
      unfold row
      rw [(exec_rows he hcommit).1]
    refine ⟨hmoved.holding h.holding, fun j k version hw => ?_⟩
    rw [hrow]
    by_cases hj : j = i
    · subst hj
      have hold : (s'.sessions j).writes.get? k = (s.sessions j).writes.get? k →
          onward j k (s.row k) (version.map Version.row) :=
        fun hsame => h.pending j k version (hsame ▸ hw)
      by_cases hk : o.key? = some k
      · have hfound := (hpre j).trans k _ _ _ (h.mine hpre j k) (respects k hk _)
        rcases exec_touched he hk with hsame | hnone | ⟨row, born, hset, hwritten⟩ | ⟨hdelete, hwritten⟩
        · exact hold hsame
        · rw [hnone] at hw
          cases hw
        · rw [hwritten] at hw
          cases hw
          unfold mine at hfound
          rw [hset] at hfound
          exact hfound
        · rw [hwritten] at hw
          cases hw
          unfold mine at hfound
          rw [hdelete] at hfound
          exact hfound
      · rcases exec_untouched he hk with hsame | hnone
        · exact hold hsame
        · rw [hnone] at hw
          cases hw
    · rw [hmoved.others j hj] at hw
      exact h.pending j k version hw

/-- What a transaction commits moves each row as the transaction goes. -/
theorem stepwise_exec (hpre : ∀ i, Preorders (onward i)) {s₀ : Database ι K R}
    (he : exec broken i o s r s') (h : s.Made onward) (since : Since s₀ s made)
    (before : Stepwise onward s₀ made) :
    ∃ made', Since s₀ s' made' ∧ Stepwise onward s₀ made' := by
  rcases since_exec he with hnone | ⟨-, hown⟩
  · refine ⟨made, ?_, before⟩
    have hsince := since.trans hnone
    rwa [List.append_nil] at hsince
  · refine ⟨_, since.trans hown, .commit before (fun k => ?_)⟩
    have hrow : s₀.rowAfter (made ++ [(i, (s.sessions i).writes)]) k = s.mine i k := by
      rw [(since.trans hown).row, ← hown.row]
      exact rowAfter_writes s i k
    rw [hrow, since.row]
    exact h.mine hpre i k

/-- However the transactions of a pool are interleaved, and whichever connections are lost. -/
theorem stepwise_interleaved (hpre : ∀ i, Preorders (onward i))
    {pool pool' : ι → Prog (Sql K R) Sql.Res ε α}
    (respects : ∀ i, (pool i).AllOps (Sql.Respects (onward i))) (h : s.Made onward)
    (run : Interleaved (exec broken) (fun _ _ => False) pool s pool' s') :
    (∃ made, Since s s' made ∧ Stepwise onward s made) ∧ s'.Made onward ∧
      ∀ i, (pool' i).AllOps (Sql.Respects (onward i)) := by
  have hkept := run.ofAllOps
    (I := fun s' => s'.Made onward ∧ ∃ made, Since s s' made ∧ Stepwise onward s made) respects
    ?_ (fun _ _ move => move.elim) ⟨h, [], .refl s, .start⟩
  · exact ⟨hkept.1.2, hkept.1.1, hkept.2⟩
  · intro i o s₁ r s₂ he ho hkept
    obtain ⟨hmade, made, since, before⟩ := hkept
    exact ⟨made_exec hpre ho he hmade, stepwise_exec hpre he hmade since before⟩

end Database

end

end Semora.Lib
