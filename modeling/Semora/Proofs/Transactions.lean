import Semora.Store.Postgres

/-! Concurrent transactions of the PostgreSQL ledger: whose writes take effect after a newer token
was issued. -/

namespace Semora.Proofs.Transactions
open Semora.Lib Semora.Store Semora.Store.PostgresSteps

variable {V : Type}

abbrev Db (V : Type) : Type := Database Nat PgKey (PgRow V)

/-- What a transaction wrote, by row. -/
abbrev Writes (V : Type) : Type := Dict PgKey (Option (Version (PgRow V)))

/-- The token a row of the lease table carries. -/
def tokenOf (version : Option (Version (PgRow V))) : Nat := tokenIn (version.map Version.row)

/-- The token last issued for the branch, as far as is committed. -/
def issued (s : Db V) (b : String) : Nat := tokenOf (s.rows.get? (.lease b))

/-- The transaction has begun its first statement and has not ended. -/
def Open (s : Db V) (i : Nat) : Prop := (s.sessions i).snapshot ≠ none

/-- What the transaction wrote are steps, controls or inputs of the branch. -/
def Takes (writes : Writes V) (b : String) : Prop :=
  ∃ k version, writes.get? k = some version ∧
    ((∃ key, k = .step b key) ∨ ∃ inputId, k = .input b inputId)

section
variable (call : Nat → Call V)

/-- The call is a write to the branch under a token. -/
def Presents (i : Nat) (b : String) (u : Nat) : Prop :=
  (call i).branchId = b ∧ (call i).token? = some u ∧ u ≠ 0

/-- The call asked for the branch's lease, and what it wrote gives it out under the token. -/
def Issues (j : Nat) (writes : Writes V) (b : String) (t : Nat) : Prop :=
  (∃ owner ttl, call j = .acquire b owner ttl) ∧
    ∃ born owner deadline, writes.get? (.lease b) = some (some ⟨born, .lease ⟨owner, t, deadline⟩⟩)

/-- No write took effect that presents an older token than one issued before. -/
def NoneStale (s : Db V) : Prop :=
  ∀ before i writes later, s.commits = before ++ (i, writes) :: later →
    ∀ b u, Presents call i b u → Takes writes b →
    ∀ j writes' t, (j, writes') ∈ before → Issues call j writes' b t → t ≤ u

/-- If the transaction is about to commit a new token, no transaction that presents the one it
replaces is open. -/
def Settled (i : Nat) (s : Db V) : Prop :=
  ∀ b, issued s b < tokenOf (s.current i (.lease b)) →
    ∀ j, Presents call j b (issued s b) → ¬ Open s j

/-- One operation of a transaction, which commits only when that is settled. -/
def orderly [DecidableEq V] (i : Nat) : Prog.Exec (PgOp V) Sql.Res PgError (Db V) :=
  fun o s r s' => Database.exec PgError.operational i o s r s' ∧ (o = .commit → Settled call i s)

/-- The database answers for what was committed, and for what is about to be. -/
structure Inv (s : Db V) : Prop where
  holding : s.Holding
  pending : ∀ i b version, (s.sessions i).writes.get? (.lease b) = some version →
    issued s b ≤ tokenOf version ∧ tokenOf version ≤ issued s b + 1
  past : ∀ commit ∈ s.commits, ∀ b version, commit.2.get? (.lease b) = some version →
    tokenOf version ≤ issued s b
  none : NoneStale call s

structure Rely (i : Nat) (s s' : Db V) : Prop where
  inv : Inv call s'
  own : s'.sessions i = s.sessions i
  fenced : ∀ b u, Presents call i b u → Open s i → issued s b ≤ u → issued s' b ≤ u

structure Guarantee (i : Nat) (s s' : Db V) : Prop where
  inv : Inv call s'
  others : ∀ j, j ≠ i → s'.sessions j = s.sessions j
  fenced : ∀ j, j ≠ i → ∀ b u, Presents call j b u → Open s j → issued s b ≤ u → issued s' b ≤ u

/-- The transaction is past its fence, unless its connection is lost. -/
def Cleared (i : Nat) (s : Db V) : Prop :=
  (s.sessions i).lost = true ∨ ∀ b u, Presents call i b u → Open s i ∧ issued s b ≤ u

/-- An operation of a method's body that is about no lease. -/
def Plain (o : PgOp V) : Prop :=
  o ≠ .commit ∧ o ≠ .rollback ∧ ∀ b, o.key? ≠ some (.lease b)

end

section
variable [DecidableEq V] {call : Nat → Call V} {i : Nat} {s s' : Db V}

omit [DecidableEq V] in
theorem compatible (α : Type) : Compatible (ε := PgError) (α := α) (fun _ _ => False) (Inv call)
    (Rely call) (Guarantee call) (fun _ _ _ => True) where
  refl _ _ h := ⟨h, rfl, fun _ _ _ _ h => h⟩
  trans i s s₁ s₂ h h' := by
    refine ⟨h'.inv, h'.own.trans h.own, fun b u hp hopen hle => ?_⟩
    have hopen₁ : Open s₁ i := by
      unfold Open
      rw [h.own]
      exact hopen
    exact h'.fenced b u hp hopen₁ (h.fenced b u hp hopen hle)
  stable _ _ _ _ _ _ := trivial
  keeps _ _ _ _ h := h.inv
  other i j _ _ hne _ h := ⟨h.inv, h.others j (Ne.symm hne), h.fenced j (Ne.symm hne)⟩
  env _ _ _ move := move.elim

omit [DecidableEq V] in
theorem Cleared.rely (h : Cleared call i s) (hr : Rely call i s s') : Cleared call i s' := by
  rcases h with h | h
  · exact .inl (hr.own ▸ h)
  · refine .inr fun b u hp => ?_
    obtain ⟨hopen, hle⟩ := h b u hp
    refine ⟨?_, hr.fenced b u hp hopen hle⟩
    unfold Open
    rw [hr.own]
    exact hopen

/-- Short of a commit, an operation is settled as soon as the lease rows it may have written are. -/
theorem guarantee_moved {o : PgOp V} {r : Except PgError o.Res} (h : Inv call s)
    (he : Database.exec PgError.operational i o s r s')
    (hrows : s'.rows = s.rows) (hcommits : s'.commits = s.commits)
    (hmine : ∀ b version, (s'.sessions i).writes.get? (.lease b) = some version →
      issued s b ≤ tokenOf version ∧ tokenOf version ≤ issued s b + 1) :
    Guarantee call i s s' := by
  have hmoved := Database.exec_moved he
  have hissued : ∀ b, issued s' b = issued s b := by
    intro b
    unfold issued
    rw [hrows]
  refine ⟨⟨hmoved.holding h.holding, ?_, ?_, ?_⟩, hmoved.others, ?_⟩
  · intro j b version hw
    rw [hissued]
    by_cases hj : j = i
    · subst hj
      exact hmine b version hw
    · rw [hmoved.others j hj] at hw
      exact h.pending j b version hw
  · intro commit hc b version hw
    rw [hissued]
    rw [hcommits] at hc
    exact h.past commit hc b version hw
  · unfold NoneStale
    rw [hcommits]
    exact h.none
  · intro j _ b u _ _ hle
    rw [hissued]
    exact hle

theorem guarantee_apart {o : PgOp V} {r : Except PgError o.Res} (h : Inv call s)
    (he : Database.exec PgError.operational i o s r s') (ho : o ≠ .commit)
    (hk : ∀ b, o.key? ≠ some (.lease b)) : Guarantee call i s s' := by
  obtain ⟨hrows, hcommits⟩ := Database.exec_rows he ho
  refine guarantee_moved h he hrows hcommits fun b version hw => ?_
  rcases Database.exec_untouched he (hk b) with hsame | hnone
  · exact h.pending i b version (hsame ▸ hw)
  · rw [hnone] at hw
    cases hw

/-- A lease row is written with the token it has, or with the next one. -/
theorem guarantee_lease {o : PgOp V} {r : Except PgError o.Res} {b : String} (h : Inv call s)
    (he : Database.exec PgError.operational i o s r s') (hk : o.key? = some (.lease b))
    (hnone : (s.sessions i).writes.get? (.lease b) = none)
    (hset : ∀ version, o.outcome (version.map Version.row) ≠ .delete ∧
      ∀ row, o.outcome (version.map Version.row) = .set row → ∀ born,
        tokenOf version ≤ tokenOf (some ⟨born, row⟩) ∧
          tokenOf (some ⟨born, row⟩) ≤ tokenOf version + 1) : Guarantee call i s s' := by
  have ho : o ≠ .commit := by
    rintro rfl
    cases hk
  have hcurrent : s.current i (.lease b) = s.rows.get? (.lease b) := by
    unfold Database.current
    rw [hnone]
    rfl
  obtain ⟨hrows, hcommits⟩ := Database.exec_rows he ho
  refine guarantee_moved h he hrows hcommits fun b' version hw => ?_
  by_cases hb : b' = b
  · subst hb
    rcases Database.exec_touched he hk with hsame | hgone | ⟨row, born, hrow, hwrote⟩ | ⟨hdelete, -⟩
    · rw [hsame, hnone] at hw
      cases hw
    · rw [hgone] at hw
      cases hw
    · rw [hwrote] at hw
      cases hw
      rw [hcurrent] at hrow
      exact (hset _).2 row hrow born
    · exact absurd hdelete (hset _).1
  · have hother : o.key? ≠ some (.lease b') := by
      rw [hk]
      intro he
      cases he
      exact hb rfl
    rcases Database.exec_untouched he hother with hsame | hgone
    · exact h.pending i b' version (hsame ▸ hw)
    · rw [hgone] at hw
      cases hw

/-- A commit behind the fence. -/
theorem guarantee_commit {r : Except PgError Unit} (h : Inv call s) (hcleared : Cleared call i s)
    (hsettled : Settled call i s)
    (he : Database.exec PgError.operational i (.commit : PgOp V) s r s') :
    Guarantee call i s s' := by
  have hmoved := Database.exec_moved he
  rcases Database.exec_commit he with ⟨hrows, hcommits⟩ | ⟨hlost, hrows, hcommits, hempty⟩
  · refine guarantee_moved h he hrows hcommits fun b version hw => ?_
    rcases Database.exec_untouched he (k := .lease b) (by simp [Sql.key?]) with hsame | hnone
    · exact h.pending i b version (hsame ▸ hw)
    · rw [hnone] at hw
      cases hw
  · have hissued : ∀ b, issued s' b = tokenOf (s.current i (.lease b)) := by
      intro b
      unfold issued Database.current
      rw [hrows, get?_overlay]
    have hkept : ∀ b, (s.sessions i).writes.get? (.lease b) = none → issued s' b = issued s b := by
      intro b hnone
      rw [hissued]
      unfold issued Database.current
      rw [hnone]
      rfl
    have hwritten : ∀ b version, (s.sessions i).writes.get? (.lease b) = some version →
        issued s' b = tokenOf version := by
      intro b version hw
      rw [hissued]
      unfold Database.current
      rw [hw]
      rfl
    have hgrows : ∀ b, issued s b ≤ issued s' b ∧ issued s' b ≤ issued s b + 1 := by
      intro b
      cases hw : (s.sessions i).writes.get? (.lease b) with
      | none =>
        rw [hkept b hw]
        omega
      | some version =>
        rw [hwritten b version hw]
        exact h.pending i b version hw
    refine ⟨⟨hmoved.holding h.holding, ?_, ?_, ?_⟩, hmoved.others, ?_⟩
    · intro j b version hw
      by_cases hj : j = i
      · subst hj
        rw [hempty] at hw
        cases hw
      · -- Another transaction has written this lease, so this one has not.
        rw [hmoved.others j hj] at hw
        have hnone : (s.sessions i).writes.get? (.lease b) = none := by
          by_contra hne
          obtain ⟨version', hw'⟩ := Option.ne_none_iff_exists'.mp hne
          have hi := h.holding i _ _ hw'
          rw [h.holding j _ _ hw] at hi
          exact hj (Option.some.inj hi)
        rw [hkept b hnone]
        exact h.pending j b version hw
    · intro commit hc b version hw
      rw [hcommits] at hc
      rcases List.mem_append.mp hc with hc | hc
      · exact (h.past commit hc b version hw).trans (hgrows b).1
      · rw [List.mem_singleton.mp hc] at hw
        rw [hwritten b version hw]
    · intro before k writes later hsplit b u hp htakes j writes' t hj hissues
      rw [hcommits] at hsplit
      rcases List.eq_nil_or_concat later with rfl | ⟨later', commit, rfl⟩
      · obtain ⟨rfl, hlast⟩ := List.append_inj' hsplit rfl
        cases hlast
        obtain ⟨-, born, owner, deadline, hw⟩ := hissues
        have hpast := h.past _ hj b _ hw
        rcases hcleared with hcleared | hcleared
        · rw [hlost] at hcleared
          cases hcleared
        · exact hpast.trans (hcleared b u hp).2
      · have hfront : s.commits = before ++ (k, writes) :: later' := by
          rw [List.concat_eq_append, ← List.cons_append, ← List.append_assoc] at hsplit
          exact (List.append_inj' hsplit rfl).1
        exact h.none before k writes later' hfront b u hp htakes j writes' t hj hissues
    · intro j hj b u hp hopen hle
      by_cases hnew : issued s b < issued s' b
      · by_contra hgt
        have hu : u = issued s b := by
          have := (hgrows b).2
          omega
        exact hsettled b (hissued b ▸ hnew) j (hu ▸ hp) hopen
      · omega

/-! The methods, each one transaction. -/

abbrev Safe (call : Nat → Call V) (i : Nat) {α : Type} (p : Pg V α)
    (Q : Except PgError α → Db V → Prop) (s : Db V) : Prop :=
  Prog.safe (orderly call i) (Rely call i) (Guarantee call i) p Q s

/-- An operation that is about no lease keeps a transaction past its fence. -/
theorem plain_step {o : PgOp V} {r : Except PgError o.Res} (ho : Plain o) (h : Inv call s)
    (hcleared : Cleared call i s) (he : Database.exec PgError.operational i o s r s') :
    Guarantee call i s s' ∧ Cleared call i s' := by
  obtain ⟨hcommit, hrollback, hk⟩ := ho
  refine ⟨guarantee_apart h he hcommit hk, ?_⟩
  have hissued : ∀ b, issued s' b = issued s b := by
    intro b
    unfold issued
    rw [(Database.exec_rows he hcommit).1]
  rcases hcleared with hlost | hcleared
  · unfold Database.exec at he
    rw [if_pos hlost] at he
    exact .inl (he.2 ▸ hlost)
  · rcases Database.exec_open he hcommit hrollback with hlost | hopen
    · exact .inl hlost
    · refine .inr fun b u hp => ?_
      obtain ⟨hbefore, hle⟩ := hcleared b u hp
      exact ⟨hopen hbefore, hissued b ▸ hle⟩

theorem safe_plain {α : Type} {p : Pg V α} (hp : p.AllOps Plain) (h : Inv call s)
    (hcleared : Cleared call i s) :
    Safe call i p (fun _ s' => Inv call s' ∧ Cleared call i s') s := by
  refine Prog.safe_of_allOps (I := fun s => Inv call s ∧ Cleared call i s) ?_ ?_ hp ⟨h, hcleared⟩
  · rintro s₁ s₂ hr ⟨-, hcleared⟩
    exact ⟨hr.inv, hcleared.rely hr⟩
  · rintro o ho s₁ r s₂ ⟨hinv, hcleared⟩ ⟨he, -⟩
    obtain ⟨hg, hcleared'⟩ := plain_step ho hinv hcleared he
    exact ⟨hg, hg.inv, hcleared'⟩

/-- The statement in hand sees the branch's lease under the token `n`, and nobody has been let to
commit a newer one than a token that is not older than `n`. -/
structure Sees (call : Nat → Call V) (i : Nat) (b : String) (n : Nat) (s : Db V) : Prop where
  opened : Open s i
  seen : tokenOf (s.seen i (.lease b)) = n
  fenced : ∀ u, Presents call i b u → n ≤ u → issued s b ≤ u

omit [DecidableEq V] in
theorem Open.rely (h : Open s i) (hr : Rely call i s s') : Open s' i := by
  unfold Open
  rw [hr.own]
  exact h

omit [DecidableEq V] in
theorem Sees.rely {b : String} {n : Nat} (h : Sees call i b n s) (hr : Rely call i s s') :
    Sees call i b n s' := by
  have hsnapshot := h.opened
  refine ⟨h.opened.rely hr, ?_, fun u hp hle => hr.fenced b u hp h.opened (h.fenced u hp hle)⟩
  rw [← h.seen]
  unfold Database.seen
  rw [hr.own]
  obtain ⟨snapshot, hsome⟩ := Option.ne_none_iff_exists'.mp hsnapshot
  rw [hsome]
  rfl

/-- A statement sees what is committed as it begins. -/
theorem sees_statement {b : String} {u : Unit} (hnone : (s.sessions i).writes.get? (.lease b) = none)
    (he : Database.exec PgError.operational i (.statement : PgOp V) s (.ok u) s') :
    Sees call i b (issued s b) s' := by
  unfold Database.exec at he
  split at he
  · cases he.1
  · obtain ⟨-, ⟨-, rfl⟩ | ⟨hbad, -⟩⟩ := he
    · refine ⟨by simp [Open, Database.perform, Database.set], ?_, fun u _ hle => hle⟩
      unfold Database.seen issued
      simp [Database.perform, Database.set, hnone]
    · cases hbad

theorem sees_select {b : String} {n : Nat} {row : Option (PgRow V)} (h : Sees call i b n s)
    (he : Database.exec PgError.operational i (.select (.lease b) : PgOp V) s (.ok row) s') :
    s' = s ∧ tokenIn row = n := by
  unfold Database.exec at he
  split at he
  · cases he.1
  · obtain ⟨-, ⟨hrow, rfl⟩ | ⟨hbad, -⟩⟩ := he
    · refine ⟨rfl, ?_⟩
      cases hrow
      exact h.seen
    · cases hbad

/-- Behind the fence no newer token was issued when the statement began that looked for one. -/
theorem safe_fence {b : String} {t : Nat} (h : Inv call s)
    (hb : (call i).branchId = b) (ht : (call i).token? = some t)
    (hnone : (s.sessions i).writes.get? (.lease b) = none) :
    Safe call i (fence b t) (fun r s' => ∀ u, r = .ok u → Inv call s' ∧ Cleared call i s') s := by
  unfold fence
  split
  · rename_i hzero
    intro _ _
    refine ⟨h, .inr fun b' u hp => ?_⟩
    obtain ⟨-, hu, hne⟩ := hp
    rw [ht] at hu
    exact absurd (hzero ▸ Option.some.inj hu).symm hne
  · unfold selectRow statement sql
    refine (Prog.safe_bind _ _ _ _).mpr ((Prog.safe_bind _ _ _ _).mpr
      ((Prog.safe_op _ _ _).mpr (fun s₁ hr₁ r₁ s₂ he₁ => ?_)))
    refine ⟨guarantee_apart hr₁.inv he₁.1 (by simp) (by simp [Sql.key?]), ?_⟩
    cases r₁ with
    | error e => simp
    | ok u =>
      have hsees : Sees call i b (issued s₁ b) s₂ := sees_statement (hr₁.own ▸ hnone) he₁.1
      refine (Prog.safe_op _ _ _).mpr (fun s₃ hr₃ r₃ s₄ he₃ => ?_)
      refine ⟨guarantee_apart hr₃.inv he₃.1 (by simp) (by simp [Sql.key?]), ?_⟩
      cases r₃ with
      | error e => simp
      | ok row =>
        obtain ⟨rfl, hread⟩ := sees_select (hsees.rely hr₃) he₃.1
        simp only [hread]
        split
        · simp
        · rename_i hle
          intro _ _
          refine ⟨hr₃.inv, .inr fun b' u hp => ?_⟩
          have hbranch : b' = b := hp.1.symm.trans hb
          have htoken : u = t := Option.some.inj (hp.2.1.symm.trans ht)
          subst hbranch
          subst htoken
          exact ⟨(hsees.rely hr₃).opened, (hsees.rely hr₃).fenced u hp (by omega)⟩

/-- A transaction whose body gets past the fence, if it gets anywhere. -/
theorem safe_connection {α : Type} {body : Pg V α}
    (hbody : Safe call i body (fun r s' => ∀ a, r = .ok a → Cleared call i s') s) :
    Safe call i (connection body) (fun _ _ => True) s := by
  unfold connection sql
  refine (Prog.safe_bind _ _ _ _).mpr ((Prog.safe_tryCatch _ _ _ _).mpr (Prog.safe_post hbody ?_))
  rintro (e | a) s₁ hcleared
  · refine (Prog.safe_bind _ _ _ _).mpr ((Prog.safe_op _ _ _).mpr (fun s₂ hr r s₃ he => ?_))
    refine ⟨guarantee_apart hr.inv he.1 (by simp) (by simp [Sql.key?]), ?_⟩
    cases r <;> trivial
  · refine (Prog.safe_bind _ _ _ _).mpr ((Prog.safe_op _ _ _).mpr (fun s₂ hr r s₃ he => ?_))
    refine ⟨guarantee_commit hr.inv ((hcleared a rfl).rely hr) (he.2 rfl) he.1, ?_⟩
    cases r <;> trivial

/-! What the bodies are made of. -/

omit [DecidableEq V] in
theorem plain_sql {o : PgOp V} (ho : Plain o) : (sql o).AllOps Plain :=
  (Prog.allOps_op o).mpr ho

omit [DecidableEq V] in
theorem plain_statement : (statement : Pg V Unit).AllOps Plain :=
  plain_sql ⟨by simp, by simp, by simp [Sql.key?]⟩

omit [DecidableEq V] in
theorem plain_selectRow (k : PgKey) : (selectRow k : Pg V _).AllOps Plain :=
  Prog.allOps_bind plain_statement (fun _ => plain_sql ⟨by simp, by simp, by simp [Sql.key?]⟩)

section
variable {k : PgKey} (hk : ∀ b, k ≠ .lease b)
include hk

omit [DecidableEq V] in
theorem plain_upsertRow (f : Option (PgRow V) → Change (PgRow V)) : (upsertRow k f).AllOps Plain :=
  Prog.allOps_bind plain_statement
    (fun _ => plain_sql ⟨by simp, by simp, by simpa [Sql.key?] using hk⟩)

omit [DecidableEq V] in
theorem plain_insertRow (row : PgRow V) : (insertRow k row).AllOps Plain :=
  Prog.allOps_bind (plain_upsertRow hk _) (fun _ => trivial)

omit [DecidableEq V] in
theorem plain_change (f : PgRow V → Change (PgRow V)) : (sql (.change k f)).AllOps Plain :=
  plain_sql ⟨by simp, by simp, by simpa [Sql.key?] using hk⟩

omit [DecidableEq V] in
theorem plain_changeRow (f : PgRow V → Change (PgRow V)) : (changeRow k f).AllOps Plain :=
  Prog.allOps_bind plain_statement
    (fun _ => Prog.allOps_bind (plain_change hk f) (fun _ => trivial))

end

theorem plain_completeEffect (b key : String) (value : V) (expected : Expected) :
    (completeEffect b key value expected).AllOps Plain := by
  have hk : ∀ b', PgKey.step b key ≠ .lease b' := by simp
  unfold completeEffect
  refine Prog.allOps_bind ?_ (fun completed => ?_)
  · cases expected with
    | absent => exact plain_insertRow hk _
    | running => exact plain_changeRow hk _
  · split
    · trivial
    · refine Prog.allOps_bind (plain_selectRow _) (fun row => ?_)
      cases stepOf row with
      | done recorded =>
        simp only
        split <;> trivial
      | absent | running => trivial

omit [DecidableEq V] in
theorem plain_putControl (b key : String) (value : V) : (putControl b key value).AllOps Plain :=
  Prog.allOps_bind (plain_upsertRow (by simp) _) (fun _ => trivial)

omit [DecidableEq V] in
theorem plain_insertInput (b inputId : String) (value : V) :
    (insertInput b inputId value).AllOps Plain :=
  Prog.allOps_bind (plain_sql ⟨by simp, by simp, by simp [Sql.key?]⟩)
    (fun _ => plain_insertRow (by simp) _)

omit [DecidableEq V] in
theorem plain_mark (status : InputStatus) (keep : InputStatus → Bool) (b : String)
    (inputIds : List String) : (mark status keep b inputIds : Pg V Unit).AllOps Plain := by
  induction inputIds with
  | nil => trivial
  | cons inputId inputIds ih => exact Prog.allOps_bind (plain_change (by simp) _) (fun _ => ih)

theorem plain_completeEffects (b : String) (effects : List (EffectCompletion V)) :
    (completeEffects b effects).AllOps Plain := by
  induction effects with
  | nil => trivial
  | cons effect effects ih => exact Prog.allOps_bind (plain_completeEffect b _ _ _) (fun _ => ih)

omit [DecidableEq V] in
theorem plain_putControls (b : String) (controls : List (String × V)) :
    (putControls b controls).AllOps Plain := by
  induction controls with
  | nil => trivial
  | cons control controls ih => exact Prog.allOps_bind (plain_putControl b _ _) (fun _ => ih)

omit [DecidableEq V] in
theorem plain_insertInputs (b : String) (inputs : List (String × V)) (inserted : List String) :
    (insertInputs b inputs inserted).AllOps Plain := by
  induction inputs generalizing inserted with
  | nil => trivial
  | cons input inputs ih => exact Prog.allOps_bind (plain_insertInput b _ _) (fun _ => ih _)

/-- A leased write: the fence, and behind it nothing about any lease. -/
theorem safe_leased {α : Type} {b : String} {t : Nat} {write : Pg V α} (h : Inv call s)
    (hfresh : s.sessions i = {}) (hb : (call i).branchId = b) (ht : (call i).token? = some t)
    (hwrite : write.AllOps Plain) :
    Safe call i (connection (do fence b t; write)) (fun _ _ => True) s := by
  refine safe_connection ((Prog.safe_bind _ _ _ _).mpr
    (Prog.safe_post (safe_fence h hb ht (by rw [hfresh]; rfl)) ?_))
  rintro (e | u) s₁ hcleared
  · simp
  · obtain ⟨hinv, hcleared⟩ := hcleared u rfl
    exact Prog.safe_post (safe_plain hwrite hinv hcleared) (fun r s₂ h₂ a _ => h₂.2)

omit [DecidableEq V] in
/-- A call that presents no token needs no fence. -/
theorem cleared_untokened (ht : (call i).token? = none) : Cleared call i s := by
  refine .inr fun b u hp => ?_
  rw [Presents, ht] at hp
  cases hp.2.1

theorem safe_untokened {α : Type} {body : Pg V α} (h : Inv call s)
    (ht : (call i).token? = none) (hbody : body.AllOps Plain) :
    Safe call i (connection body) (fun _ _ => True) s :=
  safe_connection (Prog.safe_post (safe_plain hbody h (cleared_untokened ht))
    (fun _ _ h₁ _ _ => h₁.2))

/-- A statement about the branch's lease, the first of its transaction. -/
theorem safe_lease {b : String} {o : PgOp V} (hfresh : s.sessions i = {})
    (hk : o.key? = some (.lease b))
    (hset : ∀ version, o.outcome (version.map Version.row) ≠ .delete ∧
      ∀ row, o.outcome (version.map Version.row) = .set row → ∀ born,
        tokenOf version ≤ tokenOf (some ⟨born, row⟩) ∧
          tokenOf (some ⟨born, row⟩) ≤ tokenOf version + 1) :
    Safe call i (do statement; sql o) (fun _ _ => True) s := by
  refine (Prog.safe_bind _ _ _ _).mpr ((Prog.safe_op _ _ _).mpr (fun s₁ hr₁ r₁ s₂ he₁ => ?_))
  have hg₁ := guarantee_apart hr₁.inv he₁.1 (by simp) (by simp [Sql.key?])
  refine ⟨hg₁, ?_⟩
  cases r₁ with
  | error e => trivial
  | ok u =>
    have hnone : (s₂.sessions i).writes.get? (.lease b) = none := by
      rcases Database.exec_untouched he₁.1 (k := .lease b) (by simp [Sql.key?]) with hw | hw
      · rw [hw, hr₁.own, hfresh]
        rfl
      · exact hw
    refine (Prog.safe_op _ _ _).mpr (fun s₃ hr₃ r₃ s₄ he₃ => ⟨?_, trivial⟩)
    exact guarantee_lease hr₃.inv he₃.1 hk (hr₃.own ▸ hnone) hset

theorem safe_acquire {b owner : String} {ttl now : ℚ} (hfresh : s.sessions i = {})
    (ht : (call i).token? = none) :
    Safe call i (acquire b owner ttl now) (fun _ _ => True) s := by
  refine safe_connection ((Prog.safe_bind _ _ _ _).mpr (Prog.safe_post (safe_lease hfresh rfl ?_) ?_))
  · intro version
    simp only [Sql.outcome, tokenOf]
    cases version.map Version.row with
    | none =>
      simp only [grant]
      refine ⟨by simp, ?_⟩
      rintro row ⟨⟩ born
      simp [tokenIn]
    | some row =>
      cases row with
      | lease held =>
        simp only [grant]
        split
        · refine ⟨by simp, ?_⟩
          rintro row ⟨⟩ born
          simp only [tokenIn, Option.map_some]
          split <;> omega
        · simp
      | step | input => simp [grant]
  · rintro (e | row) s₁ -
    · simp
    · exact fun _ _ => cleared_untokened ht

theorem safe_release {b owner : String} (hfresh : s.sessions i = {})
    (ht : (call i).token? = none) :
    Safe call i (release b owner) (fun _ _ => True) s := by
  have hrow : Safe call i (changeRow (.lease b) (expire owner)) (fun _ _ => True) s := by
    unfold changeRow
    simp only [Prog.bind_eq]
    rw [← Prog.bind_assoc]
    refine (Prog.safe_bind _ _ _ _).mpr (Prog.safe_post (safe_lease hfresh rfl ?_) ?_)
    · intro version
      simp only [tokenOf]
      cases version.map Version.row with
      | none => simp [Sql.outcome]
      | some row =>
        cases row with
        | lease held =>
          simp only [Sql.outcome, expire]
          split
          · refine ⟨by simp, ?_⟩
            rintro row ⟨⟩ born
            simp [tokenIn]
          · simp
        | step | input => simp [Sql.outcome, expire]
    · rintro (e | row) s₁ - <;> trivial
  refine safe_connection ((Prog.safe_bind _ _ _ _).mpr (Prog.safe_post hrow ?_))
  rintro (e | row) s₁ -
  · simp
  · exact fun _ _ => cleared_untokened ht

/-- Every method, from a connection fresh from the pool. -/
theorem safe_method (h : Inv call s) (hfresh : s.sessions i = {}) (now : ℚ) :
    Safe call i (method now (call i)) (fun _ _ => True) s := by
  cases hcall : call i with
  | read b k =>
    exact safe_untokened h (by rw [hcall]; rfl)
      (Prog.allOps_bind (plain_selectRow _) (fun _ => trivial))
  | start b k t =>
    exact safe_leased h hfresh (by rw [hcall]; rfl) (by rw [hcall]; rfl)
      (plain_insertRow (by simp) _)
  | finishEffect b k v t =>
    exact safe_leased h hfresh (by rw [hcall]; rfl) (by rw [hcall]; rfl) (plain_completeEffect b k v _)
  | writeControl b k v t =>
    exact safe_leased h hfresh (by rw [hcall]; rfl) (by rw [hcall]; rfl) (plain_putControl b k v)
  | forget b k t =>
    exact safe_leased h hfresh (by rw [hcall]; rfl) (by rw [hcall]; rfl)
      (Prog.allOps_bind (plain_changeRow (by simp) _) (fun _ => trivial))
  | acquire b owner ttl => exact safe_acquire hfresh (by rw [hcall]; rfl)
  | release b owner => exact safe_release hfresh (by rw [hcall]; rfl)
  | enqueueInput b inputId v =>
    exact safe_untokened h (by rw [hcall]; rfl) (plain_insertInput b inputId v)
  | listInputs b =>
    exact safe_untokened h (by rw [hcall]; rfl) (Prog.allOps_bind plain_statement
      (fun _ => Prog.allOps_bind (plain_sql ⟨by simp, by simp, by simp [Sql.key?]⟩)
        (fun _ => trivial)))
  | claimInput b inputId t =>
    exact safe_leased h hfresh (by rw [hcall]; rfl) (by rw [hcall]; rfl)
      (Prog.allOps_bind plain_statement (fun _ => plain_mark _ _ b _))
  | admitInputs b inputIds t =>
    simp only [method, admitInputs]
    split
    · trivial
    · exact safe_leased h hfresh (by rw [hcall]; rfl) (by rw [hcall]; rfl)
        (Prog.allOps_bind plain_statement (fun _ => plain_mark _ _ b _))
  | discardInputs b inputIds t =>
    simp only [method, discardInputs]
    split
    · trivial
    · exact safe_leased h hfresh (by rw [hcall]; rfl) (by rw [hcall]; rfl)
        (Prog.allOps_bind plain_statement (fun _ => plain_mark _ _ b _))
  | commitTransition b transition t =>
    refine safe_leased h hfresh (by rw [hcall]; rfl) (by rw [hcall]; rfl) ?_
    cases effectKeys transition.effects [] with
    | error e => trivial
    | ok seen =>
      simp only
      split
      · trivial
      · exact Prog.allOps_bind (plain_completeEffects b _)
          (fun _ => Prog.allOps_bind (plain_putControls b _) (fun _ => plain_insertInputs b _ _))

end

/-- The pool of transactions, one for each call. -/
def transactions [BEq V] (call : Nat → Call V) (now : Nat → ℚ) (i : Nat) : Pg V Unit := do
  let _ ← method (now i) (call i)
  return ()

section
variable [DecidableEq V]

/-- Every run of any number of calls, each one transaction, takes no stale write into effect, if no
transaction under a token is open when the transaction that replaces the token commits. -/
theorem concurrently_fenced {call : Nat → Call V} {now : Nat → ℚ} {pool : Nat → Pg V Unit}
    {s : Db V} (run : Interleaved (orderly call) (fun _ _ => False) (transactions call now) {} pool s) :
    NoneStale call s := by
  have hinv : Inv call ({} : Db V) := by
    refine ⟨?_, ?_, ?_, ?_⟩
    · intro i k version hw
      cases hw
    · intro i b version hw
      cases hw
    · intro commit hc
      cases hc
    · intro before i writes later hsplit
      simp at hsplit
  have hsafe := interleaved_safe (compatible Unit) hinv (fun i => (Prog.safe_bind _ _ _ _).mpr
    (Prog.safe_post (safe_method hinv rfl (now i)) (by rintro (e | a) s₁ - <;> trivial))) run
  exact hsafe.1.none

/-- The claim that no interleaving takes a stale write into effect. -/
def AlwaysFenced (V : Type) [DecidableEq V] : Prop :=
  ∀ (call : Nat → Call V) (now : Nat → ℚ) (pool : Nat → Pg V Unit) (s : Db V),
    Interleaved (Database.exec PgError.operational) (fun _ _ => False) (transactions call now) {} pool
      s → NoneStale call s

end

/-! A replaced worker, whose `forget` looks at the lease before its successor asks for it. -/

/-- One operation that need not wait, and keeps its connection. -/
def answered (i : Nat) (o : PgOp Nat) (s : Db Nat) : Except PgError o.Res × Db Nat :=
  (.ok (s.perform i o).1, (s.perform i o).2)

def unhindered (i : Nat) (o : PgOp Nat) (s : Db Nat) : Bool :=
  !(s.sessions i).lost && s.ready i o

theorem exec_answered (i : Nat) (o : PgOp Nat) (s : Db Nat) (h : unhindered i o s = true) :
    Database.exec PgError.operational i o s (answered i o s).1 (answered i o s).2 := by
  simp only [unhindered, Bool.and_eq_true, Bool.not_eq_true'] at h
  unfold Database.exec
  rw [if_neg (by simp [h.1])]
  exact ⟨h.2, .inl ⟨rfl, rfl⟩⟩

/-- The first worker takes the lease, records an intent and forgets it; the second takes the lease
over, forgets the intent and records its own. -/
def workers : Nat → Call Nat
  | 0 => .acquire "run" "a" 60
  | 1 => .start "run" "tool:c1" 1
  | 2 => .forget "run" "tool:c1" 1
  | 3 => .acquire "run" "b" 60
  | 4 => .forget "run" "tool:c1" 2
  | 5 => .start "run" "tool:c1" 2
  | _ => .read "run" "tool:c1"

/-- The second worker comes when the lease has expired. -/
def begun (i : Nat) : ℚ := if i < 3 then 1 else 100

/-- The first worker's `forget` is past its fence when the lease is taken over. -/
def overtaken : List Nat :=
  [0, 0, 0, 1, 1, 1, 1, 1, 2, 2, 3, 3, 3, 4, 4, 4, 4, 4, 5, 5, 5, 5, 5, 2, 2, 2]

def afterOvertaking : Db Nat :=
  (scheduled answered overtaken (transactions workers begun) {}).2

/-- The second worker's intent is gone, by the first one's `forget`. -/
theorem not_always_fenced : ¬ AlwaysFenced Nat := by
  intro h
  have hrun := interleaved_passed exec_answered (fun _ _ => False) overtaken
    (transactions workers begun) {} (by decide +kernel)
  have hstale := h workers begun _ afterOvertaking hrun
  have hlast : afterOvertaking.commits = afterOvertaking.commits.take 5 ++
      [(2, ⟨[(.step "run" "tool:c1", none)], by simp⟩)] := by decide +kernel
  have htaken : (3, ⟨[(.lease "run", some ⟨0, .lease ⟨"b", 2, 160⟩⟩)], by simp⟩) ∈
      afterOvertaking.commits.take 5 := by decide +kernel
  have hle := hstale _ 2 _ [] hlast "run" 1 ⟨rfl, rfl, by decide⟩
    ⟨.step "run" "tool:c1", none, rfl, .inl ⟨_, rfl⟩⟩ 3 _ 2 htaken
    ⟨⟨"b", 60, rfl⟩, 0, "b", 160, rfl⟩
  omega

/-- The first worker's `forget` comes when the lease has been taken over. -/
def replaced : List Nat := [0, 0, 0, 1, 1, 1, 1, 1, 3, 3, 3, 2, 2, 2]

/-- What was written is about no lease, or no transaction under a token is open. -/
def settles (i : Nat) (s : Db Nat) : Bool :=
  (s.sessions i).writes.items.all (fun item => match item.1 with
    | .lease _ => false
    | _ => true) ||
  (List.range 6).all (fun j => (workers j).token?.isNone || (s.sessions j).snapshot.isNone)

theorem settled_of_settles {i : Nat} {s : Db Nat} (h : settles i s = true) :
    Settled workers i s := by
  intro b hnew j hp hopen
  simp only [settles, Bool.or_eq_true, List.all_eq_true, List.mem_range] at h
  rcases h with h | h
  · have hnone : (s.sessions i).writes.get? (.lease b) = none := by
      refine fetch_none ?_
      intro hmem
      obtain ⟨item, hitem, hkey⟩ := List.mem_map.mp hmem
      have hno := h item hitem
      rw [hkey] at hno
      cases hno
    unfold Database.current issued at hnew
    rw [hnone] at hnew
    exact absurd hnew (lt_irrefl _)
  · by_cases hj : j < 6
    · rcases h j hj with h | h
      · rw [hp.2.1] at h
        cases h
      · exact hopen (Option.isNone_iff_eq_none.mp h)
    · have hread : workers j = .read "run" "tool:c1" := by
        unfold workers
        split <;> first | omega | rfl
      have htoken := hp.2.1
      rw [hread] at htoken
      cases htoken

def unhinderedSettled (i : Nat) (o : PgOp Nat) (s : Db Nat) : Bool :=
  unhindered i o s && match o with
    | .commit => settles i s
    | _ => true

theorem orderly_answered (i : Nat) (o : PgOp Nat) (s : Db Nat)
    (h : unhinderedSettled i o s = true) :
    orderly workers i o s (answered i o s).1 (answered i o s).2 := by
  simp only [unhinderedSettled, Bool.and_eq_true] at h
  refine ⟨exec_answered i o s h.1, ?_⟩
  rintro rfl
  exact settled_of_settles h.2

def afterReplacement : Db Nat :=
  (scheduled answered replaced (transactions workers begun) {}).2

/-- The first worker's `forget` is refused, and takes nothing into effect. -/
theorem concurrently_fenced_replaced :
    NoneStale workers afterReplacement ∧ afterReplacement.commits.map Prod.fst = [0, 1, 3] :=
  ⟨concurrently_fenced (interleaved_passed orderly_answered _ replaced (transactions workers begun)
    {} (by decide +kernel)), by decide +kernel⟩

end Semora.Proofs.Transactions
