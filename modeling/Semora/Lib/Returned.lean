import Semora.Lib.Rows

/-! What a transaction that returned has come to, whatever is committed beside it: a row it found
was committed at some moment before its own commit, and a row it wrote is in its commit. -/

namespace Semora.Lib

section
variable {ι K R ε α β : Type} [DecidableEq K]

/-- An operation of a transaction's body. -/
def Sql.Inner (o : Sql K R) : Prop := o ≠ .commit ∧ o ≠ .rollback

/-- An operation that does not touch the row, as it is, or any other of its key. -/
def Sql.Spares (k : K) (row : R) (o : Sql K R) : Prop :=
  o.Inner ∧ (o.key? = some k → o.outcome (some row) = .leave)

namespace Database

/-- The transaction has committed nothing in between. -/
def Aloof (i : ι) (s s' : Database ι K R) : Prop := ∃ made, Since s s' made ∧ ∀ c ∈ made, c.1 ≠ i

/-- What others do to a transaction. -/
structure Aside (i : ι) (s s' : Database ι K R) : Prop where
  own : s'.sessions i = s.sessions i
  aloof : Aloof i s s'

/-- What a transaction does to others. -/
structure Beside (i : ι) (s s' : Database ι K R) : Prop where
  others : ∀ j, j ≠ i → s'.sessions j = s.sessions j
  own : ∃ made, Since s s' made ∧ ∀ c ∈ made, c.1 = i

/-- What no other transaction takes from this one. -/
def Steady (i : ι) (P : Database ι K R → Prop) : Prop := ∀ s s', P s → Aside i s s' → P s'

/-- The row stands among the transaction's writes, unless its connection is lost. -/
def Wrote (i : ι) (k : K) (row : R) (s : Database ι K R) : Prop :=
  (s.sessions i).lost = true ∨ ∃ born, (s.sessions i).writes.get? k = some (some ⟨born, row⟩)

/-- The transaction has not written under the key. -/
def Clean (i : ι) (k : K) (s : Database ι K R) : Prop := (s.sessions i).writes.get? k = none

/-- The row was committed at some moment before the transaction committed anything. -/
def Seen (s₀ : Database ι K R) (i : ι) (k : K) (row : R) (s : Database ι K R) : Prop :=
  ∃ earlier later, Since s₀ s (earlier ++ later) ∧ (∀ c ∈ earlier, c.1 ≠ i) ∧
    s₀.rowAfter earlier k = some row

/-- The transaction has committed the row, once. -/
def Put (s₀ : Database ι K R) (i : ι) (k : K) (row : R) (s : Database ι K R) : Prop :=
  ∃ earlier writes later, Since s₀ s (earlier ++ (i, writes) :: later) ∧ (∀ c ∈ earlier, c.1 ≠ i) ∧
    (∀ c ∈ later, c.1 ≠ i) ∧ ∃ born, writes.get? k = some (some ⟨born, row⟩)

/-- What a transaction leaves of a key before it commits: it has written such a row, or has seen such
a one committed. -/
def Left (s₀ : Database ι K R) (i : ι) (k : K) (written found : R → Prop) (s : Database ι K R) :
    Prop :=
  (∃ row, written row ∧ Wrote i k row s) ∨ ∃ row, found row ∧ Seen s₀ i k row s

/-- And once it has committed. -/
def Kept (s₀ : Database ι K R) (i : ι) (k : K) (written found : R → Prop) (s : Database ι K R) :
    Prop :=
  (∃ row, written row ∧ Put s₀ i k row s) ∨ ∃ row, found row ∧ Seen s₀ i k row s

variable {i : ι} {k : K} {row : R} {s₀ s s' s'' : Database ι K R} {made : List (Commit ι K R)}
variable {written found : R → Prop}

theorem Aloof.refl (i : ι) (s : Database ι K R) : Aloof i s s := ⟨[], .refl s, by simp⟩

theorem Aloof.trans (h : Aloof i s s') (h' : Aloof i s' s'') : Aloof i s s'' := by
  obtain ⟨made, hsince, hothers⟩ := h
  obtain ⟨made', hsince', hothers'⟩ := h'
  refine ⟨_, hsince.trans hsince', fun c hc => ?_⟩
  rcases List.mem_append.mp hc with hc | hc
  · exact hothers c hc
  · exact hothers' c hc

theorem Seen.since (h : Seen s₀ i k row s) (h' : Since s s' made) : Seen s₀ i k row s' := by
  obtain ⟨earlier, later, hsince, hothers, hrow⟩ := h
  refine ⟨earlier, later ++ made, ?_, hothers, hrow⟩
  rw [← List.append_assoc]
  exact hsince.trans h'

theorem Aloof.seen (h : Aloof i s₀ s) (hrow : s.row k = some row) : Seen s₀ i k row s := by
  obtain ⟨made, hsince, hothers⟩ := h
  exact ⟨made, [], (List.append_nil made).symm ▸ hsince, hothers, (hsince.row k).trans hrow⟩

theorem steady_wrote : Steady i (Wrote (K := K) i k row) := by
  intro s s' h hr
  unfold Wrote
  rw [hr.own]
  exact h

theorem steady_clean : Steady i (Clean (R := R) i k) := by
  intro s s' h hr
  unfold Clean
  rw [hr.own]
  exact h

theorem steady_seen : Steady i (Seen s₀ i k row) := by
  intro s s' h hr
  obtain ⟨made, hsince, -⟩ := hr.aloof
  exact h.since hsince

theorem steady_put : Steady i (Put s₀ i k row) := by
  intro s s' h hr
  obtain ⟨earlier, writes, later, hsince, hbefore, hbehind, hwritten⟩ := h
  obtain ⟨made, hsince', hothers⟩ := hr.aloof
  refine ⟨earlier, writes, later ++ made, ?_, hbefore, fun c hc => ?_, hwritten⟩
  · have hboth := hsince.trans hsince'
    rwa [List.append_assoc, List.cons_append] at hboth
  · rcases List.mem_append.mp hc with hc | hc
    · exact hbehind c hc
    · exact hothers c hc

theorem steady_left : Steady i (Left s₀ i k written found) := by
  intro s s' h hr
  rcases h with ⟨row, hrow, hwrote⟩ | ⟨row, hrow, hseen⟩
  · exact .inl ⟨row, hrow, steady_wrote s s' hwrote hr⟩
  · exact .inr ⟨row, hrow, steady_seen s s' hseen hr⟩

theorem steady_kept : Steady i (Kept s₀ i k written found) := by
  intro s s' h hr
  rcases h with ⟨row, hrow, hput⟩ | ⟨row, hrow, hseen⟩
  · exact .inl ⟨row, hrow, steady_put s s' hput hr⟩
  · exact .inr ⟨row, hrow, steady_seen s s' hseen hr⟩

variable [DecidableEq ι] [DecidableEq R]
variable {broken : ε} {o : Sql K R} {r : Except ε o.Res}

theorem beside_exec (he : exec broken i o s r s') : Beside i s s' := by
  refine ⟨(exec_moved he).others, ?_⟩
  rcases since_exec he with hnone | ⟨-, hown⟩
  · exact ⟨[], hnone, by simp⟩
  · exact ⟨_, hown, by simp⟩

omit [DecidableEq ι] [DecidableEq R] in
theorem Beside.aside {j : ι} (h : Beside j s s') (hne : i ≠ j) : Aside i s s' := by
  obtain ⟨made, hsince, hown⟩ := h.own
  refine ⟨h.others i hne, made, hsince, fun c hc he => hne ?_⟩
  rw [← he]
  exact hown c hc

/-- Short of its commit, a transaction commits nothing. -/
theorem Aloof.exec (h : Aloof i s₀ s) (ho : o ≠ .commit) (he : exec broken i o s r s') :
    Aloof i s₀ s' := by
  rcases since_exec he with hnone | ⟨hcommit, -⟩
  · exact h.trans ⟨[], hnone, by simp⟩
  · exact absurd hcommit ho

theorem seen_exec (h : Seen s₀ i k row s) (he : exec broken i o s r s') : Seen s₀ i k row s' := by
  obtain ⟨made, hsince, -⟩ := (beside_exec he).own
  exact h.since hsince

theorem clean_exec (h : Clean i k s) (hk : o.key? ≠ some k) (he : exec broken i o s r s') :
    Clean i k s' := by
  rcases exec_untouched he hk with hsame | hnone
  · exact hsame.trans h
  · exact hnone

/-- An operation that came to its end, on a connection that is not lost. -/
theorem exec_ok {v : o.Res} (he : exec broken i o s (.ok v) s') :
    (s.sessions i).lost = false ∧ v = (s.perform i o).1 ∧ s' = (s.perform i o).2 := by
  unfold exec at he
  split at he
  · cases he.1
  · rename_i hlost
    obtain ⟨-, ⟨hv, hs⟩ | ⟨hbad, -⟩⟩ := he
    · exact ⟨by simpa using hlost, Except.ok.inj hv, hs⟩
    · cases hbad

theorem exec_lost (he : exec broken i o s r s') : (s'.sessions i).lost = true ∨
    s' = (s.perform i o).2 := by
  have hlose : ∀ s : Database ι K R, ((s.lose i).sessions i).lost = true := by
    intro s
    simp [lose, set]
  unfold exec at he
  split at he
  · rename_i hlost
    exact .inl (he.2 ▸ hlost)
  · obtain ⟨-, ⟨-, rfl⟩ | ⟨-, rfl | rfl⟩⟩ := he
    · exact .inr rfl
    · exact .inl (hlose s)
    · exact .inl (hlose _)

omit [DecidableEq ι] in
theorem current_of_target {f : R → Change R} {version : Version R}
    (h : s.target i k f = some version) : s.current i k = some version := by
  unfold target at h
  split at h
  · rename_i hc
    split at h
    · cases h
    · rw [hc, Option.some.inj h]
  · cases h

/-- What a transaction has written it still has behind an operation that spares it. -/
theorem perform_spared {born : Nat} (spares : o.Spares k row)
    (h : (s.sessions i).writes.get? k = some (some ⟨born, row⟩)) :
    ((s.perform i o).2.sessions i).writes.get? k = some (some ⟨born, row⟩) := by
  obtain ⟨⟨hcommit, hrollback⟩, hleaves⟩ := spares
  have hcurrent : s.current i k = some ⟨born, row⟩ := by
    unfold current
    rw [h]
    rfl
  have happly : ∀ k' change, (k' = k → change = .leave) →
      ((s.apply i k' change).sessions i).writes.get? k = some (some ⟨born, row⟩) := by
    intro k' change hchange
    by_cases hk : k' = k
    · rw [hchange hk]
      exact h
    · rw [apply_other s i change (Ne.symm hk)]
      exact h
  cases o with
  | statement =>
    simp only [perform, set, Function.update_self]
    exact h
  | select | selectAll | nextval => exact h
  | upsert k' f =>
    refine happly k' _ (fun hk => ?_)
    subst hk
    rw [hcurrent]
    exact hleaves rfl
  | change k' f =>
    simp only [perform]
    split
    · rename_i version htarget
      split
      · exact h
      · refine happly k' _ (fun hk => ?_)
        subst hk
        have hversion := (current_of_target htarget).symm.trans hcurrent
        rw [Option.some.inj hversion]
        exact hleaves rfl
    · exact h
  | commit => exact absurd rfl hcommit
  | rollback => exact absurd rfl hrollback

theorem wrote_exec (h : Wrote i k row s) (spares : o.Spares k row) (he : exec broken i o s r s') :
    Wrote i k row s' := by
  rcases h with hlost | ⟨born, hwritten⟩
  · unfold exec at he
    rw [if_pos hlost] at he
    exact .inl (he.2 ▸ hlost)
  · rcases exec_lost he with hlost | rfl
    · exact .inl hlost
    · exact .inr ⟨born, perform_spared spares hwritten⟩

/-- A commit that was confirmed has committed what the transaction had written. -/
theorem put_commit (he : exec broken i (.commit : Sql K R) s (.ok ()) s') (aloof : Aloof i s₀ s)
    (h : Wrote i k row s) : Put s₀ i k row s' := by
  obtain ⟨hlost, -, rfl⟩ := exec_ok he
  obtain ⟨made, hsince, hothers⟩ := aloof
  rcases h with hbad | hwritten
  · rw [hlost] at hbad
    cases hbad
  · exact ⟨made, _, [], hsince.trans ⟨rfl, rfl⟩, hothers, by simp, hwritten⟩

theorem Left.commit (he : exec broken i (.commit : Sql K R) s (.ok ()) s') (aloof : Aloof i s₀ s)
    (h : Left s₀ i k written found s) : Kept s₀ i k written found s' := by
  rcases h with ⟨row, hrow, hwrote⟩ | ⟨row, hrow, hseen⟩
  · exact .inl ⟨row, hrow, put_commit he aloof hwrote⟩
  · exact .inr ⟨row, hrow, seen_exec hseen he⟩

omit [DecidableEq ι] [DecidableEq R] in
/-- Each transaction can be followed alone. -/
theorem compatible_aside {Q : ι → Except ε α → Database ι K R → Prop}
    (stable : ∀ i r s s', Q i r s → Aside i s s' → Q i r s') :
    Compatible (fun _ _ => False) (fun _ => True) Aside Beside Q where
  refl i s _ := ⟨rfl, .refl i s⟩
  trans _ _ _ _ h h' := ⟨h'.own.trans h.own, h.aloof.trans h'.aloof⟩
  stable := stable
  keeps _ _ _ _ _ := trivial
  other _ _ _ _ hne _ h := h.aside (Ne.symm hne)
  env _ _ _ move := move.elim

/-- What a transaction comes to by itself holds wherever it has returned. -/
theorem returned_interleaved {pool pool' : ι → Prog (Sql K R) Sql.Res ε α}
    {Q : α → Database ι K R → Prop} {a : α} (steady : ∀ a, Steady i (Q a))
    (hsafe : Prog.safe (exec broken i) (Aside i) (Beside i) (pool i)
      (fun r s' => ∀ a, r = .ok a → Q a s') s)
    (run : Interleaved (exec broken) (fun _ _ => False) pool s pool' s')
    (returned : pool' i = .ret a) : Q a s' := by
  have hpool := (interleaved_safe (compatible_aside
    (Q := fun j r s => j = i → ∀ a, r = Except.ok a → Q a s) ?_) trivial ?_ run).2 i
  · rw [returned] at hpool
    exact hpool rfl a rfl
  · intro j r s s' h hr hj b hb
    subst hj
    exact steady b s s' (h rfl b hb) hr
  · intro j
    by_cases hj : j = i
    · subst hj
      exact Prog.safe_post hsafe (fun r s' h _ => h)
    · refine Prog.safe_post (Prog.safe_of_allOps (I := fun _ => True) (fun _ _ _ _ => trivial)
        (fun o _ s r s' _ he => ⟨beside_exec he, trivial⟩) (Prog.allOps_any _) trivial)
        (fun _ _ _ hi => absurd hi hj)

/-- A part of a transaction's body: where `P` holds it returns only with what is said of its
result. -/
def Leaves (broken : ε) (s₀ : Database ι K R) (i : ι) (P : Database ι K R → Prop)
    (p : Prog (Sql K R) Sql.Res ε α) (F : α → Database ι K R → Prop) : Prop :=
  ∀ s, Aloof i s₀ s → P s → Prog.safe (exec broken i) (Aside i) (Beside i) p
    (fun r s' => Aloof i s₀ s' ∧ ∀ a, r = .ok a → F a s') s

section
variable {P P' : Database ι K R → Prop} {p : Prog (Sql K R) Sql.Res ε α}
variable {F F' : α → Database ι K R → Prop}

theorem leaves_ret {a : α} (h : ∀ s, P s → F a s) : Leaves broken s₀ i P (.ret a) F := by
  intro s aloof hp
  refine ⟨aloof, fun b hb => ?_⟩
  cases hb
  exact h s hp

theorem leaves_raise {e : ε} : Leaves broken s₀ i P (.raise e : Prog (Sql K R) Sql.Res ε α) F :=
  fun _ aloof _ => ⟨aloof, fun _ hb => by cases hb⟩

theorem leaves_weaken (h : Leaves broken s₀ i P p F) (hp : ∀ s, P' s → P s)
    (hf : ∀ a s, F a s → F' a s) : Leaves broken s₀ i P' p F' := by
  intro s aloof hs
  refine Prog.safe_post (h s aloof (hp s hs)) (fun r s' hleft => ?_)
  exact ⟨hleft.1, fun a ha => hf a s' (hleft.2 a ha)⟩

theorem leaves_bind {f : α → Prog (Sql K R) Sql.Res ε β} {G : β → Database ι K R → Prop}
    (hp : Leaves broken s₀ i P p F) (hf : ∀ a, Leaves broken s₀ i (F a) (f a) G) :
    Leaves broken s₀ i P (p.bind f) G := by
  intro s aloof hs
  refine (Prog.safe_bind _ _ _ _).mpr (Prog.safe_post (hp s aloof hs) (fun r s' hleft => ?_))
  cases r with
  | error e => exact ⟨hleft.1, fun _ hb => by cases hb⟩
  | ok a => exact hf a s' hleft.1 (hleft.2 a rfl)

/-- What each operation of a part keeps, the part keeps. -/
theorem leaves_kept {A : Sql K R → Prop} (steady : Steady i P)
    (keeps : ∀ o, A o → o ≠ .commit ∧ ∀ s r s', exec broken i o s r s' → P s → P s')
    (hp : p.AllOps A) : Leaves broken s₀ i P p (fun _ => P) := by
  intro s aloof hs
  have hkept : Prog.safe (exec broken i) (Aside i) (Beside i) p
      (fun _ s' => Aloof i s₀ s' ∧ P s') s := by
    refine Prog.safe_of_allOps (I := fun s' => Aloof i s₀ s' ∧ P s') ?_ ?_ hp ⟨aloof, hs⟩
    · intro s₁ s₂ hr h
      exact ⟨h.1.trans hr.aloof, steady s₁ s₂ h.2 hr⟩
    · intro o ho s₁ r s₂ h he
      obtain ⟨hcommit, hkeeps⟩ := keeps o ho
      exact ⟨beside_exec he, h.1.exec hcommit he, hkeeps s₁ r s₂ he h.2⟩
  exact Prog.safe_post hkept (fun r s' h => ⟨h.1, fun _ _ => h.2⟩)

theorem leaves_any (hp : p.AllOps Sql.Inner) :
    Leaves broken s₀ i (fun _ => True) p (fun _ _ => True) :=
  leaves_kept (fun _ _ _ _ => trivial) (fun _ ho => ⟨ho.1, fun _ _ _ _ _ => trivial⟩) hp

theorem leaves_clean (hp : p.AllOps (fun o => o.Inner ∧ o.key? ≠ some k)) :
    Leaves broken s₀ i (Clean i k) p (fun _ => Clean i k) :=
  leaves_kept steady_clean (fun _ ho => ⟨ho.1.1, fun _ _ _ he h => clean_exec h ho.2 he⟩) hp

/-- What a transaction has seen or written it leaves behind a part that spares it. -/
theorem leaves_spared (hp : p.AllOps (fun o => o.Inner ∧ ∀ row, written row → o.Spares k row)) :
    Leaves broken s₀ i (Left s₀ i k written found) p (fun _ => Left s₀ i k written found) := by
  refine leaves_kept steady_left (fun _ ho => ⟨ho.1.1, fun _ _ _ he h => ?_⟩) hp
  rcases h with ⟨row, hrow, hwrote⟩ | ⟨row, hrow, hseen⟩
  · exact .inl ⟨row, hrow, wrote_exec hwrote (ho.2 row hrow) he⟩
  · exact .inr ⟨row, hrow, seen_exec hseen he⟩

omit [DecidableEq R] in
theorem wrote_apply (s : Database ι K R) (i : ι) (k : K) (row : R) :
    Wrote i k row (s.apply i k (.set row)) := by
  unfold Wrote
  rcases apply_writes s i k (.set row) with hsame | ⟨row', born, hrow, hwritten⟩ | ⟨hbad, -⟩
  · refine .inr ?_
    simp only [apply]
    split <;> simp [write, set]
  · cases hrow
    exact .inr ⟨born, hwritten⟩
  · cases hbad

/-- A row an upsert leaves alone was there, and one it sets is written. -/
theorem leaves_upsert {f : Option R → Change R} (steady : Steady i P) :
    Leaves broken s₀ i P (.op (.upsert k f)) (fun found s' =>
      (∀ row, f found = .set row → Wrote i k row s') ∧
        (f found = .leave → P s' ∧ ∀ row, found = some row →
          (∃ born, (s'.sessions i).writes.get? k = some (some ⟨born, row⟩)) ∨
            Seen s₀ i k row s')) := by
  intro s aloof hs
  refine (Prog.safe_op _ _ _).mpr (fun s₁ hr r s₂ he => ?_)
  have haloof := aloof.trans hr.aloof
  refine ⟨beside_exec he, haloof.exec (by simp) he, fun found hfound => ?_⟩
  subst hfound
  obtain ⟨-, hv, rfl⟩ := exec_ok he
  simp only [perform] at hv ⊢
  rw [← hv]
  refine ⟨fun row hset => ?_, fun hleave => ?_⟩
  · rw [hset]
    exact wrote_apply s₁ i k row
  · rw [hleave]
    refine ⟨steady s s₁ hs hr, fun row hrow => ?_⟩
    have hmine : s₁.mine i k = some row := hv.symm.trans hrow
    rcases mine_cases s₁ i k with ⟨version, hwritten, hversion⟩ | ⟨-, hcommitted⟩
    · rw [hmine] at hversion
      obtain ⟨⟨born, row'⟩, rfl, hsame⟩ := Option.map_eq_some_iff.mp hversion.symm
      simp only at hsame
      subst hsame
      exact .inl ⟨born, hwritten⟩
    · exact .inr (haloof.seen (hcommitted.symm.trans hmine))

theorem leaves_change {f : R → Change R} :
    Leaves broken s₀ i P (.op (.change k f)) (fun found s' => ∀ old, found = some old →
      f old ≠ .leave ∧ ∀ row, f old = .set row → Wrote i k row s') := by
  intro s aloof _
  refine (Prog.safe_op _ _ _).mpr (fun s₁ hr r s₂ he => ?_)
  refine ⟨beside_exec he, (aloof.trans hr.aloof).exec (by simp) he, fun found hfound old hold => ?_⟩
  subst hfound
  subst hold
  obtain ⟨-, hv, rfl⟩ := exec_ok he
  simp only [perform] at hv ⊢
  split at hv
  · rename_i version htarget
    split at hv
    · cases hv
    · rename_i hleave
      cases hv
      rw [if_neg hleave]
      refine ⟨hleave, fun row hset => ?_⟩
      rw [hset]
      exact wrote_apply s₁ i k row
  · cases hv

/-- What one statement reads of a row was written by the transaction or committed before it. -/
theorem leaves_select :
    Leaves broken s₀ i P
      ((Prog.op Sql.statement).bind (fun _ => .op (Sql.select k)) : Prog (Sql K R) Sql.Res ε _)
      (fun found s' => ∀ row, found = some row → Wrote i k row s' ∨ Seen s₀ i k row s') := by
  intro s aloof _
  refine (Prog.safe_bind _ _ _ _).mpr ((Prog.safe_op _ _ _).mpr (fun s₁ hr₁ r₁ s₂ he₁ => ?_))
  have haloof : Aloof i s₀ s₁ := aloof.trans hr₁.aloof
  refine ⟨beside_exec he₁, ?_⟩
  cases r₁ with
  | error e => exact ⟨haloof.exec (by simp) he₁, fun _ hb => by cases hb⟩
  | ok u =>
    refine (Prog.safe_op _ _ _).mpr (fun s₃ hr₃ r₃ s₄ he₃ => ?_)
    have haloof₃ := (haloof.exec (by simp) he₁).trans hr₃.aloof
    refine ⟨beside_exec he₃, haloof₃.exec (by simp) he₃, fun found hfound row hrow => ?_⟩
    subst hfound
    subst hrow
    obtain ⟨-, -, rfl⟩ := exec_ok he₁
    obtain ⟨-, hv, rfl⟩ := exec_ok he₃
    -- It sees what was committed as it began.
    have hown := hr₃.own
    simp only [perform, set, Function.update_self] at hown hv ⊢
    unfold seen at hv
    rw [hown] at hv
    cases hwritten : (s₁.sessions i).writes.get? k with
    | none =>
      rw [hwritten] at hv
      have hseen : Seen s₀ i k row s₁ := haloof.seen hv.symm
      obtain ⟨made, hsince, -⟩ := hr₃.aloof
      exact .inr (hseen.since ⟨hsince.commits, hsince.rows⟩)
    | some version =>
      rw [hwritten] at hv
      obtain ⟨⟨born, row'⟩, rfl, hsame⟩ := Option.map_eq_some_iff.mp hv.symm
      simp only at hsame
      subst hsame
      refine .inl (.inr ⟨born, ?_⟩)
      rw [hown]
      exact hwritten

end

end Database

end

end Semora.Lib
