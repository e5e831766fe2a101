import Semora.Lib.Safety

/-! Several programs over one state, interleaved operation by operation with moves of an
environment. A program that is never scheduled again has crashed. -/

namespace Semora.Lib

variable {ι Op : Type} [DecidableEq ι] {Res : Op → Type} {ε α σ : Type}

/-- What an interleaving of a pool of programs leads to. -/
inductive Interleaved (exec : ι → Prog.Exec Op Res ε σ) (env : σ → σ → Prop)
    (pool : ι → Prog Op Res ε α) (s : σ) : (ι → Prog Op Res ε α) → σ → Prop
  | start : Interleaved exec env pool s pool s
  | op {pool' s' i o k r s''} (run : Interleaved exec env pool s pool' s')
      (next : pool' i = .call o k) (done : exec i o s' r s'') :
      Interleaved exec env pool s (Function.update pool' i (k r)) s''
  | env {pool' s' s''} (run : Interleaved exec env pool s pool' s') (move : env s' s'') :
      Interleaved exec env pool s pool' s''

/-- What it takes to reason about each program of a pool alone: every program's guarantee keeps
the invariant and is within the rely of every other, and so are the environment's moves. -/
structure Compatible (env : σ → σ → Prop) (I : σ → Prop) (R G : ι → σ → σ → Prop)
    (Q : ι → Except ε α → σ → Prop) : Prop where
  refl : ∀ i a, I a → R i a a
  trans : ∀ i a b c, R i a b → R i b c → R i a c
  stable : ∀ i r a b, Q i r a → R i a b → Q i r b
  keeps : ∀ i a b, I a → G i a b → I b
  other : ∀ i j a b, i ≠ j → I a → G i a b → R j a b
  env : ∀ a b, I a → env a b → I b ∧ ∀ i, R i a b

/-- Programs that are each safe alone are safe together, and the invariant holds throughout. -/
theorem interleaved_safe {exec : ι → Prog.Exec Op Res ε σ} {env : σ → σ → Prop} {I : σ → Prop}
    {R G : ι → σ → σ → Prop} {Q : ι → Except ε α → σ → Prop} {pool pool' : ι → Prog Op Res ε α}
    {s s' : σ} (compatible : Compatible env I R G Q) (hi : I s)
    (hsafe : ∀ i, Prog.safe (exec i) (R i) (G i) (pool i) (Q i) s)
    (run : Interleaved exec env pool s pool' s') :
    I s' ∧ ∀ i, Prog.safe (exec i) (R i) (G i) (pool' i) (Q i) s' := by
  induction run with
  | start => exact ⟨hi, hsafe⟩
  | @op pool' s' i o k r s'' run next done ih =>
    obtain ⟨hI, hs⟩ := ih
    have hcall := hs i
    rw [next] at hcall
    obtain ⟨hg, hk⟩ := hcall s' (compatible.refl i s' hI) r s'' done
    refine ⟨compatible.keeps i s' s'' hI hg, ?_⟩
    intro j
    by_cases hj : j = i
    · subst hj
      rw [Function.update_self]
      exact hk
    · rw [Function.update_of_ne hj]
      exact Prog.safe_rely (compatible.trans j) (compatible.stable j) (hs j)
        (compatible.other i j s' s'' (Ne.symm hj) hI hg)
  | env run move ih =>
    obtain ⟨hI, hs⟩ := ih
    obtain ⟨hI', hR⟩ := compatible.env _ _ hI move
    exact ⟨hI', fun i => Prog.safe_rely (compatible.trans i) (compatible.stable i) (hs i) (hR i)⟩

theorem Interleaved.trans {exec : ι → Prog.Exec Op Res ε σ} {env : σ → σ → Prop}
    {pool pool' pool'' : ι → Prog Op Res ε α} {s s' s'' : σ}
    (run : Interleaved exec env pool s pool' s') (on : Interleaved exec env pool' s' pool'' s'') :
    Interleaved exec env pool s pool'' s'' := by
  induction on with
  | start => exact run
  | op _ next done ih => exact .op ih next done
  | env _ move ih => exact .env ih move

/-- Where all the others have ended, a program of a pool runs alone. -/
theorem Interleaved.alone {exec : ι → Prog.Exec Op Res ε σ} {env : σ → σ → Prop}
    {pool pool' : ι → Prog Op Res ε α} {s s' : σ} {i : ι}
    (ended : ∀ j, j ≠ i → ∀ o k, pool j ≠ .call o k) (run : Interleaved exec env pool s pool' s') :
    Prog.Runs (exec i) env (pool i) s (pool' i) s' ∧ ∀ j, j ≠ i → pool' j = pool j := by
  induction run with
  | start => exact ⟨.refl _ _, fun _ _ => rfl⟩
  | @op pool' s' j o k r s'' run next done ih =>
    obtain ⟨hrun, hothers⟩ := ih
    by_cases hj : j = i
    · subst hj
      rw [next] at hrun
      refine ⟨?_, fun l hl => ?_⟩
      · rw [Function.update_self]
        exact .op hrun done
      · rw [Function.update_of_ne hl, hothers l hl]
    · rw [hothers j hj] at next
      exact absurd next (ended j hj o k)
  | env run move ih =>
    obtain ⟨hrun, hothers⟩ := ih
    exact ⟨.env hrun move, hothers⟩

/-- Among others, a program of a pool runs as one whose environment is the others and what else
may move. -/
theorem Interleaved.runs {exec : ι → Prog.Exec Op Res ε σ} {env R : σ → σ → Prop}
    {pool pool' : ι → Prog Op Res ε α} {s s' : σ} {i : ι}
    (others : ∀ j o s r s', j ≠ i → exec j o s r s' → R s s') (moves : ∀ s s', env s s' → R s s')
    (run : Interleaved exec env pool s pool' s') :
    Prog.Runs (exec i) R (pool i) s (pool' i) s' := by
  induction run with
  | start => exact .refl _ _
  | @op pool' s' j o k r s'' run next done ih =>
    by_cases hj : j = i
    · subst hj
      rw [next] at ih
      rw [Function.update_self]
      exact .op ih done
    · rw [Function.update_of_ne (Ne.symm hj)]
      exact .env ih (others j o s' r s'' hj done)
  | env run move ih => exact .env ih (moves _ _ move)

/-- What every operation and every move keeps holds throughout, where `J` always does. -/
theorem Interleaved.along {exec : ι → Prog.Exec Op Res ε σ} {env : σ → σ → Prop}
    {pool pool' : ι → Prog Op Res ε α} {s s' : σ} {I J : σ → Prop}
    (always : ∀ pool' s', Interleaved exec env pool s pool' s' → J s')
    (ops : ∀ i o s r s', exec i o s r s' → J s' → I s → I s') (moves : ∀ s s', env s s' → I s → I s')
    (run : Interleaved exec env pool s pool' s') (h : I s) : I s' := by
  induction run with
  | start => exact h
  | op run next done ih => exact ops _ _ _ _ _ done (always _ _ (.op run next done)) ih
  | env _ move ih => exact moves _ _ move ih

theorem Interleaved.invariant {exec : ι → Prog.Exec Op Res ε σ} {env : σ → σ → Prop}
    {pool pool' : ι → Prog Op Res ε α} {s s' : σ} {I : σ → Prop}
    (ops : ∀ i o s r s', exec i o s r s' → I s → I s') (moves : ∀ s s', env s s' → I s → I s')
    (run : Interleaved exec env pool s pool' s') (h : I s) : I s' :=
  run.along (J := fun _ => True) (fun _ _ _ => trivial) (fun i o s r s' he _ => ops i o s r s' he)
    moves h

/-- Where each program of a pool only comes to operations that satisfy its `P`, what these keep
holds throughout. -/
theorem Interleaved.ofAllOps {exec : ι → Prog.Exec Op Res ε σ} {env : σ → σ → Prop}
    {pool pool' : ι → Prog Op Res ε α} {s s' : σ} {P : ι → Op → Prop} {I : σ → Prop}
    (hp : ∀ i, (pool i).AllOps (P i))
    (ops : ∀ i o s r s', exec i o s r s' → P i o → I s → I s')
    (moves : ∀ s s', env s s' → I s → I s')
    (run : Interleaved exec env pool s pool' s') (h : I s) :
    I s' ∧ ∀ i, (pool' i).AllOps (P i) := by
  induction run with
  | start => exact ⟨h, hp⟩
  | @op pool' s' i o k r s'' run next done ih =>
    obtain ⟨hI, hall⟩ := ih
    have hcall := hall i
    rw [next] at hcall
    refine ⟨ops _ _ _ _ _ done hcall.1 hI, fun j => ?_⟩
    by_cases hj : j = i
    · subst hj
      rw [Function.update_self]
      exact hcall.2 r
    · rw [Function.update_of_ne hj]
      exact hall j
  | env _ move ih => exact ⟨moves _ _ move ih.1, ih.2⟩

/-- The interleaving a schedule of turns makes, where each operation has one outcome. A turn of a
program that has ended is passed. -/
def scheduled (perform : ι → (o : Op) → σ → Except ε (Res o) × σ) :
    List ι → (ι → Prog Op Res ε α) → σ → (ι → Prog Op Res ε α) × σ
  | [], pool, s => (pool, s)
  | i :: turns, pool, s =>
    match pool i with
    | .call o k => scheduled perform turns (Function.update pool i (k (perform i o s).1))
        (perform i o s).2
    | _ => scheduled perform turns pool s

theorem scheduled_append (perform : ι → (o : Op) → σ → Except ε (Res o) × σ) (turns turns' : List ι)
    (pool : ι → Prog Op Res ε α) (s : σ) :
    scheduled perform (turns ++ turns') pool s =
      scheduled perform turns' (scheduled perform turns pool s).1
        (scheduled perform turns pool s).2 := by
  induction turns generalizing pool s with
  | nil => rfl
  | cons i turns ih =>
    simp only [List.cons_append, scheduled]
    split
    · exact ih _ _
    · exact ih _ _

/-- A program whose turn does not come stays where it is. -/
theorem scheduled_other {perform : ι → (o : Op) → σ → Except ε (Res o) × σ} {turns : List ι} {i : ι}
    (h : ∀ j ∈ turns, j ≠ i) (pool : ι → Prog Op Res ε α) (s : σ) :
    (scheduled perform turns pool s).1 i = pool i := by
  induction turns generalizing pool s with
  | nil => rfl
  | cons j turns ih =>
    have hrest := ih (fun k hk => h k (List.mem_cons_of_mem _ hk))
    simp only [scheduled]
    split
    · rw [hrest, Function.update_of_ne (h j List.mem_cons_self).symm]
    · exact hrest _ _

/-- The turn of a program that has an operation to make. -/
theorem scheduled_turn {perform : ι → (o : Op) → σ → Except ε (Res o) × σ} {i : ι} {o : Op}
    {k : Except ε (Res o) → Prog Op Res ε α} {pool : ι → Prog Op Res ε α} (h : pool i = .call o k)
    (s : σ) : scheduled perform [i] pool s =
      (Function.update pool i (k (perform i o s).1), (perform i o s).2) := by
  simp only [scheduled]
  rw [h]

theorem scheduled_mine {perform : ι → (o : Op) → σ → Except ε (Res o) × σ} {i : ι} {o : Op}
    {k : Except ε (Res o) → Prog Op Res ε α} {pool : ι → Prog Op Res ε α} (h : pool i = .call o k)
    (s : σ) : (scheduled perform [i] pool s).1 i = k (perform i o s).1 := by
  rw [scheduled_turn h]
  exact Function.update_self i _ pool

/-- Whether every operation of a schedule passes `ok`. -/
def passed (perform : ι → (o : Op) → σ → Except ε (Res o) × σ) (ok : ι → Op → σ → Bool) :
    List ι → (ι → Prog Op Res ε α) → σ → Bool
  | [], _, _ => true
  | i :: turns, pool, s =>
    match pool i with
    | .call o k => ok i o s && passed perform ok turns
        (Function.update pool i (k (perform i o s).1)) (perform i o s).2
    | _ => passed perform ok turns pool s

/-- A schedule whose operations all pass is an interleaving of what passing operations may do. -/
theorem interleaved_passed {exec : ι → Prog.Exec Op Res ε σ}
    {perform : ι → (o : Op) → σ → Except ε (Res o) × σ} {ok : ι → Op → σ → Bool}
    (hexec : ∀ i o s, ok i o s = true → exec i o s (perform i o s).1 (perform i o s).2)
    (env : σ → σ → Prop) (turns : List ι) (pool : ι → Prog Op Res ε α) (s : σ)
    (h : passed perform ok turns pool s = true) :
    Interleaved exec env pool s (scheduled perform turns pool s).1
      (scheduled perform turns pool s).2 := by
  suffices hs : ∀ pool' s', Interleaved exec env pool s pool' s' →
      passed perform ok turns pool' s' = true → Interleaved exec env pool s
      (scheduled perform turns pool' s').1 (scheduled perform turns pool' s').2 from
    hs pool s .start h
  clear h
  induction turns with
  | nil => exact fun _ _ run _ => run
  | cons i turns ih =>
    intro pool' s' run hpassed
    unfold scheduled
    unfold passed at hpassed
    split
    · rename_i o k hnext
      rw [hnext] at hpassed
      obtain ⟨hok, hrest⟩ := Bool.and_eq_true_iff.mp hpassed
      exact ih _ _ (.op run hnext (hexec i o s' hok)) hrest
    · rename_i hnone
      refine ih _ _ run ?_
      split at hpassed
      · rename_i o k hnext
        exact absurd hnext (hnone o k)
      · exact hpassed

theorem interleaved_scheduled (perform : ι → (o : Op) → σ → Except ε (Res o) × σ)
    (env : σ → σ → Prop) (turns : List ι) (pool : ι → Prog Op Res ε α) (s : σ) :
    Interleaved (fun i o s r s' => perform i o s = (r, s')) env pool s
      (scheduled perform turns pool s).1 (scheduled perform turns pool s).2 := by
  have hpassed : ∀ (pool : ι → Prog Op Res ε α) (s : σ),
      passed perform (fun _ _ _ => true) turns pool s = true := by
    induction turns with
    | nil => exact fun _ _ => rfl
    | cons i turns ih =>
      intro pool s
      unfold passed
      split
      · exact Bool.and_eq_true_iff.mpr ⟨rfl, ih _ _⟩
      · exact ih _ _
  exact interleaved_passed (fun _ _ _ _ => rfl) env turns pool s (hpassed pool s)

end Semora.Lib
