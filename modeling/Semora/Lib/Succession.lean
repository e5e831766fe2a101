import Semora.Lib.Safety

/-! Programs over one state, one after the other. Each may be abandoned anywhere: the next one
starts from the state it left. -/

namespace Semora.Lib

variable {Op : Type} {Res : Op → Type} {ε α σ : Type}

/-- What a succession leads to: the number of the program in hand, what is left of it, and the
state. A program may be abandoned where `stops` allows it. -/
inductive Successive (exec : Nat → Prog.Exec Op Res ε σ) (env : σ → σ → Prop)
    (starts : Nat → Prog Op Res ε α → Prop) (stops : Nat → Prog Op Res ε α → σ → Prop) (s₀ : σ) :
    Nat → Prog Op Res ε α → σ → Prop
  | first {p} (start : starts 0 p) : Successive exec env starts stops s₀ 0 p s₀
  | next {i q p s} (run : Successive exec env starts stops s₀ i q s) (stop : stops i q s)
      (start : starts (i + 1) p) : Successive exec env starts stops s₀ (i + 1) p s
  | op {i o k s r s'} (run : Successive exec env starts stops s₀ i (.call o k) s)
      (done : exec i o s r s') : Successive exec env starts stops s₀ i (k r) s'
  | env {i p s s'} (run : Successive exec env starts stops s₀ i p s) (move : env s s') :
      Successive exec env starts stops s₀ i p s'

/-- If every program is safe from where the one before it may have been abandoned, which `J` says of
it, the invariant holds throughout, and what is left of the program in hand is safe. -/
theorem successive_safe {exec : Nat → Prog.Exec Op Res ε σ} {env : σ → σ → Prop}
    {starts : Nat → Prog Op Res ε α → Prop} {stops : Nat → Prog Op Res ε α → σ → Prop} {s₀ : σ}
    {J I : Nat → σ → Prop} {R G : Nat → σ → σ → Prop} {Q : Nat → Except ε α → σ → Prop}
    (hstart : J 0 s₀)
    (hnext : ∀ i q s, I i s → stops i q s → J (i + 1) s)
    (hbegin : ∀ i s, J i s → I i s)
    (hsafe : ∀ i p s, starts i p → J i s → Prog.safe (exec i) (R i) (G i) p (Q i) s)
    (refl : ∀ i s, I i s → R i s s)
    (trans : ∀ i a b c, R i a b → R i b c → R i a c)
    (stable : ∀ i r a b, Q i r a → R i a b → Q i r b)
    (keeps : ∀ i a b, I i a → G i a b → I i b)
    (henv : ∀ i a b, I i a → env a b → I i b ∧ R i a b)
    {i : Nat} {p : Prog Op Res ε α} {s : σ} (run : Successive exec env starts stops s₀ i p s) :
    I i s ∧ Prog.safe (exec i) (R i) (G i) p (Q i) s := by
  induction run with
  | first start => exact ⟨hbegin 0 _ hstart, hsafe 0 _ _ start hstart⟩
  | @next i q p s run stop start ih =>
    have hj := hnext i q s ih.1 stop
    exact ⟨hbegin (i + 1) s hj, hsafe (i + 1) p s start hj⟩
  | @op i o k s r s' run done ih =>
    obtain ⟨hi, hs⟩ := ih
    obtain ⟨hg, hk⟩ := hs s (refl i s hi) r s' done
    exact ⟨keeps i s s' hi hg, hk⟩
  | @env i p s s' run move ih =>
    obtain ⟨hi, hs⟩ := ih
    obtain ⟨hi', hr⟩ := henv i s s' hi move
    exact ⟨hi', Prog.safe_rely (trans i) (stable i) hs hr⟩

/-- Whether the first `n` operations of a program, where each has one outcome, all pass `ok`. -/
def passes (perform : (o : Op) → σ → Except ε (Res o) × σ) (ok : Op → σ → Bool) :
    Nat → Prog Op Res ε α → σ → Bool
  | n + 1, .call o k, s => ok o s && passes perform ok n (k (perform o s).1) (perform o s).2
  | _, _, _ => true

theorem passes_any (perform : (o : Op) → σ → Except ε (Res o) × σ) (n : Nat)
    (p : Prog Op Res ε α) (s : σ) : passes perform (fun _ _ => true) n p s = true := by
  induction n generalizing p s with
  | zero => rfl
  | succ n ih => cases p <;> simp [passes, ih]

/-- The program in hand goes on until it is stopped dead. -/
theorem successive_crash {exec : Nat → Prog.Exec Op Res ε σ} {env : σ → σ → Prop}
    {starts : Nat → Prog Op Res ε α → Prop} {stops : Nat → Prog Op Res ε α → σ → Prop} {s₀ : σ}
    {perform : (o : Op) → σ → Except ε (Res o) × σ} {i : Nat} (ok : Op → σ → Bool)
    (hexec : ∀ o s, ok o s = true → exec i o s (perform o s).1 (perform o s).2)
    {p : Prog Op Res ε α} {s : σ} (run : Successive exec env starts stops s₀ i p s) (n : Nat)
    (h : passes perform ok n p s = true) :
    Successive exec env starts stops s₀ i (Prog.crash perform n p s).1
      (Prog.crash perform n p s).2 := by
  induction n generalizing p s with
  | zero => exact run
  | succ n ih =>
    cases p with
    | ret a => exact run
    | raise e => exact run
    | call o k =>
      obtain ⟨hok, hrest⟩ := Bool.and_eq_true_iff.mp h
      exact ih (.op run (hexec o s hok)) hrest

end Semora.Lib
