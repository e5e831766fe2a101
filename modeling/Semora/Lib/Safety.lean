import Mathlib.Logic.Relation
import Semora.Lib.Prog

/-! Rely–guarantee safety of a program tree. `safe` follows a program operation by operation:
between two operations the state may move as the rely `R` allows, each operation must move it as
the guarantee `G` allows, and the outcome must satisfy the postcondition. With equality as the
rely it is a crash logic: what every guarantee step keeps holds wherever the program stops. -/

namespace Semora.Lib.Prog

variable {Op : Type} {Res : Op → Type} {ε α β σ : Type}
variable (exec : Exec Op Res ε σ) (R G : σ → σ → Prop)

def safe : Prog Op Res ε α → (Except ε α → σ → Prop) → σ → Prop
  | ret a, Q, s => Q (.ok a) s
  | raise e, Q, s => Q (.error e) s
  | call o k, Q, s => ∀ s₁, R s s₁ → ∀ r s₂, exec o s₁ r s₂ → G s₁ s₂ ∧ safe (k r) Q s₂

variable {exec R G}

@[simp] theorem safe_ret (a : α) (Q : Except ε α → σ → Prop) (s : σ) :
    safe exec R G (ret a) Q s ↔ Q (.ok a) s := Iff.rfl

@[simp] theorem safe_raise (e : ε) (Q : Except ε α → σ → Prop) (s : σ) :
    safe exec R G (raise e) Q s ↔ Q (.error e) s := Iff.rfl

theorem safe_ofExcept (r : Except ε α) (Q : Except ε α → σ → Prop) (s : σ) :
    safe exec R G (ofExcept r) Q s ↔ Q r s := by
  cases r <;> rfl

theorem safe_call (o : Op) (k : Except ε (Res o) → Prog Op Res ε α)
    (Q : Except ε α → σ → Prop) (s : σ) :
    safe exec R G (call o k) Q s ↔
      ∀ s₁, R s s₁ → ∀ r s₂, exec o s₁ r s₂ → G s₁ s₂ ∧ safe exec R G (k r) Q s₂ := Iff.rfl

/-- One operation: what its reply must give. -/
theorem safe_op (o : Op) (Q : Except ε (Res o) → σ → Prop) (s : σ) :
    safe exec R G (op o) Q s ↔
      ∀ s₁, R s s₁ → ∀ r s₂, exec o s₁ r s₂ → G s₁ s₂ ∧ Q r s₂ := by
  constructor
  · intro h s₁ hr r s₂ he
    obtain ⟨hg, hk⟩ := h s₁ hr r s₂ he
    cases r <;> exact ⟨hg, hk⟩
  · intro h s₁ hr r s₂ he
    obtain ⟨hg, hk⟩ := h s₁ hr r s₂ he
    cases r <;> exact ⟨hg, hk⟩

/-- Sequencing: the second program starts where the first returned. -/
theorem safe_bind (p : Prog Op Res ε α) (f : α → Prog Op Res ε β)
    (Q : Except ε β → σ → Prop) (s : σ) :
    safe exec R G (p.bind f) Q s ↔
      safe exec R G p (fun r s' => match r with
        | .ok a => safe exec R G (f a) Q s'
        | .error e => Q (.error e) s') s := by
  induction p generalizing s with
  | ret a => rfl
  | raise e => rfl
  | call o k ih =>
    simp only [Prog.bind, safe_call, ih]

theorem safe_tryCatch (p : Prog Op Res ε α) (h : ε → Prog Op Res ε α)
    (Q : Except ε α → σ → Prop) (s : σ) :
    safe exec R G (p.tryCatch h) Q s ↔
      safe exec R G p (fun r s' => match r with
        | .ok a => Q (.ok a) s'
        | .error e => safe exec R G (h e) Q s') s := by
  induction p generalizing s with
  | ret a => rfl
  | raise e => rfl
  | call o k ih =>
    simp only [Prog.tryCatch, safe_call, ih]

/-- A stronger postcondition and a stronger guarantee may be weakened. -/
theorem safe_mono {G' : σ → σ → Prop} {Q Q' : Except ε α → σ → Prop} {p : Prog Op Res ε α} {s : σ}
    (h : safe exec R G p Q s) (hg : ∀ a b, G a b → G' a b) (hq : ∀ r a, Q r a → Q' r a) :
    safe exec R G' p Q' s := by
  induction p generalizing s with
  | ret a => exact hq _ _ h
  | raise e => exact hq _ _ h
  | call o k ih =>
    intro s₁ hr r s₂ he
    obtain ⟨h₁, h₂⟩ := h s₁ hr r s₂ he
    exact ⟨hg _ _ h₁, ih r h₂⟩

theorem safe_post {Q Q' : Except ε α → σ → Prop} {p : Prog Op Res ε α} {s : σ}
    (h : safe exec R G p Q s) (hq : ∀ r a, Q r a → Q' r a) : safe exec R G p Q' s :=
  safe_mono h (fun _ _ h => h) hq

/-- With a value it ends as the one says, with an exception as the other does. -/
def either (M : α → σ → Prop) (E : ε → σ → Prop) : Except ε α → σ → Prop
  | .ok a, s => M a s
  | .error e, s => E e s

/-- A step of a sequence: what it gives is what the rest starts from. -/
theorem safe_seq {M : α → σ → Prop} {Q : Except ε β → σ → Prop} {p : Prog Op Res ε α}
    {f : α → Prog Op Res ε β} {s : σ}
    (hp : safe exec R G p (either M (fun e => Q (.error e))) s)
    (hf : ∀ a s', M a s' → safe exec R G (f a) Q s') : safe exec R G (p.bind f) Q s := by
  apply (safe_bind p f Q s).mpr
  apply safe_post hp
  intro r s' h
  cases r with
  | ok a => exact hf a s' h
  | error e => exact h

theorem safe_either {M : α → σ → Prop} {E : ε → σ → Prop} {Q : Except ε α → σ → Prop}
    {p : Prog Op Res ε α} {s : σ} (h : safe exec R G p Q s) (ok : ∀ a s', Q (.ok a) s' → M a s')
    (error : ∀ e s', Q (.error e) s' → E e s') : safe exec R G p (either M E) s := by
  apply safe_post h
  intro r s' hQ
  cases r with
  | ok a => exact ok a s' hQ
  | error e => exact error e s' hQ

/-- What neither the rely nor the guarantee breaks is carried along. -/
theorem safe_carry {Q : Except ε α → σ → Prop} {P : σ → Prop} {p : Prog Op Res ε α} {s : σ}
    (h : safe exec R G p Q s) (hr : ∀ a b, R a b → P a → P b) (hg : ∀ a b, G a b → P a → P b)
    (hp : P s) : safe exec R G p (fun r a => Q r a ∧ P a) s := by
  induction p generalizing s with
  | ret a => exact ⟨h, hp⟩
  | raise e => exact ⟨h, hp⟩
  | call o k ih =>
    intro s₁ hr₁ r s₂ he
    obtain ⟨h₁, h₂⟩ := h s₁ hr₁ r s₂ he
    exact ⟨h₁, ih r h₂ (hg _ _ h₁ (hr _ _ hr₁ hp))⟩

/-- And each step then starts where it holds. -/
theorem safe_along {Q : Except ε α → σ → Prop} {P : σ → Prop} {p : Prog Op Res ε α} {s : σ}
    (h : safe exec R G p Q s) (hr : ∀ a b, R a b → P a → P b) (hg : ∀ a b, G a b → P a → P b)
    (hp : P s) : safe exec R (fun a b => G a b ∧ P a) p (fun r a => Q r a ∧ P a) s := by
  induction p generalizing s with
  | ret a => exact ⟨h, hp⟩
  | raise e => exact ⟨h, hp⟩
  | call o k ih =>
    intro s₁ hr₁ r s₂ he
    obtain ⟨hstep, hk⟩ := h s₁ hr₁ r s₂ he
    have hp₁ := hr s s₁ hr₁ hp
    exact ⟨⟨hstep, hp₁⟩, ih r hk (hg s₁ s₂ hstep hp₁)⟩

/-- What neither the rely nor the guarantee breaks may be assumed of every operation. -/
theorem safe_assume {Q : Except ε α → σ → Prop} {P : σ → Prop} {p : Prog Op Res ε α} {s : σ}
    (hr : ∀ a b, R a b → P a → P b) (hg : ∀ a b, G a b → P a → P b) (hp : P s)
    (h : safe (fun o a r b => P a ∧ exec o a r b) R G p Q s) : safe exec R G p Q s := by
  induction p generalizing s with
  | ret a => exact h
  | raise e => exact h
  | call o k ih =>
    intro s₁ hr₁ r s₂ he
    have hp₁ := hr _ _ hr₁ hp
    obtain ⟨h₁, h₂⟩ := h s₁ hr₁ r s₂ ⟨hp₁, he⟩
    exact ⟨h₁, ih r (hg _ _ h₁ hp₁) h₂⟩

/-- Two guarantees, and two postconditions, of one program. -/
theorem safe_and {G' : σ → σ → Prop} {Q Q' : Except ε α → σ → Prop} {p : Prog Op Res ε α} {s : σ}
    (h : safe exec R G p Q s) (h' : safe exec R G' p Q' s) :
    safe exec R (fun a b => G a b ∧ G' a b) p (fun r a => Q r a ∧ Q' r a) s := by
  induction p generalizing s with
  | ret a => exact ⟨h, h'⟩
  | raise e => exact ⟨h, h'⟩
  | call o k ih =>
    intro s₁ hr r s₂ he
    obtain ⟨hg, hk⟩ := h s₁ hr r s₂ he
    obtain ⟨hg', hk'⟩ := h' s₁ hr r s₂ he
    exact ⟨⟨hg, hg'⟩, ih r hk hk'⟩

theorem safe_rets {P : α → Prop} {Q : Except ε α → σ → Prop} {p : Prog Op Res ε α} {s : σ}
    (hp : p.AllRets P) (h : safe exec R G p Q s) :
    safe exec R G p (fun r a => Q r a ∧ ∀ x, r = .ok x → P x) s := by
  induction p generalizing s with
  | ret a =>
    refine ⟨h, ?_⟩
    rintro x ⟨⟩
    exact hp
  | raise e => exact ⟨h, by simp⟩
  | call o k ih =>
    intro s₁ hr r s₂ he
    obtain ⟨h₁, h₂⟩ := h s₁ hr r s₂ he
    exact ⟨h₁, ih r (hp r) h₂⟩

theorem safe_congr {Q Q' : Except ε α → σ → Prop} {p : Prog Op Res ε α} {s : σ}
    (h : ∀ r a, Q r a ↔ Q' r a) : safe exec R G p Q s ↔ safe exec R G p Q' s :=
  ⟨fun hs => safe_post hs (fun r a => (h r a).mp), fun hs => safe_post hs (fun r a => (h r a).mpr)⟩

theorem safe_finally (p : Prog Op Res ε α) (q : Prog Op Res ε Unit)
    (Q : Except ε α → σ → Prop) (s : σ) :
    safe exec R G (p.finally_ q) Q s ↔
      safe exec R G p (fun r s' => safe exec R G q (fun r' s'' => match r' with
        | .ok _ => Q r s''
        | .error e => Q (.error e) s'') s') s := by
  induction p generalizing s with
  | ret a =>
    rw [safe_ret]
    exact (safe_bind q _ Q s).trans (safe_congr (by rintro (e | u) s' <;> exact Iff.rfl))
  | raise e =>
    rw [safe_raise]
    exact (safe_bind q _ Q s).trans (safe_congr (by rintro (e | u) s' <;> exact Iff.rfl))
  | call o k ih =>
    simp only [Prog.finally_, safe_call, ih]

/-- The environment may move first. -/
theorem safe_rely {Q : Except ε α → σ → Prop} {p : Prog Op Res ε α} {s s' : σ}
    (trans : ∀ a b c, R a b → R b c → R a c) (stable : ∀ r a b, Q r a → R a b → Q r b)
    (h : safe exec R G p Q s) (hr : R s s') : safe exec R G p Q s' := by
  cases p with
  | ret a => exact stable _ _ _ h hr
  | raise e => exact stable _ _ _ h hr
  | call o k => exact fun s₁ h₁ => h s₁ (trans _ _ _ hr h₁)

/-- A program whose every operation keeps `I`, within the guarantee, keeps `I`. -/
theorem safe_of_allOps {P : Op → Prop} {I : σ → Prop} {p : Prog Op Res ε α} {s : σ}
    (hR : ∀ a b, R a b → I a → I b)
    (hP : ∀ o, P o → ∀ a r b, I a → exec o a r b → G a b ∧ I b)
    (hp : p.AllOps P) (hi : I s) : safe exec R G p (fun _ s' => I s') s := by
  induction p generalizing s with
  | ret a => exact hi
  | raise e => exact hi
  | call o k ih =>
    intro s₁ hr r s₂ he
    obtain ⟨hg, hi₂⟩ := hP o hp.1 s₁ r s₂ (hR s s₁ hr hi) he
    exact ⟨hg, ih r (hp.2 r) hi₂⟩

/-- What a program guarantees only while a condition holds that never holds again once it fails,
and what it guarantees in any case. -/
theorem safe_lapsing {P : Op → Prop} {C : σ → Prop} {G₀ G₂ : σ → σ → Prop}
    {Q Q₂ : Except ε α → σ → Prop} {p : Prog Op Res ε α} {s : σ}
    (hR : ∀ a b, R a b → C b → C a) (hP : ∀ o, P o → ∀ a r b, exec o a r b → C b → C a)
    (hp : p.AllOps P)
    (h : C s → safe (fun o a r b => C a ∧ exec o a r b) (fun a b => R a b ∧ C b) G₀ p Q s)
    (h₂ : safe exec R G₂ p Q₂ s) :
    safe exec R (fun a b => (C a → G₀ a b) ∧ G₂ a b) p (fun r a => (C a → Q r a) ∧ Q₂ r a) s := by
  induction p generalizing s with
  | ret a => exact ⟨h, h₂⟩
  | raise e => exact ⟨h, h₂⟩
  | call o k ih =>
    intro s₁ hr r s₂ he
    obtain ⟨hg, hk⟩ := h₂ s₁ hr r s₂ he
    have hstep : C s₁ → G₀ s₁ s₂ ∧ safe (fun o a r b => C a ∧ exec o a r b)
        (fun a b => R a b ∧ C b) G₀ (k r) Q s₂ :=
      fun hc => h (hR s s₁ hr hc) s₁ ⟨hr, hc⟩ r s₂ ⟨hc, he⟩
    refine ⟨⟨fun hc => (hstep hc).1, hg⟩, ih r (hp.2 r) ?_ hk⟩
    intro hc
    exact (hstep (hP o hp.1 s₁ r s₂ he hc)).2

/-- A run of one program among others: its own operations, and moves of the environment. -/
inductive Runs (exec : Exec Op Res ε σ) (R : σ → σ → Prop) :
    Prog Op Res ε α → σ → Prog Op Res ε α → σ → Prop
  | refl (p s) : Runs exec R p s p s
  | env {p s q t u} : Runs exec R p s q t → R t u → Runs exec R p s q u
  | op {p s o k t r u} : Runs exec R p s (call o k) t → exec o t r u → Runs exec R p s (k r) u

/-- A run goes on with operations of the program alone. -/
theorem Runs.crash {step : (o : Op) → σ → Except ε (Res o) × σ} {p q : Prog Op Res ε α} {s t : σ}
    (run : Runs (fun o s r s' => step o s = (r, s')) R p s q t) (n : Nat) :
    Runs (fun o s r s' => step o s = (r, s')) R p s (q.crash step n t).1 (q.crash step n t).2 := by
  induction n generalizing q t with
  | zero => exact run
  | succ n ih =>
    cases q with
    | ret a => exact run
    | raise e => exact run
    | call o k => exact ih (.op run rfl)

/-- A run goes on alone until the program ends. -/
theorem Runs.eval {step : (o : Op) → σ → Except ε (Res o) × σ} {p q : Prog Op Res ε α} {s t : σ}
    (run : Runs (fun o s r s' => step o s = (r, s')) R p s q t) :
    Runs (fun o s r s' => step o s = (r, s')) R p s (ofExcept (q.eval step t).1)
      (q.eval step t).2 := by
  induction q generalizing t with
  | ret a => exact run
  | raise e => exact run
  | call o k ih => exact ih _ (.op run rfl)

/-- A run comes to no other operations than the program can come to. -/
theorem runs_allOps {P : Op → Prop} {p q : Prog Op Res ε α} {s t : σ} (hp : p.AllOps P)
    (run : Runs exec R p s q t) : q.AllOps P := by
  induction run with
  | refl => exact hp
  | env _ _ ih => exact ih
  | op _ _ ih => exact ih.2 _

/-- Wherever a safe program has got to, the rest of it is safe, and what both the guarantee and
the rely keep still holds: stopping there is a crash. -/
theorem safe_runs {Q : Except ε α → σ → Prop} {p q : Prog Op Res ε α} {s t : σ}
    (refl : ∀ a, R a a) (trans : ∀ a b c, R a b → R b c → R a c)
    (stable : ∀ r a b, Q r a → R a b → Q r b) {I : σ → Prop}
    (hR : ∀ a b, R a b → I a → I b) (hG : ∀ a b, G a b → I a → I b)
    (h : safe exec R G p Q s) (hi : I s) (run : Runs exec R p s q t) :
    safe exec R G q Q t ∧ I t := by
  induction run with
  | refl => exact ⟨h, hi⟩
  | env _ hr ih =>
    obtain ⟨hs, hI⟩ := ih
    exact ⟨safe_rely trans stable hs hr, hR _ _ hr hI⟩
  | op _ he ih =>
    obtain ⟨hs, hI⟩ := ih
    obtain ⟨hg, hk⟩ := hs _ (refl _) _ _ he
    exact ⟨hk, hG _ _ hg hI⟩

end Semora.Lib.Prog
