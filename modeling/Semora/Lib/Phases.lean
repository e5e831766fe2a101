import Semora.Lib.Safety

/-! A run of a compound program by its phases: the runs of its parts, one after the other. -/

namespace Semora.Lib.Prog

variable {Op : Type} {Res : Op → Type} {ε α β σ : Type}
variable {exec : Exec Op Res ε σ} {R : σ → σ → Prop} {s t u : σ}

theorem Runs.trans {p q r : Prog Op Res ε α} (h : Runs exec R p s q t) (h' : Runs exec R q t r u) :
    Runs exec R p s r u := by
  induction h' with
  | refl => exact h
  | env _ move ih => exact .env ih move
  | op _ done ih => exact .op ih done

/-- What surrounds a part that is at work: it lets every operation of the part through. -/
def Surrounds (C : Prog Op Res ε α → Prog Op Res ε β) : Prop :=
  ∀ o k, C (call o k) = call o (fun r => C (k r))

theorem surrounds_bind (f : α → Prog Op Res ε β) :
    Surrounds (fun p : Prog Op Res ε α => p.bind f) := fun _ _ => rfl

theorem surrounds_tryCatch (f : ε → Prog Op Res ε α) :
    Surrounds (fun p : Prog Op Res ε α => p.tryCatch f) := fun _ _ => rfl

theorem surrounds_finally (last : Prog Op Res ε Unit) :
    Surrounds (fun p : Prog Op Res ε α => p.finally_ last) := fun _ _ => rfl

section
variable {C : Prog Op Res ε α → Prog Op Res ε β} (hC : Surrounds C)
include hC

/-- What a part does, it does within the whole. -/
theorem Runs.within {p q : Prog Op Res ε α} (h : Runs exec R p s q t) :
    Runs exec R (C p) s (C q) t := by
  induction h with
  | refl => exact .refl _ _
  | env _ move ih => exact .env ih move
  | op _ done ih =>
    rw [hC] at ih
    exact .op ih done

/-- Everywhere on the way of the whole the part is still at work, or has ended. -/
theorem runs_phases {p : Prog Op Res ε α} {x : Prog Op Res ε β} (h : Runs exec R (C p) s x t) :
    (∃ p', Runs exec R p s p' t ∧ x = C p') ∨
      ∃ r t', Runs exec R p s (ofExcept r) t' ∧ Runs exec R (C (ofExcept r)) t' x t := by
  induction h with
  | refl => exact .inl ⟨p, .refl _ _, rfl⟩
  | env _ move ih =>
    rcases ih with ⟨p', hp, rfl⟩ | ⟨r, t', hp, hrest⟩
    · exact .inl ⟨p', .env hp move, rfl⟩
    · exact .inr ⟨r, t', hp, .env hrest move⟩
  | @op o k t₁ reply t₂ _ done ih =>
    rcases ih with ⟨p', hp, hx⟩ | ⟨r, t', hp, hrest⟩
    · cases p' with
      | ret a => exact .inr ⟨.ok a, t₁, hp, .op (hx ▸ .refl _ _) done⟩
      | raise e => exact .inr ⟨.error e, t₁, hp, .op (hx ▸ .refl _ _) done⟩
      | call o' k' =>
        rw [hC] at hx
        cases hx
        exact .inl ⟨k' reply, .op hp done, rfl⟩
    · exact .inr ⟨r, t', hp, .op hrest done⟩

/-- A run of the whole to its end: the part runs to its end, and then what is left does. -/
theorem runs_within {p : Prog Op Res ε α} {r : Except ε β}
    (h : Runs exec R (C p) s (ofExcept r) u) :
    ∃ r' t, Runs exec R p s (ofExcept r') t ∧ Runs exec R (C (ofExcept r')) t (ofExcept r) u := by
  rcases runs_phases hC h with ⟨p', hp, hx⟩ | hended
  · cases p' with
    | ret a => exact ⟨.ok a, u, hp, hx ▸ .refl _ _⟩
    | raise e => exact ⟨.error e, u, hp, hx ▸ .refl _ _⟩
    | call o k =>
      rw [hC] at hx
      cases r <;> cases hx
  · exact hended

end

theorem runs_bind {p : Prog Op Res ε α} {f : α → Prog Op Res ε β} {r : Except ε β}
    (h : Runs exec R (p.bind f) s (ofExcept r) u) :
    ∃ r' t, Runs exec R p s (ofExcept r') t ∧
      Runs exec R ((ofExcept r').bind f) t (ofExcept r) u :=
  runs_within (surrounds_bind f) h

/-- A program that has raised does nothing more. -/
theorem runs_raise {e : ε} {q : Prog Op Res ε β} (h : Runs exec R (raise e) s q t) :
    q = raise e ∧ Runs exec R (raise e : Prog Op Res ε α) s (raise e) t := by
  induction h with
  | refl => exact ⟨rfl, .refl _ _⟩
  | env _ move ih =>
    obtain ⟨hq, hrun⟩ := ih
    exact ⟨hq, .env hrun move⟩
  | op _ _ ih =>
    obtain ⟨hq, -⟩ := ih
    cases hq

/-- Anywhere in a run of one program and then another: the first is at work, or it has returned. -/
theorem runs_stages {p : Prog Op Res ε α} {f : α → Prog Op Res ε β} {q : Prog Op Res ε β}
    (h : Runs exec R (p.bind f) s q t) :
    (∃ p', Runs exec R p s p' t ∧ q = p'.bind f) ∨
      ∃ a u, Runs exec R p s (ret a) u ∧ Runs exec R (f a) u q t := by
  rcases runs_phases (surrounds_bind f) h with hat | ⟨r, u, hp, hrest⟩
  · exact .inl hat
  · cases r with
    | ok a => exact .inr ⟨a, u, hp, hrest⟩
    | error e =>
      obtain ⟨hq, hraised⟩ := runs_raise hrest
      exact .inl ⟨raise e, hp.trans hraised, hq⟩

section
variable (refl : ∀ a, R a a) (trans : ∀ a b c, R a b → R b c → R a c)
include refl trans

/-- Where a program has ended, only the environment moves. -/
theorem runs_ended {r' r : Except ε α} (h : Runs exec R (ofExcept r') s (ofExcept r) u) :
    r' = r ∧ R s u := by
  have hended : ∀ x t, Runs exec R (ofExcept r') s x t → x = ofExcept r' ∧ R s t := by
    intro x t run
    induction run with
    | refl => exact ⟨rfl, refl s⟩
    | env _ move ih =>
      obtain ⟨hx, hr⟩ := ih
      exact ⟨hx, trans _ _ _ hr move⟩
    | op _ _ ih =>
      obtain ⟨hx, -⟩ := ih
      cases r' <;> cases hx
  obtain ⟨hx, hr⟩ := hended _ _ h
  refine ⟨?_, hr⟩
  cases r <;> cases r' <;> cases hx <;> rfl

/-- A run of one program and then another to the end: the first returns and the second runs to
the end, or the first raises and that is the end. -/
theorem runs_next {p : Prog Op Res ε α} {f : α → Prog Op Res ε β} {r : Except ε β}
    (h : Runs exec R (p.bind f) s (ofExcept r) u) :
    (∃ a t, Runs exec R p s (ret a) t ∧ Runs exec R (p.bind f) s (f a) t ∧
      Runs exec R (f a) t (ofExcept r) u) ∨
    ∃ e t, Runs exec R p s (raise e) t ∧ r = .error e ∧ R t u := by
  obtain ⟨r', t, hp, hrest⟩ := runs_bind h
  cases r' with
  | ok a => exact .inl ⟨a, t, hp, hp.within (surrounds_bind f), hrest⟩
  | error e =>
    have hended : Runs exec R (ofExcept (.error e : Except ε β)) t (ofExcept r) u := hrest
    obtain ⟨hr, hmove⟩ := runs_ended refl trans hended
    exact .inr ⟨e, t, hp, hr.symm, hmove⟩

/-- The next operation, and the run of what follows its reply. -/
theorem runs_call {o : Op} {k : Except ε (Res o) → Prog Op Res ε α} {r : Except ε α}
    (h : Runs exec R (call o k) s (ofExcept r) u) :
    ∃ reply s₁ s₂, R s s₁ ∧ exec o s₁ reply s₂ ∧ Runs exec R (k reply) s₂ (ofExcept r) u := by
  have hphases : ∀ x t, Runs exec R (call o k) s x t → (x = call o k ∧ R s t) ∨
      ∃ reply s₁ s₂, R s s₁ ∧ exec o s₁ reply s₂ ∧ Runs exec R (k reply) s₂ x t := by
    intro x t run
    induction run with
    | refl => exact .inl ⟨rfl, refl s⟩
    | env _ move ih =>
      rcases ih with ⟨hx, hr⟩ | ⟨reply, s₁, s₂, hr, done, hrest⟩
      · exact .inl ⟨hx, trans _ _ _ hr move⟩
      · exact .inr ⟨reply, s₁, s₂, hr, done, .env hrest move⟩
    | @op o' k' t₁ reply t₂ _ done ih =>
      rcases ih with ⟨hx, hr⟩ | ⟨reply', s₁, s₂, hr, done', hrest⟩
      · cases hx
        exact .inr ⟨reply, t₁, t₂, hr, done, .refl _ _⟩
      · exact .inr ⟨reply', s₁, s₂, hr, done', .op hrest done⟩
  rcases hphases _ _ h with ⟨hx, -⟩ | hnext
  · cases r <;> cases hx
  · exact hnext

/-- One operation: the environment, the operation, the environment. -/
theorem runs_op {o : Op} {r : Except ε (Res o)} (h : Runs exec R (op o) s (ofExcept r) u) :
    ∃ s₁ s₂, R s s₁ ∧ exec o s₁ r s₂ ∧ R s₂ u := by
  obtain ⟨reply, s₁, s₂, hr, done, hrest⟩ := runs_call refl trans h
  have hended : Runs exec R (ofExcept reply) s₂ (ofExcept r) u := by
    cases reply <;> exact hrest
  obtain ⟨rfl, hr'⟩ := runs_ended refl trans hended
  exact ⟨s₁, s₂, hr, done, hr'⟩

end

/-- What the environment and every operation of a program keep, its runs keep. -/
theorem runs_keep {P : Op → Prop} {I : σ → Prop} {p q : Prog Op Res ε α} (hp : p.AllOps P)
    (hR : ∀ a b, R a b → I a → I b) (hop : ∀ o, P o → ∀ a r b, I a → exec o a r b → I b)
    (h : Runs exec R p s q t) (hi : I s) : I t := by
  induction h with
  | refl => exact hi
  | env _ move ih => exact hR _ _ move ih
  | op run done ih => exact hop _ (runs_allOps hp run).1 _ _ _ ih done

/-- A program whose operations are as `P` says and that returns, if each of them does, what is as
`Q` says. -/
def Completes (P : Op → Prop) (Q : α → Prop) : Prog Op Res ε α → Prop
  | ret a => Q a
  | raise _ => False
  | call o k => P o ∧ ∀ a, Completes P Q (k (.ok a))

section
variable {P : Op → Prop} {Q : α → Prop} {Q' : β → Prop}

theorem completes_op {o : Op} (h : P o) :
    (op o : Prog Op Res ε (Res o)).Completes P (fun _ => True) :=
  ⟨h, fun _ => trivial⟩

theorem completes_bind {p : Prog Op Res ε α} {f : α → Prog Op Res ε β} (hp : p.Completes P Q)
    (hf : ∀ a, Q a → (f a).Completes P Q') : (p.bind f).Completes P Q' := by
  induction p with
  | ret a => exact hf a hp
  | raise _ => exact False.elim hp
  | call o k ih => exact ⟨hp.1, fun a => ih (.ok a) (hp.2 a)⟩

/-- Where the operations reply and keep `I`, such a program returns and keeps it. -/
theorem runs_completes (refl : ∀ a, R a a) (trans : ∀ a b c, R a b → R b c → R a c) {I : σ → Prop}
    (hR : ∀ a b, R a b → I a → I b)
    (hop : ∀ o, P o → ∀ a r b, I a → exec o a r b → (∃ x, r = .ok x) ∧ I b)
    {p : Prog Op Res ε α} {r : Except ε α} (hp : p.Completes P Q)
    (h : Runs exec R p s (ofExcept r) t) (hi : I s) : (∃ a, r = .ok a ∧ Q a) ∧ I t := by
  induction p generalizing s with
  | ret a =>
    have hret : Runs exec R (ofExcept (.ok a)) s (ofExcept r) t := h
    obtain ⟨hr, hmove⟩ := runs_ended refl trans hret
    exact ⟨⟨a, hr.symm, hp⟩, hR _ _ hmove hi⟩
  | raise _ => exact False.elim hp
  | call o k ih =>
    obtain ⟨reply, s₁, s₂, hr, done, hrest⟩ := runs_call refl trans h
    obtain ⟨ho, hnext⟩ := hp
    obtain ⟨⟨a, rfl⟩, hi₂⟩ := hop o ho _ _ _ (hR _ _ hr hi) done
    exact ih (.ok a) (hnext a) hrest hi₂

end

end Semora.Lib.Prog
