import Semora.Lib.Safety

/-! Programs that wait for leave: operations of a kind come only behind a reply that permits them. -/

namespace Semora.Lib.Prog

variable {Op : Type} {Res : Op → Type} {ε α β σ : Type}

/-- No operation that needs leave comes before a reply that grants it, and what is returned without
leave satisfies `P`. -/
def Awaits (grants : (o : Op) → Except ε (Res o) → Prop) (needs : Op → Prop) (P : α → Prop) :
    Prog Op Res ε α → Prop
  | ret a => P a
  | raise _ => True
  | call o k => ¬ needs o ∧ ∀ r, grants o r ∨ Awaits grants needs P (k r)

section
variable {grants : (o : Op) → Except ε (Res o) → Prop} {needs : Op → Prop} {P : α → Prop}

/-- A program that never needs leave. -/
theorem awaits_needless {p : Prog Op Res ε α} (h : p.AllOps (fun o => ¬ needs o)) :
    Awaits grants needs (fun _ => True) p := by
  induction p with
  | ret a => trivial
  | raise e => trivial
  | call o k ih => exact ⟨h.1, fun r => .inr (ih r (h.2 r))⟩

theorem Awaits.rets {P' : α → Prop} {p : Prog Op Res ε α} (h : Awaits grants needs P p)
    (hP : p.AllRets P') : Awaits grants needs P' p := by
  induction p with
  | ret a => exact hP
  | raise e => trivial
  | call o k ih => exact ⟨h.1, fun r => (h.2 r).imp_right (fun hk => ih r hk (hP r))⟩

theorem awaits_bind {P' : β → Prop} {p : Prog Op Res ε α} {f : α → Prog Op Res ε β}
    (hp : Awaits grants needs P p) (hf : ∀ a, P a → Awaits grants needs P' (f a)) :
    Awaits grants needs P' (p.bind f) := by
  induction p with
  | ret a => exact hf a hp
  | raise e => trivial
  | call o k ih => exact ⟨hp.1, fun r => (hp.2 r).imp_right (ih r)⟩

theorem awaits_tryCatch {p : Prog Op Res ε α} {handler : ε → Prog Op Res ε α}
    (hp : Awaits grants needs P p) (hhandler : ∀ e, Awaits grants needs P (handler e)) :
    Awaits grants needs P (p.tryCatch handler) := by
  induction p with
  | ret a => exact hp
  | raise e => exact hhandler e
  | call o k ih => exact ⟨hp.1, fun r => (hp.2 r).imp_right (ih r)⟩

/-- A first operation that needs no leave. -/
theorem awaits_op {o : Op} {P : Res o → Prop} (hneeds : ¬ needs o)
    (h : ∀ a, grants o (.ok a) ∨ P a) : Awaits grants needs P (op o : Prog Op Res ε (Res o)) := by
  refine ⟨hneeds, fun r => ?_⟩
  cases r with
  | error e => exact .inr trivial
  | ok a => exact h a

/-- What needs leave does no harm once leave is there, so a program that waits for it is safe. -/
theorem safe_awaits {ι : Type} {exec : Exec Op Res ε σ} {R G : σ → σ → Prop} {I : σ → Prop}
    {L : ι → σ → Prop} {A : ι → (o : Op) → Except ε (Res o) → Prop}
    {N : ι → Op → Prop} {p : Prog Op Res ε α} {s : σ}
    (hR : ∀ a b, R a b → I a → I b ∧ ∀ c, L c a → L c b)
    (hgrants : ∀ c o a r b, I a → exec o a r b → L c a ∨ A c o r → L c b)
    (hop : ∀ o a r b, I a → exec o a r b → (∀ c, N c o → L c a) → G a b ∧ I b)
    (hp : ∀ c, L c s ∨ Awaits (A c) (N c) (fun _ => True) p) (hi : I s) :
    safe exec R G p (fun _ s' => I s') s := by
  induction p generalizing s with
  | ret a => exact hi
  | raise e => exact hi
  | call o k ih =>
    intro s₁ hr r s₂ he
    obtain ⟨hi₁, hL⟩ := hR s s₁ hr hi
    have hneeds : ∀ c, N c o → L c s₁ := by
      intro c hc
      rcases hp c with h | ⟨h, -⟩
      · exact hL c h
      · exact absurd hc h
    obtain ⟨hg, hi₂⟩ := hop o s₁ r s₂ hi₁ he hneeds
    refine ⟨hg, ih r ?_ hi₂⟩
    intro c
    rcases hp c with h | ⟨-, h⟩
    · exact .inl (hgrants c o s₁ r s₂ hi₁ he (.inl (hL c h)))
    · rcases h r with h | h
      · exact .inl (hgrants c o s₁ r s₂ hi₁ he (.inr h))
      · exact .inr h

end

end Semora.Lib.Prog
