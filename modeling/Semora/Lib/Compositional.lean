import Semora.Lib.Weave

/-! Properties of programs that composition keeps: proved of the parts, they hold of the whole. -/

namespace Semora.Lib.Prog

variable {Op : Type} {Res : Op → Type} {ε : Type}

/-- `K` holds of what is put together from programs of which it holds. -/
structure Compositional (K : (α : Type) → Prog Op Res ε α → Prop) : Prop where
  ofAllOps : ∀ {α : Type} {P : Op → Prop} {p : Prog Op Res ε α}, p.AllOps P →
    (∀ o, P o → K (Res o) (op o)) → K α p
  bindRets : ∀ {α β : Type} {P : α → Prop} {p : Prog Op Res ε α} {f : α → Prog Op Res ε β},
    K α p → p.AllRets P → (∀ a, P a → K β (f a)) → K β (p.bind f)
  tryCatch : ∀ {α : Type} {p : Prog Op Res ε α} {handler : ε → Prog Op Res ε α},
    K α p → (∀ e, K α (handler e)) → K α (p.tryCatch handler)
  finally_ : ∀ {α : Type} {p : Prog Op Res ε α} {q : Prog Op Res ε Unit},
    K α p → K Unit q → K α (p.finally_ q)

section
variable {K : (α : Type) → Prog Op Res ε α → Prop} {α β : Type}

theorem Compositional.ret (h : Compositional K) (a : α) : K α (ret a) :=
  h.ofAllOps (P := fun _ => False) trivial (fun _ hfalse => hfalse.elim)

theorem Compositional.raise (h : Compositional K) (e : ε) : K α (raise e) :=
  h.ofAllOps (P := fun _ => False) trivial (fun _ hfalse => hfalse.elim)

theorem Compositional.bind (h : Compositional K) {p : Prog Op Res ε α} {f : α → Prog Op Res ε β}
    (hp : K α p) (hf : ∀ a, K β (f a)) : K β (p.bind f) :=
  h.bindRets hp (allRets_any p) (fun a _ => hf a)

end

variable {α β σ : Type} {exec : Exec Op Res ε σ} {G : σ → σ → Prop} {I : σ → Prop}

/-- Started where `I` holds, each operation of the program is within `G`, and `I` holds again
where it ends. -/
def Keeps (exec : Exec Op Res ε σ) (G : σ → σ → Prop) (I : σ → Prop) (α : Type)
    (p : Prog Op Res ε α) : Prop :=
  ∀ s, I s → safe exec Eq G p (fun _ s' => I s') s

theorem keeps_op {o : Op} : Keeps exec G I (Res o) (op o) ↔
    ∀ s r s', I s → exec o s r s' → G s s' ∧ I s' := by
  constructor
  · intro h s r s' hs he
    exact (safe_op o _ s).mp (h s hs) s rfl r s' he
  · intro h s hs
    apply (safe_op o _ s).mpr
    intro s₁ hs₁ r s₂ he
    subst hs₁
    exact h s r s₂ hs he

theorem keeps_bindRets {P : α → Prop} {p : Prog Op Res ε α} {f : α → Prog Op Res ε β}
    (hp : Keeps exec G I α p) (hrets : p.AllRets P) (hf : ∀ a, P a → Keeps exec G I β (f a)) :
    Keeps exec G I β (p.bind f) := by
  intro s hs
  apply (safe_bind _ _ _ _).mpr
  apply safe_post (safe_rets hrets (hp s hs))
  intro r s' h
  cases r with
  | ok a => exact hf a (h.2 a rfl) s' h.1
  | error e => exact h.1

theorem compositional_keeps (exec : Exec Op Res ε σ) (G : σ → σ → Prop) (I : σ → Prop) :
    Compositional (Keeps exec G I) where
  ofAllOps := by
    intro α P p hp hops s hs
    refine safe_of_allOps (fun _ _ heq h => heq ▸ h) ?_ hp hs
    intro o ho a r b hI he
    exact keeps_op.mp (hops o ho) a r b hI he
  bindRets := keeps_bindRets
  tryCatch := by
    intro α p handler hp hhandler s hs
    apply (safe_tryCatch _ _ _ _).mpr
    apply safe_post (hp s hs)
    intro r s' hs'
    cases r with
    | ok a => exact hs'
    | error e => exact hhandler e s' hs'
  finally_ := by
    intro α p q hp hq s hs
    apply (safe_finally _ _ _ _).mpr
    apply safe_post (hp s hs)
    intro r s' hs'
    apply safe_post (hq s' hs')
    intro r' s'' hs''
    cases r' <;> exact hs''

/-- Calls that each keep what they need in the company of the others, woven into one program. -/
theorem keeps_weave {γ : Type} {gather : List (Prog Op Res ε α) → Prog Op Res ε γ}
    {calls : List (Prog Op Res ε α)} {R : σ → σ → Prop} (h : Weaves gather) (refl : ∀ a, R a a)
    (trans : ∀ a b c, R a b → R b c → R a c) (within : ∀ a b, G a b → R a b)
    (carries : ∀ a b, R a b → I a → I b)
    (hcalls : ∀ call ∈ calls, ∀ s, I s → safe exec R G call (fun _ _ => True) s) :
    Keeps exec G I γ (gather calls) := by
  intro s hs
  apply safe_post (safe_weave h refl trans within (fun call hcall => hcalls call hcall s hs))
  intro r s' hR
  exact carries s s' hR hs

end Semora.Lib.Prog
