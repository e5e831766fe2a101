import Semora.Lib.Trace

/-! Programs side by side inside one program: what each of them guarantees in the company of the
others, the whole guarantees. -/

namespace Semora.Lib.Prog

variable {Op : Type} {Res : Op → Type} {ε α β γ σ : Type}

/-- `done` is an interleaving of `parts`. -/
inductive Merge : List (List β) → List β → Prop
  | nil (parts) (ended : ∀ part ∈ parts, part = []) : Merge parts []
  | cons (front : List (List β)) (d : β) (part : List β) (back : List (List β)) (done : List β)
      (rest : Merge (front ++ part :: back) done) : Merge (front ++ (d :: part) :: back) (d :: done)

theorem Merge.mem {parts : List (List β)} {done : List β} (h : Merge parts done) {d : β}
    (hd : d ∈ done) : ∃ part ∈ parts, d ∈ part := by
  induction h with
  | nil => cases hd
  | cons front d' part back done _ ih =>
    rcases List.mem_cons.mp hd with rfl | hd
    · exact ⟨d :: part, by simp, List.mem_cons_self⟩
    · obtain ⟨part', hpart', hmem⟩ := ih hd
      simp only [List.mem_append, List.mem_cons] at hpart'
      rcases hpart' with hfront | rfl | hback
      · exact ⟨part', by simp [hfront], hmem⟩
      · exact ⟨d' :: part', by simp, List.mem_cons_of_mem _ hmem⟩
      · exact ⟨part', by simp [hback], hmem⟩

/-- An empty part adds nothing. -/
theorem Merge.idle {parts : List (List β)} {done : List β} (h : Merge parts done) :
    Merge ([] :: parts) done := by
  induction h with
  | nil parts ended =>
    refine .nil _ ?_
    intro part hpart
    rcases List.mem_cons.mp hpart with rfl | hpart
    · rfl
    · exact ended part hpart
  | cons front d part back done _ ih => exact .cons ([] :: front) d part back done ih

/-- One part first, and then the rest. -/
theorem Merge.first {parts : List (List β)} {done : List β} (h : Merge parts done)
    (part : List β) : Merge (part :: parts) (part ++ done) := by
  induction part with
  | nil => exact h.idle
  | cons d part ih => exact .cons [] d part parts _ ih

/-- The program performs what its calls perform, each in its own order, and nothing else. -/
def Weaves (gather : List (Prog Op Res ε α) → Prog Op Res ε γ) : Prop :=
  ∀ calls done q, Played (gather calls) done q → ∃ parts, Merge parts done ∧
    ∀ part ∈ parts, ∃ call ∈ calls, ∃ q', Played call part q'

/-- What holds of every operation that can be performed holds of all. -/
theorem allOps_of_played [Nonempty ε] {P : Op → Prop} {p : Prog Op Res ε α}
    (h : ∀ done q, Played p done q → ∀ d ∈ done, P d.op) : p.AllOps P := by
  induction p with
  | ret a => trivial
  | raise e => trivial
  | call o k ih =>
    have hfirst : ∀ r, P o := fun r => h [⟨o, r⟩] _ (.cons (.nil _)) _ (List.mem_singleton_self _)
    refine ⟨hfirst (.error (Classical.arbitrary ε)), fun r => ih r ?_⟩
    intro done q hplayed d hd
    exact h (⟨o, r⟩ :: done) q (.cons hplayed) d (List.mem_cons_of_mem _ hd)

section
variable {gather : List (Prog Op Res ε α) → Prog Op Res ε γ} {calls : List (Prog Op Res ε α)}

/-- It performs no operation of its own. -/
theorem Weaves.allOps [Nonempty ε] (h : Weaves gather) {P : Op → Prop}
    (hcalls : ∀ call ∈ calls, call.AllOps P) : (gather calls).AllOps P := by
  apply allOps_of_played
  intro done q hplayed d hd
  obtain ⟨parts, hmerge, hparts⟩ := h calls done q hplayed
  obtain ⟨part, hpart, hmem⟩ := hmerge.mem hd
  obtain ⟨call, hcall, q', hplayed'⟩ := hparts part hpart
  exact (hplayed'.allOps (hcalls call hcall)).1 d hmem

/-! A sequence of programs. -/

/-- Part way through two programs: the first is at work or has raised, or the second goes on with
what the first returned. -/
theorem played_bind {p : Prog Op Res ε α} {f : α → Prog Op Res ε β} {q : Prog Op Res ε β}
    {done : List (Done Res ε)} (h : Played (p.bind f) done q) :
    (∃ p', Played p done p') ∨
      ∃ front rest a, done = front ++ rest ∧ Played p front (ret a) ∧ Played (f a) rest q := by
  induction p generalizing done with
  | ret a => exact .inr ⟨[], done, a, rfl, .nil _, h⟩
  | raise e =>
    obtain ⟨rfl, rfl⟩ := played_ended (r := (.error e : Except ε β)) h
    exact .inl ⟨_, .nil _⟩
  | call o k ih =>
    rcases played_call h with ⟨rfl, rfl⟩ | ⟨r, rest, rfl, hrest⟩
    · exact .inl ⟨_, .nil _⟩
    · rcases ih r hrest with ⟨p', hp'⟩ | ⟨front, rest', a, rfl, hp, hf⟩
      · exact .inl ⟨p', .cons hp'⟩
      · exact .inr ⟨_ :: front, rest', a, rfl, .cons hp, hf⟩

end

/-! The guarantees of the parts. -/

variable {exec : Exec Op Res ε σ} {R G : σ → σ → Prop}

/-- The operations and their replies lead from `s` to `t`. -/
inductive Traced (exec : Exec Op Res ε σ) : σ → List (Done Res ε) → σ → Prop
  | nil (s) : Traced exec s [] s
  | cons {s t u o r done} (he : exec o s r t) (rest : Traced exec t done u) :
      Traced exec s (⟨o, r⟩ :: done) u

/-- A program alone guarantees what each step of each history of it does. -/
theorem safe_of_traced {p : Prog Op Res ε α} {s : σ}
    (h : ∀ done d q t u, Played p (done ++ [d]) q → Traced exec s done t →
      exec d.op t d.reply u → G t u) : safe exec Eq G p (fun _ _ => True) s := by
  induction p generalizing s with
  | ret a => trivial
  | raise e => trivial
  | call o k ih =>
    intro s' hs' r t he
    subst hs'
    refine ⟨h [] ⟨o, r⟩ _ s t (.cons (.nil _)) (.nil s) he, ih r ?_⟩
    intro done d q t' u hplayed htraced hstep
    exact h (⟨o, r⟩ :: done) d q t' u (.cons hplayed) (.cons he htraced) hstep

/-- In an interleaving each step is one that its part guarantees in the company of the others. -/
theorem Merge.guaranteed {parts : List (List (Done Res ε))} {done : List (Done Res ε)}
    (h : Merge parts done) (refl : ∀ a, R a a) (trans : ∀ a b c, R a b → R b c → R a c)
    (within : ∀ a b, G a b → R a b) {s : σ}
    (hparts : ∀ part ∈ parts, ∃ p q : Prog Op Res ε α, Played p part q ∧
      safe exec R G p (fun _ _ => True) s) :
    ∀ front d rest t u, done = front ++ d :: rest → Traced exec s front t →
      exec d.op t d.reply u → G t u := by
  induction h generalizing s with
  | nil =>
    intro front d rest t u hdone
    simp at hdone
  | cons before d₀ part back done _ ih =>
    obtain ⟨p, q, hplayed, hsafe⟩ := hparts (d₀ :: part) (by simp)
    cases hplayed with
    | @cons o k r _ _ hplayed =>
      intro front d rest t u hdone htraced he
      cases front with
      | nil =>
        obtain ⟨rfl, -⟩ := List.cons.inj hdone
        cases htraced
        exact (hsafe s (refl s) _ _ he).1
      | cons d' front =>
        obtain ⟨rfl, hrest⟩ := List.cons.inj hdone
        cases htraced with
        | @cons _ s' _ _ _ _ hfirst htraced =>
          obtain ⟨hg, hk⟩ := hsafe s (refl s) _ _ hfirst
          refine ih ?_ front d rest t u hrest htraced he
          intro part' hpart'
          simp only [List.mem_append, List.mem_cons] at hpart'
          rcases hpart' with hbefore | rfl | hback
          · obtain ⟨p', q', hplayed', hsafe'⟩ := hparts part' (by simp [hbefore])
            exact ⟨p', q', hplayed', safe_rely trans (fun _ _ _ _ _ => trivial) hsafe'
              (within _ _ hg)⟩
          · exact ⟨_, q, hplayed, hk⟩
          · obtain ⟨p', q', hplayed', hsafe'⟩ := hparts part' (by simp [hback])
            exact ⟨p', q', hplayed', safe_rely trans (fun _ _ _ _ _ => trivial) hsafe'
              (within _ _ hg)⟩

/-- Calls that are each safe in the company of the others are safe woven into one program. -/
theorem safe_weave {gather : List (Prog Op Res ε α) → Prog Op Res ε γ}
    {calls : List (Prog Op Res ε α)} (h : Weaves gather) (refl : ∀ a, R a a)
    (trans : ∀ a b c, R a b → R b c → R a c) (within : ∀ a b, G a b → R a b) {s : σ}
    (hcalls : ∀ call ∈ calls, safe exec R G call (fun _ _ => True) s) :
    safe exec Eq G (gather calls) (fun _ s' => R s s') s := by
  have hsafe : safe exec Eq G (gather calls) (fun _ _ => True) s := by
    apply safe_of_traced
    intro done d q t u hplayed htraced he
    obtain ⟨parts, hmerge, hparts⟩ := h calls (done ++ [d]) q hplayed
    have hfrom : ∀ part ∈ parts, ∃ p q : Prog Op Res ε α, Played p part q ∧
        safe exec R G p (fun _ _ => True) s := by
      intro part hpart
      obtain ⟨call, hcall, q', hplayed'⟩ := hparts part hpart
      exact ⟨call, q', hplayed', hcalls call hcall⟩
    exact hmerge.guaranteed refl trans within hfrom done d [] t u rfl htraced he
  have hcarried := safe_carry (P := R s) hsafe (fun _ _ heq h => heq ▸ h)
    (fun a b hg h => trans _ _ _ h (within a b hg)) (refl s)
  exact safe_post hcarried (fun _ _ h => h.2)

end Semora.Lib.Prog
