import Semora.Lib.Machine

/-! Pools of programs one after another over one state. Each pool runs interleaved until it is
abandoned, wherever its programs have got to, and another begins with what it left. -/

namespace Semora.Lib
open Relation

variable {γ ι Op : Type} [DecidableEq ι] {Res : Op → Type} {ε α σ : Type}

/-- The pool at work: the how manieth it is, what it was begun as, and from where. -/
structure Generation (γ ι Op : Type) (Res : Op → Type) (ε α σ : Type) where
  index : Nat
  name : γ
  began : σ
  pool : ι → Prog Op Res ε α
  now : σ

namespace Generation

variable (exec : ι → Prog.Exec Op Res ε σ) (env : σ → σ → Prop)
variable (programs : γ → ι → Prog Op Res ε α) (begins : γ → σ → σ → Prop)

/-- A pool before its first operation. -/
def fresh (index : Nat) (name : γ) (s : σ) : Generation γ ι Op Res ε α σ :=
  ⟨index, name, s, programs name, s⟩

/-- One operation of the pool, a move of the environment, or another pool in its place. -/
inductive Step : Generation γ ι Op Res ε α σ → Generation γ ι Op Res ε α σ → Prop
  | op {g i o k r s} (next : g.pool i = .call o k) (done : exec i o g.now r s) :
      Step g { g with pool := Function.update g.pool i (k r), now := s }
  | env {g s} (move : env g.now s) : Step g { g with now := s }
  | next {g name s} (begun : begins name g.now s) :
      Step g (fresh programs (g.index + 1) name s)

/-- What it takes to reason about each generation alone, and each of its programs alone. -/
structure Sound (I : σ → Prop) (R G : γ → σ → ι → σ → σ → Prop)
    (Q : γ → σ → ι → Except ε α → σ → Prop) : Prop where
  compatible : ∀ name s₀, Compatible env I (R name s₀) (G name s₀) (Q name s₀)
  begins : ∀ name s s₀, I s → begins name s s₀ →
    I s₀ ∧ ∀ i, Prog.safe (exec i) (R name s₀ i) (G name s₀ i) (programs name i) (Q name s₀ i) s₀

variable {exec env programs begins}

/-- What holds of a generation at work. -/
structure Ready (exec : ι → Prog.Exec Op Res ε σ) (I : σ → Prop) (R G : γ → σ → ι → σ → σ → Prop)
    (Q : γ → σ → ι → Except ε α → σ → Prop) (g : Generation γ ι Op Res ε α σ) : Prop where
  inv : I g.now
  safe : ∀ i, Prog.safe (exec i) (R g.name g.began i) (G g.name g.began i) (g.pool i)
    (Q g.name g.began i) g.now

section
variable {I : σ → Prop} {R G : γ → σ → ι → σ → σ → Prop}
variable {Q : γ → σ → ι → Except ε α → σ → Prop} {g g' : Generation γ ι Op Res ε α σ}

/-- How far one step goes: it is within a program's guarantee, or the environment's, or it begins
another generation. -/
inductive Leap (env : σ → σ → Prop) (programs : γ → ι → Prog Op Res ε α) (begins : γ → σ → σ → Prop)
    (G : γ → σ → ι → σ → σ → Prop) (g g' : Generation γ ι Op Res ε α σ) : Prop
  | own (i : ι) (o : Op) (k : Except ε (Res o) → Prog Op Res ε α) (r : Except ε (Res o)) (s : σ)
      (at_ : g.pool i = .call o k)
      (same : g' = { g with pool := Function.update g.pool i (k r), now := s })
      (move : G g.name g.began i g.now s)
  | env (s : σ) (same : g' = { g with now := s }) (move : env g.now s)
  | next (name : γ) (s : σ) (same : g' = fresh programs (g.index + 1) name s)
      (begun : begins name g.now s)

/-- One step of a generation that is ready leaves one that is ready. -/
theorem ready_step (sound : Sound exec env programs begins I R G Q) (hg : Ready exec I R G Q g)
    (step : Step exec env programs begins g g') :
    Ready exec I R G Q g' ∧ Leap env programs begins G g g' := by
  cases step with
  | @op i o k r s next done =>
    have hcompatible := sound.compatible g.name g.began
    have hcall := hg.safe i
    rw [next] at hcall
    obtain ⟨hmove, -⟩ := hcall g.now (hcompatible.refl i g.now hg.inv) r s done
    obtain ⟨hinv, hsafe⟩ := interleaved_safe hcompatible hg.inv hg.safe (.op .start next done)
    exact ⟨⟨hinv, hsafe⟩, .own i o k r s next rfl hmove⟩
  | @env s move =>
    have hrun : Interleaved exec env g.pool g.now g.pool s := .env .start move
    obtain ⟨hinv, hsafe⟩ := interleaved_safe (sound.compatible g.name g.began) hg.inv hg.safe hrun
    exact ⟨⟨hinv, hsafe⟩, .env s rfl move⟩
  | @next name s begun =>
    obtain ⟨hinv, hsafe⟩ := sound.begins name g.now s hg.inv begun
    exact ⟨⟨hinv, hsafe⟩, .next name s rfl begun⟩

/-- What every leap of a ready generation keeps, every run keeps. -/
theorem generations_keep (sound : Sound exec env programs begins I R G Q)
    {P : Generation γ ι Op Res ε α σ → Prop} (hg : Ready exec I R G Q g) (hp : P g)
    (keeps : ∀ a b, I a.now → I b.now → Leap env programs begins G a b → P a → P b)
    (run : ReflTransGen (Step exec env programs begins) g g') : Ready exec I R G Q g' ∧ P g' := by
  induction run with
  | refl => exact ⟨hg, hp⟩
  | tail _ step ih =>
    obtain ⟨ha, hpa⟩ := ih
    obtain ⟨hb, leap⟩ := ready_step sound ha step
    exact ⟨hb, keeps _ _ ha.inv hb.inv leap hpa⟩

end

/-- The generation a schedule of turns leads to, where each operation has one outcome. -/
def after (perform : ι → (o : Op) → σ → Except ε (Res o) × σ) (turns : List ι)
    (g : Generation γ ι Op Res ε α σ) : Generation γ ι Op Res ε α σ :=
  { g with
    pool := (scheduled perform turns g.pool g.now).1
    now := (scheduled perform turns g.pool g.now).2 }

theorem steps_after (perform : ι → (o : Op) → σ → Except ε (Res o) × σ) (env : σ → σ → Prop)
    (programs : γ → ι → Prog Op Res ε α) (begins : γ → σ → σ → Prop) (turns : List ι)
    (g : Generation γ ι Op Res ε α σ) :
    ReflTransGen (Step (fun i o s r s' => perform i o s = (r, s')) env programs begins) g
      (g.after perform turns) := by
  induction turns generalizing g with
  | nil => exact .refl
  | cons i turns ih =>
    unfold after scheduled
    split
    · rename_i o k hnext
      exact .head (.op hnext rfl)
        (ih { g with pool := Function.update g.pool i (k (perform i o g.now).1)
                     now := (perform i o g.now).2 })
    · exact ih g

end Generation

end Semora.Lib
