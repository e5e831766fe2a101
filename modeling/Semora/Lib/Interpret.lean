import Semora.Lib.Prog

/-! A program over larger operations, each of which is a program over smaller ones. -/

namespace Semora.Lib.Prog

variable {Op Op' : Type} {Res : Op → Type} {Res' : Op' → Type} {ε α β : Type}

/-- Go on with the outcome of a program, whichever it is. -/
def follow (p : Prog Op Res ε α) (f : Except ε α → Prog Op Res ε β) : Prog Op Res ε β :=
  match p with
  | ret a => f (.ok a)
  | raise e => f (.error e)
  | call o k => call o (fun r => (k r).follow f)

/-- The program with each operation carried out as its interpretation says. -/
def interpret (h : (o : Op) → Prog Op' Res' ε (Res o)) : Prog Op Res ε α → Prog Op' Res' ε α
  | ret a => ret a
  | raise e => raise e
  | call o k => (h o).follow (fun r => interpret h (k r))

theorem follow_bind {γ : Type} (p : Prog Op Res ε α) (f : Except ε α → Prog Op Res ε β)
    (g : β → Prog Op Res ε γ) : (p.follow f).bind g = p.follow (fun r => (f r).bind g) := by
  induction p with
  | ret a => rfl
  | raise e => rfl
  | call o k ih => exact congrArg (call o) (funext ih)

theorem follow_tryCatch (p : Prog Op Res ε α) (f : Except ε α → Prog Op Res ε β)
    (g : ε → Prog Op Res ε β) :
    (p.follow f).tryCatch g = p.follow (fun r => (f r).tryCatch g) := by
  induction p with
  | ret a => rfl
  | raise e => rfl
  | call o k ih => exact congrArg (call o) (funext ih)

theorem follow_ofExcept (p : Prog Op Res ε α) : p.follow ofExcept = p := by
  induction p with
  | ret a => rfl
  | raise e => rfl
  | call o k ih => exact congrArg (call o) (funext ih)

section
variable (h : (o : Op) → Prog Op' Res' ε (Res o))

theorem interpret_op (o : Op) : (op o).interpret h = h o := by
  refine Eq.trans (congrArg (h o).follow (funext (fun r => ?_))) (follow_ofExcept (h o))
  cases r <;> rfl

theorem interpret_bind (p : Prog Op Res ε α) (f : α → Prog Op Res ε β) :
    (p.bind f).interpret h = (p.interpret h).bind (fun a => (f a).interpret h) := by
  induction p with
  | ret a => rfl
  | raise e => rfl
  | call o k ih =>
    simp only [Prog.bind, interpret, follow_bind]
    exact congrArg _ (funext ih)

theorem interpret_tryCatch (p : Prog Op Res ε α) (handler : ε → Prog Op Res ε α) :
    (p.tryCatch handler).interpret h =
      (p.interpret h).tryCatch (fun e => (handler e).interpret h) := by
  induction p with
  | ret a => rfl
  | raise e => rfl
  | call o k ih =>
    simp only [Prog.tryCatch, interpret, follow_tryCatch]
    exact congrArg _ (funext ih)

end

end Semora.Lib.Prog
