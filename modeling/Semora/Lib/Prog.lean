import Mathlib.Logic.Function.Basic

/-! Programs as trees of operations. A program asks for one operation at a time and goes on with
its reply, a result or an exception; what an operation does to the state is given elsewhere, so
one program can be run alone, crashed at any operation, or interleaved with others. -/

namespace Semora.Lib

/-- A program over operations `Op` with results `Res` and exceptions `ε`. -/
inductive Prog (Op : Type) (Res : Op → Type) (ε α : Type) : Type
  | ret (a : α)
  | raise (e : ε)
  | call (op : Op) (next : Except ε (Res op) → Prog Op Res ε α)

namespace Prog

variable {Op : Type} {Res : Op → Type} {ε α β : Type}

protected def bind (p : Prog Op Res ε α) (f : α → Prog Op Res ε β) : Prog Op Res ε β :=
  match p with
  | ret a => f a
  | raise e => raise e
  | call op next => call op (fun r => (next r).bind f)

instance : Monad (Prog Op Res ε) where
  pure := ret
  bind := Prog.bind

/-- One operation as a program: its result is returned, its exception raised. -/
def op (o : Op) : Prog Op Res ε (Res o) :=
  call o (fun
    | .ok a => ret a
    | .error e => raise e)

/-- `try p except: h`. The handler sees every exception and re-raises what is not its own. -/
def tryCatch (p : Prog Op Res ε α) (h : ε → Prog Op Res ε α) : Prog Op Res ε α :=
  match p with
  | ret a => ret a
  | raise e => h e
  | call op next => call op (fun r => (next r).tryCatch h)

/-- `try: p finally: q`. An exception of `q` replaces the outcome of `p`. -/
def finally_ (p : Prog Op Res ε α) (q : Prog Op Res ε Unit) : Prog Op Res ε α :=
  match p with
  | ret a => q.bind (fun _ => ret a)
  | raise e => q.bind (fun _ => raise e)
  | call op next => call op (fun r => (next r).finally_ q)

/-- An outcome as the program that has it at once. -/
def ofExcept : Except ε α → Prog Op Res ε α
  | .ok a => ret a
  | .error e => raise e

@[simp] theorem pure_eq (a : α) : (pure a : Prog Op Res ε α) = ret a := rfl
@[simp] theorem bind_eq (p : Prog Op Res ε α) (f : α → Prog Op Res ε β) : p >>= f = p.bind f := rfl
@[simp] theorem ret_bind (a : α) (f : α → Prog Op Res ε β) : (ret a).bind f = f a := rfl
@[simp] theorem raise_bind (e : ε) (f : α → Prog Op Res ε β) : (raise e).bind f = raise e := rfl
@[simp] theorem call_bind (o : Op) (k : Except ε (Res o) → Prog Op Res ε α)
    (f : α → Prog Op Res ε β) : (call o k).bind f = call o (fun r => (k r).bind f) := rfl

theorem bind_assoc {γ : Type} (p : Prog Op Res ε α) (f : α → Prog Op Res ε β)
    (g : β → Prog Op Res ε γ) : (p.bind f).bind g = p.bind (fun a => (f a).bind g) := by
  induction p with
  | ret a => rfl
  | raise e => rfl
  | call o k ih => exact congrArg (call o) (funext ih)

/-- Every operation the program can come to satisfies `P`. -/
def AllOps (P : Op → Prop) : Prog Op Res ε α → Prop
  | ret _ => True
  | raise _ => True
  | call op next => P op ∧ ∀ r, (next r).AllOps P

section AllOps
variable {P : Op → Prop}

@[simp] theorem allOps_ret (a : α) : (ret a : Prog Op Res ε α).AllOps P := trivial

@[simp] theorem allOps_raise (e : ε) : (raise e : Prog Op Res ε α).AllOps P := trivial

@[simp] theorem allOps_op (o : Op) : (op o : Prog Op Res ε (Res o)).AllOps P ↔ P o := by
  constructor
  · intro h
    exact h.1
  · intro h
    refine ⟨h, ?_⟩
    intro r
    cases r <;> trivial

theorem allOps_bind {p : Prog Op Res ε α} {f : α → Prog Op Res ε β} (hp : p.AllOps P)
    (hf : ∀ a, (f a).AllOps P) : (p.bind f).AllOps P := by
  induction p with
  | ret a => exact hf a
  | raise e => trivial
  | call o k ih => exact ⟨hp.1, fun r => ih r (hp.2 r)⟩

theorem allOps_tryCatch {p : Prog Op Res ε α} {h : ε → Prog Op Res ε α} (hp : p.AllOps P)
    (hh : ∀ e, (h e).AllOps P) : (p.tryCatch h).AllOps P := by
  induction p with
  | ret a => trivial
  | raise e => exact hh e
  | call o k ih => exact ⟨hp.1, fun r => ih r (hp.2 r)⟩

theorem allOps_finally {p : Prog Op Res ε α} {q : Prog Op Res ε Unit} (hp : p.AllOps P)
    (hq : q.AllOps P) : (p.finally_ q).AllOps P := by
  induction p with
  | ret a => exact allOps_bind hq (fun _ => trivial)
  | raise e => exact allOps_bind hq (fun _ => trivial)
  | call o k ih => exact ⟨hp.1, fun r => ih r (hp.2 r)⟩

theorem AllOps.mono {P' : Op → Prop} {p : Prog Op Res ε α} (hp : p.AllOps P)
    (h : ∀ o, P o → P' o) : p.AllOps P' := by
  induction p with
  | ret a => trivial
  | raise e => trivial
  | call o k ih => exact ⟨h o hp.1, fun r => ih r (hp.2 r)⟩

theorem AllOps.and {P' : Op → Prop} {p : Prog Op Res ε α} (hp : p.AllOps P) (hp' : p.AllOps P') :
    p.AllOps (fun o => P o ∧ P' o) := by
  induction p with
  | ret a => trivial
  | raise e => trivial
  | call o k ih => exact ⟨⟨hp.1, hp'.1⟩, fun r => ih r (hp.2 r) (hp'.2 r)⟩

theorem allOps_any (p : Prog Op Res ε α) : p.AllOps (fun _ => True) := by
  induction p with
  | ret a => trivial
  | raise e => trivial
  | call o k ih => exact ⟨trivial, ih⟩

/-- Every result the program may return satisfies `P`, whatever the replies. -/
def AllRets (P : α → Prop) : Prog Op Res ε α → Prop
  | ret a => P a
  | raise _ => True
  | call _ k => ∀ r, AllRets P (k r)

theorem allRets_bind {P : β → Prop} {P' : α → Prop} {p : Prog Op Res ε α} {f : α → Prog Op Res ε β}
    (hp : p.AllRets P') (hf : ∀ a, P' a → (f a).AllRets P) : (p.bind f).AllRets P := by
  induction p with
  | ret a => exact hf a hp
  | raise e => trivial
  | call o k ih => exact fun r => ih r (hp r)

theorem allRets_any (p : Prog Op Res ε α) : p.AllRets (fun _ => True) := by
  induction p with
  | ret a => trivial
  | raise e => trivial
  | call o k ih => exact ih

/-- Whatever a program returns, what is done with it satisfies `P`. -/
theorem allRets_then {P : β → Prop} (p : Prog Op Res ε α) {f : α → Prog Op Res ε β}
    (hf : ∀ a, (f a).AllRets P) : (p.bind f).AllRets P :=
  allRets_bind (allRets_any p) (fun a _ => hf a)

end AllOps

section Runs
variable {σ : Type}

/-- What one operation may do: from a state, to a reply and a state. -/
abbrev Exec (Op : Type) (Res : Op → Type) (ε σ : Type) : Type :=
  (o : Op) → σ → Except ε (Res o) → σ → Prop

/-- The program alone, with every reply computed: its outcome and the state it leaves. -/
def eval (step : (o : Op) → σ → Except ε (Res o) × σ) : Prog Op Res ε α → σ → Except ε α × σ
  | ret a, s => (.ok a, s)
  | raise e, s => (.error e, s)
  | call o k, s => eval step (k (step o s).1) (step o s).2

/-- The program stopped dead after at most `n` operations: what is left of it, and the state. -/
def crash (step : (o : Op) → σ → Except ε (Res o) × σ) :
    Nat → Prog Op Res ε α → σ → Prog Op Res ε α × σ
  | n + 1, call o k, s => crash step n (k (step o s).1) (step o s).2
  | _, p, s => (p, s)

theorem eval_op (step : (o : Op) → σ → Except ε (Res o) × σ) (o : Op) (s : σ) :
    (op o).eval step s = step o s := by
  unfold op
  simp only [eval]
  obtain ⟨r, s'⟩ := step o s
  cases r <;> rfl

theorem eval_bind (step : (o : Op) → σ → Except ε (Res o) × σ) (p : Prog Op Res ε α)
    (f : α → Prog Op Res ε β) (s : σ) :
    (p.bind f).eval step s =
      match p.eval step s with
      | (.ok a, s') => (f a).eval step s'
      | (.error e, s') => (.error e, s') := by
  induction p generalizing s with
  | ret a => rfl
  | raise e => rfl
  | call o k ih => exact ih _ _

theorem eval_tryCatch (step : (o : Op) → σ → Except ε (Res o) × σ) (p : Prog Op Res ε α)
    (h : ε → Prog Op Res ε α) (s : σ) :
    (p.tryCatch h).eval step s =
      match p.eval step s with
      | (.ok a, s') => (.ok a, s')
      | (.error e, s') => (h e).eval step s' := by
  induction p generalizing s with
  | ret a => rfl
  | raise e => rfl
  | call o k ih => exact ih _ _

end Runs

section Shows
variable {β : Type} {reply : (o : Op) → Except ε (Res o)} {f : Op → Option β} {x x' : β}

/-- Given these replies, `x` is the first thing that `f` tells of an operation the program
performs. -/
inductive Shows (reply : (o : Op) → Except ε (Res o)) (f : Op → Option β) (x : β) :
    Prog Op Res ε α → Prop
  | here {o : Op} {next : Except ε (Res o) → Prog Op Res ε α} (told : f o = some x) :
      Shows reply f x (call o next)
  | later {o : Op} {next : Except ε (Res o) → Prog Op Res ε α} (silent : f o = none)
      (rest : Shows reply f x (next (reply o))) : Shows reply f x (call o next)

theorem Shows.unique {p : Prog Op Res ε α} (h : p.Shows reply f x) (h' : p.Shows reply f x') :
    x = x' := by
  induction h with
  | here told =>
    cases h' with
    | here told' => exact Option.some.inj (told.symm.trans told')
    | later silent => rw [told] at silent; cases silent
  | later silent _ ih =>
    cases h' with
    | here told' => rw [silent] at told'; cases told'
    | later _ rest => exact ih rest

theorem Shows.bind {γ : Type} {p : Prog Op Res ε α} (h : p.Shows reply f x)
    (g : α → Prog Op Res ε γ) : (p.bind g).Shows reply f x := by
  induction h with
  | here told => exact .here told
  | later silent _ ih => exact .later silent ih

theorem Shows.tryCatch {p : Prog Op Res ε α} (h : p.Shows reply f x) (g : ε → Prog Op Res ε α) :
    (p.tryCatch g).Shows reply f x := by
  induction h with
  | here told => exact .here told
  | later silent _ ih => exact .later silent ih

theorem Shows.finally_ {p : Prog Op Res ε α} (h : p.Shows reply f x) (q : Prog Op Res ε Unit) :
    (p.finally_ q).Shows reply f x := by
  induction h with
  | here told => exact .here told
  | later silent _ ih => exact .later silent ih

end Shows

end Prog

end Semora.Lib
