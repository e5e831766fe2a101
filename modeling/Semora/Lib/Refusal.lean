import Semora.Lib.Prog

/-! Programs that heed a refusal: once an operation has been refused they only wind up, and end in
an exception. -/

namespace Semora.Lib.Prog

variable {Op : Type} {Res : Op → Type} {ε α β : Type}

/-- All that is left is a few operations `P` and an exception `E`. -/
def Stopped (P : Op → Prop) (E : ε → Prop) : Prog Op Res ε α → Prop
  | ret _ => False
  | raise e => E e
  | call o k => P o ∧ ∀ r, Stopped P E (k r)

/-- Wherever an operation of the program is refused, the program stops. -/
def Heeds (refuses : (o : Op) → Except ε (Res o) → Prop) (P : Op → Prop) (E : ε → Prop) :
    Prog Op Res ε α → Prop
  | ret _ | raise _ => True
  | call o k => ∀ r, (refuses o r → Stopped P E (k r)) ∧ Heeds refuses P E (k r)

section
variable {refuses : (o : Op) → Except ε (Res o) → Prop} {P : Op → Prop} {E E' : ε → Prop}

theorem Stopped.allOps {p : Prog Op Res ε α} (h : Stopped P E p) : p.AllOps P := by
  induction p with
  | ret a => trivial
  | raise e => trivial
  | call o k ih => exact ⟨h.1, fun r => ih r (h.2 r)⟩

theorem Stopped.allRets {p : Prog Op Res ε α} (h : Stopped P E p) : p.AllRets (fun _ => False) := by
  induction p with
  | ret a => exact h
  | raise e => trivial
  | call o k ih => exact fun r => ih r (h.2 r)

theorem stopped_bind {p : Prog Op Res ε α} {f : α → Prog Op Res ε β} (h : Stopped P E p) :
    Stopped P E (p.bind f) := by
  induction p with
  | ret a => exact h.elim
  | raise e => exact h
  | call o k ih => exact ⟨h.1, fun r => ih r (h.2 r)⟩

theorem stopped_tryCatch {p : Prog Op Res ε α} {handler : ε → Prog Op Res ε α}
    (h : Stopped P E p) (hhandler : ∀ e, E e → Stopped P E' (handler e)) :
    Stopped P E' (p.tryCatch handler) := by
  induction p with
  | ret a => exact h.elim
  | raise e => exact hhandler e h
  | call o k ih => exact ⟨h.1, fun r => ih r (h.2 r)⟩

/-- One operation raises its refusal. -/
theorem heeds_op {o : Op} (h : ∀ r, refuses o r → ∃ e, r = .error e ∧ E e) :
    Heeds refuses P E (op o : Prog Op Res ε (Res o)) := by
  intro r
  constructor
  · intro hr
    obtain ⟨e, rfl, he⟩ := h r hr
    exact he
  · cases r <;> trivial

/-- A program none of whose operations is ever refused. -/
theorem heeds_unrefused {p : Prog Op Res ε α} (h : p.AllOps (fun o => ∀ r, ¬ refuses o r)) :
    Heeds refuses P E p := by
  induction p with
  | ret a => trivial
  | raise e => trivial
  | call o k ih => exact fun r => ⟨fun hr => absurd hr (h.1 r), ih r (h.2 r)⟩

theorem heeds_bind {p : Prog Op Res ε α} {f : α → Prog Op Res ε β} (hp : Heeds refuses P E p)
    (hf : ∀ a, Heeds refuses P E (f a)) : Heeds refuses P E (p.bind f) := by
  induction p with
  | ret a => exact hf a
  | raise e => trivial
  | call o k ih => exact fun r => ⟨fun hr => stopped_bind ((hp r).1 hr), ih r (hp r).2⟩

/-- A handler that lets the exceptions of a refusal through. -/
theorem heeds_tryCatch {p : Prog Op Res ε α} {handler : ε → Prog Op Res ε α}
    (hp : Heeds refuses P E p) (hhandler : ∀ e, Heeds refuses P E (handler e))
    (hpass : ∀ e, E e → Stopped P E (handler e)) : Heeds refuses P E (p.tryCatch handler) := by
  induction p with
  | ret a => trivial
  | raise e => exact hhandler e
  | call o k ih => exact fun r => ⟨fun hr => stopped_tryCatch ((hp r).1 hr) hpass, ih r (hp r).2⟩

/-- Nothing was refused that a handler could have seen. -/
theorem heeds_guarded {p : Prog Op Res ε α} {handler : ε → Prog Op Res ε α}
    (hp : p.AllOps (fun o => ∀ r, ¬ refuses o r)) (hhandler : ∀ e, Heeds refuses P E (handler e)) :
    Heeds refuses P E (p.tryCatch handler) := by
  induction p with
  | ret a => trivial
  | raise e => exact hhandler e
  | call o k ih => exact fun r => ⟨fun hr => absurd hr (hp.1 r), ih r (hp.2 r)⟩

end

end Semora.Lib.Prog
