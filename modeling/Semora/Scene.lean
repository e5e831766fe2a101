import Semora.Graph
import Semora.Lib.Machine

/-! Threads over one world. The threads of one attempt share its objects. -/

namespace Semora
open Semora.Lib Semora.Store

/-- One operation a thread performed, and its reply. -/
structure Event where
  thread : Nat
  op : Op
  reply : Except Exn op.Res

namespace Event

/-- The event put the step's intent into the ledger. -/
def inserted : Event → Bool
  | ⟨_, .ledger (.start ..), .ok true⟩ => true
  | _ => false

/-- The event invoked the tool or called the provider. -/
def invoked : Event → Bool
  | ⟨_, .handle .., _⟩ | ⟨_, .provide _, _⟩ => true
  | _ => false

/-- The event is a `forget` the fence let through. -/
def forgot : Event → Bool
  | ⟨_, .ledger (.forget ..), .ok _⟩ => true
  | _ => false

/-- The invocation reported that nothing came of it: a tool by a signal raised before any side
effect, a provider by any exception but a cancellation. -/
def cleared : Event → Bool
  | ⟨_, .handle .., .error e⟩ => e.nothingHappened
  | ⟨_, .provide _, .error e⟩ => e ≠ .cancelled
  | _ => false

def significant (e : Event) : Bool := e.inserted || e.invoked || e.forgot

end Event

/-- The world, the objects of every attempt, and what the threads did. -/
structure Scene where
  world : World
  attempts : Nat → Attempt
  events : List Event

/-- Thread `i`, which belongs to attempt `self i`, performs one operation. -/
def Scene.perform (out : Outside) (self : Nat → Nat) (i : Nat) (o : Op) (s : Scene) :
    Except Exn o.Res × Scene :=
  let done := step out o s.world (s.attempts (self i))
  (done.1, ⟨done.2.1, Function.update s.attempts (self i) done.2.2, s.events ++ [⟨i, o, done.1⟩]⟩)

def exec (out : Outside) (self : Nat → Nat) (i : Nat) : Prog.Exec Op Op.Res Exn Scene :=
  fun o s r s' => s.perform out self i o = (r, s')

/-- What a thread did. -/
def log (i : Nat) (events : List Event) : List Event := events.filter (fun e => e.thread = i)

section
variable {out : Outside} {self : Nat → Nat} {i : Nat} {s s' : Scene}

theorem log_mine {o : Op} {r : Except Exn o.Res} (h : s'.events = s.events ++ [⟨i, o, r⟩]) :
    log i s'.events = log i s.events ++ [⟨i, o, r⟩] := by
  simp [h, log]

theorem log_other {o : Op} {r : Except Exn o.Res} (h : s'.events = s.events ++ [⟨i, o, r⟩]) :
    ∀ j, j ≠ i → log j s'.events = log j s.events := by
  intro j hj
  simp [h, log, Ne.symm hj]

/-- What one operation of a thread leaves: an event more, and the step it made of the world. -/
theorem exec_events {o : Op} {r : Except Exn o.Res} (h : exec out self i o s r s') :
    s'.events = s.events ++ [⟨i, o, r⟩] ∧ s'.world = (step out o s.world (s.attempts (self i))).2.1 ∧
      r = (step out o s.world (s.attempts (self i))).1 := by
  obtain ⟨h₁, h₂⟩ := Prod.mk.inj h
  subst h₂
  exact ⟨by rw [← h₁], rfl, h₁.symm⟩

theorem exec_attempts {o : Op} {r : Except Exn o.Res} (h : exec out self i o s r s') :
    s'.attempts = Function.update s.attempts (self i)
      (step out o s.world (s.attempts (self i))).2.2 := by
  obtain ⟨-, h₂⟩ := Prod.mk.inj h
  subst h₂
  rfl

end

end Semora
