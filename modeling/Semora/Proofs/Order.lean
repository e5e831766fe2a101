import Semora.Lib.Compositional
import Semora.Proofs.Own

/-! What comes before what in the history of a thread: a rule that each of its operations keeps to
alone, it keeps to among any others. -/

namespace Semora.Proofs.Order
open Semora.Lib Semora.Store

/-- One operation is done, and it comes after what the rule wants before it. -/
def Follows (rule : List Done → Done → Prop) (s s' : Own) : Prop :=
  ∃ d, s'.done = s.done ++ [d] ∧ rule s.done d

/-- What grows with what is done. -/
def Grows (J : List Done → Prop) : Prop := ∀ done done', done <+: done' → J done → J done'

theorem grows_true : Grows (fun _ => True) := fun _ _ _ _ => trivial

/-- What the events show their thread to have done. -/
def acts (events : List Event) : List Done := events.map (fun e => ⟨e.op, e.reply⟩)

/-- Each operation of the thread came after what the rule wants before it. -/
def Ordered (rule : List Done → Done → Prop) (i : Nat) (s : Scene) : Prop :=
  ∀ before e after, log i s.events = before ++ e :: after → rule (acts before) ⟨e.op, e.reply⟩

section
variable {out : Outside} {self : Nat → Nat} {i : Nat} {rule : List Done → Done → Prop}

theorem follows_exec {o : Op} {s s' : Own} {r : Except Exn o.Res} (h : rule s.done ⟨o, r⟩)
    (he : Own.exec o s r s') : Follows rule s s' := by
  obtain ⟨-, rfl⟩ := he
  exact ⟨_, rfl, h⟩

theorem acts_did (done : List Done) : acts (done.map (eventOf i)) = done := by
  induction done with
  | nil => rfl
  | cons d done ih => exact congrArg (d :: ·) ih

theorem mem_snoc {β : Type} {l : List β} {x y : β} (h : y ∈ l ++ [x]) : y ∈ l ∨ y = x :=
  (List.mem_append.mp h).imp_right List.mem_singleton.mp

theorem mem_acts {s : Scene} {front : List Event} {d : Done} (hfront : front <+: log i s.events)
    (h : d ∈ acts front) : (⟨i, d.op, d.reply⟩ : Event) ∈ s.events := by
  obtain ⟨e, he, rfl⟩ := List.mem_map.mp h
  obtain ⟨hmem, hi⟩ := List.mem_filter.mp (hfront.subset he)
  obtain rfl := of_decide_eq_true hi
  exact hmem

/-- What holds of each entry and those before it, and of a new one, holds once it is in. -/
theorem splits_snoc {β : Type} {P : List β → β → Prop} {l : List β} {x : β}
    (h : ∀ front y rest, l = front ++ y :: rest → P front y) (hx : P l x) :
    ∀ front y rest, l ++ [x] = front ++ y :: rest → P front y := by
  intro front y rest hl
  rcases List.append_eq_append_iff.mp hl with ⟨more, rfl, hmore⟩ | ⟨more, ha, hmore⟩
  · cases more with
    | nil =>
      obtain ⟨rfl, -⟩ := List.cons.inj hmore
      simpa using hx
    | cons z more => simp at hmore
  · cases more with
    | nil =>
      obtain ⟨rfl, -⟩ := List.cons.inj hmore
      rw [List.append_nil] at ha
      exact ha ▸ hx
    | cons z more =>
      obtain ⟨rfl, rfl⟩ := List.cons.inj hmore
      exact h front y more ha

/-- In a history that follows the rule step by step, every operation does. -/
theorem follows_all {a b : Own} (hg : Follows rule a b)
    (h : ∀ front d rest, a.done = front ++ d :: rest → rule front d) :
    ∀ front d rest, b.done = front ++ d :: rest → rule front d := by
  obtain ⟨d, hd, hrule⟩ := hg
  rw [hd]
  exact splits_snoc h hrule

/-- What a thread keeps to alone, it keeps to among any others. -/
theorem ordered_of_safe {α : Type} {pool pool' : Nat → Program α} {s s' : Scene}
    (hsafe : ∀ a, Prog.safe Own.exec Eq (Follows rule) (pool i) (fun _ _ => True) ⟨a, []⟩)
    (apart : ∀ j, j ≠ i → self j ≠ self i) (fresh : log i s.events = [])
    (run : Interleaved (exec out self) (fun _ _ => False) pool s pool' s') :
    Ordered rule i s' := by
  have hothers : Prog.Runs (exec out self i) (Others out self i) (pool i) s (pool' i) s' :=
    run.runs (fun j o s r s' hj he => .step (.refl s) (apart j hj) he) (fun _ _ h => h.elim)
  obtain ⟨done, hviewed, -⟩ := runs_own hothers
  have hall : ∀ front d rest, done = front ++ d :: rest → rule front d := by
    refine (Prog.safe_runs (I := fun s => ∀ front d rest, s.done = front ++ d :: rest →
      rule front d) (fun _ => rfl) (fun _ _ _ h h' => h.trans h') (fun _ _ _ _ _ => trivial)
      (fun _ _ h hI => h ▸ hI) (fun _ _ hg hI => follows_all hg hI) (hsafe _) ?_ hviewed.runs).2
    intro front d rest h
    simp at h
  intro before e after hlog
  rw [hviewed.logged, fresh, List.nil_append] at hlog
  obtain ⟨front, rest, rfl, rfl, hrest⟩ := List.map_eq_append_iff.mp hlog
  obtain ⟨d, rest, rfl, rfl, rfl⟩ := List.map_eq_cons_iff.mp hrest
  rw [acts_did]
  exact hall front d rest rfl

end

end Semora.Proofs.Order
