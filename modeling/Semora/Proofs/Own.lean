import Semora.Lib.Trace
import Semora.Proofs.Permanence
import Semora.Scene

/-! A thread that is alone in its attempt: what it has done is all that can tell it anything of the
attempt's objects, and a step that it has read as finished is finished for good. -/

namespace Semora
open Semora.Lib Semora.Store
open Semora.Proofs.Permanence (step_of_done)

abbrev Done := Prog.Done Op.Res Exn

/-- The attempt's objects and what the thread has done. -/
structure Own where
  attempt : Attempt
  done : List Done := []

namespace Own

/-- The thread has read the step as finished. -/
def Finished (b k : String) (done : List Done) : Prop :=
  ∃ v, ⟨.ledger (.read b k), .ok (.done v)⟩ ∈ done

/-- What an operation may reply. -/
def Replies (s : Own) : (o : Op) → Except Exn o.Res → Prop
  | .get => fun r => r = .ok s.attempt
  | .ledger (.read b k) => fun r => Finished b k s.done → ∃ v, r = .ok (.done v)
  | _ => fun _ => True

def after (a : Attempt) : Op → Attempt
  | .modify f => f a
  | _ => a

def exec : Prog.Exec Op Op.Res Exn Own :=
  fun o s r s' => Replies s o r ∧ s' = ⟨after s.attempt o, s.done ++ [⟨o, r⟩]⟩

section
variable {s s' : Own} {o : Op} {r : Except Exn o.Res}

theorem exec_grows (h : exec o s r s') : s.done <+: s'.done := by
  obtain ⟨-, rfl⟩ := h
  exact List.prefix_append _ _

theorem Finished.mono {b k : String} {done done' : List Done} (h : Finished b k done)
    (hgrows : done <+: done') : Finished b k done' := by
  obtain ⟨v, hv⟩ := h
  exact ⟨v, hgrows.subset hv⟩

/-- What has been done stays done. -/
theorem safe_grown {α : Type} {p : Program α} {G : Own → Own → Prop} {Q : Except Exn α → Own → Prop}
    (h : Prog.safe exec Eq G p Q s) :
    Prog.safe exec Eq G p (fun r s' => Q r s' ∧ s.done <+: s'.done) s := by
  induction p generalizing s with
  | ret a => exact ⟨h, List.prefix_rfl⟩
  | raise e => exact ⟨h, List.prefix_rfl⟩
  | call o k ih =>
    rintro _ rfl r t he
    obtain ⟨hg, hk⟩ := h _ rfl r t he
    refine ⟨hg, Prog.safe_post (ih r hk) (fun _ _ ⟨hq, hgrown⟩ => ?_)⟩
    exact ⟨hq, (exec_grows he).trans hgrown⟩

/-- What a program raises is its own, or an operation has raised it. -/
theorem safe_raises {α : Type} {p : Program α} {P : Exn → Prop} (h : Prog.Raises p P) (s : Own) :
    Prog.safe exec Eq (fun _ _ => True) p
      (fun r s' => ∀ e, r = .error e → P e ∨ ∃ d ∈ s'.done, d.Raised e) s := by
  induction p generalizing P s with
  | ret a => nofun
  | raise e =>
    rintro _ ⟨⟩
    exact .inl h
  | call o k ih =>
    rintro _ rfl r s' he
    refine ⟨trivial, ?_⟩
    cases r with
    | ok a => exact ih _ (h.1 a) s'
    | error x =>
      have hraised : ⟨o, .error x⟩ ∈ s'.done := by
        obtain ⟨-, rfl⟩ := he
        exact List.mem_append_right _ List.mem_cons_self
      have hrest := safe_grown (ih _ (h.2 x) s')
      refine Prog.safe_post hrest (fun r a ⟨hr, hgrown⟩ e he => ?_)
      rcases hr e he with (hP | rfl) | hd
      · exact .inl hP
      · exact .inr ⟨_, hgrown.subset hraised, rfl⟩
      · exact .inr hd

end

end Own

/-- Whatever threads of other attempts do meanwhile. -/
inductive Others (out : Outside) (self : Nat → Nat) (i : Nat) : Scene → Scene → Prop
  | refl (s) : Others out self i s s
  | step {s t u j o r} (before : Others out self i s t) (other : self j ≠ self i)
      (done : Semora.exec out self j o t r u) : Others out self i s u

/-- An operation of this thread, as it stands in the log. -/
def eventOf (i : Nat) (d : Done) : Event := ⟨i, d.op, d.reply⟩

section
variable {out : Outside} {self : Nat → Nat} {i : Nat} {s t u : Scene}

theorem done_step {b k : String} {v : Value} (o : Op) (w : World) (a : Attempt)
    (h : w.store.step b k = .done v) : ∃ v', (step out o w a).2.1.store.step b k = .done v' := by
  cases o with
  | ledger c =>
    have htouch := exec_touch c (out.clock w.instant) (out.clock (w.instant + 1)) w.store b k
    rw [step_of_done h] at htouch
    simp only [step]
    unfold MemorySteps.step
    generalize (c.exec (out.clock w.instant) (out.clock (w.instant + 1)) w.store).2.entries.get?
      (b, k) = st at htouch
    cases htouch with
    | same => exact ⟨v, rfl⟩
    | control _ v' => exact ⟨v', rfl⟩
    | forget _ _ _ undone => exact absurd rfl (undone v)
    | transition _ _ v' => exact ⟨v', rfl⟩
  | _ => exact ⟨v, h⟩

theorem done_exec {b k : String} {v : Value} {j : Nat} {o : Op} {r : Except Exn o.Res}
    (h : Semora.exec out self j o s r t) (hdone : s.world.store.step b k = .done v) :
    ∃ v', t.world.store.step b k = .done v' := by
  rw [(exec_events h).2.1]
  exact done_step o _ _ hdone

theorem Others.same (h : Others out self i s t) :
    t.attempts (self i) = s.attempts (self i) ∧ log i t.events = log i s.events ∧
      ∀ b k v, s.world.store.step b k = .done v → ∃ v', t.world.store.step b k = .done v' := by
  induction h with
  | refl => exact ⟨rfl, rfl, fun _ _ v h => ⟨v, h⟩⟩
  | @step t u j o r _ other done ih =>
    obtain ⟨hattempt, hlog, hsteps⟩ := ih
    refine ⟨?_, ?_, ?_⟩
    · rw [exec_attempts done, Function.update_of_ne (Ne.symm other), hattempt]
    · have hij : i ≠ j := fun he => other (he ▸ rfl)
      rw [log_other (exec_events done).1 i hij, hlog]
    · intro b k v h
      obtain ⟨v', h'⟩ := hsteps b k v h
      exact done_exec done h'

theorem Others.trans (h : Others out self i s t) (h' : Others out self i t u) :
    Others out self i s u := by
  induction h' with
  | refl => exact h
  | step _ other done ih => exact .step ih other done

theorem eventOf_injective : Function.Injective (eventOf i) := by
  rintro ⟨o, r⟩ ⟨o', r'⟩ h
  cases h
  rfl

/-- What the thread's own view of its run is. -/
structure Viewed {α : Type} (i : Nat) (a : Attempt) (p : Program α) (s : Scene) (q : Program α)
    (t : Scene) (a' : Attempt) (done : List Done) : Prop where
  played : Prog.Played p done q
  runs : Prog.Runs Own.exec Eq p ⟨a, []⟩ q ⟨a', done⟩
  logged : log i t.events = log i s.events ++ done.map (eventOf i)

/-- A run among others is a run on what the thread sees of it. -/
theorem runs_own {α : Type} {p q : Program α}
    (run : Prog.Runs (Semora.exec out self i) (Others out self i) p s q t) :
    ∃ done, Viewed i (s.attempts (self i)) p s q t (t.attempts (self i)) done ∧
      ∀ b k, Own.Finished b k done → ∃ v, t.world.store.step b k = .done v := by
  induction run with
  | refl =>
    exact ⟨[], ⟨.nil p, .refl _ _, (List.append_nil _).symm⟩, fun b k ⟨v, hv⟩ => nomatch hv⟩
  | env _ move ih =>
    obtain ⟨done, ⟨hplayed, hruns, hlogged⟩, hsteps⟩ := ih
    obtain ⟨hattempt, hlog, hkept⟩ := move.same
    refine ⟨done, ⟨hplayed, hattempt ▸ hruns, hlog.trans hlogged⟩, ?_⟩
    intro b k hfinished
    obtain ⟨v, hv⟩ := hsteps b k hfinished
    exact hkept b k v hv
  | @op o next t r u _ he ih =>
    obtain ⟨done, ⟨hplayed, hruns, hlogged⟩, hsteps⟩ := ih
    have hattempt : u.attempts (self i) = Own.after (t.attempts (self i)) o := by
      rw [exec_attempts he, Function.update_self]
      cases o <;> rfl
    have hreplies : Own.Replies ⟨t.attempts (self i), done⟩ o r := by
      cases o with
      | get => exact (congrArg Prod.fst he).symm
      | ledger c =>
        cases c with
        | read b k =>
          intro hfinished
          obtain ⟨v, hv⟩ := hsteps b k hfinished
          refine ⟨v, ?_⟩
          rw [(exec_events he).2.2]
          exact congrArg (fun st => (.ok st : Except Exn (Step Value))) hv
        | _ => trivial
      | _ => trivial
    refine ⟨done ++ [⟨o, r⟩], ⟨hplayed.snoc r, ?_, ?_⟩, ?_⟩
    · rw [hattempt]
      exact .op hruns ⟨hreplies, rfl⟩
    · rw [log_mine (exec_events he).1, hlogged, List.append_assoc, List.map_append]
      rfl
    · intro b key ⟨v, hv⟩
      rcases List.mem_append.mp hv with hold | hnew
      · obtain ⟨v', hv'⟩ := hsteps b key ⟨v, hold⟩
        exact done_exec he hv'
      · obtain ⟨rfl, hr⟩ := Prog.Done.mk.inj (List.mem_singleton.mp hnew)
        cases hr
        obtain ⟨v', hv'⟩ : ∃ v', t.world.store.step b key = .done v' := by
          refine ⟨v, ?_⟩
          have hreply := (exec_events he).2.2
          exact (Except.ok.inj hreply).symm
        exact done_exec he hv'

/-- What the log shows of a run is what the thread sees of it. -/
theorem runs_did {α : Type} {p q : Program α} {did : List Done}
    (run : Prog.Runs (Semora.exec out self i) (Others out self i) p s q t)
    (hlogged : log i t.events = log i s.events ++ did.map (eventOf i)) :
    Viewed i (s.attempts (self i)) p s q t (t.attempts (self i)) did := by
  obtain ⟨done, hviewed, -⟩ := runs_own run
  have hsame := hlogged.symm.trans hviewed.logged
  obtain rfl : did = done :=
    List.map_injective_iff.mpr eventOf_injective (List.append_cancel_left hsame)
  exact hviewed

end

end Semora
