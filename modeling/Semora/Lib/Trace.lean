import Semora.Lib.Machine

/-! What a program has performed, and what that leaves of it. -/

namespace Semora.Lib.Prog

variable {ι Op : Type} {Res : Op → Type} {ε α σ : Type}

/-- One operation and the reply it got. -/
structure Done (Res : Op → Type) (ε : Type) where
  op : Op
  reply : Except ε (Res op)

/-- After these operations and their replies, this is left of the program. -/
inductive Played : Prog Op Res ε α → List (Done Res ε) → Prog Op Res ε α → Prop
  | nil (p) : Played p [] p
  | cons {o k r done q} (rest : Played (k r) done q) : Played (call o k) (⟨o, r⟩ :: done) q

section
variable {p q : Prog Op Res ε α} {o : Op} {k : Except ε (Res o) → Prog Op Res ε α}
variable {done : List (Done Res ε)}

theorem Played.snoc (h : Played p done (call o k)) (r : Except ε (Res o)) :
    Played p (done ++ [⟨o, r⟩]) (k r) := by
  generalize hq : call o k = q at h
  induction h with
  | nil p =>
    subst hq
    exact .cons (.nil _)
  | cons _ ih => exact .cons (ih hq)

theorem Played.append {r : Prog Op Res ε α} {done' : List (Done Res ε)} (h : Played p done q)
    (h' : Played q done' r) : Played p (done ++ done') r := by
  induction h with
  | nil p => exact h'
  | cons _ ih => exact .cons (ih h')

/-- The way to where a program is leads through every earlier point. -/
theorem Played.split {done' : List (Done Res ε)} (h : Played p (done ++ done') q) :
    ∃ r, Played p done r ∧ Played r done' q := by
  induction done generalizing p with
  | nil => exact ⟨p, .nil p, h⟩
  | cons d done ih =>
    cases h with
    | cons rest =>
      obtain ⟨r, hr, hq⟩ := ih rest
      exact ⟨r, .cons hr, hq⟩

/-- Where a program is about to perform an operation, it is still there, or it has performed it
and gone on with the reply. -/
theorem played_call (h : Played (call o k) done q) :
    (done = [] ∧ q = call o k) ∨ ∃ r rest, done = ⟨o, r⟩ :: rest ∧ Played (k r) rest q := by
  cases h with
  | nil => exact .inl ⟨rfl, rfl⟩
  | cons rest => exact .inr ⟨_, _, rfl, rest⟩

theorem played_nil (h : Played p [] q) : q = p := by
  cases h
  rfl

theorem played_ended {r : Except ε α} (h : Played (ofExcept r) done q) :
    done = [] ∧ q = ofExcept r := by
  cases r <;> cases h <;> exact ⟨rfl, rfl⟩

/-- Part way through an operation and what follows it. -/
theorem played_op {β : Type} {f : Res o → Prog Op Res ε β} {q : Prog Op Res ε β}
    (h : Played ((op o).bind f) done q) : (done = [] ∧ q = (op o).bind f) ∨
      (∃ error, done = [⟨o, .error error⟩] ∧ q = raise error) ∨
      ∃ a rest, done = ⟨o, .ok a⟩ :: rest ∧ Played (f a) rest q := by
  rcases played_call h with ⟨rfl, rfl⟩ | ⟨r, rest, rfl, hrest⟩
  · exact .inl ⟨rfl, rfl⟩
  · cases r with
    | error error =>
      obtain ⟨rfl, rfl⟩ := played_ended (r := (.error error : Except ε β)) hrest
      exact .inr (.inl ⟨error, rfl, rfl⟩)
    | ok a => exact .inr (.inr ⟨a, rest, rfl, hrest⟩)

/-- The `finally` of a program waits until it has ended. -/
theorem Played.finally_ (h : Played p done q) (c : Prog Op Res ε Unit) :
    Played (p.finally_ c) done (q.finally_ c) := by
  induction h with
  | nil p => exact .nil _
  | cons _ ih => exact .cons ih

/-- Part way through a program and its `finally`: the first is at work, or it has ended. -/
theorem played_finally {c : Prog Op Res ε Unit} (h : Played (p.finally_ c) done q) :
    ∃ front rest p', done = front ++ rest ∧ Played p front p' ∧ Played (p'.finally_ c) rest q ∧
      (rest = [] ∨ ∃ r, p' = ofExcept r) := by
  induction p generalizing done with
  | ret a => exact ⟨[], done, _, rfl, .nil _, h, .inr ⟨.ok a, rfl⟩⟩
  | raise e => exact ⟨[], done, _, rfl, .nil _, h, .inr ⟨.error e, rfl⟩⟩
  | call o k ih =>
    rcases played_call h with ⟨rfl, rfl⟩ | ⟨r, rest, rfl, hrest⟩
    · exact ⟨[], [], _, rfl, .nil _, .nil _, .inl rfl⟩
    · obtain ⟨front, rest, p', rfl, hp, hq, hend⟩ := ih r hrest
      exact ⟨_ :: front, rest, p', rfl, .cons hp, hq, hend⟩

theorem Played.allOps {P : Op → Prop} (h : Played p done q) (hp : p.AllOps P) :
    (∀ d ∈ done, P d.op) ∧ q.AllOps P := by
  induction h with
  | nil => exact ⟨(fun _ hd => nomatch hd), hp⟩
  | cons _ ih =>
    obtain ⟨hdone, hq⟩ := ih (hp.2 _)
    refine ⟨?_, hq⟩
    rintro d (_ | ⟨_, hd⟩)
    · exact hp.1
    · exact hdone d hd

end

/-- Whether the operation raised this. -/
def Done.Raised (d : Done Res ε) (e : ε) : Prop := d.reply = .error e

/-- Whatever the program raises, `P` says so or an operation has raised it. -/
def Raises : Prog Op Res ε α → (ε → Prop) → Prop
  | ret _, _ => True
  | raise e, P => P e
  | call _ k, P => (∀ a, Raises (k (.ok a)) P) ∧
      ∀ x, Raises (k (.error x)) (fun e => P e ∨ e = x)

section
variable {p q : Prog Op Res ε α} {P P' : ε → Prop}

theorem Raises.mono (h : Raises p P) (hP : ∀ e, P e → P' e) : Raises p P' := by
  induction p generalizing P P' with
  | ret a => trivial
  | raise e => exact hP e h
  | call o k ih =>
    exact ⟨fun a => ih _ (h.1 a) hP, fun x => ih _ (h.2 x) (fun e he => he.imp_left (hP e))⟩

theorem raises_op (o : Op) (P : ε → Prop) : Raises (op o : Prog Op Res ε (Res o)) P :=
  ⟨fun _ => trivial, fun _ => .inr rfl⟩

theorem raises_bind {β : Type} {f : α → Prog Op Res ε β} (hp : Raises p P)
    (hf : ∀ a, Raises (f a) P) : Raises (p.bind f) P := by
  induction p generalizing P with
  | ret a => exact hf a
  | raise e => exact hp
  | call o k ih =>
    exact ⟨fun a => ih _ (hp.1 a) hf,
      fun x => ih _ (hp.2 x) (fun a => (hf a).mono (fun _ => .inl))⟩

/-- A handler may raise what it is given again. -/
theorem raises_tryCatch {handler : ε → Prog Op Res ε α} (hp : Raises p P)
    (hP : ∀ e, P e → Raises (handler e) P')
    (hagain : ∀ e, Raises (handler e) (fun x => P' x ∨ x = e)) :
    Raises (p.tryCatch handler) P' := by
  induction p generalizing P P' with
  | ret a => trivial
  | raise e => exact hP e hp
  | call o k ih =>
    refine ⟨fun a => ih _ (hp.1 a) hP hagain, fun x => ih _ (hp.2 x) ?_ ?_⟩
    · intro e he
      rcases he with he | rfl
      · exact (hP e he).mono (fun _ => .inl)
      · exact hagain e
    · intro e
      refine (hagain e).mono (fun y hy => ?_)
      rcases hy with hy | rfl
      · exact .inl (.inl hy)
      · exact .inr rfl

end

/-- Where each step of an interleaving is recorded under its thread, the record of a thread says
what is left of its program. -/
theorem interleaved_played [DecidableEq ι] {exec : ι → Exec Op Res ε σ} {env : σ → σ → Prop}
    {pool pool' : ι → Prog Op Res ε α} {s s' : σ} (record : ι → σ → List (Done Res ε))
    (hop : ∀ i o s r s', exec i o s r s' → record i s' = record i s ++ [⟨o, r⟩] ∧
      ∀ j, j ≠ i → record j s' = record j s)
    (henv : ∀ s s', env s s' → ∀ i, record i s' = record i s)
    (run : Interleaved exec env pool s pool' s') (i : ι) :
    ∃ done, record i s' = record i s ++ done ∧ Played (pool i) done (pool' i) := by
  induction run with
  | start => exact ⟨[], (List.append_nil _).symm, .nil _⟩
  | @op pool' s' j o k r s'' _ next done ih =>
    obtain ⟨earlier, hrecord, hplayed⟩ := ih
    obtain ⟨hmine, hothers⟩ := hop j o s' r s'' done
    by_cases hj : i = j
    · subst hj
      rw [next] at hplayed
      refine ⟨earlier ++ [⟨o, r⟩], ?_, ?_⟩
      · rw [hmine, hrecord, List.append_assoc]
      · rw [Function.update_self]
        exact hplayed.snoc r
    · rw [Function.update_of_ne hj]
      exact ⟨earlier, (hothers i hj).trans hrecord, hplayed⟩
  | env _ move ih =>
    obtain ⟨earlier, hrecord, hplayed⟩ := ih
    exact ⟨earlier, (henv _ _ move i).trans hrecord, hplayed⟩

end Semora.Lib.Prog
