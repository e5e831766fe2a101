import Semora.Lib.Weave

/-! Stages asked one after the other, each of what those before it have left, until the answer of
one is the last word. -/

namespace Semora.Lib

variable {Op : Type} {Res : Op → Type} {ε A D S : Type}

/-- What is made of the answers of stages. -/
structure Taking (A D : Type) where
  /-- Whether an answer is the last word. -/
  stops : D → Bool
  /-- What an answer adds. -/
  add : A → D → A
  /-- The answer of all where none was the last word. -/
  close : A → D
  /-- What stages begin with that are asked as one. -/
  start : A → A

namespace Taking

section
variable (T : Taking A D)

def next (rest : A → Prog Op Res ε D) (a : A) (d : D) : Prog Op Res ε D :=
  if T.stops d then .ret d else rest (T.add a d)

/-- Ask the stages in order. -/
def chain : List (A → Prog Op Res ε D) → A → Prog Op Res ε D
  | [], a => .ret (T.close a)
  | stage :: stages, a => (stage a).bind (T.next (chain stages) a)

/-- Stages asked as one stage. -/
def composed (stages : List (A → Prog Op Res ε D)) (a : A) : Prog Op Res ε D :=
  T.chain stages (T.start a)

/-- What stages add that begin on their own, `join` gives to what was there. -/
structure Joins (join : A → A → A) : Prop where
  start : ∀ a, join a (T.start a) = a
  goes : ∀ b, T.stops (T.close b) = false
  close : ∀ a b, T.add a (T.close b) = join a b
  add : ∀ a b d, T.stops d = false → T.add (join a b) d = join a (T.add b d)

end

section
variable {T : Taking A D} {join : A → A → A}

/-- A chain that goes on where another has come to its answer. -/
theorem chain_next (h : T.Joins join) {stages : List (A → Prog Op Res ε D)}
    (blind : ∀ stage ∈ stages, ∀ a b, stage (join a b) = stage b)
    (rest : List (A → Prog Op Res ε D)) (a b : A) :
    (T.chain stages b).bind (T.next (T.chain rest) a) = T.chain (stages ++ rest) (join a b) := by
  induction stages generalizing b with
  | nil =>
    have hclose : T.next (T.chain rest) a (T.close b) = T.chain rest (join a b) := by
      unfold next
      rw [h.goes, if_neg Bool.false_ne_true, h.close]
    exact hclose
  | cons stage stages ih =>
    have hstage := blind stage List.mem_cons_self a b
    have hrest := ih (fun stage hmem => blind stage (List.mem_cons_of_mem _ hmem))
    simp only [chain, List.cons_append, Prog.bind_assoc, hstage]
    congr 1
    funext d
    unfold next
    cases hstops : T.stops d with
    | true => simp [hstops]
    | false =>
      rw [if_neg Bool.false_ne_true, if_neg Bool.false_ne_true, h.add a b d hstops]
      exact hrest (T.add b d)

/-- Stages asked as one among others are asked each in its place. -/
theorem chain_composed (h : T.Joins join) {ys : List (A → Prog Op Res ε D)}
    (blind : ∀ stage ∈ ys, ∀ a b, stage (join a b) = stage b)
    (xs zs : List (A → Prog Op Res ε D)) (a : A) :
    T.chain (xs ++ T.composed ys :: zs) a = T.chain (xs ++ ys ++ zs) a := by
  induction xs generalizing a with
  | nil =>
    have hjoined := chain_next h blind zs a (T.start a)
    rw [h.start] at hjoined
    exact hjoined
  | cons stage xs ih =>
    have hrest : T.chain (xs ++ T.composed ys :: zs) = T.chain (xs ++ ys ++ zs) := funext ih
    simp only [List.cons_append, chain, hrest]

end

end Taking

/-! Stages in any nesting. -/

inductive Nested (S : Type)
  | stage (s : S)
  | group (members : List (Nested S))

namespace Nested

mutual

def leaves : Nested S → List S
  | stage s => [s]
  | group members => allLeaves members

def allLeaves : List (Nested S) → List S
  | [] => []
  | member :: members => leaves member ++ allLeaves members

end

mutual

/-- Each group made one stage by `f`. -/
def folded (f : List S → S) : Nested S → S
  | stage s => s
  | group members => f (allFolded f members)

def allFolded (f : List S → S) : List (Nested S) → List S
  | [] => []
  | member :: members => folded f member :: allFolded f members

end

/-- A group of stages among others is no more than its members. -/
def Flat (f : List S → S) : Prop := ∀ xs ys zs, f (xs ++ f ys :: zs) = f (xs ++ ys ++ zs)

mutual

theorem folded_among {f : List S → S} (flat : Flat f) :
    ∀ (t : Nested S) (xs zs : List S), f (xs ++ folded f t :: zs) = f (xs ++ leaves t ++ zs)
  | stage s, xs, zs => by simp [folded, leaves]
  | group members, xs, zs => by
    have hmembers := allFolded_among flat members xs zs
    rw [folded, leaves, flat, hmembers]

theorem allFolded_among {f : List S → S} (flat : Flat f) :
    ∀ (ts : List (Nested S)) (xs zs : List S),
      f (xs ++ allFolded f ts ++ zs) = f (xs ++ allLeaves ts ++ zs)
  | [], xs, zs => rfl
  | t :: ts, xs, zs => by
    have hfirst := folded_among flat t xs (allFolded f ts ++ zs)
    have hrest := allFolded_among flat ts (xs ++ leaves t) zs
    simp only [allFolded, allLeaves, List.append_assoc, List.cons_append] at hfirst hrest ⊢
    rw [hfirst, hrest]

end

/-- However stages are nested, they are asked as the list of them would be. -/
theorem folded_leaves {f : List S → S} (flat : Flat f) (ts : List (Nested S)) :
    f (allFolded f ts) = f (allLeaves ts) := by
  simpa using allFolded_among flat ts [] []

end Nested

namespace Taking

open Prog (Played Done)

/-- A composition that asks its stages in a chain is flat. -/
theorem flat_chain {T : Taking A D} {join : A → A → A} (h : T.Joins join) {X : Type}
    {g : S → X → A → Prog Op Res ε D} {f : List S → S}
    (asks : ∀ stages x a, g (f stages) x a = T.composed (stages.map (fun s => g s x)) a)
    (blind : ∀ s x a b, g s x (join a b) = g s x b) (xs ys zs : List S) (x : X) (a : A) :
    g (f (xs ++ f ys :: zs)) x a = g (f (xs ++ ys ++ zs)) x a := by
  have hgroup : g (f ys) x = T.composed (ys.map (fun s => g s x)) := funext (asks ys x)
  have hblind : ∀ stage ∈ ys.map (fun s => g s x), ∀ a b, stage (join a b) = stage b := by
    intro stage hstage a b
    obtain ⟨s, -, rfl⟩ := List.mem_map.mp hstage
    exact blind s x a b
  rw [asks, asks]
  simp only [composed, List.map_append, List.map_cons, hgroup]
  exact chain_composed h hblind _ _ _

/-- The stages have answered one after the other, and none had the last word. -/
inductive Heard (T : Taking A D) :
    List (A → Prog Op Res ε D) → A → List (Done Res ε) → List D → Prop
  | nil (a : A) : Heard T [] a [] []
  | cons {stage : A → Prog Op Res ε D} {stages : List (A → Prog Op Res ε D)} {a : A} {d : D}
      {part done : List (Done Res ε)} {ds : List D} (answers : Played (stage a) part (.ret d))
      (goes : T.stops d = false) (rest : Heard T stages (T.add a d) done ds) :
      Heard T (stage :: stages) a (part ++ done) (d :: ds)

section
variable {T : Taking A D} {stages : List (A → Prog Op Res ε D)} {a : A}
variable {done : List (Done Res ε)} {r : Except ε D}

/-- How a chain comes to its outcome: all have answered, or one of them had the last word, or it
failed, and those behind it were not asked. -/
def Comes (T : Taking A D) (stages : List (A → Prog Op Res ε D)) (a : A)
    (done : List (Done Res ε)) (r : Except ε D) : Prop :=
  (∃ ds, Heard T stages a done ds ∧ r = .ok (T.close (ds.foldl T.add a))) ∨
  ∃ front stage back before part ds, stages = front ++ stage :: back ∧ done = before ++ part ∧
    Heard T front a before ds ∧ Played (stage (ds.foldl T.add a)) part (Prog.ofExcept r) ∧
    ∀ d, r = .ok d → T.stops d = true

theorem played_next {d : D} {rest : A → Prog Op Res ε D} :
    Played (T.next rest a d) done (Prog.ofExcept r) ↔
      (T.stops d = true ∧ done = [] ∧ r = .ok d) ∨
        (T.stops d = false ∧ Played (rest (T.add a d)) done (Prog.ofExcept r)) := by
  unfold next
  cases T.stops d with
  | true =>
    rw [if_pos rfl]
    constructor
    · intro h
      obtain ⟨rfl, hr⟩ := Prog.played_ended (r := .ok d) h
      refine .inl ⟨rfl, rfl, ?_⟩
      cases r <;> cases hr
      rfl
    · intro h
      rcases h with ⟨-, rfl, rfl⟩ | ⟨hfalse, -⟩
      · exact .nil _
      · cases hfalse
  | false => simp

theorem played_then {B C : Type} {p q : Prog Op Res ε B} (f : B → Prog Op Res ε C)
    (h : Played p done q) : Played (p.bind f) done (q.bind f) := by
  induction h with
  | nil p => exact .nil _
  | cons _ ih => exact .cons ih

/-- An outcome of two programs is one of the first where that fails, and else of the second. -/
theorem played_outcome {B C : Type} {p : Prog Op Res ε B} {f : B → Prog Op Res ε C}
    {r : Except ε C} : Played (p.bind f) done (Prog.ofExcept r) ↔
      (∃ e, r = .error e ∧ Played p done (.raise e)) ∨
        ∃ front rest b, done = front ++ rest ∧ Played p front (.ret b) ∧
          Played (f b) rest (Prog.ofExcept r) := by
  constructor
  · intro h
    induction p generalizing done with
    | ret b => exact .inr ⟨[], done, b, rfl, .nil _, h⟩
    | raise e =>
      obtain ⟨rfl, hr⟩ := Prog.played_ended (r := (.error e : Except ε C)) h
      refine .inl ⟨e, ?_, .nil _⟩
      cases r <;> cases hr
      rfl
    | call o k ih =>
      rcases Prog.played_call h with ⟨-, hcall⟩ | ⟨r', rest, rfl, hrest⟩
      · cases r <;> cases hcall
      · rcases ih r' hrest with ⟨e, hr, hp⟩ | ⟨front, rest', b, rfl, hp, hf⟩
        · exact .inl ⟨e, hr, .cons hp⟩
        · exact .inr ⟨_ :: front, rest', b, rfl, .cons hp, hf⟩
  · intro h
    rcases h with ⟨e, rfl, hp⟩ | ⟨front, rest, b, rfl, hp, hf⟩
    · exact played_then f hp
    · exact (played_then f hp).append hf

theorem comes_cons {stage : A → Prog Op Res ε D} : T.Comes (stage :: stages) a done r ↔
    (∃ e, r = .error e ∧ Played (stage a) done (.raise e)) ∨
      ∃ part rest d, done = part ++ rest ∧ Played (stage a) part (.ret d) ∧
        ((T.stops d = true ∧ rest = [] ∧ r = .ok d) ∨
          (T.stops d = false ∧ T.Comes stages (T.add a d) rest r)) := by
  constructor
  · intro h
    rcases h with ⟨ds, hheard, hr⟩ | ⟨front, stage', back, before, part, ds, hstages, hdone, hheard,
      hlast, hstops⟩
    · cases hheard with
      | cons answers goes rest =>
        exact .inr ⟨_, _, _, rfl, answers, .inr ⟨goes, .inl ⟨_, rest, hr⟩⟩⟩
    · cases hheard with
      | nil =>
        obtain ⟨rfl, rfl⟩ := List.cons.inj hstages
        cases r with
        | error e => exact .inl ⟨e, rfl, hdone ▸ hlast⟩
        | ok d => exact .inr ⟨part, [], d, by simpa using hdone, hlast, .inl ⟨hstops d rfl, rfl, rfl⟩⟩
      | cons answers goes rest =>
        obtain ⟨rfl, rfl⟩ := List.cons.inj hstages
        exact .inr ⟨_, _, _, hdone.trans (List.append_assoc ..), answers, .inr ⟨goes,
          .inr ⟨_, stage', back, _, part, _, rfl, rfl, rest, hlast, hstops⟩⟩⟩
  · intro h
    rcases h with ⟨e, rfl, hfails⟩ | ⟨part, rest, d, rfl, answers, ⟨hstops, rfl, rfl⟩ | ⟨goes, hrest⟩⟩
    · exact .inr ⟨[], stage, stages, [], done, [], rfl, rfl, .nil a, hfails, fun d hd => by cases hd⟩
    · refine .inr ⟨[], stage, stages, [], part, [], rfl, by simp, .nil a, answers, fun d' hd => ?_⟩
      exact Except.ok.inj hd ▸ hstops
    · rcases hrest with ⟨ds, hheard, hr⟩ | ⟨front, stage', back, before, last, ds, rfl, rfl, hheard,
        hlast, hstops⟩
      · exact .inl ⟨d :: ds, .cons answers goes hheard, hr⟩
      · exact .inr ⟨stage :: front, stage', back, part ++ before, last, d :: ds, rfl, by simp,
          .cons answers goes hheard, hlast, hstops⟩

/-- What a chain has performed and answered, it has come to so, and in no other way. -/
theorem played_chain : Played (T.chain stages a) done (Prog.ofExcept r) ↔ T.Comes stages a done r := by
  induction stages generalizing a done with
  | nil =>
    constructor
    · intro h
      obtain ⟨rfl, hr⟩ := Prog.played_ended (r := .ok (T.close a)) h
      refine .inl ⟨[], .nil a, ?_⟩
      cases r <;> cases hr
      rfl
    · intro h
      rcases h with ⟨ds, hheard, rfl⟩ | ⟨front, stage, back, before, part, ds, hstages, -⟩
      · cases hheard
        exact .nil _
      · simp at hstages
  | cons stage stages ih =>
    have hrest : ∀ d rest, Played (T.next (T.chain stages) a d) rest (Prog.ofExcept r) ↔
        (T.stops d = true ∧ rest = [] ∧ r = .ok d) ∨
          (T.stops d = false ∧ T.Comes stages (T.add a d) rest r) := fun d rest =>
      played_next.trans (or_congr_right (and_congr_right (fun _ => ih)))
    simp only [chain, played_outcome, comes_cons, hrest]

/-- The programs have answered one after the other. -/
inductive Answers : List (Prog Op Res ε D) → List (Done Res ε) → List D → Prop
  | nil : Answers [] [] []
  | cons {p : Prog Op Res ε D} {ps : List (Prog Op Res ε D)} {d : D} {part done : List (Done Res ε)}
      {ds : List D} (answers : Played p part (.ret d)) (rest : Answers ps done ds) :
      Answers (p :: ps) (part ++ done) (d :: ds)

/-- Each of them has given one of the answers. -/
theorem Answers.each {p : Prog Op Res ε D} {ps : List (Prog Op Res ε D)} {ds : List D}
    (h : Answers ps done ds) (hp : p ∈ ps) : ∃ d ∈ ds, ∃ part, Played p part (.ret d) := by
  induction h with
  | nil => cases hp
  | cons answers _ ih =>
    rcases List.mem_cons.mp hp with rfl | hp
    · exact ⟨_, List.mem_cons_self, _, answers⟩
    · obtain ⟨d, hd, hplayed⟩ := ih hp
      exact ⟨d, List.mem_cons_of_mem _ hd, hplayed⟩

theorem heard_blind {ps : List (Prog Op Res ε D)} {ds : List D} :
    T.Heard (ps.map (fun p _ => p)) a done ds ↔
      Answers ps done ds ∧ ∀ d ∈ ds, T.stops d = false := by
  constructor
  · intro h
    induction ps generalizing a done ds with
    | nil =>
      cases h
      exact ⟨.nil, by simp⟩
    | cons p ps ih =>
      cases h with
      | cons answers goes rest =>
        obtain ⟨hrest, hgoes⟩ := ih rest
        exact ⟨.cons answers hrest, List.forall_mem_cons.mpr ⟨goes, hgoes⟩⟩
  · intro h
    obtain ⟨hanswers, hgoes⟩ := h
    induction hanswers generalizing a with
    | nil => exact .nil a
    | cons answers _ ih =>
      obtain ⟨goes, hgoes⟩ := List.forall_mem_cons.mp hgoes
      exact .cons answers goes (ih hgoes)

/-- How programs that know nothing of each other come to one outcome: all have answered, and
`verdict` says what that comes to; or one had the last word, or failed, and those behind it were
not asked. -/
def Settles (stops : D → Bool) (verdict : List D → D) (ps : List (Prog Op Res ε D))
    (done : List (Done Res ε)) (r : Except ε D) : Prop :=
  (∃ ds, Answers ps done ds ∧ (∀ d ∈ ds, stops d = false) ∧ r = .ok (verdict ds)) ∨
  ∃ front p back before part ds, ps = front ++ p :: back ∧ done = before ++ part ∧
    Answers front before ds ∧ (∀ d ∈ ds, stops d = false) ∧ Played p part (Prog.ofExcept r) ∧
    ∀ d, r = .ok d → stops d = true

theorem played_blind {ps : List (Prog Op Res ε D)} :
    Played (T.chain (ps.map (fun p _ => p)) a) done (Prog.ofExcept r) ↔
      Settles T.stops (fun ds => T.close (ds.foldl T.add a)) ps done r := by
  rw [played_chain]
  constructor
  · intro h
    rcases h with ⟨ds, hheard, hr⟩ | ⟨front, stage, back, before, part, ds, hps, hdone, hheard, hlast,
      hstops⟩
    · obtain ⟨hanswers, hgoes⟩ := heard_blind.mp hheard
      exact .inl ⟨ds, hanswers, hgoes, hr⟩
    · obtain ⟨front, rest, rfl, rfl, hrest⟩ := List.map_eq_append_iff.mp hps
      obtain ⟨p, back, rfl, rfl, rfl⟩ := List.map_eq_cons_iff.mp hrest
      obtain ⟨hanswers, hgoes⟩ := heard_blind.mp hheard
      exact .inr ⟨front, p, back, before, part, ds, rfl, hdone, hanswers, hgoes, hlast, hstops⟩
  · intro h
    rcases h with ⟨ds, hanswers, hgoes, hr⟩ | ⟨front, p, back, before, part, ds, rfl, hdone, hanswers,
      hgoes, hlast, hstops⟩
    · exact .inl ⟨ds, heard_blind.mpr ⟨hanswers, hgoes⟩, hr⟩
    · exact .inr ⟨front.map (fun p _ => p), fun _ => p, back.map (fun p _ => p), before, part, ds,
        by simp, hdone, heard_blind.mpr ⟨hanswers, hgoes⟩, hlast, hstops⟩

end

end Taking

end Semora.Lib
