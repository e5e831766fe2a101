import Semora.Proofs.Writing

/-! A conversation holds what its branches were told, however many attempts wrote to it before. -/

namespace Semora.Proofs.Told
open Semora.Lib Semora.Store Semora.Transcript Writing
open Outside (unasked)

/-- What an attempt asks of the branch it has opened. -/
inductive Edit
  | append (messages : List ModelMessage)
  | replace (desired : List ModelMessage)

def Edit.program (c : String) : Edit → Program Unit
  | append messages => Branch.append c messages
  | replace desired => Branch.replace c desired

/-- What the conversation is then to hold, of what it `held`. -/
def Edit.told (held : List ModelMessage) : Edit → List ModelMessage
  | append messages => held ++ messages
  | replace desired => desired

/-- An attempt at a program, among others that write to other conversations. -/
abbrev Does (out : Outside) (c : String) (i : Nat) (p : Program Unit) (s : Scene) (q : Program Unit)
    (s' : Scene) : Prop :=
  Prog.Runs (exec out id i) (Apart c i) p s q s'

/-- The scenes attempts that run one after another lead to, on a conversation that was empty, and
the attempt that has it open. Each may stop anywhere. -/
inductive Reached (out : Outside) (c : String) : Option Nat → Scene → Prop
  | start {s} (empty : s.world.transcript.read c = []) : Reached out c none s
  | elsewhere {holder s s'} (run : Reached out c holder s)
      (memory : ∀ i, holder = some i → s'.attempts i = s.attempts i)
      (read : s'.world.transcript.read c = s.world.transcript.read c)
      (instant : s.world.instant ≤ s'.world.instant) : Reached out c holder s'
  | opening {holder i branchId s s'} (run : Reached out c holder s)
      (done : Does out c i (Branch.opening c branchId) s (.ret ()) s') : Reached out c (some i) s'
  | unopened {holder i branchId s q s'} (run : Reached out c holder s)
      (stopped : Does out c i (Branch.opening c branchId) s q s') : Reached out c none s'
  | edit {i edit s s'} (run : Reached out c (some i) s)
      (done : Does out c i (Edit.program c edit) s (.ret ()) s') : Reached out c (some i) s'
  | unfinished {i edit s q s'} (run : Reached out c (some i) s)
      (stopped : Does out c i (Edit.program c edit) s q s') : Reached out c none s'

/-- A branch is a conversation's own: the same messages, each entry the parent of the next. -/
structure Mirrors (b : Semora.Branch) (entries : List Entry) : Prop where
  messages : b.messages = messagesOf entries
  length : b.uuids.length = b.messages.length
  parents : ∀ k u u', b.uuids[k]? = some u → b.uuids[k + 1]? = some u' →
    ∃ e, chained entries u' = some e ∧ e.parentUuid = some (some u)

/-- The conversation holds what was told, and nothing it held before is gone. -/
structure Stored (out : Outside) (c : String) (i : Nat) (told : List ModelMessage) (s s' : Scene) :
    Prop where
  said : List.Forall₂ same (committed c s') told
  remembered : List.Forall₂ same (committed c s') (s'.attempts i).branch.messages
  grown : s.world.transcript.read c <+: s'.world.transcript.read c
  reopened : ∀ j branchId r s'', Does out c j (Branch.opening c branchId) s' (.ofExcept r) s'' →
    r = .ok () ∧ s''.world.transcript.read c = s'.world.transcript.read c ∧
      Mirrors (s''.attempts j).branch (s'.world.transcript.read c)

section
variable {out : Outside} {c : String} {i : Nat} {s s' : Scene}

/-! What is never given up. -/

theorem exec_grown {o : Op} {r : Except Exn o.Res} (h : exec out id i o s r s') :
    s.world.transcript.read c <+: s'.world.transcript.read c := by
  obtain ⟨-, hworld, -⟩ := exec_events h
  rw [hworld]
  cases o with
  | append entry => exact MemoryTranscript.read_prefix _ entry c
  | _ => exact List.prefix_refl _

theorem does_grown {p q : Program Unit} (run : Does out c i p s q s') :
    s.world.transcript.read c <+: s'.world.transcript.read c := by
  induction run with
  | refl => exact List.prefix_refl _
  | env _ apart ih => exact apart.read ▸ ih
  | op _ done ih => exact ih.trans (exec_grown done)

/-! The chain of a branch. -/

/-- Every identifier of the conversation's own chain is chained, under the one before it. -/
theorem trail_parents {entries : List Entry} (h : Wellformed entries) {bodies : List Json}
    (hend : ∀ uuid, reach none bodies = some uuid → ∃ e, chained entries uuid = some e)
    {k : Nat} {u u' : Uuid} (hu : (trail none bodies)[k]? = some u)
    (hu' : (trail none bodies)[k + 1]? = some u') :
    ∃ e, chained entries u' = some e ∧ e.parentUuid = some (some u) := by
  have hlt : k + 1 < bodies.length := by
    obtain ⟨hlt, -⟩ := List.getElem?_eq_some_iff.mp hu'
    rwa [trail_length] at hlt
  have hreach : reach none (bodies.take (k + 1)) = some u := by
    rw [← trail_get bodies (by omega) (by omega), Nat.add_sub_cancel, hu]
  have hreach' : reach none (bodies.take (k + 2)) = some u' := by
    rw [← trail_get bodies (by omega) (by omega), ← hu']
    rfl
  have hfront : ∃ e, chained entries u' = some e := by
    apply chained_front h (bodies.take (k + 2)) (bodies.drop (k + 2)) _ u' hreach'
    rw [List.take_append_drop]
    exact hend
  obtain ⟨e, he⟩ := hfront
  obtain ⟨-, parent, m, hparent, -, hid, -⟩ := h.entry he
  have hlast : bodies.take (k + 2) = bodies.take (k + 1) ++ [bodies[k + 1]] :=
    List.take_succ_eq_append_getElem hlt
  rw [hlast, reach_concat, hreach, hid] at hreach'
  refine ⟨e, he, ?_⟩
  rw [hparent, entryId_parent (Option.some.inj hreach')]

theorem mirrors {b : Semora.Branch} {entries : List Entry} (h : Wellformed entries)
    (hlinked : Linked b entries) (hmessages : b.messages = messagesOf entries) :
    Mirrors b entries := by
  refine ⟨hmessages, ?_, ?_⟩
  · rw [hlinked.uuids, trail_length, List.length_map]
  · intro k u u' hu hu'
    rw [hlinked.uuids] at hu hu'
    apply trail_parents h _ hu hu'
    intro uuid huuid
    rw [hlinked.bodies, tip_reach h] at huuid
    exact h.tip huuid

/-! What every attempt finds and leaves. -/

/-- The conversation is orderly, and the attempt that has it open knows where it stands. -/
structure Good (c : String) (holder : Option Nat) (s : Scene) : Prop where
  orderly : Orderly c s.world
  linked : ∀ i, holder = some i → Linked (s.attempts i).branch (s.world.transcript.read c)

theorem Good.elsewhere {holder : Option Nat} (h : Good c holder s)
    (memory : ∀ i, holder = some i → s'.attempts i = s.attempts i)
    (read : s'.world.transcript.read c = s.world.transcript.read c)
    (instant : s.world.instant ≤ s'.world.instant) : Good c holder s' := by
  refine ⟨h.orderly.later read instant, ?_⟩
  intro i hi
  rw [memory i hi, read]
  exact h.linked i hi

theorem Good.apart (h : Good c (some i) s) (hr : Apart c i s s') : Good c (some i) s' := by
  apply h.elsewhere _ hr.read hr.instant
  intro j hj
  rw [← Option.some.inj hj, hr.memory]

/-- The memory of the attempt needs no more to be than it is. -/
theorem midway (h : Orderly c s.world) : Midway c i (s.attempts i) (fun _ => True)
    (s.attempts i).branch (s.world.transcript.read c) s :=
  ⟨rfl, rfl, h, trivial⟩

theorem follows (t : Attempt) : Follows out c i t (fun _ => True) (exec out id i) (Apart c i)
    (Writes c i t (fun _ => True)) :=
  ⟨fun _ _ _ _ h => h, fun _ _ h => h, fun _ _ h => h⟩

theorem Midway.good {t : Attempt} {branch : Semora.Branch} {entries : List Entry}
    (h : Midway c i t (fun _ => True) branch entries s) (hlinked : Linked branch entries) :
    Good c (some i) s := by
  refine ⟨h.orderly, ?_⟩
  intro j hj
  rw [← Option.some.inj hj, h.memory, h.read]
  exact hlinked

theorem safe_opening (h : Orderly c s.world) (branchId : String) :
    Prog.safe (exec out id i) (Apart c i) (Writes c i (s.attempts i) (fun _ => True))
      (Branch.opening c branchId)
      (fun r s' => r = .ok () ∧ Good c (some i) s' ∧
        s'.world.transcript.read c = s.world.transcript.read c ∧
        (s'.attempts i).branch.messages = committed c s) s := by
  apply opening_safe (follows _) (midway h)
  intro branch s' h' hlinked hmessages
  refine ⟨rfl, Midway.good h' hlinked, h'.read, ?_⟩
  rw [h'.memory]
  exact hmessages

theorem safe_edit (h : Good c (some i) s) (edit : Edit) :
    Prog.safe (exec out id i) (Apart c i) (Writes c i (s.attempts i) (fun _ => True))
      (edit.program c)
      (fun r s' => r = .ok () ∧ Good c (some i) s' ∧
        gists (s'.attempts i).branch.messages = gists (edit.told (committed c s))) s := by
  have hlinked := h.linked i rfl
  cases edit with
  | append messages =>
    apply append_safe (follows _) (midway h.orderly) hlinked (fun _ => trivial)
    intro branch entries s' h' hlinked' hmessages
    refine ⟨rfl, Midway.good h' hlinked', ?_⟩
    have hheld : gists (s.attempts i).branch.messages = gists (committed c s) := by
      rw [hlinked.said, ← numeral_bodies, h.orderly.committed]
      rfl
    simp only [gists] at hheld
    simp only [h'.memory, hmessages, Edit.told, gists, List.map_append, hheld]
  | replace desired =>
    apply replace_safe (follows _) (midway h.orderly) hlinked (fun _ => trivial)
    intro branch entries s' h' hlinked' hmessages
    refine ⟨rfl, Midway.good h' hlinked', ?_⟩
    rw [h'.memory]
    exact hmessages

/-- What holds of an attempt that was let run: what its steps keep, and, once it has ended, what
it ends with. -/
theorem does {p q : Program Unit} {Q : Except Exn Unit → Scene → Prop} (horderly : Orderly c s.world)
    (stable : ∀ r a b, Q r a → Apart c i a b → Q r b)
    (h : Prog.safe (exec out id i) (Apart c i) (Writes c i (s.attempts i) (fun _ => True)) p Q s)
    (run : Does out c i p s q s') :
    Orderly c s'.world ∧ ∀ r, q = .ofExcept r → Q r s' := by
  have hkept := Prog.safe_runs (I := fun s => Orderly c s.world) (Apart.refl c i)
    (fun _ _ _ => Apart.trans) stable
    (fun _ _ hr h => h.later hr.read hr.instant) (fun _ _ hg _ => hg.orderly) h horderly run
  refine ⟨hkept.2, ?_⟩
  intro r hq
  subst hq
  exact (Prog.safe_ofExcept r Q s').mp hkept.1

theorem does_opening {q : Program Unit} {branchId : String} (h : Orderly c s.world)
    (run : Does out c i (Branch.opening c branchId) s q s') :
    Orderly c s'.world ∧ ∀ r, q = .ofExcept r → r = .ok () ∧ Good c (some i) s' ∧
      s'.world.transcript.read c = s.world.transcript.read c ∧
      (s'.attempts i).branch.messages = committed c s := by
  apply does h _ (safe_opening h branchId) run
  intro r a b ⟨hr, hgood, hread, hmessages⟩ hapart
  exact ⟨hr, hgood.apart hapart, hapart.read.trans hread, by rw [hapart.memory, hmessages]⟩

theorem does_edit {q : Program Unit} {edit : Edit} (h : Good c (some i) s)
    (run : Does out c i (edit.program c) s q s') :
    Orderly c s'.world ∧ ∀ r, q = .ofExcept r → r = .ok () ∧ Good c (some i) s' ∧
      gists (s'.attempts i).branch.messages = gists (edit.told (committed c s)) := by
  apply does h.orderly _ (safe_edit h edit) run
  intro r a b ⟨hr, hgood, hmessages⟩ hapart
  exact ⟨hr, hgood.apart hapart, by rw [hapart.memory, hmessages]⟩

theorem reached_good {holder : Option Nat} (reached : Reached out c holder s) : Good c holder s := by
  induction reached with
  | start empty =>
    refine ⟨⟨by rw [empty]; exact .nil, by simp [empty]⟩, ?_⟩
    intro i hi
    cases hi
  | elsewhere _ memory read instant ih => exact ih.elsewhere memory read instant
  | opening _ done ih => exact ((does_opening ih.orderly done).2 (.ok ()) rfl).2.1
  | unopened _ stopped ih =>
    refine ⟨(does_opening ih.orderly stopped).1, ?_⟩
    intro i hi
    cases hi
  | edit _ done ih => exact ((does_edit ih done).2 (.ok ()) rfl).2.1
  | unfinished _ stopped ih =>
    refine ⟨(does_edit ih stopped).1, ?_⟩
    intro i hi
    cases hi

/-- Let run alone, a program that returns is one that was run. -/
theorem does_alone {p : Program Unit} (h : (p.eval (Scene.perform out id i) s).1 = .ok ()) :
    Does out c i p s (.ret ()) (p.eval (Scene.perform out id i) s).2 := by
  have hrun : Does out c i p s _ _ := Prog.Runs.eval (.refl _ s)
  rwa [h] at hrun

/-- Wherever attempts have got to, what one is told next is stored: it ends, without an
exception, and the conversation holds what it was told, for whoever opens it next. -/
theorem stores_what_it_is_told (reached : Reached out c (some i) s) (edit : Edit) :
    (∃ s', Does out c i (edit.program c) s (.ret ()) s') ∧
      ∀ r s', Does out c i (edit.program c) s (.ofExcept r) s' →
        r = .ok () ∧ Stored out c i (edit.told (committed c s)) s s' := by
  have hgood := reached_good reached
  have hends : ∀ r s', Does out c i (edit.program c) s (.ofExcept r) s' → r = .ok () :=
    fun r s' run => ((does_edit hgood run).2 r rfl).1
  constructor
  · have hrun : Does out c i (edit.program c) s _ _ := Prog.Runs.eval (.refl _ s)
    exact ⟨_, does_alone (hends _ _ hrun)⟩
  · intro r s' run
    obtain ⟨hr, hgood', htold⟩ := (does_edit hgood run).2 r rfl
    have hheld : gists (s'.attempts i).branch.messages = gists (committed c s') := by
      rw [(hgood'.linked i rfl).said, ← numeral_bodies, hgood'.orderly.committed]
      rfl
    refine ⟨hr, ?_, ?_, does_grown run, ?_⟩
    · exact (forall₂_same _ _).mpr (hheld.symm.trans htold)
    · exact (forall₂_same _ _).mpr hheld.symm
    · intro j branchId r' s'' opened
      obtain ⟨hr', hgood'', hread, hmessages⟩ := (does_opening hgood'.orderly opened).2 r' rfl
      refine ⟨hr', hread, ?_⟩
      have hlinked := hgood''.linked j rfl
      rw [hread] at hlinked
      exact mirrors hgood'.orderly.wellformed hlinked hmessages

end

def said (text : String) : ModelMessage := .response { parts := [.text text] }

def opened : Scene :=
  ((Branch.opening "run" "run").eval (Scene.perform unasked id 0) ⟨{}, fun _ => {}, []⟩).2

/-- The conversation once it was told two messages. -/
def toldTwo : Scene :=
  (((Edit.append [said "one", said "two"]).program "run").eval (Scene.perform unasked id 0) opened).2

theorem toldTwo_reached : Reached unasked "run" (some 0) toldTwo := by
  have hopened : Reached unasked "run" (some 0) opened :=
    .opening (.start rfl) (does_alone (by decide +kernel))
  exact .edit hopened (does_alone (by decide +kernel))

theorem stores_what_it_is_told_instead :
    ∃ s', Does unasked "run" 0 ((Edit.replace [said "one", said "three"]).program "run") toldTwo
        (.ret ()) s' ∧
      Stored unasked "run" 0 [said "one", said "three"] toldTwo s' := by
  obtain ⟨⟨s', run⟩, stored⟩ :=
    stores_what_it_is_told toldTwo_reached (.replace [said "one", said "three"])
  exact ⟨s', run, (stored (.ok ()) s' run).2⟩

end Semora.Proofs.Told
