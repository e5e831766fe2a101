import Semora.Proofs.Writing
import Semora.Runtime.Entry

/-! A cursor names the same history for good, whoever goes on writing the conversation. -/

namespace Semora.Proofs.Cursor
open Semora.Lib Semora.Store Semora.Transcript
open Outside (unasked)

/-! Logs. -/

def Present (entries : List Entry) (uuid : Uuid) : Prop := ∃ e ∈ entries, e.uuid = uuid

/-- Identifiers are unique, every parent link points to an earlier entry, every message is chained
and nothing is buried. -/
structure Sound (entries : List Entry) : Prop where
  nodup : (entries.map Entry.uuid).Nodup
  parents : ∀ (k : Nat) (e : Entry) (p : Uuid), entries[k]? = some e → e.parentUuid = some (some p) →
    ∃ j old, j < k ∧ entries[j]? = some old ∧ old.uuid = p
  carried : ∀ e ∈ entries, e.message.isSome → e.parentUuid.isSome
  unburied : ∀ e ∈ entries, e.type ≠ .tombstone

section
variable {entries more : List Entry} {e e' : Entry} {uuid : Uuid}

theorem Present.grown (h : Present entries uuid) (hgrown : entries <+: more) : Present more uuid := by
  obtain ⟨e, hmem, he⟩ := h
  exact ⟨e, hgrown.subset hmem, he⟩

theorem sound_nil : Sound [] :=
  ⟨List.nodup_nil, by simp, by simp, by simp⟩

theorem Sound.concat (h : Sound entries) (hnew : ∀ old ∈ entries, old.uuid ≠ e.uuid)
    (hparent : ∀ p, e.parentUuid = some (some p) → Present entries p)
    (hcarried : e.message.isSome → e.parentUuid.isSome) (htype : e.type ≠ .tombstone) :
    Sound (entries ++ [e]) := by
  constructor
  case nodup =>
    rw [List.map_append, List.map_singleton, List.nodup_append]
    refine ⟨h.nodup, List.nodup_singleton _, ?_⟩
    intro u hu v hv
    obtain ⟨old, hmem, rfl⟩ := List.mem_map.mp hu
    rw [List.mem_singleton.mp hv]
    exact hnew old hmem
  case parents =>
    intro k e' p hk hp
    by_cases hlt : k < entries.length
    · rw [List.getElem?_append_left hlt] at hk
      obtain ⟨j, old, hj, hold, hu⟩ := h.parents k e' p hk hp
      exact ⟨j, old, hj, by rw [List.getElem?_append_left (by omega), hold], hu⟩
    · obtain ⟨hle, he⟩ := List.getElem?_eq_some_iff.mp hk
      have hlast : k = entries.length := by
        simp only [List.length_append, List.length_singleton] at hle
        omega
      subst hlast
      rw [List.getElem_concat_length (by rfl)] at he
      subst he
      obtain ⟨old, hmem, hu⟩ := hparent p hp
      obtain ⟨j, hj⟩ := List.getElem?_of_mem hmem
      have hlt := (List.getElem?_eq_some_iff.mp hj).1
      exact ⟨j, old, hlt, by rw [List.getElem?_append_left hlt, hj], hu⟩
  case carried =>
    intro e' hmem
    rcases List.mem_append.mp hmem with hmem | hmem
    · exact h.carried e' hmem
    · rw [List.mem_singleton.mp hmem]
      exact hcarried
  case unburied =>
    intro e' hmem
    rcases List.mem_append.mp hmem with hmem | hmem
    · exact h.unburied e' hmem
    · rw [List.mem_singleton.mp hmem]
      exact htype

theorem Sound.buried (h : Sound entries) : Transcript.buried entries uuid = false := by
  simp only [Transcript.buried, List.any_eq_false, decide_eq_true_eq, not_and]
  intro e he ht
  exact absurd ht (h.unburied e he)

theorem unique (h : (entries.map Entry.uuid).Nodup) (he : e ∈ entries) (he' : e' ∈ entries)
    (hu : e.uuid = e'.uuid) : e = e' :=
  List.inj_on_of_nodup_map h he he' hu

theorem mem_chained (h : chained entries uuid = some e) :
    e ∈ entries ∧ e.parentUuid.isSome ∧ e.uuid = uuid := by
  have hfound := List.mem_of_find?_eq_some h
  have hu := List.find?_some h
  simp only [List.mem_reverse, List.mem_filter] at hfound
  exact ⟨hfound.1, hfound.2, by simpa using hu⟩

theorem chained_iff (h : (entries.map Entry.uuid).Nodup) :
    chained entries uuid = some e ↔ e ∈ entries ∧ e.parentUuid.isSome ∧ e.uuid = uuid := by
  refine ⟨mem_chained, ?_⟩
  intro ⟨hmem, hparent, hu⟩
  have hsome : (chained entries uuid).isSome := by
    simp only [chained, List.find?_isSome]
    exact ⟨e, by simp [hmem, hparent], by simpa using hu⟩
  obtain ⟨e', he'⟩ := Option.isSome_iff_exists.mp hsome
  obtain ⟨hmem', -, hu'⟩ := mem_chained he'
  rw [he', unique h hmem' hmem (hu'.trans hu.symm)]

/-- What is appended does not shadow what there is. -/
theorem chained_front (h : Sound (entries ++ more)) (he : e ∈ entries) :
    chained (entries ++ more) e.uuid = chained entries e.uuid := by
  have hfront : (entries.map Entry.uuid).Nodup := by
    have hnodup := h.nodup
    rw [List.map_append] at hnodup
    exact hnodup.of_append_left
  ext e'
  rw [chained_iff h.nodup, chained_iff hfront]
  constructor
  · intro ⟨hmem, hparent, hu⟩
    have hsame := unique h.nodup hmem (List.mem_append_left _ he) hu
    exact ⟨hsame ▸ he, hparent, hu⟩
  · intro ⟨hmem, hrest⟩
    exact ⟨List.mem_append_left _ hmem, hrest⟩

/-- Nor does it extend what is walked back from there. By induction on where the walk starts:
every parent is earlier, so neither the length of the log nor what was seen ends it. -/
theorem walk_front (h : Sound (entries ++ more)) {k : Nat} (hk : entries[k]? = some e)
    {fuel fuel' : Nat} {seen seen' : List Uuid} (hfuel : k < fuel) (hfuel' : k < fuel')
    (hseen : ∀ j e', j ≤ k → entries[j]? = some e' → e'.uuid ∉ seen)
    (hseen' : ∀ j e', j ≤ k → entries[j]? = some e' → e'.uuid ∉ seen') :
    walk (entries ++ more) fuel (some e.uuid) seen = walk entries fuel' (some e.uuid) seen' := by
  induction k using Nat.strong_induction_on generalizing e fuel fuel' seen seen' with
  | _ k ih =>
    have hmem : e ∈ entries := List.mem_of_getElem? hk
    have hlt : k < entries.length := (List.getElem?_eq_some_iff.mp hk).1
    have hlater : ∀ seen : List Uuid, (∀ j e', j ≤ k → entries[j]? = some e' → e'.uuid ∉ seen) →
        ∀ p, p < k → ∀ j e', j ≤ p → entries[j]? = some e' → e'.uuid ∉ e.uuid :: seen := by
      intro seen hseen p hp j e' hj he' hmem'
      rcases List.mem_cons.mp hmem' with hu | hmem'
      · have hnodup : entries.Nodup := by
          have hwhole := h.nodup
          rw [List.map_append] at hwhole
          exact hwhole.of_append_left.of_map _
        have hsame := unique h.nodup (List.mem_append_left _ (List.mem_of_getElem? he'))
          (List.mem_append_left _ hmem) hu
        subst hsame
        have hjk := (List.getElem?_inj (by omega) hnodup).mp (he'.trans hk.symm)
        omega
      · exact hseen j e' (by omega) he' hmem'
    obtain ⟨fuel, rfl⟩ : ∃ n, fuel = n + 1 := ⟨fuel - 1, by omega⟩
    obtain ⟨fuel', rfl⟩ : ∃ n, fuel' = n + 1 := ⟨fuel' - 1, by omega⟩
    simp only [walk, if_neg (hseen k e le_rfl hk), if_neg (hseen' k e le_rfl hk),
      chained_front h hmem]
    cases hc : chained entries e.uuid with
    | none => rfl
    | some found =>
      obtain ⟨hfound, -, hu⟩ := mem_chained hc
      have hsame := unique h.nodup (List.mem_append_left _ hfound) (List.mem_append_left _ hmem) hu
      subst hsame
      have hburied : Transcript.buried entries found.uuid = false := by
        simp only [Transcript.buried, List.any_eq_false, decide_eq_true_eq, not_and]
        intro e he ht
        exact absurd ht (h.unburied e (List.mem_append_left _ he))
      simp only [h.buried, hburied, Bool.false_eq_true, ↓reduceIte]
      apply congrArg (found :: ·)
      cases hp : found.parentUuid.getD none with
      | none => cases fuel <;> cases fuel' <;> rfl
      | some p =>
        have hparent : found.parentUuid = some (some p) := by
          cases hpar : found.parentUuid with
          | none => simp [hpar] at hp
          | some q => simpa [hpar] using hp
        have hwhole : (entries ++ more)[k]? = some found := by
          rw [List.getElem?_append_left hlt, hk]
        obtain ⟨j, old, hj, hold, hu⟩ := h.parents k found p hwhole hparent
        rw [List.getElem?_append_left (by omega)] at hold
        rw [← hu]
        exact ih j hj hold (by omega) (by omega) (hlater seen hseen j hj) (hlater seen' hseen' j hj)

/-- The history up to a message stays what it is, whatever is appended. -/
theorem messagesAt_front (h : Sound (entries ++ more)) (he : e ∈ entries) (hm : e.message.isSome) :
    ∃ messages, messagesAt entries (some e.uuid) = some messages ∧
      messagesAt (entries ++ more) (some e.uuid) = some messages := by
  obtain ⟨k, hk⟩ := List.getElem?_of_mem he
  have hlt : k < entries.length := (List.getElem?_eq_some_iff.mp hk).1
  have hparent := h.carried e (List.mem_append_left _ he) hm
  have hchained : chained (entries ++ more) e.uuid = some e :=
    (chained_iff h.nodup).mpr ⟨List.mem_append_left _ he, hparent, rfl⟩
  have hwalk : walk (entries ++ more) (entries ++ more).length (some e.uuid) [] =
      walk entries entries.length (some e.uuid) [] := by
    apply walk_front h hk _ hlt (by simp) (by simp)
    rw [List.length_append]
    omega
  refine ⟨(walk entries entries.length (some e.uuid) []).reverse.filterMap Entry.message, ?_, ?_⟩
  · simp [messagesAt, ← chained_front h he, hchained]
  · simp only [messagesAt, hchained, hwalk]
    rfl

end

/-! Writers. -/

/-- What a writer may begin: to record a message, to rewind to an entry there is, or to continue
from one; and what a branch does, over an attempt that knows where it stands. -/
inductive Begins (c : String) (s : Scene) : Program Unit → Prop
  | record (message : ModelMessage) : Begins c s (do
      let _ ← record c message
      return ())
  | rewind (leaf : Option Uuid)
      (existing : ∀ u, leaf = some u → Present (s.world.transcript.read c) u) :
      Begins c s (rewind c leaf)
  | continuing (parent : Option Uuid)
      (existing : ∀ u, parent = some u → Present (s.world.transcript.read c) u) :
      Begins c s (update (setParent parent))
  | opening (branchId : String) : Begins c s (Branch.opening c branchId)
  | append (messages : List ModelMessage) : Begins c s (Branch.append c messages)
  | replace (desired : List ModelMessage) : Begins c s (Branch.replace c desired)

/-- What any number of writers of a conversation lead to, interleaved operation by operation with
what others do elsewhere. Any of them may be abandoned anywhere, for another to begin. -/
inductive Writers (out : Outside) (self : Nat → Nat) (c : String) (pool : Nat → Program Unit)
    (s : Scene) : (Nat → Program Unit) → Scene → Prop
  | refl : Writers out self c pool s pool s
  | begin {pool' s' p} (run : Writers out self c pool s pool' s') (i : Nat) (start : Begins c s' p) :
      Writers out self c pool s (Function.update pool' i p) s'
  | op {pool' s' i o k r s''} (run : Writers out self c pool s pool' s')
      (next : pool' i = .call o k) (done : exec out self i o s' r s'') :
      Writers out self c pool s (Function.update pool' i (k r)) s''
  | elsewhere {pool' s' s''} (run : Writers out self c pool s pool' s')
      (read : s''.world.transcript.read c = s'.world.transcript.read c)
      (branches : ∀ i, (s''.attempts i).branch = (s'.attempts i).branch) :
      Writers out self c pool s pool' s''

/-- An attempt only knows entries there are. -/
structure Knows (entries : List Entry) (branch : Semora.Branch) : Prop where
  parent : ∀ u, branch.parentUuid = some u → Present entries u
  uuids : ∀ u ∈ branch.uuids, Present entries u

structure Inv (c : String) (s : Scene) : Prop where
  sound : Sound (s.world.transcript.read c)
  knows : ∀ i, Knows (s.world.transcript.read c) (s.attempts i).branch

/-- What any writer's step is: the log only grows, and stays sound. -/
structure Grows (c : String) (a b : Scene) : Prop where
  front : a.world.transcript.read c <+: b.world.transcript.read c
  inv : Inv c b

section
variable {out : Outside} {self : Nat → Nat} {c : String} {i : Nat} {a b s s' : Scene}

theorem Grows.trans {d : Scene} (h : Grows c a b) (h' : Grows c b d) : Grows c a d :=
  ⟨h.front.trans h'.front, h'.inv⟩

theorem Inv.same (h : Inv c a) (read : b.world.transcript.read c = a.world.transcript.read c)
    (branches : ∀ i, (b.attempts i).branch = (a.attempts i).branch) : Grows c a b := by
  refine ⟨read.symm ▸ List.prefix_refl _, ⟨by rw [read]; exact h.sound, ?_⟩⟩
  intro i
  rw [read, branches i]
  exact h.knows i

theorem Knows.grown {entries more : List Entry} {branch : Semora.Branch} (h : Knows entries branch)
    (hgrown : entries <+: more) : Knows more branch :=
  ⟨fun u hu => (h.parent u hu).grown hgrown, fun u hu => (h.uuids u hu).grown hgrown⟩

/-- A safe writer: whatever others write meanwhile, its every step is one. -/
abbrev Steady (out : Outside) (self : Nat → Nat) (c : String) (i : Nat) {α : Type} (p : Program α)
    (Q : Except Exn α → Scene → Prop) (s : Scene) : Prop :=
  Prog.safe (exec out self i) (Grows c) (Grows c) p Q s

/-- An operation that neither appends nor moves a branch. -/
theorem quiet_step {o : Op} {r : Except Exn o.Res} (h : Inv c a) (he : exec out self i o a r b)
    (happend : ∀ entry, o ≠ .append entry) (hmodify : ∀ f, o ≠ .modify f) : Grows c a b := by
  obtain ⟨-, hworld, -⟩ := exec_events he
  have hattempts := exec_attempts he
  apply h.same
  · rw [hworld]
    cases o with
    | append entry => exact absurd rfl (happend entry)
    | _ => rfl
  · intro j
    rw [hattempts]
    by_cases hj : j = self i
    · subst hj
      rw [Function.update_self]
      cases o with
      | modify f => exact absurd rfl (hmodify f)
      | _ => rfl
    · rw [Function.update_of_ne hj]

theorem attempt_steady {Q : Except Exn Attempt → Scene → Prop}
    (hQ : ∀ (t : Attempt) s', Grows c s s' → Knows (s'.world.transcript.read c) t.branch →
      Q (.ok t) s') :
    Steady out self c i attempt Q s := by
  apply (Prog.safe_op _ _ _).mpr
  intro s₁ hr r s₂ he
  have hg : Grows c s₁ s₂ := quiet_step hr.inv he (by simp) (by simp)
  obtain ⟨-, -, hreply⟩ := exec_events he
  subst hreply
  refine ⟨hg, hQ _ s₂ (hr.trans hg) ?_⟩
  exact (hr.inv.knows (self i)).grown hg.front

theorem now_steady {Q : Except Exn Nat → Scene → Prop} (hQ : ∀ n s', Grows c s s' → Q (.ok n) s') :
    Steady out self c i now Q s := by
  apply (Prog.safe_op _ _ _).mpr
  intro s₁ hr r s₂ he
  have hg : Grows c s₁ s₂ := quiet_step hr.inv he (by simp) (by simp)
  obtain ⟨-, -, hreply⟩ := exec_events he
  subst hreply
  exact ⟨hg, hQ _ s₂ (hr.trans hg)⟩

theorem update_steady {Q : Except Exn Unit → Scene → Prop} {f : Attempt → Attempt}
    (hf : ∀ (entries : List Entry) t, s.world.transcript.read c <+: entries →
      Knows entries t.branch → Knows entries (f t).branch)
    (hQ : ∀ s', Grows c s s' → Q (.ok ()) s') :
    Steady out self c i (update f) Q s := by
  apply (Prog.safe_op _ _ _).mpr
  intro s₁ hr r s₂ he
  obtain ⟨-, hworld, hreply⟩ := exec_events he
  have hattempts := exec_attempts he
  subst hreply
  have hread : s₂.world.transcript.read c = s₁.world.transcript.read c := by
    rw [hworld]
    rfl
  have hg : Grows c s₁ s₂ := by
    refine ⟨hread.symm ▸ List.prefix_refl _, ⟨by rw [hread]; exact hr.inv.sound, ?_⟩⟩
    intro j
    rw [hread, hattempts]
    by_cases hj : j = self i
    · subst hj
      rw [Function.update_self]
      exact hf _ _ hr.front (hr.inv.knows (self i))
    · rw [Function.update_of_ne hj]
      exact hr.inv.knows j
  exact ⟨hg, hQ s₂ (hr.trans hg)⟩

/-- Appending a message under an entry there is, or a marker: another conversation's entry, a
duplicate, or one that is new. -/
theorem append_steady {Q : Except Exn Bool → Scene → Prop} {entry : Entry}
    (hparent : ∀ p, entry.parentUuid = some (some p) → Present (s.world.transcript.read c) p)
    (hcarried : entry.message.isSome → entry.parentUuid.isSome) (htype : entry.type ≠ .tombstone)
    (hc : entry.conversationId = c)
    (hQ : ∀ appended s', Grows c s s' → Present (s'.world.transcript.read c) entry.uuid →
      Q (.ok appended) s') :
    Steady out self c i (perform (.append entry)) Q s := by
  apply (Prog.safe_op _ _ _).mpr
  intro s₁ hr r s₂ he
  obtain ⟨-, hworld, hreply⟩ := exec_events he
  have hattempts := exec_attempts he
  subst hreply
  have hread : s₂.world.transcript.read c = (s₁.world.transcript.append entry).2.read c := by
    rw [hworld]
    rfl
  have hfront : s₁.world.transcript.read c <+: s₂.world.transcript.read c := by
    rw [hread]
    exact MemoryTranscript.read_prefix _ entry c
  have hsound : Sound (s₂.world.transcript.read c) := by
    rw [hread]
    by_cases hold : ∃ e ∈ s₁.world.transcript.read entry.conversationId, e.uuid = entry.uuid
    · rw [MemoryTranscript.append_old _ hold]
      exact hr.inv.sound
    · simp only [not_exists, not_and] at hold
      rw [(MemoryTranscript.append_new _ hold).2.2 c, if_pos hc.symm]
      rw [hc] at hold
      exact hr.inv.sound.concat hold (fun p hp => (hparent p hp).grown hr.front) hcarried htype
  have hg : Grows c s₁ s₂ := by
    refine ⟨hfront, ⟨hsound, ?_⟩⟩
    intro j
    have hbranch : (s₂.attempts j).branch = (s₁.attempts j).branch := by
      rw [hattempts]
      by_cases hj : j = self i
      · subst hj
        rw [Function.update_self]
        rfl
      · rw [Function.update_of_ne hj]
    rw [hbranch]
    exact (hr.inv.knows j).grown hfront
  refine ⟨hg, hQ _ s₂ (hr.trans hg) ?_⟩
  rw [hread, ← hc]
  exact MemoryTranscript.append_holds _ entry

theorem appendLeaf_steady {Q : Except Exn Unit → Scene → Prop} {leaf : Option Uuid}
    (hQ : ∀ s', Grows c s s' → Q (.ok ()) s') : Steady out self c i (appendLeaf c leaf) Q s := by
  unfold appendLeaf
  apply (Prog.safe_bind _ _ _ _).mpr
  apply now_steady
  intro n s₁ h₁
  apply (Prog.safe_bind _ _ _ _).mpr
  have hc : (leafEntry c leaf n).conversationId = c := rfl
  apply append_steady (by simp [leafEntry]) (by simp [leafEntry]) (by simp [leafEntry]) hc
  intro _ s₂ h₂ _
  exact hQ s₂ (h₁.trans h₂)

theorem knows_setParent {entries : List Entry} {t : Attempt} {parent : Option Uuid}
    (h : Knows entries t.branch) (hparent : ∀ u, parent = some u → Present entries u) :
    Knows entries (setParent parent t).branch :=
  ⟨hparent, h.uuids⟩

theorem record_steady {Q : Except Exn Bool → Scene → Prop} {m : ModelMessage}
    (hQ : ∀ appended s', Grows c s s' → Q (.ok appended) s') :
    Steady out self c i (record c m) Q s := by
  unfold record
  apply (Prog.safe_bind _ _ _ _).mpr
  apply attempt_steady
  intro t s₁ h₁ hknows
  apply (Prog.safe_bind _ _ _ _).mpr
  apply now_steady
  intro n s₂ h₂
  apply (Prog.safe_bind _ _ _ _).mpr
  have hc : (messageEntry m c t.branch.parentUuid n).conversationId = c := rfl
  apply append_steady _ (fun _ => rfl) (by simp [messageEntry]) hc
  · intro appended s₃ h₃ hpresent
    apply (Prog.safe_bind _ _ _ _).mpr
    apply update_steady
    · intro entries t hgrown ht
      apply knows_setParent ht
      intro u hu
      rw [← Option.some.inj hu]
      exact hpresent.grown hgrown
    · intro s₄ h₄
      have hdone := ((h₁.trans h₂).trans h₃).trans h₄
      apply (Prog.safe_bind _ _ _ _).mpr
      unfold relink
      cases appended with
      | true => exact hQ true s₄ hdone
      | false => exact appendLeaf_steady (fun s₅ h₅ => hQ false s₅ (hdone.trans h₅))
  · intro p hp
    exact (hknows.parent p (Option.some.inj hp)).grown h₂.front

theorem rewind_steady {Q : Except Exn Unit → Scene → Prop} {leaf : Option Uuid}
    (existing : ∀ u, leaf = some u → Present (s.world.transcript.read c) u)
    (hQ : ∀ s', Grows c s s' → Q (.ok ()) s') : Steady out self c i (rewind c leaf) Q s := by
  unfold rewind
  apply (Prog.safe_bind _ _ _ _).mpr
  apply appendLeaf_steady
  intro s₁ h₁
  apply update_steady
  · intro entries t hgrown ht
    apply knows_setParent ht
    exact fun u hu => (existing u hu).grown (h₁.front.trans hgrown)
  · exact fun s₂ h₂ => hQ s₂ (h₁.trans h₂)

/-! Branches. -/

theorem mem_walk {entries : List Entry} {fuel : Nat} {uuid : Option Uuid} {seen : List Uuid}
    {e : Entry} (h : e ∈ walk entries fuel uuid seen) : e ∈ entries := by
  induction fuel generalizing uuid seen with
  | zero => simp [walk] at h
  | succ fuel ih =>
    cases uuid with
    | none => simp [walk] at h
    | some u =>
      simp only [walk] at h
      split at h
      · cases h
      · split at h
        · cases h
        · rename_i found hfound
          split at h
          · exact ih h
          · rcases List.mem_cons.mp h with rfl | h
            · exact (mem_chained hfound).1
            · exact ih h

theorem append_branch_steady {Q : Except Exn Unit → Scene → Prop} {messages : List ModelMessage}
    (hQ : ∀ s', Grows c s s' → Q (.ok ()) s') (hi : Inv c s) :
    Steady out self c i (Branch.append c messages) Q s := by
  induction messages generalizing s with
  | nil => exact hQ s ⟨List.prefix_refl _, hi⟩
  | cons m messages ih =>
    unfold Branch.append
    apply (Prog.safe_bind _ _ _ _).mpr
    apply record_steady
    intro _ s₁ h₁
    apply (Prog.safe_bind _ _ _ _).mpr
    apply update_steady
    · intro entries t _ ht
      refine ⟨ht.parent, ?_⟩
      intro u hu
      rcases List.mem_append.mp hu with hu | hu
      · exact ht.uuids u hu
      · exact ht.parent u (Option.mem_toList.mp hu)
    · intro s₂ h₂
      exact ih (fun s₃ h₃ => hQ s₃ ((h₁.trans h₂).trans h₃)) h₂.inv

theorem replace_steady {Q : Except Exn Unit → Scene → Prop} {desired : List ModelMessage}
    (hQ : ∀ s', Grows c s s' → Q (.ok ()) s') :
    Steady out self c i (Branch.replace c desired) Q s := by
  unfold Branch.replace
  apply (Prog.safe_bind _ _ _ _).mpr
  apply attempt_steady
  intro t s₁ h₁ hknows
  apply (Prog.safe_bind _ _ _ _).mpr
  have hrest : ∀ s₂, Grows c s₁ s₂ → Steady out self c i
      (Branch.append c (desired.drop (Branch.common t.branch.messages desired))) Q s₂ :=
    fun s₂ h₂ => append_branch_steady (fun s₃ h₃ => hQ s₃ ((h₁.trans h₂).trans h₃)) h₂.inv
  unfold Branch.cut
  split
  · apply (Prog.safe_bind _ _ _ _).mpr
    apply rewind_steady
    · intro u hu
      split at hu
      · cases hu
      · exact hknows.uuids u (List.mem_of_getElem? hu)
    · intro s₂ h₂
      apply update_steady
      · intro entries t' _ ht
        exact ⟨ht.parent, fun u hu => ht.uuids u (List.mem_of_mem_take hu)⟩
      · exact fun s₃ h₃ => hrest s₃ (h₂.trans h₃)
  · exact hrest s₁ ⟨List.prefix_refl _, h₁.inv⟩

theorem opening_steady {Q : Except Exn Unit → Scene → Prop} {branchId : String}
    (hQ : ∀ s', Grows c s s' → Q (.ok ()) s') :
    Steady out self c i (Branch.opening c branchId) Q s := by
  unfold Branch.opening
  apply (Prog.safe_bind _ _ _ _).mpr
  apply (Prog.safe_op _ _ _).mpr
  intro s₁ hr r s₂ he
  have hg : Grows c s₁ s₂ := quiet_step hr.inv he (by simp) (by simp)
  obtain ⟨-, -, hreply⟩ := exec_events he
  subst hreply
  refine ⟨hg, ?_⟩
  apply (Prog.safe_bind _ _ _ _).mpr
  unfold opened
  apply (Prog.safe_bind _ _ _ _).mpr
  apply now_steady
  intro n s₃ h₃
  apply (Prog.safe_op _ _ _).mpr
  intro s₄ hr₄ r₄ s₅ he₄
  have hg₄ : Grows c s₄ s₅ := quiet_step hr₄.inv he₄ (by simp) (by simp)
  obtain ⟨-, -, hreply⟩ := exec_events he₄
  subst hreply
  refine ⟨hg₄, ?_⟩
  have hlater : Grows c s₁ s₅ := ((hg.trans h₃).trans hr₄).trans hg₄
  have hmem : ∀ e ∈ activeBranch (s₁.world.transcript.read c), ∀ entries : List Entry,
      s₅.world.transcript.read c <+: entries → Present entries e.uuid := by
    intro e he entries hgrown
    have hpresent : Present (s₁.world.transcript.read c) e.uuid :=
      ⟨e, mem_walk (List.mem_reverse.mp he), rfl⟩
    exact hpresent.grown (hlater.front.trans hgrown)
  apply update_steady
  · intro entries t hgrown _
    constructor
    · intro u hu
      obtain ⟨e, he, rfl⟩ := Option.map_eq_some_iff.mp hu
      exact hmem e (List.mem_of_getLast? he) entries hgrown
    · intro u hu
      obtain ⟨e, he, rfl⟩ := List.mem_map.mp hu
      exact hmem e (List.mem_filter.mp he).1 entries hgrown
  · exact fun s₆ h₆ => hQ s₆ ((hr.trans hlater).trans h₆)

/-- Whatever a writer begins, its every step leaves the log sound, and only grown. -/
theorem begins_steady {p : Program Unit} (hi : Inv c s) (h : Begins c s p) :
    Steady out self c i p (fun _ _ => True) s := by
  cases h with
  | record message =>
    apply (Prog.safe_bind _ _ _ _).mpr
    exact record_steady (fun _ _ _ => trivial)
  | rewind leaf existing => exact rewind_steady existing (fun _ _ => trivial)
  | continuing parent existing =>
    apply update_steady _ (fun _ _ => trivial)
    intro entries t hgrown ht
    exact knows_setParent ht (fun u hu => (existing u hu).grown hgrown)
  | opening branchId => exact opening_steady (fun _ _ => trivial)
  | append messages => exact append_branch_steady (fun _ _ => trivial) hi
  | replace desired => exact replace_steady (fun _ _ => trivial)

theorem writers_grow {pool pool' : Nat → Program Unit} (hi : Inv c s)
    (hsafe : ∀ i, Steady out self c i (pool i) (fun _ _ => True) s)
    (run : Writers out self c pool s pool' s') :
    Grows c s s' ∧ ∀ i, Steady out self c i (pool' i) (fun _ _ => True) s' := by
  have hlater : ∀ {p : Program Unit} {i : Nat} {a b : Scene},
      Steady out self c i p (fun _ _ => True) a → Grows c a b →
      Steady out self c i p (fun _ _ => True) b :=
    fun h hg => Prog.safe_rely (fun _ _ _ => Grows.trans) (fun _ _ _ h _ => h) h hg
  induction run with
  | refl => exact ⟨⟨List.prefix_refl _, hi⟩, hsafe⟩
  | @begin pool' s' p run i start ih =>
    obtain ⟨hg, hs⟩ := ih
    refine ⟨hg, ?_⟩
    intro j
    by_cases hj : j = i
    · subst hj
      rw [Function.update_self]
      exact begins_steady hg.inv start
    · rw [Function.update_of_ne hj]
      exact hs j
  | @op pool' s' i o k r s'' run next done ih =>
    obtain ⟨hg, hs⟩ := ih
    have hcall := hs i
    rw [next] at hcall
    obtain ⟨hstep, hk⟩ := hcall s' ⟨List.prefix_refl _, hg.inv⟩ r s'' done
    refine ⟨hg.trans hstep, ?_⟩
    intro j
    by_cases hj : j = i
    · subst hj
      rw [Function.update_self]
      exact hk
    · rw [Function.update_of_ne hj]
      exact hlater (hs j) hstep
  | elsewhere run read branches ih =>
    obtain ⟨hg, hs⟩ := ih
    have hstep := hg.inv.same read branches
    exact ⟨hg.trans hstep, fun i => hlater (hs i) hstep⟩

/-- Where a fork from a cursor starts. -/
theorem forkHistory_eval {rt : AgentRuntime} {src : Execution} {uuid : Uuid}
    {messages : List ModelMessage} (ht : rt.transcript = true) (hsrc : src.conversation = c)
    (h : messagesAt (s.world.transcript.read c) (some uuid) = some messages) :
    ((rt.forkHistory src (some uuid) none).eval (Scene.perform out self i) s).1 = .ok messages := by
  subst hsrc
  unfold AgentRuntime.forkHistory
  simp only [ht, ↓reduceIte]
  simp [perform, Prog.op, Prog.eval, Scene.perform, step, h]

/-- A cursor is a stable coordinate: whatever is written to a conversation after one of its
messages, the history up to that message is what it was, and so is where a fork from it starts. -/
theorem cursor_stable {pool pool' : Nat → Program Unit} {s₀ : Scene} {e : Entry}
    (empty : s₀.world.transcript.read c = []) (fresh : ∀ i, (s₀.attempts i).branch = {})
    (before : Writers out self c (fun _ => .ret ()) s₀ pool s)
    (after : Writers out self c pool s pool' s')
    (he : e ∈ s.world.transcript.read c) (hm : e.message.isSome) :
    ∃ messages, messagesAt (s.world.transcript.read c) (some e.uuid) = some messages ∧
      messagesAt (s'.world.transcript.read c) (some e.uuid) = some messages ∧
      ∀ (rt : AgentRuntime) (src : Execution) (i : Nat), rt.transcript = true →
        src.conversation = c →
        ((rt.forkHistory src (some e.uuid) none).eval (Scene.perform out self i) s).1 =
          .ok messages ∧
        ((rt.forkHistory src (some e.uuid) none).eval (Scene.perform out self i) s').1 =
          .ok messages := by
  have hstart : Inv c s₀ := by
    refine ⟨by rw [empty]; exact sound_nil, ?_⟩
    intro i
    rw [fresh i]
    exact ⟨by simp, by simp⟩
  have hidle : ∀ i, Steady out self c i (.ret ()) (fun _ _ => True) s₀ := fun _ => trivial
  obtain ⟨hg, hs⟩ := writers_grow hstart hidle before
  obtain ⟨hg', -⟩ := writers_grow hg.inv hs after
  obtain ⟨more, hmore⟩ := hg'.front
  have hsound := hg'.inv.sound
  rw [← hmore] at hsound
  obtain ⟨messages, hold, hnew⟩ := messagesAt_front hsound he hm
  rw [hmore] at hnew
  refine ⟨messages, hold, hnew, ?_⟩
  intro rt src i ht hsrc
  exact ⟨forkHistory_eval ht hsrc hold, forkHistory_eval ht hsrc hnew⟩

/-- A writer that begins, and has its way until it ends. -/
theorem Writers.alone {pool pool' : Nat → Program Unit} {p : Program Unit}
    (run : Writers out self c pool s pool' s') (i : Nat) (start : Begins c s' p) :
    Writers out self c pool s
      (Function.update pool' i (.ofExcept (p.eval (Scene.perform out self i) s').1))
      (p.eval (Scene.perform out self i) s').2 := by
  have hgo : ∀ (p : Program Unit) (s' : Scene),
      Writers out self c pool s (Function.update pool' i p) s' →
      Writers out self c pool s
        (Function.update pool' i (.ofExcept (p.eval (Scene.perform out self i) s').1))
        (p.eval (Scene.perform out self i) s').2 := by
    intro p
    induction p with
    | ret a => exact fun _ run => run
    | raise e => exact fun _ run => run
    | call o k ih =>
      intro s' run
      have hstep := run.op (Function.update_self i _ _) (rfl : exec out self i o s' _ _)
      rw [Function.update_idem] at hstep
      exact ih _ _ hstep
  exact hgo p s' (run.begin i start)

end

def said (text : String) : ModelMessage := .response { parts := [.text text] }

/-- One writer has recorded a message. -/
def recorded : Scene :=
  ((Branch.append "run" [said "one"]).eval (Scene.perform unasked id 0) ⟨{}, fun _ => {}, []⟩).2

/-- It has given that up and written something else. -/
def rewritten : Scene :=
  ((Branch.replace "run" [said "two"]).eval (Scene.perform unasked id 0) recorded).2

theorem cursor_stable_rewritten :
    messagesOf (rewritten.world.transcript.read "run") = [said "two"] ∧
      ∃ messages, messagesAt (recorded.world.transcript.read "run")
          (some (.first (body (said "one")))) = some messages ∧
        messagesAt (rewritten.world.transcript.read "run")
          (some (.first (body (said "one")))) = some messages := by
  obtain ⟨pool, before⟩ : ∃ pool, Writers unasked id "run" (fun _ => .ret ())
      ⟨{}, fun _ => {}, []⟩ pool recorded := ⟨_, Writers.refl.alone 0 (.append [said "one"])⟩
  obtain ⟨pool', after⟩ : ∃ pool', Writers unasked id "run" pool recorded pool' rewritten :=
    ⟨_, Writers.refl.alone 0 (.replace [said "two"])⟩
  obtain ⟨messages, hold, hnew, -⟩ := cursor_stable rfl (fun _ => rfl) before after
    (e := messageEntry (said "one") "run" none 1) (by decide +kernel) rfl
  exact ⟨by decide +kernel, messages, hold, hnew⟩

end Semora.Proofs.Cursor
