import Semora.Lib.Walk
import Semora.Transcript.Entries

/-! Resolving a branch of any log at all: entries may share a uuid, hang under nothing or under one
another in a circle, and markers may stand anywhere. -/

namespace Semora.Proofs.Resolution
open Semora.Lib Semora.Transcript

variable (entries : List Entry)

def parent (e : Entry) : Option Uuid := e.parentUuid.getD none

/-- One turn of the loop of `active_branch`. -/
def activeTurn : Walk Uuid Entry → Option (Walk Uuid Entry) :=
  Walk.turn (chained entries) parent (fun uuid e => if buried entries uuid then none else some e)

/-- One turn of the loop of `messages_at`. -/
def messagesTurn : Walk Uuid ModelMessage → Option (Walk Uuid ModelMessage) :=
  Walk.turn (chained entries) parent (fun uuid e => if buried entries uuid then none else e.message)

/-- The uuids that a walk can go through. -/
def keys : List Uuid := entries.map Entry.uuid

/-- Loops that end with this, and always end. -/
structure Ends {β : Type} (turn : Walk Uuid β → Option (Walk Uuid β)) (start : Walk Uuid β)
    (result : List β) : Prop where
  terminates : WellFounded (fun w' w => turn w = some w')
  returns : ∀ w, Relation.ReflTransGen (fun w w' => turn w = some w') start w → turn w = none →
    w.branch.reverse = result

/-- A branch, oldest first: no uuid twice and none that is buried, and each entry reached from the
next one through buried entries only. -/
structure Sound (branch : List Entry) : Prop where
  nodup : (branch.map Entry.uuid).Nodup
  held : ∀ e ∈ branch, chained entries e.uuid = some e
  visible : ∀ e ∈ branch, buried entries e.uuid = false
  linked : List.IsChain (fun older newer =>
    Past (chained entries) parent (fun uuid => buried entries uuid = true) newer older.uuid) branch

variable {entries}

theorem chained_some {uuid : Uuid} {e : Entry} (h : chained entries uuid = some e) :
    e ∈ entries ∧ e.uuid = uuid := by
  obtain ⟨hmem, hid⟩ := And.intro (List.mem_of_find?_eq_some h) (List.find?_some h)
  rw [List.mem_reverse, List.mem_filter] at hmem
  exact ⟨hmem.1, of_decide_eq_true hid⟩

theorem mem_keys (uuid : Uuid) (e : Entry) (h : chained entries uuid = some e) :
    uuid ∈ keys entries := by
  obtain ⟨hmem, rfl⟩ := chained_some h
  exact List.mem_map_of_mem hmem

/-- The walk keeps what is not buried of all that it passes. -/
theorem walk_trail (n : Nat) (tip : Option Uuid) (seen : List Uuid) :
    walk entries n tip seen =
      ((trail (chained entries) parent n tip seen).filter
        (fun p => !buried entries p.1)).map Prod.snd := by
  induction n generalizing tip seen with
  | zero => rfl
  | succ n ih =>
    cases tip with
    | none => rfl
    | some uuid =>
      by_cases hseen : uuid ∈ seen
      · simp [walk, trail, hseen]
      · cases hfound : chained entries uuid with
        | none => simp [walk, trail, hseen, hfound]
        | some e =>
          rw [trail_cons hfound hseen]
          simp only [walk, hseen, ↓reduceIte, hfound]
          rw [ih, parent]
          cases hburied : buried entries uuid with
          | true => simp [hburied]
          | false => simp [hburied]

theorem card_keys (seen : List Uuid) :
    ((keys entries).toFinset \ seen.toFinset).card ≤ entries.length :=
  calc ((keys entries).toFinset \ seen.toFinset).card
      ≤ (keys entries).toFinset.card := Finset.card_le_card Finset.sdiff_subset
    _ ≤ (keys entries).length := List.toFinset_card_le _
    _ = entries.length := List.length_map _

theorem filter_kept {β : Type} (f : Entry → Option β) (items : List (Uuid × Entry)) :
    items.filterMap (fun p => if buried entries p.1 then none else f p.2) =
      ((items.filter (fun p => !buried entries p.1)).map Prod.snd).filterMap f := by
  induction items with
  | nil => rfl
  | cons p items ih =>
    cases hburied : buried entries p.1 with
    | true => simp [hburied, ih]
    | false =>
      cases hf : f p.2 with
      | none => simp [hburied, hf, ih]
      | some b => simp [hburied, hf, ih]

/-- A loop that keeps something of each entry not buried ends with that of the walk. -/
theorem ends_walk {β : Type} (f : Entry → Option β) (tip : Option Uuid) :
    Ends (Walk.turn (chained entries) parent
        (fun uuid e => if buried entries uuid then none else f e)) ⟨tip, [], []⟩
      ((walk entries entries.length tip []).reverse.filterMap f) where
  terminates := turns_wellFounded mem_keys
  returns := by
    intro w hreach hend
    have hbranch := collected mem_keys hreach hend (card_keys [])
    rw [filter_kept f, List.nil_append, ← walk_trail] at hbranch
    rw [hbranch, List.filterMap_reverse]

theorem sound_walk (n : Nat) (tip : Option Uuid) :
    Sound entries (walk entries n tip []).reverse := by
  have hfound : ∀ p ∈ trail (chained entries) parent n tip [],
      chained entries p.1 = some p.2 := fun p hp => (mem_trail hp).1
  have hkey : ∀ p ∈ trail (chained entries) parent n tip [], p.2.uuid = p.1 :=
    fun p hp => (chained_some (hfound p hp)).2
  have hkept : ∀ e ∈ walk entries n tip [],
      chained entries e.uuid = some e ∧ buried entries e.uuid = false := by
    intro e he
    rw [walk_trail] at he
    obtain ⟨p, hp, rfl⟩ := List.mem_map.mp he
    obtain ⟨hmem, hvisible⟩ := List.mem_filter.mp hp
    rw [hkey p hmem]
    exact ⟨hfound p hmem, Bool.not_eq_true' _ ▸ hvisible⟩
  refine ⟨?_, fun e he => (hkept e (List.mem_reverse.mp he)).1,
    fun e he => (hkept e (List.mem_reverse.mp he)).2, ?_⟩
  · rw [List.map_reverse, List.nodup_reverse, walk_trail, List.map_map]
    have hsame : List.map (Entry.uuid ∘ Prod.snd)
          ((trail (chained entries) parent n tip []).filter (fun p => !buried entries p.1)) =
        List.map Prod.fst
          ((trail (chained entries) parent n tip []).filter (fun p => !buried entries p.1)) :=
      List.map_congr_left (fun p hp => hkey p (List.mem_of_mem_filter hp))
    rw [hsame]
    exact (nodup_trail n tip []).sublist (List.filter_sublist.map Prod.fst)
  · rw [List.isChain_reverse, walk_trail]
    have hskip : (fun uuid => (!buried entries uuid) = false) =
        (fun uuid => buried entries uuid = true) := by
      funext uuid
      simp
    have hchain := past_filter (fun uuid => !buried entries uuid) hfound (linked_trail n tip []).1
    rw [hskip] at hchain
    rw [List.isChain_map]
    refine hchain.imp_of_mem_imp (fun p q _ hq hpast => ?_)
    rw [hkey q (List.mem_of_mem_filter hq)]
    exact hpast

theorem messagesAt_walk (leaf : Option Uuid) :
    messagesAt entries leaf =
      if leaf.all (fun uuid => (chained entries uuid).isSome) then
        some ((walk entries entries.length leaf []).reverse.filterMap Entry.message)
      else none := by
  cases leaf with
  | none => cases entries <;> rfl
  | some uuid =>
    simp only [messagesAt, Option.all_some]
    by_cases hchained : (chained entries uuid).isSome
    · rw [if_pos hchained, if_neg (by simpa [Option.isSome_iff_ne_none] using hchained)]
    · rw [if_neg hchained, if_pos (by simpa using hchained)]

section
variable (entries)

/-- Where the `leaf` markers stand. -/
def marks : List Nat := (entries.zipIdx.filter (fun p => p.1.type = .leaf)).map Prod.snd

/-- The chained entries behind the latest marker. -/
def grown : List Uuid :=
  ((entries.drop (((marks entries).getLast?.map (· + 1)).getD 0)).filter
    (fun e => e.parentUuid.isSome)).map Entry.uuid

end

theorem marks_append (e : Entry) :
    marks (entries ++ [e]) =
      marks entries ++ (if e.type = .leaf then [entries.length] else []) := by
  unfold marks
  rw [List.zipIdx_append, List.filter_append, List.map_append]
  by_cases htype : e.type = .leaf <;> simp [htype]

theorem marks_lt {position : Nat} (h : position ∈ marks entries) : position < entries.length := by
  obtain ⟨p, hp, rfl⟩ := List.mem_map.mp h
  obtain ⟨-, hlt, -⟩ := List.mem_zipIdx (List.mem_of_mem_filter hp)
  omega

/-- The tip is the latest chained entry behind the latest marker, or else what that names. -/
theorem tip_marks (entries : List Entry) :
    tip entries =
      (grown entries).getLast?.or
        ((marks entries).getLast?.bind
          (fun position => (entries[position]?).bind Entry.leafUuid)) := by
  induction entries using List.reverseRecOn with
  | nil => rfl
  | append_singleton entries e ih =>
    by_cases htype : e.type = .leaf
    · have hmarks : (marks (entries ++ [e])).getLast? = some entries.length := by
        simp [marks_append, htype]
      have hgrown : grown (entries ++ [e]) = [] := by
        simp [grown, hmarks]
      simp [tip_append_leaf htype, hmarks, hgrown]
    · have hmarks : marks (entries ++ [e]) = marks entries := by
        simp [marks_append, htype]
      have hbound : ((marks entries).getLast?.map (· + 1)).getD 0 ≤ entries.length := by
        cases hlast : (marks entries).getLast? with
        | none => simp
        | some position =>
          have := marks_lt (List.mem_of_getLast? hlast)
          exact this
      have hgrown : grown (entries ++ [e]) =
          grown entries ++ (if e.parentUuid.isSome then [e.uuid] else []) := by
        unfold grown
        rw [hmarks, List.drop_append_of_le_length hbound, List.filter_append, List.map_append]
        by_cases hparent : e.parentUuid.isSome <;> simp [hparent]
      rw [hmarks, hgrown]
      by_cases hparent : e.parentUuid.isSome
      · simp [tip, tipBack, htype, hparent]
      · have htip : tip (entries ++ [e]) = tip entries := by
          simp [tip, tipBack, htype, hparent]
        rw [htip, ih, if_neg hparent, List.append_nil]
        cases hlast : (marks entries).getLast? with
        | none => rfl
        | some position =>
          have := marks_lt (List.mem_of_getLast? hlast)
          rw [Option.bind_some, Option.bind_some, List.getElem?_append_left this]

/-- What resolving a log comes to. -/
structure Resolves (entries : List Entry) : Prop where
  active : Ends (activeTurn entries) ⟨tip entries, [], []⟩ (activeBranch entries)
  sound : Sound entries (activeBranch entries)
  /-- A cursor's messages are those of such a branch too, unless it names no chained entry. -/
  messages : ∀ leaf, ∃ branch, Sound entries branch ∧
    Ends (messagesTurn entries) ⟨leaf, [], []⟩ (branch.filterMap Entry.message) ∧
    messagesAt entries leaf =
      if leaf.all (fun uuid => (chained entries uuid).isSome) then
        some (branch.filterMap Entry.message)
      else none
  same : (tip entries).all (fun uuid => (chained entries uuid).isSome) = true →
    messagesAt entries (tip entries) = some (messagesOf entries)

/-- The branch of any log is resolved, from any cursor, whatever its links and markers are. -/
theorem resolves (entries : List Entry) : Resolves entries where
  active := by
    have hends : Ends (activeTurn entries) _ _ := ends_walk some (tip entries)
    rw [List.filterMap_some] at hends
    exact hends
  sound := sound_walk entries.length (tip entries)
  messages := fun leaf => ⟨_, sound_walk entries.length leaf, ends_walk Entry.message leaf,
    messagesAt_walk leaf⟩
  same := by
    intro htip
    rw [messagesAt_walk, if_pos htip]
    rfl

end Semora.Proofs.Resolution
