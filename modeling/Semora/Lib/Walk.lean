import Mathlib.Data.Finset.Card
import Mathlib.Data.Finset.SDiff
import Mathlib.Data.List.Chain
import Mathlib.Logic.Relation

/-! Going from key to key along links that need not lead anywhere, never through one key twice. -/

namespace Semora.Lib

variable {κ α β : Type} [DecidableEq κ]

/-- Where such a walk is: the next key, the keys it has been through, what it has collected. -/
structure Walk (κ β : Type) where
  tip : Option κ
  seen : List κ := []
  branch : List β := []

section
variable (find : κ → Option α) (up : α → Option κ) (keep : κ → α → Option β)

/-- One more turn, unless the walk is over. -/
def Walk.turn (w : Walk κ β) : Option (Walk κ β) :=
  match w.tip with
  | none => none
  | some k =>
    if k ∈ w.seen then none
    else match find k with
    | none => none
    | some a => some ⟨up a, k :: w.seen, w.branch ++ (keep k a).toList⟩

/-- What a walk goes through, in at most so many turns. -/
def trail : Nat → Option κ → List κ → List (κ × α)
  | 0, _, _ => []
  | _, none, _ => []
  | n + 1, some k, seen =>
    if k ∈ seen then []
    else match find k with
    | none => []
    | some a => (k, a) :: trail n (up a) (k :: seen)

/-- Following links through nothing but skipped keys, one comes from here to this key. -/
inductive Past (skip : κ → Prop) : α → κ → Prop
  | link {a k} (next : up a = some k) : Past skip a k
  | skip {a k b k'} (next : up a = some k) (found : find k = some b) (skipped : skip k)
      (rest : Past skip b k') : Past skip a k'

end

section
variable {find : κ → Option α} {up : α → Option κ} {keep : κ → α → Option β} {keys : List κ}

theorem Walk.turn_some {w w' : Walk κ β} (h : w.turn find up keep = some w') :
    ∃ k a, w.tip = some k ∧ k ∉ w.seen ∧ find k = some a ∧
      w' = ⟨up a, k :: w.seen, w.branch ++ (keep k a).toList⟩ := by
  unfold turn at h
  split at h
  · cases h
  · rename_i k htip
    split at h
    · cases h
    · rename_i hnew
      split at h
      · cases h
      · rename_i a hfound
        exact ⟨k, a, htip, hnew, hfound, (Option.some.inj h).symm⟩

/-- Each turn takes one key that is found from those not yet gone through. -/
theorem fewer (hkeys : ∀ k a, find k = some a → k ∈ keys) {k : κ} {a : α} {seen : List κ}
    (hfound : find k = some a) (hnew : k ∉ seen) :
    (keys.toFinset \ (k :: seen).toFinset).card < (keys.toFinset \ seen.toFinset).card := by
  apply Finset.card_lt_card
  rw [Finset.ssubset_iff_of_subset]
  · refine ⟨k, ?_, ?_⟩
    · simp [hkeys k a hfound, hnew]
    · simp
  · intro x hx
    simp only [Finset.mem_sdiff, List.mem_toFinset, List.mem_cons, not_or] at hx ⊢
    exact ⟨hx.1, hx.2.2⟩

/-- No walk goes on for ever: the keys that are found run out. -/
theorem turns_wellFounded (hkeys : ∀ k a, find k = some a → k ∈ keys) :
    WellFounded (fun w' w : Walk κ β => w.turn find up keep = some w') := by
  apply Subrelation.wf _ (measure fun w : Walk κ β =>
    (keys.toFinset \ w.seen.toFinset).card).wf
  intro w' w h
  obtain ⟨k, a, -, hnew, hfound, rfl⟩ := Walk.turn_some h
  exact fewer hkeys hfound hnew

theorem trail_cons {n : Nat} {k : κ} {a : α} {seen : List κ} (hfound : find k = some a)
    (hnew : k ∉ seen) :
    trail find up (n + 1) (some k) seen = (k, a) :: trail find up n (up a) (k :: seen) := by
  simp only [trail, if_neg hnew, hfound]

/-- A walk that is over has nothing left to pass. -/
theorem trail_nil {w : Walk κ β} {n : Nat} (hend : w.turn find up keep = none) :
    trail find up n w.tip w.seen = [] := by
  obtain ⟨tip, seen, branch⟩ := w
  cases n with
  | zero => rfl
  | succ n =>
    cases tip with
    | none => rfl
    | some k =>
      simp only [Walk.turn] at hend
      simp only [trail]
      split
      · rfl
      · rename_i hnew
        rw [if_neg hnew] at hend
        cases hfound : find k with
        | none => rfl
        | some a => rw [hfound] at hend; cases hend

/-- Where a walk has come to its end, it has collected what it keeps of all its trail. -/
theorem collected (hkeys : ∀ k a, find k = some a → k ∈ keys) {w w' : Walk κ β} {n : Nat}
    (h : Relation.ReflTransGen (fun w w' : Walk κ β => w.turn find up keep = some w') w w')
    (hend : w'.turn find up keep = none) (hn : (keys.toFinset \ w.seen.toFinset).card ≤ n) :
    w'.branch = w.branch ++ (trail find up n w.tip w.seen).filterMap (fun p => keep p.1 p.2) := by
  induction h using Relation.ReflTransGen.head_induction_on generalizing n with
  | refl =>
    rw [trail_nil hend]
    simp
  | @head w₀ w₁ hturn _ ih =>
    obtain ⟨k, a, htip, hnew, hfound, rfl⟩ := Walk.turn_some hturn
    have hless := fewer hkeys hfound hnew
    cases n with
    | zero => omega
    | succ n =>
      have hn' : (keys.toFinset \ (k :: w₀.seen).toFinset).card ≤ n := by omega
      rw [ih hn', htip, trail_cons hfound hnew]
      cases hkept : keep k a with
      | none => simp [hkept]
      | some b => simp [hkept]

theorem mem_trail {n : Nat} {tip : Option κ} {seen : List κ} {p : κ × α}
    (h : p ∈ trail find up n tip seen) : find p.1 = some p.2 ∧ p.1 ∉ seen := by
  induction n generalizing tip seen with
  | zero => cases h
  | succ n ih =>
    cases tip with
    | none => cases h
    | some k =>
      simp only [trail] at h
      split at h
      · cases h
      · rename_i hnew
        split at h
        · cases h
        · rename_i a hfound
          rcases List.mem_cons.mp h with rfl | h
          · exact ⟨hfound, hnew⟩
          · obtain ⟨hp, hseen⟩ := ih h
            exact ⟨hp, fun hmem => hseen (List.mem_cons_of_mem _ hmem)⟩

theorem nodup_trail (n : Nat) (tip : Option κ) (seen : List κ) :
    ((trail find up n tip seen).map Prod.fst).Nodup := by
  induction n generalizing tip seen with
  | zero => exact List.nodup_nil
  | succ n ih =>
    cases tip with
    | none => exact List.nodup_nil
    | some k =>
      simp only [trail]
      split
      · exact List.nodup_nil
      · split
        · exact List.nodup_nil
        · rename_i a _
          refine List.nodup_cons.mpr ⟨?_, ih (up a) (k :: seen)⟩
          intro hmem
          obtain ⟨p, hp, hk⟩ := List.mem_map.mp hmem
          exact (mem_trail hp).2 (hk ▸ List.mem_cons_self)

/-- Each key trail is the one that the link before leads to. -/
theorem linked_trail (n : Nat) (tip : Option κ) (seen : List κ) :
    List.IsChain (fun p q : κ × α => up p.2 = some q.1) (trail find up n tip seen) ∧
      ∀ p ∈ (trail find up n tip seen).head?, tip = some p.1 := by
  induction n generalizing tip seen with
  | zero => exact ⟨.nil, fun p hp => nomatch hp⟩
  | succ n ih =>
    cases tip with
    | none => exact ⟨.nil, fun p hp => nomatch hp⟩
    | some k =>
      simp only [trail]
      split
      · exact ⟨.nil, fun p hp => nomatch hp⟩
      · split
        · exact ⟨.nil, fun p hp => nomatch hp⟩
        · rename_i a _
          obtain ⟨hchain, hhead⟩ := ih (up a) (k :: seen)
          refine ⟨List.isChain_cons.mpr ⟨fun q hq => hhead q hq, hchain⟩, ?_⟩
          rintro p hp
          cases hp
          rfl

omit [DecidableEq κ] in
/-- What is left when skipped keys are taken out is linked past them. -/
theorem isChain_filter (kept : κ → Bool) {p : κ × α} {items : List (κ × α)}
    (hfound : ∀ q ∈ items, find q.1 = some q.2)
    (h : List.IsChain (fun p q : κ × α => up p.2 = some q.1) (p :: items)) :
    List.IsChain (fun p q : κ × α => Past find up (fun k => kept k = false) p.2 q.1)
      (p :: items.filter (fun q => kept q.1)) := by
  induction items generalizing p with
  | nil => exact .singleton p
  | cons q items ih =>
    obtain ⟨hlink, hrest⟩ := List.isChain_cons_cons.mp h
    have hnext := ih (fun q hq => hfound q (List.mem_cons_of_mem _ hq)) hrest
    by_cases hkept : kept q.1 = true
    · rw [List.filter_cons_of_pos (by exact hkept)]
      exact List.isChain_cons_cons.mpr ⟨.link hlink, hnext⟩
    · rw [List.filter_cons_of_neg (by exact hkept)]
      obtain ⟨hhead, htail⟩ := List.isChain_cons.mp hnext
      refine List.isChain_cons.mpr ⟨fun r hr => ?_, htail⟩
      exact .skip hlink (hfound q List.mem_cons_self) (Bool.eq_false_iff.mpr hkept) (hhead r hr)

omit [DecidableEq κ] in
theorem past_filter (kept : κ → Bool) {items : List (κ × α)}
    (hfound : ∀ q ∈ items, find q.1 = some q.2)
    (h : List.IsChain (fun p q : κ × α => up p.2 = some q.1) items) :
    List.IsChain (fun p q : κ × α => Past find up (fun k => kept k = false) p.2 q.1)
      (items.filter (fun q => kept q.1)) := by
  induction items with
  | nil => exact .nil
  | cons p items ih =>
    have hrest : ∀ q ∈ items, find q.1 = some q.2 :=
      fun q hq => hfound q (List.mem_cons_of_mem _ hq)
    by_cases hkept : kept p.1 = true
    · rw [List.filter_cons_of_pos (by exact hkept)]
      exact isChain_filter kept hrest h
    · rw [List.filter_cons_of_neg (by exact hkept)]
      exact ih hrest (List.isChain_cons.mp h).2

end

end Semora.Lib
