import Mathlib.Logic.Function.Basic
import Mathlib.Logic.Relation

/-! A round of questions: asked together, answered one by one in any order, acted upon once each
has an answer. -/

namespace Semora.Lib

variable {Q A β γ : Type}

/-- How far the round asked last has come; of one that is over a tag is left. -/
inductive Stage (β γ Q A : Type)
  | idle
  | asked (round : β) (answers : Q → Option A) (acting : Bool)
  | ended (tag : γ)

namespace Stage

/-- What is done with a round that has been asked. -/
inductive Goes [DecidableEq Q] (questions : β → List Q) (tag : β → γ) :
    Stage β γ Q A → Stage β γ Q A → Prop
  | answer (round : β) (answers : Q → Option A) (acting : Bool) (q : Q) (a : A)
      (mem : q ∈ questions round) :
      Goes questions tag (asked round answers acting)
        (asked round (Function.update answers q (some a)) acting)
  | act (round : β) (answers : Q → Option A) (acting : Bool)
      (answered : ∀ q ∈ questions round, answers q ≠ none) :
      Goes questions tag (asked round answers acting) (asked round answers true)
  | finish (round : β) (answers : Q → Option A) :
      Goes questions tag (asked round answers true) (ended (tag round))

/-- A round goes on, or another is asked in its place. -/
inductive Move [DecidableEq Q] (questions : β → List Q) (tag : β → γ) :
    Stage β γ Q A → Stage β γ Q A → Prop
  | goes {before after : Stage β γ Q A} (h : Goes questions tag before after) :
      Move questions tag before after
  | ask (before : Stage β γ Q A) (round : β) :
      Move questions tag before (asked round (fun _ => none) false)

/-- Only questions of the round have answers, and all of them where it is acted upon. -/
def Sound (questions : β → List Q) : Stage β γ Q A → Prop
  | asked round answers acting => (∀ q, answers q ≠ none → q ∈ questions round) ∧
      (acting = true → ∀ q ∈ questions round, answers q ≠ none)
  | _ => True

/-- Where a round is, or is over, that stood at a stage with some answers. -/
def Onto (tag : β → γ) (round : β) (answers : Q → Option A) (acting : Bool) :
    Stage β γ Q A → Prop
  | idle => False
  | asked round' answers' acting' => round' = round ∧ (∀ q, answers q ≠ none → answers' q ≠ none) ∧
      (acting = true → acting' = true)
  | ended closed => closed = tag round

section
variable [DecidableEq Q] {questions : β → List Q} {tag : β → γ} {before after : Stage β γ Q A}

theorem Move.sound (h : Move questions tag before after) (hs : before.Sound questions) :
    after.Sound questions := by
  cases h with
  | ask round => exact ⟨fun q hq => absurd rfl hq, fun h => by cases h⟩
  | goes h =>
    cases h with
    | answer round answers acting q a mem =>
      obtain ⟨hown, hall⟩ := hs
      have hupdate : ∀ q', Function.update answers q (some a) q' ≠ none →
          q' = q ∨ answers q' ≠ none := by
        intro q' h
        by_cases hq : q' = q
        · exact .inl hq
        · rw [Function.update_of_ne hq] at h
          exact .inr h
      refine ⟨fun q' hq' => ?_, fun hacting q' hq' => ?_⟩
      · rcases hupdate q' hq' with rfl | hold
        · exact mem
        · exact hown q' hold
      · by_cases hq : q' = q
        · subst hq
          rw [Function.update_self]
          simp
        · rw [Function.update_of_ne hq]
          exact hall hacting q' hq'
    | act round answers acting answered => exact ⟨hs.1, fun _ => answered⟩
    | finish round answers => trivial

/-- However a round goes on, no answer of it is lost. -/
theorem Goes.onto {round : β} {answers : Q → Option A} {acting : Bool}
    (h : Goes questions tag before after) (hb : before.Onto tag round answers acting) :
    after.Onto tag round answers acting := by
  cases h with
  | answer round' answers' acting' q a mem =>
    obtain ⟨hround, hkept, hacting⟩ := hb
    refine ⟨hround, fun q' hq' => ?_, hacting⟩
    by_cases hq : q' = q
    · subst hq
      rw [Function.update_self]
      simp
    · rw [Function.update_of_ne hq]
      exact hkept q' hq'
  | act round' answers' acting' answered => exact ⟨hb.1, hb.2.1, fun _ => rfl⟩
  | finish round' answers' => exact congrArg tag hb.1

theorem onto_path {round : β} {answers : Q → Option A} {acting : Bool}
    (path : Relation.ReflTransGen (Goes questions tag) (asked round answers acting) after) :
    after.Onto tag round answers acting := by
  induction path with
  | refl => exact ⟨rfl, fun _ h => h, fun h => h⟩
  | tail _ h ih => exact h.onto ih

end

end Stage

end Semora.Lib
