import Semora.Effects.Boundary
import Semora.Store.Branches

/-! Two coordinates of one ledger: when what is done through one is never observed through the
other. -/

namespace Semora.Proofs.Isolation
open Semora.Lib Semora.Store

/-- A branch under a conversation, or under none. -/
structure Coordinate where
  view : View
  branchId : String
deriving DecidableEq

namespace Coordinate

/-- The name the ledger files the branch under. -/
def filed (k : Coordinate) : String := k.view.filed k.branchId

/-- A slash inside an id takes the place of the one between a conversation and a branch. -/
def Clashes : Coordinate → Coordinate → Prop
  | ⟨⟨none⟩, _⟩, ⟨⟨none⟩, _⟩ => False
  | ⟨⟨none⟩, b⟩, ⟨⟨some c'⟩, b'⟩ => b = c' ++ "/" ++ b'
  | ⟨⟨some c⟩, b⟩, ⟨⟨none⟩, b'⟩ => b' = c ++ "/" ++ b
  | ⟨⟨some c⟩, b⟩, ⟨⟨some c'⟩, b'⟩ =>
    ∃ x, (c' = c ++ "/" ++ x ∧ b = x ++ "/" ++ b') ∨ (c = c' ++ "/" ++ x ∧ b' = x ++ "/" ++ b)

theorem join_clash {c b c' b' : String} (h : c ++ "/" ++ b = c' ++ "/" ++ b') :
    (c = c' ∧ b = b') ∨
      ∃ x, (c' = c ++ "/" ++ x ∧ b = x ++ "/" ++ b') ∨ (c = c' ++ "/" ++ x ∧ b' = x ++ "/" ++ b) := by
  have hlist := congrArg String.toList h
  have hslash : "/".toList = ['/'] := rfl
  simp only [String.toList_append, List.append_assoc, hslash] at hlist
  have split : ∀ {c b c' b' : String} (a : List Char), c'.toList = c.toList ++ a →
      ['/'] ++ b.toList = a ++ (['/'] ++ b'.toList) →
      (c = c' ∧ b = b') ∨ ∃ x, c' = c ++ "/" ++ x ∧ b = x ++ "/" ++ b' := by
    intro c b c' b' a hc hb
    cases a with
    | nil =>
      rw [List.append_nil] at hc
      rw [List.nil_append, List.append_cancel_left_eq] at hb
      exact .inl ⟨(String.toList_inj.mp hc).symm, String.toList_inj.mp hb⟩
    | cons slash x =>
      obtain ⟨rfl, hx⟩ := List.cons.inj hb
      refine .inr ⟨String.ofList x, ?_, ?_⟩
      · apply String.toList_inj.mp
        simp [hc]
      · apply String.toList_inj.mp
        simpa using hx
  rcases List.append_eq_append_iff.mp hlist with ⟨a, hc, hb⟩ | ⟨a, hc, hb⟩
  · rcases split a hc hb with he | ⟨x, hx⟩
    · exact .inl he
    · exact .inr ⟨x, .inl hx⟩
  · rcases split a hc hb with ⟨rfl, rfl⟩ | ⟨x, hx⟩
    · exact .inl ⟨rfl, rfl⟩
    · exact .inr ⟨x, .inr hx⟩

/-- Two coordinates are filed under one name exactly when they clash. -/
theorem filed_eq_iff {k k' : Coordinate} (h : k ≠ k') : k.filed = k'.filed ↔ Clashes k k' := by
  obtain ⟨⟨c⟩, b⟩ := k
  obtain ⟨⟨c'⟩, b'⟩ := k'
  cases c with
  | none =>
    cases c' with
    | none =>
      refine ⟨fun he => h ?_, False.elim⟩
      change b = b' at he
      rw [he]
    | some c' => exact Iff.rfl
  | some c =>
    cases c' with
    | none => exact eq_comm
    | some c' =>
      constructor
      · intro he
        rcases join_clash he with ⟨rfl, rfl⟩ | hx
        · exact absurd rfl h
        · exact hx
      · rintro ⟨x, ⟨rfl, rfl⟩ | ⟨rfl, rfl⟩⟩ <;> simp [filed, View.filed, String.append_assoc]

end Coordinate

/-- A method of a view calls the same method of the ledger it views, under the filed name. -/
def through {V : Type} (v : View) : Call V → Call V
  | .read b k => .read (v.filed b) k
  | .start b k t => .start (v.filed b) k t
  | .finishEffect b k value t => .finishEffect (v.filed b) k value t
  | .writeControl b k value t => .writeControl (v.filed b) k value t
  | .forget b k t => .forget (v.filed b) k t
  | .acquire b owner ttl => .acquire (v.filed b) owner ttl
  | .release b owner => .release (v.filed b) owner
  | .enqueueInput b i value => .enqueueInput (v.filed b) i value
  | .listInputs b => .listInputs (v.filed b)
  | .claimInput b i t => .claimInput (v.filed b) i t
  | .admitInputs b is t => .admitInputs (v.filed b) is t
  | .discardInputs b is t => .discardInputs (v.filed b) is t
  | .commitTransition b transition t => .commitTransition (v.filed b) transition t

/-- One call made through a view, with the clock readings it was made at. -/
structure Use (V : Type) where
  view : View
  call : Call V
  now : ℚ
  now' : ℚ

namespace Use
variable {V : Type}

def coordinate (u : Use V) : Coordinate := ⟨u.view, u.call.branchId⟩

/-- The call as the ledger gets it. -/
def inner (u : Use V) : Call V := through u.view u.call

theorem inner_branchId (u : Use V) : u.inner.branchId = u.coordinate.filed := by
  obtain ⟨v, c, now, now'⟩ := u
  cases c <;> rfl

end Use

section
variable {V : Type} [BEq V]

/-- What a sequence of calls replies through one coordinate. -/
def observed (k : Coordinate) :
    MemorySteps V → List (Use V) → List ((c : Call V) × Except StoreError c.Reply)
  | _, [] => []
  | s, u :: us =>
    let done := u.inner.exec u.now u.now' s
    if u.coordinate = k then ⟨u.inner, done.1⟩ :: observed k done.2 us else observed k done.2 us

/-- What is observed through `k` is the same without the calls made through `k'`. -/
def Isolated (V : Type) [BEq V] (k k' : Coordinate) : Prop :=
  ∀ (s : MemorySteps V) (uses : List (Use V)),
    observed k s (uses.filter (fun u => u.coordinate ≠ k')) = observed k s uses

/-- Two ledgers that hold the same of the filed branch are observed alike, with or without the
calls filed elsewhere. -/
theorem observed_agree {k k' : Coordinate} (hfiled : k.filed ≠ k'.filed) {s s' : MemorySteps V}
    (h : Agree k.filed s s') (uses : List (Use V)) :
    observed k s' (uses.filter (fun u => u.coordinate ≠ k')) = observed k s uses := by
  induction uses generalizing s s' with
  | nil => rfl
  | cons u us ih =>
    have hother : u.inner.branchId ≠ k.filed →
        Agree k.filed (u.inner.exec u.now u.now' s).2 (u.inner.exec u.now u.now' s').2 := by
      intro hb
      exact (exec_other u.inner u.now u.now' s hb).symm.trans
        (h.trans (exec_other u.inner u.now u.now' s' hb))
    by_cases hk' : u.coordinate = k'
    · -- A call through `k'`: one run makes it, the other does not.
      have hb : u.inner.branchId ≠ k.filed := by
        rw [u.inner_branchId, hk']
        exact Ne.symm hfiled
      have hk : u.coordinate ≠ k := by
        rintro rfl
        exact hfiled (congrArg Coordinate.filed hk')
      simp only [List.filter_cons, hk', ne_eq, not_true_eq_false, decide_false, Bool.false_eq_true,
        ↓reduceIte]
      rw [observed, if_neg hk]
      exact ih ((exec_other u.inner u.now u.now' s hb).symm.trans h)
    · simp only [List.filter_cons, hk', ne_eq, not_false_eq_true, decide_true, ↓reduceIte, observed]
      by_cases hb : u.inner.branchId = k.filed
      · obtain ⟨hreply, hstate⟩ := exec_agree u.inner u.now u.now' (hb ▸ h)
        rw [hreply, ih (hb ▸ hstate)]
      · have hk : u.coordinate ≠ k := by
          rintro rfl
          exact hb u.inner_branchId
        rw [if_neg hk, if_neg hk]
        exact ih (hother hb)

/-- What the reply to a read says of its step. -/
def told : ((c : Call V) × Except StoreError c.Reply) → String
  | ⟨.read _ _, .ok step⟩ => step.status
  | _ => ""

/-- Two branch coordinates of one ledger are isolated from each other if and only if they do not
clash. -/
theorem isolated_iff (k k' : Coordinate) (distinct : k ≠ k') :
    Isolated V k k' ↔ ¬ k.Clashes k' := by
  rw [← Coordinate.filed_eq_iff distinct]
  constructor
  · intro h hfiled
    -- An intent filed through `k'` is found through `k`.
    have hone := h {} [⟨k'.view, .start k'.branchId "" 0, 0, 0⟩, ⟨k.view, .read k.branchId "", 0, 0⟩]
    have hk' : Use.coordinate (V := V) ⟨k'.view, .start k'.branchId "" 0, 0, 0⟩ = k' := rfl
    have hk : Use.coordinate (V := V) ⟨k.view, .read k.branchId "", 0, 0⟩ = k := rfl
    simp only [List.filter_cons, hk', hk, ne_eq, not_true_eq_false, decide_false,
      Bool.false_eq_true, ↓reduceIte, distinct, not_false_eq_true, decide_true, List.filter_nil,
      observed, Ne.symm distinct] at hone
    simp only [Use.inner, through, Call.exec] at hone
    have hstep := congrArg (fun replies => replies.map told) hone
    change k.view.filed k.branchId = k'.view.filed k'.branchId at hfiled
    rw [hfiled] at hstep
    simp [told, MemorySteps.read, MemorySteps.step, MemorySteps.start, MemorySteps.fenced,
      MemorySteps.fence, MemorySteps.put, Step.status] at hstep
  · intro hfiled s uses
    exact observed_agree hfiled (.refl _ s) uses

end

/-- A branch id, in a conversation and in none. -/
theorem isolated_iff_named :
    Isolated Value ⟨⟨some "customer"⟩, "refund"⟩ ⟨⟨none⟩, "refund"⟩ ↔
      ¬ Coordinate.Clashes ⟨⟨some "customer"⟩, "refund"⟩ ⟨⟨none⟩, "refund"⟩ :=
  isolated_iff _ _ (by decide)

/-- Two distinct coordinates of non-empty ids are not always isolated. -/
theorem not_always_isolated :
    ¬ ∀ k k' : Coordinate, k ≠ k' → k.branchId ≠ "" → k'.branchId ≠ "" →
      k.view.conversationId ≠ some "" → k'.view.conversationId ≠ some "" → Isolated Value k k' := by
  intro h
  have hone := h ⟨⟨some "a"⟩, "b/c"⟩ ⟨⟨some "a/b"⟩, "c"⟩ (by decide) (by decide) (by decide)
    (by decide) (by decide) {} [⟨⟨some "a/b"⟩, .start "c" "tool:1" 0, 0, 0⟩,
      ⟨⟨some "a"⟩, .read "b/c" "tool:1", 0, 0⟩]
  have hlost := congrArg (fun replies => replies.map told) hone
  revert hlost
  decide +kernel

end Semora.Proofs.Isolation
