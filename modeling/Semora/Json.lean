import Mathlib.Data.List.Sort
import Mathlib.Data.Rat.Defs
import Mathlib.Algebra.Order.Ring.Unbundled.Rat
import Semora.Lib.Dict

/-! JSON values as Python holds them. -/

namespace Semora
open Semora.Lib

/-- A JSON value. A dictionary keeps its items in insertion order. -/
inductive Json
  | null
  | bool (b : Bool)
  | int (n : Int)
  | float (q : ℚ)
  | str (s : String)
  | list (items : List Json)
  | dict (items : List (String × Json))

namespace Json

mutual
def decEq : (a b : Json) → Decidable (a = b)
  | null, null => isTrue rfl
  | bool a, bool b => decidable_of_iff (a = b) (by simp)
  | int a, int b => decidable_of_iff (a = b) (by simp)
  | float a, float b => decidable_of_iff (a = b) (by simp)
  | str a, str b => decidable_of_iff (a = b) (by simp)
  | list a, list b =>
    match decEqList a b with
    | isTrue h => isTrue (by rw [h])
    | isFalse h => isFalse (by simpa using h)
  | dict a, dict b =>
    match decEqItems a b with
    | isTrue h => isTrue (by rw [h])
    | isFalse h => isFalse (by simpa using h)
  | null, bool _ | null, int _ | null, float _ | null, str _ | null, list _ | null, dict _
  | bool _, null | bool _, int _ | bool _, float _ | bool _, str _ | bool _, list _
  | bool _, dict _ | int _, null | int _, bool _ | int _, float _ | int _, str _ | int _, list _
  | int _, dict _ | float _, null | float _, bool _ | float _, int _ | float _, str _
  | float _, list _ | float _, dict _ | str _, null | str _, bool _ | str _, int _
  | str _, float _ | str _, list _ | str _, dict _ | list _, null | list _, bool _
  | list _, int _ | list _, float _ | list _, str _ | list _, dict _ | dict _, null
  | dict _, bool _ | dict _, int _ | dict _, float _ | dict _, str _ | dict _, list _ =>
    isFalse (by simp)

def decEqList : (a b : List Json) → Decidable (a = b)
  | [], [] => isTrue rfl
  | [], _ :: _ => isFalse (by simp)
  | _ :: _, [] => isFalse (by simp)
  | x :: xs, y :: ys =>
    match decEq x y, decEqList xs ys with
    | isTrue h, isTrue h' => isTrue (by rw [h, h'])
    | isFalse h, _ => isFalse (by simp [h])
    | _, isFalse h => isFalse (by simp [h])

def decEqItems : (a b : List (String × Json)) → Decidable (a = b)
  | [], [] => isTrue rfl
  | [], _ :: _ => isFalse (by simp)
  | _ :: _, [] => isFalse (by simp)
  | (k, x) :: xs, (k', y) :: ys =>
    if hk : k = k' then
      match decEq x y, decEqItems xs ys with
      | isTrue h, isTrue h' => isTrue (by rw [hk, h, h'])
      | isFalse h, _ => isFalse (by simp [h])
      | _, isFalse h => isFalse (by simp [h])
    else isFalse (by simp [hk])
end

instance : DecidableEq Json := decEq

mutual
/-- Drop the items whose key is in `volatile`, at every depth. -/
def without (volatile : List String) : Json → Json
  | list items => list (withoutList volatile items)
  | dict items => dict (withoutItems volatile items)
  | value => value

def withoutList (volatile : List String) : List Json → List Json
  | [] => []
  | item :: items => without volatile item :: withoutList volatile items

def withoutItems (volatile : List String) : List (String × Json) → List (String × Json)
  | [] => []
  | (k, v) :: items =>
    if k ∈ volatile then withoutItems volatile items
    else (k, without volatile v) :: withoutItems volatile items
end

/-- Put one item where its key belongs among sorted items. -/
def place (k : String) (v : Json) : List (String × Json) → List (String × Json)
  | [] => [(k, v)]
  | (k', v') :: items => if k ≤ k' then (k, v) :: (k', v') :: items else (k', v') :: place k v items

mutual
/-- The value with every dictionary sorted by key: what `json.dumps(sort_keys=True)` prints. -/
def canonical : Json → Json
  | list items => list (canonicalList items)
  | dict items => dict (canonicalItems items)
  | value => value

def canonicalList : List Json → List Json
  | [] => []
  | item :: items => canonical item :: canonicalList items

def canonicalItems : List (String × Json) → List (String × Json)
  | [] => []
  | (k, v) :: items => place k (canonical v) (canonicalItems items)
end

mutual
/-- The value with every number written as a fraction: `True == 1 == 1.0` in Python. -/
def numeral : Json → Json
  | bool b => float (if b then 1 else 0)
  | int n => float n
  | list items => list (numeralList items)
  | dict items => dict (numeralItems items)
  | value => value

def numeralList : List Json → List Json
  | [] => []
  | item :: items => numeral item :: numeralList items

def numeralItems : List (String × Json) → List (String × Json)
  | [] => []
  | (k, v) :: items => (k, numeral v) :: numeralItems items
end

theorem numeralItems_place (k : String) (v : Json) (items : List (String × Json)) :
    numeralItems (place k v items) = place k (numeral v) (numeralItems items) := by
  induction items with
  | nil => rfl
  | cons item items ih =>
    obtain ⟨k', v'⟩ := item
    simp only [place, numeralItems]
    split
    · rfl
    · simp only [numeralItems, ih]

mutual
theorem canonical_numeral : (x : Json) → canonical (numeral x) = numeral (canonical x)
  | null | bool _ | int _ | float _ | str _ => rfl
  | list items => congrArg list (canonicalList_numeral items)
  | dict items => congrArg dict (canonicalItems_numeral items)

theorem canonicalList_numeral :
    (xs : List Json) → canonicalList (numeralList xs) = numeralList (canonicalList xs)
  | [] => rfl
  | x :: xs => by
    simp only [canonicalList, numeralList, canonical_numeral x, canonicalList_numeral xs]

theorem canonicalItems_numeral : (xs : List (String × Json)) →
    canonicalItems (numeralItems xs) = numeralItems (canonicalItems xs)
  | [] => rfl
  | (k, x) :: xs => by
    simp only [canonicalItems, numeralItems, numeralItems_place, canonical_numeral x,
      canonicalItems_numeral xs]
end

/-- Python's `==`: numbers by value, dictionaries in any order. -/
def eqv (a b : Json) : Prop := canonical (numeral a) = canonical (numeral b)

instance (a b : Json) : Decidable (eqv a b) := inferInstanceAs (Decidable (_ = _))

theorem eqv_of_canonical {a b : Json} (h : canonical a = canonical b) : eqv a b := by
  unfold eqv
  rw [canonical_numeral, canonical_numeral, h]

mutual
/-- The values differ by items under `volatile` keys only, at whatever depth: items that one has
and the other lacks, or has otherwise. -/
inductive Alike (volatile : List String) : Json → Json → Prop
  | refl (value : Json) : Alike volatile value value
  | list {xs ys : List Json} (items : AlikeList volatile xs ys) : Alike volatile (list xs) (list ys)
  | dict {xs ys : List (String × Json)} (items : AlikeItems volatile xs ys) :
    Alike volatile (dict xs) (dict ys)

inductive AlikeList (volatile : List String) : List Json → List Json → Prop
  | nil : AlikeList volatile [] []
  | cons {x y : Json} {xs ys : List Json} (item : Alike volatile x y)
    (rest : AlikeList volatile xs ys) : AlikeList volatile (x :: xs) (y :: ys)

inductive AlikeItems (volatile : List String) :
    List (String × Json) → List (String × Json) → Prop
  | nil : AlikeItems volatile [] []
  | keep {k : String} {x y : Json} {xs ys : List (String × Json)} (value : Alike volatile x y)
    (rest : AlikeItems volatile xs ys) : AlikeItems volatile ((k, x) :: xs) ((k, y) :: ys)
  | left {k : String} {x : Json} {xs ys : List (String × Json)} (dropped : k ∈ volatile)
    (rest : AlikeItems volatile xs ys) : AlikeItems volatile ((k, x) :: xs) ys
  | right {k : String} {y : Json} {xs ys : List (String × Json)} (dropped : k ∈ volatile)
    (rest : AlikeItems volatile xs ys) : AlikeItems volatile xs ((k, y) :: ys)
end

section
variable {volatile : List String}

mutual
theorem Alike.without {x y : Json} : Alike volatile x y → without volatile x = without volatile y
  | .refl _ => rfl
  | .list items => congrArg Json.list items.without
  | .dict items => congrArg Json.dict items.without

theorem AlikeList.without {xs ys : List Json} :
    AlikeList volatile xs ys → withoutList volatile xs = withoutList volatile ys
  | .nil => rfl
  | .cons item rest => by simp only [withoutList, item.without, rest.without]

theorem AlikeItems.without {xs ys : List (String × Json)} :
    AlikeItems volatile xs ys → withoutItems volatile xs = withoutItems volatile ys
  | .nil => rfl
  | .keep value rest => by simp only [withoutItems, value.without, rest.without]
  | .left dropped rest => by simp only [withoutItems, dropped, if_true, rest.without]
  | .right dropped rest => by simp only [withoutItems, dropped, if_true, rest.without]
end

mutual
theorem alike_of_without : (x y : Json) → without volatile x = without volatile y →
    Alike volatile x y
  | .list xs, .list ys, h => .list (alikeList_of_without xs ys (Json.list.inj h))
  | .dict xs, .dict ys, h => .dict (alikeItems_of_without xs ys (Json.dict.inj h))
  | .null, y, h | .bool _, y, h | .int _, y, h | .float _, y, h | .str _, y, h => by
    cases y <;> simp_all [Json.without, Alike.refl]
  | .list _, .null, h | .list _, .bool _, h | .list _, .int _, h | .list _, .float _, h
  | .list _, .str _, h | .list _, .dict _, h | .dict _, .null, h | .dict _, .bool _, h
  | .dict _, .int _, h | .dict _, .float _, h | .dict _, .str _, h | .dict _, .list _, h => by
    simp [Json.without] at h

theorem alikeList_of_without : (xs ys : List Json) →
    withoutList volatile xs = withoutList volatile ys → AlikeList volatile xs ys
  | [], [], _ => .nil
  | x :: xs, y :: ys, h => by
    simp only [withoutList, List.cons.injEq] at h
    exact .cons (alike_of_without x y h.1) (alikeList_of_without xs ys h.2)
  | [], _ :: _, h | _ :: _, [], h => by simp [withoutList] at h

theorem alikeItems_of_without : (xs ys : List (String × Json)) →
    withoutItems volatile xs = withoutItems volatile ys → AlikeItems volatile xs ys
  | [], [], _ => .nil
  | (k, x) :: xs, ys, h => by
    by_cases hk : k ∈ volatile
    · simp only [withoutItems, hk, if_true] at h
      exact .left hk (alikeItems_of_without xs ys h)
    · match ys with
      | [] => simp [withoutItems, hk] at h
      | (k', y) :: ys =>
        by_cases hk' : k' ∈ volatile
        · simp only [withoutItems, hk', if_true] at h
          exact .right hk' (alikeItems_of_without ((k, x) :: xs) ys (by simpa [withoutItems] using h))
        · simp only [withoutItems, hk, hk', if_false, List.cons.injEq, Prod.mk.injEq] at h
          obtain ⟨⟨rfl, hv⟩, hrest⟩ := h
          exact .keep (alike_of_without x y hv) (alikeItems_of_without xs ys hrest)
  | [], (k, y) :: ys, h => by
    by_cases hk : k ∈ volatile
    · simp only [withoutItems, hk, if_true] at h
      exact .right hk (alikeItems_of_without [] ys h)
    · simp [withoutItems, hk] at h
end

theorem alike_iff {x y : Json} : Alike volatile x y ↔ without volatile x = without volatile y :=
  ⟨Alike.without, alike_of_without x y⟩

end

/-! Dropping items and sorting them commute. -/

theorem mem_place {k : String} {v : Json} {items : List (String × Json)} {item : String × Json} :
    item ∈ place k v items ↔ item = (k, v) ∨ item ∈ items := by
  induction items with
  | nil => simp [place]
  | cons first items ih =>
    obtain ⟨k', v'⟩ := first
    simp only [place]
    split
    · simp
    · simp only [List.mem_cons, ih]
      tauto

theorem place_first {k : String} {v : Json} {items : List (String × Json)}
    (h : ∀ item ∈ items, k ≤ item.1) : place k v items = (k, v) :: items := by
  cases items with
  | nil => rfl
  | cons first items =>
    obtain ⟨k', v'⟩ := first
    simp only [place, if_pos (h _ (List.mem_cons_self ..))]

theorem place_sorted {k : String} {v : Json} {items : List (String × Json)}
    (h : items.Pairwise (fun a b => a.1 ≤ b.1)) :
    (place k v items).Pairwise (fun a b => a.1 ≤ b.1) := by
  induction items with
  | nil => simp [place]
  | cons first items ih =>
    obtain ⟨k', v'⟩ := first
    obtain ⟨hfirst, hitems⟩ := List.pairwise_cons.mp h
    simp only [place]
    split
    · rename_i hle
      refine List.pairwise_cons.mpr ⟨fun item hitem => ?_, h⟩
      rcases List.mem_cons.mp hitem with rfl | hitem
      · exact hle
      · exact String.le_trans hle (hfirst item hitem)
    · rename_i hlt
      refine List.pairwise_cons.mpr ⟨fun item hitem => ?_, ih hitems⟩
      rcases mem_place.mp hitem with rfl | hitem
      · exact (String.le_total _ _).resolve_right hlt
      · exact hfirst item hitem

theorem canonicalItems_sorted (items : List (String × Json)) :
    (canonicalItems items).Pairwise (fun a b => a.1 ≤ b.1) := by
  induction items with
  | nil => simp [canonicalItems]
  | cons item items ih =>
    obtain ⟨k, v⟩ := item
    exact place_sorted ih

theorem withoutItems_keys {volatile : List String} {items : List (String × Json)} {k : String}
    (h : ∀ item ∈ items, k ≤ item.1) : ∀ item ∈ withoutItems volatile items, k ≤ item.1 := by
  induction items with
  | nil => simp [withoutItems]
  | cons first items ih =>
    obtain ⟨k', v'⟩ := first
    simp only [List.forall_mem_cons] at h
    simp only [withoutItems]
    split
    · exact ih h.2
    · simp only [List.forall_mem_cons]
      exact ⟨h.1, ih h.2⟩

theorem withoutItems_place (volatile : List String) (k : String) (v : Json)
    {items : List (String × Json)} (h : items.Pairwise (fun a b => a.1 ≤ b.1)) :
    withoutItems volatile (place k v items) =
      if k ∈ volatile then withoutItems volatile items
      else place k (without volatile v) (withoutItems volatile items) := by
  induction items with
  | nil => simp only [place, withoutItems]
  | cons first items ih =>
    obtain ⟨k', v'⟩ := first
    obtain ⟨hfirst, hitems⟩ := List.pairwise_cons.mp h
    by_cases hle : k ≤ k'
    · have hkeys : ∀ item ∈ (k', v') :: items, k ≤ item.1 := by
        simp only [List.forall_mem_cons]
        exact ⟨hle, fun item hitem => String.le_trans hle (hfirst item hitem)⟩
      rw [place_first (withoutItems_keys hkeys)]
      simp only [place, hle, if_true]
      rw [withoutItems]
    · simp only [place, hle, if_false, withoutItems, ih hitems]
      split <;> split <;> simp only [place, hle, if_false]

mutual
theorem canonical_without (volatile : List String) :
    (x : Json) → canonical (without volatile x) = without volatile (canonical x)
  | null | bool _ | int _ | float _ | str _ => rfl
  | list items => congrArg list (canonicalList_without volatile items)
  | dict items => congrArg dict (canonicalItems_without volatile items)

theorem canonicalList_without (volatile : List String) : (xs : List Json) →
    canonicalList (withoutList volatile xs) = withoutList volatile (canonicalList xs)
  | [] => rfl
  | x :: xs => by
    simp only [canonicalList, withoutList, canonical_without volatile x,
      canonicalList_without volatile xs]

theorem canonicalItems_without (volatile : List String) : (xs : List (String × Json)) →
    canonicalItems (withoutItems volatile xs) = withoutItems volatile (canonicalItems xs)
  | [] => rfl
  | (k, x) :: xs => by
    simp only [canonicalItems, withoutItems, withoutItems_place volatile k _ (canonicalItems_sorted xs),
      ← canonicalItems_without volatile xs, ← canonical_without volatile x]
    split
    · rfl
    · rw [canonicalItems]
end

end Json

end Semora
