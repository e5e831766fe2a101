import Mathlib.Data.List.Nodup

/-! Dictionaries that remember insertion order: assigning to a key already present keeps its
place, a new key goes to the end. -/

namespace Semora.Lib

section
variable {κ ν : Type} [DecidableEq κ]

/-- The value filed under `k`. -/
def fetch (k : κ) : List (κ × ν) → Option ν
  | [] => none
  | (k', v) :: rest => if k = k' then some v else fetch k rest

/-- Replace the value filed under `k`, or add the pair at the end. -/
def upsert (k : κ) (v : ν) : List (κ × ν) → List (κ × ν)
  | [] => [(k, v)]
  | (k', v') :: rest => if k = k' then (k, v) :: rest else (k', v') :: upsert k v rest

theorem upsert_keys (k : κ) (v : ν) (items : List (κ × ν)) :
    (upsert k v items).map Prod.fst =
      if k ∈ items.map Prod.fst then items.map Prod.fst else items.map Prod.fst ++ [k] := by
  induction items with
  | nil => simp [upsert]
  | cons p rest ih =>
    obtain ⟨k', v'⟩ := p
    by_cases he : k = k'
    · subst he
      simp [upsert]
    · simp only [upsert, he, ↓reduceIte, List.map_cons, ih, List.mem_cons, false_or]
      split <;> simp

theorem fetch_none {items : List (κ × ν)} {k : κ} (h : k ∉ items.map Prod.fst) :
    fetch k items = none := by
  induction items with
  | nil => rfl
  | cons item rest ih =>
    simp only [List.map_cons, List.mem_cons, not_or] at h
    simp only [fetch, if_neg h.1, ih h.2]

theorem fetch_upsert (items : List (κ × ν)) (k j : κ) (v : ν) :
    fetch j (upsert k v items) = if j = k then some v else fetch j items := by
  induction items with
  | nil => simp [upsert, fetch]
  | cons p rest ih =>
    obtain ⟨k', v'⟩ := p
    by_cases he : k = k'
    · subst he
      by_cases h : j = k <;> simp [upsert, fetch, h]
    · by_cases h : j = k'
      · subst h
        simp [upsert, fetch, he, Ne.symm he]
      · simp [upsert, fetch, he, h, ih]

theorem fetch_mem {items : List (κ × ν)} (h : (items.map Prod.fst).Nodup) (k : κ) (v : ν) :
    fetch k items = some v ↔ (k, v) ∈ items := by
  induction items with
  | nil => simp [fetch]
  | cons item rest ih =>
    obtain ⟨k', v'⟩ := item
    obtain ⟨hnew, hrest⟩ := List.nodup_cons.mp h
    by_cases he : k = k'
    · subst he
      have hold : (k, v) ∉ rest := fun hmem => hnew (List.mem_map.mpr ⟨_, hmem, rfl⟩)
      simp [fetch, hold, eq_comm]
    · simp [fetch, he, ih hrest]

theorem upsert_new {items : List (κ × ν)} {k : κ} (v : ν) (h : fetch k items = none) :
    upsert k v items = items ++ [(k, v)] := by
  induction items with
  | nil => rfl
  | cons item rest ih =>
    obtain ⟨k', v'⟩ := item
    by_cases he : k = k'
    · simp [fetch, he] at h
    · simp only [fetch, if_neg he] at h
      simp only [upsert, if_neg he, ih h, List.cons_append]

theorem upsert_old {items : List (κ × ν)} (hdistinct : (items.map Prod.fst).Nodup) {k : κ} (v : ν)
    (h : k ∈ items.map Prod.fst) :
    upsert k v items = items.map (fun item => if item.1 = k then (k, v) else item) := by
  induction items with
  | nil => cases h
  | cons item rest ih =>
    obtain ⟨k', v'⟩ := item
    obtain ⟨hnew, hrest⟩ := List.nodup_cons.mp hdistinct
    by_cases he : k = k'
    · subst he
      have hsame : rest.map (fun item => if item.1 = k then (k, v) else item) = rest := by
        rw [List.map_congr_left (g := id) ?_, List.map_id]
        intro item hitem
        exact if_neg (fun he => hnew (List.mem_map.mpr ⟨item, hitem, he⟩))
      simp [upsert, hsame]
    · have hmem : k ∈ rest.map Prod.fst := (List.mem_cons.mp h).resolve_left he
      simp [upsert, he, Ne.symm he, ih hrest hmem]

theorem fetch_filter_ne (items : List (κ × ν)) (k j : κ) :
    fetch j (items.filter (fun p => p.1 ≠ k)) = if j = k then none else fetch j items := by
  induction items with
  | nil => simp [fetch]
  | cons p rest ih =>
    obtain ⟨k', v'⟩ := p
    by_cases he : k' = k
    · subst he
      simp only [ne_eq, not_true_eq_false, decide_false, Bool.false_eq_true, not_false_eq_true,
        List.filter_cons_of_neg, ih, fetch]
      split <;> rfl
    · by_cases h : j = k'
      · subst h
        simp [fetch, he]
      · simp only [ne_eq, he, not_false_eq_true, decide_true, List.filter_cons_of_pos, fetch, h,
          ↓reduceIte, ih]

theorem fetch_filter (p : κ → Bool) (items : List (κ × ν)) {k : κ} (hk : p k = true) :
    fetch k (items.filter (fun item => p item.1)) = fetch k items := by
  induction items with
  | nil => rfl
  | cons item rest ih =>
    obtain ⟨k', v'⟩ := item
    by_cases he : k = k'
    · subst he
      simp [fetch, hk]
    · by_cases hp : p k' = true
      · simp [fetch, hp, he, ih]
      · simp [fetch, hp, he, ih]

/-- An assignment to a key that is kept is an assignment among the items that are kept. -/
theorem filter_upsert (p : κ → Bool) (items : List (κ × ν)) (v : ν) {k : κ} (hk : p k = true) :
    (upsert k v items).filter (fun item => p item.1) =
      upsert k v (items.filter (fun item => p item.1)) := by
  induction items with
  | nil => simp [upsert, hk]
  | cons item rest ih =>
    obtain ⟨k', v'⟩ := item
    by_cases he : k = k'
    · subst he
      simp [upsert, hk]
    · by_cases hp : p k' = true
      · simp [upsert, hp, he, ih]
      · simp [upsert, hp, he, ih]

/-- An assignment to a key that is not kept leaves the items that are. -/
theorem filter_upsert_other (p : κ → Bool) (items : List (κ × ν)) (v : ν) {k : κ}
    (hk : p k = false) :
    (upsert k v items).filter (fun item => p item.1) = items.filter (fun item => p item.1) := by
  induction items with
  | nil => simp [upsert, hk]
  | cons item rest ih =>
    obtain ⟨k', v'⟩ := item
    by_cases he : k = k'
    · subst he
      simp [upsert, hk]
    · simp only [upsert, he, ↓reduceIte, List.filter_cons, ih]

end

/-- An insertion-ordered dictionary. No key occurs twice, by construction. -/
structure Dict (κ ν : Type) where
  items : List (κ × ν)
  distinct : (items.map Prod.fst).Nodup
deriving DecidableEq

namespace Dict

variable {κ ν : Type} [DecidableEq κ]

def empty : Dict κ ν := ⟨[], by simp⟩

def get? (d : Dict κ ν) (k : κ) : Option ν := fetch k d.items

/-- `d[k] = v`. -/
def insert (d : Dict κ ν) (k : κ) (v : ν) : Dict κ ν :=
  ⟨upsert k v d.items, by
    rw [upsert_keys]
    split
    · exact d.distinct
    · rename_i hk
      exact List.Nodup.append d.distinct (List.nodup_singleton k) (by simpa using hk)⟩

/-- `d.pop(k, None)`. -/
def erase (d : Dict κ ν) (k : κ) : Dict κ ν :=
  ⟨d.items.filter (fun p => p.1 ≠ k), d.distinct.sublist (List.filter_sublist.map Prod.fst)⟩

/-- `d.update(items)`, in the order given. -/
def update (d : Dict κ ν) (items : List (κ × ν)) : Dict κ ν :=
  items.foldl (fun acc p => acc.insert p.1 p.2) d

@[simp] theorem get?_empty (k : κ) : (empty : Dict κ ν).get? k = none := rfl

theorem mem_items (d : Dict κ ν) (k : κ) (v : ν) : d.get? k = some v ↔ (k, v) ∈ d.items :=
  fetch_mem d.distinct k v

theorem get?_insert (d : Dict κ ν) (k j : κ) (v : ν) :
    (d.insert k v).get? j = if j = k then some v else d.get? j :=
  fetch_upsert d.items k j v

@[simp] theorem get?_insert_self (d : Dict κ ν) (k : κ) (v : ν) :
    (d.insert k v).get? k = some v := by
  simp [get?_insert]

theorem get?_insert_ne (d : Dict κ ν) {k j : κ} (v : ν) (h : j ≠ k) :
    (d.insert k v).get? j = d.get? j := by
  simp [get?_insert, h]

theorem items_insert_new (d : Dict κ ν) {k : κ} (v : ν) (h : d.get? k = none) :
    (d.insert k v).items = d.items ++ [(k, v)] :=
  upsert_new v h

theorem items_insert_old (d : Dict κ ν) {k : κ} (v : ν) {w : ν} (h : d.get? k = some w) :
    (d.insert k v).items = d.items.map (fun item => if item.1 = k then (k, v) else item) :=
  upsert_old d.distinct v (List.mem_map.mpr ⟨(k, w), (d.mem_items k w).mp h, rfl⟩)

theorem get?_erase (d : Dict κ ν) (k j : κ) :
    (d.erase k).get? j = if j = k then none else d.get? j :=
  fetch_filter_ne d.items k j

end Dict

end Semora.Lib
