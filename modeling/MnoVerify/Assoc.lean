import Mathlib.Data.List.Basic

/-!
# Association lists

A keyed table as a list of pairs in insertion order, read with `List.lookup`: the
`Map` of the source, and a table with a primary key. Writing an existing key keeps
its place.
-/

namespace Assoc

variable {κ α : Type} [DecidableEq κ]

def set : List (κ × α) → κ → α → List (κ × α)
  | [], k, v => [(k, v)]
  | (k', v') :: m, k, v => if k' = k then (k, v) :: m else (k', v') :: set m k v

def erase (m : List (κ × α)) (k : κ) : List (κ × α) := m.filter fun p => decide (p.1 ≠ k)

/-- Write a key that is not there: whether it was there, and the table with it. -/
def addNew (m : List (κ × α)) (k : κ) (v : α) : Bool × List (κ × α) :=
  if (m.lookup k).isSome then (true, m) else (false, set m k v)

theorem lookup_cons (k k' : κ) (v : α) (m : List (κ × α)) :
    ((k', v) :: m).lookup k = if k = k' then some v else m.lookup k := by
  rw [List.lookup_cons]
  by_cases h : k = k'
  · simp [h]
  · rw [if_neg h, beq_false_of_ne h]

@[simp] theorem lookup_set_self (m : List (κ × α)) (k : κ) (v : α) : (set m k v).lookup k = some v := by
  induction m with
  | nil => simp [set]
  | cons p m ih =>
    obtain ⟨k', v'⟩ := p
    rw [set]
    split
    · rw [lookup_cons, if_pos rfl]
    · rw [lookup_cons, if_neg (fun h => ‹¬ k' = k› h.symm), ih]

theorem lookup_set_of_ne {k k' : κ} (h : k' ≠ k) (m : List (κ × α)) (v : α) : (set m k v).lookup k' = m.lookup k' := by
  induction m with
  | nil => rw [set, lookup_cons, if_neg h]
  | cons p m ih =>
    obtain ⟨j, w⟩ := p
    rw [set]
    split
    · rename_i hj
      rw [lookup_cons, lookup_cons, if_neg h, if_neg (by rw [hj]; exact h)]
    · rw [lookup_cons, lookup_cons, ih]

/-- Dropping keys. -/
theorem lookup_filter (f : κ → Bool) (m : List (κ × α)) (k : κ) :
    (m.filter fun p => f p.1).lookup k = if f k then m.lookup k else none := by
  induction m with
  | nil => rw [List.filter_nil, List.lookup_nil, ite_self]
  | cons p m ih =>
    obtain ⟨j, w⟩ := p
    simp only [List.filter_cons, lookup_cons]
    by_cases hf : f j = true
    · rw [if_pos hf, lookup_cons, ih]
      by_cases hk : k = j
      · rw [if_pos hk, if_pos hk, hk, if_pos hf]
      · rw [if_neg hk, if_neg hk]
    · rw [if_neg hf, ih]
      by_cases hk : k = j
      · rw [hk, if_neg hf, if_neg hf]
      · rw [if_neg hk]

@[simp] theorem lookup_erase_self (m : List (κ × α)) (k : κ) : (erase m k).lookup k = none := by
  rw [erase, lookup_filter fun j => decide (j ≠ k), if_neg (by simp)]

theorem lookup_erase_of_ne {k k' : κ} (h : k' ≠ k) (m : List (κ × α)) : (erase m k).lookup k' = m.lookup k' := by
  rw [erase, lookup_filter fun j => decide (j ≠ k), if_pos (by simpa using h)]

theorem isSome_lookup_filter {p : κ × α → Bool} {k : κ} {m : List (κ × α)}
    (h : ((m.filter p).lookup k).isSome = true) : (m.lookup k).isSome = true := by
  induction m with
  | nil => cases h
  | cons q m ih =>
    obtain ⟨j, v⟩ := q
    rw [lookup_cons]
    by_cases hk : k = j
    · rw [if_pos hk]; rfl
    · rw [if_neg hk]
      refine ih ?_
      by_cases hp : p (j, v) = true
      · rwa [List.filter_cons_of_pos hp, lookup_cons, if_neg hk] at h
      · rwa [List.filter_cons_of_neg hp] at h

theorem mem_of_lookup {k : κ} {v : α} {m : List (κ × α)} (h : m.lookup k = some v) : (k, v) ∈ m := by
  induction m with
  | nil => cases h
  | cons q m ih =>
    obtain ⟨j, w⟩ := q
    rw [lookup_cons] at h
    split at h
    · rename_i hk
      cases h
      rw [hk]; exact List.mem_cons_self
    · exact List.mem_cons_of_mem _ (ih h)

theorem lookup_of_mem {k : κ} {v : α} {m : List (κ × α)} (hm : (m.map Prod.fst).Nodup) (h : (k, v) ∈ m) :
    m.lookup k = some v := by
  induction m with
  | nil => cases h
  | cons q m ih =>
    obtain ⟨j, w⟩ := q
    obtain ⟨hj, hm⟩ := List.nodup_cons.1 hm
    rw [lookup_cons]
    rcases List.mem_cons.1 h with h | h
    · cases h
      rw [if_pos rfl]
    · rw [if_neg fun hkj => hj (List.mem_map.2 ⟨(k, v), h, hkj⟩), ih hm h]

/-- Tables of the same pairs answer alike. -/
theorem lookup_congr {m m' : List (κ × α)} (hm : (m.map Prod.fst).Nodup) (hm' : (m'.map Prod.fst).Nodup)
    (h : ∀ q, q ∈ m ↔ q ∈ m') (k : κ) : m.lookup k = m'.lookup k := by
  refine Option.ext fun v => ⟨fun hv => ?_, fun hv => ?_⟩
  · exact lookup_of_mem hm' ((h _).1 (mem_of_lookup hv))
  · exact lookup_of_mem hm ((h _).2 (mem_of_lookup hv))

/-- A key that is not there is written at the end. -/
theorem set_of_lookup_none {k : κ} {v : α} {m : List (κ × α)} (h : m.lookup k = none) : set m k v = m ++ [(k, v)] := by
  induction m with
  | nil => rfl
  | cons q m ih =>
    obtain ⟨j, w⟩ := q
    rw [lookup_cons] at h
    split at h
    · cases h
    · next hkj => rw [set, if_neg fun hjk => hkj hjk.symm, ih h]; rfl

theorem lookup_append (m m' : List (κ × α)) (k : κ) : (m ++ m').lookup k = (m.lookup k).or (m'.lookup k) := by
  induction m with
  | nil => simp
  | cons q m ih =>
    obtain ⟨j, w⟩ := q
    rw [List.cons_append, lookup_cons, lookup_cons]
    split
    · rfl
    · exact ih

theorem mem_set {k : κ} {v : α} {m : List (κ × α)} {q : κ × α} (h : q ∈ set m k v) : q ∈ m ∨ q = (k, v) := by
  induction m with
  | nil => exact Or.inr (List.mem_singleton.1 h)
  | cons r m ih =>
    obtain ⟨j, w⟩ := r
    rw [set] at h
    split at h
    · rcases List.mem_cons.1 h with h | h
      · exact Or.inr h
      · exact Or.inl (List.mem_cons_of_mem _ h)
    · rcases List.mem_cons.1 h with h | h
      · exact Or.inl (h ▸ List.mem_cons_self)
      · exact (ih h).imp_left (List.mem_cons_of_mem _)

theorem nodup_set {m : List (κ × α)} (h : (m.map Prod.fst).Nodup) (k : κ) (v : α) : ((set m k v).map Prod.fst).Nodup := by
  induction m with
  | nil => exact List.pairwise_singleton _ k
  | cons p m ih =>
    obtain ⟨k', v'⟩ := p
    rw [List.map_cons, List.nodup_cons] at h
    rw [set]
    split
    · rename_i hk
      subst hk
      exact List.nodup_cons.2 h
    · rename_i hk
      rw [List.map_cons, List.nodup_cons]
      refine ⟨fun hmem => ?_, ih h.2⟩
      obtain ⟨q, hq, heq⟩ := List.mem_map.1 hmem
      rcases mem_set hq with hq | rfl
      · exact h.1 (List.mem_map.2 ⟨q, hq, heq⟩)
      · exact hk heq.symm

/-- A write makes a table longer by one at most. -/
theorem length_set_le (m : List (κ × α)) (k : κ) (v : α) : (set m k v).length ≤ m.length + 1 := by
  induction m with
  | nil => exact Nat.le_refl _
  | cons p m ih =>
    obtain ⟨k', v'⟩ := p
    rw [set]
    split
    · exact Nat.le_succ _
    · exact Nat.succ_le_succ ih

theorem mem_keys_iff {k : κ} {m : List (κ × α)} : k ∈ m.map Prod.fst ↔ (m.lookup k).isSome = true := by
  induction m with
  | nil => simp
  | cons p m ih =>
    obtain ⟨j, w⟩ := p
    rw [List.map_cons, List.mem_cons, lookup_cons, ih]
    by_cases h : k = j
    · rw [if_pos h]
      exact ⟨fun _ => rfl, fun _ => Or.inl h⟩
    · rw [if_neg h]
      exact ⟨fun hor => hor.resolve_left h, Or.inr⟩

theorem lookup_eq_none_iff {k : κ} {m : List (κ × α)} : m.lookup k = none ↔ k ∉ m.map Prod.fst := by
  rw [mem_keys_iff, Option.isSome_iff_ne_none, not_not]

/-- A key that is there is written in its place. -/
theorem set_of_lookup {k : κ} {v : α} {m : List (κ × α)} (h : m.lookup k = some v) :
    ∃ a b, m = a ++ (k, v) :: b ∧ ∀ w, set m k w = a ++ (k, w) :: b := by
  induction m with
  | nil => cases h
  | cons p m ih =>
    obtain ⟨j, u⟩ := p
    rw [lookup_cons] at h
    by_cases hk : k = j
    · rw [if_pos hk, Option.some.injEq] at h
      refine ⟨[], m, by rw [hk, h]; rfl, fun w => ?_⟩
      rw [set, if_pos hk.symm]
      rfl
    · rw [if_neg hk] at h
      obtain ⟨a, b, rfl, hset⟩ := ih h
      refine ⟨(j, u) :: a, b, rfl, fun w => ?_⟩
      rw [set, if_neg fun hj => hk hj.symm, hset]
      rfl

/-- What is left of a table answers as the table did, or not at all. -/
theorem lookup_sublist {m m' : List (κ × α)} (hs : m'.Sublist m) (hm : (m.map Prod.fst).Nodup) (k : κ) :
    m'.lookup k = m.lookup k ∨ m'.lookup k = none := by
  cases h : m'.lookup k with
  | none => exact Or.inr rfl
  | some v => exact Or.inl (lookup_of_mem hm (hs.subset (mem_of_lookup h))).symm

theorem length_set_of_lookup {k : κ} {v w : α} {m : List (κ × α)} (h : m.lookup k = some v) :
    (set m k w).length = m.length := by
  obtain ⟨a, b, rfl, hset⟩ := set_of_lookup h
  rw [hset w, List.length_append, List.length_append, List.length_cons, List.length_cons]

section
variable {κ' α' : Type} [DecidableEq κ'] {f : κ → κ'} (hf : ∀ {k k'}, f k = f k' ↔ k = k') (g : α → α')
include hf

/-! Keys under other names. -/

theorem lookup_map (m : List (κ × α)) (k : κ) :
    (m.map fun p => (f p.1, g p.2)).lookup (f k) = (m.lookup k).map g := by
  induction m with
  | nil => rfl
  | cons p m ih =>
    obtain ⟨j, v⟩ := p
    rw [List.map_cons, lookup_cons, lookup_cons, ih]
    by_cases h : k = j
    · rw [if_pos h, if_pos (hf.2 h)]
      rfl
    · rw [if_neg h, if_neg fun hj => h (hf.1 hj)]

theorem set_map (m : List (κ × α)) (k : κ) (v : α) :
    set (m.map fun p => (f p.1, g p.2)) (f k) (g v) = (set m k v).map fun p => (f p.1, g p.2) := by
  induction m with
  | nil => rfl
  | cons p m ih =>
    obtain ⟨j, w⟩ := p
    rw [List.map_cons, set, set, ih]
    by_cases h : j = k
    · rw [if_pos h, if_pos (hf.2 h)]
      rfl
    · rw [if_neg h, if_neg fun hj => h (hf.1 hj)]
      rfl

theorem addNew_map (m : List (κ × α)) (k : κ) (v : α) :
    addNew (m.map fun p => (f p.1, g p.2)) (f k) (g v) =
      ((addNew m k v).1, (addNew m k v).2.map fun p => (f p.1, g p.2)) := by
  unfold addNew
  rw [lookup_map hf, Option.isSome_map, set_map hf]
  split <;> rfl

end

theorem addNew_fst (m : List (κ × α)) (k : κ) (v : α) : (addNew m k v).1 = (m.lookup k).isSome := by
  unfold addNew
  split
  · rename_i h; exact h.symm
  · rename_i h; exact (Bool.not_eq_true _ ▸ h).symm

theorem lookup_addNew (m : List (κ × α)) (k k' : κ) (v : α) :
    (addNew m k v).2.lookup k' = if m.lookup k = none ∧ k' = k then some v else m.lookup k' := by
  unfold addNew
  by_cases h : m.lookup k = none
  · rw [if_neg (by simp [h])]
    by_cases hk : k' = k
    · rw [if_pos ⟨h, hk⟩, hk, lookup_set_self]
    · rw [if_neg fun h' => hk h'.2, lookup_set_of_ne hk]
  · rw [if_pos (Option.isSome_iff_ne_none.2 h), if_neg fun h' => h h'.1]

end Assoc
