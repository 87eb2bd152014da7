import MnoVerify.RootWindow

/-!
# What the window keeps

Every operation only drops records, but for the one record that `adopt` brings; and a record that is adopted at or
above every height of the window is its current one.
-/

namespace RootWindow

/-! ## Sorted lists -/

section
variable {α : Type} {r : α → α → Prop} [DecidableRel r]

theorem orderedInsert_append_of_rel {a x : α} (h : r a x) (l : List α) :
    (l ++ [x]).orderedInsert r a = l.orderedInsert r a ++ [x] := by
  induction l with
  | nil => simp [h]
  | cons b l ih =>
    by_cases hab : r a b
    · simp [hab]
    · simp [hab, ih]

theorem insertionSort_append_of_rel {x : α} {l : List α} (h : ∀ a ∈ l, r a x) :
    (l ++ [x]).insertionSort r = l.insertionSort r ++ [x] := by
  induction l with
  | nil => rfl
  | cons a l ih =>
    rw [List.cons_append, List.insertionSort_cons, List.insertionSort_cons,
      ih fun b hb => h b (List.mem_cons_of_mem a hb), orderedInsert_append_of_rel (h a (List.mem_cons_self ..))]

end

theorem eraseDups_sublist {α : Type} [DecidableEq α] (l : List α) : l.eraseDups.Sublist l := by
  generalize hn : l.length = n
  induction n using Nat.strong_induction_on generalizing l with
  | _ n ih =>
    cases l with
    | nil => exact List.Sublist.refl _
    | cons a l =>
      rw [List.eraseDups_cons]
      have hle : (l.filter fun b => !b == a).length ≤ l.length := List.length_filter_le ..
      rw [List.length_cons] at hn
      exact ((ih _ (by omega) _ rfl).trans List.filter_sublist).cons_cons a

/-- In a list that ascends, an element that no other exceeds is the last one. -/
theorem getLast?_of_forall_le {hs : List Int} (hsorted : hs.Pairwise (· ≤ ·)) {x : Int} (hx : x ∈ hs)
    (hmax : ∀ h ∈ hs, h ≤ x) : hs.getLast? = some x := by
  have hne : hs ≠ [] := List.ne_nil_of_mem hx
  rw [List.getLast?_eq_some_getLast hne]
  refine congrArg some (le_antisymm (hmax _ (List.getLast_mem hne)) ?_)
  rw [← List.dropLast_append_getLast hne, List.pairwise_append] at hsorted
  rw [← List.dropLast_append_getLast hne] at hx
  rcases List.mem_append.1 hx with hx | hx
  · exact hsorted.2.2 x hx _ (List.mem_singleton_self _)
  · exact le_of_eq (List.mem_singleton.1 hx)

/-! ## Heights -/

/-- The records stand by height. -/
def Sorted (snaps : List Record) : Prop := snaps.Pairwise fun a b => a.height ≤ b.height

theorem mem_heights {snaps : List Record} {h : Int} : h ∈ heights snaps ↔ ∃ s ∈ snaps, s.height = h := by
  rw [heights, List.mem_eraseDups, List.mem_map]

theorem heights_sorted {snaps : List Record} (h : Sorted snaps) : (heights snaps).Pairwise (· ≤ ·) :=
  (List.pairwise_map.2 h).sublist (eraseDups_sublist _)

/-- The newest height of a sorted window is the height of its last record. -/
theorem getLast?_heights {l : List Record} {r : Record} (h : Sorted (l ++ [r])) :
    (heights (l ++ [r])).getLast? = some r.height := by
  refine getLast?_of_forall_le (heights_sorted h) (mem_heights.2 ⟨r, by simp, rfl⟩) fun x hx => ?_
  obtain ⟨s, hs, rfl⟩ := mem_heights.1 hx
  rcases List.mem_append.1 hs with hs | hs
  · exact (List.pairwise_append.1 h).2.2 s hs r (List.mem_singleton_self r)
  · rw [List.mem_singleton.1 hs]

/-! ## Eviction -/

theorem evictionTarget_ne_newest {pinned : List (List Char)} {snaps : List Record} {target newest : Int}
    (h : evictionTarget pinned snaps = some target) (hn : (heights snaps).getLast? = some newest) : target ≠ newest := by
  unfold evictionTarget at h
  rw [hn] at h
  dsimp only at h
  have hmem : target ∈ (heights snaps).filter fun h => decide (h ≠ newest) := by
    rcases Option.or_eq_some_iff.1 h with hf | ⟨-, hh⟩
    · exact List.mem_of_find?_eq_some hf
    · exact List.mem_of_head? hh
  exact of_decide_eq_true (List.mem_filter.1 hmem).2

theorem evictStep_sublist {maxLeaves : Nat} {pinned : List (List Char)} {snaps snaps' : List Record}
    (h : evictStep maxLeaves pinned snaps = some snaps') : snaps'.Sublist snaps := by
  unfold evictStep at h
  split at h
  · cases h
  · obtain ⟨target, -, rfl⟩ := Option.map_eq_some_iff.1 h
    exact List.filter_sublist

theorem evictLoop_sublist (maxLeaves : Nat) (pinned : Nat → List (List Char)) : ∀ (n : Nat) (snaps : List Record),
    (evictLoop maxLeaves pinned n snaps).Sublist snaps := by
  intro n
  induction n with
  | zero => exact fun snaps => List.Sublist.refl _
  | succ n ih =>
    intro snaps
    rw [evictLoop]
    split
    · exact List.Sublist.refl _
    · exact (ih _).trans (evictStep_sublist ‹_›)

/-- The record at the end stays at the end. -/
theorem evictStep_last {maxLeaves : Nat} {pinned : List (List Char)} {l : List Record} {r : Record} {snaps' : List Record}
    (hs : Sorted (l ++ [r])) (h : evictStep maxLeaves pinned (l ++ [r]) = some snaps') :
    ∃ l', snaps' = l' ++ [r] ∧ Sorted (l' ++ [r]) := by
  have hsub := evictStep_sublist h
  unfold evictStep at h
  split at h
  · cases h
  · obtain ⟨target, ht, rfl⟩ := Option.map_eq_some_iff.1 h
    have hne : r.height ≠ target := (evictionTarget_ne_newest ht (getLast?_heights hs)).symm
    have heq : (l ++ [r]).filter (fun s => decide (s.height ≠ target)) =
        l.filter (fun s => decide (s.height ≠ target)) ++ [r] := by
      rw [List.filter_append, List.filter_cons_of_pos (by simpa using hne), List.filter_nil]
    rw [heq] at hsub ⊢
    exact ⟨_, rfl, hs.sublist hsub⟩

theorem evictLoop_last {maxLeaves : Nat} {pinned : Nat → List (List Char)} {r : Record} : ∀ (n : Nat) {l : List Record},
    Sorted (l ++ [r]) → ∃ l', evictLoop maxLeaves pinned n (l ++ [r]) = l' ++ [r] := by
  intro n
  induction n with
  | zero => exact fun {l} _ => ⟨l, rfl⟩
  | succ n ih =>
    intro l hs
    rw [evictLoop]
    split
    · exact ⟨l, rfl⟩
    · rename_i snaps' hstep
      obtain ⟨l', rfl, hs'⟩ := evictStep_last hs hstep
      exact ih hs'

theorem enforceLeafBound_sublist (maxLeaves : Nat) (pinned : Nat → List (List Char)) (snaps : List Record) :
    (enforceLeafBound maxLeaves pinned snaps).Sublist snaps := by
  unfold enforceLeafBound
  split
  · exact List.Sublist.refl _
  · exact evictLoop_sublist maxLeaves pinned _ _

/-! ## Adoption -/

theorem mem_byKey {snaps : List Record} {p : Key × Record} (h : p ∈ byKey snaps) : p.2 ∈ snaps := by
  have hfold : ∀ (l : List Record) (m : List (Key × Record)), p ∈ l.foldl (fun m s => Assoc.set m s.key s) m →
      p ∈ m ∨ p.2 ∈ l := by
    intro l
    induction l with
    | nil => exact fun m h => .inl h
    | cons s l ih =>
      intro m h
      rcases ih _ h with h | h
      · rcases Assoc.mem_set h with h | rfl
        · exact .inl h
        · exact .inr (List.mem_cons_self ..)
      · exact .inr (List.mem_cons_of_mem _ h)
  exact (hfold snaps [] h).resolve_left nofun

/-- The new record comes last, after records of the window. -/
theorem insert_eq (snaps : List Record) (r : Record) : ∃ l, insert snaps r = l ++ [r] ∧ ∀ s ∈ l, s ∈ snaps := by
  refine ⟨(Assoc.erase (byKey snaps) r.key).map Prod.snd, ?_, fun s hs => ?_⟩
  · rw [insert, Assoc.set_of_lookup_none (Assoc.lookup_erase_self ..), List.map_append, List.map_singleton]
  · obtain ⟨p, hp, rfl⟩ := List.mem_map.1 hs
    exact mem_byKey (List.mem_of_mem_filter hp)

theorem trim_sublist (window : Nat) (all : List Record) : (trim window all).Sublist all := List.filter_sublist

theorem trim_last {window : Nat} (hw : 0 < window) {l : List Record} {r : Record} (hs : Sorted (l ++ [r])) :
    ∃ l', trim window (l ++ [r]) = l' ++ [r] := by
  unfold trim
  dsimp only
  have hlast := getLast?_heights hs
  have hkept : r.height ∈ (heights (l ++ [r])).drop ((heights (l ++ [r])).length - window) := by
    have hne : heights (l ++ [r]) ≠ [] := fun h => by rw [h] at hlast; cases hlast
    have hpos : 0 < (heights (l ++ [r])).length := List.length_pos_of_ne_nil hne
    refine List.mem_of_getLast? (l := List.drop _ _) ?_
    rw [List.getLast?_drop, if_neg (by omega)]
    exact hlast
  rw [List.filter_append, List.filter_cons_of_pos (by simpa using hkept), List.filter_nil]
  exact ⟨_, rfl⟩

theorem adopt_eq_ok {limits : Limits} {pinned : Nat → List (List Char)} {snaps snaps' : List Record} {r : Record}
    (h : adopt limits pinned snaps r = .ok snaps') : snaps' = adopted limits pinned snaps r := by
  simp only [adopt, Js.bind_eq_ok] at h
  obtain ⟨-, -, -, -, h⟩ := h
  exact (Except.ok.inj h).symm

/-- Every record after an adoption is the new one or was there. -/
theorem mem_adopted {limits : Limits} {pinned : Nat → List (List Char)} {snaps : List Record} {r s : Record}
    (hs : s ∈ adopted limits pinned snaps r) : s = r ∨ s ∈ snaps := by
  have hs := (trim_sublist _ _).subset ((enforceLeafBound_sublist ..).subset hs)
  rw [List.mem_insertionSort] at hs
  obtain ⟨l, hl, hsub⟩ := insert_eq snaps r
  rw [hl] at hs
  rcases List.mem_append.1 hs with hs | hs
  · exact .inr (hsub s hs)
  · exact .inl (List.mem_singleton.1 hs)

theorem sorted_insertionSort (l : List Record) : Sorted (l.insertionSort fun a b => a.height ≤ b.height) := by
  have ht : Std.Total fun a b : Record => a.height ≤ b.height := ⟨fun a b => le_total _ _⟩
  have htr : IsTrans Record fun a b => a.height ≤ b.height := ⟨fun a b c => le_trans⟩
  exact List.pairwise_insertionSort _ l

/-- A record adopted at or above every height of the window is the current one. -/
theorem current_adopted {limits : Limits} {pinned : Nat → List (List Char)} {snaps : List Record} {r : Record}
    (hmax : ∀ s ∈ snaps, s.height ≤ r.height) : current (adopted limits pinned snaps r) = some r := by
  unfold adopted
  dsimp only
  obtain ⟨l, hl, hsub⟩ := insert_eq snaps r
  have hall := sorted_insertionSort (insert snaps r)
  rw [hl, insertionSort_append_of_rel fun a ha => hmax a (hsub a ha)] at hall ⊢
  obtain ⟨l', hl'⟩ := trim_last limits.window_pos hall
  have hs' : Sorted (l' ++ [r]) := by
    rw [← hl']; exact hall.sublist (trim_sublist ..)
  rw [hl', current]
  unfold enforceLeafBound
  split
  · exact List.getLast?_concat
  · obtain ⟨l'', hl''⟩ := evictLoop_last (l' ++ [r]).length hs'
    rw [hl'']
    exact List.getLast?_concat

/-! ## Reading -/

theorem mem_dropOlderThan {cutoff : Int} {snaps : List Record} {s : Record} :
    s ∈ dropOlderThan cutoff snaps ↔ s ∈ snaps ∧ notBefore cutoff s.ts = true := List.mem_filter

theorem le_maxHeight {snaps : List Record} {h : Int} (hm : ∀ m, maxHeight snaps = some m → m ≤ h) :
    ∀ s ∈ snaps, s.height ≤ h := by
  intro s hs
  have hmem : s.height ∈ snaps.map Record.height := List.mem_map_of_mem hs
  cases hmax : (snaps.map Record.height).max? with
  | none => rw [List.max?_eq_none_iff] at hmax; rw [hmax] at hmem; cases hmem
  | some m => exact ((List.max?_eq_some_iff.1 hmax).2 _ hmem).trans (hm m hmax)

/-- A record may join a height when every record there names its block and its leaf set. -/
theorem mayCoexist_iff {snaps : List Record} {height : Int} {blockHash setCommitment : Option (List Char)} :
    mayCoexist snaps height blockHash setCommitment = true ↔ ∀ s ∈ snaps, s.height = height →
      (s.blockHash.isSome = true ∧ s.blockHash = blockHash) ∧ s.setCommitment.isSome = true ∧
        s.setCommitment = setCommitment := by
  simp only [mayCoexist, List.all_eq_true, List.mem_filter, decide_eq_true_eq, Bool.and_eq_true, and_imp, and_assoc]

end RootWindow
