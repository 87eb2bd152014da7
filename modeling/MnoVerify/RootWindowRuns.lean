import MnoVerify.RootWindowSound
import MnoVerify.SnapshotSound
import Mathlib.Logic.Relation

/-!
# The structure of the window

`structure_holds`: over every sequence of operations the records stand by height, at most one for each height and
order, at no more heights than the window counts. `leaf_bound`: the eviction loop ends within the bound or at one
height, takes a height as a whole and never the newest, and a pinned one only when all the others are pinned.
-/

namespace RootWindow

theorem nodup_eraseDups {α : Type} [DecidableEq α] (l : List α) : l.eraseDups.Nodup := by
  generalize hn : l.length = n
  induction n using Nat.strong_induction_on generalizing l with
  | _ n ih =>
    cases l with
    | nil => exact List.nodup_nil
    | cons a l =>
      rw [List.eraseDups_cons, List.nodup_cons]
      have hle : (l.filter fun b => !b == a).length ≤ l.length := List.length_filter_le ..
      rw [List.length_cons] at hn
      refine ⟨fun hmem => ?_, ih _ (by omega) _ rfl⟩
      rw [List.mem_eraseDups, List.mem_filter] at hmem
      simp at hmem

theorem heights_nodup (snaps : List Record) : (heights snaps).Nodup := nodup_eraseDups _

/-- A window whose heights are among those of another has no more of them. -/
theorem length_heights_le {snaps : List Record} {hs : List Int} (h : ∀ s ∈ snaps, s.height ∈ hs) :
    (heights snaps).length ≤ hs.length := by
  apply List.Subperm.length_le
  apply List.subperm_of_subset (heights_nodup snaps)
  intro x hx
  obtain ⟨s, hs, rfl⟩ := mem_heights.1 hx
  exact h s hs

/-! ## The operations -/

inductive Op
  | adopt (r : Record) (pinned : Nat → List (List Char))
  | dropOlderThan (cutoff : Int)
  | clear

/-- An `adopt` that throws leaves the records. -/
def step (limits : Limits) (snaps : List Record) : Op → List Record
  | .adopt r pinned => match adopt limits pinned snaps r with
    | .ok snaps => snaps
    | .error _ => snaps
  | .dropOlderThan cutoff => dropOlderThan cutoff snaps
  | .clear => []

def run (limits : Limits) (ops : List Op) : List Record := ops.foldl (step limits) []

/-- What every window satisfies. -/
structure WellFormed (limits : Limits) (snaps : List Record) : Prop where
  sorted : Sorted snaps
  keys : (snaps.map Record.key).Nodup
  known : ∀ s ∈ snaps, s.order ∈ KNOWN_ORDERS
  narrow : (heights snaps).length ≤ limits.window

theorem WellFormed.sublist {limits : Limits} {snaps snaps' : List Record} (h : WellFormed limits snaps)
    (hs : snaps'.Sublist snaps) : WellFormed limits snaps' where
  sorted := h.sorted.sublist hs
  keys := h.keys.sublist (hs.map _)
  known s hm := h.known s (hs.subset hm)
  narrow := (length_heights_le fun s hm => mem_heights.2 ⟨s, hs.subset hm, rfl⟩).trans h.narrow

/-! ## Adoption -/

theorem keys_byKey (snaps : List Record) : ((byKey snaps).map Prod.fst).Nodup ∧ ∀ p ∈ byKey snaps, p.2.key = p.1 := by
  have hfold : ∀ (l : List Record) (m : List (Key × Record)), (m.map Prod.fst).Nodup → (∀ p ∈ m, p.2.key = p.1) →
      ((l.foldl (fun m s => Assoc.set m s.key s) m).map Prod.fst).Nodup ∧
        ∀ p ∈ l.foldl (fun m s => Assoc.set m s.key s) m, p.2.key = p.1 := by
    intro l
    induction l with
    | nil =>
      intro m hm hk
      rw [List.foldl_nil]
      exact ⟨hm, hk⟩
    | cons s l ih =>
      intro m hm hk
      rw [List.foldl_cons]
      apply ih
      · exact Assoc.nodup_set hm s.key s
      · intro p hp
        rcases Assoc.mem_set hp with hp | hp
        · exact hk p hp
        · rw [hp]
  exact hfold snaps [] List.nodup_nil fun p hp => absurd hp List.not_mem_nil

/-- The new record replaces the one of its key. -/
theorem keys_insert (snaps : List Record) (r : Record) : ((insert snaps r).map Record.key).Nodup := by
  obtain ⟨hnd, hkey⟩ := keys_byKey snaps
  have hsub : ((Assoc.erase (byKey snaps) r.key).map Prod.fst).Sublist ((byKey snaps).map Prod.fst) :=
    List.filter_sublist.map _
  have hmap : ((Assoc.erase (byKey snaps) r.key).map Prod.snd).map Record.key =
      (Assoc.erase (byKey snaps) r.key).map Prod.fst := by
    rw [List.map_map]
    apply List.map_congr_left
    intro p hp
    exact hkey p (List.mem_of_mem_filter hp)
  rw [insert, Assoc.set_of_lookup_none (Assoc.lookup_erase_self ..), List.map_append, List.map_append, hmap,
    List.map_singleton, List.map_singleton, ← List.concat_eq_append]
  apply (hnd.sublist hsub).concat
  intro hmem
  obtain ⟨p, hp, hpk⟩ := List.mem_map.1 hmem
  exact of_decide_eq_true (List.mem_filter.1 hp).2 hpk

theorem narrow_trim (window : Nat) (all : List Record) : (heights (trim window all)).length ≤ window := by
  have hle : (heights (trim window all)).length ≤ ((heights all).drop ((heights all).length - window)).length := by
    apply length_heights_le
    intro s hs
    exact of_decide_eq_true (List.mem_filter.1 hs).2
  rw [List.length_drop] at hle
  omega

theorem WellFormed.adopted {limits : Limits} {snaps : List Record} (h : WellFormed limits snaps) {r : Record}
    (hr : r.order ∈ KNOWN_ORDERS) (pinned : Nat → List (List Char)) :
    WellFormed limits (adopted limits pinned snaps r) := by
  have hperm := List.perm_insertionSort (fun a b : Record => a.height ≤ b.height) (insert snaps r)
  have hsub := trim_sublist limits.window ((insert snaps r).insertionSort fun a b => a.height ≤ b.height)
  have htrim : WellFormed limits (trim limits.window ((insert snaps r).insertionSort fun a b => a.height ≤ b.height)) := by
    refine ⟨(sorted_insertionSort _).sublist hsub, ?_, ?_, narrow_trim _ _⟩
    · apply List.Nodup.sublist (hsub.map _)
      exact (hperm.map _).nodup_iff.2 (keys_insert snaps r)
    · intro s hs
      obtain ⟨l, hl, hmem⟩ := insert_eq snaps r
      have hin := hperm.subset (hsub.subset hs)
      rw [hl] at hin
      rcases List.mem_append.1 hin with hin | hin
      · exact h.known s (hmem s hin)
      · rw [List.mem_singleton.1 hin]; exact hr
  exact htrim.sublist (enforceLeafBound_sublist ..)

theorem order_of_adopt {limits : Limits} {pinned : Nat → List (List Char)} {snaps snaps' : List Record} {r : Record}
    (h : adopt limits pinned snaps r = .ok snaps') : r.order ∈ KNOWN_ORDERS := by
  simp only [adopt, Js.bind_eq_ok, Snapshot.require_eq_ok] at h
  obtain ⟨-, -, -, horder, -⟩ := h
  exact List.contains_iff_mem.1 horder

theorem WellFormed.step {limits : Limits} {snaps : List Record} (h : WellFormed limits snaps) (op : Op) :
    WellFormed limits (step limits snaps op) := by
  cases op with
  | adopt r pinned =>
    dsimp only [RootWindow.step]
    split
    · rename_i hok
      rw [adopt_eq_ok hok]
      exact h.adopted (order_of_adopt hok) pinned
    · exact h
  | dropOlderThan cutoff => exact h.sublist List.filter_sublist
  | clear => exact h.sublist (List.nil_sublist _)

theorem wellFormed_run (limits : Limits) (ops : List Op) : WellFormed limits (run limits ops) := by
  have hrun : ∀ (ops : List Op) (snaps : List Record), WellFormed limits snaps →
      WellFormed limits (ops.foldl (RootWindow.step limits) snaps) := by
    intro ops
    induction ops with
    | nil => exact fun snaps h => h
    | cons op ops ih => exact fun snaps h => ih _ (h.step op)
  exact hrun ops [] ⟨List.Pairwise.nil, List.nodup_nil, nofun, Nat.zero_le _⟩

/-- At most one record for each known order stands at one height. -/
theorem WellFormed.two_per_height {limits : Limits} {snaps : List Record} (h : WellFormed limits snaps) (x : Int) :
    (snaps.filter fun s => decide (s.height = x)).length ≤ 2 := by
  have hsub : (snaps.filter fun s => decide (s.height = x)).Sublist snaps := List.filter_sublist
  have hkeys := h.keys.sublist (hsub.map Record.key)
  have horders : ((snaps.filter fun s => decide (s.height = x)).map Record.order).Nodup := by
    rw [List.Nodup, List.pairwise_map] at hkeys ⊢
    refine List.Pairwise.imp_of_mem ?_ hkeys
    intro a b ha hb hne heq
    apply hne
    rw [Record.key, Record.key, heq, of_decide_eq_true (List.mem_filter.1 ha).2, of_decide_eq_true (List.mem_filter.1 hb).2]
  have hknown : ((snaps.filter fun s => decide (s.height = x)).map Record.order) ⊆ KNOWN_ORDERS := by
    intro o ho
    obtain ⟨s, hs, rfl⟩ := List.mem_map.1 ho
    exact h.known s (List.mem_filter.1 hs).1
  have hle := (List.subperm_of_subset horders hknown).length_le
  rwa [List.length_map] at hle

/-! ## Reading -/

theorem isRecent_iff {snaps : List Record} {root : List Char} : isRecent snaps root = true ↔ ∃ s ∈ snaps, s.root = root := by
  simp only [isRecent, List.any_eq_true, decide_eq_true_eq]

theorem shaIsRecent_iff {snaps : List Record} {shaRoot : List Char} :
    shaIsRecent snaps shaRoot = true ↔ ∃ s ∈ snaps, s.shaRoot = some shaRoot := by
  simp only [shaIsRecent, List.any_eq_true, decide_eq_true_eq]

/-- The finite timestamps of the records of a root. -/
def finiteTs (snaps : List Record) (root : List Char) : List ℚ :=
  snaps.filterMap fun s => if s.root ≠ root then none else match s.ts with
    | .dec d => some d.toRat
    | _ => none

theorem mem_finiteTs {snaps : List Record} {root : List Char} {t : ℚ} :
    t ∈ finiteTs snaps root ↔ ∃ s ∈ snaps, s.root = root ∧ ∃ d, s.ts = .dec d ∧ d.toRat = t := by
  simp only [finiteTs, List.mem_filterMap]
  constructor
  · rintro ⟨s, hs, h⟩
    split at h
    · cases h
    · rename_i hr
      split at h
      · cases h
        exact ⟨s, hs, Decidable.of_not_not hr, _, ‹_›, rfl⟩
      · cases h
  · rintro ⟨s, hs, hr, d, hd, rfl⟩
    refine ⟨s, hs, ?_⟩
    rw [if_neg (fun h => h hr), hd]

theorem finiteTs_append (l l' : List Record) (root : List Char) :
    finiteTs (l ++ l') root = finiteTs l root ++ finiteTs l' root := List.filterMap_append

theorem max?_concat (l : List ℚ) (x : ℚ) : (l ++ [x]).max? = some (l.max?.elim x fun n => max n x) := by
  cases l with
  | nil => rfl
  | cons a l =>
    rw [List.cons_append, List.max?_cons', List.foldl_append, List.max?_cons']
    rfl

theorem tsOf_eq_max (snaps : List Record) (root : List Char) : tsOf snaps root = (finiteTs snaps root).max? := by
  induction snaps using List.reverseRecOn with
  | nil => rfl
  | append_singleton l s ih =>
    rw [finiteTs_append, tsOf, List.foldl_append, List.foldl_cons, List.foldl_nil, ← tsOf, ih]
    by_cases hr : s.root = root
    · cases hts : s.ts with
      | dec d =>
        have hone : finiteTs [s] root = [d.toRat] := by simp [finiteTs, hr, hts]
        rw [hone, max?_concat, if_neg (fun h => h hr)]
        -- the fold keeps the greater of what it has seen and this timestamp
        cases hmax : (finiteTs l root).max? with
        | none => rfl
        | some n =>
          dsimp only [Option.elim]
          split
          · rw [max_eq_right (le_of_lt ‹_›)]
          · rw [max_eq_left (not_lt.1 ‹_›)]
      | nan => simp [finiteTs, hr, hts]
      | infinite neg => simp [finiteTs, hr, hts]
    · simp [finiteTs, hr]

theorem tsOf_eq_some {snaps : List Record} {root : List Char} {t : ℚ} : tsOf snaps root = some t ↔
    (∃ s ∈ snaps, s.root = root ∧ ∃ d, s.ts = .dec d ∧ d.toRat = t) ∧
      ∀ s ∈ snaps, s.root = root → ∀ d, s.ts = .dec d → d.toRat ≤ t := by
  rw [tsOf_eq_max, List.max?_eq_some_iff, mem_finiteTs]
  apply and_congr_right
  intro _
  constructor
  · intro h s hs hr d hd
    exact h _ (mem_finiteTs.2 ⟨s, hs, hr, d, hd, rfl⟩)
  · intro h b hb
    obtain ⟨s, hs, hr, d, hd, rfl⟩ := mem_finiteTs.1 hb
    exact h s hs hr d hd

theorem isEligibleWithin_iff {snaps : List Record} {root : List Char} {maxAge now : ℚ} :
    isEligibleWithin snaps root maxAge now = true ↔ (∃ s ∈ snaps, s.root = root) ∧
      (0 < maxAge → ∃ t, tsOf snaps root = some t ∧ max 0 (now - t) ≤ maxAge) := by
  rw [← isRecent_iff]
  unfold isEligibleWithin
  cases isRecent snaps root with
  | false => simp
  | true =>
    by_cases hpos : 0 < maxAge
    · cases tsOf snaps root with
      | none => simp [hpos]
      | some t => simp [hpos]
    · simp [hpos]

/-- The window after any sequence of operations. -/
theorem structure_holds (limits : Limits) (ops : List Op) :
    let snaps := run limits ops
    Sorted snaps ∧ (snaps.map Record.key).Nodup ∧
    (∀ x, (snaps.filter fun s => decide (s.height = x)).length ≤ 2) ∧ (heights snaps).length ≤ limits.window ∧
    (∀ r pinned snaps', adopt limits pinned snaps r = .ok snaps' → (∀ s ∈ snaps, s.height ≤ r.height) →
      r ∈ snaps' ∧ current snaps' = some r) ∧
    (∀ r pinned e, adopt limits pinned snaps r = .error e → step limits snaps (.adopt r pinned) = snaps) ∧
    (∀ root, isRecent snaps root = true ↔ ∃ s ∈ snaps, s.root = root) ∧
    (∀ root, shaIsRecent snaps root = true ↔ ∃ s ∈ snaps, s.shaRoot = some root) ∧
    (∀ root t, tsOf snaps root = some t ↔ (∃ s ∈ snaps, s.root = root ∧ ∃ d, s.ts = .dec d ∧ d.toRat = t) ∧
      ∀ s ∈ snaps, s.root = root → ∀ d, s.ts = .dec d → d.toRat ≤ t) ∧
    (∀ root maxAge now, isEligibleWithin snaps root maxAge now = true ↔ (∃ s ∈ snaps, s.root = root) ∧
      (0 < maxAge → ∃ t, tsOf snaps root = some t ∧ max 0 (now - t) ≤ maxAge)) := by
  have h := wellFormed_run limits ops
  refine ⟨h.sorted, h.keys, h.two_per_height, h.narrow, fun r pinned snaps' hok hmax => ?_, fun r pinned e he => ?_,
    fun root => isRecent_iff, fun root => shaIsRecent_iff, fun root t => tsOf_eq_some,
    fun root maxAge now => isEligibleWithin_iff⟩
  · have hcur : current snaps' = some r := by
      rw [adopt_eq_ok hok]
      exact current_adopted hmax
    exact ⟨List.mem_of_getLast? hcur, hcur⟩
  · dsimp only [RootWindow.step]
    rw [he]

/-! ## The eviction loop -/

/-- The records of a window, which stand by height. -/
structure Window where
  snaps : List Record
  sorted : Sorted snaps

theorem evictionTarget_none {pinned : List (List Char)} {snaps : List Record} (h : evictionTarget pinned snaps = none) :
    (heights snaps).length ≤ 1 := by
  unfold evictionTarget at h
  split at h
  · rename_i hn
    rw [List.getLast?_eq_none_iff.1 hn]
    exact Nat.zero_le _
  · rename_i newest hn
    dsimp only at h
    obtain ⟨-, hhead⟩ := Option.or_eq_none_iff.1 h
    have hall : ∀ x ∈ heights snaps, x = newest := by
      intro x hx
      by_contra hne
      have hmem : x ∈ (heights snaps).filter fun h => decide (h ≠ newest) := List.mem_filter.2 ⟨hx, decide_eq_true hne⟩
      rw [List.head?_eq_none_iff.1 hhead] at hmem
      cases hmem
    have hsub : heights snaps ⊆ [newest] := fun x hx => List.mem_singleton.2 (hall x hx)
    exact (List.subperm_of_subset (heights_nodup snaps) hsub).length_le

/-- What one turn evicts: a height that is not the newest, unpinned while there is one, and the oldest of its kind. -/
theorem evictionTarget_spec {pinned : List (List Char)} {snaps : List Record} (hs : Sorted snaps) {target : Int}
    (h : evictionTarget pinned snaps = some target) :
    target ∈ heights snaps ∧
      ∃ newest ∈ heights snaps, target < newest ∧ (∀ x ∈ heights snaps, x ≤ newest) ∧
        (target ∈ pinnedHeights pinned snaps → ∀ x ∈ heights snaps, x ≠ newest → x ∈ pinnedHeights pinned snaps) ∧
        ∀ x ∈ heights snaps, x ≠ newest → (x ∈ pinnedHeights pinned snaps ↔ target ∈ pinnedHeights pinned snaps) →
          target ≤ x := by
  have hsorted := heights_sorted hs
  have hnd := heights_nodup snaps
  unfold evictionTarget at h
  split at h
  · cases h
  rename_i newest hn
  dsimp only at h
  have hlast := List.mem_of_getLast? hn
  have hmax : ∀ x ∈ heights snaps, x ≤ newest := by
    intro x hx
    obtain ⟨ys, hys⟩ := List.getLast?_eq_some_iff.1 hn
    rw [hys] at hx hsorted
    rcases List.mem_append.1 hx with hx | hx
    · exact (List.pairwise_append.1 hsorted).2.2 x hx newest (List.mem_singleton_self _)
    · exact le_of_eq (List.mem_singleton.1 hx)
  generalize hc : (heights snaps).filter (fun h => decide (h ≠ newest)) = candidates at h
  have hcand {x : Int} : x ∈ candidates ↔ x ∈ heights snaps ∧ x ≠ newest := by
    rw [← hc, List.mem_filter, decide_eq_true_eq]
  have hcsorted : candidates.Pairwise (· ≤ ·) := by
    rw [← hc]; exact hsorted.sublist List.filter_sublist
  have hmem : target ∈ candidates := by
    rcases Option.or_eq_some_iff.1 h with hf | ⟨-, hh⟩
    · exact List.mem_of_find?_eq_some hf
    · exact List.mem_of_head? hh
  obtain ⟨hin, hne⟩ := hcand.1 hmem
  refine ⟨hin, newest, hlast, lt_of_le_of_ne (hmax _ hin) hne, hmax, ?_, ?_⟩
  · intro hpin x hx hxn
    rcases Option.or_eq_some_iff.1 h with hf | ⟨hf, -⟩
    · exact absurd hpin (by simpa using List.find?_some hf)
    · have := List.find?_eq_none.1 hf x (hcand.2 ⟨hx, hxn⟩)
      simpa using this
  · intro x hx hxn hiff
    rcases Option.or_eq_some_iff.1 h with hf | ⟨hf, hh⟩
    -- an unpinned target is the first unpinned candidate, and the candidates ascend
    · have hup : target ∉ pinnedHeights pinned snaps := by simpa using List.find?_some hf
      obtain ⟨-, as, bs, hab, has⟩ := List.find?_eq_some_iff_append.1 hf
      have hxc := hcand.2 ⟨hx, hxn⟩
      rw [hab] at hxc hcsorted
      rcases List.mem_append.1 hxc with hxa | hxb
      · have := has x hxa
        simp [hiff, hup] at this
      · rcases List.mem_cons.1 hxb with rfl | hxb
        · exact le_refl _
        · exact (List.pairwise_cons.1 (List.pairwise_append.1 hcsorted).2.1).1 x hxb
    · obtain ⟨rest, hrest⟩ := List.head?_eq_some_iff.1 hh
      have hxc := hcand.2 ⟨hx, hxn⟩
      rw [hrest] at hxc hcsorted
      rcases List.mem_cons.1 hxc with rfl | hxc
      · exact le_refl _
      · exact (List.pairwise_cons.1 hcsorted).1 x hxc

/-- One turn of the loop, with the pins as they are. -/
def Turn (maxLeaves : Nat) (pinned : List (List Char)) (snaps snaps' : List Record) : Prop :=
  evictStep maxLeaves pinned snaps = some snaps'

theorem Turn.target {maxLeaves : Nat} {pinned : List (List Char)} {snaps snaps' : List Record}
    (h : Turn maxLeaves pinned snaps snaps') : ∃ target, evictionTarget pinned snaps = some target ∧
      snaps' = snaps.filter fun s => decide (s.height ≠ target) := by
  unfold Turn evictStep at h
  split at h
  · cases h
  · obtain ⟨target, ht, heq⟩ := Option.map_eq_some_iff.1 h
    exact ⟨target, ht, heq.symm⟩

theorem Turn.length_lt {maxLeaves : Nat} {pinned : List (List Char)} {snaps snaps' : List Record} (hs : Sorted snaps)
    (h : Turn maxLeaves pinned snaps snaps') : snaps'.length < snaps.length := by
  obtain ⟨target, ht, rfl⟩ := h.target
  obtain ⟨s, hmem, hh⟩ := mem_heights.1 (evictionTarget_spec hs ht).1
  apply List.length_filter_lt_length_iff_exists.2
  exact ⟨s, hmem, by simp [hh]⟩

/-- As many turns as there are records are enough for the loop to end. -/
theorem evictLoop_ends {maxLeaves : Nat} {pinned : List (List Char)} : ∀ (n : Nat) {snaps : List Record}, Sorted snaps →
    snaps.length ≤ n → Relation.ReflTransGen (Turn maxLeaves pinned) snaps (evictLoop maxLeaves (fun _ => pinned) n snaps) ∧
      evictStep maxLeaves pinned (evictLoop maxLeaves (fun _ => pinned) n snaps) = none := by
  intro n
  induction n with
  | zero =>
    intro snaps _ hlen
    rw [List.length_eq_zero_iff.1 (Nat.le_zero.1 hlen)]
    exact ⟨.refl, if_pos (Nat.zero_le maxLeaves)⟩
  | succ n ih =>
    intro snaps hs hlen
    rw [evictLoop]
    split
    · exact ⟨.refl, ‹_›⟩
    · rename_i snaps' hstep
      have hlt := Turn.length_lt hs hstep
      obtain ⟨hrun, hend⟩ := ih (hs.sublist (evictStep_sublist hstep)) (by omega)
      exact ⟨.head hstep hrun, hend⟩

/-- What the turns of the loop leave of a window. -/
theorem turns_spec {maxLeaves : Nat} {pinned : List (List Char)} {snaps mid : List Record} (hs : Sorted snaps)
    (h : Relation.ReflTransGen (Turn maxLeaves pinned) snaps mid) : Sorted mid ∧
      (∃ gone : List Int, mid = snaps.filter fun s => decide (s.height ∉ gone)) ∧
      ∀ s ∈ snaps, (∀ x ∈ snaps, x.height ≤ s.height) → s ∈ mid := by
  induction h with
  | refl =>
    exact ⟨hs, ⟨[], (List.filter_eq_self.2 fun s _ => by simp).symm⟩, fun s hs _ => hs⟩
  | @tail mid next _ hturn ih =>
    obtain ⟨hsorted, ⟨gone, hgone⟩, hnewest⟩ := ih
    obtain ⟨target, ht, hnext⟩ := hturn.target
    obtain ⟨-, newest, hn, hlt, -⟩ := evictionTarget_spec hsorted ht
    subst hnext
    refine ⟨hsorted.sublist List.filter_sublist, ⟨target :: gone, ?_⟩, fun s hs hmax => ?_⟩
    · rw [hgone, List.filter_filter]
      apply List.filter_congr
      intro s _
      simp
    · obtain ⟨x, hx, rfl⟩ := mem_heights.1 hn
      rw [hgone] at hx
      have hle := hmax x (List.mem_filter.1 hx).1
      exact List.mem_filter.2 ⟨hnewest s hs hmax, decide_eq_true (by omega)⟩

/-- The eviction of a window, with the pins held fixed. -/
theorem leaf_bound (w : Window) {maxLeaves : Nat} (hpos : 0 < maxLeaves) (pinned : List (List Char)) :
    let result := enforceLeafBound maxLeaves (fun _ => pinned) w.snaps
    (Relation.ReflTransGen (Turn maxLeaves pinned) w.snaps result ∧ evictStep maxLeaves pinned result = none) ∧
    (retainedLeaves result ≤ maxLeaves ∨ (heights result).length ≤ 1) ∧
    (∀ s ∈ w.snaps, (∀ x ∈ w.snaps, x.height ≤ s.height) → s ∈ result) ∧
    (∃ gone : List Int, result = w.snaps.filter fun s => decide (s.height ∉ gone)) ∧
    ∀ mid next, Relation.ReflTransGen (Turn maxLeaves pinned) w.snaps mid → Turn maxLeaves pinned mid next →
      ∃ target ∈ heights mid, next = mid.filter (fun s => decide (s.height ≠ target)) ∧
        ∃ newest ∈ heights mid, target < newest ∧ (∀ x ∈ heights mid, x ≤ newest) ∧
          (target ∈ pinnedHeights pinned mid → ∀ x ∈ heights mid, x ≠ newest → x ∈ pinnedHeights pinned mid) ∧
          ∀ x ∈ heights mid, x ≠ newest → (x ∈ pinnedHeights pinned mid ↔ target ∈ pinnedHeights pinned mid) →
            target ≤ x := by
  intro result
  have hends : Relation.ReflTransGen (Turn maxLeaves pinned) w.snaps result ∧ evictStep maxLeaves pinned result = none := by
    have heq : result = evictLoop maxLeaves (fun _ => pinned) w.snaps.length w.snaps := if_neg (by omega)
    rw [heq]
    exact evictLoop_ends _ w.sorted (le_refl _)
  obtain ⟨-, hgone, hnewest⟩ := turns_spec w.sorted hends.1
  refine ⟨hends, ?_, hnewest, hgone, fun mid next hrun hturn => ?_⟩
  · have hend := hends.2
    unfold evictStep at hend
    split at hend
    · exact .inl ‹_›
    · exact .inr (evictionTarget_none (Option.map_eq_none_iff.1 hend))
  · obtain ⟨target, ht, hnext⟩ := hturn.target
    obtain ⟨hin, hspec⟩ := evictionTarget_spec (turns_spec w.sorted hrun).1 ht
    exact ⟨target, hin, hnext, hspec⟩

/-! ## A window over its bound -/

def leafRecord (height : Int) (root : List Char) (leaves : Nat) : Record where
  height := height
  root := root
  shaRoot := none
  ts := .nan
  order := none
  blockHash := none
  setCommitment := none
  snapshot := some (.obj [("leaves", .arr (List.replicate leaves (.str "1")))])

/-- One root at the heights 1 and 3, and another between. -/
def threeHeights : Window where
  snaps := [leafRecord 1 ['a'] 1, leafRecord 2 ['b'] 1, leafRecord 3 ['a'] 1]
  sorted := by simp [Sorted, leafRecord]

/-- With the root of 1 and 3 pinned, the height between goes. -/
theorem leaf_bound_three : leafRecord 3 ['a'] 1 ∈ enforceLeafBound 2 (fun _ => [['a']]) threeHeights.snaps ∧
    (enforceLeafBound 2 (fun _ => [['a']]) threeHeights.snaps).map Record.height = [1, 3] := by
  refine ⟨?_, by decide +kernel⟩
  refine (@leaf_bound threeHeights 2 (by decide) [['a']]).2.2.1 (leafRecord 3 ['a'] 1) ?_ ?_
  · simp [threeHeights]
  · simp [threeHeights, leafRecord]

end RootWindow
