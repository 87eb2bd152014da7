import MnoVerify.RateLimiter
import Mathlib.Data.List.Pairwise
import Mathlib.Order.Monotone.Basic

/-!
# Charges of a rate limiter

What one `allow` does to each key of its table, and what a list of charges does.
-/

namespace RateLimiter

/-! ## One charge -/

section
variable {l : RateLimiter} {key : String} {now₁ now₂ : Int}

/-- A charge opens a window. -/
def fresh (l : RateLimiter) (key : String) (now : Int) : Bool := (l.hits.lookup key).all fun e => decide (e.reset < now)

theorem fresh_of_none (h : l.hits.lookup key = none) (now : Int) : l.fresh key now = true := by
  rw [fresh, h]
  rfl

theorem fresh_of_some {e : Hit} (h : l.hits.lookup key = some e) (now : Int) : l.fresh key now = decide (e.reset < now) := by
  rw [fresh, h]
  rfl

theorem charged_of_fresh (h : l.fresh key now₁ = true) : l.charged key now₁ = ⟨1, now₁ + l.windowMs⟩ := by
  unfold charged
  cases he : l.hits.lookup key with
  | none => rfl
  | some e =>
    rw [fresh_of_some he, decide_eq_true_eq] at h
    exact if_pos h

theorem charged_of_live {e : Hit} (he : l.hits.lookup key = some e) (h : ¬ e.reset < now₁) :
    l.charged key now₁ = ⟨e.count + 1, e.reset⟩ := by
  unfold charged
  rw [he]
  exact if_neg h

theorem fresh_or_live (l : RateLimiter) (key : String) (now : Int) :
    l.fresh key now = true ∨ ∃ e, l.hits.lookup key = some e ∧ ¬ e.reset < now := by
  cases he : l.hits.lookup key with
  | none => exact Or.inl (fresh_of_none he now)
  | some e =>
    rw [fresh_of_some he, decide_eq_true_eq]
    by_cases h : e.reset < now
    · exact Or.inl h
    · exact Or.inr ⟨e, rfl, h⟩

theorem dropped_append_evict (n : Nat) (hits : List (String × Hit)) : dropped n hits ++ evict n hits = hits := by
  induction hits with
  | nil => rfl
  | cons p hits ih =>
    rw [dropped, evict]
    split
    · rw [List.cons_append, ih]
    · rfl

theorem evict_length {n : Nat} (hn : 1 ≤ n) (hits : List (String × Hit)) : (evict n hits).length < n := by
  induction hits with
  | nil => exact hn
  | cons p hits ih =>
    rw [evict]
    split
    · exact ih
    · rename_i h
      rw [List.length_cons]
      omega

theorem evict_sublist (n : Nat) (hits : List (String × Hit)) : (evict n hits).Sublist hits := by
  have h := List.sublist_append_right (dropped n hits) (evict n hits)
  rwa [dropped_append_evict] at h

theorem makeRoom_sublist (l : RateLimiter) (now : Int) : (l.makeRoom now).Sublist l.hits := by
  unfold makeRoom
  split
  · exact (evict_sublist _ _).trans List.filter_sublist
  · exact List.Sublist.refl _

theorem makeRoom_length (hk : 1 ≤ l.maxKeys) (now : Int) : (l.makeRoom now).length < l.maxKeys := by
  unfold makeRoom
  split
  · exact evict_length hk _
  · rename_i h
    exact Nat.lt_of_not_le h

/-- The table that a charge writes to. -/
theorem allow_hits (l : RateLimiter) (key : String) (now₁ now₂ : Int) :
    ∃ hits, hits.Sublist l.hits ∧ (l.allow key now₁ now₂).2.hits = Assoc.set hits key (l.charged key now₁) := by
  refine ⟨_, ?_, rfl⟩
  split
  · exact List.Sublist.refl _
  · exact makeRoom_sublist l now₂

theorem lookup_allow_self (l : RateLimiter) (key : String) (now₁ now₂ : Int) :
    (l.allow key now₁ now₂).2.hits.lookup key = some (l.charged key now₁) :=
  Assoc.lookup_set_self _ _ _

theorem nodup_allow (h : (l.hits.map Prod.fst).Nodup) : ((l.allow key now₁ now₂).2.hits.map Prod.fst).Nodup := by
  obtain ⟨hits, hs, heq⟩ := allow_hits l key now₁ now₂
  rw [heq]
  exact Assoc.nodup_set ((hs.map Prod.fst).nodup h) _ _

theorem lookup_allow_of_ne {k : String} (hk : k ≠ key) (h : (l.hits.map Prod.fst).Nodup) :
    (l.allow key now₁ now₂).2.hits.lookup k = l.hits.lookup k ∨ (l.allow key now₁ now₂).2.hits.lookup k = none := by
  obtain ⟨hits, hs, heq⟩ := allow_hits l key now₁ now₂
  rw [heq, Assoc.lookup_set_of_ne hk]
  exact Assoc.lookup_sublist hs h k

theorem length_allow (hk : 1 ≤ l.maxKeys) (h : l.hits.length ≤ l.maxKeys) :
    (l.allow key now₁ now₂).2.hits.length ≤ l.maxKeys := by
  unfold allow
  cases he : l.hits.lookup key with
  | none => exact (Assoc.length_set_le _ _ _).trans (makeRoom_length hk now₂)
  | some e => exact (Assoc.length_set_of_lookup he).le.trans h

theorem evicted_of_known {e : Hit} (he : l.hits.lookup key = some e) : l.evicted key now₂ = [] := by
  unfold evicted
  rw [he]
  rfl

theorem evicted_of_room (h : l.hits.length < l.maxKeys) : l.evicted key now₂ = [] := by
  unfold evicted
  rw [decide_eq_false (Nat.not_le_of_lt h), Bool.and_false]
  rfl

/-- What a charge of a new key evicts and what it leaves are the live part of the table, in its order. -/
theorem evicted_append_makeRoom (he : l.hits.lookup key = none) (h : l.maxKeys ≤ l.hits.length) :
    l.evicted key now₂ ++ l.makeRoom now₂ = (l.sweep now₂).hits := by
  unfold evicted makeRoom
  rw [he, decide_eq_true h, if_pos h]
  exact dropped_append_evict _ _

theorem evicted_keys (l : RateLimiter) (key : String) (now₂ : Int) :
    l.evicted key now₂ = [] ∨ l.hits.lookup key = none ∧ l.maxKeys ≤ l.hits.length := by
  cases he : l.hits.lookup key with
  | some e => exact Or.inl (evicted_of_known he)
  | none =>
    by_cases h : l.maxKeys ≤ l.hits.length
    · exact Or.inr ⟨rfl, h⟩
    · exact Or.inl (evicted_of_room (Nat.lt_of_not_le h))

theorem mem_sweep {p : String × Hit} : p ∈ (l.sweep now₂).hits ↔ p ∈ l.hits ∧ ¬ p.2.reset < now₂ := by
  simp [sweep, List.mem_filter]

theorem allow_hits_of_new (he : l.hits.lookup key = none) :
    (l.allow key now₁ now₂).2.hits = Assoc.set (l.makeRoom now₂) key (l.charged key now₁) := by
  unfold allow
  rw [he]
  rfl

theorem allow_hits_of_known {e : Hit} (he : l.hits.lookup key = some e) :
    (l.allow key now₁ now₂).2.hits = Assoc.set l.hits key (l.charged key now₁) := by
  unfold allow
  rw [he]
  rfl

theorem not_mem_evicted : key ∉ (l.evicted key now₂).map Prod.fst := by
  intro hmem
  rcases evicted_keys l key now₂ with h | ⟨he, h⟩
  · rw [h] at hmem
    cases hmem
  · obtain ⟨p, hp, rfl⟩ := List.mem_map.1 hmem
    have hsweep : p ∈ (l.sweep now₂).hits := by
      rw [← evicted_append_makeRoom he h]
      exact List.mem_append_left _ hp
    exact Assoc.lookup_eq_none_iff.1 he (List.mem_map_of_mem (mem_sweep.1 hsweep).1)

theorem lookup_allow_of_evicted {k : String} (h : (l.hits.map Prod.fst).Nodup)
    (hev : k ∈ (l.evicted key now₂).map Prod.fst) : (l.allow key now₁ now₂).2.hits.lookup k = none := by
  have hk : k ≠ key := by
    rintro rfl
    exact not_mem_evicted hev
  rcases evicted_keys l key now₂ with hnil | ⟨he, hfull⟩
  · rw [hnil] at hev
    cases hev
  · have hnd : ((l.sweep now₂).hits.map Prod.fst).Nodup := (List.filter_sublist.map Prod.fst).nodup h
    rw [← evicted_append_makeRoom he hfull, List.map_append] at hnd
    rw [allow_hits_of_new he, Assoc.lookup_set_of_ne hk, Assoc.lookup_eq_none_iff]
    exact fun hmem => (List.nodup_append.1 hnd).2.2 k hev k hmem rfl

/-- A key that the charge of another does not evict is there as before, or its window was over. -/
theorem lookup_allow_of_not_evicted {k : String} (hk : k ≠ key) (h : (l.hits.map Prod.fst).Nodup)
    (hev : k ∉ (l.evicted key now₂).map Prod.fst) :
    (l.allow key now₁ now₂).2.hits.lookup k = l.hits.lookup k ∨
      (l.allow key now₁ now₂).2.hits.lookup k = none ∧ ∃ e, l.hits.lookup k = some e ∧ e.reset < now₂ := by
  cases he : l.hits.lookup key with
  | some e =>
    rw [allow_hits_of_known he, Assoc.lookup_set_of_ne hk]
    exact Or.inl rfl
  | none =>
    rw [allow_hits_of_new he, Assoc.lookup_set_of_ne hk]
    refine (Assoc.lookup_sublist (makeRoom_sublist l now₂) h k).elim Or.inl fun hnone => ?_
    cases hk' : l.hits.lookup k with
    | none => exact Or.inl hnone
    | some e =>
      refine Or.inr ⟨hnone, e, rfl, ?_⟩
      by_contra hlive
      by_cases hfull : l.maxKeys ≤ l.hits.length
      · -- still live, not evicted: it is in what is left
        have hmem : (k, e) ∈ (l.sweep now₂).hits := mem_sweep.2 ⟨Assoc.mem_of_lookup hk', hlive⟩
        rw [← evicted_append_makeRoom he hfull, List.mem_append] at hmem
        rcases hmem with hmem | hmem
        · exact hev (List.mem_map_of_mem hmem)
        · exact Assoc.lookup_eq_none_iff.1 hnone (List.mem_map_of_mem hmem)
      · rw [makeRoom, if_neg hfull, hk'] at hnone
        cases hnone

/-! ### Asking and charging -/

/-- A key that is asked and then charged, later and after charges of other keys, is within its limit. -/
theorem count_of_wouldAllow (hmax : 1 ≤ l.max) {now : Int} (hnow : now ≤ now₁) (h : l.wouldAllow key now = true) :
    (l.charged key now₁).count ≤ l.max := by
  rcases fresh_or_live l key now₁ with hf | ⟨e, he, hlive⟩
  · rw [charged_of_fresh hf]
    exact hmax
  · rw [charged_of_live he hlive]
    simp only [wouldAllow, he, Bool.or_eq_true, decide_eq_true_eq] at h
    exact h.resolve_left fun hr => hlive (lt_of_lt_of_le hr hnow)

theorem wouldAllow_congr {l' : RateLimiter} (hm : l'.max = l.max) {now : Int}
    (hl : l'.hits.lookup key = l.hits.lookup key ∨ l'.hits.lookup key = none) (h : l.wouldAllow key now = true) :
    l'.wouldAllow key now = true := by
  unfold wouldAllow at h ⊢
  rcases hl with hl | hl
  · rwa [hl, hm]
  · rw [hl]

end

/-! ## A list of charges -/

section
variable {ι : Type} [DecidableEq ι] {clock : Nat → Int}

omit [DecidableEq ι] in
theorem askAll_eq_true (ls : ι → RateLimiter) (t : Nat) (pairs : List (ι × String)) :
    askAll clock ls t pairs = true ↔
      ∀ s i key, pairs[s]? = some (i, key) → (ls i).wouldAllow key (clock (t + s)) = true := by
  induction pairs generalizing t with
  | nil =>
    refine ⟨fun _ s i key h => ?_, fun _ => rfl⟩
    rw [List.getElem?_nil] at h
    cases h
  | cons p pairs ih =>
    obtain ⟨i, key⟩ := p
    rw [askAll]
    by_cases h : (ls i).wouldAllow key (clock t) = true
    · rw [h, Bool.not_true, if_neg Bool.false_ne_true, ih]
      constructor
      · intro hall s j k hs
        cases s with
        | zero =>
          cases hs
          exact h
        | succ s =>
          rw [Nat.add_left_comm, Nat.add_comm]
          exact hall s j k hs
      · intro hall s j k hs
        have := hall (s + 1) j k hs
        rwa [← Nat.add_assoc, Nat.add_right_comm] at this
    · rw [Bool.not_eq_true] at h
      rw [h, Bool.not_false, if_pos rfl]
      refine ⟨fun hf => (Bool.false_ne_true hf).elim, fun hall => ?_⟩
      rw [← hall 0 i key rfl, ← h, Nat.add_zero]

variable {ls : ι → RateLimiter}

theorem update_allow_fields (ls : ι → RateLimiter) (i j : ι) (key : String) (now₁ now₂ : Int) :
    (Function.update ls i ((ls i).allow key now₁ now₂).2 j).max = (ls j).max ∧
      (Function.update ls i ((ls i).allow key now₁ now₂).2 j).windowMs = (ls j).windowMs := by
  by_cases h : j = i
  · subst h
    rw [Function.update_self]
    exact ⟨rfl, rfl⟩
  · rw [Function.update_of_ne h]
    exact ⟨rfl, rfl⟩

theorem update_allow_nodup (hnd : ∀ i, ((ls i).hits.map Prod.fst).Nodup) (i j : ι) (key : String) (now₁ now₂ : Int) :
    ((Function.update ls i ((ls i).allow key now₁ now₂).2 j).hits.map Prod.fst).Nodup := by
  by_cases h : j = i
  · subst h
    rw [Function.update_self]
    exact nodup_allow (hnd j)
  · rw [Function.update_of_ne h]
    exact hnd j

/-- A charge leaves the other keys, or evicts some of its own limiter. -/
theorem update_allow_lookup (hnd : ∀ i, ((ls i).hits.map Prod.fst).Nodup) {i j : ι} {key k : String}
    (h : (j, k) ≠ (i, key)) (now₁ now₂ : Int) :
    (Function.update ls i ((ls i).allow key now₁ now₂).2 j).hits.lookup k = (ls j).hits.lookup k ∨
      (Function.update ls i ((ls i).allow key now₁ now₂).2 j).hits.lookup k = none ∧ j = i ∧ k ≠ key := by
  by_cases hj : j = i
  · subst hj
    have hk : k ≠ key := fun hk => h (by rw [hk])
    rw [Function.update_self]
    exact (lookup_allow_of_ne hk (hnd j)).imp_right fun hnone => ⟨hnone, rfl, hk⟩
  · rw [Function.update_of_ne hj]
    exact Or.inl rfl

theorem chargeAll_of_not_mem (hnd : ∀ i, ((ls i).hits.map Prod.fst).Nodup) {pairs : List (ι × String)} {i : ι}
    {key : String} (h : (i, key) ∉ pairs) (t : Nat) :
    (chargeAll clock ls t pairs i).hits.lookup key = (ls i).hits.lookup key ∨
      (chargeAll clock ls t pairs i).hits.lookup key = none ∧ ∃ key', key' ≠ key ∧ (i, key') ∈ pairs := by
  induction pairs generalizing ls t with
  | nil => exact Or.inl rfl
  | cons p pairs ih =>
    obtain ⟨j, k⟩ := p
    rw [List.mem_cons, not_or] at h
    rw [chargeAll]
    rcases ih (update_allow_nodup hnd j · k _ _) h.2 (t + 2) with hsame | ⟨hnone, key', hne, hmem⟩
    · rw [hsame]
      refine (update_allow_lookup hnd h.1 _ _).imp_right fun ⟨hnone, hij, hne⟩ => ⟨hnone, k, hne.symm, ?_⟩
      rw [hij]
      exact List.mem_cons_self
    · exact Or.inr ⟨hnone, key', hne, List.mem_cons_of_mem _ hmem⟩

theorem chargeAll_of_not_named {pairs : List (ι × String)} {i : ι} (h : ∀ key, (i, key) ∉ pairs) (t : Nat) :
    chargeAll clock ls t pairs i = ls i := by
  induction pairs generalizing ls t with
  | nil => rfl
  | cons p pairs ih =>
    obtain ⟨j, k⟩ := p
    have hij : i ≠ j := by
      rintro rfl
      exact h k List.mem_cons_self
    rw [chargeAll, ih fun key hmem => h key (List.mem_cons_of_mem _ hmem), Function.update_of_ne hij]

/-- A key of the list after the charges: one more in its live window, or one in a fresh window, or evicted by the charge
of another key of its limiter. -/
theorem chargeAll_of_mem (hnd : ∀ i, ((ls i).hits.map Prod.fst).Nodup) (hmax : ∀ i, 1 ≤ (ls i).max)
    (hclock : NonDecreasing clock) {pairs : List (ι × String)} (hpairs : pairs.Nodup) {t₀ : Nat} {i : ι} {key : String} (t : Nat)
    (ht : t₀ ≤ t) (hask : (ls i).wouldAllow key (clock t₀) = true) (hmem : (i, key) ∈ pairs) :
    (∃ s e, t ≤ s ∧ (chargeAll clock ls t pairs i).hits.lookup key = some e ∧ e.count ≤ (ls i).max ∧
        ((∃ e₀, (ls i).hits.lookup key = some e₀ ∧ ¬ e₀.reset < clock s ∧ e = ⟨e₀.count + 1, e₀.reset⟩) ∨
          e = ⟨1, clock s + (ls i).windowMs⟩ ∧ ((ls i).fresh key (clock s) = true ∨ ∃ key', key' ≠ key ∧ (i, key') ∈ pairs))) ∨
      (chargeAll clock ls t pairs i).hits.lookup key = none ∧ ∃ key', key' ≠ key ∧ (i, key') ∈ pairs := by
  induction pairs generalizing ls t with
  | nil => cases hmem
  | cons p pairs ih =>
    obtain ⟨j, k⟩ := p
    rw [List.nodup_cons] at hpairs
    rw [chargeAll]
    have hnd' := (update_allow_nodup hnd j · k (clock t) (clock (t + 1)))
    rcases List.mem_cons.1 hmem with heq | hmem
    · cases heq
      -- its own charge; what follows leaves it or evicts it
      have hself : (Function.update ls i ((ls i).allow key (clock t) (clock (t + 1))).2 i).hits.lookup key =
          some ((ls i).charged key (clock t)) := by
        rw [Function.update_self, lookup_allow_self]
      rcases @chargeAll_of_not_mem _ _ clock _ hnd' _ _ _ hpairs.1 (t + 2) with hsame | ⟨hnone, key', hne, hmem'⟩
      · refine Or.inl ⟨t, _, le_refl t, hsame.trans hself, count_of_wouldAllow (hmax i) (hclock ht) hask, ?_⟩
        rcases fresh_or_live (ls i) key (clock t) with hf | ⟨e₀, he₀, hlive⟩
        · exact Or.inr ⟨charged_of_fresh hf, Or.inl hf⟩
        · exact Or.inl ⟨e₀, he₀, hlive, charged_of_live he₀ hlive⟩
      · exact Or.inr ⟨hnone, key', hne, List.mem_cons_of_mem _ hmem'⟩
    · have hne : (i, key) ≠ (j, k) := by
        rintro heq
        rw [heq] at hmem
        exact hpairs.1 hmem
      have hfields := (update_allow_fields ls j · k (clock t) (clock (t + 1)))
      have hl := update_allow_lookup hnd hne (clock t) (clock (t + 1))
      have hlater := ih hnd' (fun m => (hfields m).1.symm ▸ hmax m) hpairs.2 (t + 2) (by omega)
        (wouldAllow_congr (hfields i).1 (hl.imp_right And.left) hask) hmem
      rw [(hfields i).1, (hfields i).2] at hlater
      refine hlater.imp ?_ fun ⟨hnone, key', hk', hmem'⟩ => ⟨hnone, key', hk', List.mem_cons_of_mem _ hmem'⟩
      rintro ⟨s, e, hs, he, hcount, hcase⟩
      refine ⟨s, e, by omega, he, hcount, ?_⟩
      rcases hl with hl | ⟨hl, rfl, hk⟩
      · unfold fresh at hcase ⊢
        rw [hl] at hcase
        exact hcase.imp_right fun ⟨heq, hcase⟩ =>
          ⟨heq, hcase.imp_right fun ⟨key', hk', hmem'⟩ => ⟨key', hk', List.mem_cons_of_mem _ hmem'⟩⟩
      · rw [hl] at hcase
        rcases hcase with ⟨e₀, he₀, _⟩ | ⟨heq, _⟩
        · cases he₀
        · exact Or.inr ⟨heq, Or.inr ⟨k, hk.symm, List.mem_cons_self⟩⟩

end

end RateLimiter
