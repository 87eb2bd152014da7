import MnoVerify.RateLimiterSound

/-!
# The order of a rate limiter's table

What `allow` evicts is the front of the table. A key whose window is over is renewed where it stands, so the front is the
oldest only while nothing behind a renewed key is older.
-/

namespace RateLimiter

/-- The keys behind `key` in the table. -/
def behind (key : String) : List (String × Hit) → List (String × Hit)
  | [] => []
  | p :: hits => if p.1 = key then hits else behind key hits

/-- `allow` renews no key whose window is over while one behind it has a live window that started earlier. -/
def RenewsLast (l : RateLimiter) (key : String) (now : Int) : Prop :=
  ∀ e, l.hits.lookup key = some e → e.reset < now → ∀ p ∈ behind key l.hits, p.2.reset < now ∨ now ≤ p.2.reset - l.windowMs

/-- The tables of one limiter: each reading of the clock is at least the last, and every renewal is `RenewsLast`. -/
inductive Runs (windowSeconds : Int) (max maxKeys : Nat) : RateLimiter → Int → Prop
  | new (now : Int) : Runs windowSeconds max maxKeys (new windowSeconds max maxKeys) now
  | allow {l : RateLimiter} {now : Int} (h : Runs windowSeconds max maxKeys l now) {key : String} {now₁ now₂ : Int}
      (h₁ : now ≤ now₁) (h₂ : now₁ ≤ now₂) (hr : l.RenewsLast key now₁) :
      Runs windowSeconds max maxKeys (l.allow key now₁ now₂).2 now₂
  | sweep {l : RateLimiter} {now : Int} (h : Runs windowSeconds max maxKeys l now) {now' : Int} (h₁ : now ≤ now') :
      Runs windowSeconds max maxKeys (l.sweep now') now'

/-- The table is in the order of the windows, those that are over apart. -/
structure Ordered (l : RateLimiter) (now : Int) : Prop where
  order : l.hits.Pairwise fun p q => p.2.reset ≤ q.2.reset ∨ q.2.reset < now
  started : ∀ p ∈ l.hits, p.2.reset ≤ now + l.windowMs

section
variable {l : RateLimiter} {key : String} {now now₁ now₂ : Int}

theorem Ordered.later (h : l.Ordered now) (hn : now ≤ now₁) : l.Ordered now₁ where
  order := h.order.imp fun hpq => hpq.imp_right fun hlt => lt_of_lt_of_le hlt hn
  started p hp := (h.started p hp).trans (Int.add_le_add_right hn _)

theorem Ordered.sublist (h : l.Ordered now) {hits : List (String × Hit)} (hs : hits.Sublist l.hits) :
    ({ l with hits := hits } : RateLimiter).Ordered now where
  order := h.order.sublist hs
  started p hp := h.started p (hs.subset hp)

theorem behind_append {e : Hit} {a b : List (String × Hit)} (h : ((a ++ (key, e) :: b).map Prod.fst).Nodup) :
    behind key (a ++ (key, e) :: b) = b := by
  induction a with
  | nil => exact if_pos rfl
  | cons p a ih =>
    rw [List.cons_append, List.map_cons, List.nodup_cons] at h
    have hmem : (key, e) ∈ a ++ (key, e) :: b := List.mem_append_right a List.mem_cons_self
    have hne : p.1 ≠ key := by
      intro hp
      rw [hp] at h
      exact h.1 (List.mem_map_of_mem hmem)
    rw [List.cons_append, behind, if_neg hne, ih h.2]

/-- A write in place. -/
theorem Ordered.replace {a b : List (String × Hit)} {e e' : Hit} (h : l.Ordered now) (hl : l.hits = a ++ (key, e) :: b)
    (ha : ∀ p ∈ a, p.2.reset ≤ e'.reset ∨ e'.reset < now) (hst : e'.reset ≤ now + l.windowMs)
    (hb : ∀ p ∈ b, e'.reset ≤ p.2.reset ∨ p.2.reset < now) :
    ({ l with hits := a ++ (key, e') :: b } : RateLimiter).Ordered now := by
  have horder := h.order
  rw [hl, List.pairwise_append, List.pairwise_cons] at horder
  obtain ⟨hoa, ⟨_, hob⟩, hab⟩ := horder
  constructor
  · show List.Pairwise _ (a ++ (key, e') :: b)
    rw [List.pairwise_append, List.pairwise_cons]
    refine ⟨hoa, ⟨hb, hob⟩, fun p hp q hq => ?_⟩
    rcases List.mem_cons.1 hq with rfl | hq
    · exact ha p hp
    · exact hab p hp q (List.mem_cons_of_mem _ hq)
  · intro p hp
    rcases List.mem_append.1 hp with hp | hp
    · exact h.started p (hl ▸ List.mem_append_left _ hp)
    · rcases List.mem_cons.1 hp with rfl | hp
      · exact hst
      · exact h.started p (hl ▸ List.mem_append_right _ (List.mem_cons_of_mem _ hp))

/-- A new window at the end. -/
theorem Ordered.append (h : l.Ordered now) (h₁ : now ≤ now₁) {hits : List (String × Hit)} (hs : hits.Sublist l.hits) :
    ({ l with hits := hits ++ [(key, ⟨1, now₁ + l.windowMs⟩)] } : RateLimiter).Ordered now₁ := by
  have hs := (h.later h₁).sublist hs
  constructor
  · show List.Pairwise _ (hits ++ [(key, ⟨1, now₁ + l.windowMs⟩)])
    rw [List.pairwise_append]
    refine ⟨hs.order, List.pairwise_singleton _ _, fun p hp q hq => ?_⟩
    rw [List.mem_singleton.1 hq]
    exact Or.inl (hs.started p hp)
  · intro p hp
    rcases List.mem_append.1 hp with hp | hp
    · exact hs.started p hp
    · rw [List.mem_singleton.1 hp]

theorem Ordered.allow (h : l.Ordered now) (hnd : (l.hits.map Prod.fst).Nodup) (h₁ : now ≤ now₁) (h₂ : now₁ ≤ now₂)
    (hr : l.RenewsLast key now₁) : (l.allow key now₁ now₂).2.Ordered now₂ := by
  cases he : l.hits.lookup key with
  | none =>
    have hs := makeRoom_sublist l now₂
    have hnone : (l.makeRoom now₂).lookup key = none := (Assoc.lookup_sublist hs hnd key).elim (·.trans he) id
    have heq : (l.allow key now₁ now₂).2 = { l with hits := l.makeRoom now₂ ++ [(key, ⟨1, now₁ + l.windowMs⟩)] } := by
      rw [← charged_of_fresh (fresh_of_none he now₁), ← Assoc.set_of_lookup_none hnone, ← allow_hits_of_new he]
      rfl
    rw [heq]
    exact (h.append h₁ hs).later h₂
  | some e =>
    obtain ⟨a, b, hl, hset⟩ := Assoc.set_of_lookup he
    have heq : (l.allow key now₁ now₂).2 = { l with hits := a ++ (key, l.charged key now₁) :: b } := by
      rw [← hset, ← allow_hits_of_known he]
      rfl
    have h := h.later h₁
    have horder := h.order
    rw [hl, List.pairwise_append, List.pairwise_cons] at horder
    rw [heq]
    refine Ordered.later ?_ h₂
    by_cases hlive : e.reset < now₁
    · -- renewed in place: those behind it are over, or as young
      have hf : l.fresh key now₁ = true := by rw [fresh_of_some he, decide_eq_true hlive]
      rw [charged_of_fresh hf]
      refine h.replace hl (fun p hp => Or.inl (h.started p (hl ▸ List.mem_append_left _ hp))) (le_refl _) fun p hp => ?_
      have hbehind : p ∈ behind key l.hits := by
        rw [hl] at hnd ⊢
        rw [behind_append hnd]
        exact hp
      exact (hr e he hlive p hbehind).symm.imp_left fun hle => by
        show now₁ + l.windowMs ≤ p.2.reset
        omega
    · rw [charged_of_live he hlive]
      exact h.replace hl (fun p hp => horder.2.2 p hp _ List.mem_cons_self)
        (h.started _ (hl ▸ List.mem_append_right a List.mem_cons_self)) horder.2.1.1

theorem Ordered.sweep (h : l.Ordered now) (hn : now ≤ now₁) : (l.sweep now₁).Ordered now₁ :=
  (h.later hn).sublist List.filter_sublist

/-- An ordered table loses its oldest windows. -/
theorem Ordered.evicted (h : l.Ordered now) (h₂ : now ≤ now₂) {p q : String × Hit} (hp : p ∈ l.evicted key now₂)
    (hq : q ∈ (l.allow key now₁ now₂).2.hits) (hne : q.1 ≠ key) : p.2.reset ≤ q.2.reset := by
  rcases evicted_keys l key now₂ with hnil | ⟨he, hfull⟩
  · rw [hnil] at hp
    cases hp
  · rw [allow_hits_of_new he] at hq
    have hq : q ∈ l.makeRoom now₂ := (Assoc.mem_set hq).resolve_right fun heq => hne (by rw [heq])
    have horder := (h.sweep h₂).order
    have hlive : q ∈ (l.sweep now₂).hits := by
      rw [← evicted_append_makeRoom he hfull]
      exact List.mem_append_right _ hq
    rw [← evicted_append_makeRoom he hfull] at horder
    exact ((List.pairwise_append.1 horder).2.2 p hp q hq).resolve_right (mem_sweep.1 hlive).2

end

theorem Runs.ordered {windowSeconds : Int} {max maxKeys : Nat} {l : RateLimiter} {now : Int}
    (h : Runs windowSeconds max maxKeys l now) : l.Ordered now ∧ (l.hits.map Prod.fst).Nodup := by
  induction h with
  | new now => exact ⟨⟨List.Pairwise.nil, fun p hp => by cases hp⟩, List.nodup_nil⟩
  | allow _ h₁ h₂ hr ih => exact ⟨ih.1.allow ih.2 h₁ h₂ hr, nodup_allow ih.2⟩
  | sweep _ h₁ ih => exact ⟨ih.1.sweep h₁, (List.filter_sublist.map Prod.fst).nodup ih.2⟩

theorem Runs.windowMs {windowSeconds : Int} {max maxKeys : Nat} {l : RateLimiter} {now : Int}
    (h : Runs windowSeconds max maxKeys l now) : l.windowMs = windowSeconds * 1000 := by
  induction h with
  | new now => rfl
  | allow _ _ _ _ ih => exact ih
  | sweep _ _ ih => exact ih

theorem evicts_oldest {windowSeconds : Int} {max maxKeys : Nat} {l : RateLimiter} {now : Int}
    (h : Runs windowSeconds max maxKeys l now) {key : String} {now₁ now₂ : Int} (h₁ : now ≤ now₁) (h₂ : now₁ ≤ now₂) :
    ∀ p ∈ l.evicted key now₂, ∀ q ∈ (l.allow key now₁ now₂).2.hits, q.1 ≠ key →
      p.2.reset - windowSeconds * 1000 ≤ q.2.reset - windowSeconds * 1000 :=
  fun _ hp _ hq hne => Int.sub_le_sub_right (h.ordered.1.evicted (h₁.trans h₂) hp hq hne) _

theorem evicts_oldest_full :
    let l := ((((new 10 1 2).allow "a" 0 0).2).allow "b" 1 1).2
    Runs 10 1 2 l 1 ∧ ("a", ⟨1, 10000⟩) ∈ l.evicted "c" 2 ∧ ("b", ⟨1, 10001⟩) ∈ (l.allow "c" 2 2).2.hits ∧
      (10000 : Int) - 10 * 1000 ≤ 10001 - 10 * 1000 := by
  intro l
  have ha : RenewsLast (new 10 1 2) "a" 0 := fun e he => by cases he
  have hb : RenewsLast ((new 10 1 2).allow "a" 0 0).2 "b" 1 := fun e he => by cases he
  have hnew : Runs 10 1 2 (new 10 1 2) 0 := .new 0
  have h : Runs 10 1 2 l 1 := (hnew.allow (le_refl 0) (le_refl 0) ha).allow (by decide) (le_refl 1) hb
  have hp : ("a", ⟨1, 10000⟩) ∈ l.evicted "c" 2 := by decide
  have hq : ("b", ⟨1, 10001⟩) ∈ (l.allow "c" 2 2).2.hits := by decide
  exact ⟨h, hp, hq, evicts_oldest h (by decide) (le_refl 2) _ hp _ hq (by decide)⟩

/-- `a` is renewed at 10001 and keeps its place before `b`, whose window started at 1 and is live; the next new key evicts
`a`. -/
theorem renewed_evicted :
    let l := ((((((new 10 1 2).allow "a" 0 0).2).allow "b" 1 1).2).allow "a" 10001 10001).2
    l.evicted "c" 10001 = [("a", ⟨1, 20001⟩)] ∧ ("b", ⟨1, 10001⟩) ∈ (l.allow "c" 10001 10001).2.hits ∧
      ¬ ((20001 : Int) - 10 * 1000 ≤ 10001 - 10 * 1000) := by
  decide

end RateLimiter
