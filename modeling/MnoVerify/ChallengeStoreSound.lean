import MnoVerify.ChallengeStore
import Mathlib.Tactic.Linarith

/-!
# Challenges over a gateway's runs

`challenges_hold`: whatever is put, taken, put back, held and released, in any order and at any clock, the store stays
within its bound, a nonce is taken once for each time that it is there to take, never after its first expiry, and the
pinned roots are those of live challenges and of holds that were not released.
-/

namespace ChallengeStore

variable {α : Type}

/-! ## Logs -/

/-- The last that happened to a nonce was not that it was taken. -/
def armed (n : String) : List (Event α) → Bool
  | [] => false
  | .put m _ :: log => decide (m = n) || armed n log
  | .took m _ _ :: log => !decide (m = n) && armed n log
  | .restored m _ :: log => decide (m = n) || armed n log
  | .released _ :: log => armed n log

/-- A log of a store with that lifetime. -/
def Valid (ttl : Int) : List (Event α) → Prop
  | [] => True
  | .put n _ :: log => (∀ t, .put n t ∉ log) ∧ Valid ttl log
  | .took n v t :: log =>
    armed n log = true ∧ t ≤ v.expires ∧ (∃ t₀, .put n t₀ ∈ log ∧ v.expires = t₀ + ttl) ∧ Valid ttl log
  | .restored n v :: log => (∃ t, .took n v t ∈ log) ∧ Valid ttl log
  | .released _ :: log => Valid ttl log

variable {ttl : Int}

theorem Valid.tail {e : Event α} {log : List (Event α)} (h : Valid ttl (e :: log)) : Valid ttl log := by
  cases e with
  | put n t => exact h.2
  | took n v t => exact h.2.2.2
  | restored n v => exact h.2
  | released i => exact h

theorem Valid.suffix {log log' : List (Event α)} (h : Valid ttl (log ++ log')) : Valid ttl log' := by
  induction log with
  | nil => exact h
  | cons e log ih => exact ih h.tail

/-- A nonce that was taken was put before, and is in time. -/
theorem Valid.of_took {log : List (Event α)} (h : Valid ttl log) {n : String} {v : Challenge α} {t : Int}
    (ht : .took n v t ∈ log) : t ≤ v.expires ∧ ∃ t₀, .put n t₀ ∈ log ∧ v.expires = t₀ + ttl := by
  obtain ⟨l, l', rfl⟩ := List.append_of_mem ht
  obtain ⟨-, hle, ⟨t₀, hput, he⟩, -⟩ := h.suffix
  exact ⟨hle, t₀, List.mem_append_right _ (List.mem_cons_of_mem _ hput), he⟩

theorem Valid.put_unique {log : List (Event α)} (h : Valid ttl log) {n : String} {t t' : Int} (ht : .put n t ∈ log)
    (ht' : .put n t' ∈ log) : t = t' := by
  induction log with
  | nil => cases ht
  | cons e log ih =>
    rcases List.mem_cons.1 ht with rfl | hin
    · rcases List.mem_cons.1 ht' with he | hin'
      · cases he
        rfl
      · exact absurd hin' (h.1 t')
    · rcases List.mem_cons.1 ht' with rfl | hin'
      · exact absurd hin (h.1 t)
      · exact ih h.tail hin hin'

/-- A nonce that was taken is there to take again only once it was put back. -/
theorem Valid.restored_of_armed {n : String} {v : Challenge α} {t : Int} {old : List (Event α)} : ∀ {log : List (Event α)},
    Valid ttl (log ++ .took n v t :: old) → armed n (log ++ .took n v t :: old) = true → ∃ v', .restored n v' ∈ log := by
  intro log
  induction log with
  | nil =>
    intro _ ha
    simp [armed] at ha
  | cons e log ih =>
    intro h ha
    cases e with
    | put m t' =>
      rw [List.cons_append, armed, Bool.or_eq_true, decide_eq_true_eq] at ha
      rcases ha with rfl | ha
      · obtain ⟨-, t₀, hput, -⟩ := h.2.of_took (List.mem_append_right _ List.mem_cons_self)
        exact absurd hput (h.1 t₀)
      · obtain ⟨v', hv'⟩ := ih h.tail ha
        exact ⟨v', List.mem_cons_of_mem _ hv'⟩
    | took m v' t' =>
      rw [List.cons_append, armed, Bool.and_eq_true] at ha
      obtain ⟨v', hv'⟩ := ih h.tail ha.2
      exact ⟨v', List.mem_cons_of_mem _ hv'⟩
    | restored m v' =>
      rw [List.cons_append, armed, Bool.or_eq_true, decide_eq_true_eq] at ha
      rcases ha with rfl | ha
      · exact ⟨v', List.mem_cons_self⟩
      · obtain ⟨v', hv'⟩ := ih h.tail ha
        exact ⟨v', List.mem_cons_of_mem _ hv'⟩
    | released i =>
      obtain ⟨v', hv'⟩ := ih h.tail ha
      exact ⟨v', List.mem_cons_of_mem _ hv'⟩

/-! ## The operations -/

/-- The store with some challenges gone. -/
structure Shrinks (s s' : ChallengeStore α) : Prop where
  ttl : s'.ttl = s.ttl
  maxPending : s'.maxPending = s.maxPending
  held : s'.held = s.held
  pending : s'.pending.Sublist s.pending

theorem shrinks_sweep (s : ChallengeStore α) (now : Int) : Shrinks s (s.sweep now) := ⟨rfl, rfl, rfl, List.filter_sublist⟩

theorem shrinks_sweepFull (s : ChallengeStore α) (now : Int) : Shrinks s (s.sweepFull now) := by
  unfold sweepFull
  split
  · exact shrinks_sweep s now
  · exact ⟨rfl, rfl, rfl, List.Sublist.refl _⟩

theorem mem_sweep {s : ChallengeStore α} {now : Int} {p : String × Challenge α} :
    p ∈ (s.sweep now).pending ↔ p ∈ s.pending ∧ now ≤ p.2.expires := by
  rw [sweep, List.mem_filter, Bool.not_eq_true', decide_eq_false_iff_not, not_lt]

/-! ## The invariant -/

/-- The holds on a root that were not released. -/
def holding (holds : List Release) (r : String) : Nat := holds.countP fun f => decide (f.root = some r) && !f.released

namespace World

structure Inv (ttl : Int) (maxPending : Nat) (w : World α) : Prop where
  ttl_eq : w.store.ttl = ttl
  maxPending_eq : w.store.maxPending = maxPending
  length_le : w.store.pending.length ≤ maxPending
  valid : Valid ttl w.log
  pending : ∀ p ∈ w.store.pending, armed p.1 w.log = true ∧ ∃ t₀, .put p.1 t₀ ∈ w.log ∧ p.2.expires = t₀ + ttl
  held : ∀ r, w.store.held.lookup r = if holding w.holds r = 0 then none else some (holding w.holds r : Int)
  released : ∀ i r b, w.holds[i]? = some ⟨some r, b⟩ → (b = true ↔ .released i ∈ w.log)
  called : ∀ i, .released i ∈ w.log → i < w.holds.length

variable {maxPending : Nat} {w : World α}

theorem inv_new (ttlSeconds : Int) (maxPending : Nat) : (new ttlSeconds maxPending : World α).Inv (ttlSeconds * 1000) maxPending where
  ttl_eq := rfl
  maxPending_eq := rfl
  length_le := Nat.zero_le _
  valid := trivial
  pending := nofun
  held _ := rfl
  released := nofun
  called := nofun

theorem inv_shrinks (h : w.Inv ttl maxPending) {s : ChallengeStore α} (hs : Shrinks w.store s) :
    Inv ttl maxPending { w with store := s } where
  ttl_eq := hs.ttl.trans h.ttl_eq
  maxPending_eq := hs.maxPending.trans h.maxPending_eq
  length_le := hs.pending.length_le.trans h.length_le
  valid := h.valid
  pending p hp := h.pending p (hs.pending.subset hp)
  held := by
    intro r
    show s.held.lookup r = _
    rw [hs.held]
    exact h.held r
  released := h.released
  called := h.called

/-- A challenge comes into a store that is not full. -/
theorem inv_insert (h : w.Inv ttl maxPending) (hroom : w.store.pending.length < maxPending) {e : Event α} {n : String}
    {v : Challenge α} (hvalid : Valid ttl (e :: w.log)) (harm : ∀ m, armed m (e :: w.log) = (decide (n = m) || armed m w.log))
    (hnot : ∀ i, e ≠ .released i) (hput : ∃ t₀, .put n t₀ ∈ e :: w.log ∧ v.expires = t₀ + ttl) :
    Inv ttl maxPending { w with store := { w.store with pending := Assoc.set w.store.pending n v }, log := e :: w.log } where
  ttl_eq := h.ttl_eq
  maxPending_eq := h.maxPending_eq
  length_le := (Assoc.length_set_le _ n v).trans hroom
  valid := hvalid
  pending p hp := by
    rcases Assoc.mem_set hp with hp | rfl
    · obtain ⟨ha, t₀, ht₀, he⟩ := h.pending p hp
      exact ⟨by rw [harm, ha, Bool.or_true], t₀, List.mem_cons_of_mem _ ht₀, he⟩
    · exact ⟨by rw [harm, decide_eq_true rfl, Bool.true_or], hput⟩
  held := h.held
  released i r b hi := by
    rw [h.released i r b hi, List.mem_cons]
    exact ⟨Or.inr, fun hor => hor.resolve_left fun he => hnot i he.symm⟩
  called i hi := h.called i ((List.mem_cons.1 hi).resolve_left fun he => hnot i he.symm)

theorem inv_put (h : w.Inv ttl maxPending) {n : String} (fresh : ∀ now, .put n now ∉ w.log) (value : α) (now₁ now₂ : Int) :
    (w.put n value now₁ now₂).Inv ttl maxPending := by
  have hs := inv_shrinks h (shrinks_sweepFull w.store now₁)
  unfold put ChallengeStore.put
  dsimp only
  by_cases hfull : (w.store.sweepFull now₁).maxPending ≤ (w.store.sweepFull now₁).pending.length
  · rw [if_pos hfull]
    exact hs
  · rw [if_neg hfull]
    have hroom : (w.store.sweepFull now₁).pending.length < maxPending := by
      have := hs.maxPending_eq
      dsimp only at this
      omega
    have hexp : now₂ + (w.store.sweepFull now₁).ttl = now₂ + ttl := congrArg (now₂ + ·) hs.ttl_eq
    exact inv_insert hs hroom ⟨fresh, h.valid⟩ (fun m => rfl) (fun i he => by cases he) ⟨now₂, List.mem_cons_self, hexp⟩

theorem inv_restore (h : w.Inv ttl maxPending) {n : String} {v : Challenge α} {t : Int} (taken : .took n v t ∈ w.log)
    (now₁ now₂ : Int) : (w.restore n v now₁ now₂).Inv ttl maxPending := by
  have hs := inv_shrinks h (shrinks_sweepFull w.store now₂)
  unfold restore ChallengeStore.restore
  by_cases hlate : v.expires < now₁
  · rw [if_pos hlate]
    exact h
  · rw [if_neg hlate]
    dsimp only
    by_cases hfull : (w.store.sweepFull now₂).maxPending ≤ (w.store.sweepFull now₂).pending.length
    · rw [if_pos hfull]
      exact hs
    · rw [if_neg hfull]
      have hroom : (w.store.sweepFull now₂).pending.length < maxPending := by
        have := hs.maxPending_eq
        dsimp only at this
        omega
      obtain ⟨-, t₀, hput, he⟩ := h.valid.of_took taken
      exact inv_insert hs hroom ⟨⟨t, taken⟩, h.valid⟩ (fun m => rfl) (fun i he => by cases he)
        ⟨t₀, List.mem_cons_of_mem _ hput, he⟩

theorem inv_take (h : w.Inv ttl maxPending) (n : String) (now : Int) : (w.take n now).Inv ttl maxPending := by
  unfold take ChallengeStore.take
  cases hv : w.store.pending.lookup n with
  | none => exact h
  | some v =>
    have hs : Shrinks w.store { w.store with pending := Assoc.erase w.store.pending n } :=
      ⟨rfl, rfl, rfl, List.filter_sublist⟩
    have he := inv_shrinks h hs
    dsimp only
    by_cases hlate : v.expires < now
    · rw [if_pos hlate]
      exact he
    · rw [if_neg hlate]
      obtain ⟨harmed, hput⟩ := h.pending (n, v) (Assoc.mem_of_lookup hv)
      refine { he with valid := ⟨harmed, not_lt.1 hlate, hput, h.valid⟩, pending := ?_, released := ?_, called := ?_ }
      · intro p hp
        have hne : p.1 ≠ n := of_decide_eq_true (List.mem_filter.1 hp).2
        obtain ⟨ha, t₀, ht₀, hexp⟩ := he.pending p hp
        refine ⟨?_, t₀, List.mem_cons_of_mem _ ht₀, hexp⟩
        rw [armed, decide_eq_false fun h => hne h.symm, Bool.not_false, Bool.true_and]
        exact ha
      · intro i r b hi
        rw [he.released i r b hi, List.mem_cons]
        exact ⟨Or.inr, fun hor => hor.resolve_left fun h => by cases h⟩
      · intro i hi
        exact he.called i ((List.mem_cons.1 hi).resolve_left fun h => by cases h)

/-! ## Holds -/

theorem holding_append (holds : List Release) (f : Release) (r : String) :
    holding (holds ++ [f]) r = holding holds r + (decide (f.root = some r) && !f.released).toNat := by
  rw [holding, List.countP_append, List.countP_singleton, ← holding]
  cases decide (f.root = some r) && !f.released <;> rfl

theorem holding_set {f f' : Release} (r : String) : ∀ {holds : List Release} {i : Nat}, holds[i]? = some f →
    holding (holds.set i f') r + (decide (f.root = some r) && !f.released).toNat =
      holding holds r + (decide (f'.root = some r) && !f'.released).toNat := by
  intro holds
  induction holds with
  | nil => intro i hi; cases hi
  | cons g holds ih =>
    intro i hi
    have hcons : ∀ g : Release, ∀ holds : List Release,
        holding (g :: holds) r = holding holds r + (decide (g.root = some r) && !g.released).toNat := by
      intro g holds
      rw [holding, List.countP_cons, ← holding]
      cases decide (g.root = some r) && !g.released <;> rfl
    cases i with
    | zero =>
      rw [List.getElem?_cons_zero, Option.some.injEq] at hi
      rw [List.set_cons_zero, hcons, hcons, hi]
      omega
    | succ i =>
      have := ih (i := i) hi
      rw [List.set_cons_succ, hcons, hcons]
      omega

theorem inv_hold (h : w.Inv ttl maxPending) (root : Option String) : (w.hold root).Inv ttl maxPending := by
  have hnew : ∀ f i r b, (w.holds ++ [f])[i]? = some ⟨some r, b⟩ → f.released = false → (b = true ↔ .released i ∈ w.log) := by
    intro f i r b hi hf
    rcases lt_or_ge i w.holds.length with hlt | hge
    · rw [List.getElem?_append_left hlt] at hi
      exact h.released i r b hi
    · rw [List.getElem?_append_right hge] at hi
      obtain ⟨hlen, heq⟩ := List.getElem?_eq_some_iff.1 hi
      have hb : b = false := by
        rw [List.getElem_singleton] at heq
        rw [heq] at hf
        exact hf
      rw [hb]
      exact ⟨fun h => (Bool.false_ne_true h).elim, fun hmem => absurd (h.called i hmem) (not_lt.2 hge)⟩
  have hcalled : ∀ f i, .released i ∈ w.log → i < (w.holds ++ [f]).length := by
    intro f i hi
    rw [List.length_append]
    exact Nat.lt_add_right _ (h.called i hi)
  unfold hold ChallengeStore.hold
  cases root with
  | none =>
    refine { h with held := fun r => ?_, released := fun i r b hi => hnew _ i r b hi rfl, called := hcalled _ }
    rw [holding_append]
    exact h.held r
  | some r =>
    refine { h with held := fun r' => ?_, released := fun i r b hi => hnew _ i r b hi rfl, called := hcalled _ }
    have hgetD : (w.store.held.lookup r).getD 0 = (holding w.holds r : Int) := by
      rw [h.held r]
      by_cases hz : holding w.holds r = 0
      · rw [if_pos hz, hz]
        rfl
      · rw [if_neg hz]
        rfl
    rw [holding_append]
    by_cases hr : r' = r
    · rw [hr, Assoc.lookup_set_self, hgetD]
      simp
    · rw [Assoc.lookup_set_of_ne hr, h.held r']
      have hne : decide (some r = some r') = false := decide_eq_false fun he => hr (Option.some.inj he).symm
      simp only [hne, Bool.false_and, Bool.toNat_false, Nat.add_zero]

theorem inv_release (h : w.Inv ttl maxPending) (i : Nat) : (w.release i).Inv ttl maxPending := by
  unfold release ChallengeStore.release
  cases hf : w.holds[i]? with
  | none => exact h
  | some f =>
    have hlt : i < w.holds.length := (List.getElem?_eq_some_iff.1 hf).1
    -- the function as it was, or was called before
    have hsame : w.holds.set i f = w.holds := by
      obtain ⟨hlt, rfl⟩ := List.getElem?_eq_some_iff.1 hf
      exact List.set_getElem_self hlt
    have hpending : ∀ p ∈ w.store.pending, armed p.1 (.released i :: w.log) = true ∧
        ∃ t₀, .put p.1 t₀ ∈ Event.released i :: w.log ∧ p.2.expires = t₀ + ttl := by
      intro p hp
      obtain ⟨ha, t₀, ht₀, he⟩ := h.pending p hp
      exact ⟨ha, t₀, List.mem_cons_of_mem _ ht₀, he⟩
    have hlog : ∀ j, j ≠ i → (.released j ∈ (Event.released i :: w.log : List (Event α)) ↔ .released j ∈ w.log) := by
      intro j hj
      rw [List.mem_cons]
      exact ⟨fun hor => hor.resolve_left fun he => hj (by cases he; rfl), Or.inr⟩
    have hcalled : ∀ holds : List Release, holds.length = w.holds.length → ∀ j,
        .released j ∈ (Event.released i :: w.log : List (Event α)) → j < holds.length := by
      intro holds hlen j hj
      rw [hlen]
      by_cases hji : j = i
      · rw [hji]
        exact hlt
      · exact h.called j ((hlog j hji).1 hj)
    dsimp only
    cases hroot : f.root with
    | none =>
      dsimp only
      rw [hsame]
      refine { h with valid := h.valid, pending := hpending, released := fun j r b hj => ?_, called := hcalled _ rfl }
      have hji : j ≠ i := by
        rintro rfl
        rw [hf, Option.some.injEq] at hj
        rw [hj] at hroot
        cases hroot
      rw [hlog j hji]
      exact h.released j r b hj
    | some r =>
      by_cases hrel : f.released = true
      · dsimp only
        rw [if_pos hrel]
        dsimp only
        rw [hsame]
        refine { h with valid := h.valid, pending := hpending, released := fun j r' b hj => ?_, called := hcalled _ rfl }
        by_cases hji : j = i
        · rw [hji, hf, Option.some.injEq] at hj
          rw [hj] at hrel
          rw [hji]
          exact ⟨fun _ => List.mem_cons_self, fun _ => hrel⟩
        · rw [hlog j hji]
          exact h.released j r' b hj
      · have hfe : f = ⟨some r, false⟩ := by
          have hrel : f.released = false := Bool.not_eq_true _ ▸ hrel
          cases f
          cases hroot
          cases hrel
          rfl
        subst hfe
        have hcount := @holding_set ⟨some r, false⟩ ⟨some r, true⟩ r w.holds i hf
        have hone : (decide (some r = some r) && !false).toNat = 1 := by rw [decide_eq_true rfl]; rfl
        have hzero : (decide (some r = some r) && !true).toNat = 0 := by rw [decide_eq_true rfl]; rfl
        rw [hone, hzero] at hcount
        have hgetD : (w.store.held.lookup r).getD 1 - 1 = (holding (w.holds.set i ⟨some r, true⟩) r : Int) := by
          rw [h.held r, if_neg (by omega), Option.getD_some]
          omega
        dsimp only
        rw [if_neg Bool.false_ne_true, hgetD]
        dsimp only
        refine { h with valid := h.valid, pending := hpending, held := fun r' => ?_, released := fun j r' b hj => ?_,
                        called := hcalled _ List.length_set }
        · by_cases hr : r' = r
          · rw [hr]
            by_cases hz : holding (w.holds.set i ⟨some r, true⟩) r = 0
            · rw [if_pos hz, if_neg (by omega), Assoc.lookup_erase_self]
            · rw [if_neg hz, if_pos (by omega), Assoc.lookup_set_self]
          · have hother := @holding_set ⟨some r, false⟩ ⟨some r, true⟩ r' w.holds i hf
            have hne : decide (some r = some r') = false := decide_eq_false fun he => hr (Option.some.inj he).symm
            simp only [hne, Bool.false_and, Bool.toNat_false, Nat.add_zero] at hother
            rw [hother]
            split
            · rw [Assoc.lookup_set_of_ne hr, h.held r']
            · rw [Assoc.lookup_erase_of_ne hr, h.held r']
        · by_cases hji : j = i
          · rw [hji, List.getElem?_set_self hlt, Option.some.injEq] at hj
            have hb : true = b := congrArg Release.released hj
            rw [hji, ← hb]
            exact ⟨fun _ => List.mem_cons_self, fun _ => rfl⟩
          · rw [List.getElem?_set_ne fun he => hji he.symm] at hj
            rw [hlog j hji]
            exact h.released j r' b hj

theorem Reachable.inv {root : α → Option String} {ttlSeconds : Int} (h : Reachable root ttlSeconds maxPending w) :
    w.Inv (ttlSeconds * 1000) maxPending := by
  induction h with
  | new => exact inv_new ttlSeconds maxPending
  | put _ fresh value now₁ now₂ ih => exact inv_put ih fresh value now₁ now₂
  | take _ nonce now ih => exact inv_take ih nonce now
  | restore _ taken now₁ now₂ ih => exact inv_restore ih taken now₁ now₂
  | sweep _ now ih => exact inv_shrinks ih (shrinks_sweep _ now)
  | pinnedRoots _ now ih => exact inv_shrinks ih (shrinks_sweep _ now)
  | hold _ r ih => exact inv_hold ih r
  | release _ i ih => exact inv_release ih i

/-- What is pinned: the roots of challenges that are not over, and those held. -/
theorem mem_pinnedRoots (h : w.Inv ttl maxPending) (root : α → Option String) (now : Int) (r : String) :
    r ∈ (w.store.pinnedRoots root now).1 ↔
      (∃ p ∈ w.store.pending, root p.2.value = some r ∧ now ≤ p.2.expires) ∨
        ∃ i b, w.holds[i]? = some ⟨some r, b⟩ ∧ .released i ∉ w.log := by
  have hheld : r ∈ w.store.held.map Prod.fst ↔ ∃ i b, w.holds[i]? = some ⟨some r, b⟩ ∧ .released i ∉ w.log := by
    have hpos : r ∈ w.store.held.map Prod.fst ↔ 0 < holding w.holds r := by
      rw [Assoc.mem_keys_iff, h.held r]
      by_cases hz : holding w.holds r = 0
      · rw [if_pos hz]
        exact ⟨fun hs => (Bool.false_ne_true hs).elim, fun hlt => absurd hz (by omega)⟩
      · rw [if_neg hz]
        exact ⟨fun _ => by omega, fun _ => rfl⟩
    rw [hpos, holding, List.countP_pos_iff]
    constructor
    · rintro ⟨f, hf, hp⟩
      obtain ⟨i, hi⟩ := List.getElem?_of_mem hf
      obtain ⟨fr, fb⟩ := f
      simp only [Bool.and_eq_true, decide_eq_true_eq, Bool.not_eq_true'] at hp
      obtain ⟨rfl, rfl⟩ := hp
      exact ⟨i, false, hi, fun hmem => Bool.false_ne_true ((h.released i r false hi).2 hmem)⟩
    · rintro ⟨i, b, hi, hlog⟩
      have hb : b = false := Bool.not_eq_true _ ▸ fun hb => hlog ((h.released i r b hi).1 hb)
      refine ⟨_, List.mem_of_getElem? hi, ?_⟩
      rw [hb, decide_eq_true rfl]
      rfl
  rw [pinnedRoots, List.mem_append, show (w.store.sweep now).held = w.store.held from rfl, hheld]
  apply or_congr_left
  rw [List.mem_filterMap]
  constructor
  · rintro ⟨p, hp, hr⟩
    obtain ⟨hmem, hle⟩ := mem_sweep.1 hp
    exact ⟨p, hmem, hr, hle⟩
  · rintro ⟨p, hmem, hr, hle⟩
    exact ⟨p, mem_sweep.2 ⟨hmem, hle⟩, hr⟩

end World

/-- The store over every run: its bound, the takes of a nonce, their times, and the pinned roots. -/
theorem challenges_hold {root : α → Option String} {ttlSeconds : Int} {maxPending : Nat} {w : World α}
    (h : w.Reachable root ttlSeconds maxPending) :
    w.store.pending.length ≤ maxPending ∧
    (∀ n v v' t t' before between after, w.log = after ++ .took n v' t' :: (between ++ .took n v t :: before) →
      ∃ v'', .restored n v'' ∈ between) ∧
    (∀ n v t, .took n v t ∈ w.log → (∃ t₀, .put n t₀ ∈ w.log) ∧ ∀ t₀, .put n t₀ ∈ w.log → t ≤ t₀ + ttlSeconds * 1000) ∧
    ∀ now r, r ∈ (w.store.pinnedRoots root now).1 ↔
      (∃ p ∈ w.store.pending, root p.2.value = some r ∧ now ≤ p.2.expires) ∨
        ∃ i b, w.holds[i]? = some ⟨some r, b⟩ ∧ .released i ∉ w.log := by
  have hi := h.inv
  refine ⟨hi.length_le, ?_, ?_, World.mem_pinnedRoots hi root⟩
  · intro n v v' t t' before between after hlog
    have hv := hi.valid
    rw [hlog] at hv
    obtain ⟨harmed, -, -, hrest⟩ := hv.suffix
    exact hrest.restored_of_armed harmed
  · intro n v t ht
    obtain ⟨hle, t₀, hput, he⟩ := hi.valid.of_took ht
    refine ⟨⟨t₀, hput⟩, fun t₁ ht₁ => ?_⟩
    rw [hi.valid.put_unique ht₁ hput]
    omega

/-- A challenge that is taken, put back and taken again. -/
theorem challenges_hold_restored :
    let w := ((((World.new 600 1 : World String).put "n" "r" 0 0).take "n" 1).restore "n" ⟨"r", 600000⟩ 2 2).take "n" 3
    w.Reachable some 600 1 ∧ .took "n" ⟨"r", 600000⟩ 3 ∈ w.log ∧ (∃ t₀, .put "n" t₀ ∈ w.log) := by
  have h0 : (World.new 600 1 : World String).Reachable some 600 1 := .new
  have hput : ∀ now, Event.put "n" now ∉ (World.new 600 1 : World String).log := fun now hn => by cases hn
  have h1 := (h0.put hput "r" 0 0).take "n" 1
  have htook : Event.took "n" ⟨"r", 600000⟩ 1 ∈ (((World.new 600 1 : World String).put "n" "r" 0 0).take "n" 1).log :=
    List.mem_cons_self
  have h2 := (h1.restore htook 2 2).take "n" 3
  exact ⟨h2, List.mem_cons_self, ((challenges_hold h2).2.2.1 "n" ⟨"r", 600000⟩ 3 List.mem_cons_self).1⟩

end ChallengeStore
