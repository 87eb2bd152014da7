import MnoVerify.RegistrationFlow
import MnoVerify.SeasonStore

/-!
# Registrations are safe

`registration_safety`: of any calls over one store, at any interleaving with one
another and with rollovers. `Call.Fits` says what a call may have done where it
stands; tickets tie each commit in the queue to the one call that enqueued it.
-/

namespace RegistrationFlow

open Members Registration Season

section
variable {F : Type} {H : Poseidon F} {cfg : Config}

/-- The call has not enqueued anything yet. -/
def Pc.early : Pc → Bool
  | .has _ => true
  | .proof => true
  | .hasAgain _ => true
  | _ => false

/-- What a call waits for, or has done, agrees with the queue and the store. -/
structure Call.Fits (m : Machine H cfg) (c : Call) : Prop where
  ticket : ∀ t, c.ticket = some t → c.proved = true ∧ c.eligible = true ∧ m.ops[t]? = some (.commit c.toCommit)
  recovery : ∀ t, c.recovery = some t →
    m.ops[t]? = some (.recoverMember c.claims.season.number c.claims.contextHash) ∧ m.store.has c.key = true
  found : c.pc = .has true ∨ c.pc = .hasAgain true → m.store.has c.key = true
  early : c.pc.early = true → c.recovery = none ∧ c.ticket = none
  waits : ∀ t, c.pc = .commit t → c.ticket = some t ∧ c.recovery = none
  recovers : ∀ t, c.pc = .recover t → c.recovery = some t
  registered : ∀ i root size, c.pc = .done (.registered i root size) →
    ∃ t, c.ticket = some t ∧ m.settled[t]? = some (.commit c.toCommit, .committed i root size)
  answered : ∀ t, c.recovery = some t → c.pc ≠ .recover t → ∃ o, m.settled[t]? =
    some (.recoverMember c.claims.season.number c.claims.contextHash, o) ∧ (o = .threw → c.pc = .done .rejected)

/-- What a machine that went on keeps for every call. -/
structure Grows (m m' : Machine H cfg) : Prop where
  ops : m.ops <+: m'.ops
  settled : m.settled <+: m'.settled
  has : ∀ k, m.store.has k = true → m'.store.has k = true

theorem getElem?_grown {α : Type} {l l' : List α} (h : l <+: l') {i : Nat} {a : α} (hi : l[i]? = some a) : l'[i]? = some a := by
  obtain ⟨r, rfl⟩ := h
  rw [List.getElem?_append_left (List.getElem?_eq_some_iff.1 hi).1, hi]

theorem Call.Fits.grows {m m' : Machine H cfg} {c : Call} (h : c.Fits m) (hg : Grows m m') : c.Fits m' where
  ticket := fun t ht => ⟨(h.ticket t ht).1, (h.ticket t ht).2.1, getElem?_grown hg.ops (h.ticket t ht).2.2⟩
  recovery := fun t ht => ⟨getElem?_grown hg.ops (h.recovery t ht).1, hg.has _ (h.recovery t ht).2⟩
  found := fun hf => hg.has _ (h.found hf)
  early := h.early
  waits := h.waits
  recovers := h.recovers
  registered := fun i root size hd => by
    obtain ⟨t, ht, hs⟩ := h.registered i root size hd
    exact ⟨t, ht, getElem?_grown hg.settled hs⟩
  answered := fun t ht hp => by
    obtain ⟨o, hs, ho⟩ := h.answered t ht hp
    exact ⟨o, getElem?_grown hg.settled hs, ho⟩

theorem grows_enqueue (m : Machine H cfg) (op : Op) : Grows m (m.enqueue op) where
  ops := by rw [Machine.ops_enqueue]; exact List.prefix_append _ _
  settled := List.prefix_refl _
  has := fun _ hk => hk

theorem grows_advance (m : Machine H cfg) (a : Awaits) : Grows m (m.advance a) where
  ops := ⟨[], by rw [(Machine.advance_ops m a).1, List.append_nil]⟩
  settled := (Machine.advance_ops m a).2
  has := fun k hk => by
    rcases Machine.advance_store m a with he | ⟨f, -, -, he⟩
    · rw [he]; exact hk
    · rw [he, Index.has_remember, hk, Bool.true_or]

/-! ## Stretches of a call -/

/-- A call that has enqueued nothing goes on without doing so. -/
theorem Call.Fits.goto {m : Machine H cfg} {c : Call} (h : c.Fits m) (he : c.pc.early = true) {pc : Pc} (proved : Bool)
    (hfound : pc = .has true ∨ pc = .hasAgain true → m.store.has c.key = true) (hw : ∀ t, pc ≠ .commit t)
    (hr : ∀ t, pc ≠ .recover t) (hd : ∀ i root size, pc ≠ .done (.registered i root size)) :
    Call.Fits m { c with pc := pc, proved := proved } := by
  obtain ⟨hrec, htick⟩ := h.early he
  have hrec' : ({ c with pc := pc, proved := proved } : Call).recovery = none := hrec
  have htick' : ({ c with pc := pc, proved := proved } : Call).ticket = none := htick
  refine ⟨fun t ht => ?_, fun t ht => ?_, hfound, fun _ => ⟨hrec, htick⟩, fun t ht => absurd ht (hw t),
    fun t ht => absurd ht (hr t), fun i root size hp => absurd hp (hd i root size), fun t ht => ?_⟩
  · rw [htick'] at ht; cases ht
  · rw [hrec'] at ht; cases ht
  · rw [hrec'] at ht; cases ht

theorem Call.Fits.lookup {m : Machine H cfg} {c : Call} (h : c.Fits m) (he : c.pc.early = true) (env : Env) (proved : Bool)
    {pc : Bool → Pc} (hpc : pc = .has ∨ pc = .hasAgain) : ({ c with proved := proved }.lookup m env pc).Fits m := by
  rw [Call.lookup]
  apply h.goto he
  · intro hf
    by_cases ht : env.hasThrows = true
    · simp [ht] at hf
    · rcases hpc with rfl | rfl <;> simpa [ht, Call.key] using hf
  all_goals
    intros
    by_cases ht : env.hasThrows = true
    · simp [ht]
    · rcases hpc with rfl | rfl <;> simp [ht]

theorem Call.Fits.runRecover {m : Machine H cfg} {c : Call} (h : c.Fits m) (hf : c.pc = .has true ∨ c.pc = .hasAgain true) :
    (c.runRecover m).2.Fits (c.runRecover m).1 := by
  have he : c.pc.early = true := by rcases hf with hf | hf <;> rw [hf] <;> rfl
  obtain ⟨-, htick⟩ := h.early he
  have hops : (m.enqueue (.recoverMember c.claims.season.number c.claims.contextHash)).ops[m.ops.length]? =
      some (.recoverMember c.claims.season.number c.claims.contextHash) := by
    rw [Machine.ops_enqueue]; exact List.getElem?_concat_length
  refine ⟨fun t ht => ?_, fun t ht => ?_, fun hp => ?_, fun hp => (by cases hp), fun t hp => (by cases hp), fun t hp => ?_,
    fun i root size hp => (by cases hp), fun t ht hp => ?_⟩
  · rw [show (c.runRecover m).2.ticket = c.ticket from rfl, htick] at ht; cases ht
  · cases ht; exact ⟨hops, h.found hf⟩
  · rcases hp with hp | hp <;> cases hp
  · cases hp; rfl
  · cases ht; exact absurd rfl hp

theorem Call.Fits.runCommit {m : Machine H cfg} {c : Call} (h : c.Fits m) (he : c.pc.early = true) :
    ({ c with proved := true, eligible := true }.runCommit m).2.Fits ({ c with proved := true, eligible := true }.runCommit m).1 := by
  obtain ⟨hrec, -⟩ := h.early he
  have hops : (m.enqueue (.commit c.toCommit)).ops[m.ops.length]? = some (.commit c.toCommit) := by
    rw [Machine.ops_enqueue]; exact List.getElem?_concat_length
  have hr' : ({ c with proved := true, eligible := true }.runCommit m).2.recovery = none := hrec
  refine ⟨fun t ht => ?_, fun t ht => ?_, fun hp => ?_, fun hp => (by cases hp), fun t hp => ?_, fun t hp => (by cases hp),
    fun i root size hp => (by cases hp), fun t ht => ?_⟩
  · cases ht; exact ⟨rfl, rfl, hops⟩
  · rw [hr'] at ht; cases ht
  · rcases hp with hp | hp <;> cases hp
  · cases hp; exact ⟨rfl, hr'⟩
  · rw [hr'] at ht; cases ht

/-- A call whose operation is over takes its outcome. -/
theorem Call.Fits.finish {m : Machine H cfg} {c : Call} (h : c.Fits m) {r : Result}
    (hreg : ∀ i root size, r = .registered i root size →
      ∃ t, c.ticket = some t ∧ m.settled[t]? = some (.commit c.toCommit, .committed i root size))
    (ha : ∀ t, c.recovery = some t → ∃ o, m.settled[t]? =
      some (.recoverMember c.claims.season.number c.claims.contextHash, o) ∧ (o = .threw → r = .rejected)) :
    Call.Fits m { c with pc := .done r } := by
  refine ⟨h.ticket, h.recovery, fun hp => ?_, fun hp => (by cases hp), fun t hp => (by cases hp), fun t hp => (by cases hp),
    fun i root size hp => ?_, fun t ht _ => ?_⟩
  · rcases hp with hp | hp <;> cases hp
  · cases hp; exact hreg i root size rfl
  · obtain ⟨o, hs, ho⟩ := ha t ht
    exact ⟨o, hs, fun he => by rw [ho he]⟩

/-- What a stretch of a call enqueues, and that only a commit takes a ticket. -/
inductive Moved (m : Machine H cfg) (c : Call) (m' : Machine H cfg) (c' : Call) : Prop
  | stay (hm : m' = m) (ht : c'.ticket = c.ticket)
  | recover (season : Js.Num) (x : String) (hm : m' = m.enqueue (.recoverMember season x)) (ht : c'.ticket = c.ticket)
  | commit (hm : m' = m.enqueue (.commit c.toCommit)) (hn : c.ticket = none) (ht : c'.ticket = some m.ops.length)

theorem Call.Fits.advance {m : Machine H cfg} {c : Call} (h : c.Fits m) (env : Env) :
    (c.advance m env).2.Fits (c.advance m env).1 ∧ Moved m c (c.advance m env).1 (c.advance m env).2 := by
  have hrefuse : c.pc.early = true → ∀ reason, (c.refuse reason).Fits m := fun he reason =>
    h.goto he c.proved (by simp) (by simp) (by simp) (by simp)
  cases hpc : c.pc with
  | has found =>
    have he : c.pc.early = true := by rw [hpc]; rfl
    cases found with
    | true => simp only [Call.advance, hpc]; exact ⟨h.runRecover (.inl hpc), .recover _ _ rfl rfl⟩
    | false =>
      simp only [Call.advance, hpc]
      by_cases hr : env.rootOk = true
      · rw [if_pos hr]; exact ⟨h.goto he c.proved (by simp) (by simp) (by simp) (by simp), .stay rfl rfl⟩
      · rw [if_neg hr]; exact ⟨hrefuse he _, .stay rfl rfl⟩
  | proof =>
    have he : c.pc.early = true := by rw [hpc]; rfl
    simp only [Call.advance, hpc]
    cases env.proof with
    | throws => exact ⟨hrefuse he _, .stay rfl rfl⟩
    | shed => exact ⟨h.goto he c.proved (by simp) (by simp) (by simp) (by simp), .stay rfl rfl⟩
    | returns valid =>
      cases valid with
      | false => exact ⟨hrefuse he _, .stay rfl rfl⟩
      | true =>
        simp only [Call.proven]
        by_cases hr : env.rootOk = true
        · rw [if_pos hr]; exact ⟨h.runCommit he, .commit rfl (h.early he).2 rfl⟩
        · rw [if_neg hr]; exact ⟨h.lookup he env true (.inr rfl), .stay rfl rfl⟩
  | hasAgain found =>
    have he : c.pc.early = true := by rw [hpc]; rfl
    cases found with
    | true => simp only [Call.advance, hpc]; exact ⟨h.runRecover (.inr hpc), .recover _ _ rfl rfl⟩
    | false => simp only [Call.advance, hpc]; exact ⟨hrefuse he _, .stay rfl rfl⟩
  | recover t =>
    simp only [Call.advance, hpc]
    have hrec := h.recovers t hpc
    cases hs : m.settled[t]? with
    | none => exact ⟨h, .stay rfl rfl⟩
    | some p =>
      obtain ⟨op, o⟩ := p
      have hop : op = .recoverMember c.claims.season.number c.claims.contextHash := by
        have := Machine.ops_settled hs
        rw [(h.recovery t hrec).1, Option.some.injEq] at this
        exact this.symm
      have hfin : ∀ r, (∀ i root size, r ≠ .registered i root size) → (o = .threw → r = .rejected) →
          Call.Fits m { c with pc := .done r } := by
        intro r hr ho
        refine h.finish (fun i root size he => absurd he (hr i root size)) fun t' ht' => ?_
        rw [hrec, Option.some.injEq] at ht'
        subst ht'
        exact ⟨o, by rw [hs, hop], ho⟩
      by_cases ho : o = .threw
      · subst ho; exact ⟨hfin _ (by simp) (by simp), .stay rfl rfl⟩
      · refine ⟨?_, ?_⟩
        · cases o with
          | threw => exact absurd rfl ho
          | _ => exact hfin _ (by simp) (by simp)
        · cases o with
          | threw => exact absurd rfl ho
          | _ => exact .stay rfl rfl
  | commit t =>
    simp only [Call.advance, hpc]
    obtain ⟨htick, hrec⟩ := h.waits t hpc
    cases hs : m.settled[t]? with
    | none => exact ⟨h, .stay rfl rfl⟩
    | some p =>
      obtain ⟨op, o⟩ := p
      have hop : op = .commit c.toCommit := by
        have := Machine.ops_settled hs
        rw [(h.ticket t htick).2.2, Option.some.injEq] at this
        exact this.symm
      refine ⟨h.finish (fun i root size he => ⟨t, htick, ?_⟩) fun t' ht' => ?_, .stay rfl rfl⟩
      · cases o with
        | committed i' root' size' => cases he; rw [hs, hop]
        | _ => cases he
      · rw [hrec] at ht'; cases ht'
  | done r => simp only [Call.advance, hpc]; exact ⟨h, .stay rfl rfl⟩

theorem fits_start (claims : Claims) (expected : Expected) (m : Machine H cfg) (env : Env) :
    (Call.start claims expected m env).Fits m ∧ (Call.start claims expected m env).ticket = none := by
  have hlook : ∀ b, Call.Fits m ⟨claims, expected, .done (.refused b), false, false, none, none⟩ := fun b =>
    ⟨fun t ht => (by cases ht), fun t ht => (by cases ht), fun hp => (by rcases hp with hp | hp <;> cases hp), fun hp => (by cases hp),
      fun t hp => (by cases hp), fun t hp => (by cases hp), fun i root size hp => (by cases hp), fun t ht => (by cases ht)⟩
  have hproof : Call.Fits m ⟨claims, expected, .proof, false, false, none, none⟩ :=
    ⟨fun t ht => (by cases ht), fun t ht => (by cases ht), fun hp => (by rcases hp with hp | hp <;> cases hp), fun _ => ⟨rfl, rfl⟩,
      fun t hp => (by cases hp), fun t hp => (by cases hp), fun i root size hp => (by cases hp), fun t ht => (by cases ht)⟩
  unfold Call.start
  dsimp only
  split
  · exact ⟨hlook _, rfl⟩
  split
  · exact ⟨hlook _, rfl⟩
  split
  · exact ⟨hlook _, rfl⟩
  · exact ⟨hproof.lookup rfl env false (.inl rfl), rfl⟩

/-! ## Runs -/

namespace World

structure Inv (w : World H cfg) : Prop where
  inv : w.machine.Inv
  safe : w.machine.Safe
  fits : ∀ (i : Nat) (c : Call), w.calls[i]? = some c → c.Fits w.machine
  owned : ∀ (t : Nat) (r : Commit), w.machine.ops[t]? = some (.commit r) →
    ∃ (i : Nat) (c : Call), w.calls[i]? = some c ∧ c.ticket = some t
  apart : ∀ (i j : Nat) (c d : Call) (t : Nat), w.calls[i]? = some c → w.calls[j]? = some d → c.ticket = some t → d.ticket = some t → i = j

theorem init_inv {store : Index} (h : store.Sound (2 ^ cfg.depth)) : (init store : World H cfg).Inv where
  inv := Machine.init_inv store
  safe := Machine.init_safe h
  fits := fun i c hc => by cases hc
  owned := fun t r hr => by cases hr
  apart := fun i j c d t hc => by cases hc

/-- Something other than a commit is enqueued. -/
theorem enqueue_inv {w : World H cfg} (h : w.Inv) {op : Op} (ho : ∀ r, op ≠ .commit r) :
    Inv { w with machine := w.machine.enqueue op } where
  inv := Machine.step_inv (.enqueue _ op) h.inv
  safe := Machine.step_safe (.enqueue _ op) h.safe h.inv
  fits := fun i c hc => (h.fits i c hc).grows (grows_enqueue _ op)
  owned := fun t r hr => by
    rw [Machine.ops_enqueue] at hr
    by_cases ht : t < w.machine.ops.length
    · rw [List.getElem?_append_left ht] at hr; exact h.owned t r hr
    · rw [List.getElem?_append_right (by omega)] at hr
      have := List.mem_singleton.1 (List.mem_of_getElem? hr)
      exact absurd this.symm (ho r)
  apart := h.apart

theorem turn_inv {w : World H cfg} (h : w.Inv) (a : Awaits) : Inv { w with machine := w.machine.advance a } where
  inv := by
    rcases Machine.advance_step w.machine a with he | hs
    · rw [he]; exact h.inv
    · exact Machine.step_inv hs h.inv
  safe := by
    rcases Machine.advance_step w.machine a with he | hs
    · rw [he]; exact h.safe
    · exact Machine.step_safe hs h.safe h.inv
  fits := fun i c hc => (h.fits i c hc).grows (grows_advance _ a)
  owned := fun t r hr => h.owned t r (by rwa [(Machine.advance_ops w.machine a).1] at hr)
  apart := h.apart

theorem start_inv {w : World H cfg} (h : w.Inv) (claims : Claims) (expected : Expected) (env : Env) :
    Inv { w with calls := w.calls ++ [.start claims expected w.machine env] } := by
  obtain ⟨hf, ht⟩ := fits_start claims expected w.machine env
  have hcall : ∀ (i : Nat) (c : Call), (w.calls ++ [Call.start claims expected w.machine env])[i]? = some c →
      w.calls[i]? = some c ∨ c = Call.start claims expected w.machine env := by
    intro i c hc
    by_cases hi : i < w.calls.length
    · rw [List.getElem?_append_left hi] at hc; exact .inl hc
    · rw [List.getElem?_append_right (by omega)] at hc
      exact .inr (List.mem_singleton.1 (List.mem_of_getElem? hc))
  refine ⟨h.inv, h.safe, fun i c hc => ?_, fun t r hr => ?_, fun i j c d t hc hd hct hdt => ?_⟩
  · rcases hcall i c hc with hc | rfl
    · exact h.fits i c hc
    · exact hf
  · obtain ⟨i, c, hc, hct⟩ := h.owned t r hr
    exact ⟨i, c, getElem?_grown (List.prefix_append _ _) hc, hct⟩
  · rcases hcall i c hc with hc | rfl
    · rcases hcall j d hd with hd | rfl
      · exact h.apart i j c d t hc hd hct hdt
      · rw [ht] at hdt; cases hdt
    · rw [ht] at hct; cases hct

theorem resume_inv {w : World H cfg} (h : w.Inv) {i : Nat} {c : Call} (hc : w.calls[i]? = some c) (env : Env) :
    Inv ⟨(c.advance w.machine env).1, w.calls.set i (c.advance w.machine env).2⟩ := by
  obtain ⟨hf, hm⟩ := (h.fits i c hc).advance env
  generalize hadv : c.advance w.machine env = p at hf hm ⊢
  obtain ⟨m', c'⟩ := p
  dsimp only at hf hm ⊢
  have hi : i < w.calls.length := (List.getElem?_eq_some_iff.1 hc).1
  have hset : ∀ (j : Nat) (d : Call), (w.calls.set i c')[j]? = some d → (j = i ∧ d = c') ∨ (j ≠ i ∧ w.calls[j]? = some d) := by
    intro j d hd
    by_cases hj : j = i
    · subst hj
      rw [List.getElem?_set_self hi, Option.some.injEq] at hd
      exact .inl ⟨rfl, hd.symm⟩
    · rw [List.getElem?_set_ne (Ne.symm hj)] at hd
      exact .inr ⟨hj, hd⟩
  -- the calls when the tickets stay as they are
  have hstay : c'.ticket = c.ticket → ∀ (j : Nat) (d : Call) (t : Nat), (w.calls.set i c')[j]? = some d → d.ticket = some t →
      ∃ e : Call, w.calls[j]? = some e ∧ e.ticket = some t := by
    intro ht j d t hd hdt
    rcases hset j d hd with ⟨rfl, rfl⟩ | ⟨-, hd⟩
    · exact ⟨c, hc, ht ▸ hdt⟩
    · exact ⟨d, hd, hdt⟩
  have hkeep : (∀ t, c.ticket = some t → c'.ticket = some t) → ∀ (j : Nat) (e : Call) (t : Nat), w.calls[j]? = some e → e.ticket = some t →
      ∃ d : Call, (w.calls.set i c')[j]? = some d ∧ d.ticket = some t := by
    intro ht j e t he het
    by_cases hj : j = i
    · subst hj
      rw [hc, Option.some.injEq] at he
      exact ⟨c', List.getElem?_set_self hi, ht t (he ▸ het)⟩
    · exact ⟨e, by rw [List.getElem?_set_ne (Ne.symm hj)]; exact he, het⟩
  have hfits : Grows w.machine m' → ∀ (j : Nat) (d : Call), (w.calls.set i c')[j]? = some d → d.Fits m' := by
    intro hg j d hd
    rcases hset j d hd with ⟨-, rfl⟩ | ⟨-, hd⟩
    · exact hf
    · exact (h.fits j d hd).grows hg
  have happart : c'.ticket = c.ticket → ∀ (j k : Nat) (d e : Call) (t : Nat), (w.calls.set i c')[j]? = some d → (w.calls.set i c')[k]? = some e →
      d.ticket = some t → e.ticket = some t → j = k := by
    intro ht j k d e t hd he hdt het
    obtain ⟨d', hd', hdt'⟩ := hstay ht j d t hd hdt
    obtain ⟨e', he', het'⟩ := hstay ht k e t he het
    exact h.apart j k d' e' t hd' he' hdt' het'
  cases hm with
  | stay hm ht =>
    subst hm
    refine ⟨h.inv, h.safe, hfits ⟨List.prefix_refl _, List.prefix_refl _, fun _ hk => hk⟩, fun t r hr => ?_, happart ht⟩
    obtain ⟨j, e, he, het⟩ := h.owned t r hr
    exact ⟨j, hkeep (fun t h => ht.trans h) j e t he het⟩
  | recover season x hm ht =>
    have h' : Inv { w with machine := w.machine.enqueue (.recoverMember season x) } := enqueue_inv h fun r hr => by cases hr
    rw [← hm] at h'
    refine ⟨h'.inv, h'.safe, hfits (hm ▸ grows_enqueue _ _), fun t r hr => ?_, happart ht⟩
    obtain ⟨j, e, he, het⟩ := h'.owned t r hr
    exact ⟨j, hkeep (fun t h => ht.trans h) j e t he het⟩
  | commit hm hn ht =>
    have hlt : ∀ (j : Nat) (e : Call) (t : Nat), w.calls[j]? = some e → e.ticket = some t → t < w.machine.ops.length := fun j e t he het =>
      (List.getElem?_eq_some_iff.1 ((h.fits j e he).ticket t het).2.2).1
    have hnew : ∀ (j : Nat) (d : Call) (t : Nat), (w.calls.set i c')[j]? = some d → d.ticket = some t →
        (j = i ∧ t = w.machine.ops.length) ∨ (t < w.machine.ops.length ∧ w.calls[j]? = some d) := by
      intro j d t hd hdt
      rcases hset j d hd with ⟨hj, hdc⟩ | ⟨-, hd⟩
      · rw [hdc, ht, Option.some.injEq] at hdt; exact .inl ⟨hj, hdt.symm⟩
      · exact .inr ⟨hlt j d t hd hdt, hd⟩
    refine ⟨hm ▸ Machine.step_inv (.enqueue _ _) h.inv, hm ▸ Machine.step_safe (.enqueue _ _) h.safe h.inv,
      hfits (hm ▸ grows_enqueue _ _), fun t r hr => ?_, fun j k d e t hd he hdt het => ?_⟩
    · dsimp only at hr
      rw [hm, Machine.ops_enqueue] at hr
      by_cases hl : t < w.machine.ops.length
      · rw [List.getElem?_append_left hl] at hr
        obtain ⟨j, e, he, het⟩ := h.owned t r hr
        exact ⟨j, hkeep (fun t h => by rw [hn] at h; cases h) j e t he het⟩
      · have hlen := (List.getElem?_eq_some_iff.1 hr).1
        rw [List.length_append, List.length_singleton] at hlen
        have hteq : t = w.machine.ops.length := by omega
        exact ⟨i, c', List.getElem?_set_self hi, by rw [ht, hteq]⟩
    · rcases hnew j d t hd hdt with ⟨rfl, h1⟩ | ⟨h1, hd'⟩ <;> rcases hnew k e t he het with ⟨rfl, h2⟩ | ⟨h2, he'⟩
      · rfl
      · omega
      · omega
      · exact h.apart j k d e t hd' he' hdt het

theorem step_inv {w : World H cfg} (h : w.Inv) (e : Event) : (step w e).Inv := by
  cases e with
  | start claims expected env => exact start_inv h claims expected env
  | resume i env =>
    simp only [step]
    cases hc : w.calls[i]? with
    | none => exact h
    | some c => exact resume_inv h hc env
  | turn a => exact turn_inv h a
  | ensure season => exact enqueue_inv h fun r hr => by cases hr
  | ensureContext season x => exact enqueue_inv h fun r hr => by cases hr
  | recoverMember season x => exact enqueue_inv h fun r hr => by cases hr

theorem run_inv {w : World H cfg} (h : w.Inv) (events : List Event) : (run w events).Inv := by
  induction events generalizing w with
  | nil => exact h
  | cons e events ih => exact ih (step_inv h e)

end World

theorem eq_of_filterMap_nodup {α β : Type} {f : α → Option β} {l : List α} (h : (l.filterMap f).Nodup) {i j : Nat} {a b : α}
    {k : β} (hi : l[i]? = some a) (hj : l[j]? = some b) (ha : f a = some k) (hb : f b = some k) : i = j := by
  induction l generalizing i j with
  | nil => cases hi
  | cons x l ih =>
    have hmem : ∀ {n : Nat} {c : α}, l[n]? = some c → f c = some k → k ∈ l.filterMap f := fun hn hc =>
      List.mem_filterMap.2 ⟨_, List.mem_of_getElem? hn, hc⟩
    cases i with
    | zero =>
      cases hi
      rw [List.filterMap_cons, ha] at h
      cases j with
      | zero => rfl
      | succ j => exact absurd (hmem hj hb) (List.nodup_cons.1 h).1
    | succ i =>
      cases j with
      | zero =>
        cases hj
        rw [List.filterMap_cons, hb] at h
        exact absurd (hmem hi ha) (List.nodup_cons.1 h).1
      | succ j =>
        have hl : (l.filterMap f).Nodup := by
          rw [List.filterMap_cons] at h
          cases hx : f x with
          | none => rw [hx] at h; exact h
          | some y => rw [hx] at h; exact (List.nodup_cons.1 h).2
        rw [ih hl hi hj]

/-- The commitments of a context that nothing durable is missing from. -/
theorem mem_of_size {m : Machine H cfg} (h : m.Inv) {season : Js.Num} {x : String} (hc : m.members.isCurrent season = true)
    (hn : m.members.size x = (m.store.forSeasonContext season x).length) {r : Record}
    (hr : r ∈ m.store.forSeasonContext season x) :
    ∃ cx, m.members.ctx.lookup x = some cx ∧ r.commitment ∈ cx.tree.commitments := by
  have hnum : m.members.number = season := by rw [State.number, State.number_of_isCurrent hc]; rfl
  cases hl : m.members.ctx.lookup x with
  | none =>
    have hz : (m.store.forSeasonContext season x).length = 0 := by rw [← hn, State.size, hl]; rfl
    rw [List.length_eq_zero_iff.1 hz] at hr
    cases hr
  | some cx =>
    have hb := (h.follows x cx hl).behind
    rw [hnum] at hb
    have he := hb.eq_of_length (by rw [List.length_map, ← hn, State.size_of_lookup hl, MembersTree.size])
    exact ⟨cx, rfl, by rw [he]; exact List.mem_map_of_mem hr⟩

theorem step_store {w : World H cfg} (h : w.Inv) (e : Event) : (step w e).machine.store = w.machine.store ∨
    ∃ f, w.machine.running = some f ∧ f.written = none ∧
      (step w e).machine.store = w.machine.store.remember (f.commit.record (w.machine.store.records f.commit.bucket).length) := by
  cases e with
  | turn a => exact Machine.advance_store w.machine a
  | resume i env =>
    simp only [step]
    cases hc : w.calls[i]? with
    | none => exact .inl rfl
    | some c =>
      rcases ((h.fits i c hc).advance env).2 with ⟨hm, -⟩ | ⟨season, x, hm, -⟩ | ⟨hm, -, -⟩ <;>
        exact .inl (by simp only [hm, Machine.enqueue])
  | _ => exact .inl rfl

/-- Registrations are safe at every point of every run. -/
theorem registration_safety {store : Index} (hs : store.Sound (2 ^ cfg.depth)) (events : List Event) :
    let w : World H cfg := run (.init store) events
    let m := w.machine
    -- one record for each key, and one call that was told so
    (∀ season x, ((m.store.forSeasonContext season x).map Record.regNullifier).Nodup) ∧
    (∀ (i j : Nat) (c d : Call) index root size index' root' size', w.calls[i]? = some c → w.calls[j]? = some d →
      c.pc = .done (.registered index root size) → d.pc = .done (.registered index' root' size') →
      c.expected.season.number = d.expected.season.number → c.claims.contextHash = d.claims.contextHash →
      c.claims.regNullifier = d.claims.regNullifier → i = j) ∧
    -- one declaration for each bucket, and no bucket above capacity
    (∀ season x, ∀ r ∈ m.store.forSeasonContext season x, ∀ q ∈ m.store.forSeasonContext season x,
      r.declaration = q.declaration) ∧
    (∀ season x, (m.store.forSeasonContext season x).length ≤ 2 ^ cfg.depth) ∧
    -- what is written is written by a call that may write it
    (∀ e, (step w e).machine.store = m.store ∨ ∃ (i : Nat) (c : Call) (f : Frame H cfg), w.calls[i]? = some c ∧ c.proved = true ∧ c.eligible = true ∧
      m.members.current = some c.expected.season.number ∧ m.running = some f ∧ f.commit = c.toCommit ∧
      (cfg.seasonNow = true → f.live = some c.expected.season.number) ∧
      ∃ index, (step w e).machine.store = m.store.remember (c.toCommit.record index)) ∧
    -- a call that found its key durable has had its member put back
    (∀ (i : Nat) (c : Call) t, w.calls[i]? = some c → c.recovery = some t →
      (c.pc = .done (.refused "already-registered") → ∃ o, o ≠ .threw ∧
        m.settled[t]? = some (.recoverMember c.claims.season.number c.claims.contextHash, o)) ∧
      ∀ o, m.running = none → m.settled.getLast? = some (.recoverMember c.claims.season.number c.claims.contextHash, o) →
        o ≠ .threw → m.members.isCurrent c.claims.season.number = true →
        ∃ r ∈ m.store.forSeasonContext c.claims.season.number c.claims.contextHash, r.regNullifier = c.claims.regNullifier ∧
          ∃ cx, m.members.ctx.lookup c.claims.contextHash = some cx ∧ r.commitment ∈ cx.tree.commitments) := by
  intro w m
  have h : w.Inv := World.run_inv (World.init_inv hs) events
  refine ⟨fun season x => h.safe.sound.eq_of_nullifier season x, ?_, fun season x => h.safe.sound.declared _,
    fun season x => h.safe.sound.room _, fun e => ?_, fun i c t hc ht => ⟨fun hp => ?_, fun o hrun hl ho hcur => ?_⟩⟩
  · intro i j c d index root size index' root' size' hc hd hcp hdp h1 h2 h3
    obtain ⟨t, hct, hst⟩ := (h.fits i c hc).registered _ _ _ hcp
    obtain ⟨t', hdt, hst'⟩ := (h.fits j d hd).registered _ _ _ hdp
    have hkey : c.toCommit.key = d.toCommit.key := by
      simp only [Draft.key, Call.toCommit, h1, h2, h3]
    have htt : t = t' := eq_of_filterMap_nodup h.safe.toKept.once hst hst' rfl (by rw [hkey]; rfl)
    subst htt
    exact h.apart i j c d t hc hd hct hdt
  · rcases step_store h e with he | ⟨f, hr, hw, he⟩
    · exact .inl he
    · obtain ⟨i, c, hc, ht⟩ := h.owned _ _ (Machine.ops_running hr)
      obtain ⟨hp, hel, hop⟩ := (h.fits i c hc).ticket _ ht
      rw [Machine.ops_running hr, Option.some.injEq, Op.commit.injEq] at hop
      refine .inr ⟨i, c, f, hc, hp, hel, ?_, hr, hop, fun hsn => ?_, _, by rw [he, hop]⟩
      · rw [(h.inv.prepared f hr).current, hop]; rfl
      · rw [(h.safe.room f hr hw).2 hsn, hop]; rfl
  · obtain ⟨o, hst, ho⟩ := (h.fits i c hc).answered t ht (by rw [hp]; exact fun hq => by cases hq)
    refine ⟨o, fun he => ?_, hst⟩
    rw [ho he] at hp
    cases hp
  · obtain ⟨-, hk⟩ := (h.fits i c hc).recovery t ht
    obtain ⟨r, hr, hn⟩ := h.safe.sound.record_of_has hk
    have hsize := h.safe.recovered hrun _ _ o hl ho hcur
    exact ⟨r, hr, hn, mem_of_size h.inv hcur hsize hr⟩

end

/-- Two calls for one key, interleaved: one is registered. -/
theorem registration_safety_race :
    let H : Poseidon Nat := ⟨Int.toNat, fun a b => 3 * a + b, id⟩
    let cfg : Config := ⟨true, some 2, 8, true, true⟩
    ∃ w : World H cfg, w.calls.map Call.pc = [.done (.registered 0 27 1), .done (.refused "already-registered")] ∧
      ((w.machine.store.forSeasonContext (.dec (.ofNat 5)) "1").map Record.regNullifier).Nodup ∧
      (w.machine.store.forSeasonContext (.dec (.ofNat 5)) "1").length = 1 := by
  intro H cfg
  let a : Awaits := ⟨false, false, false, false, false, 0, some (.dec (.ofNat 5)), false, .proceeds⟩
  let env : Env := ⟨false, true, .returns true⟩
  let claims : Claims := ⟨.ofString "5", "1", "2", "3", "9"⟩
  let expected : Expected := ⟨.ofNumber (.dec (.ofNat 5)), "1", .ofString "plonk", .ofString "derive"⟩
  let events : List Event := [.ensure (.dec (.ofNat 5)), .turn a, .start claims expected env, .start claims expected env,
    .resume 0 env, .resume 1 env, .resume 0 env, .resume 1 env, .turn a, .turn a, .turn a, .turn a, .resume 0 env, .resume 1 env]
  have h := @registration_safety Nat H cfg {} (Index.sound_empty (2 ^ cfg.depth)) events
  exact ⟨run (World.init {} : World H cfg) events, by decide, h.1 _ _, by decide⟩

end RegistrationFlow
