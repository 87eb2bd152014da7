import MnoVerify.RateLimiterSound

/-!
# Every sequence of calls of the rate limiters

A log says when a window opens, which answers are true and who is evicted. A key's entry and its last window in the log
agree, and from that the log is sound.
-/

namespace RateLimiter

inductive Event (ι : Type)
  | started (i : ι) (key : String) (now : Int)
  | granted (i : ι) (key : String) (now : Int)
  | evicted (i : ι) (key : String)
deriving DecidableEq

/-- The limiters, the last clock reading, and what happened, the latest first. -/
structure World (ι : Type) where
  limiters : ι → RateLimiter
  now : Int
  log : List (Event ι)

namespace World
variable {ι : Type} [DecidableEq ι]

/-- A charge of one limiter that a caller has as `answer`. -/
def charge (w : World ι) (i : ι) (key : String) (now₁ now₂ : Int) (answer : Bool) : World ι where
  limiters := Function.update w.limiters i ((w.limiters i).allow key now₁ now₂).2
  now := now₂
  log :=
    (if answer then [.granted i key now₁] else []) ++
    ((if (w.limiters i).fresh key now₁ then [.started i key now₁] else []) ++
    (((w.limiters i).evicted key now₂).map (fun p => .evicted i p.1) ++ w.log))

/-- `allow` of one limiter. -/
def allow (w : World ι) (i : ι) (key : String) (now₁ now₂ : Int) : World ι :=
  w.charge i key now₁ now₂ ((w.limiters i).allow key now₁ now₂).1

def chargeAll (clock : Nat → Int) : Nat → List (ι × String) → World ι → World ι
  | _, [], w => w
  | t, (i, key) :: pairs, w => chargeAll clock (t + 2) pairs (w.charge i key (clock t) (clock (t + 1)) true)

/-- `allowAll`; its answer is that of every charge. -/
def allowAll (w : World ι) (clock : Nat → Int) (pairs : List (ι × String)) : World ι :=
  if askAll clock w.limiters 0 pairs then w.chargeAll clock pairs.length pairs else { w with now := clock pairs.length }

def sweep (w : World ι) (i : ι) (now : Int) : World ι :=
  { w with limiters := Function.update w.limiters i ((w.limiters i).sweep now), now := now }

theorem limiters_chargeAll (clock : Nat → Int) (t : Nat) (pairs : List (ι × String)) (w : World ι) :
    (w.chargeAll clock t pairs).limiters = RateLimiter.chargeAll clock w.limiters t pairs := by
  induction pairs generalizing t w with
  | nil => rfl
  | cons p pairs ih => exact ih _ _

theorem limiters_allowAll (w : World ι) (clock : Nat → Int) (pairs : List (ι × String)) :
    (w.allowAll clock pairs).limiters = (RateLimiter.allowAll clock w.limiters pairs).2 := by
  unfold allowAll RateLimiter.allowAll
  split
  · exact w.limiters_chargeAll clock _ pairs
  · rfl

/-- The limiters are new at first, and each reading of the clock is at least the last. A list names no key of a limiter
twice. -/
inductive Reachable (windowSeconds : ι → Int) (max maxKeys : ι → Nat) : World ι → Prop
  | new (now : Int) : Reachable windowSeconds max maxKeys ⟨fun i => new (windowSeconds i) (max i) (maxKeys i), now, []⟩
  | allow {w : World ι} (h : w.Reachable windowSeconds max maxKeys) (i : ι) (key : String) {now₁ now₂ : Int}
      (h₁ : w.now ≤ now₁) (h₂ : now₁ ≤ now₂) : Reachable windowSeconds max maxKeys (w.allow i key now₁ now₂)
  | allowAll {w : World ι} (h : w.Reachable windowSeconds max maxKeys) {clock : Nat → Int} (hclock : NonDecreasing clock)
      (h₀ : w.now ≤ clock 0) {pairs : List (ι × String)} (hpairs : pairs.Nodup) :
      Reachable windowSeconds max maxKeys (w.allowAll clock pairs)
  | sweep {w : World ι} (h : w.Reachable windowSeconds max maxKeys) (i : ι) {now : Int} (h₁ : w.now ≤ now) :
      Reachable windowSeconds max maxKeys (w.sweep i now)
  | wouldAllow {w : World ι} (h : w.Reachable windowSeconds max maxKeys) {now : Int} (h₁ : w.now ≤ now) :
      Reachable windowSeconds max maxKeys { w with now := now }

end World

/-! ## What the log says of one key -/

section
variable {ι : Type} [DecidableEq ι]

/-- The last window that a key opened: its start, the true answers since, and whether it was evicted since. -/
structure View where
  start : Int
  grants : Nat
  evicted : Bool

def view (i : ι) (key : String) : List (Event ι) → Option View
  | [] => none
  | .started j k now :: log => if j = i ∧ k = key then some ⟨now, 0, false⟩ else view i key log
  | .granted j k _ :: log =>
    if j = i ∧ k = key then (view i key log).map fun v => { v with grants := v.grants + 1 } else view i key log
  | .evicted j k :: log =>
    if j = i ∧ k = key then (view i key log).map fun v => { v with evicted := true } else view i key log

/-- Windows follow one another, and a true answer falls in one that has room. -/
def Sound (windowMs : ι → Int) (max : ι → Nat) : List (Event ι) → Prop
  | [] => True
  | .started i key now :: log =>
    (∀ v, view i key log = some v → v.evicted = true ∨ v.start + windowMs i < now) ∧ Sound windowMs max log
  | .granted i key now :: log =>
    (∃ v, view i key log = some v ∧ v.grants < max i ∧ (now = v.start ∨ v.start ≤ now ∧ now ≤ v.start + windowMs i)) ∧
      Sound windowMs max log
  | .evicted _ _ :: log => Sound windowMs max log

/-- The entry of a key and its last window. -/
def Agree (windowMs now : Int) : Option Hit → Option View → Prop
  | some e, some v => v.grants ≤ e.count ∧ e.reset = v.start + windowMs ∧ v.evicted = false ∧ v.start ≤ now
  | some _, none => False
  | none, some v => v.evicted = true ∨ v.start + windowMs < now
  | none, none => True

theorem Agree.later {windowMs now now' : Int} {e : Option Hit} {v : Option View} (h : Agree windowMs now e v)
    (hn : now ≤ now') : Agree windowMs now' e v := by
  cases e with
  | none =>
    cases v with
    | none => trivial
    | some v => exact h.imp_right fun h => lt_of_lt_of_le h hn
  | some e =>
    cases v with
    | none => exact h
    | some v => exact ⟨h.1, h.2.1, h.2.2.1, h.2.2.2.trans hn⟩

/-- An entry whose window is over may go. -/
theorem Agree.expire {windowMs now now' : Int} {e : Hit} {v : Option View} (h : Agree windowMs now (some e) v)
    (he : e.reset < now') : Agree windowMs now' none v := by
  cases v with
  | none => exact h.elim
  | some v =>
    refine Or.inr ?_
    rw [← h.2.1]
    exact he

theorem view_evicted (i j : ι) (key : String) (hits : List (String × Hit)) (log : List (Event ι)) :
    view i key (hits.map (fun p => .evicted j p.1) ++ log) = view i key log ∧ (j = i → key ∉ hits.map Prod.fst) ∨
      view i key (hits.map (fun p => .evicted j p.1) ++ log) = (view i key log).map (fun v => { v with evicted := true }) ∧
        j = i ∧ key ∈ hits.map Prod.fst := by
  induction hits with
  | nil => exact Or.inl ⟨rfl, fun _ => List.not_mem_nil⟩
  | cons p hits ih =>
    rw [List.map_cons, List.cons_append, List.map_cons, view]
    by_cases h : j = i ∧ p.1 = key
    · rw [if_pos h]
      refine Or.inr ⟨?_, h.1, h.2 ▸ List.mem_cons_self⟩
      rcases ih with ⟨hv, _⟩ | ⟨hv, _⟩
      · rw [hv]
      · rw [hv, Option.map_map]
        rfl
    · rw [if_neg h]
      refine ih.imp (fun ⟨hv, hk⟩ => ⟨hv, fun hj hmem => ?_⟩) fun ⟨hv, hj, hk⟩ => ⟨hv, hj, List.mem_cons_of_mem _ hk⟩
      rcases List.mem_cons.1 hmem with heq | hmem
      · exact h ⟨hj, heq.symm⟩
      · exact hk hj hmem

theorem sound_evicted {windowMs : ι → Int} {max : ι → Nat} (j : ι) (hits : List (String × Hit)) (log : List (Event ι)) :
    Sound windowMs max (hits.map (fun p => .evicted j p.1) ++ log) ↔ Sound windowMs max log := by
  induction hits with
  | nil => exact Iff.rfl
  | cons p hits ih => exact ih

namespace World
variable {windowSeconds : ι → Int} {max maxKeys : ι → Nat} {w : World ι}

structure Inv (windowSeconds : ι → Int) (max maxKeys : ι → Nat) (w : World ι) : Prop where
  window : ∀ i, (w.limiters i).windowMs = windowSeconds i * 1000
  limit : ∀ i, (w.limiters i).max = max i
  keys : ∀ i, (w.limiters i).maxKeys = maxKeys i
  nodup : ∀ i, ((w.limiters i).hits.map Prod.fst).Nodup
  length : ∀ i, (w.limiters i).hits.length ≤ maxKeys i
  agree : ∀ i key, Agree (windowSeconds i * 1000) w.now ((w.limiters i).hits.lookup key) (view i key w.log)
  sound : Sound (fun i => windowSeconds i * 1000) max w.log

theorem charge_limiters_self (w : World ι) (i : ι) (key : String) (now₁ now₂ : Int) (answer : Bool) :
    (w.charge i key now₁ now₂ answer).limiters i = ((w.limiters i).allow key now₁ now₂).2 := Function.update_self _ _ _

theorem charge_limiters_of_ne (w : World ι) {i j : ι} (h : j ≠ i) (key : String) (now₁ now₂ : Int) (answer : Bool) :
    (w.charge i key now₁ now₂ answer).limiters j = w.limiters j := Function.update_of_ne h _ _

/-- What a charge writes of other keys is that they are evicted. -/
theorem view_charge_of_ne {i j : ι} {key k : String} (h : ¬ (i = j ∧ key = k)) (now₁ now₂ : Int) (answer : Bool) :
    view j k (w.charge i key now₁ now₂ answer).log =
      view j k (((w.limiters i).evicted key now₂).map (fun p => .evicted i p.1) ++ w.log) := by
  unfold charge
  by_cases ha : answer = true
  · by_cases hf : (w.limiters i).fresh key now₁ = true
    · rw [if_pos ha, if_pos hf, List.singleton_append, List.singleton_append, view, if_neg h, view, if_neg h]
    · rw [if_pos ha, if_neg hf, List.singleton_append, List.nil_append, view, if_neg h]
  · by_cases hf : (w.limiters i).fresh key now₁ = true
    · rw [if_neg ha, if_pos hf, List.nil_append, List.singleton_append, view, if_neg h]
    · rw [if_neg ha, if_neg hf, List.nil_append, List.nil_append]

/-- The other keys of the charged limiter. -/
theorem Inv.agree_charge_of_ne (hI : Inv windowSeconds max maxKeys w) {i : ι} {key k : String} (hk : k ≠ key) {now₁ now₂ : Int}
    (h : w.now ≤ now₂) (answer : Bool) :
    Agree (windowSeconds i * 1000) now₂ (((w.limiters i).allow key now₁ now₂).2.hits.lookup k)
      (view i k (w.charge i key now₁ now₂ answer).log) := by
  have hag := hI.agree i k
  rw [view_charge_of_ne fun hik => hk hik.2.symm]
  rcases view_evicted i i k ((w.limiters i).evicted key now₂) w.log with ⟨hv, hnot⟩ | ⟨hv, _, hmem⟩
  · rw [hv]
    rcases @lookup_allow_of_not_evicted _ _ now₁ _ _ hk (hI.nodup i) (hnot rfl) with hl | ⟨hl, e, he, hr⟩
    · rw [hl]
      exact hag.later h
    · rw [hl]
      rw [he] at hag
      exact hag.expire hr
  · rw [hv, lookup_allow_of_evicted (hI.nodup i) hmem]
    cases view i k w.log with
    | none => trivial
    | some v => exact Or.inl rfl

theorem view_evicted_self (w : World ι) (i : ι) (key : String) (now₂ : Int) :
    view i key (((w.limiters i).evicted key now₂).map (fun p => .evicted i p.1) ++ w.log) = view i key w.log := by
  rcases view_evicted i i key ((w.limiters i).evicted key now₂) w.log with ⟨hv, _⟩ | ⟨_, _, hmem⟩
  · exact hv
  · exact absurd hmem not_mem_evicted

/-- A charge that opens a window. -/
theorem log_charge_of_fresh {i : ι} {key : String} {now₁ : Int} (h : (w.limiters i).fresh key now₁ = true) (now₂ : Int)
    (answer : Bool) :
    (w.charge i key now₁ now₂ answer).log = (if answer then [.granted i key now₁] else []) ++
      .started i key now₁ :: (((w.limiters i).evicted key now₂).map (fun p => .evicted i p.1) ++ w.log) := by
  unfold charge
  rw [if_pos h]
  rfl

/-- A charge of a live window. -/
theorem log_charge_of_live {i : ι} {key : String} {now₁ : Int} {e : Hit} (he : (w.limiters i).hits.lookup key = some e)
    (h : ¬ e.reset < now₁) (now₂ : Int) (answer : Bool) :
    (w.charge i key now₁ now₂ answer).log = (if answer then [.granted i key now₁] else []) ++ w.log := by
  unfold charge
  rw [fresh_of_some he, decide_eq_false h, evicted_of_known he]
  rfl

theorem Inv.agree_charge_self (hI : Inv windowSeconds max maxKeys w) (i : ι) (key : String) {now₁ now₂ : Int}
    (h₁ : w.now ≤ now₁) (h₂ : now₁ ≤ now₂) (answer : Bool) :
    Agree (windowSeconds i * 1000) now₂ (some ((w.limiters i).charged key now₁))
      (view i key (w.charge i key now₁ now₂ answer).log) := by
  rcases fresh_or_live (w.limiters i) key now₁ with hf | ⟨e, he, hlive⟩
  · rw [log_charge_of_fresh hf, charged_of_fresh hf, hI.window]
    cases answer with
    | false =>
      rw [if_neg Bool.false_ne_true, List.nil_append, view, if_pos ⟨rfl, rfl⟩]
      exact ⟨Nat.zero_le _, rfl, rfl, h₂⟩
    | true =>
      rw [if_pos rfl, List.singleton_append, view, if_pos ⟨rfl, rfl⟩, view, if_pos ⟨rfl, rfl⟩]
      exact ⟨le_refl _, rfl, rfl, h₂⟩
  · have hag := hI.agree i key
    rw [log_charge_of_live he hlive, charged_of_live he hlive]
    rw [he] at hag
    cases hv : view i key w.log with
    | none =>
      rw [hv] at hag
      exact hag.elim
    | some v =>
      rw [hv] at hag
      obtain ⟨hgrants, hreset, hev, hstart⟩ := hag
      have hnow := hstart.trans (h₁.trans h₂)
      cases answer with
      | false =>
        rw [if_neg Bool.false_ne_true, List.nil_append, hv]
        exact ⟨Nat.le_succ_of_le hgrants, hreset, hev, hnow⟩
      | true =>
        rw [if_pos rfl, List.singleton_append, view, if_pos ⟨rfl, rfl⟩, hv]
        exact ⟨Nat.succ_le_succ hgrants, hreset, hev, hnow⟩

theorem Inv.sound_charge (hI : Inv windowSeconds max maxKeys w) (i : ι) (key : String) {now₁ : Int} (h₁ : w.now ≤ now₁)
    (now₂ : Int) {answer : Bool} (hcount : answer = true → ((w.limiters i).charged key now₁).count ≤ max i) :
    Sound (fun i => windowSeconds i * 1000) max (w.charge i key now₁ now₂ answer).log := by
  have hag := hI.agree i key
  rcases fresh_or_live (w.limiters i) key now₁ with hf | ⟨e, he, hlive⟩
  · have hstarted : Sound (fun i => windowSeconds i * 1000) max
        (.started i key now₁ :: (((w.limiters i).evicted key now₂).map (fun p => .evicted i p.1) ++ w.log)) := by
      refine ⟨fun v hv => ?_, (sound_evicted i _ _).2 hI.sound⟩
      rw [view_evicted_self] at hv
      rw [hv] at hag
      cases he : (w.limiters i).hits.lookup key with
      | none =>
        rw [he] at hag
        exact hag.imp_right fun hlt => lt_of_lt_of_le hlt h₁
      | some e =>
        rw [he] at hag
        rw [fresh_of_some he, decide_eq_true_eq] at hf
        refine Or.inr ?_
        rw [← hag.2.1]
        exact hf
    rw [log_charge_of_fresh hf]
    cases answer with
    | false => exact hstarted
    | true =>
      refine ⟨⟨⟨now₁, 0, false⟩, if_pos ⟨rfl, rfl⟩, ?_, Or.inl rfl⟩, hstarted⟩
      have hpos := hcount rfl
      rw [charged_of_fresh hf] at hpos
      exact hpos
  · rw [log_charge_of_live he hlive]
    rw [he] at hag
    cases answer with
    | false => exact hI.sound
    | true =>
      have hroom := hcount rfl
      rw [charged_of_live he hlive] at hroom
      cases hv : view i key w.log with
      | none =>
        rw [hv] at hag
        exact hag.elim
      | some v =>
        rw [hv] at hag
        obtain ⟨hgrants, hreset, hev, hstart⟩ := hag
        refine ⟨⟨v, hv, Nat.lt_of_le_of_lt hgrants hroom, Or.inr ⟨hstart.trans h₁, ?_⟩⟩, hI.sound⟩
        show now₁ ≤ v.start + windowSeconds i * 1000
        rw [← hreset]
        exact Int.not_lt.1 hlive

theorem Inv.charge (hI : Inv windowSeconds max maxKeys w) (hkeys : ∀ i, 1 ≤ maxKeys i) (i : ι) (key : String)
    {now₁ now₂ : Int} (h₁ : w.now ≤ now₁) (h₂ : now₁ ≤ now₂) {answer : Bool}
    (hcount : answer = true → ((w.limiters i).charged key now₁).count ≤ max i) :
    Inv windowSeconds max maxKeys (w.charge i key now₁ now₂ answer) where
  window j := ((update_allow_fields w.limiters i j key now₁ now₂).2).trans (hI.window j)
  limit j := ((update_allow_fields w.limiters i j key now₁ now₂).1).trans (hI.limit j)
  keys j := by
    by_cases hj : j = i
    · subst hj
      rw [charge_limiters_self]
      exact hI.keys j
    · rw [charge_limiters_of_ne w hj]
      exact hI.keys j
  nodup j := update_allow_nodup hI.nodup i j key now₁ now₂
  length j := by
    by_cases hj : j = i
    · subst hj
      have hle := @length_allow (w.limiters j) key now₁ now₂ ((hI.keys j).symm ▸ hkeys j)
        ((hI.keys j).symm ▸ hI.length j)
      rw [charge_limiters_self]
      exact (hI.keys j) ▸ hle
    · rw [charge_limiters_of_ne w hj]
      exact hI.length j
  agree j k := by
    by_cases hj : j = i
    · subst hj
      rw [charge_limiters_self]
      by_cases hk : k = key
      · subst hk
        rw [lookup_allow_self]
        exact hI.agree_charge_self j k h₁ h₂ answer
      · exact hI.agree_charge_of_ne hk (h₁.trans h₂) answer
    · rw [charge_limiters_of_ne w hj, view_charge_of_ne fun hik => hj hik.1.symm]
      rcases view_evicted j i k ((w.limiters i).evicted key now₂) w.log with ⟨hv, _⟩ | ⟨_, hij, _⟩
      · rw [hv]
        exact (hI.agree j k).later (h₁.trans h₂)
      · exact absurd hij.symm hj
  sound := hI.sound_charge i key h₁ now₂ hcount

theorem Inv.chargeAll (hkeys : ∀ i, 1 ≤ maxKeys i) (hmax : ∀ i, 1 ≤ max i) {clock : Nat → Int} (hclock : NonDecreasing clock)
    {t : Nat} {pairs : List (ι × String)} (hpairs : pairs.Nodup) (hI : Inv windowSeconds max maxKeys w)
    (hnow : w.now ≤ clock t)
    (hask : ∀ i key, (i, key) ∈ pairs → ∃ s, s ≤ t ∧ (w.limiters i).wouldAllow key (clock s) = true) :
    Inv windowSeconds max maxKeys (w.chargeAll clock t pairs) := by
  induction pairs generalizing w t with
  | nil => exact hI
  | cons p pairs ih =>
    obtain ⟨i, key⟩ := p
    rw [List.nodup_cons] at hpairs
    obtain ⟨s, hs, hallow⟩ := hask i key List.mem_cons_self
    have hcount := count_of_wouldAllow (hI.limit i ▸ hmax i) (hclock hs) hallow
    rw [hI.limit i] at hcount
    have hI' := hI.charge hkeys i key hnow (hclock (Nat.le_succ t)) fun _ : true = true => hcount
    refine ih hpairs.2 hI' (hclock (Nat.le_succ (t + 1))) fun j k hmem => ?_
    -- the keys still to charge would be allowed after this charge too
    have hne : (j, k) ≠ (i, key) := fun heq => hpairs.1 (heq ▸ hmem)
    obtain ⟨s, hs, hallow⟩ := hask j k (List.mem_cons_of_mem _ hmem)
    exact ⟨s, by omega, wouldAllow_congr (update_allow_fields w.limiters i j key _ _).1
      ((update_allow_lookup hI.nodup hne _ _).imp_right And.left) hallow⟩

theorem Inv.later (hI : Inv windowSeconds max maxKeys w) {now : Int} (h : w.now ≤ now) :
    Inv windowSeconds max maxKeys { w with now := now } :=
  { hI with agree := fun i key => (hI.agree i key).later h }

theorem lookup_sweep {l : RateLimiter} (h : (l.hits.map Prod.fst).Nodup) (key : String) (now : Int) :
    (l.sweep now).hits.lookup key = l.hits.lookup key ∨
      (l.sweep now).hits.lookup key = none ∧ ∃ e, l.hits.lookup key = some e ∧ e.reset < now := by
  refine (Assoc.lookup_sublist List.filter_sublist h key).elim Or.inl fun hnone => ?_
  cases he : l.hits.lookup key with
  | none => exact Or.inl hnone
  | some e =>
    refine Or.inr ⟨hnone, e, rfl, ?_⟩
    by_contra hlive
    have hmem : (key, e) ∈ (l.sweep now).hits := mem_sweep.2 ⟨Assoc.mem_of_lookup he, hlive⟩
    exact Assoc.lookup_eq_none_iff.1 hnone (List.mem_map_of_mem hmem)

theorem Inv.sweep (hI : Inv windowSeconds max maxKeys w) (i : ι) {now : Int} (h : w.now ≤ now) :
    Inv windowSeconds max maxKeys (w.sweep i now) := by
  have hother : ∀ j, j ≠ i → (w.sweep i now).limiters j = w.limiters j := fun j hj => Function.update_of_ne hj _ _
  have hself : (w.sweep i now).limiters i = (w.limiters i).sweep now := Function.update_self _ _ _
  refine ⟨fun j => ?_, fun j => ?_, fun j => ?_, fun j => ?_, fun j => ?_, fun j k => ?_, hI.sound⟩ <;> by_cases hj : j = i
  · rw [hj, hself]
    exact hI.window i
  · rw [hother j hj]
    exact hI.window j
  · rw [hj, hself]
    exact hI.limit i
  · rw [hother j hj]
    exact hI.limit j
  · rw [hj, hself]
    exact hI.keys i
  · rw [hother j hj]
    exact hI.keys j
  · rw [hj, hself]
    exact (List.filter_sublist.map Prod.fst).nodup (hI.nodup i)
  · rw [hother j hj]
    exact hI.nodup j
  · rw [hj, hself]
    exact (List.length_filter_le _ _).trans (hI.length i)
  · rw [hother j hj]
    exact hI.length j
  · rw [hj, hself]
    have hag := hI.agree i k
    rcases lookup_sweep (hI.nodup i) k now with hl | ⟨hl, e, he, hr⟩
    · rw [hl]
      exact hag.later h
    · rw [hl]
      rw [he] at hag
      exact hag.expire hr
  · rw [hother j hj]
    exact (hI.agree j k).later h

theorem Reachable.inv (h : w.Reachable windowSeconds max maxKeys) (hmax : ∀ i, 1 ≤ max i) (hkeys : ∀ i, 1 ≤ maxKeys i) :
    Inv windowSeconds max maxKeys w := by
  induction h with
  | new now => exact ⟨fun _ => rfl, fun _ => rfl, fun _ => rfl, fun _ => List.nodup_nil, fun _ => Nat.zero_le _,
      fun _ _ => trivial, trivial⟩
  | allow _ i key h₁ h₂ ih =>
    refine ih.charge hkeys i key h₁ h₂ fun hanswer => ?_
    rw [← ih.limit i]
    exact of_decide_eq_true hanswer
  | @allowAll w _ clock hclock h₀ pairs hpairs ih =>
    unfold World.allowAll
    split
    · rename_i hask
      refine ih.chargeAll hkeys hmax hclock hpairs (h₀.trans (hclock (Nat.zero_le _))) fun i key hmem => ?_
      obtain ⟨s, hs, heq⟩ := List.getElem_of_mem hmem
      refine ⟨0 + s, by omega, (askAll_eq_true w.limiters 0 pairs).1 hask s i key ?_⟩
      rw [List.getElem?_eq_getElem hs, heq]
    · exact ih.later (h₀.trans (hclock (Nat.zero_le _)))
  | sweep _ i h₁ ih => exact ih.sweep i h₁
  | wouldAllow _ h₁ ih => exact ih.later h₁

end World

/-! ## What a sound log says -/

def Event.isGranted (i : ι) (key : String) : Event ι → Bool
  | .granted j k _ => decide (j = i ∧ k = key)
  | _ => false

variable {windowMs : ι → Int} {max : ι → Nat} {i : ι} {key : String}

theorem Sound.suffix {seg log : List (Event ι)} (h : Sound windowMs max (seg ++ log)) : Sound windowMs max log := by
  induction seg with
  | nil => exact h
  | cons e seg ih =>
    cases e with
    | started j k now => exact ih h.2
    | granted j k now => exact ih h.2
    | evicted j k => exact ih h

/-- A part of the log that opens no window adds its true answers. -/
theorem view_append {seg : List (Event ι)} (log : List (Event ι)) (hs : ∀ now, .started i key now ∉ seg) :
    view i key (seg ++ log) = (view i key log).map fun v =>
      ⟨v.start, v.grants + seg.countP (Event.isGranted i key), v.evicted || decide (.evicted i key ∈ seg)⟩ := by
  induction seg with
  | nil => simp
  | cons e seg ih =>
    have ih := ih fun now hmem => hs now (List.mem_cons_of_mem _ hmem)
    cases e with
    | started j k now =>
      have hne : ¬ (j = i ∧ k = key) := by
        rintro ⟨rfl, rfl⟩
        exact hs now List.mem_cons_self
      rw [List.cons_append, view, if_neg hne, ih]
      simp [Event.isGranted]
    | granted j k now =>
      rw [List.cons_append, view, ih]
      by_cases h : j = i ∧ k = key
      · rw [if_pos h, Option.map_map]
        simp [Event.isGranted, h, Function.comp_def, Nat.add_assoc]
      · rw [if_neg h]
        simp [Event.isGranted, h]
    | evicted j k =>
      rw [List.cons_append, view, ih]
      by_cases h : j = i ∧ k = key
      · rw [if_pos h, Option.map_map]
        simp [Event.isGranted, h, Function.comp_def]
      · have hne : ¬ (i = j ∧ key = k) := fun hjk => h ⟨hjk.1.symm, hjk.2.symm⟩
        rw [if_neg h]
        simp [Event.isGranted, hne]

theorem Sound.grants_le {seg log : List (Event ι)} (h : Sound windowMs max (seg ++ log))
    (hs : ∀ now, .started i key now ∉ seg) : seg.countP (Event.isGranted i key) ≤ max i := by
  induction seg with
  | nil => exact Nat.zero_le _
  | cons e seg ih =>
    have hs' : ∀ now, .started i key now ∉ seg := fun now hmem => hs now (List.mem_cons_of_mem _ hmem)
    have htail : Sound windowMs max ([e] ++ (seg ++ log)) := h
    have ih := ih htail.suffix hs'
    by_cases he : e.isGranted i key = true
    · rw [List.countP_cons_of_pos he]
      cases e with
      | granted j k now =>
        obtain ⟨rfl, rfl⟩ := of_decide_eq_true he
        obtain ⟨⟨v, hv, hroom, _⟩, _⟩ := h
        -- the last window has all the answers of this part
        have hmap := (view_append log hs').symm.trans hv
        obtain ⟨v₀, _, rfl⟩ := Option.map_eq_some_iff.1 hmap
        exact Nat.succ_le_of_lt (Nat.lt_of_le_of_lt (Nat.le_add_left _ _) hroom)
      | started j k now => cases he
      | evicted j k => cases he
    · rw [List.countP_cons_of_neg he]
      exact ih

/-- Two windows in a row of a key that is not evicted in between. -/
theorem Sound.starts_apart {post mid log : List (Event ι)} {now now' : Int}
    (h : Sound windowMs max (post ++ .started i key now' :: (mid ++ .started i key now :: log)))
    (hs : ∀ t, .started i key t ∉ mid) (hev : .evicted i key ∉ mid) : now + windowMs i < now' := by
  have hv : view i key (mid ++ .started i key now :: log) =
      some ⟨now, 0 + mid.countP (Event.isGranted i key), false || decide (.evicted i key ∈ mid)⟩ := by
    rw [view_append _ hs, view, if_pos ⟨rfl, rfl⟩]
    rfl
  refine (h.suffix.1 _ hv).resolve_left fun hev' => hev ?_
  rw [Bool.false_or] at hev'
  exact of_decide_eq_true hev'

theorem started_of_view {log : List (Event ι)} {v : View} (h : view i key log = some v) :
    ∃ seg pre, log = seg ++ .started i key v.start :: pre ∧ ∀ t, .started i key t ∉ seg := by
  induction log generalizing v with
  | nil => cases h
  | cons e log ih =>
    by_cases hst : ∃ now, e = .started i key now
    · obtain ⟨now, rfl⟩ := hst
      rw [view, if_pos ⟨rfl, rfl⟩] at h
      cases h
      exact ⟨[], log, rfl, fun _ => List.not_mem_nil⟩
    · have hview : ∃ v₀, view i key log = some v₀ ∧ v₀.start = v.start := by
        cases e with
        | started j k now =>
          have hne : ¬ (j = i ∧ k = key) := by
            rintro ⟨rfl, rfl⟩
            exact hst ⟨now, rfl⟩
          rw [view, if_neg hne] at h
          exact ⟨v, h, rfl⟩
        | granted j k now =>
          rw [view] at h
          split at h
          · obtain ⟨v₀, h₀, rfl⟩ := Option.map_eq_some_iff.1 h
            exact ⟨v₀, h₀, rfl⟩
          · exact ⟨v, h, rfl⟩
        | evicted j k =>
          rw [view] at h
          split at h
          · obtain ⟨v₀, h₀, rfl⟩ := Option.map_eq_some_iff.1 h
            exact ⟨v₀, h₀, rfl⟩
          · exact ⟨v, h, rfl⟩
      obtain ⟨v₀, h₀, hstart⟩ := hview
      obtain ⟨seg, pre, rfl, hseg⟩ := ih h₀
      refine ⟨e :: seg, pre, by rw [hstart]; rfl, fun t hmem => ?_⟩
      rcases List.mem_cons.1 hmem with heq | hmem
      · exact hst ⟨t, heq.symm⟩
      · exact hseg t hmem

/-- A true answer lies in the last window before it. -/
theorem Sound.granted_in_window {post log : List (Event ι)} {now : Int}
    (h : Sound windowMs max (post ++ .granted i key now :: log)) :
    ∃ seg start pre, log = seg ++ .started i key start :: pre ∧ (∀ t, .started i key t ∉ seg) ∧
      (now = start ∨ start ≤ now ∧ now ≤ start + windowMs i) := by
  obtain ⟨⟨v, hv, _, hnow⟩, _⟩ := h.suffix
  obtain ⟨seg, pre, heq, hseg⟩ := started_of_view hv
  exact ⟨seg, v.start, pre, heq, hseg, hnow⟩

end

/-! ## The limits -/

section
variable {ι : Type} [DecidableEq ι] {ls : ι → RateLimiter} {clock : Nat → Int}

theorem limits_hold (hnd : ∀ i, ((ls i).hits.map Prod.fst).Nodup) (hmax : ∀ i, 1 ≤ (ls i).max) (hclock : NonDecreasing clock)
    (pairs : List (ι × String)) {windowSeconds : ι → Int} {max maxKeys : ι → Nat} (hmax' : ∀ i, 1 ≤ max i)
    (hkeys : ∀ i, 1 ≤ maxKeys i) {w : World ι} (hw : w.Reachable windowSeconds max maxKeys) :
    -- one call
    ((allowAll clock ls pairs).1 = true ↔
      ∀ s i key, pairs[s]? = some (i, key) → (ls i).wouldAllow key (clock s) = true) ∧
    ((allowAll clock ls pairs).1 = false → (allowAll clock ls pairs).2 = ls) ∧
    ((allowAll clock ls pairs).1 = true → pairs.Nodup → ∀ i key, (i, key) ∈ pairs →
      (∃ s e, pairs.length ≤ s ∧ ((allowAll clock ls pairs).2 i).hits.lookup key = some e ∧ e.count ≤ (ls i).max ∧
        ((∃ e₀, (ls i).hits.lookup key = some e₀ ∧ ¬ e₀.reset < clock s ∧ e = ⟨e₀.count + 1, e₀.reset⟩) ∨
          e = ⟨1, clock s + (ls i).windowMs⟩ ∧ ((ls i).fresh key (clock s) = true ∨ ∃ key', key' ≠ key ∧ (i, key') ∈ pairs))) ∨
        ((allowAll clock ls pairs).2 i).hits.lookup key = none ∧ ∃ key', key' ≠ key ∧ (i, key') ∈ pairs) ∧
    (∀ i, (∀ key, (i, key) ∉ pairs) → (allowAll clock ls pairs).2 i = ls i) ∧
    -- every sequence of calls
    (∀ i, (w.limiters i).hits.length ≤ maxKeys i) ∧
    (∀ i key post seg pre, w.log = post ++ (seg ++ pre) → (∀ t, .started i key t ∉ seg) →
      seg.countP (Event.isGranted i key) ≤ max i) ∧
    (∀ i key post mid pre start start', w.log = post ++ .started i key start' :: (mid ++ .started i key start :: pre) →
      (∀ t, .started i key t ∉ mid) → .evicted i key ∉ mid → start + windowSeconds i * 1000 < start') ∧
    (∀ i key post now pre', w.log = post ++ .granted i key now :: pre' → ∃ seg start pre,
      pre' = seg ++ .started i key start :: pre ∧ (∀ t, .started i key t ∉ seg) ∧
        (now = start ∨ start ≤ now ∧ now ≤ start + windowSeconds i * 1000)) := by
  have hI := hw.inv hmax' hkeys
  have hask := @askAll_eq_true _ clock ls 0 pairs
  simp only [Nat.zero_add] at hask
  refine ⟨?_, fun hf => ?_, fun ht hpairs i key hmem => ?_, fun i hi => ?_, hI.length, fun i key post seg pre hlog hs => ?_,
    fun i key post mid pre start start' hlog hs hev => ?_, fun i key post now pre' hlog => ?_⟩
  · rw [← hask]
    unfold allowAll
    split
    · rename_i h
      exact ⟨fun _ => h, fun _ => rfl⟩
    · rename_i h
      exact ⟨fun hf => absurd hf Bool.false_ne_true, fun ht => absurd ht h⟩
  · unfold allowAll at hf ⊢
    split at hf
    · cases hf
    · rename_i h
      rw [if_neg h]
  · unfold allowAll at ht ⊢
    split at ht
    · rename_i h
      rw [if_pos h]
      obtain ⟨s, hs, heq⟩ := List.getElem_of_mem hmem
      have hallow := hask.1 h s i key (by rw [List.getElem?_eq_getElem hs, heq])
      exact chargeAll_of_mem hnd hmax hclock hpairs pairs.length hs.le hallow hmem
    · cases ht
  · unfold allowAll
    split
    · exact chargeAll_of_not_named hi _
    · rfl
  · have hsound := hI.sound
    rw [hlog] at hsound
    exact hsound.suffix.grants_le hs
  · have hsound := hI.sound
    rw [hlog] at hsound
    exact hsound.starts_apart hs hev
  · have hsound := hI.sound
    rw [hlog] at hsound
    exact hsound.granted_in_window

end

/-- Two limiters charged together, the first reading of the clock at 0. -/
theorem limits_hold_pair :
    let ls : Bool → RateLimiter := fun _ => new 60 1 2
    let pairs := [(false, "ip"), (true, "account")]
    (allowAll Nat.cast ls pairs).1 = true ∧
      (∃ e, ((allowAll Nat.cast ls pairs).2 true).hits.lookup "account" = some e ∧ e.count ≤ 1) ∧
      ((World.allowAll ⟨ls, 0, []⟩ Nat.cast pairs).limiters true).hits.length ≤ 2 := by
  intro ls pairs
  have hclock : NonDecreasing Nat.cast := fun _ _ h => Int.ofNat_le.2 h
  have hpairs : pairs.Nodup := by decide
  have hnew : World.Reachable (fun _ : Bool => 60) (fun _ => 1) (fun _ => 2) ⟨ls, 0, []⟩ := .new 0
  have hw := hnew.allowAll hclock (le_refl 0) hpairs
  have hnd : ∀ i, ((ls i).hits.map Prod.fst).Nodup := fun _ => List.nodup_nil
  have hone : (allowAll Nat.cast ls pairs).1 = true := by decide
  obtain ⟨_, _, hcharged, _, hlength, _⟩ :=
    limits_hold hnd (fun _ => le_refl 1) hclock pairs (fun _ => le_refl 1) (fun _ => Nat.le_succ 1) hw
  refine ⟨hone, ?_, hlength true⟩
  rcases hcharged hone hpairs true "account" (by decide) with ⟨_, e, _, he, hle, _⟩ | ⟨_, key', hne, hmem⟩
  · exact ⟨e, he, hle⟩
  · simp only [pairs, List.mem_cons, Prod.mk.injEq, Bool.true_eq_false, false_and, true_and, false_or, List.not_mem_nil,
      or_false] at hmem
    exact absurd hmem hne

/-- A list that names a key of a limiter twice charges it past its limit. -/
theorem key_charged_twice :
    let charged := allowAll Nat.cast (fun _ : Unit => new 60 1 2) [((), "ip"), ((), "ip")]
    charged.1 = true ∧ ((charged.2 ()).hits.lookup "ip").map Hit.count = some 2 ∧ (charged.2 ()).max = 1 := by
  decide

end RateLimiter
