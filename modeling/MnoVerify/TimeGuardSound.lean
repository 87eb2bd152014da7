import MnoVerify.TimeGuard
import Mathlib.Logic.Relation

/-!
# What the marks file holds

`honest_of_covered`: while no call rests on a mark or a regression that a failed
`#persist` left in memory only, every period served is covered by the file and
every regression served outlives the process. `not_honest_of_not_covered`: a call
that does rest on one breaks this.
-/

namespace TimeGuard

variable (l : Lengths)

/-! ## Reading back the marks -/

theorem loadMark_epoch (g : Guard) : loadMark (persistBody l g) .epoch = .ok g.marks.epoch := by
  have h : (persistBody l g).field "epoch" = some (markJson g.marks.epoch) := by simp [persistBody, Json.field]
  unfold loadMark
  rw [Kind.name, h]
  cases g.marks.epoch <;> simp [markJson]

theorem loadMark_season (g : Guard) : loadMark (persistBody l g) .season = .ok g.marks.season := by
  have h : (persistBody l g).field "season" = some (markJson g.marks.season) := by simp [persistBody, Json.field]
  unfold loadMark
  rw [Kind.name, h]
  cases g.marks.season <;> simp [markJson]

theorem loadRegression_persistBody (g : Guard) : loadRegression (persistBody l g) = g.regression := by
  have h : (persistBody l g).field "regression" = some (regressionJson g.regression) := by
    simp [persistBody, Json.field]
  unfold loadRegression
  rw [h]
  cases hr : g.regression with
  | none => simp [regressionJson, Json.isObject]
  | some j => simp [regressionJson, j.property]

/-- A process started from a file that `#persist` wrote has the guard that wrote it. -/
theorem load_persisted (g : Guard) : load l (persisted l g) = .ok g := by
  have h1 : Json.isNum (.ofNat l.epochSeconds) ((persistBody l g).field "epochSeconds") = true := by
    simp [persistBody, Json.field, Json.isNum]
  have h2 : Json.isNum (.ofNat l.seasonSeconds) ((persistBody l g).field "seasonSeconds") = true := by
    simp [persistBody, Json.field, Json.isNum]
  have h3 : (persistBody l g).isObject = true := rfl
  simp only [load, persisted, Json.parse_stringify, h1, h2, h3, loadMark_epoch, loadMark_season,
    loadRegression_persistBody]
  rfl

/-- The mark of one kind that a process would start from. -/
def fileMark (file : Option (List Char)) (k : Kind) : Option Int :=
  match load l file with
  | .ok g => g.marks.get k
  | .error _ => none

/-- A process starts from this file, and it reports a regression. -/
def fileRegressed (file : Option (List Char)) : Bool :=
  match load l file with
  | .ok g => g.regressed
  | .error _ => false

@[simp] theorem fileMark_persisted (g : Guard) (k : Kind) : fileMark l (persisted l g) k = g.marks.get k := by
  rw [fileMark, load_persisted]

@[simp] theorem fileRegressed_persisted (g : Guard) : fileRegressed l (persisted l g) = g.regressed := by
  rw [fileRegressed, load_persisted]

/-! ## One observation -/

/-- An observation that is persisted marks its value, and forgets neither a mark nor a regression. -/
theorem observe_writes {g g' : Guard} {k : Kind} {v a : Int} (h : observe g k v a = (g', true)) :
    (∃ m, g'.marks.get k = some m ∧ v ≤ m) ∧ (g.regressed = true → g'.regressed = true) := by
  unfold observe at h
  cases hk : g.marks.get k with
  | none =>
    rw [hk] at h; cases h
    exact ⟨⟨v, Marks.get_set .., Int.le_refl v⟩, id⟩
  | some mark =>
    rw [hk] at h
    dsimp only at h
    split at h
    · cases h
      exact ⟨⟨v, Marks.get_set .., Int.le_refl v⟩, id⟩
    · split at h
      · rename_i hlt
        cases h
        exact ⟨⟨mark, hk, Int.le_of_lt hlt.1⟩, fun _ => rfl⟩
      · cases h

/-- A value that is observed without a `#persist`: it is not above the mark, and a step
back is no news. -/
def Quiet (g : Guard) (k : Kind) (v : Int) : Prop :=
  ∃ m, g.marks.get k = some m ∧ v ≤ m ∧ (v = m ∨ g.regressed = true)

theorem observe_quiet {g : Guard} {k : Kind} {v : Int} (a : Int) (h : Quiet g k v) : observe g k v a = (g, false) := by
  obtain ⟨m, hm, hv, h⟩ := h
  have h1 : ¬ m < v := by omega
  have h2 : ¬ (v < m ∧ g.regression.isNone = true) := by
    rintro ⟨hlt, hn⟩
    rcases h with rfl | h
    · omega
    · rw [Guard.regressed, ← Option.not_isNone, hn] at h; cases h
  simp only [observe, hm, if_neg h1, if_neg h2]

theorem quiet_of_observe {g g' : Guard} {k : Kind} {v a : Int} (h : observe g k v a = (g', false)) : Quiet g k v := by
  unfold observe at h
  cases hk : g.marks.get k with
  | none => rw [hk] at h; cases h
  | some mark =>
    rw [hk] at h
    dsimp only at h
    split at h
    · cases h
    · split at h
      · cases h
      · rename_i h1 h2
        refine ⟨mark, hk, by omega, ?_⟩
        by_cases he : v = mark
        · exact .inl he
        · right
          by_contra hr
          exact h2 ⟨by omega, by simpa [Guard.regressed] using hr⟩

/-! ## What a step does -/

/-- The step returns nothing and writes nothing; a guard that stays or starts knows the
regression that the one before it, or the file, has. -/
def Silent (s t : State) : Prop :=
  t.file = s.file ∧ t.served = s.served ∧ t.returned = none ∧
    ∀ g, t.guard = some g → load l s.file = .ok g ∨ ∃ g₀, s.guard = some g₀ ∧ (g₀.regressed = true → g.regressed = true)

/-- The file is replaced by the marks of `g'`, and the call may return. -/
def Writes (s t : State) : Prop :=
  ∃ g g' k v, s.guard = some g ∧ (g.regressed = true → g'.regressed = true) ∧ (∃ m, g'.marks.get k = some m ∧ v ≤ m) ∧
    t.file = persisted l g' ∧ (t.guard = none ∨ t.guard = some g') ∧ (t.returned = none ∨ t.returned = some (k, v)) ∧
    (t.served = true → s.served = true ∨ g.regressed = true)

theorem silent_of_eq {s t : State} {g : Option Guard} (ht : t = { s with guard := g, returned := none })
    (hg : ∀ g', g = some g' → load l s.file = .ok g' ∨ ∃ g₀, s.guard = some g₀ ∧ (g₀.regressed = true → g'.regressed = true)) :
    Silent l s t := by
  subst ht; exact ⟨rfl, rfl, rfl, hg⟩

theorem step_call_quiet {s : State} {g : Guard} {k : Kind} {now a : Int} {w : Write} (hg : s.guard = some g)
    (hq : Quiet g k (periodNow l k now)) :
    step l s (.call k now a w) =
      { s with returned := some (k, periodNow l k now), served := s.served || g.regressed } := by
  simp only [step, hg, observe_quiet a hq]

theorem step_cases (s : State) (e : Event) :
    Silent l s (step l s e) ∨ Writes l s (step l s e) ∨
      ∃ k now a w g, e = .call k now a w ∧ s.guard = some g ∧ Quiet g k (periodNow l k now) := by
  have keep : ∀ g', s.guard = some g' →
      load l s.file = .ok g' ∨ ∃ g₀, s.guard = some g₀ ∧ (g₀.regressed = true → g'.regressed = true) :=
    fun g' h => .inr ⟨g', h, id⟩
  cases e with
  | kill => exact .inl (silent_of_eq l (g := none) rfl nofun)
  | start readFails =>
    left
    cases hs : s.guard with
    | some g => exact silent_of_eq l (g := s.guard) (by simp only [step, hs]) keep
    | none =>
      cases readFails with
      | true => exact silent_of_eq l (g := s.guard) (by simp [step, hs]) keep
      | false =>
        cases hl : load l s.file with
        | ok g => exact silent_of_eq l (g := some g) (by simp [step, hs, hl]) fun g' h => by cases h; exact .inl hl
        | error x => exact silent_of_eq l (g := s.guard) (by simp [step, hs, hl]) keep
  | call k now a w =>
    cases hs : s.guard with
    | none => exact .inl (silent_of_eq l (g := s.guard) (by simp only [step, hs]) keep)
    | some g =>
      cases ho : observe g k (periodNow l k now) a with
      | mk g' b =>
      cases b with
      | false => exact .inr (.inr ⟨k, now, a, w, g, rfl, rfl, quiet_of_observe ho⟩)
      | true =>
        obtain ⟨hm, hr⟩ := observe_writes ho
        cases w with
        | done =>
          right; left
          have h : step l s (.call k now a .done) =
              ⟨persisted l g', some g', some (k, periodNow l k now), s.served || g.regressed⟩ := by
            simp only [step, hs, ho]
          rw [h]
          exact ⟨g, g', k, _, hs, hr, hm, rfl, .inr rfl, .inr rfl, Bool.or_eq_true_iff.1⟩
        | throws =>
          exact .inl (silent_of_eq l (g := some g') (by simp only [step, hs, ho])
            fun g₁ h => by cases h; exact .inr ⟨g, hs, hr⟩)
        | killed renamed =>
          cases renamed with
          | false => exact .inl (silent_of_eq l (g := none) (by simp [step, hs, ho]) nofun)
          | true =>
            right; left
            have h : step l s (.call k now a (.killed true)) =
                { s with file := persisted l g', guard := none, returned := none } := by
              simp only [step, hs, ho, if_true]
            rw [h]
            exact ⟨g, g', k, _, hs, hr, hm, rfl, .inl rfl, .inl rfl, .inl⟩

/-! ## Runs -/

/-- A period returned normally is covered by the mark in the file, and a regression
that a later call was served under is reported by every process started from the file. -/
def Honest (s : State) : Prop :=
  (∀ k v, s.returned = some (k, v) → ∃ m, fileMark l s.file k = some m ∧ v ≤ m) ∧
    (s.served = true → fileRegressed l s.file = true)

/-- A value that is observed without a `#persist` although the file lacks its mark, or lacks
the regression that memory has. -/
def Unsaved (file : Option (List Char)) (g : Guard) (k : Kind) (v : Int) : Prop :=
  Quiet g k v ∧ ((∀ m, fileMark l file k = some m → m < v) ∨ (g.regressed = true ∧ fileRegressed l file = false))

/-- The call does not rest on what a failed `#persist` left in memory only. -/
def Covered (s : State) : Event → Prop
  | .call k now _ _ => ∀ g, s.guard = some g → ¬ Unsaved l s.file g k (periodNow l k now)
  | _ => True

/-- A running process knows a regression that the file holds, and what was served is in the file. -/
def Remembers (s : State) : Prop :=
  (∀ g, s.guard = some g → fileRegressed l s.file = true → g.regressed = true) ∧
    (s.served = true → fileRegressed l s.file = true)

theorem remembers_init (file : Option (List Char)) : Remembers l (State.init file) :=
  ⟨nofun, nofun⟩

theorem Silent.remembers {s t : State} (h : Silent l s t) (hr : Remembers l s) : Remembers l t ∧ Honest l t := by
  obtain ⟨hf, hs, hn, hg⟩ := h
  have hsv : t.served = true → fileRegressed l t.file = true := by rw [hs, hf]; exact hr.2
  refine ⟨⟨fun g hg' hreg => ?_, hsv⟩, fun k v h => ?_, hsv⟩
  · rw [hf] at hreg
    rcases hg g hg' with hl | ⟨g₀, h0, hmono⟩
    · rwa [fileRegressed, hl] at hreg
    · exact hmono (hr.1 g₀ h0 hreg)
  · rw [hn] at h; cases h

theorem Writes.remembers {s t : State} (h : Writes l s t) (hr : Remembers l s) : Remembers l t ∧ Honest l t := by
  obtain ⟨g, g', k, v, hs, hmono, ⟨m, hm, hv⟩, hf, hg, hret, hsv⟩ := h
  have hserved : t.served = true → fileRegressed l t.file = true := fun h => by
    rw [hf, fileRegressed_persisted]
    rcases hsv h with h | h
    · exact hmono (hr.1 g hs (hr.2 h))
    · exact hmono h
  refine ⟨⟨fun g₁ h₁ hreg => ?_, hserved⟩, fun k₁ v₁ h => ?_, hserved⟩
  · rcases hg with hg | hg
    · rw [hg] at h₁; cases h₁
    · rw [hg] at h₁; cases h₁; rwa [hf, fileRegressed_persisted] at hreg
  · rcases hret with hret | hret
    · rw [hret] at h; cases h
    · rw [hret] at h; cases h
      exact ⟨m, by rw [hf, fileMark_persisted, hm], hv⟩

theorem quiet_remembers {s : State} {g : Guard} {k : Kind} {v : Int} (hr : Remembers l s) (hq : Quiet g k v)
    (hu : ¬ Unsaved l s.file g k v) :
    let t : State := { s with returned := some (k, v), served := s.served || g.regressed }
    Remembers l t ∧ Honest l t := by
  have hserved : (s.served || g.regressed) = true → fileRegressed l s.file = true := fun h => by
    rcases Bool.or_eq_true_iff.1 h with h | h
    · exact hr.2 h
    · by_contra hf
      exact hu ⟨hq, .inr ⟨h, by simpa using hf⟩⟩
  refine ⟨⟨hr.1, hserved⟩, fun k₁ v₁ h => ?_, hserved⟩
  cases h
  by_contra hno
  refine hu ⟨hq, .inl fun m hm => ?_⟩
  by_contra hlt
  exact hno ⟨m, hm, by omega⟩

theorem step_remembers {s : State} {e : Event} (hr : Remembers l s) (hc : Covered l s e) :
    Remembers l (step l s e) ∧ Honest l (step l s e) := by
  rcases step_cases l s e with h | h | ⟨k, now, a, w, g, rfl, hs, hq⟩
  · exact h.remembers l hr
  · exact h.remembers l hr
  · rw [step_call_quiet l hs hq]
    exact quiet_remembers l hr hq (hc g hs)

/-- The marks stay honest in every run in which no call rests on what a failed `#persist` left in memory only. -/
theorem honest_of_covered (file : Option (List Char)) {s : State}
    (h : Relation.ReflTransGen (fun a b => ∃ e, Covered l a e ∧ b = step l a e) (State.init file) s) :
    Honest l s := by
  have hs : Remembers l s ∧ Honest l s := by
    induction h with
    | refl => exact ⟨remembers_init l file, nofun, nofun⟩
    | tail _ he ih =>
      obtain ⟨e, hc, rfl⟩ := he
      exact step_remembers l ih.1 hc
  exact hs.2

/-- A call that is not covered returns a period that the file does not cover, or serves a
regression that the file does not hold. -/
theorem not_honest_of_not_covered {s : State} {e : Event} (hc : ¬ Covered l s e) : ¬ Honest l (step l s e) := by
  cases e with
  | start readFails => exact absurd trivial hc
  | kill => exact absurd trivial hc
  | call k now a w =>
    simp only [Covered, not_forall, not_not] at hc
    obtain ⟨g, hs, hq, hu⟩ := hc
    rw [step_call_quiet l hs hq]
    rintro ⟨h1, h2⟩
    rcases hu with hlt | ⟨hreg, hf⟩
    · obtain ⟨m', hm', hv⟩ := h1 k _ rfl
      exact absurd (hlt m' hm') (by omega)
    · have := h2 (by rw [hreg, Bool.or_true])
      rw [hf] at this; cases this

/-! ## A failed write -/

/-- Epochs of 100 s and seasons of 1000 s. -/
def lengths : Lengths := ⟨100, 1000, by decide, by decide⟩

/-- The first `#persist` throws, and the next call in the same epoch returns. -/
def lostWrite : List Event := [.start false, .call .epoch 500 500 .throws, .call .epoch 500 500 .done]

theorem lostWrite_not_honest : ¬ Honest lengths (lostWrite.foldl (step lengths) (State.init none)) := by
  intro h
  obtain ⟨m, hm, -⟩ := h.1 .epoch 5 rfl
  have hn : fileMark lengths (lostWrite.foldl (step lengths) (State.init none)).file .epoch = none := rfl
  rw [hn] at hm; cases hm

theorem honest_start_call :
    Honest lengths (step lengths (step lengths (State.init none) (.start false)) (.call .epoch 500 500 .done)) := by
  refine honest_of_covered lengths none (.tail (.tail .refl ⟨.start false, trivial, rfl⟩)
    ⟨.call .epoch 500 500 .done, fun g hg hu => ?_, rfl⟩)
  obtain ⟨⟨m, hm, -⟩, -⟩ := hu
  cases hg; cases hm

end TimeGuard
