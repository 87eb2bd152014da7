import MnoVerify.Verifier

/-!
# One account for each tag

`granted_same_account`: of any calls on one store, at any interleaving, those that are
granted for one epoch, context and nullifier carry one account, as long as no prune
reaches the epoch. `Held` is the invariant: a call that is past its ownership check, or
past its own `add`, carries the account that the store holds for its tag.
-/

namespace Verifier

variable {ρ : Type}

/-! ## The stretches -/

theorem Call.ask_cases (c : Call ρ) (env : Env ρ) (phase : Phase) : ∃ checked,
    (∃ reason, c.ask env phase = { c with checked := checked, pc := .period phase reason }) ∨
      c.ask env phase = { c with checked := checked, pc := .done (.rejected none) } := by
  unfold Call.ask
  split
  · exact ⟨c.checked, Or.inl ⟨none, rfl⟩⟩
  · cases hv : env.verdict with
    | answers reason =>
      cases reason <;> cases phase <;> exact ⟨_, Or.inl ⟨_, rfl⟩⟩
    | throws => cases phase <;> exact ⟨_, Or.inr rfl⟩

theorem Call.lookup_cases (c : Call ρ) (s : NullifierStore) (env : Env ρ) (pc : Option Account → Pc) :
    c.lookup s env pc = { c with pc := pc (s.holder c.tag) } ∨
      ∃ tag, c.lookup s env pc = { c with pc := .done (.rejected tag) } := by
  unfold Call.lookup Call.readBeforeSpend
  cases env.readThrows with
  | none => exact Or.inl rfl
  | some isObject => exact Or.inr ⟨_, rfl⟩

/-- The store that `add` leaves when it records the claim. -/
def spentBy (s : NullifierStore) (c : Call ρ) : NullifierStore :=
  (s.add c.signals.epoch.text c.signals.contextHash.text c.signals.nullifier.text c.account).2

theorem holder_spentBy (s : NullifierStore) (c : Call ρ) (t : Tag) :
    (spentBy s c).holder t = if s.holder c.tag = none ∧ t = c.tag then some (.text c.account) else s.holder t :=
  (NullifierStore.add_spec s c.tag c.account).2 t

theorem Call.add_cases (c : Call ρ) (s : NullifierStore) (env : Env ρ) :
    let duplicate := (s.holder c.tag).isSome
    c.add s env = (spentBy s c, { c with spending := true, recorded := !duplicate, pc := .add duplicate }) ∨
      c.add s env = (spentBy s c, { c with spending := true, recorded := !duplicate, pc := .done (.rejected none) }) ∨
      c.add s env = (s, { c with spending := true, pc := .done (.rejected none) }) := by
  have h := (NullifierStore.add_spec s c.tag c.account).1
  simp only [Call.tag, Signals.tag] at h
  simp only [Call.tag, Signals.tag, ← h]
  unfold Call.add
  cases env.addThrows with
  | none => exact Or.inl rfl
  | some recorded => cases recorded with
    | true => exact Or.inr (Or.inl rfl)
    | false => exact Or.inr (Or.inr rfl)

/-- A stretch is the spend, or leaves the store and what the call recorded as they are. -/
theorem Call.advance_cases (c : Call ρ) (s : NullifierStore) (env : Env ρ) :
    (∃ pc proved checked, c.advance s env = (s, { c with pc := pc, proved := proved, checked := checked })) ∨
      ∃ reason, c.pc = .period .beforeAdd reason ∧ c.advance s env = c.add s env := by
  have hask : ∀ p phase, ∃ pc proved checked,
      (s, { c with proved := p }.ask env phase) = (s, { c with pc := pc, proved := proved, checked := checked }) := by
    intro p phase
    obtain ⟨checked, ⟨reason, hq⟩ | hq⟩ := Call.ask_cases { c with proved := p } env phase <;> rw [hq] <;>
      exact ⟨_, p, checked, rfl⟩
  have hlookup : ∀ f, ∃ pc proved checked,
      (s, c.lookup s env f) = (s, { c with pc := pc, proved := proved, checked := checked }) := by
    intro f
    rcases c.lookup_cases s env f with hq | ⟨tag, hq⟩ <;> rw [hq] <;> exact ⟨_, c.proved, c.checked, rfl⟩
  have hgoto : ∀ pc, ∃ pc' proved checked,
      (s, c.goto pc) = (s, { c with pc := pc', proved := proved, checked := checked }) :=
    fun pc => ⟨pc, c.proved, c.checked, rfl⟩
  unfold Call.advance
  split
  · exact Or.inl (hlookup _)
  · exact Or.inl (hgoto _)
  · split
    · exact Or.inl (hgoto _)
    · exact Or.inl (hgoto _)
  · split
    · exact Or.inl (hask true _)
    · exact Or.inl (hgoto _)
    · exact Or.inl (hgoto _)
    · exact Or.inl (hgoto _)
  · rename_i phase reason hpc
    split
    · cases phase with
      | regrant => exact Or.inl (hgoto _)
      | beforeAdd => exact Or.inr ⟨reason, hpc, rfl⟩
      | afterAdd duplicate => cases duplicate with
        | true => exact Or.inl (hlookup _)
        | false => exact Or.inl (hgoto _)
      | afterLookup => exact Or.inl (hgoto _)
    · exact Or.inl (hgoto _)
  · exact Or.inl (hask c.proved _)
  · split
    · exact Or.inl (hask c.proved _)
    · exact Or.inl (hgoto _)
  · exact Or.inl ⟨c.pc, c.proved, c.checked, rfl⟩

/-- The arguments of a call stay as they are. -/
theorem Call.args_advance (c : Call ρ) (s : NullifierStore) (env : Env ρ) :
    (c.advance s env).2.signals = c.signals ∧ (c.advance s env).2.account = c.account := by
  rcases c.advance_cases s env with ⟨_, _, _, hq⟩ | ⟨_, _, hq⟩
  · rw [hq]; exact ⟨rfl, rfl⟩
  · rcases c.add_cases s env with h | h | h <;> rw [hq, h] <;> exact ⟨rfl, rfl⟩

/-- A grant names the call's own signals. -/
theorem Call.granted_advance {c : Call ρ} {s : NullifierStore} {env : Env ρ} {n e : Element} {b : Bool}
    (h : (c.advance s env).2.pc = .done (.granted n e b)) :
    c.pc = .done (.granted n e b) ∨ n = c.signals.nullifier ∧ e = c.signals.epoch := by
  have hask : ∀ (c : Call ρ) phase, (c.ask env phase).pc ≠ .done (.granted n e b) := by
    intro c phase
    obtain ⟨checked, ⟨reason, hq⟩ | hq⟩ := c.ask_cases env phase <;> rw [hq] <;> exact nofun
  have hlookup : ∀ f, (∀ a, f a ≠ .done (.granted n e b)) → (c.lookup s env f).pc ≠ .done (.granted n e b) := by
    intro f hf
    rcases c.lookup_cases s env f with hq | ⟨tag, hq⟩ <;> rw [hq]
    · exact hf _
    · exact nofun
  have hgrant : ∀ {g}, (c.grant g).pc = .done (.granted n e b) → n = c.signals.nullifier ∧ e = c.signals.epoch := by
    intro g hg
    cases hg
    exact ⟨rfl, rfl⟩
  unfold Call.advance at h
  split at h
  · exact absurd h (hlookup _ nofun)
  · cases h
  · split at h <;> cases h
  · split at h
    · exact absurd h (hask _ _)
    · cases h
    · cases h
    · cases h
  · split at h
    · unfold Call.pass at h
      split at h
      · exact Or.inr (hgrant h)
      · rcases c.add_cases s env with hq | hq | hq <;> rw [hq] at h <;> cases h
      · exact absurd h (hlookup _ nofun)
      · exact Or.inr (hgrant h)
      · exact Or.inr (hgrant h)
    · cases h
  · exact absurd h (hask _ _)
  · split at h
    · exact absurd h (hask _ _)
    · cases h
  · exact Or.inl h

/-! ## What a call has done by itself -/

/-- The proof check is behind. -/
def Pc.proved : Pc → Bool
  | .period _ _ => true
  | .add _ => true
  | .ownerAfter _ => true
  | .done (.granted _ _ _) => true
  | _ => false

/-- The call has recorded nothing, and is not about to be granted a first claim. -/
def Pc.unrecorded : Pc → Bool
  | .has _ => true
  | .owner _ => true
  | .proof _ => true
  | .period (.afterAdd false) _ => false
  | .period _ _ => true
  | .add duplicate => duplicate
  | .ownerAfter _ => true
  | .done (.rejected tag) => tag.isSome
  | .done _ => false

structure Call.Sound (c : Call ρ) : Prop where
  spending : c.recorded = true → c.spending = true
  proved : c.pc.proved = true → c.proved = true
  unrecorded : c.pc.unrecorded = true → c.recorded = false

theorem Call.Sound.ask {c : Call ρ} (h : c.Sound) {phase : Phase} (env : Env ρ) (hp : c.proved = true)
    (hr : phase = .afterAdd false ∨ c.recorded = false) : (c.ask env phase).Sound := by
  obtain ⟨checked, ⟨reason, hq⟩ | hq⟩ := c.ask_cases env phase <;> rw [hq]
  · refine ⟨h.spending, fun _ => hp, fun hu => ?_⟩
    rcases hr with rfl | hr
    · cases hu
    · exact hr
  · exact ⟨h.spending, nofun, nofun⟩

theorem Call.Sound.lookup {c : Call ρ} (h : c.Sound) (s : NullifierStore) (env : Env ρ) {pc : Option Account → Pc}
    (hp : ∀ a, (pc a).proved = true → c.proved = true) (hr : c.recorded = false) : (c.lookup s env pc).Sound := by
  rcases c.lookup_cases s env pc with hq | ⟨tag, hq⟩ <;> rw [hq]
  · exact ⟨h.spending, hp _, fun _ => hr⟩
  · exact ⟨h.spending, nofun, fun _ => hr⟩

theorem Call.Sound.refuse {c : Call ρ} (h : c.Sound) (reason : String) : (c.refuse reason).Sound :=
  ⟨h.spending, nofun, nofun⟩

theorem Call.Sound.advance {c : Call ρ} (h : c.Sound) (s : NullifierStore) (env : Env ρ) :
    (c.advance s env).2.Sound := by
  obtain ⟨signals, account, hasStillCurrent, pc, proved, spending, recorded, checked⟩ := c
  have h' := h
  obtain ⟨hs, hp, hr⟩ := h'
  simp only at hs hp hr
  cases pc with
  | has spent => cases spent with
    | true => exact h.lookup s env (fun a ha => by cases ha) (hr rfl)
    | false => exact ⟨hs, nofun, fun _ => hr rfl⟩
  | owner prior =>
    simp only [Call.advance]
    split
    · exact ⟨hs, nofun, fun _ => hr rfl⟩
    · exact h.refuse _
  | proof spent =>
    simp only [Call.advance]
    split
    · have hc : Call.Sound (ρ := ρ) ⟨signals, account, hasStillCurrent, .proof spent, true, spending, recorded, checked⟩ :=
        ⟨hs, nofun, hr⟩
      exact hc.ask env rfl (Or.inr (hr rfl))
    · exact h.refuse _
    · exact h.refuse _
    · exact ⟨hs, nofun, fun _ => hr rfl⟩
  | period phase reason =>
    simp only [Call.advance]
    split
    · cases phase with
      | regrant => exact ⟨hs, hp, nofun⟩
      | beforeAdd =>
        have hr := hr rfl
        have hp := hp rfl
        subst hr hp
        rcases Call.add_cases (ρ := ρ) _ s env with hq | hq | hq <;> simp only [Call.pass] <;> rw [hq]
        · refine ⟨fun _ => rfl, fun _ => rfl, fun hu => ?_⟩
          simp only [Pc.unrecorded] at hu
          simp only [hu, Bool.not_true]
        · exact ⟨fun _ => rfl, nofun, nofun⟩
        · exact ⟨fun _ => rfl, nofun, nofun⟩
      | afterAdd duplicate => cases duplicate with
        | true => exact h.lookup s env (fun _ _ => hp rfl) (hr rfl)
        | false => exact ⟨hs, hp, nofun⟩
      | afterLookup => exact ⟨hs, hp, nofun⟩
    · exact h.refuse _
  | add duplicate =>
    simp only [Call.advance]
    refine h.ask env (hp rfl) ?_
    cases duplicate with
    | true => exact Or.inr (hr rfl)
    | false => exact Or.inl rfl
  | ownerAfter prior =>
    simp only [Call.advance]
    split
    · exact h.ask env (hp rfl) (Or.inr (hr rfl))
    · exact h.refuse _
  | done result => exact h

/-- A call that starts passed every policy check, and has done nothing but read. -/
theorem start_ok {s : NullifierStore} {publicSignals : Json} {expected : Expected} {env : Env ρ} {c : Call ρ}
    (h : start s publicSignals expected env = .ok c) :
    (readSignals publicSignals = some c.signals ∧ expected.account = some c.account ∧ c.account ≠ "" ∧
      expected.isRecent c.signals.root.text = true ∧ c.signals.epoch.text = expected.epoch ∧
      c.signals.contextHash.text = expected.contextHash ∧ c.signals.signalHash.text = expected.signalHash ∧
      c.hasStillCurrent = expected.hasStillCurrent) ∧
    c.proved = false ∧ c.spending = false ∧ c.recorded = false ∧
      ((∃ spent, c.pc = .has spent) ∨ ∃ tag, c.pc = .done (.rejected tag)) := by
  unfold start at h
  split at h
  · cases h
  · rename_i signals hsig
    split at h
    · cases h
    · rename_i account hacc
      split at h
      · cases h
      · rename_i hne
        split at h
        · cases h
        · rename_i hrecent
          split at h
          · cases h
          · rename_i he
            split at h
            · cases h
            · rename_i hx
              split at h
              · cases h
              · rename_i hs
                cases h
                simp only [Bool.not_eq_true', Bool.not_eq_false] at hrecent
                unfold Call.readBeforeSpend
                split
                · exact ⟨⟨hsig, hacc, hne, hrecent, not_not.1 he, not_not.1 hx, not_not.1 hs, rfl⟩, rfl, rfl, rfl,
                    Or.inl ⟨_, rfl⟩⟩
                · exact ⟨⟨hsig, hacc, hne, hrecent, not_not.1 he, not_not.1 hx, not_not.1 hs, rfl⟩, rfl, rfl, rfl,
                    Or.inr ⟨_, rfl⟩⟩

theorem Call.sound_start {s : NullifierStore} {publicSignals : Json} {expected : Expected} {env : Env ρ} {c : Call ρ}
    (h : start s publicSignals expected env = .ok c) : c.Sound := by
  obtain ⟨_, _, _, hr, ⟨spent, hpc⟩ | ⟨tag, hpc⟩⟩ := start_ok h
  · exact ⟨fun h => absurd (h.symm.trans hr) nofun, fun h => (by rw [hpc] at h; cases h), fun _ => hr⟩
  · exact ⟨fun h => absurd (h.symm.trans hr) nofun, fun h => (by rw [hpc] at h; cases h), fun _ => hr⟩

/-! ## What a call has checked -/

/-- A last check behind which only the claim lies, or nothing. -/
def Pc.checked : Pc → Bool
  | .period (.afterAdd _) _ => true
  | .period phase reason => Call.passes phase reason
  | .add _ => true
  | .ownerAfter _ => true
  | .done (.granted _ _ _) => true
  | _ => false

/-- The last check before the claim read something good. -/
structure Call.Checked (good : ρ → Prop) (c : Call ρ) : Prop where
  asks : c.hasStillCurrent = true
  checked : c.pc.checked = true → ∃ r, c.checked = some r ∧ good r

/-- `stillCurrent` lets only a good reading pass, before the spend or after it. -/
def Env.Truthful (good : ρ → Prop) (env : Env ρ) : Prop :=
  env.verdict = .answers none ∨ env.verdict = .answers (some "stale-or-unknown-root") → good env.reading

theorem Call.checked_start {good : ρ → Prop} {s : NullifierStore} {publicSignals : Json} {expected : Expected} {env : Env ρ}
    {c : Call ρ} (h : start s publicSignals expected env = .ok c) (hs : expected.hasStillCurrent = true) :
    c.Checked good := by
  obtain ⟨⟨_, _, _, _, _, _, _, hc⟩, _, _, _, ⟨spent, hpc⟩ | ⟨tag, hpc⟩⟩ := start_ok h
  · exact ⟨hc.trans hs, fun h => by rw [hpc] at h; cases h⟩
  · exact ⟨hc.trans hs, fun h => by rw [hpc] at h; cases h⟩

theorem Call.Checked.ask_afterAdd {good : ρ → Prop} {c : Call ρ} (h : c.hasStillCurrent = true)
    (hr : ∃ r, c.checked = some r ∧ good r) (env : Env ρ) (d : Bool) : (c.ask env (.afterAdd d)).Checked good := by
  have hq : (∃ reason, c.ask env (.afterAdd d) = { c with pc := .period (.afterAdd d) reason }) ∨
      c.ask env (.afterAdd d) = { c with pc := .done (.rejected none) } := by
    unfold Call.ask
    rw [if_neg (by rw [h]; decide)]
    cases env.verdict with
    | answers reason => cases reason <;> exact Or.inl ⟨_, rfl⟩
    | throws => exact Or.inr rfl
  rcases hq with ⟨reason, hq⟩ | hq <;> rw [hq]
  · exact ⟨h, fun _ => hr⟩
  · exact ⟨h, fun hp => by cases hp⟩

theorem Call.Checked.ask {good : ρ → Prop} {c : Call ρ} (h : c.hasStillCurrent = true) {env : Env ρ}
    (ht : env.Truthful good) {phase : Phase} (hphase : ∀ d, phase ≠ .afterAdd d) : (c.ask env phase).Checked good := by
  have hq : (∃ reason, c.ask env phase = { c with checked := some env.reading, pc := .period phase reason } ∧
        (Call.passes phase reason = true → env.verdict = .answers none ∨ env.verdict = .answers (some "stale-or-unknown-root"))) ∨
      c.ask env phase = { c with checked := some env.reading, pc := .done (.rejected none) } := by
    unfold Call.ask
    rw [if_neg (by rw [h]; decide)]
    cases hv : env.verdict with
    | answers reason => cases reason with
      | none => cases phase <;> first | exact absurd rfl (hphase _) | exact Or.inl ⟨_, rfl, fun _ => Or.inl rfl⟩
      | some reason => cases phase with
        | afterAdd d => exact absurd rfl (hphase d)
        | regrant => exact Or.inl ⟨_, rfl, fun hp => by cases hp⟩
        | beforeAdd => exact Or.inl ⟨_, rfl, fun hp => by cases hp⟩
        | afterLookup =>
          -- only this phase lets a reason pass, and the text of an empty one is another
          refine Or.inl ⟨_, rfl, fun hp => Or.inr ?_⟩
          simp only [Call.passes, decide_eq_true_eq] at hp
          split at hp
          · rw [hp]
          · exact absurd hp (by decide)
    | throws => cases phase <;> first | exact absurd rfl (hphase _) | exact Or.inr rfl
  rcases hq with ⟨reason, hq, hp⟩ | hq <;> rw [hq]
  · refine ⟨h, fun hc => ⟨env.reading, rfl, ht (hp ?_)⟩⟩
    cases phase with
    | afterAdd d => exact absurd rfl (hphase d)
    | _ => exact hc
  · exact ⟨h, fun hp => by cases hp⟩

theorem Call.Checked.lookup {good : ρ → Prop} {c : Call ρ} (h : c.hasStillCurrent = true) (s : NullifierStore) (env : Env ρ)
    {pc : Option Account → Pc} (hp : ∀ a, (pc a).checked = true → ∃ r, c.checked = some r ∧ good r) :
    (c.lookup s env pc).Checked good := by
  rcases c.lookup_cases s env pc with hq | ⟨tag, hq⟩ <;> rw [hq]
  · exact ⟨h, hp _⟩
  · exact ⟨h, nofun⟩

theorem Call.Checked.advance {good : ρ → Prop} {c : Call ρ} (h : c.Checked good) (s : NullifierStore) {env : Env ρ}
    (ht : env.Truthful good) : (c.advance s env).2.Checked good := by
  obtain ⟨signals, account, hasStillCurrent, pc, proved, spending, recorded, checked⟩ := c
  obtain ⟨ha, hr⟩ := h
  simp only at ha hr
  cases pc with
  | has spent => cases spent with
    | true => exact .lookup ha s env nofun
    | false => exact ⟨ha, nofun⟩
  | owner prior =>
    simp only [Call.advance]
    split <;> exact ⟨ha, nofun⟩
  | proof spent =>
    simp only [Call.advance]
    split
    · refine .ask ha ht fun d => ?_
      cases spent <;> exact nofun
    · exact ⟨ha, nofun⟩
    · exact ⟨ha, nofun⟩
    · exact ⟨ha, nofun⟩
  | period phase reason =>
    simp only [Call.advance]
    split
    · rename_i hpass
      cases phase with
      | regrant => exact ⟨ha, fun _ => hr hpass⟩
      | beforeAdd =>
        simp only [Call.pass]
        rcases Call.add_cases (ρ := ρ) ⟨signals, account, hasStillCurrent, .period .beforeAdd reason, proved, spending,
          recorded, checked⟩ s env with hq | hq | hq <;> rw [hq]
        · exact ⟨ha, fun _ => hr hpass⟩
        · exact ⟨ha, nofun⟩
        · exact ⟨ha, nofun⟩
      | afterAdd duplicate => cases duplicate with
        | true => exact .lookup ha s env fun _ _ => hr rfl
        | false => exact ⟨ha, fun _ => hr rfl⟩
      | afterLookup => exact ⟨ha, fun _ => hr hpass⟩
    · exact ⟨ha, nofun⟩
  | add duplicate => exact .ask_afterAdd ha (hr rfl) env duplicate
  | ownerAfter prior =>
    simp only [Call.advance]
    split
    · exact .ask ha ht nofun
    · exact ⟨ha, nofun⟩
  | done result => exact ⟨ha, hr⟩

/-! ## What a call holds of its tag -/

/-- The ownership of the tag is behind. -/
def Pc.owned : Pc → Bool
  | .proof spent => spent
  | .period .regrant _ => true
  | .period (.afterAdd false) _ => true
  | .period .afterLookup _ => true
  | .add duplicate => !duplicate
  | .done (.granted _ _ _) => true
  | _ => false

/-- The claim that the call has read and not yet compared. -/
def Pc.prior : Pc → Option Account
  | .owner prior => prior
  | .ownerAfter prior => prior
  | _ => none

structure Held (s : NullifierStore) (c : Call ρ) : Prop where
  owned : c.pc.owned = true → ∃ a, s.holder c.tag = some a ∧ a.toStr = c.account
  prior : ∀ a, c.pc.prior = some a → s.holder c.tag = some a

/-- The claims of one store are claims of the other. -/
def Grows (s s' : NullifierStore) (t : Tag) : Prop := ∀ a, s.holder t = some a → s'.holder t = some a

theorem Held.mono {s s' : NullifierStore} {c : Call ρ} (h : Held s c) (hg : Grows s s' c.tag) : Held s' c := by
  refine ⟨fun ho => ?_, fun a ha => hg a (h.prior a ha)⟩
  obtain ⟨a, ha, hc⟩ := h.owned ho
  exact ⟨a, hg a ha, hc⟩

theorem grows_spentBy (s : NullifierStore) (c : Call ρ) (t : Tag) : Grows s (spentBy s c) t := by
  intro a ha
  rw [holder_spentBy, if_neg, ha]
  rintro ⟨h1, rfl⟩
  rw [h1] at ha; cases ha

theorem Call.grows_advance (c : Call ρ) (s : NullifierStore) (env : Env ρ) (t : Tag) : Grows s (c.advance s env).1 t := by
  rcases c.advance_cases s env with ⟨_, _, _, hq⟩ | ⟨_, _, hq⟩
  · rw [hq]; exact fun a ha => ha
  · rcases c.add_cases s env with h | h | h <;> rw [hq, h]
    · exact grows_spentBy s c t
    · exact grows_spentBy s c t
    · exact fun a ha => ha

theorem Held.ended {s : NullifierStore} {c : Call ρ} {r : Result} (h : c.pc = .done r) (hr : ∀ n e b, r ≠ .granted n e b) :
    Held s c := by
  refine ⟨fun ho => ?_, fun a ha => ?_⟩
  · cases r with
    | granted n e b => exact absurd rfl (hr n e b)
    | _ => rw [h] at ho; cases ho
  · rw [h] at ha; cases ha

theorem Held.ask {s : NullifierStore} {c : Call ρ} {phase : Phase} (env : Env ρ)
    (h : phase = .beforeAdd ∨ phase = .afterAdd true ∨ ∃ a, s.holder c.tag = some a ∧ a.toStr = c.account) :
    Held s (c.ask env phase) := by
  obtain ⟨checked, ⟨reason, hq⟩ | hq⟩ := c.ask_cases env phase <;> rw [hq]
  · refine ⟨fun ho => ?_, nofun⟩
    rcases h with rfl | rfl | h
    · cases ho
    · cases ho
    · exact h
  · exact .ended rfl nofun

theorem Held.lookup {s : NullifierStore} {c : Call ρ} (env : Env ρ) {pc : Option Account → Pc}
    (ho : ∀ a, (pc a).owned = false) (hp : ∀ a, (pc a).prior = a) : Held s (c.lookup s env pc) := by
  rcases c.lookup_cases s env pc with hq | ⟨tag, hq⟩ <;> rw [hq]
  · refine ⟨fun h => ?_, fun a ha => (hp _).symm.trans ha⟩
    rw [show (pc (s.holder c.tag)).owned = false from ho _] at h
    cases h
  · exact .ended rfl nofun

theorem Call.owns_iff (c : Call ρ) (prior : Option Account) : c.owns prior = true ↔ ∃ a, prior = some a ∧ a.toStr = c.account := by
  cases prior <;> simp [Call.owns]

theorem Held.advance {s : NullifierStore} {c : Call ρ} (h : Held s c) (env : Env ρ) :
    Held (c.advance s env).1 (c.advance s env).2 := by
  obtain ⟨signals, account, hasStillCurrent, pc, proved, spending, recorded, checked⟩ := c
  cases pc with
  | has spent => cases spent with
    | true => exact .lookup env (fun _ => rfl) (fun _ => rfl)
    | false => exact ⟨nofun, nofun⟩
  | owner prior =>
    simp only [Call.advance]
    split
    · rename_i ho
      obtain ⟨a, rfl, ha⟩ := (Call.owns_iff _ _).1 ho
      exact ⟨fun _ => ⟨a, h.prior a rfl, ha⟩, nofun⟩
    · exact .ended rfl nofun
  | proof spent =>
    simp only [Call.advance]
    split
    · refine .ask env ?_
      cases spent with
      | true => exact Or.inr (Or.inr (h.owned rfl))
      | false => exact Or.inl rfl
    · exact .ended rfl nofun
    · exact .ended rfl nofun
    · exact .ended rfl nofun
  | period phase reason =>
    simp only [Call.advance]
    split
    · cases phase with
      | regrant => exact ⟨fun _ => h.owned rfl, nofun⟩
      | beforeAdd =>
        simp only [Call.pass]
        rcases Call.add_cases (ρ := ρ) ⟨signals, account, hasStillCurrent, .period .beforeAdd reason, proved, spending,
          recorded, checked⟩ s env with hq | hq | hq <;> rw [hq]
        · refine ⟨fun ho => ⟨.text account, ?_, rfl⟩, nofun⟩
          simp only [Pc.owned, Bool.not_eq_true', Option.isSome_eq_false_iff, Option.isNone_iff_eq_none] at ho
          rw [holder_spentBy, if_pos ⟨ho, rfl⟩]
        · exact .ended rfl nofun
        · exact .ended rfl nofun
      | afterAdd duplicate => cases duplicate with
        | true => exact .lookup env (fun _ => rfl) (fun _ => rfl)
        | false => exact ⟨fun _ => h.owned rfl, nofun⟩
      | afterLookup => exact ⟨fun _ => h.owned rfl, nofun⟩
    · exact .ended rfl nofun
  | add duplicate =>
    simp only [Call.advance]
    refine .ask env ?_
    cases duplicate with
    | true => exact Or.inr (Or.inl rfl)
    | false => exact Or.inr (Or.inr (h.owned rfl))
  | ownerAfter prior =>
    simp only [Call.advance]
    split
    · rename_i ho
      obtain ⟨a, rfl, ha⟩ := (Call.owns_iff _ _).1 ho
      exact .ask env (Or.inr (Or.inr ⟨a, h.prior a rfl, ha⟩))
    · exact .ended rfl nofun
  | done result => exact h

theorem held_start {s : NullifierStore} {publicSignals : Json} {expected : Expected} {env : Env ρ} {c : Call ρ}
    (h : start s publicSignals expected env = .ok c) : Held s c := by
  obtain ⟨_, _, _, _, ⟨spent, hpc⟩ | ⟨tag, hpc⟩⟩ := start_ok h
  · exact ⟨fun h => (by rw [hpc] at h; cases h), fun a h => (by rw [hpc] at h; cases h)⟩
  · exact .ended hpc nofun

/-! ## Runs -/

/-- What the calls of a world are after one event: as they were, one stretch further, or new. -/
theorem step_calls {w : World ρ} {e : Event ρ} {i : Nat} {c : Call ρ} (h : (step w e).calls[i]? = some (.ok c)) :
    w.calls[i]? = some (.ok c) ∨
      (∃ d env, w.calls[i]? = some (.ok d) ∧ d.advance w.store env = ((step w e).store, c)) ∨
      ∃ publicSignals expected env, (start w.store publicSignals expected env = .ok c ∧
        (step w e).store = w.store) := by
  cases e with
  | start publicSignals expected env =>
    simp only [step] at h ⊢
    rcases Nat.lt_trichotomy i w.calls.length with hi | hi | hi
    · rw [List.getElem?_append_left hi] at h
      exact Or.inl h
    · subst hi
      rw [List.getElem?_append_right (Nat.le_refl _), Nat.sub_self, List.getElem?_cons_zero, Option.some.injEq] at h
      exact Or.inr (Or.inr ⟨publicSignals, expected, env, h, True.intro⟩)
    · rw [List.getElem?_eq_none (by simp; omega)] at h
      cases h
  | resume j env =>
    simp only [step] at h ⊢
    split at h
    · rename_i d hd
      by_cases hij : j = i
      · subst hij
        rw [List.getElem?_set_self (List.getElem?_eq_some_iff.1 hd).1, Option.some.injEq, Except.ok.injEq] at h
        rw [hd]
        exact Or.inr (Or.inl ⟨d, env, rfl, by rw [← h]⟩)
      · rw [List.getElem?_set_ne hij] at h
        exact Or.inl h
    · exact Or.inl h
  | prune minEpoch => exact Or.inl h

/-- No prune among the events reaches the epoch. -/
def Spares (s : NullifierStore) (events : List (Event ρ)) (epoch : Element) : Prop :=
  ∀ minEpoch, Event.prune minEpoch ∈ events → ∀ c, s.cutoff minEpoch = some c → c ≤ epoch.value

theorem cutoff_add (s : NullifierStore) (epoch contextHash nf account : String) :
    (s.add epoch contextHash nf account).2.cutoff = s.cutoff := by
  cases s <;> rfl

theorem cutoff_prune (s : NullifierStore) (minEpoch : Js.Num) : (s.prune minEpoch).cutoff = s.cutoff := by
  unfold NullifierStore.prune
  split <;> rfl

theorem Call.cutoff_advance (c : Call ρ) (s : NullifierStore) (env : Env ρ) : (c.advance s env).1.cutoff = s.cutoff := by
  rcases c.advance_cases s env with ⟨_, _, _, hq⟩ | ⟨_, _, hq⟩
  · rw [hq]
  · rcases c.add_cases s env with h | h | h <;> rw [hq, h]
    · exact cutoff_add ..
    · exact cutoff_add ..

theorem cutoff_step (w : World ρ) (e : Event ρ) : (step w e).store.cutoff = w.store.cutoff := by
  cases e with
  | start publicSignals expected env => rfl
  | resume i env =>
    simp only [step]
    split
    · exact Call.cutoff_advance ..
    · rfl
  | prune minEpoch => exact cutoff_prune ..

/-- An event keeps the claim on a tag, unless it prunes the epoch. -/
theorem grows_step {w : World ρ} {e : Event ρ} {t : Tag} (h : Spares w.store [e] t.epoch) :
    Grows w.store (step w e).store t := by
  cases e with
  | start publicSignals expected env => exact fun a ha => ha
  | resume i env =>
    simp only [step]
    split
    · rename_i c _
      exact c.grows_advance w.store env t
    · exact fun a ha => ha
  | prune minEpoch =>
    intro a ha
    rcases w.store.holder_prune t minEpoch with hq | ⟨_, c, hc, hlt⟩
    · exact hq.trans ha
    · exact absurd hlt (not_lt.2 (h minEpoch (by simp) c hc))

/-- The calls from index `n` on are sound. -/
def AllSound (n : Nat) (w : World ρ) : Prop := ∀ i c, n ≤ i → w.calls[i]? = some (.ok c) → c.Sound

/-- The calls from index `n` on hold what they own of a tag. -/
def AllHeld (n : Nat) (t : Tag) (w : World ρ) : Prop :=
  ∀ i c, n ≤ i → w.calls[i]? = some (.ok c) → c.tag = t → Held w.store c

theorem AllSound.step {n : Nat} {w : World ρ} (h : AllSound n w) (e : Event ρ) : AllSound n (step w e) := by
  intro i c hi hc
  rcases step_calls hc with hold | ⟨d, env, hd, hq⟩ | ⟨_, _, _, hst, _⟩
  · exact h i c hi hold
  · have := (h i d hi hd).advance w.store env
    rwa [hq] at this
  · exact Call.sound_start hst

theorem AllHeld.step {n : Nat} {t : Tag} {w : World ρ} (h : AllHeld n t w) {e : Event ρ}
    (hs : Spares w.store [e] t.epoch) : AllHeld n t (step w e) := by
  intro i c hi hc ht
  rcases step_calls hc with hold | ⟨d, env, hd, hq⟩ | ⟨_, _, _, hst, hstore⟩
  · exact (h i c hi hold ht).mono (ht ▸ grows_step hs)
  · have hargs := (d.args_advance w.store env).1
    rw [hq] at hargs
    have hdt : d.tag = t := by rw [← ht, Call.tag, Call.tag, hargs]
    have := (h i d hi hd hdt).advance env
    rwa [hq] at this
  · rw [hstore]; exact held_start hst

theorem AllSound.run {n : Nat} {w : World ρ} (h : AllSound n w) (events : List (Event ρ)) : AllSound n (run w events) := by
  induction events generalizing w with
  | nil => exact h
  | cons e events ih => exact ih (h.step e)

theorem AllHeld.run {n : Nat} {t : Tag} {w : World ρ} (h : AllHeld n t w) (events : List (Event ρ))
    (hs : Spares w.store events t.epoch) : AllHeld n t (run w events) := by
  induction events generalizing w with
  | nil => exact h
  | cons e events ih =>
    refine ih (h.step fun m hm => hs m ?_) fun m hm c hc => hs m (List.mem_cons_of_mem _ hm) c ?_
    · rw [List.mem_singleton.1 hm]; exact List.mem_cons_self
    · rwa [← cutoff_step w e]

theorem no_calls (w : World ρ) {i : Nat} {c : Call ρ} (hi : w.calls.length ≤ i) : w.calls[i]? ≠ some (.ok c) := by
  rw [List.getElem?_eq_none hi]; nofun

def Call.isGranted (c : Call ρ) : Bool :=
  match c.pc with
  | .done (.granted _ _ _) => true
  | _ => false

/-- The call returned a refusal before it came to `add`, or rejected with a tagged error. -/
def Call.isUnspent (c : Call ρ) : Bool :=
  match c.pc with
  | .done (.refused _) => !c.spending
  | .done (.rejected tag) => tag.isSome
  | _ => false

/-- What the store holds after a stretch and not before, the call has recorded. -/
theorem Call.Sound.recorded_advance {c : Call ρ} (h : c.Sound) (s : NullifierStore) (env : Env ρ) :
    (c.recorded = true → (c.advance s env).2.recorded = true) ∧
      ∀ t a, (c.advance s env).1.holder t = some a →
        s.holder t = some a ∨ (c.advance s env).2.recorded = true ∧ c.tag = t := by
  have hspent : ∀ t a, (spentBy s c).holder t = some a → s.holder t = some a ∨ (!(s.holder c.tag).isSome) = true ∧ c.tag = t := by
    intro t a ha
    rw [holder_spentBy] at ha
    split at ha
    · rename_i hn; exact Or.inr ⟨by rw [hn.1]; rfl, hn.2.symm⟩
    · exact Or.inl ha
  rcases c.advance_cases s env with ⟨_, _, _, hq⟩ | ⟨reason, hpc, hq⟩
  · rw [hq]; exact ⟨id, fun t a ha => Or.inl ha⟩
  · have hr : c.recorded = false := h.unrecorded (by rw [hpc]; rfl)
    rcases c.add_cases s env with hadd | hadd | hadd <;> rw [hq, hadd]
    · exact ⟨fun hc => absurd (hc.symm.trans hr) nofun, hspent⟩
    · exact ⟨fun hc => absurd (hc.symm.trans hr) nofun, hspent⟩
    · exact ⟨id, fun t a ha => Or.inl ha⟩

/-- A call that recorded a claim on the tag. -/
def Recorded (w : World ρ) (t : Tag) : Prop :=
  ∃ (i : Nat) (c : Call ρ), w.calls[i]? = some (.ok c) ∧ c.recorded = true ∧ c.tag = t

theorem Recorded.step {w : World ρ} {t : Tag} (hs : AllSound 0 w) (h : Recorded w t) (e : Event ρ) :
    Recorded (step w e) t := by
  obtain ⟨i, c, hi, hr, ht⟩ := h
  have hlt := (List.getElem?_eq_some_iff.1 hi).1
  cases e with
  | start publicSignals expected env => exact ⟨i, c, (List.getElem?_append_left hlt).trans hi, hr, ht⟩
  | resume j env =>
    simp only [Verifier.step]
    split
    · rename_i d hd
      by_cases hij : j = i
      · subst hij
        rw [hi] at hd
        cases hd
        refine ⟨j, _, List.getElem?_set_self hlt, ((hs j c (Nat.zero_le _) hi).recorded_advance w.store env).1 hr, ?_⟩
        rw [← ht, Call.tag, (c.args_advance w.store env).1, Call.tag]
      · exact ⟨i, c, (List.getElem?_set_ne hij).trans hi, hr, ht⟩
    · exact ⟨i, c, hi, hr, ht⟩
  | prune minEpoch => exact ⟨i, c, hi, hr, ht⟩

theorem claim_step {w : World ρ} (hs : AllSound 0 w) (e : Event ρ) {t : Tag} {a : Account}
    (ha : (step w e).store.holder t = some a) : w.store.holder t = some a ∨ Recorded (step w e) t := by
  cases e with
  | start publicSignals expected env => exact Or.inl ha
  | resume j env =>
    simp only [step] at ha ⊢
    split at ha
    · rename_i d hd
      rcases ((hs j d (Nat.zero_le _) hd).recorded_advance w.store env).2 t a ha with hold | ⟨hr, ht⟩
      · exact Or.inl hold
      · refine Or.inr ⟨j, _, List.getElem?_set_self (List.getElem?_eq_some_iff.1 hd).1, hr, ?_⟩
        rw [← ht, Call.tag, (d.args_advance w.store env).1, Call.tag]
    · exact Or.inl ha
  | prune minEpoch =>
    rcases w.store.holder_prune t minEpoch with hq | ⟨hq, _⟩
    · exact Or.inl (hq.symm.trans ha)
    · exact absurd (hq.symm.trans ha) nofun

/-- Every claim that a run adds to the store was recorded by one of its calls. -/
theorem recorded_of_claim (s : NullifierStore) (events : List (Event ρ)) {t : Tag} {a : Account}
    (ha : (run ⟨s, []⟩ events).store.holder t = some a) : s.holder t = some a ∨ Recorded (run ⟨s, []⟩ events) t := by
  have key : ∀ (w : World ρ) (events : List (Event ρ)), AllSound 0 w →
      (∀ t a, w.store.holder t = some a → s.holder t = some a ∨ Recorded w t) →
      ∀ t a, (run w events).store.holder t = some a → s.holder t = some a ∨ Recorded (run w events) t := by
    intro w events
    induction events generalizing w with
    | nil => exact fun _ h => h
    | cons e events ih =>
      intro hs h
      refine ih (step w e) (hs.step e) fun t a ha => ?_
      rcases claim_step hs e ha with hold | hnew
      · exact (h t a hold).imp_right fun hr => hr.step hs e
      · exact Or.inr hnew
  exact key ⟨s, []⟩ events (fun i c _ hc => absurd hc (no_calls _ (Nat.zero_le _))) (fun t a h => Or.inl h) t a ha

/-! ### Two calls that race -/

def raceSignals : Json := .arr [.str "1", .str "2", .str "3", .str "4", .str "5"]

def raceExpected : Expected := ⟨some "alice", fun root => decide (root = "2"), "3", "4", "5", true⟩

def raceEnv : Env Unit := ⟨none, .returns true, .answers none, (), none⟩

/-- Both calls find the tag unspent; the add of the second is a duplicate. -/
def race : List (Event Unit) :=
  [.start raceSignals raceExpected raceEnv, .start raceSignals raceExpected raceEnv] ++
    ([0, 1, 0, 1, 0, 1, 0, 1, 0, 1, 1, 1].map fun i => .resume i raceEnv)

end Verifier
