import MnoVerify.RegistrationBackendSafe

/-!
# Where nothing fails

A load of which no operation fails does what `load` computes from the bytes of the file (`load_refines`). From any state that
the process comes to, whatever has failed before, operations that succeed lead a new read to its answer (`reads_recover`):
no failure is kept.
-/

namespace RegistrationBackend

open Registration RegistrationFile
open Durable (Disk Session Op Outcome)

variable {cfg : Config}

/-! ## The load to its end -/

/-- Operations that succeed bring the load to its end; `r` are the maps that it installs. -/
inductive Ends (cfg : Config) : Disk → Bool → LoadTurn → Disk → Option Index → Prop
  | installs {d : Disk} {e : Bool} {ix : Index} : Ends cfg d e (.installs ix) d (some ix)
  | throws {d : Disk} {e : Bool} : Ends cfg d e .throws d none
  | goes {d d₁ d' : Disk} {e e₁ : Bool} {pc : LoadPc} {t : LoadTurn} {r : Option Index} (first : pc.next cfg d e .done = (d₁, e₁, t))
      (rest : Ends cfg d₁ e₁ t d' r) : Ends cfg d e (.goes pc) d' r

/-- A session of the load comes to its end, and the load goes on behind it. -/
theorem ends_work {e e' : Bool} {t : LoadTurn} {mk : Session → LoadPc}
    (hmk : ∀ d s, (mk s).next cfg d e .done = work (s.next d .done) e mk (e', t)) {d d₁ d' : Disk} {s : Session} {turn : Durable.Turn}
    {r : Option Index} (h : Session.Plays d s d₁ turn) (hreturns : turn = .returns → Ends cfg d₁ e' t d' r)
    (hthrows : turn ≠ .returns → d' = d₁ ∧ r = none) : Ends cfg d e (.goes (mk s)) d' r := by
  induction h with
  | goes step rest ih => exact .goes ((hmk _ _).trans (by rw [step]; rfl)) (ih hreturns hthrows)
  | @last d d₁ s turn step stops =>
    have hfirst := hmk d s
    rw [step] at hfirst
    cases turn with
    | goes s' => exact absurd rfl (stops s')
    | returns => exact .goes hfirst (hreturns rfl)
    | throws =>
      obtain ⟨rfl, rfl⟩ := hthrows (by simp)
      exact .goes hfirst .throws
    | missing =>
      obtain ⟨rfl, rfl⟩ := hthrows (by simp)
      exact .goes hfirst .throws

theorem ends_returns {e e' : Bool} {t : LoadTurn} (mk : Session → LoadPc)
    (hmk : ∀ d s, (mk s).next cfg d e .done = work (s.next d .done) e mk (e', t)) {d d₁ d' : Disk} {s : Session}
    {r : Option Index} (h : Session.Plays d s d₁ .returns) (hreturns : Ends cfg d₁ e' t d' r) : Ends cfg d e (.goes (mk s)) d' r :=
  ends_work hmk h (fun _ => hreturns) fun hne => absurd rfl hne

/-- A load in a session comes to its end from anywhere. -/
theorem ends_session {e e' : Bool} {t : LoadTurn} (mk : Session → LoadPc)
    (hmk : ∀ d s, (mk s).next cfg d e .done = work (s.next d .done) e mk (e', t)) (h : ∀ d, ∃ d' r, Ends cfg d e' t d' r) (d : Disk)
    (s : Session) : ∃ d' r, Ends cfg d e (.goes (mk s)) d' r := by
  obtain ⟨d₁, turn, hplays⟩ := Session.exists_plays d s
  by_cases ht : turn = .returns
  · rw [ht] at hplays
    obtain ⟨d', r, hrest⟩ := h d₁
    exact ⟨d', r, ends_returns mk hmk hplays hrest⟩
  · exact ⟨d₁, none, ends_work hmk hplays (fun h => absurd h ht) fun _ => ⟨rfl, rfl⟩⟩

theorem ends_finish (d : Disk) (e : Bool) (ix : Index) : Ends cfg d e (finish ix) d (sortIndex ix).toOption := by
  unfold finish
  cases sortIndex ix with
  | ok ix => exact .installs
  | error why => exact .throws

theorem ends_afterStamp (cfg : Config) (d : Disk) (e : Bool) (ix : Index) :
    ∃ d', d'.visible = d.visible ∧ Ends cfg d e (afterStamp cfg e ix) d' (sortIndex ix).toOption := by
  unfold afterStamp
  split
  · exact ⟨d.syncDir, rfl, ends_returns (.naming · ix) (fun _ _ => rfl) Session.plays_directory (ends_finish _ _ ix)⟩
  · exact ⟨d, rfl, ends_finish d e ix⟩

theorem ends_afterRepair (cfg : Config) (d : Disk) (e : Bool) (ix : Index) (seenHeader discarded terminated : Bool) :
    ∃ d', d'.visible = (stamp cfg d.visible discarded terminated ix seenHeader).file ∧
      Ends cfg d e (afterRepair cfg e ix seenHeader) d' (stamp cfg d.visible discarded terminated ix seenHeader).result.toOption := by
  unfold afterRepair stamp
  cases hs : cfg.schedule with
  | none => exact ends_afterStamp cfg d e ix
  | some schedule =>
    dsimp only
    by_cases hh : seenHeader = true
    · rw [if_pos hh, if_pos hh]
      exact ends_afterStamp cfg d e ix
    rw [if_neg hh, if_neg hh]
    by_cases hr : (!ix.seen.isEmpty && !cfg.assumeSchedule) = true
    · rw [if_pos hr, if_pos hr]
      exact ⟨d, rfl, .throws⟩
    · rw [if_neg hr, if_neg hr]
      generalize headerText schedule ++ ['\n'] = text
      obtain ⟨d', hv, h⟩ := ends_afterStamp cfg (((d.append []).append (Utf8.encode text)).sync) e ix
      refine ⟨d', ?_, ends_returns (.stamping · ix) (fun _ _ => rfl) Session.plays_append h⟩
      rw [hv]
      simp [Disk.sync, Disk.append, Disk.bytes, appendText]

/-- A file that does not exist has no line. -/
theorem scan_missing (cfg : Config) : scan cfg (decide ((Utf8.decode []).getLast? ≠ some '\n')) [] ((Utf8.decode []).splitOn '\n') {} =
    .ok {} := rfl

theorem ends_afterScan (cfg : Config) {d : Disk} {s : Scan} (hv : d.visible = none → s.index.seen = []) (e : Bool) (raw : List Char) :
    ∃ d', d'.visible = (stamp cfg (repair raw d.visible s) s.truncateTo.isSome (terminates raw s) s.index s.seenHeader).file ∧
      Ends cfg d e (afterScan cfg e raw s) d'
        (stamp cfg (repair raw d.visible s) s.truncateTo.isSome (terminates raw s) s.index s.seenHeader).result.toOption := by
  unfold afterScan repair
  cases hn : s.truncateTo with
  | some n =>
    obtain ⟨d', hv', h⟩ := ends_afterRepair cfg (d.truncate n) e s.index s.seenHeader true (terminates raw s)
    exact ⟨d', hv', .goes rfl h⟩
  | none =>
    dsimp only
    by_cases ht : terminates raw s = true
    · rw [if_pos ht, if_pos ht]
      obtain ⟨d', hv', h⟩ := ends_afterRepair cfg ((d.append []).sync.append (Utf8.encode ['\n'])).sync e s.index s.seenHeader
        false (terminates raw s)
      have hb : (((d.append []).sync.append (Utf8.encode ['\n'])).sync).visible = appendText d.visible ['\n'] := by
        simp [Disk.sync, Disk.append, Disk.bytes, appendText]
      rw [hb] at hv' h
      exact ⟨d', hv', ends_returns (.repairing · s.index s.seenHeader) (fun _ _ => rfl) Session.plays_append h⟩
    · rw [if_neg ht, if_neg ht]
      by_cases hs : (cfg.schedule.isSome && !s.index.seen.isEmpty) = true
      · rw [if_pos hs]
        have hvis : d.visible.isSome = true := by
          by_contra hnone
          rw [Option.not_isSome_iff_eq_none] at hnone
          rw [hv hnone] at hs
          simp at hs
        obtain ⟨d', hv', h⟩ := ends_afterRepair cfg d.sync e s.index s.seenHeader false (terminates raw s)
        exact ⟨d', hv', ends_returns (.repairing · s.index s.seenHeader) (fun _ _ => rfl) (Session.plays_existing hvis) h⟩
      · rw [if_neg hs]
        exact ends_afterRepair cfg d e s.index s.seenHeader false _

theorem ends_load (cfg : Config) (d : Disk) (ensured : Bool) : ∃ d', d'.visible = (load cfg d.visible).file ∧
    Ends cfg d ensured (.goes .mkdir) d' (load cfg d.visible).result.toOption := by
  have hnext : LoadPc.next cfg d ensured .mkdir .done = (d, ensured, .goes .reading) := rfl
  have hbytes : d.visible.getD [] = d.bytes := rfl
  unfold load
  dsimp only
  rw [hbytes]
  cases hscan : scan cfg (decide ((Utf8.decode d.bytes).getLast? ≠ some '\n')) [] ((Utf8.decode d.bytes).splitOn '\n') {} with
  | error why =>
    have hread : LoadPc.next cfg d ensured .reading .done = (d, ensured, .throws) := by simp only [LoadPc.next, hscan]
    exact ⟨d, rfl, .goes hnext (.goes hread .throws)⟩
  | ok s =>
    have hv : d.visible = none → s.index.seen = [] := fun hv => by
      rw [Disk.bytes, hv, Option.getD_none, scan_missing] at hscan
      cases hscan
      rfl
    obtain ⟨d', hv', h⟩ := ends_afterScan cfg hv ensured (Utf8.decode d.bytes)
    have hread : LoadPc.next cfg d ensured .reading .done = (d, ensured, afterScan cfg ensured (Utf8.decode d.bytes) s) := by
      simp only [LoadPc.next, hscan]
    exact ⟨d', hv', .goes hnext (.goes hread h)⟩

theorem Ends.unique {d d₁ d₂ : Disk} {e : Bool} {t : LoadTurn} {r₁ r₂ : Option Index} (h₁ : Ends cfg d e t d₁ r₁)
    (h₂ : Ends cfg d e t d₂ r₂) : d₂ = d₁ ∧ r₂ = r₁ := by
  induction h₁ with
  | installs => cases h₂; exact ⟨rfl, rfl⟩
  | throws => cases h₂; exact ⟨rfl, rfl⟩
  | goes first rest ih =>
    cases h₂ with
    | goes first' rest' =>
      cases first.symm.trans first'
      exact ih rest'

/-- The load of the process, operation by operation, is the load of the file. -/
theorem load_refines (cfg : Config) (d : Disk) (ensured : Bool) : ∃ d', d'.visible = (load cfg d.visible).file ∧
    ∀ d'' r, Ends cfg d ensured (.goes .mkdir) d'' r ↔ d'' = d' ∧ r = (load cfg d.visible).result.toOption := by
  obtain ⟨d', hv, h⟩ := ends_load cfg d ensured
  refine ⟨d', hv, fun d'' r => ⟨fun h' => h.unique h', ?_⟩⟩
  rintro ⟨rfl, rfl⟩
  exact h

theorem ends_mkdir (cfg : Config) (d : Disk) (e : Bool) : ∃ d' r, Ends cfg d e (.goes .mkdir) d' r := by
  obtain ⟨d', -, h⟩ := ends_load cfg d e
  exact ⟨d', _, h⟩

/-- A load comes to its end from anywhere. -/
theorem exists_ends (cfg : Config) (d : Disk) (e : Bool) (pc : LoadPc) : ∃ d' r, Ends cfg d e (.goes pc) d' r := by
  have hstamp : ∀ ix d, ∃ d' r, Ends cfg d e (afterStamp cfg e ix) d' r := fun ix d => by
    obtain ⟨d', -, h⟩ := ends_afterStamp cfg d e ix
    exact ⟨d', _, h⟩
  have hrepair : ∀ ix seen d, ∃ d' r, Ends cfg d e (afterRepair cfg e ix seen) d' r := fun ix seen d => by
    obtain ⟨d', -, h⟩ := ends_afterRepair cfg d e ix seen false false
    exact ⟨d', _, h⟩
  cases pc with
  | mkdir => exact ends_mkdir cfg d e
  | reading =>
    obtain ⟨d', r, h⟩ := ends_mkdir cfg d e
    cases h with
    | goes first rest =>
      cases first
      exact ⟨d', r, rest⟩
  | truncating n s =>
    obtain ⟨d', r, h⟩ := hrepair s.index s.seenHeader (d.truncate n)
    exact ⟨d', r, .goes rfl h⟩
  | repairing s ix seen => exact ends_session (.repairing · ix seen) (fun _ _ => rfl) (hrepair ix seen) d s
  | stamping s ix => exact ends_session (.stamping · ix) (fun _ _ => rfl) (hstamp ix) d s
  | naming s ix =>
    exact ends_session (.naming · ix) (fun _ _ => rfl) (fun d => ⟨d, _, ends_finish d true ix⟩) d s

/-! ## The process where nothing fails -/

variable {kind : Nat → Kind} {w w' : World}

/-- The process goes on, and its operation succeeds. -/
inductive Goes (cfg : Config) (kind : Nat → Kind) (w w' : World) : Prop
  | call (i : Nat) : w.call kind i .done = some w' → Goes cfg kind w w'
  | load : w.load cfg .done = some w' → Goes cfg kind w w'
  | attempt : w.attempt cfg .done = some w' → Goes cfg kind w w'

def Smooth (cfg : Config) (kind : Nat → Kind) : World → World → Prop := Relation.ReflTransGen (Goes cfg kind)

theorem Smooth.runs (h : Smooth cfg kind w w') : Runs cfg kind w w' := by
  refine Relation.ReflTransGen.mono (fun w w' hg => ?_) _ _ h
  cases hg with
  | call i h => exact ⟨.call i .done, h⟩
  | load h => exact ⟨.load .done, h⟩
  | attempt h => exact ⟨.attempt .done, h⟩

/-- The end of a load that has these maps, or none. -/
def LoadTurn.final : Option Index → LoadTurn
  | some ix => .installs ix
  | none => .throws

/-- A load comes to its end where it is awaited. -/
theorem smooth_ends (stand : Disk → Bool → LoadTurn → World)
    (hstep : ∀ d e pc d₁ e₁ t, pc.next cfg d e .done = (d₁, e₁, t) → Goes cfg kind (stand d e (.goes pc)) (stand d₁ e₁ t))
    {d d' : Disk} {e : Bool} {t : LoadTurn} {r : Option Index} (h : Ends cfg d e t d' r) :
    ∃ e', Smooth cfg kind (stand d e t) (stand d' e' (.final r)) := by
  induction h with
  | installs => exact ⟨_, .refl⟩
  | throws => exact ⟨_, .refl⟩
  | goes first rest ih =>
    obtain ⟨e', hrest⟩ := ih
    exact ⟨e', .head (hstep _ _ _ _ _ _ first) hrest⟩

/-- Where the load of `ready` stands. -/
def World.loadAt (w : World) (d : Disk) (e : Bool) : LoadTurn → World
  | .goes pc => { w with disk := d, proc := { w.proc with dirEnsured := e, loading := .running pc } }
  | .installs ix => { w with
      disk := d
      proc := { w.proc.wake (Pc.onLoad true) with dirEnsured := e, loading := .fulfilled, index := ix } }
  | .throws => { w with
      disk := d
      proc := { w.proc.wake (Pc.onLoad false) with dirEnsured := e, loading := .none } }

theorem smooth_load (cfg : Config) (kind : Nat → Kind) {pc : LoadPc} {d' : Disk} {r : Option Index} (hl : w.proc.loading = .running pc)
    (h : Ends cfg w.disk w.proc.dirEnsured (.goes pc) d' r) : ∃ e', Smooth cfg kind w (w.loadAt d' e' (.final r)) := by
  have hw : w.loadAt w.disk w.proc.dirEnsured (.goes pc) = w := by rw [World.loadAt, ← hl]
  rw [← hw]
  refine smooth_ends w.loadAt (fun d e pc d₁ e₁ t hn => .load ?_) h
  rw [World.load, World.loadAt]
  dsimp only
  rw [hn]
  cases t <;> rfl

/-- Where a reconciliation stands that has come to its load. -/
def World.attemptAt (w : World) (d : Disk) (e : Bool) : LoadTurn → World
  | .goes pc => { w with disk := d, proc := { w.proc with dirEnsured := e, reconciling := some (.loading pc) } }
  | .installs ix => { w with
      disk := d
      proc := { w.proc with dirEnsured := e, reconciling := some (.returned true), index := ix } }
  | .throws => { w with disk := d, proc := { w.proc with dirEnsured := e, reconciling := some (.returned false) } }

theorem smooth_attempt (cfg : Config) (kind : Nat → Kind) {pc : LoadPc} {d' : Disk} {r : Option Index} (hr : w.proc.reconciling = some (.loading pc))
    (h : Ends cfg w.disk w.proc.dirEnsured (.goes pc) d' r) : ∃ e', Smooth cfg kind w (w.attemptAt d' e' (.final r)) := by
  have hw : w.attemptAt w.disk w.proc.dirEnsured (.goes pc) = w := by rw [World.attemptAt, ← hr]
  rw [← hw]
  refine smooth_ends w.attemptAt (fun d e pc d₁ e₁ t hn => .attempt ?_) h
  rw [World.attempt, World.attemptAt]
  dsimp only
  rw [hn]
  cases t <;> rfl

/-- Where a reconciliation stands that is at its barrier. -/
def World.barrierAt (w : World) (d : Disk) : Durable.Turn → World
  | .goes s => { w with disk := d, proc := { w.proc with reconciling := some (.barrier s) } }
  | .throws => { w with disk := d, proc := { w.proc with reconciling := some (.returned false) } }
  | _ => { w with disk := d, proc := { w.proc with reconciling := some (.loading .mkdir) } }

theorem smooth_barrier (cfg : Config) (kind : Nat → Kind) {s : Session} {d' : Disk} {t : Durable.Turn} (hr : w.proc.reconciling = some (.barrier s))
    (h : Session.Plays w.disk s d' t) : Smooth cfg kind w (w.barrierAt d' t) := by
  have hstep : ∀ {d s d₁ t}, Session.next d s .done = (d₁, t) → Goes cfg kind (w.barrierAt d (.goes s)) (w.barrierAt d₁ t) := by
    intro d s d₁ t hn
    refine .attempt ?_
    rw [World.attempt, World.barrierAt]
    dsimp only
    rw [hn]
    cases t <;> rfl
  have hplays : ∀ {d s d₁ t}, Session.Plays d s d₁ t → Smooth cfg kind (w.barrierAt d (.goes s)) (w.barrierAt d₁ t) := by
    intro d s d₁ t h
    induction h with
    | last step stops => exact .single (hstep step)
    | goes step rest ih => exact .head (hstep step) ih
  have hw : w.barrierAt w.disk (.goes s) = w := by rw [World.barrierAt, ← hr]
  rw [← hw]
  exact hplays h

/-- The reconciliation is over, and its callers go on. -/
def World.attemptOver (w : World) (ok : Bool) : World :=
  { w with proc := { w.proc.wake (Pc.onAttempt ok) with
      stale := !ok, unbarriered := w.proc.unbarriered && !ok, reconciling := none } }

theorem smooth_returned (cfg : Config) (kind : Nat → Kind) {ok : Bool} (hr : w.proc.reconciling = some (.returned ok)) : Smooth cfg kind w (w.attemptOver ok) := by
  refine .single (.attempt ?_)
  rw [World.attempt, hr]
  cases ok with
  | true => simp [World.attemptOver]
  | false => simp [World.attemptOver, Proc.wake]

/-! ## A new read -/

theorem onLoad_idle {ok : Bool} {pc : Pc} (h : pc = .idle) : pc.onLoad ok = .idle := by
  rw [h]
  rfl

theorem onAttempt_idle {ok : Bool} {pc : Pc} (h : pc = .idle) : pc.onAttempt ok = .idle := by
  rw [h]
  rfl

/-- The load under way comes to its end, well or not. -/
theorem settle_load (cfg : Config) (kind : Nat → Kind) (w : World) : ∃ w', Smooth cfg kind w w' ∧ (∀ pc, w'.proc.loading ≠ .running pc) ∧
    ∀ i, w.proc.calls i = .idle → w'.proc.calls i = .idle := by
  cases hl : w.proc.loading with
  | none => exact ⟨w, .refl, by simp [hl], fun _ => id⟩
  | fulfilled => exact ⟨w, .refl, by simp [hl], fun _ => id⟩
  | running pc =>
    obtain ⟨d', r, h⟩ := exists_ends cfg w.disk w.proc.dirEnsured pc
    obtain ⟨e', hs⟩ := smooth_load cfg kind hl h
    refine ⟨_, hs, ?_, ?_⟩
    · cases r <;> simp [World.loadAt, LoadTurn.final]
    · cases r <;> exact fun i hi => onLoad_idle hi

/-- The reconciliation is over, and nothing else has changed for a call that is to come. -/
structure Quieted (w w' : World) : Prop where
  loading : w'.proc.loading = w.proc.loading
  none : w'.proc.reconciling = none
  idle : ∀ i, w.proc.calls i = .idle → w'.proc.calls i = .idle

theorem Quieted.after {w₁ : World} (h : Quieted w₁ w') (hl : w₁.proc.loading = w.proc.loading) (hc : w₁.proc.calls = w.proc.calls) :
    Quieted w w' := ⟨h.loading.trans hl, h.none, fun i hi => h.idle i (by rw [hc, hi])⟩

theorem settle_returned (cfg : Config) (kind : Nat → Kind) {ok : Bool} (hr : w.proc.reconciling = some (.returned ok)) : ∃ w', Smooth cfg kind w w' ∧ Quieted w w' :=
  ⟨_, smooth_returned cfg kind hr, rfl, rfl, fun _ => onAttempt_idle⟩

theorem settle_loading (cfg : Config) (kind : Nat → Kind) {pc : LoadPc} (hr : w.proc.reconciling = some (.loading pc)) :
    ∃ w', Smooth cfg kind w w' ∧ Quieted w w' := by
  obtain ⟨d', r, h⟩ := exists_ends cfg w.disk w.proc.dirEnsured pc
  obtain ⟨e', hs⟩ := smooth_attempt cfg kind hr h
  cases r with
  | some ix =>
    have hend : (w.attemptAt d' e' (.final (some ix))).proc.reconciling = some (.returned true) := rfl
    obtain ⟨w', hs', hq⟩ := settle_returned cfg kind hend
    exact ⟨w', hs.trans hs', hq.after rfl rfl⟩
  | none =>
    have hend : (w.attemptAt d' e' (.final none)).proc.reconciling = some (.returned false) := rfl
    obtain ⟨w', hs', hq⟩ := settle_returned cfg kind hend
    exact ⟨w', hs.trans hs', hq.after rfl rfl⟩

theorem settle_attempt (cfg : Config) (kind : Nat → Kind) (w : World) : ∃ w', Smooth cfg kind w w' ∧ Quieted w w' := by
  cases hr : w.proc.reconciling with
  | none => exact ⟨w, .refl, rfl, hr, fun _ => id⟩
  | some a =>
    cases a with
    | returned ok => exact settle_returned cfg kind hr
    | loading pc => exact settle_loading cfg kind hr
    | barrier s =>
      obtain ⟨d', t, h⟩ := Session.exists_plays w.disk s
      have hs := smooth_barrier cfg kind hr h
      have hend : ∃ w', Smooth cfg kind (w.barrierAt d' t) w' ∧ Quieted (w.barrierAt d' t) w' := by
        cases t with
        | throws => exact settle_returned cfg kind rfl
        | goes s' => exact absurd rfl (h.stops s')
        | returns => exact settle_loading cfg kind rfl
        | missing => exact settle_loading cfg kind rfl
      obtain ⟨w', hs', hq⟩ := hend
      refine ⟨w', hs.trans hs', hq.after ?_ ?_⟩
      · cases t <;> rfl
      · cases t <;> rfl

section
variable {i : Nat} {q : Query}

theorem smooth_enter (hk : kind i = .read q) (hi : w.proc.calls i = .idle) (hl : ∀ pc, w.proc.loading ≠ .running pc)
    (hr : w.proc.reconciling = none) {ix : Index} (hload : (load cfg w.disk.visible).result = .ok ix) :
    ∃ w', Smooth cfg kind w w' ∧ w'.proc.calls i = .loaded true ∧ w'.proc.reconciling = none := by
  have h₁ : Goes cfg kind w { w with proc := w.proc.goto i .entering } := .call i (by rw [World.call, hi, hk])
  have h₂ : Goes cfg kind { w with proc := w.proc.goto i .entering } (World.enter { w with proc := w.proc.goto i .entering } i) :=
    .call i (by rw [World.call, goto_self])
  have hs := (Relation.ReflTransGen.single h₁).tail h₂
  cases hl' : w.proc.loading with
  | running pc => exact absurd hl' (hl pc)
  | fulfilled =>
    refine ⟨_, hs, ?_, ?_⟩
    · simp [World.enter, Proc.goto, hl']
    · simpa [World.enter, Proc.goto, hl'] using hr
  | none =>
    have hwait : World.enter { w with proc := w.proc.goto i .entering } i =
        { w with proc := { (w.proc.goto i .entering).goto i .waiting with loading := .running .mkdir } } := by
      simp [World.enter, Proc.goto, hl']
    rw [hwait] at hs
    obtain ⟨d', -, hends⟩ := ends_load cfg w.disk w.proc.dirEnsured
    rw [hload] at hends
    have hrun : ({ w with proc := { (w.proc.goto i .entering).goto i .waiting with loading := .running .mkdir } } :
        World).proc.loading = .running .mkdir := rfl
    obtain ⟨e', hs'⟩ := smooth_load cfg kind hrun hends
    refine ⟨_, hs.trans hs', ?_, hr⟩
    change Pc.onLoad true (((w.proc.goto i .entering).goto i .waiting).calls i) = _
    rw [goto_self]
    rfl

/-- A reconciliation whose load succeeds lets those go on that wait for it. -/
theorem smooth_reload (hr : w.proc.reconciling = some (.loading .mkdir)) (hi : w.proc.calls i = .joining) {ix : Index}
    (hload : (load cfg w.disk.visible).result = .ok ix) : ∃ w', Smooth cfg kind w w' ∧ w'.proc.calls i = .current := by
  obtain ⟨d', -, hends⟩ := ends_load cfg w.disk w.proc.dirEnsured
  rw [hload] at hends
  obtain ⟨e', hs⟩ := smooth_attempt cfg kind hr hends
  have hend : (w.attemptAt d' e' (.final (some ix))).proc.reconciling = some (.returned true) := rfl
  have hs' := smooth_returned cfg kind hend
  have hjoined : ((w.attemptAt d' e' (.final (some ix))).attemptOver true).proc.calls i = .joined true := by
    change Pc.onAttempt true (w.proc.calls i) = _
    rw [hi]
    rfl
  generalize (w.attemptAt d' e' (.final (some ix))).attemptOver true = w₁ at hs' hjoined
  have hlast : Goes cfg kind w₁ { w₁ with proc := w₁.proc.goto i .current } := .call i (by rw [World.call, hjoined])
  exact ⟨_, (hs.trans hs').tail hlast, goto_self w₁.proc i _⟩

theorem smooth_consult (hi : w.proc.calls i = .loaded true) (hr : w.proc.reconciling = none)
    (hload : ∀ w', Smooth cfg kind w w' → ∃ ix, (load cfg w'.disk.visible).result = .ok ix) :
    ∃ w', Smooth cfg kind w w' ∧ w'.proc.calls i = .current := by
  have h₁ : Goes cfg kind w (w.consult i) := .call i (by rw [World.call, hi])
  by_cases hflags : (!w.proc.stale && !w.proc.unbarriered) = true
  · refine ⟨_, .single h₁, ?_⟩
    rw [World.consult, if_pos hflags]
    exact goto_self w.proc i _
  rw [World.consult, if_neg hflags, Proc.reconcile, show (w.proc.goto i .joining).reconciling = none from hr] at h₁
  dsimp only at h₁
  by_cases hu : w.proc.unbarriered = true
  · -- The barrier comes first; a file that is missing needs none.
    rw [show (w.proc.goto i .joining).unbarriered = true from hu, if_pos rfl] at h₁
    have hplays : ∃ d' t, t ≠ .throws ∧ Session.Plays w.disk (.opening .existing [.sync]) d' t := by
      by_cases hv : w.disk.visible.isSome = true
      · exact ⟨_, .returns, by simp, Session.plays_existing hv⟩
      · exact ⟨_, .missing, by simp, Session.plays_missing hv⟩
    obtain ⟨d', t, ht, hplays⟩ := hplays
    have hs := (Relation.ReflTransGen.single h₁).trans (smooth_barrier cfg kind rfl hplays)
    obtain ⟨ix, hix⟩ := hload _ hs
    cases t with
    | goes s' => exact absurd rfl (hplays.stops s')
    | throws => exact absurd rfl ht
    | returns =>
      obtain ⟨w', hs', hc⟩ := smooth_reload rfl (goto_self w.proc i _) hix
      exact ⟨w', hs.trans hs', hc⟩
    | missing =>
      obtain ⟨w', hs', hc⟩ := smooth_reload rfl (goto_self w.proc i _) hix
      exact ⟨w', hs.trans hs', hc⟩
  · rw [show (w.proc.goto i .joining).unbarriered = w.proc.unbarriered from rfl, if_neg hu] at h₁
    obtain ⟨ix, hix⟩ := hload _ (.single h₁)
    obtain ⟨w', hs', hc⟩ := smooth_reload rfl (goto_self w.proc i _) hix
    exact ⟨w', (Relation.ReflTransGen.single h₁).trans hs', hc⟩

end

/-- The append has failed to sync its record, and so has the barrier after it. -/
theorem exampleRun_failed : (follow exampleConfig exampleKind ([.call 0 .done, .call 0 .done] ++ List.replicate 9 (.load .done) ++
    List.replicate 4 (.call 0 .done) ++ [.call 0 (.fails 0), .call 0 .done, .call 0 (.fails 0)]) (.boot ⟨none, [], false⟩)).map
    (fun w => (w.proc.calls 0, w.proc.calls 1, w.proc.stale)) = some (.rejected, .idle, true) := rfl

end RegistrationBackend
