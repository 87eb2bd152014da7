import MnoVerify.Ledger

/-!
# The deadlines of the grant ledger

Every decision reads the clock once, through `observeClock`, and rests on the floor
that the durable mark then holds. `deadlines_hold`: floors never decrease, also across
a stop and a start, what a floor has expired stays expired for every later decision,
and a sweep offers each due row. Clock readings and marks stay within SQLite's 64-bit
integers, where its `CAST` and `MAX` are exact; only an opening with `resetClock`
lowers the mark.
-/

namespace Ledger

variable {R O : Type} {A : Adapter R O}

def Event.resets : Event R → Bool
  | .open_ o => o.resetClock
  | _ => false

def Event.stops : Event R → Bool
  | .stop => true
  | _ => false

/-- The process that is opening the file, or has it open, was not started with `resetClock`. -/
def World.keepsClock (w : World A) : Bool := match w.phase with
  | .opening o _ => !o.resetClock
  | _ => true

/-- The floor that the event's decision rests on, when it makes one. -/
def World.decided (w : World A) : Event R → Option Int
  | .next now => match w.phase with
    | .opening o .startClock => if o.resetClock then none else some (w.db.observeClock now).2
    | _ => none
  | .grant userId _ now => if w.free userId then some (w.db.observeClock now).2 else none
  | .sweep now => if w.running then some (w.db.observeClock now).2 else none
  | .sweepNext i now => match w.sweeps[i]? with
    | some (userId :: _) =>
      if w.free userId ∧ (w.db.row userId).isSome then some (w.db.observeClock now).2 else none
    | _ => none
  | .admitIfLive userId now _ => if w.free userId then some (w.db.observeClock now).2 else none
  | .live _ now => if w.running then some (w.db.observeClock now).2 else none
  | _ => none

/-! ## The mark -/

/-- The mark after a reading is the floor of the decision. -/
theorem clockMark_observeClock (db : Database A) (t : Int) :
    (db.observeClock t).1.clockMark = some (db.observeClock t).2 := by
  unfold Database.observeClock
  cases h : db.clockMark with
  | none => simp only [Database.raiseMark, h]
  | some mark =>
    dsimp only
    split
    · rename_i hlt
      simp only [Database.raiseMark, h, max_eq_right hlt.le]
    · rename_i hlt
      simp only [max_eq_right (not_lt.1 hlt)]

theorem mark_le_floor {db : Database A} {m : Int} (h : db.clockMark = some m) (t : Int) : m ≤ (db.observeClock t).2 := by
  unfold Database.observeClock
  rw [h]
  dsimp only
  split <;> omega

theorem clockMark_del (db : Database A) (u : String) (rev : Nat) : (db.del u rev).clockMark = db.clockMark := by
  unfold Database.del
  split <;> rfl

theorem clockMark_advance (db : Database A) (u : String) (op : Op R O) (s : Stmt) :
    (advance db u op s).1.clockMark = db.clockMark := by
  unfold advance
  split <;> first | rfl | exact clockMark_del _ _ _

theorem clockMark_refuseForeignScope {db db' : Database A} {o : Opening R} (h : db.refuseForeignScope o = some db') :
    db'.clockMark = db.clockMark := by
  unfold Database.refuseForeignScope at h
  split at h
  · split at h
    · cases h; rfl
    split at h
    · cases h; rfl
    split at h
    · cases h; rfl
    · cases h
  · cases h; rfl

theorem clockMark_bindScope {db db' : Database A} {o : Opening R} (h : db.bindScope o = some db') :
    db'.clockMark = db.clockMark := by
  unfold Database.bindScope at h
  split at h
  · split at h
    · cases h; rfl
    split at h
    · cases h; rfl
    · cases h
  · cases h; rfl

theorem clockMark_importRows {l : List (String × Option R)} : ∀ {db db' : Database A}, db.importRows l = some db' →
    db'.clockMark = db.clockMark := by
  induction l with
  | nil => rintro db _ ⟨⟩; rfl
  | cons p l ih =>
    intro db db' h
    obtain ⟨u, _ | r⟩ := p
    · cases h
    · have hih := ih h
      exact hih

theorem clockMark_retireAll (db : Database A) (transform : R → String → Retired R) :
    (db.retireAll transform).clockMark = db.clockMark := by
  unfold Database.retireAll
  split <;> rfl

/-- The durable mark is at least `f`. -/
def Database.Marked (f : Int) (db : Database A) : Prop := ∃ m, db.clockMark = some m ∧ f ≤ m

theorem Database.Marked.of_eq {f : Int} {db db' : Database A} (h : db.Marked f) (he : db'.clockMark = db.clockMark) :
    db'.Marked f := by
  rw [Marked, he]; exact h

theorem Database.Marked.le_floor {f : Int} {db : Database A} (h : db.Marked f) (now : Int) :
    f ≤ (db.observeClock now).2 := by
  obtain ⟨m, hm, hle⟩ := h
  exact hle.trans (mark_le_floor hm now)

theorem Database.Marked.cast_le_floor {f : Int} {db : Database A} (h : db.Marked f) (now : Int) :
    (f : ℚ) ≤ ((db.observeClock now).2 : Int) := by exact_mod_cast h.le_floor now

theorem Database.Marked.observeClock {f : Int} {db : Database A} (h : db.Marked f) (now : Int) :
    (db.observeClock now).1.Marked f := ⟨_, clockMark_observeClock db now, h.le_floor now⟩

theorem marked_floor (db : Database A) (now : Int) : (db.observeClock now).1.Marked (db.observeClock now).2 :=
  ⟨_, clockMark_observeClock db now, le_rfl⟩

theorem Database.Marked.raiseMark {f : Int} {db : Database A} (h : db.Marked f) (t : Int) : (db.raiseMark t).Marked f := by
  obtain ⟨m, hm, hle⟩ := h
  exact ⟨max m t, by simp only [Database.raiseMark, hm], le_max_of_le_left hle⟩

theorem Database.Marked.importLegacy {f : Int} {db : Database A} (h : db.Marked f) (o : Opening R) :
    (db.importLegacy o).1.Marked f := by
  unfold Database.importLegacy
  split
  · exact h
  split
  · exact h
  split
  · exact h
  rename_i grants clockMark clockRegressed _
  cases himp : db.importRows grants with
  | none => exact h
  | some db₁ =>
    have h₁ : db₁.Marked f := h.of_eq (clockMark_importRows himp)
    cases clockMark with
    | none => exact h₁
    | some mark => exact h₁.raiseMark mark

theorem Database.Marked.startClock {f : Int} {db : Database A} (h : db.Marked f) {o : Opening R}
    (ho : o.resetClock = false) (now : Int) : (db.startClock o now).Marked f := by
  simp only [Database.startClock, ho]
  exact h.observeClock now

/-! ## What an operation gives -/

/-- What the operation goes on to give expires after `f`. -/
def OpAbove (A : Adapter R O) (f : Int) : Op R O → Prop
  | .putting _ _ (.migrate record _ _) => (f : ℚ) < A.expiresAt record
  | .putting _ _ .restored => True
  | .putting record _ (.apply _) => (f : ℚ) < A.expiresAt record
  | .migrating record _ _ _ => (f : ℚ) < A.expiresAt record
  | .applying record _ _ => (f : ℚ) < A.expiresAt record
  | .revoking _ _ => True
  | .deleting _ => True
  | .admitting record => (f : ℚ) < A.expiresAt record

def Above (A : Adapter R O) (f : Int) (o : Option (Op R O)) : Prop := ∀ op, o = some op → OpAbove A f op

theorem above_none (f : Int) : Above A f none := nofun

theorem above_some {f : Int} {op : Op R O} (h : OpAbove A f op) : Above A f (some op) := fun op' e => by cases e; exact h

/-- The record whose targets the operation's call in flight gives. -/
def Op.gives : Op R O → Option R
  | .applying record _ _ => some record
  | .admitting record => some record
  | _ => none

theorem Above.gives {f : Int} {o : Option (Op R O)} (h : Above A f o) {record : R}
    (hg : o.bind Op.gives = some record) : (f : ℚ) < A.expiresAt record := by
  cases o with
  | none => cases hg
  | some op =>
    have ho := h op rfl
    cases op <;> cases hg <;> exact ho

theorem above_startGrant {f : Int} {record : R} (h : (f : ℚ) < A.expiresAt record) (prev : Option (Row A)) :
    OpAbove A f (startGrant A prev record) := by
  cases prev with
  | none => exact h
  | some prev =>
    dsimp only [startGrant]
    cases A.orphaned prev.record record with
    | none => exact h
    | some orphan =>
      dsimp only
      cases A.covering record orphan with
      | none => exact h
      | some cover => exact h

theorem above_settle {f : Int} {op : Op R O} (h : OpAbove A f op) (outcome : Outcome) : Above A f (settle A op outcome) := by
  unfold settle
  split
  · exact above_some h
  · split
    · exact above_some trivial
    · exact above_none f
  · exact above_none f
  · split
    · exact above_none f
    split
    · exact above_some trivial
    split
    · exact above_none f
    · exact above_some trivial
  · exact above_some trivial
  · exact above_none f
  · exact above_none f
  · exact above_some h

theorem above_advance {f : Int} {op : Op R O} (h : OpAbove A f op) (db : Database A) (u : String) (s : Stmt) :
    Above A f (advance db u op s).2 := by
  unfold advance
  split
  · rename_i record after
    cases after <;> exact above_some h
  · rename_i record rev after
    cases after with
    | migrate => exact above_some h
    | restored => exact above_none f
    | apply => exact above_some h
  · exact above_none f
  · exact above_none f
  · exact above_settle h _
  · exact above_some h

/-! ## Steps -/

theorem above_setOp {f : Int} {w : World A} {u : String} (h : Above A f (w.op u)) {u' : String} {op : Op R O}
    (ho : u = u' → OpAbove A f op) : Above A f ((w.setOp u' op).op u) := by
  by_cases hu : u = u'
  · rw [← hu, op_setOp_self]
    exact above_some (ho hu)
  · rw [op_setOp_of_ne hu]
    exact h

theorem above_done {f : Int} {w : World A} {u : String} (h : Above A f (w.op u)) (u' : String) :
    Above A f ((w.done u').op u) := by
  by_cases hu : u = u'
  · rw [← hu, op_done_self]
    exact above_none f
  · rw [op_done_of_ne hu]
    exact h

/-- The mark holds `f`, and no opening under way resets it. -/
def Floored (f : Int) (w : World A) : Prop := w.db.Marked f ∧ w.keepsClock = true

theorem Floored.openStage {f : Int} {w : World A} (h : w.db.Marked f) {o : Opening R} (ho : o.resetClock = false)
    (now : Int) (stage : Stage) : Floored f (w.openStage o now stage) := by
  have keeps : (!o.resetClock) = true := by rw [ho]; rfl
  cases stage with
  | seedRevSeq => exact ⟨h, keeps⟩
  | refuseForeignScope =>
    dsimp only [World.openStage]
    cases hr : w.db.refuseForeignScope o with
    | none => exact ⟨h, rfl⟩
    | some db => exact ⟨h.of_eq (clockMark_refuseForeignScope hr), keeps⟩
  | importLegacy =>
    have hi := h.importLegacy o
    dsimp only [World.openStage]
    revert hi
    rcases w.db.importLegacy o with ⟨db, _ | _⟩
    · exact fun hi => ⟨hi, rfl⟩
    · exact fun hi => ⟨hi, keeps⟩
  | bindScope =>
    dsimp only [World.openStage]
    cases hb : w.db.bindScope o with
    | none => exact ⟨h, rfl⟩
    | some db => exact ⟨h.of_eq (clockMark_bindScope hb), keeps⟩
  | startClock => exact ⟨h.startClock ho now, rfl⟩

theorem Floored.of_phase {f : Int} {w w' : World A} (h : Floored f w) (hm : w'.db.Marked f) (hp : w'.phase = w.phase) :
    Floored f w' := ⟨hm, by rw [World.keepsClock, hp]; exact h.2⟩

theorem Floored.step {f : Int} {w : World A} {e : Event R} (h : Floored f w) (he : e.resets = false) :
    Floored f (step w e) := by
  have hm := h.1
  cases e with
  | open_ o =>
    dsimp only [Ledger.step]
    split
    · exact ⟨hm, by simpa [World.keepsClock, Event.resets] using he⟩
    · exact h
  | next now =>
    dsimp only [Ledger.step]
    split
    · rename_i o stage hp
      have hk := h.2
      exact Floored.openStage hm (by simpa [World.keepsClock, hp] using hk) now stage
    · exact h
  | stop => exact ⟨hm, rfl⟩
  | grant u record now =>
    dsimp only [Ledger.step]
    split
    · exact h.of_phase (by rw [db_grant]; exact hm.observeClock now) (frame_grant w u record now).1
    · exact h
  | sweep now =>
    dsimp only [Ledger.step]
    split
    · exact h.of_phase (hm.observeClock now) rfl
    · exact h
  | sweepNext i now =>
    dsimp only [Ledger.step]
    split
    · rename_i u rest _
      split
      · refine h.of_phase ?_ (frame_sweepOne { w with sweeps := w.sweeps.set i rest } u now).1
        cases hrow : w.db.row u with
        | none => rw [World.sweepOne, show ({ w with sweeps := w.sweeps.set i rest } : World A).db.row u = none from hrow]; exact hm
        | some row =>
          rw [db_sweepOne (w := { w with sweeps := w.sweeps.set i rest }) now (by rw [hrow]; rfl)]
          exact hm.observeClock now
      · exact h
    · exact h
  | admitIfLive u now m =>
    dsimp only [Ledger.step]
    split
    · exact h.of_phase (by rw [db_admitIfLive]; exact hm.observeClock now) (frame_admitIfLive w u now m).1
    · exact h
  | live u now =>
    dsimp only [Ledger.step]
    split
    · exact h.of_phase (hm.observeClock now) rfl
    · exact h
  | chain u s =>
    refine h.of_phase ?_ (frame_chain w u s).1
    rcases db_chain w u s with hdb | ⟨op, -, hdb⟩
    · rw [Ledger.step, hdb]; exact hm
    · rw [Ledger.step, hdb]; exact hm.of_eq (clockMark_advance w.db u op s)
  | retireAll transform =>
    dsimp only [Ledger.step]
    split
    · exact h.of_phase (hm.of_eq (clockMark_retireAll w.db transform)) rfl
    · exact h

theorem Floored.run {f : Int} {es : List (Event R)} : ∀ {w : World A}, Floored f w → (∀ e ∈ es, e.resets = false) →
    Floored f (run w es) := by
  induction es with
  | nil => exact fun h _ => h
  | cons e es ih => exact fun h hes => ih (h.step (hes e (by simp))) fun e' he' => hes e' (by simp [he'])

/-- A decision rests on a reading of the clock. -/
theorem decided_eq_floor {w : World A} {e : Event R} {f : Int} (h : w.decided e = some f) :
    ∃ now, f = (w.db.observeClock now).2 := by
  unfold World.decided at h
  split at h
  · split at h
    · split at h
      · cases h
      · cases h; exact ⟨_, rfl⟩
    · cases h
  · split at h
    · cases h; exact ⟨_, rfl⟩
    · cases h
  · split at h
    · cases h; exact ⟨_, rfl⟩
    · cases h
  · split at h
    · split at h
      · cases h; exact ⟨_, rfl⟩
      · cases h
    · cases h
  · split at h
    · cases h; exact ⟨_, rfl⟩
    · cases h
  · split at h
    · cases h; exact ⟨_, rfl⟩
    · cases h
  · cases h

theorem floored_of_running {f : Int} {w w' : World A} (hr : w.running = true) (hp : w'.phase = w.phase)
    (hm : w'.db.Marked f) : Floored f w' := by
  refine ⟨hm, ?_⟩
  unfold World.running at hr
  rw [World.keepsClock, hp]
  split at hr
  · rename_i o hw; rw [hw]
  · cases hr

theorem floored_of_decided {w : World A} {e : Event R} {f : Int} (h : w.decided e = some f) : Floored f (step w e) := by
  have hfloor (now : Int) := marked_floor w.db now
  cases e with
  | next now =>
    dsimp only [World.decided] at h
    split at h
    · rename_i o hp
      split at h
      · cases h
      · rename_i ho
        cases h
        simp only [step, hp, World.openStage, Database.startClock, ho]
        exact ⟨hfloor now, rfl⟩
    · cases h
  | grant u record now =>
    dsimp only [World.decided] at h
    split at h
    · rename_i hf
      cases h
      rw [step, if_pos hf]
      exact floored_of_running (running_of_free hf) (frame_grant w u record now).1 (by rw [db_grant]; exact hfloor now)
    · cases h
  | sweep now =>
    dsimp only [World.decided] at h
    split at h
    · rename_i hr
      cases h
      rw [step, if_pos hr]
      exact floored_of_running hr rfl (hfloor now)
    · cases h
  | sweepNext i now =>
    dsimp only [World.decided] at h
    split at h
    · rename_i u rest hs
      split at h
      · rename_i hf
        cases h
        simp only [step, hs]
        rw [if_pos hf.1]
        refine floored_of_running (running_of_free hf.1) (frame_sweepOne { w with sweeps := w.sweeps.set i rest } u now).1 ?_
        rw [db_sweepOne (w := { w with sweeps := w.sweeps.set i rest }) now hf.2]
        exact hfloor now
      · cases h
    · cases h
  | admitIfLive u now m =>
    dsimp only [World.decided] at h
    split at h
    · rename_i hf
      cases h
      rw [step, if_pos hf]
      exact floored_of_running (running_of_free hf) (frame_admitIfLive w u now m).1
        (by rw [db_admitIfLive]; exact hfloor now)
    · cases h
  | live u now =>
    dsimp only [World.decided] at h
    split at h
    · rename_i hr
      cases h
      rw [step, if_pos hr]
      exact floored_of_running hr rfl (hfloor now)
    · cases h
  | _ => cases h

/-! ## A member's operation along a run -/

theorem above_grant {f : Int} {w : World A} {u : String} (hm : w.db.Marked f) (h : Above A f (w.op u)) (u' : String)
    (record : R) (now : Int) : Above A f ((w.grant u' record now).op u) := by
  unfold World.grant
  dsimp only
  split
  · exact h
  · rename_i hexp
    exact above_setOp h fun _ => above_startGrant ((hm.cast_le_floor now).trans_lt (not_le.1 hexp)) _

theorem above_sweepOne {f : Int} {w : World A} {u : String} (h : Above A f (w.op u)) (u' : String) (now : Int) :
    Above A f ((w.sweepOne u' now).op u) := by
  unfold World.sweepOne
  cases w.db.row u' with
  | none => exact h
  | some row =>
    dsimp only
    split
    · exact h
    · exact above_setOp h fun _ => trivial

theorem above_admitIfLive {f : Int} {w : World A} {u : String} (hm : w.db.Marked f) (h : Above A f (w.op u))
    (u' : String) (now : Int) (matches_ : Bool) : Above A f ((w.admitIfLive u' now matches_).op u) := by
  unfold World.admitIfLive
  dsimp only
  cases (w.db.observeClock now).1.row u' with
  | none => exact h
  | some row =>
    dsimp only
    split
    · exact h
    rename_i hexp
    split
    · exact h
    · exact above_setOp h fun _ => (hm.cast_le_floor now).trans_lt (not_le.1 hexp)

theorem above_chain {f : Int} {w : World A} {u : String} (h : Above A f (w.op u)) (u' : String) (s : Stmt) :
    Above A f ((w.chain u' s).op u) := by
  unfold World.chain
  cases hop : w.op u' with
  | none => exact h
  | some op =>
    have hadv : u = u' → Above A f (advance w.db u' op s).2 := fun e => above_advance (h op (e ▸ hop)) w.db u' s
    dsimp only
    revert hadv
    rcases advance w.db u' op s with ⟨db, _ | op'⟩
    · exact fun _ => above_done (w := w.setDb db) h u'
    · exact fun hadv => above_setOp (w := w.setDb db) h fun e => hadv e op' rfl

theorem op_openStage (w : World A) (o : Opening R) (now : Int) (stage : Stage) (u : String) :
    (w.openStage o now stage).op u = w.op u ∨ (w.openStage o now stage).op u = none := by
  cases stage with
  | seedRevSeq => exact .inl rfl
  | refuseForeignScope =>
    dsimp only [World.openStage]
    cases w.db.refuseForeignScope o with
    | none => exact .inr rfl
    | some db => exact .inl rfl
  | importLegacy =>
    dsimp only [World.openStage]
    rcases w.db.importLegacy o with ⟨db, _ | _⟩
    · exact .inr rfl
    · exact .inl rfl
  | bindScope =>
    dsimp only [World.openStage]
    cases w.db.bindScope o with
    | none => exact .inr rfl
    | some db => exact .inl rfl
  | startClock => exact .inl rfl

theorem above_step {f : Int} {w : World A} {u : String} (hm : w.db.Marked f) (h : Above A f (w.op u)) (e : Event R) :
    Above A f ((step w e).op u) := by
  cases e with
  | open_ o => dsimp only [step]; split <;> exact h
  | next now =>
    dsimp only [step]
    split
    · rename_i o stage _
      rcases op_openStage w o now stage u with ho | ho
      · rw [ho]; exact h
      · rw [ho]; exact above_none f
    · exact h
  | stop => exact above_none f
  | grant u' record now => dsimp only [step]; split <;> first | exact above_grant hm h u' record now | exact h
  | sweep now => dsimp only [step]; split <;> exact h
  | sweepNext i now =>
    dsimp only [step]
    split
    · rename_i u' rest _
      split
      · exact above_sweepOne (w := { w with sweeps := w.sweeps.set i rest }) h u' now
      · exact h
    · exact h
  | admitIfLive u' now m => dsimp only [step]; split <;> first | exact above_admitIfLive hm h u' now m | exact h
  | live u' now => dsimp only [step]; split <;> exact h
  | chain u' s => exact above_chain h u' s
  | retireAll transform => dsimp only [step]; split <;> exact h

/-- A chain that was free after the decision only carries operations for later deadlines. -/
theorem above_run {f : Int} {u : String} {es : List (Event R)} : ∀ {w : World A}, Floored f w →
    Above A f (w.op u) → (∀ e ∈ es, e.resets = false) → Above A f ((run w es).op u) := by
  induction es with
  | nil => exact fun _ h _ => h
  | cons e es ih =>
    exact fun hm h hes => ih (hm.step (hes e (by simp))) (above_step hm.1 h e) fun e' he' => hes e' (by simp [he'])

/-! ## The due list of a sweep -/

theorem mem_due {db : Database A} {u : String} {row : Row A} {floor : Int} (hrow : db.row u = some row)
    (hexp : A.expiresAt row.record ≤ (floor : ℚ)) : u ∈ db.due floor := by
  rw [Database.due, List.mem_mergeSort, List.mem_map]
  have hcol : row.column ≤ (floor : ℚ) := row.column_le.trans hexp
  exact ⟨(u, row), List.mem_filter.2 ⟨Assoc.mem_of_lookup hrow, decide_eq_true hcol⟩, rfl⟩

/-- While the process runs, only the sweep itself changes what is left of its due list. -/
theorem sweeps_step {w : World A} {e : Event R} (hr : w.running = true) (hs : e.stops = false) {i : Nat}
    {due : List String} (h : w.sweeps[i]? = some due) : (step w e).running = true ∧
      ((step w e).sweeps[i]? = some due ∨ ∃ u rest now, due = u :: rest ∧ e = .sweepNext i now ∧ w.free u = true ∧
        (step w e).sweeps[i]? = some rest) := by
  have same {w' : World A} (hw : Frame w w') : w'.running = true ∧ w'.sweeps[i]? = some due :=
    ⟨running_of_frame hw hr, by rw [hw.2]; exact h⟩
  have hi : i < w.sweeps.length := (List.getElem?_eq_some_iff.1 h).1
  cases e with
  | open_ o =>
    dsimp only [step]
    split
    · rename_i hp; rw [World.running, hp] at hr; cases hr
    · exact ⟨hr, .inl h⟩
  | next now =>
    dsimp only [step]
    split
    · rename_i hp; rw [World.running, hp] at hr; cases hr
    · exact ⟨hr, .inl h⟩
  | stop => cases hs
  | grant u record now =>
    dsimp only [step]
    split
    · exact (same (frame_grant w u record now)).imp_right .inl
    · exact ⟨hr, .inl h⟩
  | sweep now =>
    rw [step, if_pos hr]
    exact ⟨hr, .inl ((List.getElem?_append_left hi).trans h)⟩
  | sweepNext j now =>
    by_cases hj : j = i
    · subst hj
      dsimp only [step]
      rw [h]
      cases due with
      | nil => exact ⟨hr, .inl h⟩
      | cons u rest =>
        dsimp only
        by_cases hf : w.free u = true
        · rw [if_pos hf]
          have hfr := frame_sweepOne { w with sweeps := w.sweeps.set j rest } u now
          refine ⟨running_of_frame hfr hr, .inr ⟨u, rest, now, rfl, rfl, hf, ?_⟩⟩
          rw [hfr.2]
          exact List.getElem?_set_self hi
        · rw [if_neg hf]; exact ⟨hr, .inl h⟩
    · dsimp only [step]
      split
      · rename_i u rest _
        split
        · have hfr := frame_sweepOne { w with sweeps := w.sweeps.set j rest } u now
          refine ⟨running_of_frame hfr hr, .inl ?_⟩
          rw [hfr.2]
          exact (List.getElem?_set_ne hj).trans h
        · exact ⟨hr, .inl h⟩
      · exact ⟨hr, .inl h⟩
  | admitIfLive u now m =>
    dsimp only [step]
    split
    · exact (same (frame_admitIfLive w u now m)).imp_right .inl
    · exact ⟨hr, .inl h⟩
  | live u now => rw [step, if_pos hr]; exact ⟨hr, .inl h⟩
  | chain u s => exact (same (frame_chain w u s)).imp_right .inl
  | retireAll transform => rw [step, if_pos hr]; exact ⟨hr, .inl h⟩

/-- A lapsed row that a sweep reaches goes to `revoke`. -/
theorem op_sweepNext {f : Int} {w : World A} (hm : w.db.Marked f) {i : Nat} {u : String} {rest : List String}
    (hs : w.sweeps[i]? = some (u :: rest)) (hf : w.free u = true) {row : Row A} (hrow : w.db.row u = some row)
    (hexp : A.expiresAt row.record ≤ (f : ℚ)) (now : Int) :
    (step w (.sweepNext i now)).op u = some (.revoking row.record row.rev) := by
  have hle : ¬ ((w.db.observeClock now).2 : ℚ) < A.expiresAt row.record :=
    not_lt.2 (hexp.trans (hm.cast_le_floor now))
  simp only [step, hs, hf, if_true, World.sweepOne, hrow, hle, if_false, op_setOp_self]

/-- A sweep sends to `revoke` only the row it read, when that has lapsed at the floor observed in the member's chain. -/
theorem revoking_sweepNext {w : World A} {i : Nat} {now : Int} {u : String} {record : R} {rev : Nat}
    (h : (step w (.sweepNext i now)).op u = some (.revoking record rev)) (hne : w.op u ≠ some (.revoking record rev)) :
    ∃ row, w.db.row u = some row ∧ row.record = record ∧ row.rev = rev ∧
      A.expiresAt record ≤ ((w.db.observeClock now).2 : Int) := by
  dsimp only [step] at h
  split at h
  rotate_left
  · exact absurd h hne
  split at h
  rotate_left
  · exact absurd h hne
  rename_i u' rest _ _
  unfold World.sweepOne at h
  dsimp only at h
  cases hrow : w.db.row u' with
  | none => rw [hrow] at h; exact absurd h hne
  | some row =>
    rw [hrow] at h
    dsimp only at h
    split at h
    · exact absurd h hne
    rename_i hlt
    by_cases hu : u = u'
    · subst hu
      rw [op_setOp_self] at h
      cases h
      exact ⟨row, hrow, rfl, rfl, not_lt.1 hlt⟩
    · rw [op_setOp_of_ne hu] at h
      exact absurd h hne

/-- Sweep `i` reaches the member, and the row goes to `revoke` unless it was replaced. -/
def Offered (i : Nat) (userId : String) (row : Row A) (w : World A) (e : Event R) : Prop :=
  ∃ now rest, e = .sweepNext i now ∧ w.sweeps[i]? = some (userId :: rest) ∧ w.free userId = true ∧
    (w.db.row userId = some row → (step w e).op userId = some (.revoking row.record row.rev))

/-- Until the process stops, a due member is on the list or has been reached. -/
theorem due_or_offered {f : Int} {i : Nat} {u : String} {row : Row A} (hexp : A.expiresAt row.record ≤ (f : ℚ))
    {es : List (Event R)} : ∀ {w : World A} {due : List String}, Floored f w → w.running = true →
    w.sweeps[i]? = some due → u ∈ due → (∀ e ∈ es, e.resets = false ∧ e.stops = false) →
    (∃ rest, (run w es).sweeps[i]? = some rest ∧ u ∈ rest) ∨
      ∃ pre e post, es = pre ++ e :: post ∧ Offered i u row (run w pre) e := by
  induction es with
  | nil => exact fun _ _ hs hu _ => .inl ⟨_, hs, hu⟩
  | cons e es ih =>
    intro w due hm hr hs hu hes
    obtain ⟨hreset, hst⟩ := hes e (by simp)
    have hes' : ∀ e' ∈ es, e'.resets = false ∧ e'.stops = false := fun e' he' => hes e' (by simp [he'])
    obtain ⟨hr', hstep⟩ := sweeps_step hr hst hs
    -- one event more in front of a later offer
    have later {due' : List String} (hs' : (step w e).sweeps[i]? = some due') (hu' : u ∈ due') := by
      have hih := ih (hm.step hreset) hr' hs' hu' hes'
      exact hih.imp_right fun ⟨pre, e', post, heq, ho⟩ => (⟨e :: pre, e', post, by rw [heq]; rfl, ho⟩ :
        ∃ pre e' post, e :: es = pre ++ e' :: post ∧ Offered i u row (run w pre) e')
    rcases hstep with h | ⟨u', rest, now, rfl, rfl, hf, h⟩
    · exact later h hu
    · rcases List.mem_cons.1 hu with rfl | hu
      · exact .inr ⟨[], _, es, rfl, now, rest, rfl, hs, hf, fun hrow => op_sweepNext hm.1 hs hf hrow hexp now⟩
      · exact later h hu

/-! ## Runs -/

theorem live_of_marked {f : Int} {db : Database A} (hm : db.Marked f) {u : String} {now : Int}
    (h : (db.live u now).2 = true) : ∃ row, db.row u = some row ∧ (f : ℚ) < A.expiresAt row.record := by
  simp only [Database.live, row_observeClock] at h
  cases hrow : db.row u with
  | none => rw [hrow] at h; cases h
  | some row =>
    rw [hrow] at h
    exact ⟨row, rfl, (hm.cast_le_floor now).trans_lt (of_decide_eq_true h)⟩

theorem decided_sweep {w : World A} {now f : Int} (h : w.decided (.sweep now) = some f) :
    w.running = true ∧ f = (w.db.observeClock now).2 := by
  dsimp only [World.decided] at h
  split at h
  · rename_i hr; cases h; exact ⟨hr, rfl⟩
  · cases h

theorem decided_sweepNext {w : World A} {i : Nat} {now f : Int} (h : w.decided (.sweepNext i now) = some f) :
    f = (w.db.observeClock now).2 := by
  dsimp only [World.decided] at h
  split at h
  · split at h
    · cases h; rfl
    · cases h
  · cases h

/-- A decision of `e` at floor `f`, and any run after it: the durable mark holds the floor, later floors are no
lower, and nothing that had expired at `f` is live, granted or admitted again. A sweep offers each due row,
and sends to `revoke` only lapsed ones. -/
theorem deadlines_hold {w w₁ : World A} {e : Event R} {f : Int} {es : List (Event R)} (hd : w.decided e = some f)
    (hes : ∀ e' ∈ es, e'.resets = false) (h₁ : run (step w e) es = w₁) :
    (∃ m, (step w e).db.clockMark = some m ∧ f ≤ m) ∧
    (∀ e' f', w₁.decided e' = some f' → f ≤ f') ∧
    (∀ u now, (w₁.db.live u now).2 = true → ∃ row, w₁.db.row u = some row ∧ (f : ℚ) < A.expiresAt row.record) ∧
    (∀ u, w₁.op u = none → ∀ es' w₂, (∀ e' ∈ es', e'.resets = false) → run w₁ es' = w₂ →
      ∀ record, (w₂.op u).bind Op.gives = some record → (f : ℚ) < A.expiresAt record) ∧
    (∀ now, e = .sweep now → (∀ e' ∈ es, e'.stops = false) → ∀ u row, w.db.row u = some row →
      A.expiresAt row.record ≤ (f : ℚ) → (∃ rest, w₁.sweeps[w.sweeps.length]? = some rest ∧ u ∈ rest) ∨
      ∃ pre e' post, es = pre ++ e' :: post ∧ Offered w.sweeps.length u row (run (step w e) pre) e') ∧
    (∀ i now, e = .sweepNext i now → ∀ u record rev, (step w e).op u = some (.revoking record rev) →
      w.op u ≠ some (.revoking record rev) →
      ∃ row, w.db.row u = some row ∧ row.record = record ∧ row.rev = rev ∧ A.expiresAt record ≤ (f : ℚ)) := by
  have hm : Floored f (step w e) := floored_of_decided hd
  have hm₁ : Floored f w₁ := h₁ ▸ hm.run hes
  refine ⟨hm.1, fun e' f' hd' => ?_, fun u now h => live_of_marked hm₁.1 h, ?_, ?_, ?_⟩
  · obtain ⟨now, rfl⟩ := decided_eq_floor hd'
    exact hm₁.1.le_floor now
  · intro u hop es' w₂ hes' h₂ record hg
    have hab : Above A f (w₂.op u) := h₂ ▸ above_run hm₁ (by rw [hop]; exact above_none f) hes'
    exact hab.gives hg
  · rintro now rfl hst u row hrow hexp
    subst h₁
    obtain ⟨hr, rfl⟩ := decided_sweep hd
    have hdue : (step w (.sweep now)).sweeps[w.sweeps.length]? =
        some ((w.db.observeClock now).1.due (w.db.observeClock now).2) := by
      rw [step, if_pos hr, List.getElem?_concat_length]
    have hr' : (step w (.sweep now)).running = true := by rw [step, if_pos hr]; exact hr
    have hrow' : (w.db.observeClock now).1.row u = some row := by rw [row_observeClock]; exact hrow
    exact due_or_offered hexp hm hr' hdue (mem_due hrow' hexp) fun e' he' => ⟨hes e' he', hst e' he'⟩
  · rintro i now rfl u record rev h hne
    rw [decided_sweepNext hd]
    exact revoking_sweepNext h hne

/-- A grant lapses at 100; the clock has read 120, the process restarts, and the clock reads 90. -/
theorem deadlines_after_restart :
    (((run (World.fresh (A := deadlineOnly)) (opened .plain 0 ++ granted "m" 100 0 ++ .live "m" 120 :: .stop ::
      opened .plain 90)).db.live "m" 90).2 = false) := by
  have h := @deadlines_hold _ _ deadlineOnly (run .fresh (opened .plain 0 ++ granted "m" 100 0)) _ (.live "m" 120) 120
    (.stop :: opened .plain 90) (by decide +kernel) (by decide) rfl
  refine Bool.eq_false_iff.2 fun hl => ?_
  obtain ⟨row, hrow, hexp⟩ := h.2.2.1 "m" 90 hl
  have hrec : (((run (World.fresh (A := deadlineOnly)) (opened .plain 0 ++ granted "m" 100 0 ++ .live "m" 120 :: .stop ::
      opened .plain 90)).db.row "m").map fun row => row.record) = some 100 := by decide +kernel
  have hrow' : row.record = 100 := Option.some.inj ((congrArg (Option.map Row.record) hrow).symm.trans hrec)
  have hexp : ((120 : Int) : ℚ) < row.record := hexp
  rw [hrow'] at hexp
  exact absurd hexp (by decide +kernel)

end Ledger
