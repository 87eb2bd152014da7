import MnoVerify.Ledger

/-!
# What a bound ledger holds

Each row is traced to the grant that wrote it, the import that brought it in, or the
opening that adopted it. `bound_rows`: in a database bound to a scope every row was
granted by a process of that scope, adopted for it by name, or granted there by a
process that the guard lets past; a binding changes only while there is no row.
`bound_rows_unvouched` is a run that ends with a row nobody vouched for, `importRun`
one that a legacy import brings to a database bound already.
-/

namespace Ledger

variable {R O : Type} {A : Adapter R O}

/-! ## Where a row comes from -/

/-- Who wrote a row. `bound` is the scope the database was bound to at the time. -/
inductive Source
  | unknown
  | granted (scope : Option String) (allowForeignScope : Bool) (bound : Option String)
  | imported (bound : Option String)
deriving DecidableEq

structure Origin where
  source : Source
  /-- The assertion of the opening that bound the database with this row in it. -/
  adopted : Option String
deriving DecidableEq

/-- A world with the origin of each row, and of the record that a running migration may put back. -/
structure Traced (A : Adapter R O) where
  world : World A
  origin : String → Origin
  prior : String → Origin

/-- The origin of the row that a write leaves. -/
def Traced.written (t : Traced A) (userId : String) (o : Opening R) : After R O → Origin
  | .restored => t.prior userId
  | _ => ⟨.granted o.scope o.allowForeignScope t.world.db.scope, none⟩

/-- The origins after the statement on a member's row. -/
def Traced.chainOrigin (t : Traced A) (userId : String) (s : Stmt) : String → Origin :=
  match t.world.op userId, t.world.phase, s with
  | some (.putting _ (some _) after), .running o, .put => Function.update t.origin userId (t.written userId o after)
  | _, _, _ => t.origin

/-- The origins after a part of the constructor. -/
def Traced.openOrigin (t : Traced A) (w : World A) (o : Opening R) : Stage → String → Origin
  | .importLegacy => fun u =>
    if (t.world.db.row u).isNone ∧ (w.db.row u).isSome then ⟨.imported t.world.db.scope, none⟩ else t.origin u
  | .bindScope => fun u =>
    if t.world.db.scope.isNone ∧ w.db.scope.isSome then { t.origin u with adopted := o.adoptScope } else t.origin u
  | _ => t.origin

def Traced.step (t : Traced A) (e : Event R) : Traced A :=
  let w := Ledger.step t.world e
  match e with
  | .next _ => match t.world.phase with
    | .opening o stage => ⟨w, t.openOrigin w o stage, t.prior⟩
    | _ => { t with world := w }
  | .grant userId _ _ =>
    ⟨w, t.origin, if t.world.free userId then Function.update t.prior userId (t.origin userId) else t.prior⟩
  | .chain userId s => ⟨w, t.chainOrigin userId s, t.prior⟩
  | _ => { t with world := w }

def Traced.run (t : Traced A) (es : List (Event R)) : Traced A := es.foldl Traced.step t

/-- Granted by a process of the scope, or adopted by name. -/
def Vouched (S : String) (o : Origin) : Prop :=
  (∃ foreign bound, o.source = .granted (some S) foreign bound) ∨ o.adopted = some S

/-- Granted there by a process that the guard lets past. -/
def LetPast (S : String) (o : Origin) : Prop :=
  ∃ scope foreign, o.source = .granted scope foreign (some S) ∧ (scope = none ∨ foreign = true)

def Attributed (S : String) (o : Origin) : Prop := Vouched S o ∨ LetPast S o ∨ o.source = .imported (some S)

/-! ## The binding -/

/-- The opening may work on a database bound to `scope`. -/
def Fits (o : Opening R) (scope : Option String) : Prop :=
  ∀ S, scope = some S → o.scope = some S ∨ o.scope = none ∨ o.allowForeignScope = true

theorem fits_none (o : Opening R) : Fits o none := nofun

theorem refuseForeignScope_spec {db db' : Database A} {o : Opening R} (h : db.refuseForeignScope o = some db') :
    Fits o db'.scope ∧ (db' = db ∨ (db.grants = [] ∧ db'.grants = [])) := by
  unfold Database.refuseForeignScope at h
  split at h
  · rename_i bound scope hb hs
    split at h
    · rename_i he
      cases h
      exact ⟨fun S hS => .inl (by rw [hb] at hS; cases hS; rw [hs, he]), .inl rfl⟩
    split at h
    · rename_i ha
      cases h
      exact ⟨fun S hS => .inr (.inr ha), .inl rfl⟩
    split at h
    · rename_i hz
      cases h
      have hnil : db.grants = [] := List.length_eq_zero_iff.1 (by omega)
      exact ⟨fun S hS => .inl (by cases hS; exact hs), .inr ⟨hnil, hnil⟩⟩
    · cases h
  · rename_i hne
    cases h
    refine ⟨fun S hS => ?_, .inl rfl⟩
    cases hs : o.scope with
    | none => exact .inr (.inl rfl)
    | some scope => exact (hne S scope hS hs).elim

theorem bindScope_spec {db db' : Database A} {o : Opening R} (h : db.bindScope o = some db') :
    db' = db ∨ ∃ S, db.scope = none ∧ o.scope = some S ∧ db' = { db with scope := some S } ∧
      (db.grants = [] ∨ o.adoptScope = some S) := by
  unfold Database.bindScope at h
  split at h
  · rename_i scope hs hb
    split at h
    · rename_i hz
      cases h
      exact .inr ⟨scope, hb, hs, rfl, .inl (List.length_eq_zero_iff.1 hz)⟩
    split at h
    · rename_i ha
      cases h
      exact .inr ⟨scope, hb, hs, rfl, .inr ha⟩
    · cases h
  · cases h; exact .inl rfl

theorem scope_importRows {l : List (String × Option R)} : ∀ {db db' : Database A}, db.importRows l = some db' →
    db'.scope = db.scope := by
  induction l with
  | nil => rintro db _ ⟨⟩; rfl
  | cons p l ih =>
    intro db db' h
    obtain ⟨u, _ | r⟩ := p
    · cases h
    · have hih := ih h
      exact hih

theorem scope_importLegacy (db : Database A) (o : Opening R) : (db.importLegacy o).1.scope = db.scope := by
  unfold Database.importLegacy
  split
  · rfl
  split
  · rfl
  split
  · rfl
  rename_i grants clockMark clockRegressed _
  cases himp : db.importRows grants with
  | none => rfl
  | some db₁ =>
    have hs := scope_importRows himp
    cases clockMark <;> exact hs

theorem scope_observeClock (db : Database A) (t : Int) : (db.observeClock t).1.scope = db.scope := by
  unfold Database.observeClock
  split
  · rfl
  · split <;> rfl

theorem startClock_spec (db : Database A) (o : Opening R) (now : Int) :
    (db.startClock o now).scope = db.scope ∧ (db.startClock o now).grants = db.grants := by
  unfold Database.startClock
  split
  · exact ⟨scope_observeClock _ now, grants_observeClock _ now⟩
  · exact ⟨scope_observeClock db now, grants_observeClock db now⟩

theorem scope_advance (db : Database A) (u : String) (op : Op R O) (s : Stmt) : (advance db u op s).1.scope = db.scope := by
  unfold advance
  split <;> first | rfl | unfold Database.del
  split <;> rfl

theorem scope_retireAll (db : Database A) (transform : R → String → Retired R) :
    (db.retireAll transform).scope = db.scope := by
  unfold Database.retireAll
  split <;> rfl

/-! ## Rows -/

/-- A statement leaves a row only where there was one, but for the write. -/
theorem row_advance {db : Database A} {u : String} {op : Op R O} {s : Stmt} {u' : String}
    (h : ((advance db u op s).1.row u').isSome = true) :
    (db.row u').isSome = true ∨ (u' = u ∧ s = .put ∧ ∃ record rev after, op = .putting record (some rev) after) := by
  unfold advance at h
  split at h
  · exact .inl h
  · rename_i record rev after
    by_cases hu : u' = u
    · exact .inr ⟨hu, rfl, record, rev, after, rfl⟩
    · rw [Database.row, Database.put, Assoc.lookup_set_of_ne hu] at h
      exact .inl h
  · exact .inl h
  · unfold Database.del at h
    split at h
    · exact .inl (Assoc.isSome_lookup_filter h)
    · exact .inl h
  · exact .inl h
  · exact .inl h

theorem keys_retireRows {transform : R → String → Retired R} {rows : List (String × Row A)} :
    ∀ {revSeq : Option Nat} {r : List (String × Row A) × Option Nat}, retireRows transform rows revSeq = some r →
      ∀ u, (r.1.lookup u).isSome = true → (rows.lookup u).isSome = true := by
  induction rows with
  | nil => rintro revSeq r ⟨⟩ u h; exact h
  | cons p rows ih =>
    intro revSeq r h u hu
    obtain ⟨u', row⟩ := p
    rw [Assoc.lookup_cons]
    by_cases hk : u = u'
    · rw [if_pos hk]; rfl
    rw [if_neg hk]
    rw [retireRows] at h
    split at h
    · obtain ⟨r', hr', rfl⟩ := Option.map_eq_some_iff.1 h
      rw [Assoc.lookup_cons, if_neg hk] at hu
      exact ih hr' u hu
    · exact ih h u hu
    · obtain ⟨r', hr', rfl⟩ := Option.map_eq_some_iff.1 h
      rw [Assoc.lookup_cons, if_neg hk] at hu
      exact ih hr' u hu
    · cases h

theorem row_retireAll {db : Database A} {transform : R → String → Retired R} {u : String}
    (h : ((db.retireAll transform).row u).isSome = true) : (db.row u).isSome = true := by
  unfold Database.retireAll at h
  split at h
  · rename_i grants revSeq hr
    exact keys_retireRows hr u h
  · exact h

/-! ## The invariant -/

/-- The operation may still put the prior record back. -/
def Op.migrates : Op R O → Bool
  | .putting _ _ (.migrate _ _ _) => true
  | .putting _ _ .restored => true
  | .migrating _ _ _ _ => true
  | _ => false

/-- What the guard has established of the process that has the file open. -/
def Admitted (w : World A) : Prop := match w.phase with
  | .closed => True
  | .opening _ .seedRevSeq => True
  | .opening _ .refuseForeignScope => True
  | .opening o _ => Fits o w.db.scope
  | .running o => Fits o w.db.scope

structure Inv (t : Traced A) : Prop where
  rows : ∀ S, t.world.db.scope = some S → ∀ u, (t.world.db.row u).isSome = true → Attributed S (t.origin u)
  prior : ∀ S, t.world.db.scope = some S → ∀ u op, t.world.op u = some op → op.migrates = true →
    Attributed S (t.prior u)
  admitted : Admitted t.world
  idle : t.world.running = false → t.world.ops = []

theorem migrates_startGrant {prev : Option (Row A)} {record : R} (h : (startGrant A prev record).migrates = true) :
    prev.isSome = true := by
  cases prev with
  | none => cases h
  | some prev => rfl

theorem migrates_settle {op op' : Op R O} {outcome : Outcome} (h : settle A op outcome = some op')
    (hm : op'.migrates = true) : op.migrates = true := by
  unfold settle at h
  split at h
  · rfl
  · rfl
  · cases h
  · split at h
    · cases h
    split at h
    · cases h; cases hm
    split at h
    · cases h
    · cases h; cases hm
  · cases h; cases hm
  · cases h
  · cases h
  · cases h; exact hm

theorem migrates_advance {db : Database A} {u : String} {op op' : Op R O} {s : Stmt} (h : (advance db u op s).2 = some op')
    (hm : op'.migrates = true) : op.migrates = true := by
  unfold advance at h
  split at h
  · cases h
    rename_i after
    cases after <;> exact hm
  · rename_i record rev after
    cases after with
    | migrate => rfl
    | restored => cases h
    | apply => cases h; cases hm
  · cases h
  · cases h
  · exact migrates_settle h hm
  · cases h; exact hm

/-- The process that writes may work on the database, so what it grants is accounted for. -/
theorem attributed_granted {o : Opening R} {S : String} (h : Fits o (some S)) (adopted : Option String) :
    Attributed S ⟨.granted o.scope o.allowForeignScope (some S), adopted⟩ := by
  rcases h S rfl with hs | hs | hs
  · exact .inl (.inl ⟨_, _, by rw [hs]⟩)
  · exact .inr (.inl ⟨_, _, rfl, .inl hs⟩)
  · exact .inr (.inl ⟨_, _, rfl, .inr hs⟩)

/-- An event that leaves rows, binding and phase alone, and starts no migration. -/
theorem Inv.of_quiet {t : Traced A} (h : Inv t) {w : World A} (hg : w.db.grants = t.world.db.grants)
    (hs : w.db.scope = t.world.db.scope) (hp : w.phase = t.world.phase)
    (hop : ∀ u op, w.op u = some op → op.migrates = true → ∃ op', t.world.op u = some op' ∧ op'.migrates = true)
    (hi : w.running = false → w.ops = []) : Inv { t with world := w } := by
  refine ⟨fun S hS u hu => ?_, fun S hS u op ho hm => ?_, ?_, hi⟩
  · exact h.rows S (hs ▸ hS) u (by rw [Database.row, ← hg]; exact hu)
  · obtain ⟨op', ho', hm'⟩ := hop u op ho hm
    exact h.prior S (hs ▸ hS) u op' ho' hm'
  · have ha := h.admitted
    simp only [Admitted, hp, hs] at ha ⊢
    exact ha

theorem op_of_nil {w : World A} (h : w.ops = []) (u : String) : w.op u = none := by rw [World.op, h]; rfl

/-- With nothing running, the rows and the guard carry the invariant. -/
theorem inv_of_idle {t : Traced A} (hops : t.world.ops = [])
    (hr : ∀ S, t.world.db.scope = some S → ∀ u, (t.world.db.row u).isSome = true → Attributed S (t.origin u))
    (ha : Admitted t.world) : Inv t :=
  ⟨hr, fun S _ u op ho => (by rw [op_of_nil hops] at ho; cases ho), ha, fun _ => hops⟩

theorem Inv.close {t : Traced A} (h : Inv t) : Inv { t with world := t.world.close } :=
  inv_of_idle rfl h.rows trivial

/-- Rows that an import brings in. -/
theorem row_importLegacy {db : Database A} {o : Opening R} {u : String} {row : Row A} (h : db.row u = some row) :
    (db.importLegacy o).1 = db := by
  have hlen : db.grants.length > 0 := List.length_pos_of_mem (Assoc.mem_of_lookup h)
  unfold Database.importLegacy
  split
  · rfl
  · rw [if_pos (.inl hlen)]

theorem attributed_importLegacy {t : Traced A} (h : Inv t) {o : Opening R} {w : World A}
    (hdb : w.db = (t.world.db.importLegacy o).1) {S : String} (hS : w.db.scope = some S) {u : String}
    (hu : (w.db.row u).isSome = true) : Attributed S (t.openOrigin w o .importLegacy u) := by
  have hS' : t.world.db.scope = some S := by rw [← hS, hdb, scope_importLegacy]
  dsimp only [Traced.openOrigin]
  cases hrow : t.world.db.row u with
  | none => rw [if_pos ⟨rfl, hu⟩, hS']; exact .inr (.inr rfl)
  | some row =>
    rw [if_neg fun hc => by cases hc.1]
    exact h.rows S hS' u (by rw [hrow]; rfl)

theorem attributed_bindScope {t : Traced A} (h : Inv t) {o : Opening R} {w : World A}
    (hb : t.world.db.bindScope o = some w.db) {S : String} (hS : w.db.scope = some S) {u : String}
    (hu : (w.db.row u).isSome = true) : Attributed S (t.openOrigin w o .bindScope u) := by
  dsimp only [Traced.openOrigin]
  rcases bindScope_spec hb with hdb | ⟨S', hn, ho, hdb, hnil | had⟩
  · rw [hdb] at hS hu
    rw [if_neg fun hc => by rw [hS] at hc; cases hc.1]
    exact h.rows S hS u hu
  · rw [hdb, Database.row, hnil] at hu
    cases hu
  · rw [if_pos ⟨by rw [hn]; rfl, by rw [hS]; rfl⟩, had]
    rw [hdb] at hS
    cases hS
    exact .inl (.inr rfl)

theorem Inv.openStage {t : Traced A} (h : Inv t) {o : Opening R} {stage : Stage} (hp : t.world.phase = .opening o stage)
    (now : Int) : Inv ⟨t.world.openStage o now stage, t.openOrigin (t.world.openStage o now stage) o stage, t.prior⟩ := by
  have hops : t.world.ops = [] := h.idle (by rw [World.running, hp])
  have hadm := h.admitted
  simp only [Admitted, hp] at hadm
  cases stage with
  | seedRevSeq => exact inv_of_idle hops h.rows trivial
  | refuseForeignScope =>
    dsimp only [World.openStage]
    cases hr : t.world.db.refuseForeignScope o with
    | none => exact h.close
    | some db =>
      obtain ⟨hfits, rfl | ⟨hnil, hnil'⟩⟩ := refuseForeignScope_spec hr
      · exact inv_of_idle hops h.rows hfits
      · refine inv_of_idle hops (fun S _ u hu => ?_) hfits
        rw [Database.row, hnil'] at hu; cases hu
  | importLegacy =>
    have hscope := scope_importLegacy t.world.db o
    have hattr {w : World A} (hdb : w.db = (t.world.db.importLegacy o).1) (S : String) (hS : w.db.scope = some S)
        (u : String) (hu : (w.db.row u).isSome = true) := attributed_importLegacy h hdb hS hu
    dsimp only [World.openStage]
    revert hattr hscope
    rcases t.world.db.importLegacy o with ⟨db, _ | _⟩
    · exact fun _ hattr => inv_of_idle rfl (hattr rfl) trivial
    · exact fun hscope hattr => inv_of_idle hops (hattr rfl) fun S hS => hadm S (hscope ▸ hS)
  | bindScope =>
    dsimp only [World.openStage]
    cases hb : t.world.db.bindScope o with
    | none =>
      refine inv_of_idle rfl (fun S hS u hu => ?_) trivial
      dsimp only [Traced.openOrigin]
      rw [if_neg fun hc => by rw [show t.world.db.scope = some S from hS] at hc; cases hc.1]
      exact h.rows S hS u hu
    | some db =>
      refine inv_of_idle hops (fun S hS u hu => attributed_bindScope h hb hS hu) fun S hS => ?_
      rcases bindScope_spec hb with hdb | ⟨S', -, ho, hdb, -⟩
      · exact hadm S (hdb ▸ hS)
      · rw [show db.scope = some S' from by rw [hdb]] at hS
        cases hS; exact .inl ho
  | startClock =>
    obtain ⟨hs, hg⟩ := startClock_spec t.world.db o now
    refine inv_of_idle hops (fun S hS u hu => ?_) fun S hS => ?_
    · exact h.rows S (hs.symm.trans hS) u (by rw [Database.row, ← hg]; exact hu)
    · exact hadm S (hs.symm.trans hS)

theorem op_grant {w : World A} {u' u : String} {record : R} {now : Int} {op : Op R O}
    (h : (w.grant u' record now).op u = some op) :
    w.op u = some op ∨ (u = u' ∧ op = startGrant A (w.db.row u') record) := by
  unfold World.grant at h
  dsimp only at h
  split at h
  · exact .inl h
  by_cases hu : u = u'
  · subst hu
    rw [op_setOp_self, row_observeClock] at h
    cases h
    exact .inr ⟨rfl, rfl⟩
  · rw [op_setOp_of_ne hu] at h
    exact .inl h

theorem op_sweepOne {w : World A} {u' u : String} {now : Int} {op : Op R O} (h : (w.sweepOne u' now).op u = some op) :
    w.op u = some op ∨ op.migrates = false := by
  unfold World.sweepOne at h
  cases hrow : w.db.row u' with
  | none => rw [hrow] at h; exact .inl h
  | some row =>
    rw [hrow] at h
    dsimp only at h
    split at h
    · exact .inl h
    by_cases hu : u = u'
    · rw [hu, op_setOp_self] at h
      cases h; exact .inr rfl
    · rw [op_setOp_of_ne hu] at h
      exact .inl h

theorem op_admitIfLive {w : World A} {u' u : String} {now : Int} {matches_ : Bool} {op : Op R O}
    (h : (w.admitIfLive u' now matches_).op u = some op) : w.op u = some op ∨ op.migrates = false := by
  unfold World.admitIfLive at h
  dsimp only at h
  cases hrow : (w.db.observeClock now).1.row u' with
  | none => rw [hrow] at h; exact .inl h
  | some row =>
    rw [hrow] at h
    dsimp only at h
    split at h
    · exact .inl h
    split at h
    · exact .inl h
    by_cases hu : u = u'
    · rw [hu, op_setOp_self] at h
      cases h; exact .inr rfl
    · rw [op_setOp_of_ne hu] at h
      exact .inl h

theorem op_chain {w : World A} {u' u : String} {s : Stmt} {op : Op R O} (h : (w.chain u' s).op u = some op) :
    (u ≠ u' ∧ w.op u = some op) ∨ (u = u' ∧ ∃ op', w.op u = some op' ∧ (advance w.db u op' s).2 = some op) := by
  unfold World.chain at h
  cases hop : w.op u' with
  | none =>
    rw [hop] at h
    have hne : u ≠ u' := fun e => by rw [e] at h; exact absurd (hop.symm.trans h) (by simp)
    exact .inl ⟨hne, h⟩
  | some op' =>
    rw [hop] at h
    dsimp only at h
    by_cases hu : u = u'
    · subst hu
      refine .inr ⟨rfl, op', hop, ?_⟩
      revert h
      rcases advance w.db u op' s with ⟨db, _ | op''⟩
      · intro h
        dsimp only at h
        rw [op_done_self] at h
        cases h
      · intro h
        dsimp only at h
        rw [op_setOp_self] at h
        exact h
    · refine .inl ⟨hu, ?_⟩
      revert h
      rcases advance w.db u' op' s with ⟨db, _ | op''⟩
      · intro h
        dsimp only at h
        rw [op_done_of_ne hu] at h
        exact h
      · intro h
        dsimp only at h
        rw [op_setOp_of_ne hu] at h
        exact h

theorem Inv.running {t : Traced A} (h : Inv t) {u : String} {op : Op R O} (ho : t.world.op u = some op) :
    ∃ o, t.world.phase = .running o ∧ Fits o t.world.db.scope := by
  have hr : t.world.running = true := by
    by_contra hr
    rw [op_of_nil (h.idle (by simpa using hr))] at ho
    cases ho
  have ha := h.admitted
  unfold World.running at hr
  unfold Admitted at ha
  split at hr
  · rename_i o hp
    rw [hp] at ha
    exact ⟨o, hp, ha⟩
  · cases hr

theorem attributed_written {t : Traced A} (h : Inv t) {u : String} {record : R} {rev : Option Nat} {after : After R O}
    (ho : t.world.op u = some (.putting record rev after)) {o : Opening R} (hf : Fits o t.world.db.scope) {S : String}
    (hS : t.world.db.scope = some S) : Attributed S (t.written u o after) := by
  rw [hS] at hf
  cases after with
  | restored => exact h.prior S hS u _ ho rfl
  | migrate => simp only [Traced.written, hS]; exact attributed_granted hf none
  | apply => simp only [Traced.written, hS]; exact attributed_granted hf none

theorem chainOrigin_eq (t : Traced A) (u : String) (s : Stmt) :
    (∃ record rev after o, t.world.op u = some (.putting record (some rev) after) ∧ t.world.phase = .running o ∧
      s = .put ∧ t.chainOrigin u s = Function.update t.origin u (t.written u o after)) ∨
    (t.chainOrigin u s = t.origin ∧ ∀ record rev after o, t.world.op u = some (.putting record (some rev) after) →
      t.world.phase = .running o → s ≠ .put) := by
  unfold Traced.chainOrigin
  split
  · rename_i record rev after o ho hp
    exact .inl ⟨record, rev, after, o, ho, hp, rfl, rfl⟩
  · rename_i hne
    exact .inr ⟨rfl, fun record rev after o ho hp hs => hne record rev after o ho hp hs⟩

theorem Inv.chain {t : Traced A} (h : Inv t) (u : String) (s : Stmt) :
    Inv ⟨t.world.chain u s, t.chainOrigin u s, t.prior⟩ := by
  have hframe := frame_chain t.world u s
  have hscope : (t.world.chain u s).db.scope = t.world.db.scope := by
    rcases db_chain t.world u s with hdb | ⟨op, -, hdb⟩
    · rw [hdb]
    · rw [hdb, scope_advance]
  refine ⟨fun S hS u' hu => ?_, fun S hS u' op ho hm => ?_, ?_, fun hr => ?_⟩
  · have hS' : t.world.db.scope = some S := hscope ▸ hS
    have hrow : (t.world.db.row u').isSome = true ∨ (u' = u ∧ s = .put ∧
        ∃ record rev after, t.world.op u = some (.putting record (some rev) after)) := by
      rcases db_chain t.world u s with hdb | ⟨op, hop, hdb⟩
      · exact .inl (hdb ▸ hu)
      · rcases row_advance (hdb ▸ hu) with hrow | ⟨hu', hs, record, rev, after, rfl⟩
        · exact .inl hrow
        · exact .inr ⟨hu', hs, record, rev, after, hop⟩
    rcases chainOrigin_eq t u s with ⟨record, rev, after, o, ho, hp, -, heq⟩ | ⟨heq, hne⟩
    · dsimp only
      rw [heq]
      by_cases hu' : u' = u
      · rw [hu', Function.update_self]
        obtain ⟨o', hp', hf⟩ := h.running ho
        rw [hp] at hp'; cases hp'
        exact attributed_written h ho hf hS'
      · rw [Function.update_of_ne hu']
        exact h.rows S hS' u' (hrow.resolve_right fun hc => hu' hc.1)
    · dsimp only
      rw [heq]
      refine h.rows S hS' u' (hrow.resolve_right fun ⟨_, hs, record, rev, after, hop⟩ => ?_)
      obtain ⟨o, hp, -⟩ := h.running hop
      exact hne record rev after o hop hp hs
  · have hS' : t.world.db.scope = some S := hscope ▸ hS
    rcases op_chain ho with ⟨-, ho'⟩ | ⟨rfl, op', ho', hadv⟩
    · exact h.prior S hS' u' op ho' hm
    · exact h.prior S hS' u' op' ho' (migrates_advance hadv hm)
  · have ha := h.admitted
    simp only [Admitted, hframe.1, hscope] at ha ⊢
    exact ha
  · have hr' : t.world.running = false := by rw [World.running, ← hframe.1]; exact hr
    have hnil := h.idle hr'
    dsimp only [World.chain]
    rw [op_of_nil hnil]
    exact hnil

theorem Inv.grant {t : Traced A} (h : Inv t) (u : String) (record : R) (now : Int) (hf : t.world.free u = true) :
    Inv ⟨t.world.grant u record now, t.origin, Function.update t.prior u (t.origin u)⟩ := by
  have hdb := db_grant t.world u record now
  have hframe := frame_grant t.world u record now
  have hscope : (t.world.grant u record now).db.scope = t.world.db.scope := by rw [hdb, scope_observeClock]
  refine ⟨fun S hS u' hu => ?_, fun S hS u' op ho hm => ?_, ?_, fun hr => ?_⟩
  · refine h.rows S (hscope ▸ hS) u' ?_
    rw [hdb, row_observeClock] at hu
    exact hu
  · have hS' : t.world.db.scope = some S := hscope ▸ hS
    dsimp only
    by_cases hu : u' = u
    · subst hu
      rw [Function.update_self]
      rcases op_grant ho with ho' | ⟨-, rfl⟩
      · simp only [World.free, Bool.and_eq_true, Option.isNone_iff_eq_none] at hf
        rw [hf.2] at ho'; cases ho'
      · exact h.rows S hS' u' (migrates_startGrant hm)
    · rw [Function.update_of_ne hu]
      exact h.prior S hS' u' op ((op_grant ho).resolve_right fun hc => hu hc.1) hm
  · have ha := h.admitted
    simp only [Admitted, hframe.1, hscope] at ha ⊢
    exact ha
  · rw [running_of_frame hframe (running_of_free hf)] at hr
    cases hr

theorem Inv.step {t : Traced A} (h : Inv t) (e : Event R) : Inv (t.step e) := by
  have quiet {w : World A} (hr : t.world.running = true) (hf : w.phase = t.world.phase)
      (hg : w.db.grants = t.world.db.grants) (hs : w.db.scope = t.world.db.scope)
      (hop : ∀ u op, w.op u = some op → t.world.op u = some op ∨ op.migrates = false) : Inv { t with world := w } := by
    refine h.of_quiet hg hs hf (fun u op ho hm => ?_) fun hi => ?_
    · refine ⟨op, (hop u op ho).resolve_right fun hc => ?_, hm⟩
      rw [hm] at hc; cases hc
    · rw [World.running, hf] at hi
      rw [World.running] at hr
      rw [hr] at hi; cases hi
  cases e with
  | open_ o =>
    dsimp only [Traced.step, Ledger.step]
    split
    · rename_i hp
      exact inv_of_idle (h.idle (by rw [World.running, hp])) h.rows trivial
    · exact h
  | next now =>
    cases hp : t.world.phase with
    | opening o stage => simp only [Traced.step, Ledger.step, hp]; exact h.openStage hp now
    | closed => simp only [Traced.step, Ledger.step, hp]; exact h
    | running o => simp only [Traced.step, Ledger.step, hp]; exact h
  | stop => exact h.close
  | grant u record now =>
    dsimp only [Traced.step, Ledger.step]
    split
    · exact h.grant u record now ‹_›
    · exact h
  | sweep now =>
    dsimp only [Traced.step, Ledger.step]
    split
    · exact quiet ‹_› rfl (grants_observeClock _ _) (scope_observeClock _ _) fun u op ho => .inl ho
    · exact h
  | sweepNext i now =>
    dsimp only [Traced.step, Ledger.step]
    split
    · rename_i u rest _
      split
      · rename_i hf
        have hframe := frame_sweepOne { t.world with sweeps := t.world.sweeps.set i rest } u now
        have hdb : (({ t.world with sweeps := t.world.sweeps.set i rest } : World A).sweepOne u now).db = t.world.db ∨
            (({ t.world with sweeps := t.world.sweeps.set i rest } : World A).sweepOne u now).db =
              (t.world.db.observeClock now).1 := by
          cases hrow : t.world.db.row u with
          | none => left; simp only [World.sweepOne, hrow]
          | some row => right; exact db_sweepOne (w := { t.world with sweeps := _ }) now (by rw [hrow]; rfl)
        refine quiet (running_of_free hf) hframe.1 ?_ ?_ fun u' op ho =>
          op_sweepOne (w := { t.world with sweeps := t.world.sweeps.set i rest }) ho
        · rcases hdb with hdb | hdb
          · rw [hdb]
          · rw [hdb, grants_observeClock]
        · rcases hdb with hdb | hdb
          · rw [hdb]
          · rw [hdb, scope_observeClock]
      · exact h
    · exact h
  | admitIfLive u now m =>
    dsimp only [Traced.step, Ledger.step]
    split
    · rename_i hf
      have hdb := db_admitIfLive t.world u now m
      exact quiet (running_of_free hf) (frame_admitIfLive t.world u now m).1 (by rw [hdb, grants_observeClock])
        (by rw [hdb, scope_observeClock]) fun u' op ho => op_admitIfLive ho
    · exact h
  | live u now =>
    dsimp only [Traced.step, Ledger.step]
    split
    · exact quiet ‹_› rfl (grants_observeClock _ _) (scope_observeClock _ _) fun u' op ho => .inl ho
    · exact h
  | chain u s => exact h.chain u s
  | retireAll transform =>
    dsimp only [Traced.step, Ledger.step]
    split
    · have hs := scope_retireAll t.world.db transform
      refine ⟨fun S hS u hu => h.rows S (hs ▸ hS) u (row_retireAll hu), fun S hS => h.prior S (hs ▸ hS), ?_, h.idle⟩
      have ha := h.admitted
      simp only [Admitted, World.setDb, hs] at ha ⊢
      exact ha
    · exact h

theorem Inv.run {es : List (Event R)} : ∀ {t : Traced A}, Inv t → Inv (t.run es) := by
  induction es with
  | nil => exact fun h => h
  | cons e es ih => exact fun h => ih (h.step e)

/-- A binding is given up only while there is no row. -/
theorem binding_step (w : World A) (e : Event R) {S : String} (hS : w.db.scope = some S) :
    (step w e).db.scope = some S ∨ (w.db.grants = [] ∧ (step w e).db.grants = []) := by
  have hobserve (now : Int) : (w.db.observeClock now).1.scope = some S := (scope_observeClock w.db now).trans hS
  cases e with
  | open_ o => left; dsimp only [step]; split <;> exact hS
  | next now =>
    dsimp only [step]
    split
    · rename_i o stage _
      cases stage with
      | seedRevSeq => exact .inl hS
      | refuseForeignScope =>
        dsimp only [World.openStage]
        cases hr : w.db.refuseForeignScope o with
        | none => exact .inl hS
        | some db =>
          rcases (refuseForeignScope_spec hr).2 with rfl | hnil
          · exact .inl hS
          · exact .inr hnil
      | importLegacy =>
        left
        have hscope := scope_importLegacy w.db o
        dsimp only [World.openStage]
        revert hscope
        rcases w.db.importLegacy o with ⟨db, _ | _⟩ <;> exact fun hscope => hscope.trans hS
      | bindScope =>
        left
        dsimp only [World.openStage]
        cases hb : w.db.bindScope o with
        | none => exact hS
        | some db =>
          rcases bindScope_spec hb with rfl | ⟨_, hn, -⟩
          · exact hS
          · rw [hS] at hn; cases hn
      | startClock => exact .inl ((startClock_spec w.db o now).1.trans hS)
    · exact .inl hS
  | stop => exact .inl hS
  | grant u record now =>
    left; dsimp only [step]
    split
    · rw [db_grant]; exact hobserve now
    · exact hS
  | sweep now => left; dsimp only [step]; split <;> first | exact hobserve now | exact hS
  | sweepNext i now =>
    left
    dsimp only [step]
    split
    · rename_i u rest _
      split
      · cases hrow : w.db.row u with
        | none => simp only [World.sweepOne, hrow]; exact hS
        | some row =>
          rw [db_sweepOne (w := { w with sweeps := w.sweeps.set i rest }) now (by rw [hrow]; rfl)]
          exact hobserve now
      · exact hS
    · exact hS
  | admitIfLive u now m =>
    left; dsimp only [step]
    split
    · rw [db_admitIfLive]; exact hobserve now
    · exact hS
  | live u now => left; dsimp only [step]; split <;> first | exact hobserve now | exact hS
  | chain u s =>
    left
    rcases db_chain w u s with hdb | ⟨op, -, hdb⟩
    · rw [step, hdb]; exact hS
    · rw [step, hdb, scope_advance]; exact hS
  | retireAll transform => left; dsimp only [step]; split <;> first | exact (scope_retireAll _ _).trans hS | exact hS

/-- A file that nobody has open and that is not bound, with any rows. -/
def Traced.Initial (t : Traced A) : Prop :=
  t.world.phase = .closed ∧ t.world.ops = [] ∧ t.world.db.scope = none

theorem inv_of_initial {t : Traced A} (h : t.Initial) : Inv t := by
  obtain ⟨hp, hops, hs⟩ := h
  refine inv_of_idle hops (fun S hS => by rw [hs] at hS; cases hS) ?_
  rw [Admitted, hp]
  trivial

/-- Every row of a bound database was granted by a process of its scope, adopted for it by name, or granted there
by a process without a scope or with `allowForeignScope`, but for a legacy import into a database that was bound
already. A binding changes only while there is no row. -/
theorem bound_rows {t₀ : Traced A} (h₀ : t₀.Initial) (es : List (Event R)) {S : String}
    (hS : (t₀.run es).world.db.scope = some S) :
    (∀ u, ((t₀.run es).world.db.row u).isSome = true → ((t₀.run es).origin u).source ≠ .imported (some S) →
      Vouched S ((t₀.run es).origin u) ∨ LetPast S ((t₀.run es).origin u)) ∧
    ∀ e, ((t₀.run es).step e).world.db.scope = some S ∨
      ((t₀.run es).world.db.grants = [] ∧ ((t₀.run es).step e).world.db.grants = []) := by
  have h : Inv (t₀.run es) := Inv.run (inv_of_initial h₀)
  refine ⟨fun u hu hne => ?_, fun e => ?_⟩
  · rcases h.rows S hS u hu with hv | hl | hi
    · exact .inl hv
    · exact .inr hl
    · exact absurd hi hne
  · have hw : ((t₀.run es).step e).world = step (t₀.run es).world e := by
      dsimp only [Traced.step]
      split <;> first | rfl | split <;> rfl
    rw [hw]
    exact binding_step _ e hS

/-! ## Rows that nobody vouched for -/

def Traced.fresh : Traced A := ⟨.fresh, fun _ => ⟨.unknown, none⟩, fun _ => ⟨.unknown, none⟩⟩

def Opening.of (scope : String) : Opening R := { Opening.plain with scope := some scope }

theorem bound_rows_granted : Vouched "A"
    (((Traced.fresh (A := deadlineOnly)).run (opened (.of "A") 0 ++ granted "m" 100 0)).origin "m") := by
  have h := (@bound_rows _ _ deadlineOnly Traced.fresh ⟨rfl, rfl, rfl⟩ (opened (.of "A") 0 ++ granted "m" 100 0) "A"
    (by decide +kernel)).1 "m" (by decide +kernel) (by decide +kernel)
  refine h.resolve_right fun ⟨scope, foreign, hs, hc⟩ => ?_
  have ho : (((Traced.fresh (A := deadlineOnly)).run (opened (.of "A") 0 ++ granted "m" 100 0)).origin "m").source =
      .granted (some "A") false (some "A") := by decide +kernel
  rw [ho] at hs
  cases hs
  rcases hc with hc | hc <;> cases hc

/-- The file is bound to `A`; then a process without a scope opens it and grants. -/
def unscopedRun : List (Event ℚ) := opened (.of "A") 0 ++ .stop :: (opened .plain 0 ++ granted "m" 100 0)

/-- It ends with a row, in a database bound to `A`, that no process of `A` granted and nobody adopted. -/
theorem bound_rows_unvouched : ¬ ∀ (es : List (Event ℚ)) (S : String) (u : String),
    ((Traced.fresh (A := deadlineOnly)).run es).world.db.scope = some S →
    (((Traced.fresh (A := deadlineOnly)).run es).world.db.row u).isSome = true →
    Vouched S (((Traced.fresh (A := deadlineOnly)).run es).origin u) := by
  intro h
  have ho : ((Traced.fresh (A := deadlineOnly)).run unscopedRun).origin "m" = ⟨.granted none false (some "A"), none⟩ := by
    decide +kernel
  have hv := h unscopedRun "A" "m" (by decide +kernel) (by decide +kernel)
  rw [ho] at hv
  rcases hv with ⟨_, _, hs⟩ | hs <;> cases hs

def legacyOpening : Opening ℚ := { Opening.of (R := ℚ) "A" with importFrom := some (.parsed [("m", some 100)] none none) }

/-- The file is bound to `A`; then a process of `A` imports a legacy file, and nobody asserts whose rows these are. -/
def importRun : List (Event ℚ) :=
  opened (.of "A") 0 ++ .stop :: opened legacyOpening 0

example : ((Traced.fresh (A := deadlineOnly)).run importRun).world.db.scope = some "A" ∧
    ((Traced.fresh (A := deadlineOnly)).run importRun).origin "m" = ⟨.imported (some "A"), none⟩ := by decide +kernel

end Ledger
