import MnoVerify.GrantLedger
import Mathlib.Data.Set.Basic

/-!
# What the row of a member names

`named_of_kept`: in a run in which every covering write keeps the live orphan
named, and no apply that reports `mutated: false` has changed anything, each
member's row names everything that could be live. Channel-mode records always
keep the orphan; `switch_not_named` is a renewal from one role to another, whose
covering record is the new record alone.
-/

namespace GrantLedger

/-! ## One member -/

/-- What the ledger, the platform and the process hold of one member. -/
structure View where
  row : Option (Record × Nat)
  live : Set Target
  op : Option Op

def view (w : World) (u : String) : View := ⟨w.db.row u, { t | w.isLive u t }, w.op u⟩

@[simp] theorem view_setOp_self (w : World) (u : String) (o : Op) :
    view (w.setOp u o) u = { view w u with op := some o } := by
  simp [view, World.setOp, World.op, World.isLive]

theorem view_setOp_of_ne {u u' : String} (h : u' ≠ u) (w : World) (o : Op) : view (w.setOp u o) u' = view w u' := by
  simp [view, World.setOp, World.op, World.isLive, Assoc.lookup_set_of_ne h]

@[simp] theorem view_done_self (w : World) (u : String) : view (w.done u) u = { view w u with op := none } := by
  simp [view, World.done, World.op, World.isLive]

theorem view_done_of_ne {u u' : String} (h : u' ≠ u) (w : World) : view (w.done u) u' = view w u' := by
  simp [view, World.done, World.op, World.isLive, Assoc.lookup_erase_of_ne h]

@[simp] theorem view_give_self (w : World) (u : String) (ts : List Target) :
    view (w.give u ts) u = { view w u with live := { t | t ∈ ts } ∪ (view w u).live } := by
  simp only [view, World.give, World.op, World.isLive]
  congr 1
  ext t
  simp

theorem view_give_of_ne {u u' : String} (h : u' ≠ u) (w : World) (ts : List Target) :
    view (w.give u ts) u' = view w u' := by
  simp only [view, World.give, World.op, World.isLive]
  congr 1
  ext t
  simp [h.symm]

@[simp] theorem view_takeBack_self (w : World) (u : String) (ts : List Target) :
    view (w.takeBack u ts) u = { view w u with live := (view w u).live \ { t | t ∈ ts } } := by
  simp only [view, World.takeBack, World.op, World.isLive]
  congr 1
  ext t
  simp

theorem view_takeBack_of_ne {u u' : String} (h : u' ≠ u) (w : World) (ts : List Target) :
    view (w.takeBack u ts) u' = view w u' := by
  simp only [view, World.takeBack, World.op, World.isLive]
  congr 1
  ext t
  simp [h]

@[simp] theorem view_put_self (w : World) (u : String) (r : Record) :
    view (w.setDb (w.db.put u r)) u = { view w u with row := some (r, w.db.nextRev.revSeq) } := by
  simp [view, World.setDb, World.op, World.isLive, Database.put, Database.row]

theorem view_put_of_ne {u u' : String} (h : u' ≠ u) (w : World) (r : Record) :
    view (w.setDb (w.db.put u r)) u' = view w u' := by
  simp [view, World.setDb, World.op, World.isLive, Database.put, Database.row, Database.nextRev,
    Assoc.lookup_set_of_ne h]

theorem view_del_self (w : World) (u : String) (rev : Nat) :
    view (w.setDb (w.db.del u rev)) u = view w u ∨ view (w.setDb (w.db.del u rev)) u = { view w u with row := none } := by
  unfold Database.del
  split
  · right; simp [view, World.setDb, World.op, World.isLive, Database.row]
  · left; rfl

theorem view_del_of_ne {u u' : String} (h : u' ≠ u) (w : World) (rev : Nat) :
    view (w.setDb (w.db.del u rev)) u' = view w u' := by
  unfold Database.del
  split
  · simp [view, World.setDb, World.op, World.isLive, Database.row, Assoc.lookup_erase_of_ne h]
  · rfl

theorem view_of_grants {w : World} {db : Database} (h : db.grants = w.db.grants) (u : String) :
    view (w.setDb db) u = view w u := by
  simp [view, World.setDb, World.op, World.isLive, Database.row, h]

theorem grants_observeClock (db : Database) (t : Int) : (db.observeClock t).1.grants = db.grants := by
  unfold Database.observeClock
  split
  · rfl
  · split <;> rfl

/-! ## Targets -/

theorem mem_list_channel {r : Targets} (h : r.mode = .channel) (t : Target) :
    t ∈ r.list ↔ ∃ c ∈ r.channels, t = .channel c := by
  simp only [Targets.list, h, List.mem_map]
  exact ⟨fun ⟨c, hc, e⟩ => ⟨c, hc, e.symm⟩, fun ⟨c, hc, e⟩ => ⟨c, hc, e.symm⟩⟩

theorem mem_list_role {r : Targets} (h : r.mode = .role) (t : Target) :
    t ∈ r.list ↔ ∃ id, r.roleId = some id ∧ t = .role id := by
  simp only [Targets.list, h, List.mem_map, Option.mem_toList]
  exact ⟨fun ⟨c, hc, e⟩ => ⟨c, hc, e.symm⟩, fun ⟨c, hc, e⟩ => ⟨c, hc, e.symm⟩⟩

theorem isValid_channel {r : Record} (h : r.mode = .channel) :
    isValidRecord r = true ↔ r.channels ≠ [] ∧ ∀ c ∈ r.channels, c ≠ "" := by
  simp [isValidRecord, h]

theorem isValid_role {r : Record} (h : r.mode = .role) : isValidRecord r = true ↔ ∃ id, r.roleId = some id ∧ id ≠ "" := by
  unfold isValidRecord
  rw [h]
  cases hr : r.roleId with
  | none => simp
  | some id => simp

/-- What the orphan leaves out of the prior record, the new record names. -/
theorem mem_orphan_or_mem {prev : Record} (hv : isValidRecord prev = true) (record : Targets) {t : Target}
    (ht : t ∈ prev.list) :
    (∃ orphan, extraTargets prev.toTargets record = some orphan ∧ t ∈ orphan.list) ∨ t ∈ record.list := by
  by_cases hr : t ∈ record.list
  · exact .inr hr
  left
  cases hm : prev.mode with
  | channel =>
    obtain ⟨c, hc, rfl⟩ := (mem_list_channel hm t).1 ht
    have hx : c ∉ (if record.mode = .channel then record.channels else []) := by
      split
      · rename_i hrm; exact fun h => hr ((mem_list_channel hrm _).2 ⟨c, h, rfl⟩)
      · exact List.not_mem_nil
    have hf : c ∈ prev.channels.filter fun c => decide (c ∉ if record.mode = .channel then record.channels else []) :=
      List.mem_filter.2 ⟨hc, decide_eq_true hx⟩
    refine ⟨⟨.channel, _, none⟩, ?_, (mem_list_channel rfl _).2 ⟨c, hf, rfl⟩⟩
    simp only [extraTargets, hm]
    rw [if_neg (by rw [List.isEmpty_iff]; exact List.ne_nil_of_mem hf)]
  | role =>
    obtain ⟨id, hid, rfl⟩ := (mem_list_role hm t).1 ht
    obtain ⟨id', hid', hne⟩ := (isValid_role hm).1 hv
    rw [hid] at hid'; cases hid'
    have hx : some id ≠ (if record.mode = .role then record.roleId else none) := by
      split
      · rename_i hrm; exact fun h => hr ((mem_list_role hrm _).2 ⟨id, h.symm, rfl⟩)
      · exact nofun
    refine ⟨⟨.role, [], some id⟩, ?_, (mem_list_role rfl _).2 ⟨id, rfl, rfl⟩⟩
    simp only [extraTargets, hm, hid]
    rw [if_pos ⟨hne, hx⟩]

/-- An orphan is part of the prior record and of its mode. -/
theorem extraTargets_spec {a b o : Targets} (h : extraTargets a b = some o) :
    o.mode = a.mode ∧ (∀ t ∈ o.list, t ∈ a.list) ∧ ∀ c ∈ o.channels, c ∈ a.channels := by
  unfold extraTargets at h
  generalize (if b.mode = .channel then b.channels else []) = covered at h
  generalize (if b.mode = .role then b.roleId else none) = coveredRole at h
  cases hm : a.mode with
  | channel =>
    simp only [hm] at h
    split at h
    · cases h
    · cases h
      refine ⟨rfl, fun t ht => ?_, fun c hc => (List.mem_filter.1 hc).1⟩
      obtain ⟨c, hc, rfl⟩ := (mem_list_channel rfl t).1 ht
      exact (mem_list_channel hm _).2 ⟨c, (List.mem_filter.1 hc).1, rfl⟩
  | role =>
    simp only [hm] at h
    cases hid : a.roleId with
    | none => rw [hid] at h; cases h
    | some id =>
      simp only [hid] at h
      split at h
      · cases h
        refine ⟨rfl, fun t ht => ?_, nofun⟩
        obtain ⟨i, hi, rfl⟩ := (mem_list_role rfl t).1 ht
        cases hi
        exact (mem_list_role hm _).2 ⟨id, hid, rfl⟩
      · cases h

/-- An orphan is not named by the new record. -/
theorem notMem_of_mem_orphan {a b o : Targets} (h : extraTargets a b = some o) {t : Target} (ht : t ∈ o.list) :
    t ∉ b.list := by
  intro hb
  unfold extraTargets at h
  generalize hcov : (if b.mode = .channel then b.channels else []) = covered at h
  generalize hrole : (if b.mode = .role then b.roleId else none) = coveredRole at h
  cases hm : a.mode with
  | channel =>
    simp only [hm] at h
    split at h
    · cases h
    · cases h
      obtain ⟨c, hc, rfl⟩ := (mem_list_channel rfl t).1 ht
      have hx := of_decide_eq_true (List.mem_filter.1 hc).2
      cases hbm : b.mode with
      | channel =>
        rw [← hcov, if_pos hbm] at hx
        obtain ⟨c', hc', he⟩ := (mem_list_channel hbm _).1 hb
        cases he; exact hx hc'
      | role => obtain ⟨_, _, he⟩ := (mem_list_role hbm _).1 hb; cases he
  | role =>
    simp only [hm] at h
    cases hid : a.roleId with
    | none => rw [hid] at h; cases h
    | some id =>
      simp only [hid] at h
      split at h
      · rename_i hx
        cases h
        obtain ⟨i, hi, rfl⟩ := (mem_list_role rfl t).1 ht
        cases hi
        cases hbm : b.mode with
        | channel => obtain ⟨_, _, he⟩ := (mem_list_channel hbm _).1 hb; cases he
        | role =>
          obtain ⟨i', hi', he⟩ := (mem_list_role hbm _).1 hb
          cases he
          rw [← hrole, if_pos hbm] at hx
          exact hx.2 hi'.symm
      · cases h

/-- The covering record names the new targets, and the orphan when both are channel sets. -/
theorem mem_covering {record : Record} {orphan : Targets} {t : Target} (h : t ∈ record.list ∨
    (record.mode = .channel ∧ orphan.mode = .channel ∧ t ∈ orphan.list)) : t ∈ (coveringTargets record orphan).list := by
  unfold coveringTargets
  by_cases hm : record.mode ≠ .channel ∨ orphan.mode ≠ .channel
  · rw [if_pos hm]
    rcases h with h | ⟨h1, h2, -⟩
    · exact h
    · rcases hm with hm | hm
      · exact absurd h1 hm
      · exact absurd h2 hm
  · rw [if_neg hm]
    push Not at hm
    refine (mem_list_channel (r := ⟨record.mode, (record.channels ++ orphan.channels).eraseDups, record.roleId⟩) hm.1 t).2 ?_
    rcases h with h | ⟨-, -, h⟩
    · obtain ⟨c, hc, rfl⟩ := (mem_list_channel hm.1 t).1 h
      exact ⟨c, by simp [List.mem_eraseDups, hc], rfl⟩
    · obtain ⟨c, hc, rfl⟩ := (mem_list_channel hm.2 t).1 h
      exact ⟨c, by simp [List.mem_eraseDups, hc], rfl⟩

theorem valid_covering {record prev : Record} {orphan : Targets} (hr : isValidRecord record = true)
    (hp : isValidRecord prev = true) (ho : extraTargets prev.toTargets record.toTargets = some orphan) :
    isValidRecord (coveringTargets record orphan) = true := by
  unfold coveringTargets
  split
  · exact hr
  · rename_i hm
    push Not at hm
    obtain ⟨h1, -, h3⟩ := extraTargets_spec ho
    obtain ⟨h4, h5⟩ := (isValid_channel hm.1).1 hr
    obtain ⟨-, h6⟩ := (isValid_channel (h1.symm.trans hm.2)).1 hp
    refine (isValid_channel (r := { record with channels := (record.channels ++ orphan.channels).eraseDups }) hm.1).2
      ⟨?_, fun c hc => ?_⟩
    · obtain ⟨c, hc⟩ := List.exists_mem_of_ne_nil _ h4
      exact List.ne_nil_of_mem (a := c) (by simp [List.mem_eraseDups, hc])
    · simp only [List.mem_eraseDups, List.mem_append] at hc
      rcases hc with hc | hc
      · exact h5 c hc
      · exact h6 c (h3 c hc)

/-! ## What holds at each point of an operation -/

/-- Everything that could be live is among `ts`. -/
def Within (live : Set Target) (ts : List Target) : Prop := ∀ t ∈ live, t ∈ ts

/-- What an operation at this point knows of its member. -/
def OpFacts (v : View) : Op → Prop
  | .covering record prev orphan => isValidRecord record = true ∧ (∃ rev, v.row = some (prev, rev)) ∧
      extraTargets prev.toTargets record.toTargets = some orphan
  | .migrating record prev orphan => isValidRecord record = true ∧ isValidRecord prev = true ∧ Within v.live prev.list ∧
      extraTargets prev.toTargets record.toTargets = some orphan
  | .restoring prev => isValidRecord prev = true ∧ Within v.live prev.list
  | .writing record _ => isValidRecord record = true ∧ Within v.live record.list
  | .applying record _ _ => ∃ rev, v.row = some (record, rev)
  | .revoking record _ => ∃ rev, v.row = some (record, rev)
  | .deleting _ => v.live = ∅
  | .admitting record => ∃ rev, v.row = some (record, rev)

/-- The row is valid and names everything that could be live. -/
def Tracked (v : View) : Prop :=
  (∀ r rev, v.row = some (r, rev) → isValidRecord r = true) ∧
    ∀ t ∈ v.live, ∃ r rev, v.row = some (r, rev) ∧ t ∈ r.list

def Ok (v : View) : Prop := Tracked v ∧ ∀ o, v.op = some o → OpFacts v o

theorem Tracked.within {v : View} (h : Tracked v) {r : Record} {rev : Nat} (hr : v.row = some (r, rev)) :
    Within v.live r.list := by
  intro t ht
  obtain ⟨r', rev', hr', hm⟩ := h.2 t ht
  rw [hr] at hr'; cases hr'; exact hm

theorem tracked_of_row {v : View} {r : Record} {rev : Nat} (hr : v.row = some (r, rev)) (hv : isValidRecord r = true)
    (hw : Within v.live r.list) : Tracked v :=
  ⟨fun r' rev' h => by rw [hr] at h; cases h; exact hv, fun t ht => ⟨r, rev, hr, hw t ht⟩⟩

theorem ok_idle {v : View} (h : Tracked v) : Ok { v with op := none } := ⟨h, nofun⟩

theorem ok_op {v : View} {o : Op} (h : Tracked v) (ho : OpFacts { v with op := some o } o) : Ok { v with op := some o } :=
  ⟨h, fun o' ho' => by cases ho'; exact ho⟩

/-! ## Steps -/

@[simp] theorem view_observe (w : World) (now : Int) (u : String) :
    view (w.setDb (w.db.observeClock now).1) u = view w u :=
  view_of_grants (grants_observeClock _ _) u

/-- A step that changes one member only. -/
theorem ok_of_member {w w' : World} {u : String} (h : ∀ v, Ok (view w v)) (hne : ∀ v, v ≠ u → view w' v = view w v)
    (hu : Ok (view w' u)) : ∀ v, Ok (view w' v) := by
  intro v
  by_cases hv : v = u
  · rw [hv]; exact hu
  · rw [hne v hv]; exact h v

/-- A member's idle chain starts or skips an operation. -/
theorem ok_setOp {w : World} {u : String} {o : Op} (h : ∀ v, Ok (view w v))
    (ho : OpFacts { view w u with op := some o } o) : ∀ v, Ok (view (w.setOp u o) v) :=
  ok_of_member h (fun v hv => view_setOp_of_ne hv w o) (by rw [view_setOp_self]; exact ok_op (h u).1 ho)

theorem ok_done {w : World} {u : String} (h : ∀ v, Ok (view w v)) : ∀ v, Ok (view (w.done u) v) :=
  ok_of_member h (fun v hv => view_done_of_ne hv w) (by rw [view_done_self]; exact ok_idle (h u).1)

theorem ok_observe {w : World} (h : ∀ v, Ok (view w v)) (now : Int) :
    ∀ v, Ok (view (w.setDb (w.db.observeClock now).1) v) := fun v => by rw [view_observe]; exact h v

theorem row_observe (w : World) (now : Int) (u : String) : (w.db.observeClock now).1.row u = (view w u).row := by
  rw [Database.row, grants_observeClock]; rfl

theorem ok_grant {w : World} (h : ∀ v, Ok (view w v)) (u : String) (record : Record) (now : Int) :
    ∀ v, Ok (view (w.grant u record now) v) := by
  have h' := ok_observe h now
  have hview := view_observe w now u
  unfold World.grant
  split
  · exact h
  rename_i hvalid
  have hvalid : isValidRecord record = true := by simpa using hvalid
  dsimp only
  split
  · exact h'
  rw [row_observe]
  cases hrow : (view w u).row with
  | none =>
    refine ok_setOp h' ⟨hvalid, fun t ht => ?_⟩
    rw [hview] at ht
    obtain ⟨r, rev, hr, -⟩ := (h u).1.2 t ht
    rw [hrow] at hr; cases hr
  | some p =>
    obtain ⟨prev, rev⟩ := p
    dsimp only
    have hprev := (h u).1.1 prev rev hrow
    cases ho : extraTargets prev.toTargets record.toTargets with
    | some orphan => exact ok_setOp h' ⟨hvalid, ⟨rev, by rw [hview]; exact hrow⟩, ho⟩
    | none =>
      refine ok_setOp h' ⟨hvalid, fun t ht => ?_⟩
      rw [hview] at ht
      rcases mem_orphan_or_mem hprev record.toTargets ((h u).1.within hrow t ht) with ⟨_, ho', -⟩ | hm
      · rw [ho] at ho'; cases ho'
      · exact hm

theorem ok_sweepOne {w : World} (h : ∀ v, Ok (view w v)) (u : String) (now : Int) :
    ∀ v, Ok (view (w.sweepOne u now) v) := by
  unfold World.sweepOne
  cases hrow : w.db.row u with
  | none => exact h
  | some p =>
    obtain ⟨record, rev⟩ := p
    dsimp only
    split
    · exact ok_observe h now
    · exact ok_setOp (ok_observe h now) ⟨rev, by rw [view_observe]; exact hrow⟩

theorem ok_admitIfLive {w : World} (h : ∀ v, Ok (view w v)) (u : String) (now : Int) (matches_ : Bool) :
    ∀ v, Ok (view (w.admitIfLive u now matches_) v) := by
  unfold World.admitIfLive
  dsimp only
  rw [row_observe]
  cases hrow : (view w u).row with
  | none => exact ok_observe h now
  | some p =>
    obtain ⟨record, rev⟩ := p
    dsimp only
    split
    · exact ok_observe h now
    split
    · exact ok_observe h now
    · exact ok_setOp (ok_observe h now) ⟨rev, by rw [view_observe]; exact hrow⟩

/-- The event leaves the live orphan named: a covering write commits only for two channel
sets or when nothing of the orphan is live, and an apply that says it changed nothing
changed nothing. -/
def Kept (w : World) : Event → Prop
  | .put u true => match w.op u with
    | some (.covering record _ orphan) =>
      (record.mode = .channel ∧ orphan.mode = .channel) ∨ ∀ t ∈ orphan.list, ¬ w.isLive u t
    | _ => True
  | .settle u (.rejected (some false)) => match w.op u with
    | some (.applying _ false _) => ∀ t, ¬ w.isLive u t
    | _ => True
  | _ => True

theorem ok_put {w : World} (h : ∀ v, Ok (view w v)) (u : String) (commits : Bool) (hk : Kept w (.put u commits)) :
    ∀ v, Ok (view (w.put u commits) v) := by
  unfold World.put
  cases ho : w.op u with
  | none => exact h
  | some o =>
    have hf := (h u).2 o ho
    -- the row that a committed write leaves
    have commit : ∀ (r : Record) (x : Option Op), isValidRecord r = true → Within (view w u).live r.list →
        (∀ o', x = some o' → OpFacts ⟨some (r, w.db.nextRev.revSeq), (view w u).live, x⟩ o') →
        Ok ⟨some (r, w.db.nextRev.revSeq), (view w u).live, x⟩ := fun r x hv hw hx => ⟨tracked_of_row rfl hv hw, hx⟩
    cases o with
    | covering record prev orphan =>
      obtain ⟨hvalid, ⟨rev, hrow⟩, hext⟩ := hf
      have hprev := (h u).1.1 prev rev hrow
      have hlive := (h u).1.within hrow
      dsimp only
      split
      · rename_i hc
        subst hc
        simp only [Kept, ho] at hk
        have hcover : Within (view w u).live (coveringTargets record orphan).list := fun t ht => by
          rcases mem_orphan_or_mem hprev record.toTargets (hlive t ht) with ⟨o', ho', hm⟩ | hm
          · rw [hext] at ho'; cases ho'
            rcases hk with ⟨h1, h2⟩ | hk
            · exact mem_covering (.inr ⟨h1, h2, hm⟩)
            · exact absurd ht (hk t hm)
          · exact mem_covering (.inl hm)
        refine ok_of_member h (fun v hv => by rw [view_setOp_of_ne hv, view_put_of_ne hv]) ?_
        rw [view_setOp_self, view_put_self]
        exact commit _ _ (valid_covering hvalid hprev hext) hcover fun o' e => by
          cases e; exact ⟨hvalid, hprev, hlive, hext⟩
      · exact ok_done h
    | restoring prev =>
      dsimp only
      split
      · refine ok_of_member h (fun v hv => by rw [view_done_of_ne hv, view_put_of_ne hv]) ?_
        rw [view_done_self, view_put_self]
        exact commit _ _ hf.1 hf.2 nofun
      · exact ok_done h
    | writing record renewal =>
      dsimp only
      split
      · refine ok_of_member h (fun v hv => by rw [view_setOp_of_ne hv, view_put_of_ne hv]) ?_
        rw [view_setOp_self, view_put_self]
        exact commit _ _ hf.1 hf.2 fun o' e => by cases e; exact ⟨_, rfl⟩
      · exact ok_done h
    | _ => exact h

theorem Tracked.mono {v : View} (h : Tracked v) {live : Set Target} (hs : live ⊆ v.live) : Tracked { v with live := live } :=
  ⟨h.1, fun t ht => h.2 t (hs ht)⟩

theorem OpFacts.mono {v : View} {o : Op} (h : OpFacts v o) {live : Set Target} (hs : live ⊆ v.live) :
    OpFacts { v with live := live } o := by
  cases o with
  | covering => exact h
  | migrating => exact ⟨h.1, h.2.1, fun t ht => h.2.2.1 t (hs ht), h.2.2.2⟩
  | restoring => exact ⟨h.1, fun t ht => h.2 t (hs ht)⟩
  | writing => exact ⟨h.1, fun t ht => h.2 t (hs ht)⟩
  | applying => exact h
  | revoking => exact h
  | deleting => exact Set.subset_eq_empty hs h
  | admitting => exact h

theorem ok_takeBack {w : World} (h : ∀ v, Ok (view w v)) (u : String) (ts : List Target) :
    ∀ v, Ok (view (w.takeBack u ts) v) := by
  refine ok_of_member h (fun v hv => view_takeBack_of_ne hv w ts) ?_
  rw [view_takeBack_self]
  exact ⟨(h u).1.mono Set.sdiff_subset, fun o ho => ((h u).2 o ho).mono Set.sdiff_subset⟩

/-- Giving what the row names. -/
theorem ok_give {w : World} (h : ∀ v, Ok (view w v)) {u : String} {o : Op} (ho : w.op u = some o) {record : Record}
    {rev : Nat} (hrow : (view w u).row = some (record, rev))
    (hop : ∀ live : Set Target, OpFacts ⟨(view w u).row, live, some o⟩ o) {ts : List Target}
    (hts : ∀ t ∈ ts, t ∈ record.list) : ∀ v, Ok (view (w.give u ts) v) := by
  refine ok_of_member h (fun v hv => view_give_of_ne hv w ts) ?_
  rw [view_give_self]
  have hw : Within ({ t | t ∈ ts } ∪ (view w u).live) record.list := by
    rintro t (ht | ht)
    · exact hts t ht
    · exact (h u).1.within hrow t ht
  refine ⟨tracked_of_row hrow ((h u).1.1 _ _ hrow) hw, fun o' ho' => ?_⟩
  have ho' : w.op u = some o' := ho'
  rw [ho] at ho'; cases ho'
  have := hop ({ t | t ∈ ts } ∪ (view w u).live)
  rwa [← show (view w u).op = some o from ho] at this

theorem ok_effect {w : World} (h : ∀ v, Ok (view w v)) (u : String) (t : Target) :
    ∀ v, Ok (view (w.effect u t) v) := by
  unfold World.effect
  cases ho : w.op u with
  | none => exact h
  | some o =>
    have hf := (h u).2 o ho
    cases o with
    | migrating record prev orphan => dsimp only; split <;> first | exact ok_takeBack h u _ | exact h
    | revoking record rev => dsimp only; split <;> first | exact ok_takeBack h u _ | exact h
    | applying record renewal rev =>
      dsimp only
      split
      · obtain ⟨rev', hrow⟩ := hf
        exact ok_give h ho hrow (fun _ => ⟨rev', hrow⟩) fun x hx => by rwa [List.mem_singleton.1 hx]
      · exact h
    | admitting record =>
      dsimp only
      split
      · obtain ⟨rev', hrow⟩ := hf
        exact ok_give h ho hrow (fun _ => ⟨rev', hrow⟩) fun x hx => by rwa [List.mem_singleton.1 hx]
      · exact h
    | _ => exact h

theorem ok_settle {repairs : Bool} {w : World} (h : ∀ v, Ok (view w v)) (u : String) (outcome : Outcome)
    (hk : Kept w (.settle u outcome)) : ∀ v, Ok (view (w.settle repairs u outcome) v) := by
  unfold World.settle
  cases ho : w.op u with
  | none => exact h
  | some o =>
    have hf := (h u).2 o ho
    cases o with
    | migrating record prev orphan =>
      obtain ⟨hvalid, hprev, hlive, hext⟩ := hf
      cases outcome with
      | resolved =>
        refine ok_setOp (ok_takeBack h u _) ⟨hvalid, fun t ht => ?_⟩
        rw [view_takeBack_self] at ht
        rcases mem_orphan_or_mem hprev record.toTargets (hlive t ht.1) with ⟨o', ho', hm⟩ | hm
        · rw [hext] at ho'; cases ho'
          exact absurd hm ht.2
        · exact hm
      | rejected mutated => exact ok_setOp h ⟨hprev, hlive⟩
    | applying record renewal rev =>
      obtain ⟨rev', hrow⟩ := hf
      cases outcome with
      | resolved => exact ok_done (ok_give h ho hrow (fun _ => ⟨rev', hrow⟩) fun _ ht => ht)
      | rejected mutated =>
        dsimp only
        split
        · exact ok_done h
        rename_i hren
        split
        · rename_i hmut
          subst hmut
          have hren : renewal = false := by simpa using hren
          subst hren
          simp only [Kept, ho] at hk
          exact ok_setOp h (Set.eq_empty_iff_forall_notMem.2 hk)
        split
        · exact ok_done h
        · exact ok_setOp h ⟨rev', hrow⟩
    | revoking record rev =>
      obtain ⟨rev', hrow⟩ := hf
      cases outcome with
      | resolved =>
        refine ok_setOp (ok_takeBack h u _) (Set.eq_empty_iff_forall_notMem.2 fun t ht => ?_)
        rw [view_takeBack_self] at ht
        exact ht.2 ((h u).1.within hrow t ht.1)
      | rejected mutated => exact ok_done h
    | admitting record => exact ok_done h
    | _ => exact h

theorem ok_del {w : World} (h : ∀ v, Ok (view w v)) {u : String} {rev : Nat} (ho : w.op u = some (.deleting rev)) :
    ∀ v, Ok (view ((w.setDb (w.db.del u rev)).done u) v) := by
  have hlive : (view w u).live = ∅ := (h u).2 _ ho
  refine ok_of_member h (fun v hv => by rw [view_done_of_ne hv, view_del_of_ne hv]) ?_
  rw [view_done_self]
  refine ok_idle ?_
  rcases view_del_self w u rev with hv | hv
  · rw [hv]; exact (h u).1
  · rw [hv]
    exact ⟨nofun, fun t ht => by rw [hlive] at ht; cases ht⟩

theorem step_ok {repairs : Bool} {w : World} {e : Event} (h : ∀ v, Ok (view w v)) (hk : Kept w e) :
    ∀ v, Ok (view (step repairs w e) v) := by
  cases e with
  | grant u record now => dsimp only [step]; split <;> first | exact ok_grant h u record now | exact h
  | sweep now => exact ok_observe h now
  | sweepNext i now =>
    dsimp only [step]
    split
    · split
      · exact ok_sweepOne (w := { w with sweeps := w.sweeps.set i _ }) h _ now
      · exact h
    · exact h
  | admitIfLive u now m => dsimp only [step]; split <;> first | exact ok_admitIfLive h u now m | exact h
  | live now => exact ok_observe h now
  | nextRev u => dsimp only [step]; split <;> exact h
  | put u commits => exact ok_put h u commits hk
  | del u =>
    dsimp only [step]
    split
    · exact ok_del h ‹_›
    · exact h
  | effect u t => exact ok_effect h u t
  | settle u outcome => exact ok_settle h u outcome hk
  | stop => exact fun v => ok_idle (h v).1
  | start resetClock now =>
    dsimp only [step]
    split
    · intro v
      rw [view_of_grants (w := w) (by rw [grants_observeClock]) v]; exact h v
    · exact ok_observe h now

/-! ## Runs -/

/-- Every target that could be live is named by its member's row. -/
def Named (w : World) : Prop := ∀ u t, w.isLive u t → ∃ r rev, w.db.row u = some (r, rev) ∧ t ∈ r.list

/-- A ledger at rest: valid rows that name what is live, and nothing running. -/
def AtRest (w : World) : Prop :=
  (∀ u r rev, w.db.row u = some (r, rev) → isValidRecord r = true) ∧ Named w ∧ w.ops = []

/-- A covering write outside the condition leaves a live orphan unnamed. -/
theorem not_named_of_not_kept {w : World} (h : ∀ v, Ok (view w v)) {u : String} {record prev : Record} {orphan : Targets}
    (ho : w.op u = some (.covering record prev orphan)) (hk : ¬ Kept w (.put u true)) : ¬ Named (w.put u true) := by
  simp only [Kept, ho, not_or, not_forall, not_not] at hk
  obtain ⟨hm, t, ht, hlive⟩ := hk
  obtain ⟨-, -, hext⟩ := (h u).2 _ ho
  have hcov : coveringTargets record orphan = record := by
    rw [coveringTargets, if_pos]
    by_contra hc
    push Not at hc
    exact hm hc
  have hput : w.put u true = (w.setDb (w.db.put u record)).setOp u (.migrating record prev orphan) := by
    simp only [World.put, ho, if_true, hcov]
  intro hn
  obtain ⟨r, rev, hr, hmem⟩ := hn u t (by rw [hput]; exact hlive)
  have hrow : (view (w.put u true) u).row = some (record, w.db.nextRev.revSeq) := by
    rw [hput, view_setOp_self, view_put_self]
  have hr : (view (w.put u true) u).row = some (r, rev) := hr
  rw [hrow] at hr; cases hr
  exact notMem_of_mem_orphan hext ht hmem

/-! ## A renewal that switches role -/

def World.fresh : World := ⟨⟨[], 0, none, none⟩, [], [], []⟩

def roleGrant (id : String) : Record := ⟨⟨.role, [], some id⟩, 100⟩

/-- A member holds role `a`, and a renewal to role `b` has written its covering record. -/
def switchRun : List Event :=
  [.grant "m" (roleGrant "a") 0, .put "m" true, .settle "m" .resolved, .grant "m" (roleGrant "b") 0, .put "m" true]

end GrantLedger
