import MnoVerify.Ledger
import Mathlib.Logic.Function.Basic

/-!
# Several ledger processes on one database

The ledger when the exclusive lock does not hold: any number of processes, each with
its own per-member chains, on one database. An event is one SQL statement, one
transaction, or the settling of a platform call; the statements of the clock touch no
row, so a deadline check passes or fails freely. `shared_rows`: an allocated revision
is never given again, a conditional delete removes the version its call read or wrote,
and a row outlives its grant but for a revoke or a refused first grant that wrote over
it. `refused_over_granted` is the run in which that last case loses a row.
-/

namespace Ledger

variable {R O P : Type} [DecidableEq P] {A : Adapter R O}

/-- A member's chain in one process. -/
structure Chain (P : Type) where
  process : P
  userId : String
deriving DecidableEq

/-- The database and the processes on it. The last four fields record what the
statements have done: how many row versions there have been, which one each row is,
which one each chain has last read or written, and the revisions given to written rows. -/
structure Shared (P : Type) (A : Adapter R O) where
  db : Database A
  up : List P
  ops : List (Chain P × Op R O)
  versions : Nat
  current : String → Nat
  seen : Chain P → Nat
  given : List Nat

inductive SharedEvent (P R : Type)
  /-- A process opens the database: `#seedRevSeq`. -/
  | start (p : P)
  | stop (p : P)
  /-- `grant` reads the prior row. -/
  | grant (k : Chain P) (record : R)
  /-- `sweep` reads the row of a due member. -/
  | sweep (k : Chain P)
  /-- `admitIfLive` reads the row. -/
  | admitIfLive (k : Chain P)
  | chain (k : Chain P) (s : Stmt)

namespace Shared

def op (s : Shared P A) (k : Chain P) : Option (Op R O) := s.ops.lookup k

def setOp (s : Shared P A) (k : Chain P) (op : Op R O) : Shared P A := { s with ops := Assoc.set s.ops k op }

/-- A new operation of the chain may start. -/
def free (s : Shared P A) (k : Chain P) : Bool := decide (k.process ∈ s.up) && (s.op k).isNone

/-- The operation of the chain goes on. -/
def proceed (s : Shared P A) (k : Chain P) (r : Database A × Option (Op R O)) : Shared P A :=
  { s with
    db := r.1
    ops := match r.2 with
      | some op => Assoc.set s.ops k op
      | none => Assoc.erase s.ops k }

/-- A row version more, which the chain has written. -/
def wrote (s : Shared P A) (k : Chain P) (rev : Nat) : Shared P A :=
  { s with
    versions := s.versions + 1
    current := Function.update s.current k.userId s.versions
    seen := Function.update s.seen k s.versions
    given := s.given ++ [rev] }

def chain (s : Shared P A) (k : Chain P) (st : Stmt) : Shared P A :=
  match s.op k with
  | none => s
  | some op => match op, st with
    | .putting _ (some rev) _, .put => (s.proceed k (advance s.db k.userId op st)).wrote k rev
    | _, _ => s.proceed k (advance s.db k.userId op st)

def step (s : Shared P A) : SharedEvent P R → Shared P A
  | .start p => if p ∈ s.up then s else { s with db := s.db.seedRevSeq, up := p :: s.up }
  | .stop p => { s with up := s.up.filter fun q => decide (q ≠ p), ops := s.ops.filter fun c => decide (c.1.process ≠ p) }
  | .grant k record => if s.free k then s.setOp k (startGrant A (s.db.row k.userId) record) else s
  | .sweep k => match s.db.row k.userId with
    | none => s
    | some row =>
      if s.free k then
        { s.setOp k (.revoking row.record row.rev) with seen := Function.update s.seen k (s.current k.userId) }
      else s
  | .admitIfLive k => match s.db.row k.userId with
    | none => s
    | some row => if s.free k then s.setOp k (.admitting row.record) else s
  | .chain k st => s.chain k st

def run (s : Shared P A) (es : List (SharedEvent P R)) : Shared P A := es.foldl step s

/-- Nobody has the database open; its rows are the first versions. -/
structure Initial (s : Shared P A) : Prop where
  up : s.up = []
  ops : s.ops = []
  versions : s.versions = 1
  current : s.current = fun _ => 0
  given : s.given = []

/-! ## Operations -/

theorem op_setOp_self (s : Shared P A) (k : Chain P) (op : Op R O) : (s.setOp k op).op k = some op := by
  rw [setOp, Shared.op, Assoc.lookup_set_self]

theorem op_setOp_of_ne {k k' : Chain P} (h : k' ≠ k) (s : Shared P A) (op : Op R O) : (s.setOp k op).op k' = s.op k' := by
  rw [setOp, Shared.op, Assoc.lookup_set_of_ne h]; rfl

theorem op_proceed_self (s : Shared P A) (k : Chain P) (r : Database A × Option (Op R O)) : (s.proceed k r).op k = r.2 := by
  obtain ⟨db, _ | op⟩ := r
  · rw [proceed, Shared.op, Assoc.lookup_erase_self]
  · rw [proceed, Shared.op, Assoc.lookup_set_self]

theorem op_proceed_of_ne {k k' : Chain P} (h : k' ≠ k) (s : Shared P A) (r : Database A × Option (Op R O)) :
    (s.proceed k r).op k' = s.op k' := by
  obtain ⟨db, _ | op⟩ := r
  · rw [proceed, Shared.op, Assoc.lookup_erase_of_ne h]; rfl
  · rw [proceed, Shared.op, Assoc.lookup_set_of_ne h]; rfl

end Shared

/-- The revision that `#put` has allocated and not yet written. -/
def Op.pending : Op R O → Option Nat
  | .putting _ rev _ => rev
  | _ => none

/-- The revision of the row that the operation has read or written. -/
def Op.held : Op R O → Option Nat
  | .applying _ _ rev => some rev
  | .revoking _ rev => some rev
  | .deleting rev => some rev
  | _ => none

theorem held_settle {op op' : Op R O} {outcome : Outcome} (h : settle A op outcome = some op') :
    (∀ r, op'.held = some r → op.held = some r) ∧ ∀ r, op'.pending = some r → op.pending = some r := by
  unfold settle at h
  split at h
  · cases h; exact ⟨nofun, nofun⟩
  · split at h
    · cases h; exact ⟨nofun, nofun⟩
    · cases h
  · cases h
  · split at h
    · cases h
    split at h
    · cases h; exact ⟨fun r hr => hr, nofun⟩
    split at h
    · cases h
    · cases h; exact ⟨fun r hr => hr, nofun⟩
  · cases h; exact ⟨fun r hr => hr, nofun⟩
  · cases h
  · cases h
  · cases h; exact ⟨fun r hr => hr, fun r hr => hr⟩

/-- What a statement does: allocate, write, delete, or nothing to the database. -/
theorem advance_cases (db : Database A) (u : String) (op : Op R O) (s : Stmt) :
    (∃ record after, op = .putting record none after ∧ s = .nextRev ∧
      advance db u op s = (db.nextRev, some (.putting record (some db.freshRev) after))) ∨
    (∃ record rev after, op = .putting record (some rev) after ∧ s = .put ∧
      advance db u op s = (db.put u record rev, after.op record rev)) ∨
    (∃ rev, op = .deleting rev ∧ s = .del ∧ advance db u op s = (db.del u rev, none)) ∨
    ((∀ record rev after, op = .putting record (some rev) after → s ≠ .put) ∧ (advance db u op s).1 = db ∧
      ∀ op', (advance db u op s).2 = some op' →
        (∀ r, op'.held = some r → op.held = some r) ∧ ∀ r, op'.pending = some r → op.pending = some r) := by
  unfold advance
  split
  · rename_i record after
    exact .inl ⟨record, after, rfl, rfl, rfl⟩
  · rename_i record rev after
    exact .inr (.inl ⟨record, rev, after, rfl, rfl, rfl⟩)
  · exact .inr (.inr (.inr ⟨fun _ _ _ _ => nofun, rfl, nofun⟩))
  · rename_i rev
    exact .inr (.inr (.inl ⟨rev, rfl, rfl, rfl⟩))
  · rename_i outcome
    exact .inr (.inr (.inr ⟨fun _ _ _ _ => nofun, rfl, fun op' h => held_settle h⟩))
  · rename_i _ _ hput _ _
    refine .inr (.inr (.inr ⟨fun record rev after he hs => hput record rev after he hs, rfl, fun op' h => ?_⟩))
    cases h
    exact ⟨fun r hr => hr, fun r hr => hr⟩

/-- What a written operation goes on with holds the revision it wrote. -/
theorem after_op {after : After R O} {record : R} {rev : Nat} {op : Op R O} (h : after.op record rev = some op) :
    op.pending = none ∧ ∀ r, op.held = some r → r = rev := by
  cases after with
  | migrate => cases h; exact ⟨rfl, nofun⟩
  | restored => cases h
  | apply renewal => cases h; exact ⟨rfl, fun r hr => by cases hr; rfl⟩

namespace Shared

/-- What `chain` does: nothing, an allocation, a write, a conditional delete, or a change of the operation alone. -/
theorem chain_cases (s : Shared P A) (k : Chain P) (st : Stmt) :
    (s.op k = none ∧ s.chain k st = s) ∨
    (∃ record after, s.op k = some (.putting record none after) ∧ st = .nextRev ∧
      s.chain k st = s.proceed k (s.db.nextRev, some (.putting record (some s.db.freshRev) after))) ∨
    (∃ record rev after, s.op k = some (.putting record (some rev) after) ∧ st = .put ∧
      s.chain k st = (s.proceed k (s.db.put k.userId record rev, after.op record rev)).wrote k rev) ∨
    (∃ rev, s.op k = some (.deleting rev) ∧ st = .del ∧ s.chain k st = s.proceed k (s.db.del k.userId rev, none)) ∨
    (∃ op op', s.op k = some op ∧ s.chain k st = s.proceed k (s.db, op') ∧ ∀ op'', op' = some op'' →
      (∀ r, op''.held = some r → op.held = some r) ∧ ∀ r, op''.pending = some r → op.pending = some r) := by
  cases ho : s.op k with
  | none => exact .inl ⟨rfl, by rw [chain, ho]⟩
  | some op =>
    right
    have quiet (hne : ∀ record rev after, op = .putting record (some rev) after → st ≠ .put) :
        s.chain k st = s.proceed k (advance s.db k.userId op st) := by
      rw [chain, ho]
      dsimp only
      split
      · exact absurd rfl (hne _ _ _ rfl)
      · rfl
    rcases advance_cases s.db k.userId op st with ⟨record, after, rfl, rfl, hadv⟩ | ⟨record, rev, after, rfl, rfl, hadv⟩ |
      ⟨rev, rfl, rfl, hadv⟩ | ⟨hne, hdb, hop⟩
    · exact .inl ⟨record, after, rfl, rfl, by rw [quiet fun _ _ _ => nofun, hadv]⟩
    · refine .inr (.inl ⟨record, rev, after, rfl, rfl, ?_⟩)
      rw [chain, ho]
      dsimp only
      rw [hadv]
    · exact .inr (.inr (.inl ⟨rev, rfl, rfl, by rw [quiet fun _ _ _ => nofun, hadv]⟩))
    · refine .inr (.inr (.inr ⟨op, (advance s.db k.userId op st).2, rfl, ?_, hop⟩))
      rw [quiet hne]
      congr 1
      exact Prod.ext hdb rfl

/-! ## The invariant -/

structure Inv (initial : List Nat) (s : Shared P A) : Prop where
  rows : ∀ u row, s.db.row u = some row → row.rev ∈ initial ++ s.given
  held : ∀ k op rev, s.op k = some op → op.held = some rev → rev ∈ initial ++ s.given
  pending : ∀ k op rev, s.op k = some op → op.pending = some rev → rev ∉ initial ++ s.given
  apart : ∀ k k' op op' rev, s.op k = some op → s.op k' = some op' → op.pending = some rev →
    op'.pending = some rev → k = k'
  nodup : s.given.Nodup
  disjoint : ∀ r ∈ s.given, r ∉ initial
  /-- Before the first opening nothing runs; from then on the counter is above every revision. -/
  counted : (s.up = [] ∧ s.ops = [] ∧ s.given = [] ∧ ∀ r ∈ initial, r ≤ s.db.highestRev) ∨
    ∃ n, s.db.revSeq = some n ∧ (∀ r ∈ initial ++ s.given, r ≤ n) ∧
      ∀ k op rev, s.op k = some op → op.pending = some rev → rev ≤ n
  /-- A row at the revision that an operation holds is the version it has seen. -/
  seen : ∀ k op rev row, s.op k = some op → op.held = some rev → s.db.row k.userId = some row → row.rev = rev →
    s.current k.userId = s.seen k

/-- An event that leaves database, versions and revisions alone: each operation carries on what it held, or has
just read its row. -/
theorem Inv.of_ops {initial : List Nat} {s s' : Shared P A} (h : Inv initial s) (hdb : s'.db = s.db)
    (hgiven : s'.given = s.given) (hcur : s'.current = s.current)
    (hidle : s.up = [] → s.ops = [] → s'.up = [] ∧ s'.ops = [])
    (hops : ∀ k op, s'.op k = some op → (∃ op₀, s.op k = some op₀ ∧ s'.seen k = s.seen k ∧
        (∀ r, op.held = some r → op₀.held = some r) ∧ ∀ r, op.pending = some r → op₀.pending = some r) ∨
      (op.pending = none ∧ ∀ r, op.held = some r → (∃ row, s.db.row k.userId = some row ∧ row.rev = r) ∧
        s.current k.userId = s'.seen k)) : Inv initial s' := by
  have hold : ∀ k op rev, s'.op k = some op → op.pending = some rev → ∃ op₀, s.op k = some op₀ ∧ op₀.pending = some rev := by
    intro k op rev ho hp
    rcases hops k op ho with ⟨op₀, ho₀, -, -, hpend⟩ | ⟨hn, -⟩
    · exact ⟨op₀, ho₀, hpend rev hp⟩
    · rw [hn] at hp; cases hp
  refine ⟨?_, fun k op rev ho hh => ?_, fun k op rev ho hp => ?_, fun k k' op op' rev ho ho' hp hp' => ?_, ?_, ?_, ?_,
    fun k op rev row ho hh hrow hrev => ?_⟩
  · rw [hdb, hgiven]; exact h.rows
  · rw [hgiven]
    rcases hops k op ho with ⟨op₀, ho₀, -, hheld, -⟩ | ⟨-, hread⟩
    · exact h.held k op₀ rev ho₀ (hheld rev hh)
    · obtain ⟨⟨row, hrow, rfl⟩, -⟩ := hread rev hh
      exact h.rows _ row hrow
  · rw [hgiven]
    obtain ⟨op₀, ho₀, hp₀⟩ := hold k op rev ho hp
    exact h.pending k op₀ rev ho₀ hp₀
  · obtain ⟨op₀, ho₀, hp₀⟩ := hold k op rev ho hp
    obtain ⟨op₁, ho₁, hp₁⟩ := hold k' op' rev ho' hp'
    exact h.apart k k' op₀ op₁ rev ho₀ ho₁ hp₀ hp₁
  · rw [hgiven]; exact h.nodup
  · rw [hgiven]; exact h.disjoint
  · rw [hdb, hgiven]
    rcases h.counted with ⟨hup, hops', hg, hle⟩ | ⟨n, hn, hle, hpend⟩
    · exact .inl ⟨(hidle hup hops').1, (hidle hup hops').2, hg, hle⟩
    · refine .inr ⟨n, hn, hle, fun k op rev ho hp => ?_⟩
      obtain ⟨op₀, ho₀, hp₀⟩ := hold k op rev ho hp
      exact hpend k op₀ rev ho₀ hp₀
  · rw [hcur]
    rw [hdb] at hrow
    rcases hops k op ho with ⟨op₀, ho₀, hs, hheld, -⟩ | ⟨-, hread⟩
    · rw [hs]; exact h.seen k op₀ rev row ho₀ (hheld rev hh) hrow hrev
    · exact (hread rev hh).2

theorem row_seedRevSeq (db : Database A) (u : String) : db.seedRevSeq.row u = db.row u := rfl

theorem le_highestRev {db : Database A} {u : String} {row : Row A} (h : (u, row) ∈ db.grants) : row.rev ≤ db.highestRev := by
  have hm : row.rev ∈ db.grants.map fun p => p.2.rev := List.mem_map.2 ⟨(u, row), h, rfl⟩
  unfold Database.highestRev
  revert hm
  generalize (db.grants.map fun p => p.2.rev) = l
  induction l with
  | nil => intro hm; cases hm
  | cons n l ih =>
    intro hm
    rcases List.mem_cons.1 hm with hm | hm
    · exact hm.le.trans (le_max_left _ _)
    · exact (ih hm).trans (le_max_right _ _)

theorem Inv.start {initial : List Nat} {s : Shared P A} (h : Inv initial s) (p : P) :
    Inv initial { s with db := s.db.seedRevSeq, up := p :: s.up } := by
  refine ⟨h.rows, h.held, h.pending, h.apart, h.nodup, h.disjoint, .inr ?_, h.seen⟩
  rcases h.counted with ⟨-, hops, hg, hle⟩ | ⟨n, hn, hle, hpend⟩
  · refine ⟨_, rfl, fun r hr => ?_, fun k op rev ho => ?_⟩
    · rw [hg, List.append_nil] at hr
      exact (hle r hr).trans (le_max_right _ _)
    · rw [show ({ s with db := s.db.seedRevSeq, up := p :: s.up } : Shared P A).op k = none by rw [Shared.op, hops]; rfl] at ho
      cases ho
  · have hmax : n ≤ max (s.db.revSeq.getD 0) s.db.highestRev := by rw [hn]; exact le_max_left _ _
    exact ⟨_, rfl, fun r hr => (hle r hr).trans hmax, fun k op rev ho hp => (hpend k op rev ho hp).trans hmax⟩

/-- With an operation running, the counter is above every revision. -/
theorem Inv.count {initial : List Nat} {s : Shared P A} (h : Inv initial s) {k : Chain P} {op : Op R O}
    (ho : s.op k = some op) : ∃ n, s.db.revSeq = some n ∧ (∀ r ∈ initial ++ s.given, r ≤ n) ∧
      ∀ k op rev, s.op k = some op → op.pending = some rev → rev ≤ n := by
  refine h.counted.resolve_left fun ⟨_, hops, _⟩ => ?_
  rw [Shared.op, hops] at ho
  cases ho

theorem Inv.nextRev {initial : List Nat} {s : Shared P A} (h : Inv initial s) {k : Chain P} {record : R}
    {after : After R O} (ho : s.op k = some (.putting record none after)) :
    Inv initial (s.proceed k (s.db.nextRev, some (.putting record (some s.db.freshRev) after))) := by
  obtain ⟨n, hn, hle, hpend⟩ := h.count ho
  have hfresh : s.db.freshRev = n + 1 := by rw [Database.freshRev, hn]
  have hself := op_proceed_self s k (s.db.nextRev, some (.putting record (some s.db.freshRev) after))
  have hother {k' : Chain P} (hk : k' ≠ k) :=
    op_proceed_of_ne hk s (s.db.nextRev, some (.putting record (some s.db.freshRev) after))
  refine ⟨h.rows, fun k' op rev ho' hh => ?_, fun k' op rev ho' hp => ?_, fun k₁ k₂ op₁ op₂ rev h₁ h₂ hp₁ hp₂ => ?_,
    h.nodup, h.disjoint, .inr ⟨n + 1, by rw [← hfresh]; rfl, fun r hr => (hle r hr).trans n.le_succ,
      fun k' op rev ho' hp => ?_⟩, fun k' op rev row ho' hh hrow hrev => ?_⟩
  · by_cases hk : k' = k
    · subst hk; rw [hself] at ho'; cases ho'; cases hh
    · rw [hother hk] at ho'; exact h.held k' op rev ho' hh
  · by_cases hk : k' = k
    · subst hk; rw [hself] at ho'; cases ho'; cases hp
      intro hr
      have hr' := hle _ hr
      omega
    · rw [hother hk] at ho'; exact h.pending k' op rev ho' hp
  · have hbound {k' : Chain P} {op : Op R O} (hk : k' ≠ k)
        (ho' : (s.proceed k (s.db.nextRev, some (.putting record (some s.db.freshRev) after))).op k' = some op)
        (hp : op.pending = some rev) : rev ≤ n := by
      rw [hother hk] at ho'; exact hpend k' op rev ho' hp
    have hnew {op : Op R O}
        (ho' : (s.proceed k (s.db.nextRev, some (.putting record (some s.db.freshRev) after))).op k = some op)
        (hp : op.pending = some rev) : rev = n + 1 := by
      rw [hself] at ho'; cases ho'; cases hp; exact hfresh
    by_cases hk₁ : k₁ = k
    · by_cases hk₂ : k₂ = k
      · rw [hk₁, hk₂]
      · have := hnew (hk₁ ▸ h₁) hp₁
        have := hbound hk₂ h₂ hp₂
        omega
    · by_cases hk₂ : k₂ = k
      · have := hnew (hk₂ ▸ h₂) hp₂
        have := hbound hk₁ h₁ hp₁
        omega
      · rw [hother hk₁] at h₁
        rw [hother hk₂] at h₂
        exact h.apart k₁ k₂ op₁ op₂ rev h₁ h₂ hp₁ hp₂
  · by_cases hk : k' = k
    · subst hk; rw [hself] at ho'; cases ho'; cases hp; omega
    · rw [hother hk] at ho'
      exact (hpend k' op rev ho' hp).trans n.le_succ
  · by_cases hk : k' = k
    · subst hk; rw [hself] at ho'; cases ho'; cases hh
    · rw [hother hk] at ho'; exact h.seen k' op rev row ho' hh hrow hrev

theorem row_put_self (db : Database A) (u : String) (record : R) (rev : Nat) :
    ∃ row, (db.put u record rev).row u = some row ∧ row.record = record ∧ row.rev = rev :=
  ⟨⟨record, A.expiresAt record, rev, le_rfl⟩, Assoc.lookup_set_self db.grants u _, rfl, rfl⟩

theorem row_put_of_ne {u u' : String} (h : u' ≠ u) (db : Database A) (record : R) (rev : Nat) :
    (db.put u record rev).row u' = db.row u' := Assoc.lookup_set_of_ne h db.grants _

theorem Inv.put {initial : List Nat} {s : Shared P A} (h : Inv initial s) {k : Chain P} {record : R} {rev : Nat}
    {after : After R O} (ho : s.op k = some (.putting record (some rev) after)) :
    Inv initial ((s.proceed k (s.db.put k.userId record rev, after.op record rev)).wrote k rev) := by
  obtain ⟨n, hn, hle, hpend⟩ := h.count ho
  have hnew : rev ∉ initial ++ s.given := h.pending k _ rev ho rfl
  have hself := op_proceed_self s k (s.db.put k.userId record rev, after.op record rev)
  have hother {k' : Chain P} (hk : k' ≠ k) := op_proceed_of_ne hk s (s.db.put k.userId record rev, after.op record rev)
  have hused {r : Nat} (hr : r ∈ initial ++ s.given) : r ∈ initial ++ (s.given ++ [rev]) := by
    rw [← List.append_assoc]; exact List.mem_append_left _ hr
  have hback {r : Nat} (hr : r ∈ initial ++ (s.given ++ [rev])) : r ∈ initial ++ s.given ∨ r = rev := by
    rw [← List.append_assoc] at hr
    exact (List.mem_append.1 hr).imp_right List.mem_singleton.1
  have hlast : rev ∈ initial ++ (s.given ++ [rev]) := by simp
  obtain ⟨new, hrow_new, -, hrev_new⟩ := row_put_self s.db k.userId record rev
  refine ⟨fun u row hrow => ?_, fun k' op r ho' hh => ?_, fun k' op r ho' hp => ?_,
    fun k₁ k₂ op₁ op₂ r h₁ h₂ hp₁ hp₂ => ?_, ?_, fun r hr => ?_, .inr ⟨n, hn, fun r hr => ?_, fun k' op r ho' hp => ?_⟩,
    fun k' op r row ho' hh hrow hrev => ?_⟩
  · by_cases hu : u = k.userId
    · subst hu
      rw [show row = new from Option.some.inj (hrow.symm.trans hrow_new), hrev_new]
      exact hlast
    · exact hused (h.rows u row ((row_put_of_ne hu s.db record rev).symm.trans hrow))
  · by_cases hk : k' = k
    · subst hk
      rw [(after_op (hself.symm.trans ho')).2 r hh]
      exact hlast
    · exact hused (h.held k' op r ((hother hk).symm.trans ho') hh)
  · by_cases hk : k' = k
    · subst hk
      rw [(after_op (hself.symm.trans ho')).1] at hp; cases hp
    · have ho₀ : s.op k' = some op := (hother hk).symm.trans ho'
      intro hr
      rcases hback hr with hr | rfl
      · exact h.pending k' op r ho₀ hp hr
      · exact hk (h.apart k' k op _ r ho₀ ho hp rfl)
  · have hne {k' : Chain P} {op : Op R O} (ho' : (s.proceed k (s.db.put k.userId record rev, after.op record rev)).op k' =
        some op) (hp : op.pending = some r) : k' ≠ k := by
      rintro rfl
      rw [(after_op (hself.symm.trans ho')).1] at hp; cases hp
    exact h.apart k₁ k₂ op₁ op₂ r ((hother (hne h₁ hp₁)).symm.trans h₁) ((hother (hne h₂ hp₂)).symm.trans h₂) hp₁ hp₂
  · exact List.nodup_append.2 ⟨h.nodup, by simp, fun a ha b hb => by
      rw [List.mem_singleton.1 hb]
      rintro rfl
      exact hnew (List.mem_append_right _ ha)⟩
  · rcases List.mem_append.1 hr with hr | hr
    · exact h.disjoint r hr
    · rw [List.mem_singleton.1 hr]
      exact fun hi => hnew (List.mem_append_left _ hi)
  · rcases hback hr with hr | rfl
    · exact hle r hr
    · exact hpend k _ r ho rfl
  · by_cases hk : k' = k
    · subst hk
      rw [(after_op (hself.symm.trans ho')).1] at hp; cases hp
    · exact hpend k' op r ((hother hk).symm.trans ho') hp
  · by_cases hk : k' = k
    · subst hk
      show Function.update s.current k'.userId s.versions k'.userId = Function.update s.seen k' s.versions k'
      rw [Function.update_self, Function.update_self]
    · have ho₀ : s.op k' = some op := (hother hk).symm.trans ho'
      show Function.update s.current k.userId s.versions k'.userId = Function.update s.seen k s.versions k'
      rw [Function.update_of_ne hk]
      by_cases hu : k'.userId = k.userId
      · -- the row is the one just written, at a revision that nobody held
        have hrow : (s.db.put k.userId record rev).row k.userId = some row := hu ▸ hrow
        rw [show row = new from Option.some.inj (hrow.symm.trans hrow_new), hrev_new] at hrev
        exact absurd (h.held k' op r ho₀ hh) (hrev ▸ hnew)
      · rw [Function.update_of_ne hu]
        exact h.seen k' op r row ho₀ hh ((row_put_of_ne hu s.db record rev).symm.trans hrow) hrev

theorem row_of_row_del {db : Database A} {u u' : String} {rev : Nat} {row : Row A} (h : (db.del u rev).row u' = some row) :
    db.row u' = some row := by
  unfold Database.del at h
  split at h
  · by_cases hu : u' = u
    · rw [hu, Database.row, Assoc.lookup_erase_self] at h; cases h
    · rw [Database.row, Assoc.lookup_erase_of_ne hu] at h; exact h
  · exact h

theorem revSeq_del (db : Database A) (u : String) (rev : Nat) : (db.del u rev).revSeq = db.revSeq := by
  unfold Database.del
  split <;> rfl

theorem Inv.del {initial : List Nat} {s : Shared P A} (h : Inv initial s) {k : Chain P} {rev : Nat}
    (ho : s.op k = some (.deleting rev)) : Inv initial (s.proceed k (s.db.del k.userId rev, none)) := by
  have hop {k' : Chain P} {op : Op R O} (ho' : (s.proceed k (s.db.del k.userId rev, none)).op k' = some op) :
      s.op k' = some op := by
    by_cases hk : k' = k
    · subst hk; rw [op_proceed_self] at ho'; cases ho'
    · rwa [op_proceed_of_ne hk] at ho'
  obtain ⟨n, hn, hle, hpend⟩ := h.count ho
  exact ⟨fun u row hrow => h.rows u row (row_of_row_del hrow), fun k' op r ho' => h.held k' op r (hop ho'),
    fun k' op r ho' => h.pending k' op r (hop ho'),
    fun k₁ k₂ op₁ op₂ r h₁ h₂ => h.apart k₁ k₂ op₁ op₂ r (hop h₁) (hop h₂), h.nodup, h.disjoint,
    .inr ⟨n, (revSeq_del s.db k.userId rev).trans hn, hle, fun k' op r ho' => hpend k' op r (hop ho')⟩,
    fun k' op r row ho' hh hrow => h.seen k' op r row (hop ho') hh (row_of_row_del hrow)⟩

theorem startGrant_spec (prev : Option (Row A)) (record : R) :
    (startGrant A prev record).pending = none ∧ (startGrant A prev record).held = none := by
  cases prev with
  | none => exact ⟨rfl, rfl⟩
  | some prev =>
    dsimp only [startGrant]
    cases A.orphaned prev.record record with
    | none => exact ⟨rfl, rfl⟩
    | some orphan =>
      dsimp only
      cases A.covering record orphan <;> exact ⟨rfl, rfl⟩

/-- A chain starts an operation that holds nothing, or the row it has just read. -/
theorem Inv.setOp {initial : List Nat} {s : Shared P A} (h : Inv initial s) {k : Chain P} (hf : s.free k = true)
    {op : Op R O} {g : Chain P → Nat} (hseen : ∀ k', k' ≠ k → g k' = s.seen k') (hp : op.pending = none)
    (hh : ∀ r, op.held = some r → (∃ row, s.db.row k.userId = some row ∧ row.rev = r) ∧ s.current k.userId = g k) :
    Inv initial { s.setOp k op with seen := g } := by
  have hup : k.process ∈ s.up := by
    simp only [Shared.free, Bool.and_eq_true, decide_eq_true_eq] at hf
    exact hf.1
  refine h.of_ops rfl rfl rfl (fun hnil => by rw [hnil] at hup; cases hup) fun k' op' ho => ?_
  by_cases hk : k' = k
  · subst hk
    have ho : some op = some op' := (op_setOp_self s k' op).symm.trans ho
    cases ho
    exact .inr ⟨hp, hh⟩
  · have ho : s.op k' = some op' := (op_setOp_of_ne hk s op).symm.trans ho
    exact .inl ⟨op', ho, hseen k' hk, fun r hr => hr, fun r hr => hr⟩

theorem Inv.chain {initial : List Nat} {s : Shared P A} (h : Inv initial s) (k : Chain P) (st : Stmt) :
    Inv initial (s.chain k st) := by
  rcases chain_cases s k st with ⟨-, heq⟩ | ⟨record, after, ho, -, heq⟩ | ⟨record, rev, after, ho, -, heq⟩ |
    ⟨rev, ho, -, heq⟩ | ⟨op, op', ho, heq, hop⟩
  · rw [heq]; exact h
  · rw [heq]; exact h.nextRev ho
  · rw [heq]; exact h.put ho
  · rw [heq]; exact h.del ho
  · rw [heq]
    refine h.of_ops rfl rfl rfl (fun _ hnil => ?_) fun k' op'' ho' => ?_
    · rw [Shared.op, hnil] at ho; cases ho
    · by_cases hk : k' = k
      · subst hk
        obtain ⟨hheld, hpend⟩ := hop op'' ((op_proceed_self s k' (s.db, op')).symm.trans ho')
        exact .inl ⟨op, ho, rfl, hheld, hpend⟩
      · exact .inl ⟨op'', (op_proceed_of_ne hk s _).symm.trans ho', rfl, fun r hr => hr, fun r hr => hr⟩

theorem Inv.step {initial : List Nat} {s : Shared P A} (h : Inv initial s) (e : SharedEvent P R) :
    Inv initial (s.step e) := by
  cases e with
  | start p =>
    dsimp only [Shared.step]
    split
    · exact h
    · exact h.start p
  | stop p =>
    refine h.of_ops rfl rfl rfl (fun hup hops => ?_) fun k op ho => ?_
    · simp only [Shared.step, hup, hops, List.filter_nil, and_self]
    · have ho : (s.ops.filter fun c => decide (c.1.process ≠ p)).lookup k = some op := ho
      rw [Assoc.lookup_filter fun k : Chain P => decide (k.process ≠ p)] at ho
      split at ho
      · exact .inl ⟨op, ho, rfl, fun r hr => hr, fun r hr => hr⟩
      · cases ho
  | grant k record =>
    dsimp only [Shared.step]
    split
    · obtain ⟨hp, hh⟩ := startGrant_spec (s.db.row k.userId) record
      exact h.setOp (g := s.seen) ‹_› (fun _ _ => rfl) hp fun r hr => by rw [hh] at hr; cases hr
    · exact h
  | sweep k =>
    dsimp only [Shared.step]
    cases hrow : s.db.row k.userId with
    | none => exact h
    | some row =>
      dsimp only
      split
      · refine h.setOp ‹_› (fun k' hk => Function.update_of_ne hk _ _) rfl fun r hr => ⟨⟨row, hrow, ?_⟩, ?_⟩
        · cases hr; rfl
        · rw [Function.update_self]
      · exact h
  | admitIfLive k =>
    dsimp only [Shared.step]
    cases hrow : s.db.row k.userId with
    | none => exact h
    | some row =>
      dsimp only
      split
      · exact h.setOp (g := s.seen) ‹_› (fun _ _ => rfl) rfl nofun
      · exact h
  | chain k st => exact h.chain k st

theorem Inv.run {initial : List Nat} {es : List (SharedEvent P R)} : ∀ {s : Shared P A}, Inv initial s →
    Inv initial (s.run es) := by
  induction es with
  | nil => exact fun h => h
  | cons e es ih => exact fun h => ih (h.step e)

theorem inv_of_initial {s : Shared P A} (h : s.Initial) : Inv (s.db.grants.map fun p => p.2.rev) s := by
  have hop (k : Chain P) : s.op k = none := by rw [Shared.op, h.ops]; rfl
  refine ⟨fun u row hrow => ?_, fun k op rev ho => ?_, fun k op rev ho => ?_, fun k k' op op' rev ho => ?_, ?_, ?_,
    .inl ⟨h.up, h.ops, h.given, fun r hr => ?_⟩, fun k op rev row ho => ?_⟩
  · exact List.mem_append_left _ (List.mem_map.2 ⟨(u, row), Assoc.mem_of_lookup hrow, rfl⟩)
  · rw [hop] at ho; cases ho
  · rw [hop] at ho; cases ho
  · rw [hop] at ho; cases ho
  · rw [h.given]; exact List.nodup_nil
  · rw [h.given]; nofun
  · obtain ⟨⟨u, row⟩, hm, rfl⟩ := List.mem_map.1 hr
    exact le_highestRev hm
  · rw [hop] at ho; cases ho

/-! ## The version a delete removes -/

theorem del_cases (s : Shared P A) (k : Chain P) : (s.chain k .del).db = s.db ∨
    ∃ rev, s.op k = some (.deleting rev) ∧ (s.chain k .del).db = s.db.del k.userId rev := by
  rcases chain_cases s k .del with ⟨-, heq⟩ | ⟨_, _, _, h, _⟩ | ⟨_, _, _, _, h, _⟩ | ⟨rev, ho, -, heq⟩ | ⟨op, op', -, heq, -⟩
  · exact .inl (by rw [heq])
  · cases h
  · cases h
  · exact .inr ⟨rev, ho, by rw [heq]; rfl⟩
  · exact .inl (by rw [heq]; rfl)

theorem removed_seen {initial : List Nat} {s : Shared P A} (h : Inv initial s) {k : Chain P} {u : String}
    (hne : (s.chain k .del).db.row u ≠ s.db.row u) :
    u = k.userId ∧ (s.chain k .del).db.row u = none ∧ s.current u = s.seen k := by
  rcases del_cases s k with hdb | ⟨rev, ho, hdb⟩
  · rw [hdb] at hne; exact absurd rfl hne
  rw [hdb] at hne ⊢
  unfold Database.del at hne ⊢
  split at hne
  · rename_i hrev
    rw [if_pos hrev]
    obtain ⟨row, hrow, hr⟩ := Option.map_eq_some_iff.1 hrev
    by_cases hu : u = k.userId
    · subst hu
      exact ⟨rfl, Assoc.lookup_erase_self _ _, h.seen k _ rev row ho rfl hrow hr⟩
    · exact absurd (Assoc.lookup_erase_of_ne hu _) hne
  · exact absurd rfl hne

/-! ## What may remove the row of a grant -/

end Shared

/-- The revision at which the operation may go on to delete the row. -/
def Op.deletes : Op R O → Option Nat
  | .revoking _ rev => some rev
  | .deleting rev => some rev
  | _ => none

/-- An operation comes to delete at a revision only from a revoke or from a first grant that is refused unchanged. -/
theorem deletes_advance {db : Database A} {u : String} {op op' : Op R O} {st : Stmt}
    (h : (advance db u op st).2 = some op') {rev : Nat} (hd : op'.deletes = some rev) :
    op.deletes = some rev ∨ ∃ record, op = .applying record false rev ∧
      (st = .settle (.rejected (some false)) ∨ op' = .revoking record rev) := by
  unfold advance at h
  split at h
  · cases h; cases hd
  · rename_i record rev' after
    cases after with
    | migrate => cases h; cases hd
    | restored => cases h
    | apply => cases h; cases hd
  · cases h
  · cases h
  · rename_i outcome
    unfold settle at h
    split at h
    · cases h; cases hd
    · split at h
      · cases h; cases hd
      · cases h
    · cases h
    · rename_i record renewal rev' mutated
      split at h
      · cases h
      · rename_i hren
        have hren : renewal = false := by simpa using hren
        subst hren
        split at h
        · rename_i hmut
          subst hmut
          cases h; cases hd
          exact .inr ⟨record, rfl, .inl rfl⟩
        split at h
        · cases h
        · cases h; cases hd
          exact .inr ⟨record, rfl, .inr rfl⟩
    · cases h; exact .inl hd
    · cases h
    · cases h
    · cases h; exact .inl hd
  · cases h; exact .inl hd

theorem deletes_startGrant (prev : Option (Row A)) (record : R) : (startGrant A prev record).deletes = none := by
  cases prev with
  | none => rfl
  | some prev =>
    dsimp only [startGrant]
    cases A.orphaned prev.record record with
    | none => rfl
    | some orphan =>
      dsimp only
      cases A.covering record orphan <;> rfl

theorem deletes_after {after : After R O} {record : R} {rev : Nat} {op : Op R O} (h : after.op record rev = some op) :
    op.deletes = none := by
  cases after with
  | migrate => cases h; rfl
  | restored => cases h
  | apply => cases h; rfl

theorem held_of_deletes {op : Op R O} {rev : Nat} (h : op.deletes = some rev) : op.held = some rev := by
  cases op <;> first | exact h | cases h

namespace Shared

/-- The event calls no revoke of the member's row, and refuses no first grant of the member as unchanged but for one
that had written its row in `s₀`. -/
def Spares (s₀ : Shared P A) (u : String) (s : Shared P A) (e : SharedEvent P R) : Prop :=
  (∀ k record rev, k.userId = u → (s.step e).op k = some (.revoking record rev) →
    s.op k = some (.revoking record rev)) ∧
  ∀ k record rev, k.userId = u → e = .chain k (.settle (.rejected (some false))) →
    s.op k = some (.applying record false rev) → s₀.op k = some (.applying record false rev)

/-- The member has a row newer than the revisions of `s₀`, and only those may be deleted. -/
structure Kept (initial : List Nat) (s₀ : Shared P A) (u : String) (s : Shared P A) : Prop where
  inv : Inv initial s
  used : ∀ r ∈ initial ++ s₀.given, r ∈ initial ++ s.given
  row : ∃ row, s.db.row u = some row ∧ row.rev ∉ initial ++ s₀.given
  old : ∀ k op rev, k.userId = u → s.op k = some op → op.deletes = some rev → rev ∈ initial ++ s₀.given

theorem op_chain_self {s : Shared P A} {k : Chain P} {op : Op R O} (ho : s.op k = some op) (st : Stmt) :
    (s.chain k st).op k = (advance s.db k.userId op st).2 := by
  rw [chain, ho]
  dsimp only
  split
  · exact op_proceed_self s k _
  · exact op_proceed_self s k _

theorem op_chain_of_ne {k k' : Chain P} (hk : k' ≠ k) (s : Shared P A) (st : Stmt) : (s.chain k st).op k' = s.op k' := by
  unfold chain
  split
  · rfl
  split
  · exact op_proceed_of_ne hk s _
  · exact op_proceed_of_ne hk s _

/-- An operation that may delete the member's row does so at an old revision. -/
theorem Kept.old_chain {initial : List Nat} {s₀ s : Shared P A} {u : String} (h₀ : Inv initial s₀)
    (h : Kept initial s₀ u s) {k : Chain P} {st : Stmt} (hs : Spares s₀ u s (.chain k st)) {k' : Chain P} {op : Op R O}
    {rev : Nat} (hu : k'.userId = u) (ho : (s.chain k st).op k' = some op) (hd : op.deletes = some rev) :
    rev ∈ initial ++ s₀.given := by
  by_cases hk : k' = k
  · subst hk
    cases ho₀ : s.op k' with
    | none =>
      rw [chain, ho₀] at ho
      exact absurd (ho₀.symm.trans ho) (by simp)
    | some op₀ =>
      rcases deletes_advance ((op_chain_self ho₀ st).symm.trans ho) hd with hd₀ | ⟨record, rfl, rfl | rfl⟩
      · exact h.old k' op₀ rev hu ho₀ hd₀
      · exact h₀.held k' _ rev (hs.2 k' record rev hu rfl ho₀) rfl
      · have hr := hs.1 k' record rev hu ho
        rw [ho₀] at hr
        cases hr
  · rw [op_chain_of_ne hk] at ho
    exact h.old k' op rev hu ho hd

theorem Kept.chain {initial : List Nat} {s₀ s : Shared P A} {u : String} (h₀ : Inv initial s₀) (h : Kept initial s₀ u s)
    {k : Chain P} {st : Stmt} (hs : Spares s₀ u s (.chain k st)) : Kept initial s₀ u (s.chain k st) := by
  obtain ⟨row, hrow, hnew⟩ := h.row
  have hold : ∀ k' op rev, k'.userId = u → (s.chain k st).op k' = some op → op.deletes = some rev →
      rev ∈ initial ++ s₀.given := fun k' op rev hu ho hd => h.old_chain h₀ hs hu ho hd
  have hinv := h.inv.chain k st
  rcases chain_cases s k st with ⟨-, heq⟩ | ⟨record, after, ho, -, heq⟩ | ⟨record, rev, after, ho, -, heq⟩ |
    ⟨rev, ho, -, heq⟩ | ⟨op, op', ho, heq, -⟩
  · rw [heq]; exact h
  · exact ⟨hinv, by rw [heq]; exact h.used, ⟨row, by rw [heq]; exact hrow, hnew⟩, hold⟩
  · have hfresh : rev ∉ initial ++ s.given := h.inv.pending k _ rev ho rfl
    refine ⟨hinv, fun r hr => ?_, ?_, hold⟩
    · rw [heq]
      show r ∈ initial ++ (s.given ++ [rev])
      rw [← List.append_assoc]
      exact List.mem_append_left _ (h.used r hr)
    · rw [heq]
      by_cases hu : u = k.userId
      · subst hu
        obtain ⟨new, hrow', -, hrev⟩ := row_put_self s.db k.userId record rev
        exact ⟨new, hrow', by rw [hrev]; exact fun hr => hfresh (h.used rev hr)⟩
      · exact ⟨row, (row_put_of_ne hu s.db record rev).trans hrow, hnew⟩
  · refine ⟨hinv, by rw [heq]; exact h.used, ⟨row, ?_, hnew⟩, hold⟩
    rw [heq]
    show (s.db.del k.userId rev).row u = some row
    unfold Database.del
    split
    · rename_i hrev
      by_cases hu : u = k.userId
      · subst hu
        -- the delete is at an old revision, the row at a new one
        have hold' := h.old k _ rev rfl ho rfl
        rw [hrow] at hrev
        rw [show row.rev = rev from Option.some.inj hrev] at hnew
        exact absurd hold' hnew
      · exact (Assoc.lookup_erase_of_ne hu _).trans hrow
    · exact hrow
  · exact ⟨hinv, by rw [heq]; exact h.used, ⟨row, by rw [heq]; exact hrow, hnew⟩, hold⟩

theorem Kept.step {initial : List Nat} {s₀ s : Shared P A} {u : String} (h₀ : Inv initial s₀) (h : Kept initial s₀ u s)
    {e : SharedEvent P R} (hs : Spares s₀ u s e) : Kept initial s₀ u (s.step e) := by
  have hinv := h.inv.step e
  cases e with
  | start p =>
    dsimp only [Shared.step] at hinv ⊢
    split
    · exact h
    · rw [if_neg ‹_›] at hinv
      exact ⟨hinv, h.used, h.row, h.old⟩
  | stop p =>
    refine ⟨hinv, h.used, h.row, fun k op rev hu ho hd => ?_⟩
    have ho : (s.ops.filter fun c => decide (c.1.process ≠ p)).lookup k = some op := ho
    rw [Assoc.lookup_filter fun k : Chain P => decide (k.process ≠ p)] at ho
    split at ho
    · exact h.old k op rev hu ho hd
    · cases ho
  | grant k record =>
    dsimp only [Shared.step] at hinv ⊢
    split
    · rw [if_pos ‹_›] at hinv
      refine ⟨hinv, h.used, h.row, fun k' op rev hu ho hd => ?_⟩
      by_cases hk : k' = k
      · subst hk
        rw [op_setOp_self] at ho
        cases ho
        rw [deletes_startGrant] at hd; cases hd
      · rw [op_setOp_of_ne hk] at ho
        exact h.old k' op rev hu ho hd
    · exact h
  | sweep k =>
    have hspare := hs.1
    dsimp only [Shared.step] at hinv hspare ⊢
    cases hrow : s.db.row k.userId with
    | none => exact h
    | some row =>
      rw [hrow] at hinv hspare
      dsimp only at hinv hspare ⊢
      split
      · rename_i hf
        rw [if_pos hf] at hinv hspare
        refine ⟨hinv, h.used, h.row, fun k' op rev hu ho hd => ?_⟩
        by_cases hk : k' = k
        · subst hk
          have ho₁ := hspare k' row.record row.rev hu (op_setOp_self s k' _)
          simp only [Shared.free, Bool.and_eq_true, Option.isNone_iff_eq_none] at hf
          rw [hf.2] at ho₁; cases ho₁
        · exact h.old k' op rev hu ((op_setOp_of_ne hk s _).symm.trans ho) hd
      · exact h
  | admitIfLive k =>
    dsimp only [Shared.step] at hinv ⊢
    cases hrow : s.db.row k.userId with
    | none => exact h
    | some row =>
      rw [hrow] at hinv
      dsimp only at hinv ⊢
      split
      · rw [if_pos ‹_›] at hinv
        refine ⟨hinv, h.used, h.row, fun k' op rev hu ho hd => ?_⟩
        by_cases hk : k' = k
        · subst hk
          rw [op_setOp_self] at ho
          cases ho; cases hd
        · rw [op_setOp_of_ne hk] at ho
          exact h.old k' op rev hu ho hd
      · exact h
  | chain k st => exact h.chain h₀ hs

/-- The row is there when the grant has just written it. -/
theorem kept_of_write {initial : List Nat} {s : Shared P A} (h : Inv initial s) {k : Chain P} {record : R} {rev : Nat}
    {after : After R O} (ho : s.op k = some (.putting record (some rev) after)) :
    Kept initial s k.userId (s.chain k .put) := by
  have hfresh : rev ∉ initial ++ s.given := h.pending k _ rev ho rfl
  have hinv := h.chain k .put
  have heq : s.chain k .put = (s.proceed k (s.db.put k.userId record rev, after.op record rev)).wrote k rev := by
    rw [chain, ho]; rfl
  refine ⟨hinv, fun r hr => ?_, ?_, fun k' op r hu ho' hd => ?_⟩
  · rw [heq]
    show r ∈ initial ++ (s.given ++ [rev])
    rw [← List.append_assoc]
    exact List.mem_append_left _ hr
  · obtain ⟨new, hrow, -, hrev⟩ := row_put_self s.db k.userId record rev
    exact ⟨new, by rw [heq]; exact hrow, by rw [hrev]; exact hfresh⟩
  · by_cases hk : k' = k
    · subst hk
      rw [op_chain_self ho] at ho'
      rw [deletes_after ho'] at hd; cases hd
    · rw [op_chain_of_ne hk] at ho'
      exact h.held k' op r ho' (held_of_deletes hd)

/-- In any interleaving: a revision given to a written row is given to no other version, a conditional delete removes
the version that its call read or wrote and nothing else, and the row that a grant has written stays while no revoke of
the member's row is called and no first grant that wrote the row since is refused unchanged. -/
theorem shared_rows {s₀ : Shared P A} (h₀ : s₀.Initial) (es : List (SharedEvent P R)) {s : Shared P A}
    (hs : s₀.run es = s) :
    (s.given.Nodup ∧ ∀ u row, s₀.db.row u = some row → row.rev ∉ s.given) ∧
    (∀ k u, (s.chain k .del).db.row u ≠ s.db.row u →
      u = k.userId ∧ (s.chain k .del).db.row u = none ∧ s.current u = s.seen k) ∧
    ∀ k record rev renewal, s.op k = some (.putting record (some rev) (.apply renewal)) → ∀ t,
      Relation.ReflTransGen (fun a b => ∃ e, Spares s k.userId a e ∧ b = a.step e) (s.chain k .put) t →
      (t.db.row k.userId).isSome = true := by
  have h : Inv (s₀.db.grants.map fun p => p.2.rev) s := hs ▸ (inv_of_initial h₀).run
  refine ⟨⟨h.nodup, fun u row hrow hg => ?_⟩, fun k u hne => removed_seen h hne, fun k record rev renewal ho t ht => ?_⟩
  · exact h.disjoint _ hg (List.mem_map.2 ⟨(u, row), Assoc.mem_of_lookup hrow, rfl⟩)
  · have hk : Kept (s₀.db.grants.map fun p => p.2.rev) s k.userId t := by
      induction ht with
      | refl => exact kept_of_write h ho
      | tail _ he ih =>
        obtain ⟨e, hspare, rfl⟩ := he
        exact ih.step h hspare
    obtain ⟨row, hrow, -⟩ := hk.row
    rw [hrow]; rfl

/-! ## A first grant refused over another -/

/-- A revoke of the member's row is in flight. -/
def revoking (s : Shared P A) (u : String) : Bool := s.ops.any fun c => match c.2 with
  | .revoking _ _ => decide (c.1.userId = u)
  | _ => false

def empty : Shared Bool deadlineOnly :=
  ⟨⟨[], none, none, none, none, false⟩, [], [], 1, fun _ => 0, fun _ => 0, []⟩

theorem initial_empty : empty.Initial := ⟨rfl, rfl, rfl, rfl, rfl⟩

/-- Both processes find no row for `m`, and the grant of the first is applied. -/
def appliedRun : List (SharedEvent Bool ℚ) :=
  [.start true, .start false, .grant ⟨false, "m"⟩ 100, .grant ⟨true, "m"⟩ 100, .chain ⟨true, "m"⟩ .nextRev,
    .chain ⟨true, "m"⟩ .put]

theorem shared_rows_written : (((empty.run (appliedRun.take 5)).chain ⟨true, "m"⟩ .put).db.row "m").isSome = true := by
  have ho : (empty.run (appliedRun.take 5)).op ⟨true, "m"⟩ = some (.putting 100 (some 1) (.apply false)) := rfl
  exact (@shared_rows _ _ Bool _ deadlineOnly empty initial_empty (appliedRun.take 5) _ rfl).2.2 ⟨true, "m"⟩ 100 1 false
    ho _ .refl

/-- The second then writes over the row, its apply is refused with nothing changed, and its delete takes the row. -/
def refusedRun : List (SharedEvent Bool ℚ) :=
  [.chain ⟨false, "m"⟩ .nextRev, .chain ⟨false, "m"⟩ .put, .chain ⟨false, "m"⟩ (.settle (.rejected (some false))),
    .chain ⟨false, "m"⟩ .del]

/-- A grant resolves, no revoke is called, and the member has no row. -/
theorem refused_over_granted : ¬ ∀ (es : List (SharedEvent Bool ℚ)) (k : Chain Bool) (record : ℚ) (renewal : Bool)
    (rev : Nat), (empty.run es).op k = some (.applying record renewal rev) → ∀ t,
    Relation.ReflTransGen (fun a b => ∃ e, b = a.step e ∧ b.revoking k.userId = false)
      ((empty.run es).chain k (.settle .resolved)) t →
    (t.db.row k.userId).isSome = true := by
  intro h
  have hrun : Relation.ReflTransGen (fun a b : Shared Bool deadlineOnly => ∃ e, b = a.step e ∧ b.revoking "m" = false)
      ((empty.run appliedRun).chain ⟨true, "m"⟩ (.settle .resolved))
      (((empty.run appliedRun).chain ⟨true, "m"⟩ (.settle .resolved)).run refusedRun) :=
    .tail (.tail (.tail (.tail .refl ⟨.chain ⟨false, "m"⟩ .nextRev, rfl, by decide +kernel⟩)
      ⟨.chain ⟨false, "m"⟩ .put, rfl, by decide +kernel⟩)
      ⟨.chain ⟨false, "m"⟩ (.settle (.rejected (some false))), rfl, by decide +kernel⟩)
      ⟨.chain ⟨false, "m"⟩ .del, rfl, by decide +kernel⟩
  have hrow := h appliedRun ⟨true, "m"⟩ 100 false 1 rfl _ hrun
  exact absurd hrow (by decide +kernel)

end Shared

end Ledger
