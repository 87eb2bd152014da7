import Mathlib.Data.List.Infix

/-!
# Files that a loss of power cuts

A file that is written at its end, with the bytes that a read sees and the bytes that are on the disk, and the work on a
handle of it. Any operation may fail, and a write may fail after a part of it. `Session.next_moves` says what an operation
does to the file, whatever its outcome.
-/

namespace Durable

/-! ## The disk -/

structure Disk where
  /-- What a read sees; none where there is no file. -/
  visible : Option (List UInt8)
  stable : List UInt8
  /-- The directory on the disk has the file. -/
  named : Bool

/-- How far two lists agree. -/
def agree {α : Type} [DecidableEq α] : List α → List α → Nat
  | a :: l, b :: m => if a = b then agree l m + 1 else 0
  | _, _ => 0

theorem length_le_agree {α : Type} [DecidableEq α] {p l m : List α} (hl : p <+: l) (hm : p <+: m) : p.length ≤ agree l m := by
  induction p generalizing l m with
  | nil => simp
  | cons a p ih =>
    obtain ⟨l, rfl⟩ := hl
    obtain ⟨m, rfl⟩ := hm
    simp [agree, ih]

namespace Disk

variable (d : Disk)

/-- A file whose name is on the disk is there. -/
def Entered : Prop := d.named = true → d.visible.isSome = true

def bytes : List UInt8 := d.visible.getD []

def append (chunk : List UInt8) : Disk := { d with visible := some (d.bytes ++ chunk) }

/-- `truncate(path, n)`, which fills a shorter file up. -/
def truncate (n : Nat) : Disk := { d with visible := d.visible.map fun b => b.take n ++ List.replicate (n - b.length) 0 }

def sync : Disk := { d with stable := d.bytes }

def syncDir : Disk := { d with named := d.named || d.visible.isSome }

/-- The system writes so many bytes to the disk, or those that are there already. -/
def writeBack (n : Nat) : Disk := { d with stable := d.bytes.take (max n (agree d.bytes d.stable)) }

/-- The power fails. A file whose name is not on the disk may be gone. -/
def powerLoss (kept : Bool) : Disk :=
  if d.visible.isSome && (d.named || kept) then ⟨some d.stable, d.stable, true⟩ else ⟨none, [], false⟩

@[simp] theorem bytes_append (chunk : List UInt8) : (d.append chunk).bytes = d.bytes ++ chunk := rfl

@[simp] theorem stable_append (chunk : List UInt8) : (d.append chunk).stable = d.stable := rfl

@[simp] theorem bytes_sync : d.sync.bytes = d.bytes := rfl

@[simp] theorem stable_sync : d.sync.stable = d.bytes := rfl

@[simp] theorem bytes_syncDir : d.syncDir.bytes = d.bytes := rfl

@[simp] theorem stable_syncDir : d.syncDir.stable = d.stable := rfl

@[simp] theorem bytes_writeBack (n : Nat) : (d.writeBack n).bytes = d.bytes := rfl

@[simp] theorem stable_truncate (n : Nat) : (d.truncate n).stable = d.stable := rfl

theorem bytes_truncate {n : Nat} (h : n ≤ d.bytes.length) : (d.truncate n).bytes = d.bytes.take n := by
  cases hv : d.visible with
  | none => simp [bytes, truncate, hv]
  | some b =>
    simp only [bytes, hv, Option.getD_some] at h
    simp [bytes, truncate, hv, Nat.sub_eq_zero_of_le h]

/-- The disk keeps what it has of the file. -/
theorem prefix_writeBack {p : List UInt8} (hb : p <+: d.bytes) (hs : p <+: d.stable) (n : Nat) :
    p <+: (d.writeBack n).stable := by
  apply List.prefix_take_iff.2
  refine ⟨hb, ?_⟩
  have := length_le_agree hb hs
  omega

theorem writeBack_prefix (n : Nat) : (d.writeBack n).stable <+: d.bytes := List.take_prefix _ _

end Disk

/-! ## The work on a handle -/

inductive Op
  | append (chunk : List UInt8)
  | sync
  | syncDir

/-- The flags of an `open`: `"a"`, `"r+"`, and `"r"` for a directory. -/
inductive Mode
  | append
  | existing
  | directory

/-- A handle that is opened for some operations; it is closed whether they succeed or not. -/
inductive Session
  | opening (mode : Mode) (todo : List Op)
  | doing (op : Op) (todo : List Op)
  | closing (ok : Bool)

inductive Outcome
  | done
  /-- A write fails after so many bytes. -/
  | fails (n : Nat)

inductive Turn
  | goes (s : Session)
  | returns
  | throws
  /-- There is no file. -/
  | missing

namespace Op

def chunk : Op → List UInt8
  | append c => c
  | _ => []

def run (d : Disk) : Op → Disk
  | append c => d.append c
  | sync => d.sync
  | syncDir => d.syncDir

def fail (d : Disk) (n : Nat) : Op → Disk
  | append c => d.append (c.take n)
  | _ => d

end Op

namespace Session

/-- At the first of these operations. -/
def start : List Op → Session
  | [] => closing true
  | op :: todo => doing op todo

/-- The file is opened. -/
def opened (d : Disk) (ops : List Op) : Mode → Disk × Turn
  | .append => (d.append [], .goes (start ops))
  | .existing => (d, if d.visible.isSome then .goes (start ops) else .missing)
  | .directory => (d, .goes (start ops))

def next (d : Disk) (s : Session) (o : Outcome) : Disk × Turn :=
  match s with
  | opening mode ops => match o with
    | .done => opened d ops mode
    | .fails _ => (d, .throws)
  | doing op ops => match o with
    | .done => (op.run d, .goes (start ops))
    | .fails n => (op.fail d n, .goes (closing false))
  | closing ok => match o with
    | .done => (d, if ok then .returns else .throws)
    | .fails _ => (d, .throws)

def todo : Session → List Op
  | opening _ ops => ops
  | doing op ops => op :: ops
  | closing _ => []

/-- What is still to be written. -/
def pending (s : Session) : List UInt8 := s.todo.flatMap Op.chunk

@[simp] theorem todo_opening (mode : Mode) (ops : List Op) : (opening mode ops).todo = ops := rfl

@[simp] theorem todo_doing (op : Op) (ops : List Op) : (doing op ops).todo = op :: ops := rfl

@[simp] theorem todo_closing (ok : Bool) : (closing ok).todo = [] := rfl

@[simp] theorem todo_start (ops : List Op) : (start ops).todo = ops := by cases ops <;> rfl

/-- What an operation of a handle does to the file. -/
structure Moves (d : Disk) (s : Session) (d' : Disk) : Prop where
  grows : d.bytes <+: d'.bytes
  within : d'.bytes <+: d.bytes ++ s.pending
  stable : d'.stable = d.stable ∨ d'.stable = d'.bytes
  named : d.named = true → d'.named = true
  visible : d.visible.isSome = true → d'.visible.isSome = true
  entered : d.Entered → d'.Entered

theorem Moves.of_eq (d : Disk) (s : Session) : Moves d s d :=
  ⟨List.prefix_rfl, List.prefix_append _ _, .inl rfl, id, id, id⟩

theorem Moves.of_append {d : Disk} {s : Session} {c : List UInt8} (h : c <+: s.pending) : Moves d s (d.append c) :=
  ⟨List.prefix_append _ _, (List.prefix_append_right_inj _).2 h, .inl rfl, id, fun _ => rfl, fun _ _ => rfl⟩

theorem moves_run (d : Disk) (op : Op) (ops : List Op) : Moves d (doing op ops) (op.run d) := by
  cases op with
  | append c =>
    apply Moves.of_append
    simp [pending, Op.chunk]
  | sync => exact ⟨List.prefix_rfl, List.prefix_append _ _, .inr rfl, id, id, id⟩
  | syncDir =>
    refine ⟨List.prefix_rfl, List.prefix_append _ _, .inl rfl, fun h => by simp [Op.run, Disk.syncDir, h], id, fun h => ?_⟩
    intro hn
    simp only [Op.run, Disk.syncDir, Bool.or_eq_true] at hn
    rcases hn with hn | hn
    · exact h hn
    · exact hn

theorem moves_fail (d : Disk) (n : Nat) (op : Op) (ops : List Op) : Moves d (doing op ops) (op.fail d n) := by
  cases op with
  | append c =>
    apply Moves.of_append
    apply (List.take_prefix n c).trans
    simp [pending, Op.chunk]
  | _ => exact .of_eq _ _

theorem next_moves {d d' : Disk} {s : Session} {o : Outcome} {t : Turn} (h : s.next d o = (d', t)) : Moves d s d' := by
  cases s with
  | opening mode ops =>
    cases o with
    | fails n => cases h; exact .of_eq _ _
    | done =>
      cases mode with
      | append => cases h; exact .of_append (List.nil_prefix)
      | existing => cases h; exact .of_eq _ _
      | directory => cases h; exact .of_eq _ _
  | doing op ops =>
    cases o with
    | done => cases h; exact moves_run d op ops
    | fails n => cases h; exact moves_fail d n op ops
  | closing ok => cases ok <;> cases o <;> cases h <;> exact .of_eq _ _

/-- A handle that stays good has done its first operation, and the rest of the text is still to come. -/
theorem next_goes {d d' : Disk} {s s' : Session} {o : Outcome} (h : s.next d o = (d', .goes s')) :
    s' = closing false ∨ (s' = start s'.todo ∧ d'.bytes ++ s'.pending = d.bytes ++ s.pending ∧
      ((s'.todo = s.todo ∧ ∃ mode ops, s = opening mode ops) ∨ ∃ op, s.todo = op :: s'.todo ∧ d' = op.run d)) := by
  cases s with
  | opening mode ops =>
    cases o with
    | fails n => cases h
    | done =>
      right
      cases mode with
      | append => cases h; exact ⟨by simp, by simp [pending], .inl ⟨todo_start ops, _, _, rfl⟩⟩
      | existing =>
        simp only [next, opened, Prod.mk.injEq] at h
        obtain ⟨rfl, h⟩ := h
        by_cases hv : d.visible.isSome = true
        · simp only [hv, if_true] at h
          cases h
          exact ⟨by simp, by simp [pending], .inl ⟨todo_start ops, _, _, rfl⟩⟩
        · simp only [hv] at h
          cases h
      | directory => cases h; exact ⟨by simp, by simp [pending], .inl ⟨todo_start ops, _, _, rfl⟩⟩
  | doing op ops =>
    cases o with
    | fails n => cases h; exact .inl rfl
    | done =>
      right
      cases h
      refine ⟨by simp, ?_, .inr ⟨op, by simp, rfl⟩⟩
      cases op <;> simp [pending, Op.run, Op.chunk]
  | closing ok => cases ok <;> cases o <;> cases h

theorem next_returns {d d' : Disk} {s : Session} {o : Outcome} (h : s.next d o = (d', .returns)) : s = closing true ∧ d' = d := by
  cases s with
  | opening mode ops =>
    cases o with
    | fails n => cases h
    | done =>
      cases mode with
      | existing =>
        simp only [next, opened, Prod.mk.injEq] at h
        have h := h.2
        split at h <;> cases h
      | _ => cases h
  | doing op ops => cases o <;> cases h
  | closing ok => cases ok <;> cases o <;> cases h <;> exact ⟨rfl, rfl⟩

/-! ## Operations that succeed -/

/-- The operations of a handle succeed one after the other, up to what the last one gives. -/
inductive Plays : Disk → Session → Disk → Turn → Prop
  | last {d d' : Disk} {s : Session} {t : Turn} (step : s.next d .done = (d', t)) (stops : ∀ s', t ≠ .goes s') : Plays d s d' t
  | goes {d d₁ d' : Disk} {s s₁ : Session} {t : Turn} (step : s.next d .done = (d₁, .goes s₁)) (rest : Plays d₁ s₁ d' t) :
      Plays d s d' t

theorem Plays.stops {d d' : Disk} {s : Session} {t : Turn} (h : Plays d s d' t) : ∀ s', t ≠ .goes s' := by
  induction h with
  | last step stops => exact stops
  | goes step rest ih => exact ih

variable {d : Disk} {ops : List Op}

theorem plays_start : Plays d (start ops) (ops.foldl Op.run d) .returns := by
  induction ops generalizing d with
  | nil => exact .last rfl nofun
  | cons op ops ih => exact .goes rfl ih

theorem plays_append : Plays d (opening .append ops) (ops.foldl Op.run (d.append [])) .returns := .goes rfl plays_start

theorem plays_directory : Plays d (opening .directory ops) (ops.foldl Op.run d) .returns := .goes rfl plays_start

theorem plays_existing (hv : d.visible.isSome = true) : Plays d (opening .existing ops) (ops.foldl Op.run d) .returns := by
  have hopen : next d (opening .existing ops) .done = (d, .goes (start ops)) := by rw [next, opened, if_pos hv]
  exact .goes hopen plays_start

theorem plays_missing (hv : ¬ d.visible.isSome = true) : Plays d (opening .existing ops) d .missing := by
  refine .last ?_ nofun
  rw [next, opened, if_neg hv]

theorem exists_plays (d : Disk) (s : Session) : ∃ d' t, Plays d s d' t := by
  cases s with
  | opening mode ops =>
    cases mode with
    | append => exact ⟨_, _, plays_append⟩
    | directory => exact ⟨_, _, plays_directory⟩
    | existing =>
      by_cases hv : d.visible.isSome = true
      · exact ⟨_, _, plays_existing hv⟩
      · exact ⟨_, _, plays_missing hv⟩
  | doing op ops => exact ⟨_, _, .goes rfl plays_start⟩
  | closing ok =>
    cases ok with
    | true => exact ⟨_, _, .last rfl nofun⟩
    | false => exact ⟨_, _, .last rfl nofun⟩

end Session

end Durable
