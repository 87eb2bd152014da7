import MnoVerify.RegistrationBackendSound

/-!
# Runs of the file backend

`Core` says what holds in every state of a process: which lines are on the disk and which of them the maps are of, what each
call knows where it stands, and what the flags promise. A lemma for each kind of step says that it is kept, whatever the
operation does: `Core.call`, `Core.load` and `Core.attemptStep`.
-/

namespace RegistrationBackend

open Registration RegistrationFile
open Durable (Disk Session Op Outcome)

variable {cfg : Config} {R R' : Record → Prop} {C C' D D' : List (List Char)} {d d' : Disk}

/-! ## More lines on the disk -/

theorem Grown.pre (h : Grown cfg R C C') : C <+: C' := by
  obtain ⟨ms, -, rfl⟩ := h
  exact List.prefix_append _ _

theorem Grown.more (h : Grown cfg R C C') (hC : Good cfg C) : Extends (view C) (view C') := by
  obtain ⟨ms, hms, rfl⟩ := h
  exact hms.more hC.coherent

/-- The record is in its place, or is the next one. -/
def Due (C : List (List Char)) (r : Record) : Prop := Next C r ∨ Placed C r

theorem Next.congr (h : view C' = view C) {r : Record} (hr : Next C r) : Next C' r := by
  obtain ⟨hu, hn, hi, hd⟩ := hr
  exact ⟨hu, by rw [h, hn], by rw [h, hi], by rwa [h]⟩

theorem Grown.due (h : Grown cfg R C C') (hC : Good cfg C) {r : Record} (hR : ∀ q, R q → q = r) (hr : Due C r) : Due C' r := by
  rcases hr with hr | hr
  · obtain ⟨ms, hms, rfl⟩ := h
    rcases hms.cases with hnone | ⟨q, hq, hn, hRq⟩
    · exact .inl (hr.congr (view_append hnone))
    · -- The record that came in is this one.
      obtain rfl := hR q hRq
      exact .inr (placed_remember hC.coherent hn hq)
  · exact .inr (hr.more (h.more hC))

/-! ## Disks that a read does not tell apart -/

theorem LoadOk.still {pc : LoadPc} (h : LoadOk cfg R C d pc) (hb : d'.bytes = d.bytes)
    (hv : d.visible.isSome = true → d'.visible.isSome = true) (hn : d.named = true → d'.named = true) : LoadOk cfg R C d' pc := by
  have whole : ∀ {V}, Whole cfg R C d V → Whole cfg R C d' V := fun h => ⟨hb.trans h.1, h.2⟩
  have works : ∀ {V s}, Works cfg R C d V s → Works cfg R C d' V s := by
    intro V s h
    cases h with
    | toward h => exact .toward ⟨h.lines, by rw [hb]; exact h.text, h.flushes⟩
    | whole h => exact .whole (whole h)
    | failed => exact .failed
  cases pc with
  | mkdir => trivial
  | reading => trivial
  | truncating n s =>
    obtain ⟨H, h1, h2, h3, h4⟩ := h
    exact ⟨H, h1, h2, by rwa [hb], h4⟩
  | repairing w ix seenHeader =>
    obtain ⟨V, hw, h⟩ := h
    exact ⟨V, works hw, h⟩
  | stamping w ix =>
    obtain ⟨V, hw, h⟩ := h
    exact ⟨V, works hw, h⟩
  | naming w ix =>
    obtain ⟨V, hV, h1, h2, h3, h4⟩ := h
    refine ⟨V, whole hV, h1, h2, hv h3, ?_⟩
    rcases h4 with h4 | h4 | ⟨h4, h5⟩ | h4
    · exact .inl h4
    · exact .inr (.inl h4)
    · exact .inr (.inr (.inl ⟨h4, hn h5⟩))
    · exact .inr (.inr (.inr h4))

theorem Installed.still {ix : Index} (h : Installed cfg R C d ix) (hb : d'.bytes = d.bytes) : Installed cfg R C d' ix := by
  obtain ⟨V, hV, h⟩ := h
  exact ⟨V, ⟨hb.trans hV.1, hV.2⟩, h⟩

/-- A work that writes nothing, such as a barrier. -/
theorem DiskOk.still {s : Session} (hd : DiskOk cfg R C d) (h : s.Moves d d') (hs : s.pending = []) :
    DiskOk cfg R C d' ∧ d'.bytes = d.bytes := by
  obtain ⟨-, ms, hms, htext⟩ := hd.visible
  refine ⟨hd.moves h hms (by rwa [hs, List.append_nil]), ?_⟩
  have hw := h.within
  rw [hs, List.append_nil] at hw
  exact List.IsPrefix.eq_of_length_le hw h.grows.length_le

theorem DiskOk.writeBack (hd : DiskOk cfg R C d) (n : Nat) : DiskOk cfg R C (d.writeBack n) := by
  obtain ⟨hC, ms, hms, htext⟩ := hd.visible
  refine ⟨hd.good, hd.visible, ⟨Disk.prefix_writeBack _ hC hd.stable.1 n, ms, hms.mono fun _ _ => trivial, ?_⟩, hd.entered⟩
  exact (Disk.writeBack_prefix _ n).trans htext

theorem pending_goes {s s' : Session} {o : Outcome} (hs : s.pending = []) (hn : s.next d o = (d', .goes s')) : s'.pending = [] := by
  rcases Session.next_goes hn with rfl | ⟨-, htext, -⟩
  · rfl
  · have hm := Session.next_moves hn
    have hlen := hm.grows.length_le
    rw [hs, List.append_nil] at htext
    have := congrArg List.length htext
    rw [List.length_append] at this
    exact List.length_eq_zero_iff.1 (by omega)

/-! ## What holds of the calls -/

def Kind.isAppend : Kind → Prop
  | .read _ => False
  | .append _ => True

/-- The record is the one that the append was given, at some index. -/
def Kind.Gives (k : Kind) (r : Record) : Prop := ∃ g dr, k = .append g ∧ g.check = .ok dr ∧ r = dr.record r.index

theorem Kind.Gives.isAppend {k : Kind} {r : Record} (h : k.Gives r) : k.isAppend := by
  obtain ⟨g, dr, rfl, -⟩ := h
  trivial

/-- The write of a record behind the lines, while the maps are theirs. -/
structure Writer (cfg : Config) (R : Record → Prop) (C D : List (List Char)) (d : Disk) (ix : Index) (s : Session) (r : Record) :
    Prop where
  lines : ∃ H, Fresh cfg R C H ∧ recordsOf H = [] ∧ headed (C ++ H) = true ∧ Toward cfg R C d s (C ++ H ++ [recordText r])
  next : Next C r
  base : Next D r
  only : ∀ q, R q → q = r
  index : ix = view C

theorem Writer.still {ix : Index} {s : Session} {r : Record} (h : Writer cfg R C D d ix s r) (hb : d'.bytes = d.bytes) :
    Writer cfg R C D d' ix s r := by
  obtain ⟨⟨H, h1, h2, h3, h4⟩, hnext, hbase, honly, hix⟩ := h
  exact ⟨⟨H, h1, h2, h3, h4.lines, by rw [hb]; exact h4.text, h4.flushes⟩, hnext, hbase, honly, hix⟩

/-- A write that has failed may have left its record, and no other. -/
structure Unsure (R : Record → Prop) (C D : List (List Char)) (r : Record) : Prop where
  only : ∀ q, R q → q = r
  line : Due C r
  base : Due D r

/-- What holds of a call where it stands. -/
def CallOk (cfg : Config) (w : World) (C D : List (List Char)) (R : Record → Prop) (i : Nat) (k : Kind) : Pc → Prop
  | .idle => True
  | .queued => True
  | .entering => ¬ k.isAppend
  | .waiting => k.isAppend → w.proc.tail.head? = some i
  | .loaded ok => (k.isAppend → w.proc.tail.head? = some i) ∧ (ok = true → w.proc.loading = .fulfilled)
  | .joining => (k.isAppend → w.proc.tail.head? = some i) ∧ w.proc.loading = .fulfilled
  | .joined ok => (k.isAppend → w.proc.tail.head? = some i ∧ (ok = true → w.proc.stale = false)) ∧ w.proc.loading = .fulfilled
  | .current => (k.isAppend → w.proc.tail.head? = some i ∧ w.proc.stale = false) ∧ w.proc.loading = .fulfilled
  | .writing s r => k.Gives r ∧ w.proc.tail.head? = some i ∧ w.proc.loading = .fulfilled ∧
      ((s = .closing true ∧ (∀ q, R q → q = r) ∧ Placed C r ∧ Placed D r) ∨ (s = .closing false ∧ Unsure R C D r) ∨
        (w.proc.stale = false ∧ Writer cfg R C D w.disk w.proc.index s r))
  | .barring s r => k.Gives r ∧ w.proc.tail.head? = some i ∧ w.proc.loading = .fulfilled ∧ s.pending = [] ∧ Unsure R C D r
  | .settling r => k.Gives r ∧ w.proc.tail.head? = some i ∧ w.proc.loading = .fulfilled ∧ Unsure R C D r
  | .settled r _ => k.Gives r ∧ w.proc.tail.head? = some i ∧ w.proc.loading = .fulfilled ∧ Unsure R C D r
  | .replied _ => True
  | .rejected => True

/-- The maps are those of lines that are on the disk, and have every record that was acknowledged. -/
structure Based (cfg : Config) (w : World) (C D : List (List Char)) : Prop where
  good : Good cfg D
  pre : D <+: C
  more : Extends (view D) (view C)
  index : w.proc.index = view D
  ensured : w.proc.dirEnsured = true
  acked : ∀ r ∈ w.acked, Placed D r

def AttemptOk (cfg : Config) (R : Record → Prop) (C : List (List Char)) (w : World) : Attempt → Prop
  | .barrier s => s.pending = []
  | .loading pc => LoadOk cfg R C w.disk pc
  | .returned ok => ok = true → Installed cfg R C w.disk w.proc.index

/-- No write is on its way. -/
def Calm (w : World) : Prop := ∀ i s r, w.proc.calls i = .writing s r → ∃ ok, s = .closing ok

/-- What holds in every state: `C` are the complete lines on the disk, and `D` those of the maps. -/
structure Core (cfg : Config) (kind : Nat → Kind) (w : World) (C D : List (List Char)) (R : Record → Prop) : Prop where
  disk : DiskOk cfg R C w.disk
  acked : ∀ r ∈ w.acked, Placed C r
  named : w.acked ≠ [] → w.disk.named = true
  ensured : w.proc.dirEnsured = true → w.disk.named = true
  unbarriered : w.proc.unbarriered = true → w.proc.stale = true
  running : ∀ pc, w.proc.loading = .running pc → LoadOk cfg R C w.disk pc
  based : w.proc.loading = .fulfilled → Based cfg w C D
  behind : w.proc.stale = true → w.proc.loading = .fulfilled
  attempt : ∀ a, w.proc.reconciling = some a → AttemptOk cfg R C w a ∧ w.proc.loading = .fulfilled ∧
    (w.proc.stale = true ∨ ∃ i r, w.proc.calls i = .settling r)
  calm : w.proc.loading = .fulfilled → w.proc.stale = false → w.proc.reconciling = none → Calm w →
    Installed cfg R C w.disk w.proc.index
  tail : ∀ i ∈ w.proc.tail, (kind i).isAppend
  replies : ∀ i n, w.proc.calls i = .replied (.append (.stored n)) → ∃ r ∈ w.acked, (kind i).Gives r ∧ r.index = n
  calls : ∀ i, CallOk cfg w C D R i (kind i) (w.proc.calls i)

section
variable {kind : Nat → Kind} {w w' : World}

/-! ## The other calls -/

theorem Based.congr (h : Based cfg w C D) (hi : w'.proc.index = w.proc.index) (he : w'.proc.dirEnsured = w.proc.dirEnsured)
    (ha : w'.acked = w.acked) : Based cfg w' C D :=
  ⟨h.good, h.pre, h.more, hi.trans h.index, he.trans h.ensured, by rw [ha]; exact h.acked⟩

/-- What holds of a call is about its process alone. -/
theorem CallOk.mono {i : Nat} {k : Kind} {pc : Pc} (h : CallOk cfg w C D R i k pc)
    (ht : w.proc.tail.head? = some i → w'.proc.tail.head? = some i)
    (hl : w.proc.loading = .fulfilled → w'.proc.loading = .fulfilled) (hs : w'.proc.stale = w.proc.stale)
    (hd : w'.disk.bytes = w.disk.bytes) (hi : w'.proc.index = w.proc.index) : CallOk cfg w' C D R i k pc := by
  cases pc with
  | idle => trivial
  | queued => trivial
  | entering => exact h
  | waiting => exact fun hk => ht (h hk)
  | loaded ok => exact ⟨fun hk => ht (h.1 hk), fun ho => hl (h.2 ho)⟩
  | joining => exact ⟨fun hk => ht (h.1 hk), hl h.2⟩
  | joined ok => exact ⟨fun hk => ⟨ht (h.1 hk).1, by rw [hs]; exact (h.1 hk).2⟩, hl h.2⟩
  | current => exact ⟨fun hk => ⟨ht (h.1 hk).1, by rw [hs]; exact (h.1 hk).2⟩, hl h.2⟩
  | writing s r =>
    obtain ⟨hk, hh, hf, hw⟩ := h
    refine ⟨hk, ht hh, hl hf, ?_⟩
    rw [hs, hi]
    exact hw.imp_right fun hw => hw.imp_right fun hw => ⟨hw.1, hw.2.still hd⟩
  | barring s r => exact ⟨h.1, ht h.2.1, hl h.2.2.1, h.2.2.2⟩
  | settling r => exact ⟨h.1, ht h.2.1, hl h.2.2.1, h.2.2.2⟩
  | settled r ok => exact ⟨h.1, ht h.2.1, hl h.2.2.1, h.2.2.2⟩
  | replied a => trivial
  | rejected => trivial

/-- A call that is no append, or is behind another, has no part in the file. -/
theorem CallOk.other {i : Nat} {k : Kind} {pc : Pc} (h : CallOk cfg w C D R i k pc)
    (hnot : k.isAppend → w.proc.tail.head? ≠ some i) (hl : w.proc.loading = .fulfilled → w'.proc.loading = .fulfilled) :
    CallOk cfg w' C' D' R' i k pc := by
  cases pc with
  | idle => trivial
  | queued => trivial
  | entering => exact h
  | waiting => exact fun hk => absurd (h hk) (hnot hk)
  | loaded ok => exact ⟨fun hk => absurd (h.1 hk) (hnot hk), fun ho => hl (h.2 ho)⟩
  | joining => exact ⟨fun hk => absurd (h.1 hk) (hnot hk), hl h.2⟩
  | joined ok => exact ⟨fun hk => absurd (h.1 hk).1 (hnot hk), hl h.2⟩
  | current => exact ⟨fun hk => absurd (h.1 hk).1 (hnot hk), hl h.2⟩
  | writing s r => exact absurd h.2.1 (hnot h.1.isAppend)
  | barring s r => exact absurd h.2.1 (hnot h.1.isAppend)
  | settling r => exact absurd h.2.1 (hnot h.1.isAppend)
  | settled r ok => exact absurd h.2.1 (hnot h.1.isAppend)
  | replied a => trivial
  | rejected => trivial

theorem Core.not_head (h : Core cfg kind w C D R) {i j : Nat} (hh : w.proc.tail.head? = some i) (hj : j ≠ i) :
    (kind j).isAppend → w.proc.tail.head? ≠ some j := by
  intro _ hj'
  rw [hh, Option.some.injEq] at hj'
  exact hj hj'.symm

/-- The append whose turn it is takes a step. -/
theorem Core.calls_of (h : Core cfg kind w C D R) {i : Nat} (hh : w.proc.tail.head? = some i)
    (hothers : ∀ j, j ≠ i → w'.proc.calls j = w.proc.calls j) (hl : w.proc.loading = .fulfilled → w'.proc.loading = .fulfilled)
    (hi : CallOk cfg w' C' D' R' i (kind i) (w'.proc.calls i)) : ∀ j, CallOk cfg w' C' D' R' j (kind j) (w'.proc.calls j) := by
  intro j
  by_cases hj : j = i
  · rw [hj]
    exact hi
  · rw [hothers j hj]
    exact (h.calls j).other (h.not_head hh hj) hl

theorem goto_self (p : Proc) (i : Nat) (pc : Pc) : (p.goto i pc).calls i = pc := by simp [Proc.goto]

theorem goto_ne (p : Proc) {i j : Nat} (pc : Pc) (h : j ≠ i) : (p.goto i pc).calls j = p.calls j := by simp [Proc.goto, h]

/-- A call that neither writes nor waits for its write goes on. -/
structure Free (w : World) (i : Nat) : Prop where
  writes : ∀ s r, w.proc.calls i = .writing s r → ∃ ok, s = .closing ok
  settles : ∀ r, w.proc.calls i ≠ .settling r

theorem Free.calm {i : Nat} (hi : Free w i) (hothers : ∀ j, j ≠ i → w'.proc.calls j = w.proc.calls j) (h : Calm w') : Calm w := by
  intro j s r hj
  by_cases hji : j = i
  · rw [hji] at hj
    exact hi.writes s r hj
  · exact h j s r (by rw [hothers j hji, hj])

theorem Free.settling {i : Nat} (hi : Free w i) {calls : Nat → Pc} (hothers : ∀ j, j ≠ i → calls j = w.proc.calls j)
    (h : ∃ j r, w.proc.calls j = .settling r) : ∃ j r, calls j = .settling r := by
  obtain ⟨j, r, hj⟩ := h
  have hji : j ≠ i := by
    rintro rfl
    exact hi.settles r hj
  exact ⟨j, r, by rw [hothers j hji, hj]⟩

theorem Core.replies_goto (h : Core cfg kind w C D R) {i : Nat} {pc : Pc} (hpc : ∀ n, pc ≠ .replied (.append (.stored n))) :
    ∀ j n, (w.proc.goto i pc).calls j = .replied (.append (.stored n)) → ∃ r ∈ w.acked, (kind j).Gives r ∧ r.index = n := by
  intro j n hj
  by_cases hji : j = i
  · rw [hji, goto_self] at hj
    exact absurd hj (hpc n)
  · rw [goto_ne w.proc pc hji] at hj
    exact h.replies j n hj

theorem Core.goto (h : Core cfg kind w C D R) {i : Nat} {pc : Pc} (hi : Free w i) (hpc : CallOk cfg w C D R i (kind i) pc)
    (hnew : ∀ n, pc ≠ .replied (.append (.stored n))) : Core cfg kind { w with proc := w.proc.goto i pc } C D R := by
  have hothers : ∀ j, j ≠ i → (w.proc.goto i pc).calls j = w.proc.calls j := fun j => goto_ne w.proc pc
  refine { h with
    based := fun hf => (h.based hf).congr rfl rfl rfl
    attempt := fun a ha => ?_
    calm := fun hf hs hr hc => ?_
    replies := h.replies_goto hnew
    calls := fun j => ?_ }
  · obtain ⟨h1, h2, h3⟩ := h.attempt a ha
    refine ⟨?_, h2, h3.imp_right (hi.settling hothers)⟩
    cases a <;> exact h1
  · exact h.calm hf hs hr (hi.calm hothers hc)
  · by_cases hj : j = i
    · rw [hj]
      change CallOk cfg _ C D R i (kind i) ((w.proc.goto i pc).calls i)
      rw [goto_self]
      exact hpc.mono id id rfl rfl rfl
    · change CallOk cfg _ C D R j (kind j) ((w.proc.goto i pc).calls j)
      rw [hothers j hj]
      exact (h.calls j).mono id id rfl rfl rfl

/-- A call is over. -/
theorem Core.finish (h : Core cfg kind w C D R) {i : Nat} {pc : Pc} (hi : Free w i)
    (hturn : (kind i).isAppend → w.proc.tail.head? = some i) (hpc : pc = .rejected ∨ ∃ a, pc = .replied a)
    (hnew : ∀ n, pc ≠ .replied (.append (.stored n))) : Core cfg kind { w with proc := w.proc.finish i pc } C D R := by
  have hok : ∀ w'', CallOk cfg w'' C D R i (kind i) pc := by
    intro w''
    rcases hpc with rfl | ⟨a, rfl⟩
    · trivial
    · trivial
  have hg := h.goto hi (hok w) hnew
  refine { hg with
    based := fun hf => (h.based hf).congr rfl rfl rfl
    attempt := fun a ha => ?_
    tail := fun j hj => h.tail j (List.mem_of_mem_erase hj)
    calls := fun j => ?_ }
  · obtain ⟨h1, h2⟩ := hg.attempt a ha
    refine ⟨?_, h2⟩
    cases a <;> exact h1
  · by_cases hk : (kind i).isAppend
    · have hself : (w.proc.finish i pc).calls i = pc := goto_self w.proc i pc
      exact @Core.calls_of _ _ _ _ _ _ _ kind w { w with proc := w.proc.finish i pc } h i (hturn hk)
        (fun j hj => goto_ne w.proc pc hj) id (by rw [hself]; exact hok _) j
    · -- No append is at this place.
      have hnot : i ∉ w.proc.tail := fun hm => hk (h.tail i hm)
      refine (hg.calls j).mono (fun ht => ?_) id rfl rfl rfl
      change (w.proc.tail.erase i).head? = some j
      rw [List.erase_of_not_mem hnot]
      exact ht

/-! ## A call up to its write -/

theorem reconcile_calls (p : Proc) : p.reconcile.calls = p.calls := by
  unfold Proc.reconcile
  split <;> rfl

theorem Core.reconcile (h : Core cfg kind w C D R) (hf : w.proc.loading = .fulfilled)
    (hb : w.proc.stale = true ∨ ∃ i r, w.proc.calls i = .settling r) :
    Core cfg kind { w with proc := w.proc.reconcile } C D R := by
  cases hr : w.proc.reconciling with
  | some a =>
    have hsame : w.proc.reconcile = w.proc := by
      unfold Proc.reconcile
      rw [hr]
    rw [hsame]
    exact h
  | none =>
    have hp : w.proc.reconcile = { w.proc with
        reconciling := some (if w.proc.unbarriered then .barrier (.opening .existing [.sync]) else .loading .mkdir) } := by
      unfold Proc.reconcile
      rw [hr]
    rw [hp]
    refine { h with
      based := fun hf => (h.based hf).congr rfl rfl rfl
      attempt := fun a ha => ?_
      calm := fun _ _ hn => nomatch hn
      calls := fun j => (h.calls j).mono id id rfl rfl rfl }
    refine ⟨?_, hf, hb⟩
    cases ha
    split
    · rfl
    · trivial

theorem Core.unloaded (h : Core cfg kind w C D R) (hl : w.proc.loading ≠ .fulfilled) :
    w.proc.stale = false ∧ w.proc.reconciling = none := by
  constructor
  · by_contra hs
    rw [Bool.not_eq_false] at hs
    exact hl (h.behind hs)
  · cases hr : w.proc.reconciling with
    | none => rfl
    | some a => exact absurd (h.attempt a hr).2.1 hl

/-- `ready()` begins the load, or waits for it. -/
theorem Core.enter (h : Core cfg kind w C D R) {i : Nat} (hi : Free w i) (hturn : (kind i).isAppend → w.proc.tail.head? = some i) :
    Core cfg kind (w.enter i) C D R := by
  unfold World.enter
  cases hl : w.proc.loading with
  | running pc => exact @Core.goto _ _ _ _ _ _ h i .waiting hi hturn nofun
  | fulfilled => exact @Core.goto _ _ _ _ _ _ h i (.loaded true) hi ⟨hturn, fun _ => hl⟩ nofun
  | none =>
    obtain ⟨hs, hr⟩ := h.unloaded (by simp [hl])
    have hg := @Core.goto _ _ _ _ _ _ h i .waiting hi hturn nofun
    refine { hg with
      running := fun pc hpc => ?_
      based := nofun
      behind := fun hb => ?_
      attempt := fun a ha => ?_
      calm := nofun
      calls := fun j => (hg.calls j).mono id (fun hf => ?_) rfl rfl rfl }
    · cases hpc
      trivial
    · exact absurd (hs.symm.trans hb) Bool.false_ne_true
    · exact nomatch hr.symm.trans ha
    · exact nomatch hl.symm.trans hf

theorem Core.consult (h : Core cfg kind w C D R) {i : Nat} (hi : Free w i) (hturn : (kind i).isAppend → w.proc.tail.head? = some i)
    (hf : w.proc.loading = .fulfilled) : Core cfg kind (w.consult i) C D R := by
  unfold World.consult
  by_cases hs : w.proc.stale = true
  · rw [hs, Bool.not_true, Bool.false_and, if_neg Bool.false_ne_true]
    have hg := @Core.goto _ _ _ _ _ _ h i .joining hi ⟨hturn, hf⟩ nofun
    exact hg.reconcile hf (.inl hs)
  · have hu : w.proc.unbarriered = false := by
      by_contra hu
      rw [Bool.not_eq_false] at hu
      exact hs (h.unbarriered hu)
    rw [Bool.not_eq_true] at hs
    rw [hs, hu, Bool.not_false, Bool.and_self, if_pos rfl]
    exact @Core.goto _ _ _ _ _ _ h i .current hi ⟨fun hk => ⟨hturn hk, hs⟩, hf⟩ nofun

/-- No reconciliation is under way where an append that does not wait for one has its turn, and the view is good. -/
theorem Core.quiet (h : Core cfg kind w C D R) {i : Nat} (hh : w.proc.tail.head? = some i) (hs : w.proc.stale = false)
    (hset : ∀ r, w.proc.calls i ≠ .settling r) : w.proc.reconciling = none := by
  cases hr : w.proc.reconciling with
  | none => rfl
  | some a =>
    obtain ⟨-, -, hb | ⟨j, r, hj⟩⟩ := h.attempt a hr
    · exact absurd (hs.symm.trans hb) Bool.false_ne_true
    · have hok := h.calls j
      rw [hj] at hok
      by_cases hji : j = i
      · rw [hji] at hj
        exact absurd hj (hset r)
      · exact absurd hok.2.1 (h.not_head hh hji hok.1.isAppend)

/-- Only the append whose turn it is writes. -/
theorem Core.writer_eq (h : Core cfg kind w C D R) {i j : Nat} (hh : w.proc.tail.head? = some i) {s : Session} {r : Record}
    (hj : w.proc.calls j = .writing s r) : j = i := by
  have hok := h.calls j
  rw [hj] at hok
  by_contra hji
  exact h.not_head hh hji hok.1.isAppend hok.2.1

/-- The file of a calm process is settled, and its maps are those of the lines. -/
theorem Core.installed (h : Core cfg kind w C D R) {i : Nat} (hh : w.proc.tail.head? = some i) (hc : w.proc.calls i = .current)
    (hf : w.proc.loading = .fulfilled) (hs : w.proc.stale = false) : Installed cfg R C w.disk w.proc.index := by
  refine h.calm hf hs (h.quiet hh hs fun r hr => ?_) fun j s r hj => ?_
  · rw [hc] at hr
    cases hr
  · rw [h.writer_eq hh hj, hc] at hj
    cases hj

/-- All records of a bucket have the declaration of the first. -/
theorem declared_head (hC : Good cfg C) {b : String} {x : Declaration} (h : ∀ q ∈ ((view C).records b).head?, q.declaration = x) :
    ∀ q ∈ (view C).records b, q.declaration = x := by
  intro q hq
  obtain ⟨p, l, hpl⟩ := List.exists_cons_of_ne_nil (List.ne_nil_of_mem hq)
  have hp : p ∈ (view C).records b := by
    rw [hpl]
    exact List.mem_cons_self
  rw [← h p (by rw [hpl]; rfl)]
  exact hC.coherent.declared q (mem_view hq).1 p (mem_view hp).1 ((mem_view hq).2.trans (mem_view hp).2.symm)

/-- What an append decides to write is the next record. -/
theorem next_of_decide {dr : Draft} {n : Nat} {r : Record} (hC : Good cfg C) (hd : dr.Checked) (hn : dr.season = .dec (.ofNat n))
    (h : (view C).decideAppend dr = .write r) : Next C r := by
  obtain ⟨rfl, hk, hhead⟩ := Index.decideAppend_write h
  exact ⟨usable_record hd hn _, hk, rfl, declared_head hC hhead⟩

theorem Core.proceed (hkind : ∀ i g dr, kind i = .append g → g.check = .ok dr → ∃ n, dr.season = .dec (.ofNat n))
    (h : Core cfg kind w C D R) {i : Nat} (hc : w.proc.calls i = .current) : ∃ D' R', Core cfg kind (w.proceed kind i) C D' R' := by
  have hok := h.calls i
  rw [hc] at hok
  obtain ⟨hturn, hf⟩ := hok
  have hi : Free w i := ⟨fun s r hw => (by rw [hc] at hw; cases hw), fun r hw => (by rw [hc] at hw; cases hw)⟩
  have hfin : ∀ a, (∀ n, a ≠ .append (.stored n)) → Core cfg kind { w with proc := w.proc.finish i (.replied a) } C D R :=
    fun a ha => h.finish hi (fun hk => (hturn hk).1) (.inr ⟨a, rfl⟩) fun n hn => ha n (by cases hn; rfl)
  unfold World.proceed
  cases hk : kind i with
  | read q => exact ⟨D, R, hfin _ fun n => by cases q <;> simp [Query.answer]⟩
  | append g =>
    dsimp only
    cases hg : g.check with
    | error why => exact ⟨D, R, hfin _ (by simp)⟩
    | ok dr =>
      dsimp only
      cases hdec : w.proc.index.decideAppend dr with
      | answer a => exact ⟨D, R, hfin _ fun n hn => by cases hn; exact Index.decideAppend_answer hdec⟩
      | write r =>
        -- From here on the record is the only one that may come in.
        dsimp only
        obtain ⟨hh, hs⟩ := hturn (by rw [hk]; trivial)
        obtain ⟨V, ⟨htext, H, hH, hnone, rfl⟩, hhead, hix⟩ := h.installed hh hc hf hs
        obtain ⟨n, hn⟩ := hkind i g dr hk hg
        rw [hix] at hdec
        have hnext := next_of_decide h.disk.good (Given.check_ok hg).2 hn hdec
        have hH' : Fresh cfg (· = r) C H := hH.plain_mono hnone
        have hline : Fresh cfg (· = r) C (H ++ [recordText r]) := by
          apply hH'.concat hnone (.inr ⟨r, hnext.usable, rfl⟩)
          rw [recordsOf_recordText hnext.usable]
          intro q hq
          rw [List.mem_singleton.1 hq]
          exact ⟨hnext, rfl, hhead⟩
        have hwriter : Writer cfg (· = r) C C w.disk w.proc.index
            (.opening .append [.append (Utf8.encode (recordText r ++ ['\n'])), .sync]) r := by
          refine ⟨⟨H, hH', hnone, hhead, ⟨⟨_, hline, by simp⟩, ?_, rfl⟩⟩, hnext, hnext, fun q hq => hq, hix⟩
          simp [Session.pending, Op.chunk, htext, enc_singleton]
        have hbytes : Near cfg (· = r) C w.disk.bytes := by
          rw [htext]
          exact .exact hH'
        have hb := h.based hf
        refine ⟨C, (· = r), { h with
          disk := ⟨h.disk.good, hbytes, h.disk.stable, h.disk.entered⟩
          running := fun pc hpc => absurd (hf.symm.trans hpc) (by simp)
          based := fun _ => ⟨h.disk.good, List.prefix_rfl, .refl _, hix, hb.ensured, h.acked⟩
          attempt := fun a ha => absurd ((h.quiet hh hs hi.settles).symm.trans ha) (by simp)
          calm := fun _ _ _ hcalm => ?_
          replies := h.replies_goto (by simp)
          calls := ?_ }⟩
        · obtain ⟨ok, hclose⟩ := hcalm i _ r (goto_self w.proc i _)
          cases hclose
        · refine h.calls_of hh (fun j hj => goto_ne w.proc _ hj) id ?_
          dsimp only
          rw [goto_self, hk]
          refine ⟨⟨g, dr, rfl, hg, ?_⟩, hh, hf, .inr (.inr ⟨hs, hwriter⟩)⟩
          rw [(Index.decideAppend_write hdec).1]
          rfl

/-! ## The write -/

theorem AttemptOk.still {a : Attempt} (h : AttemptOk cfg R C w a) (hb : w'.disk.bytes = w.disk.bytes)
    (hv : w.disk.visible.isSome = true → w'.disk.visible.isSome = true) (hn : w.disk.named = true → w'.disk.named = true)
    (hi : w'.proc.index = w.proc.index) : AttemptOk cfg R C w' a := by
  cases a with
  | barrier s => exact h
  | loading pc => exact LoadOk.still h hb hv hn
  | returned ok =>
    intro ho
    rw [hi]
    exact (h ho).still hb

/-- A write has failed: the view is marked. -/
theorem Core.failed (h : Core cfg kind w C D R) {i : Nat} {pc : Pc} (hh : w.proc.tail.head? = some i)
    (hf : w.proc.loading = .fulfilled) (hd : DiskOk cfg R C d) (hn : w.disk.named = true → d.named = true)
    (hsame : d = w.disk ∨ w.proc.reconciling = none)
    (hpc : ∀ w' : World, w'.proc.tail = w.proc.tail → w'.proc.loading = w.proc.loading → CallOk cfg w' C D R i (kind i) pc)
    (hnew : ∀ n, pc ≠ .replied (.append (.stored n))) :
    Core cfg kind { w with disk := d, proc := (w.proc.goto i pc).mark } C D R := by
  refine { h with
    disk := hd
    named := fun ha => hn (h.named ha)
    ensured := fun he => hn (h.ensured he)
    unbarriered := fun _ => rfl
    running := fun pc' hpc' => nomatch hf.symm.trans hpc'
    based := fun hf => (h.based hf).congr rfl rfl rfl
    behind := fun _ => hf
    attempt := fun a ha => ⟨?_, hf, .inl rfl⟩
    calm := fun _ hs => nomatch hs
    replies := h.replies_goto hnew
    calls := ?_ }
  · rcases hsame with rfl | hr
    · exact (h.attempt a ha).1.still rfl id id rfl
    · exact nomatch hr.symm.trans ha
  · refine h.calls_of hh (fun j hj => goto_ne w.proc pc hj) id ?_
    change CallOk cfg _ C D R i (kind i) ((w.proc.goto i pc).calls i)
    rw [goto_self]
    exact hpc _ rfl rfl

/-- The append has its record in place, and answers. -/
theorem Core.answered (h : Core cfg kind w C D R) {i : Nat} {r : Record} (hi : Free w i) (hh : w.proc.tail.head? = some i)
    (hk : (kind i).Gives r) (hf : w.proc.loading = .fulfilled) (hC : Placed C r) (hD : Placed D r) :
    Core cfg kind { disk := w.disk, proc := w.proc.finish i (.replied (.append (.stored r.index))), acked := w.acked ++ [r] } C D
      R := by
  have hfin := @Core.finish _ _ _ _ _ _ h i .rejected hi (fun _ => hh) (.inl rfl) nofun
  have hb := h.based hf
  have hself : (w.proc.finish i (.replied (.append (.stored r.index)))).calls i = .replied (.append (.stored r.index)) :=
    goto_self w.proc i _
  have hne : ∀ j, j ≠ i → (w.proc.finish i (.replied (.append (.stored r.index)))).calls j = w.proc.calls j := fun j hj =>
    goto_ne w.proc _ hj
  refine { hfin with
    acked := List.forall_mem_append.2 ⟨h.acked, List.forall_mem_singleton.2 hC⟩
    named := fun _ => h.ensured hb.ensured
    based := fun _ => ⟨hb.good, hb.pre, hb.more, hb.index, hb.ensured, List.forall_mem_append.2 ⟨hb.acked, List.forall_mem_singleton.2 hD⟩⟩
    attempt := fun a ha => ?_
    calm := fun hf hs hr hc => h.calm hf hs hr (hi.calm hne hc)
    replies := fun j n hj => ?_
    calls := h.calls_of hh hne id (by rw [hself]; trivial) }
  · obtain ⟨h1, h2, h3⟩ := h.attempt a ha
    exact ⟨h1.still rfl id id rfl, h2, h3.imp_right (hi.settling hne)⟩
  · by_cases hji : j = i
    · rw [hji] at hj ⊢
      change (w.proc.finish i (.replied (.append (.stored r.index)))).calls i = _ at hj
      rw [hself] at hj
      cases hj
      exact ⟨r, List.mem_append_right _ List.mem_cons_self, hk, rfl⟩
    · change (w.proc.finish i (.replied (.append (.stored r.index)))).calls j = _ at hj
      rw [hne j hji] at hj
      obtain ⟨q, hq, hgives⟩ := h.replies j n hj
      exact ⟨q, List.mem_append_left _ hq, hgives⟩

theorem Core.write (h : Core cfg kind w C D R) {i : Nat} {s : Session} {r : Record} (hc : w.proc.calls i = .writing s r)
    (o : Outcome) : ∃ C' D', Extends (view C) (view C') ∧ Core cfg kind (w.write i s r o) C' D' R := by
  have hok := h.calls i
  rw [hc] at hok
  obtain ⟨hk, hh, hf, hs⟩ := hok
  have hset : ∀ q, w.proc.calls i ≠ .settling q := fun q hq => by rw [hc] at hq; cases hq
  -- Where the handle is no good, the record is unsure.
  have hfail : ∀ {d'}, DiskOk cfg R C d' → (w.disk.named = true → d'.named = true) → (d' = w.disk ∨ w.proc.reconciling = none) →
      Unsure R C D r → Core cfg kind { w with disk := d', proc := (w.proc.goto i (.writing (.closing false) r)).mark } C D R ∧
        Core cfg kind { w with disk := d', proc := (w.proc.goto i (.barring (.opening .existing [.sync]) r)).mark } C D R :=
    fun hd hn hsame hu => ⟨h.failed hh hf hd hn hsame (fun w' ht hl => ⟨hk, ht ▸ hh, hl ▸ hf, .inr (.inl ⟨rfl, hu⟩)⟩) nofun,
      h.failed hh hf hd hn hsame (fun w' ht hl => ⟨hk, ht ▸ hh, hl ▸ hf, rfl, hu⟩) nofun⟩
  unfold World.write
  rcases hs with ⟨rfl, honly, hC, hD⟩ | ⟨rfl, hu⟩ | ⟨hs, hw⟩
  · cases o with
    | done =>
      have hi : Free w i := ⟨fun s' r' h' => (by rw [hc] at h'; cases h'; exact ⟨true, rfl⟩), hset⟩
      exact ⟨C, D, .refl _, h.answered hi hh hk hf hC hD⟩
    | fails n => exact ⟨C, D, .refl _, (hfail h.disk id (.inl rfl) ⟨honly, .inr hC, .inr hD⟩).2⟩
  · cases o <;> exact ⟨C, D, .refl _, (hfail h.disk id (.inl rfl) hu).2⟩
  -- The write is on its way.
  obtain ⟨⟨H, hH, hnone, hhead, htoward⟩, hnext, hbase, honly, hix⟩ := hw
  have hr := h.quiet hh hs hset
  generalize hturn : s.next w.disk o = res at *
  obtain ⟨d', t⟩ := res
  have hmoves := Session.next_moves hturn
  dsimp only
  rcases htoward.next h.disk hturn with ⟨hd', hret, hgo⟩ | ⟨rfl, hd', htext⟩
  · obtain ⟨hf1, hf2⟩ := hfail hd' hmoves.named (.inr hr) ⟨honly, .inl hnext, .inl hbase⟩
    cases t with
    | returns => exact absurd rfl hret
    | throws => exact ⟨C, D, .refl _, hf2⟩
    | missing => exact ⟨C, D, .refl _, hf2⟩
    | goes s' =>
      rcases hgo s' rfl with rfl | ⟨hne, htoward'⟩
      · exact ⟨C, D, .refl _, hf1⟩
      have hflush := htoward'.flushes
      have hopen : ∀ ok, s' ≠ .closing ok := by
        rintro ok rfl
        cases hflush
      have hcore : Core cfg kind { w with disk := d', proc := w.proc.goto i (.writing s' r) } C D R := by
        refine { h with
          disk := hd'
          named := fun ha => hmoves.named (h.named ha)
          ensured := fun he => hmoves.named (h.ensured he)
          running := fun pc hpc => nomatch hf.symm.trans hpc
          based := fun hf => (h.based hf).congr rfl rfl rfl
          attempt := fun a ha => nomatch hr.symm.trans ha
          calm := fun _ _ _ hcalm => ?_
          replies := h.replies_goto nofun
          calls := ?_ }
        · obtain ⟨ok, hclose⟩ := hcalm i s' r (goto_self w.proc i _)
          exact absurd hclose (hopen ok)
        · refine h.calls_of hh (fun j hj => goto_ne w.proc _ hj) id ?_
          dsimp only
          rw [goto_self]
          exact ⟨hk, hh, hf, .inr (.inr ⟨hs, ⟨H, hH, hnone, hhead, htoward'⟩, hnext, hbase, honly, hix⟩)⟩
      refine ⟨C, D, .refl _, ?_⟩
      cases s' with
      | closing ok => exact absurd rfl (hopen ok)
      | opening mode ops => exact hcore
      | doing op ops => exact hcore
  · -- The record is on the disk, and in the maps.
    dsimp only
    have hms : recordsOf (H ++ [recordText r]) = [r] := by
      rw [recordsOf_append, hnone, recordsOf_recordText hnext.usable]
      rfl
    obtain ⟨ms, hfresh, hV⟩ := htoward.lines
    rw [List.append_assoc, List.append_cancel_left_eq] at hV
    subst hV
    rw [List.append_assoc] at hd' htext
    have hview : w.proc.index.remember r = view (C ++ (H ++ [recordText r])) := by
      rw [hix, view_next h.disk.good.coherent hnext hms]
    have hgrown : Grown cfg R C (C ++ (H ++ [recordText r])) := ⟨_, hfresh, rfl⟩
    have hmore := hgrown.more h.disk.good
    have hplaced : Placed (C ++ (H ++ [recordText r])) r := placed_remember h.disk.good.coherent hnext hms
    have hacked : ∀ q ∈ w.acked, Placed (C ++ (H ++ [recordText r])) q := fun q hq => (h.acked q hq).more hmore
    refine ⟨C ++ (H ++ [recordText r]), C ++ (H ++ [recordText r]), hmore, { h with
      disk := hd'
      acked := hacked
      named := fun ha => hmoves.named (h.named ha)
      ensured := fun he => hmoves.named (h.ensured he)
      running := fun pc hpc => nomatch hf.symm.trans hpc
      based := fun _ => ⟨hd'.good, List.prefix_rfl, .refl _, hview, (h.based hf).ensured, hacked⟩
      attempt := fun a ha => nomatch hr.symm.trans ha
      calm := fun _ _ _ _ => ⟨_, ⟨htext, [], .nil, rfl, by simp⟩, ?_, hview⟩
      replies := h.replies_goto nofun
      calls := ?_ }⟩
    · rw [← List.append_assoc, headed_append, hhead]
      rfl
    · refine h.calls_of hh (fun j hj => goto_ne w.proc _ hj) id ?_
      dsimp only
      rw [goto_self]
      exact ⟨hk, hh, hf, .inl ⟨rfl, honly, hplaced, hplaced⟩⟩

/-! ## After a write that failed -/

theorem Core.bar (h : Core cfg kind w C D R) {i : Nat} {s : Session} {r : Record} (hc : w.proc.calls i = .barring s r) (o : Outcome) :
    Core cfg kind (w.bar i s r o) C D R := by
  have hok := h.calls i
  rw [hc] at hok
  obtain ⟨hk, hh, hf, hp, hu⟩ := hok
  have hi : Free w i := ⟨fun s r hw => (by rw [hc] at hw; cases hw), fun r hw => (by rw [hc] at hw; cases hw)⟩
  unfold World.bar
  generalize hturn : s.next w.disk o = res
  obtain ⟨d', t⟩ := res
  have hmoves := Session.next_moves hturn
  obtain ⟨hd', hbytes⟩ := h.disk.still hmoves hp
  -- A barrier changes no byte that a read sees.
  have hcore : Core cfg kind { w with disk := d' } C D R := by
    refine { h with
      disk := hd'
      named := fun ha => hmoves.named (h.named ha)
      ensured := fun he => hmoves.named (h.ensured he)
      running := fun pc hpc => nomatch hf.symm.trans hpc
      based := fun hf => (h.based hf).congr rfl rfl rfl
      attempt := fun a ha => ⟨(h.attempt a ha).1.still hbytes hmoves.visible hmoves.named rfl, (h.attempt a ha).2⟩
      calm := fun hf hs hr hcalm => (h.calm hf hs hr hcalm).still hbytes
      calls := ?_ }
    refine h.calls_of hh (fun j hj => rfl) id ?_
    dsimp only
    rw [hc]
    exact ⟨hk, hh, hf, hp, hu⟩
  have hi' : Free { w with disk := d' } i := ⟨hi.writes, hi.settles⟩
  have hrej := @Core.finish _ _ _ _ _ _ hcore i .rejected hi' (fun _ => hh) (.inl rfl) nofun
  dsimp only
  cases t with
  | goes s' => exact @Core.goto _ _ _ _ _ _ hcore i (.barring s' r) hi' ⟨hk, hh, hf, pending_goes hp hturn, hu⟩ nofun
  | throws => exact hrej
  | missing => exact hrej
  | returns =>
    have hg := @Core.goto _ _ _ _ _ _ hcore i (.settling r) hi' ⟨hk, hh, hf, hu⟩ nofun
    exact hg.reconcile hf (.inr ⟨i, r, goto_self w.proc i _⟩)

theorem same_self (r : Record) : sameRegistrationRecord r r = true := same_iff.2 ⟨rfl, rfl, rfl, rfl, rfl, rfl⟩

/-- One record of a bucket has a key. -/
theorem view_find {r : Record} (h : Placed D r) :
    ((view D).records r.bucket).find? (fun q => decide (q.key = r.key)) = some r := by
  have hmem : r ∈ (view D).records r.bucket := List.mem_of_getElem? h.2
  have hnodup : (((view D).records r.bucket).map Record.key).Nodup := by
    rw [view, records_sorted]
    exact ((List.perm_insertionSort _ _).map _).nodup_iff.2 (nodup_records (holds_built D) r.bucket)
  cases hfind : ((view D).records r.bucket).find? (fun q => decide (q.key = r.key)) with
  | none => simpa using List.find?_eq_none.1 hfind r hmem
  | some q =>
    have hq := List.mem_of_find?_eq_some hfind
    have hkey : q.key = r.key := by simpa using List.find?_some hfind
    rw [List.inj_on_of_nodup_map hnodup hq hmem hkey]

theorem Core.settle (h : Core cfg kind w C D R) {i : Nat} {r : Record} {ok : Bool} (hc : w.proc.calls i = .settled r ok) :
    Core cfg kind (w.settle i r) C D R := by
  have hok := h.calls i
  rw [hc] at hok
  obtain ⟨hk, hh, hf, hu⟩ := hok
  have hi : Free w i := ⟨fun s r hw => (by rw [hc] at hw; cases hw), fun r hw => (by rw [hc] at hw; cases hw)⟩
  have hb := h.based hf
  unfold World.settle
  rw [hb.index]
  rcases hu.base with hnext | hplaced
  · -- The maps do not have the record.
    have hnone : ((view D).records r.bucket).find? (fun q => decide (q.key = r.key)) = none := by
      rw [List.find?_eq_none]
      intro q hq hkey
      have hhas : (view D).has r.key = true := has_view.2 ⟨q, (mem_view hq).1, by simpa using hkey⟩
      rw [hnext.new] at hhas
      cases hhas
    rw [hnone]
    exact h.finish hi (fun _ => hh) (.inl rfl) nofun
  · rw [view_find hplaced]
    dsimp only
    rw [if_pos (same_self r)]
    refine h.answered hi hh hk hf ?_ hplaced
    rcases hu.line with hnext | hC
    · exfalso
      obtain ⟨q, hq, hkey⟩ := has_view.1 hplaced.1
      have hhas : (view C).has r.key = true := has_view.2 ⟨q, (hb.pre.sublist.filterMap _).subset hq, hkey⟩
      rw [hnext.new] at hhas
      cases hhas
    · exact hC

/-! ## Steps -/

theorem Core.call (hkind : ∀ i g dr, kind i = .append g → g.check = .ok dr → ∃ n, dr.season = .dec (.ofNat n))
    (h : Core cfg kind w C D R) {i : Nat} {o : Outcome} (hstep : w.call kind i o = some w') :
    ∃ C' D' R', Extends (view C) (view C') ∧ Core cfg kind w' C' D' R' := by
  have hok := h.calls i
  have hfree : (∀ s r, w.proc.calls i ≠ .writing s r) → (∀ r, w.proc.calls i ≠ .settling r) → Free w i := fun h1 h2 =>
    ⟨fun s r hw => absurd hw (h1 s r), h2⟩
  unfold World.call at hstep
  cases hc : w.proc.calls i with
  | idle =>
    rw [hc] at hstep hok hfree
    have hi := hfree (by simp) (by simp)
    dsimp only at hstep
    cases hk : kind i with
    | read q =>
      rw [hk] at hstep
      cases hstep
      exact ⟨C, D, R, .refl _, @Core.goto _ _ _ _ _ _ h i .entering hi (by rw [hk]; exact id) nofun⟩
    | append g =>
      rw [hk] at hstep
      dsimp only at hstep
      cases hg : g.check with
      | error why =>
        rw [hg] at hstep
        cases hstep
        exact ⟨C, D, R, .refl _, @Core.goto _ _ _ _ _ _ h i (.replied (.append (.invalid why))) hi trivial nofun⟩
      | ok dr =>
        rw [hg] at hstep
        cases hstep
        have hg := @Core.goto _ _ _ _ _ _ h i .queued hi trivial nofun
        refine ⟨C, D, R, .refl _, { hg with
          based := fun hf => (hg.based hf).congr rfl rfl rfl
          attempt := fun a ha => ⟨(hg.attempt a ha).1.still rfl id id rfl, (hg.attempt a ha).2⟩
          tail := List.forall_mem_append.2 ⟨h.tail, List.forall_mem_singleton.2 (by rw [hk]; trivial)⟩
          calls := fun j => (hg.calls j).mono (fun ht => ?_) id rfl rfl rfl }⟩
        change w.proc.tail.head? = some j at ht
        change (w.proc.tail ++ [i]).head? = some j
        rw [List.head?_append, ht]
        rfl
  | queued =>
    rw [hc] at hstep hfree
    dsimp only at hstep
    by_cases hh : w.proc.tail.head? = some i
    · rw [if_pos hh] at hstep
      cases hstep
      exact ⟨C, D, R, .refl _, h.enter (hfree (by simp) (by simp)) fun _ => hh⟩
    · rw [if_neg hh] at hstep
      cases hstep
  | entering =>
    rw [hc] at hstep hok hfree
    cases hstep
    exact ⟨C, D, R, .refl _, h.enter (hfree (by simp) (by simp)) fun hk => absurd hk hok⟩
  | waiting => rw [hc] at hstep; cases hstep
  | loaded ok =>
    rw [hc] at hstep hok hfree
    cases ok with
    | true =>
      cases hstep
      exact ⟨C, D, R, .refl _, h.consult (hfree (by simp) (by simp)) hok.1 (hok.2 rfl)⟩
    | false =>
      cases hstep
      exact ⟨C, D, R, .refl _, h.finish (hfree (by simp) (by simp)) hok.1 (.inl rfl) nofun⟩
  | joining => rw [hc] at hstep; cases hstep
  | joined ok =>
    rw [hc] at hstep hok hfree
    cases ok with
    | true =>
      cases hstep
      exact ⟨C, D, R, .refl _, @Core.goto _ _ _ _ _ _ h i .current (hfree (by simp) (by simp))
        ⟨fun hk => ⟨(hok.1 hk).1, (hok.1 hk).2 rfl⟩, hok.2⟩ nofun⟩
    | false =>
      cases hstep
      exact ⟨C, D, R, .refl _, h.finish (hfree (by simp) (by simp)) (fun hk => (hok.1 hk).1) (.inl rfl) nofun⟩
  | current =>
    rw [hc] at hstep
    cases hstep
    obtain ⟨D', R', h'⟩ := h.proceed hkind hc
    exact ⟨C, D', R', .refl _, h'⟩
  | writing s r =>
    rw [hc] at hstep
    cases hstep
    obtain ⟨C', D', h'⟩ := h.write hc o
    exact ⟨C', D', R, h'⟩
  | barring s r =>
    rw [hc] at hstep
    cases hstep
    exact ⟨C, D, R, .refl _, h.bar hc o⟩
  | settling r => rw [hc] at hstep; cases hstep
  | settled r ok =>
    rw [hc] at hstep hok hfree
    cases ok with
    | true =>
      cases hstep
      exact ⟨C, D, R, .refl _, h.settle hc⟩
    | false =>
      cases hstep
      exact ⟨C, D, R, .refl _, h.finish (hfree (by simp) (by simp)) (fun _ => hok.2.1) (.inl rfl) nofun⟩
  | replied a => rw [hc] at hstep; cases hstep
  | rejected => rw [hc] at hstep; cases hstep

/-! ### The load of `ready` -/

theorem CallOk.early {i : Nat} {k : Kind} {pc : Pc} (h : CallOk cfg w C D R i k pc) (hl : w.proc.loading ≠ .fulfilled)
    (ht : w'.proc.tail = w.proc.tail) : CallOk cfg w' C' D' R' i k pc := by
  cases pc with
  | idle => trivial
  | queued => trivial
  | entering => exact h
  | waiting => exact fun hk => ht ▸ h hk
  | loaded ok => exact ⟨fun hk => ht ▸ h.1 hk, fun ho => absurd (h.2 ho) hl⟩
  | joining => exact absurd h.2 hl
  | joined ok => exact absurd h.2 hl
  | current => exact absurd h.2 hl
  | writing s r => exact absurd h.2.2.1 hl
  | barring s r => exact absurd h.2.2.1 hl
  | settling r => exact absurd h.2.2.1 hl
  | settled r ok => exact absurd h.2.2.1 hl
  | replied a => trivial
  | rejected => trivial

theorem CallOk.onLoad {i : Nat} {k : Kind} {pc : Pc} {ok : Bool} (h : CallOk cfg w C D R i k pc) (hl : w.proc.loading ≠ .fulfilled)
    (ht : w'.proc.tail = w.proc.tail) (hok : ok = true → w'.proc.loading = .fulfilled) :
    CallOk cfg w' C' D' R' i k (pc.onLoad ok) := by
  by_cases hw : pc = .waiting
  · rw [hw] at h ⊢
    exact ⟨fun hk => ht ▸ h hk, hok⟩
  · have hpc : pc.onLoad ok = pc := by cases pc <;> first | rfl | exact absurd rfl hw
    rw [hpc]
    exact h.early hl ht

theorem Core.replies_wake (h : Core cfg kind w C D R) {f : Pc → Pc} (hf : ∀ pc a, f pc = .replied a → pc = .replied a) :
    ∀ j n, (w.proc.wake f).calls j = .replied (.append (.stored n)) → ∃ r ∈ w.acked, (kind j).Gives r ∧ r.index = n :=
  fun j n hj => h.replies j n (hf _ _ hj)

theorem onLoad_replied (ok : Bool) (pc : Pc) (a : Reply) (h : pc.onLoad ok = .replied a) : pc = .replied a := by
  cases pc <;> first | exact h | cases h

theorem onAttempt_replied (ok : Bool) (pc : Pc) (a : Reply) (h : pc.onAttempt ok = .replied a) : pc = .replied a := by
  cases pc <;> first | exact h | cases h

theorem Core.load {schedule : String} (hs : cfg.schedule = some schedule) (h : Core cfg kind w C D R) {o : Outcome}
    (hstep : w.load cfg o = some w') : ∃ C' D', Extends (view C) (view C') ∧ Core cfg kind w' C' D' R := by
  unfold World.load at hstep
  cases hrun : w.proc.loading with
  | none => rw [hrun] at hstep; cases hstep
  | fulfilled => rw [hrun] at hstep; cases hstep
  | running pc =>
    rw [hrun] at hstep
    dsimp only at hstep
    have hl : w.proc.loading ≠ .fulfilled := by
      rw [hrun]
      nofun
    obtain ⟨hst, hr⟩ := h.unloaded hl
    generalize hturn : pc.next cfg w.disk w.proc.dirEnsured o = res at hstep
    obtain ⟨d', e', t⟩ := res
    obtain ⟨C', hsteps, ht⟩ := load_next hs h.disk (h.running pc hrun) h.ensured hturn
    have hmore := hsteps.grown.more h.disk.good
    have hacked : ∀ r ∈ w.acked, Placed C' r := fun r hr => (h.acked r hr).more hmore
    have hnamed : w.acked ≠ [] → d'.named = true := fun ha => hsteps.named (h.named ha)
    cases t with
    | goes pc' =>
      cases hstep
      exact ⟨C', D, hmore, { h with
        disk := hsteps.disk
        acked := hacked
        named := hnamed
        ensured := hsteps.ensured
        running := fun pc hpc => by cases hpc; exact ht
        based := nofun
        behind := fun hb => nomatch hst.symm.trans hb
        attempt := fun a ha => nomatch hr.symm.trans ha
        calm := nofun
        calls := fun j => (h.calls j).early hl rfl }⟩
    | throws =>
      cases hstep
      exact ⟨C', D, hmore, { h with
        disk := hsteps.disk
        acked := hacked
        named := hnamed
        ensured := hsteps.ensured
        running := nofun
        based := nofun
        behind := fun hb => nomatch hst.symm.trans hb
        attempt := fun a ha => nomatch hr.symm.trans ha
        calm := nofun
        replies := h.replies_wake (onLoad_replied _)
        calls := fun j => (h.calls j).onLoad hl rfl nofun }⟩
    | installs ix =>
      cases hstep
      obtain ⟨⟨V, hV, hhead, hix⟩, he⟩ := ht
      exact ⟨C', C', hmore, { h with
        disk := hsteps.disk
        acked := hacked
        named := hnamed
        ensured := hsteps.ensured
        running := nofun
        based := fun _ => ⟨hsteps.disk.good, List.prefix_rfl, .refl _, hix, he, hacked⟩
        behind := fun _ => rfl
        attempt := fun a ha => nomatch hr.symm.trans ha
        calm := fun _ _ _ _ => ⟨V, hV, hhead, hix⟩
        replies := h.replies_wake (onLoad_replied _)
        calls := fun j => (h.calls j).onLoad hl rfl fun _ => rfl }⟩

/-! ### The reconciliation -/

/-- Under a reconciliation, an append that has its turn waits for it, or the view is marked. -/
theorem Core.attempted (h : Core cfg kind w C D R) {a : Attempt} (ha : w.proc.reconciling = some a) {i : Nat}
    (hh : w.proc.tail.head? = some i) (hs : w.proc.stale = false) : ∃ r, w.proc.calls i = .settling r := by
  by_contra hno
  rw [not_exists] at hno
  have := h.quiet hh hs hno
  rw [ha] at this
  cases this

theorem CallOk.under {i : Nat} {k : Kind} {pc : Pc} (h : CallOk cfg w C D R i k pc)
    (hq : w.proc.tail.head? = some i → w.proc.stale = false → ∃ r, pc = .settling r) (ht : w'.proc.tail = w.proc.tail)
    (hl : w.proc.loading = .fulfilled → w'.proc.loading = .fulfilled)
    (hp : ∀ r, Placed C r → Placed D r → Placed C' r ∧ Placed D' r) (hu : ∀ r, Unsure R C D r → Unsure R C' D' r) :
    CallOk cfg w' C' D' R i k pc := by
  cases pc with
  | idle => trivial
  | queued => trivial
  | entering => exact h
  | waiting => exact fun hk => ht ▸ h hk
  | loaded ok => exact ⟨fun hk => ht ▸ h.1 hk, fun ho => hl (h.2 ho)⟩
  | joining => exact ⟨fun hk => ht ▸ h.1 hk, hl h.2⟩
  | joined ok =>
    refine ⟨fun hk => ⟨ht ▸ (h.1 hk).1, fun ho => ?_⟩, hl h.2⟩
    obtain ⟨r, hr⟩ := hq (h.1 hk).1 ((h.1 hk).2 ho)
    cases hr
  | current =>
    refine ⟨fun hk => ?_, hl h.2⟩
    obtain ⟨r, hr⟩ := hq (h.1 hk).1 (h.1 hk).2
    cases hr
  | writing s r =>
    obtain ⟨hk, hh, hf, hs⟩ := h
    refine ⟨hk, ht ▸ hh, hl hf, ?_⟩
    rcases hs with ⟨hs, honly, hC, hD⟩ | ⟨hs, hun⟩ | ⟨hs, hw⟩
    · exact .inl ⟨hs, honly, hp r hC hD⟩
    · exact .inr (.inl ⟨hs, hu r hun⟩)
    · obtain ⟨q, hq⟩ := hq hh hs
      cases hq
  | barring s r => exact ⟨h.1, ht ▸ h.2.1, hl h.2.2.1, h.2.2.2.1, hu r h.2.2.2.2⟩
  | settling r => exact ⟨h.1, ht ▸ h.2.1, hl h.2.2.1, hu r h.2.2.2⟩
  | settled r ok => exact ⟨h.1, ht ▸ h.2.1, hl h.2.2.1, hu r h.2.2.2⟩
  | replied a => trivial
  | rejected => trivial

theorem CallOk.onAttempt {i : Nat} {k : Kind} {pc : Pc} {ok : Bool} (h : CallOk cfg w C D R i k pc)
    (hq : w.proc.tail.head? = some i → w.proc.stale = false → ∃ r, pc = .settling r) (ht : w'.proc.tail = w.proc.tail)
    (hl : w.proc.loading = .fulfilled → w'.proc.loading = .fulfilled) (hok : ok = true → w'.proc.stale = false) :
    CallOk cfg w' C D R i k (pc.onAttempt ok) := by
  have hsame := h.under hq ht hl (fun r h1 h2 => ⟨h1, h2⟩) fun r hu => hu
  cases pc with
  | joining => exact ⟨fun hk => ⟨ht ▸ h.1 hk, hok⟩, hl h.2⟩
  | settling r => exact hsame
  | _ => exact hsame

theorem Core.attemptStep {schedule : String} (hs : cfg.schedule = some schedule) (h : Core cfg kind w C D R) {o : Outcome}
    (hstep : w.attempt cfg o = some w') : ∃ C' D', Extends (view C) (view C') ∧ Core cfg kind w' C' D' R := by
  unfold World.attempt at hstep
  cases hr : w.proc.reconciling with
  | none => rw [hr] at hstep; cases hstep
  | some a =>
    rw [hr] at hstep
    obtain ⟨hok, hf, hb⟩ := h.attempt a hr
    have hq : ∀ j, w.proc.tail.head? = some j → w.proc.stale = false → ∃ r, w.proc.calls j = .settling r := fun j hh hst =>
      h.attempted hr hh hst
    have hbase := h.based hf
    cases a with
    | barrier s =>
      dsimp only at hstep
      generalize hturn : s.next w.disk o = res at hstep
      obtain ⟨d', t⟩ := res
      have hmoves := Session.next_moves hturn
      obtain ⟨hd', hbytes⟩ := h.disk.still hmoves hok
      cases hstep
      refine ⟨C, D, .refl _, { h with
        disk := hd'
        named := fun ha => hmoves.named (h.named ha)
        ensured := fun he => hmoves.named (h.ensured he)
        running := fun pc hpc => nomatch hf.symm.trans hpc
        based := fun hf => (h.based hf).congr rfl rfl rfl
        attempt := fun a ha => ⟨?_, hf, hb⟩
        calm := fun _ _ hn => nomatch hn
        calls := fun j => (h.calls j).under (hq j) rfl id (fun r h1 h2 => ⟨h1, h2⟩) fun r hu => hu }⟩
      cases ha
      cases t with
      | goes s' => exact pending_goes hok hturn
      | throws => exact nofun
      | returns => trivial
      | missing => trivial
    | loading pc =>
      dsimp only at hstep
      generalize hturn : pc.next cfg w.disk w.proc.dirEnsured o = res at hstep
      obtain ⟨d', e', t⟩ := res
      obtain ⟨C', hsteps, ht⟩ := load_next hs h.disk hok h.ensured hturn
      have hgood := h.disk.good
      have hmore := hsteps.grown.more hgood
      have hacked : ∀ r ∈ w.acked, Placed C' r := fun r hr => (h.acked r hr).more hmore
      have hnamed : w.acked ≠ [] → d'.named = true := fun ha => hsteps.named (h.named ha)
      have hplaced : ∀ r, Placed C r → Placed C' r := fun r hr => hr.more hmore
      have hdue : ∀ r, Unsure R C D r → Due C' r := fun r hu => hsteps.grown.due hgood hu.only hu.line
      have hbase' : ∀ p : Proc, p.index = w.proc.index → p.dirEnsured = e' → Based cfg ⟨d', p, w.acked⟩ C' D := fun p hi he =>
        ⟨hbase.good, hbase.pre.trans hsteps.grown.pre, hbase.more.trans hmore, hi.trans hbase.index, he.trans (hsteps.more hbase.ensured), hbase.acked⟩
      cases t with
      | goes pc' =>
        cases hstep
        exact ⟨C', D, hmore, { h with
          disk := hsteps.disk
          acked := hacked
          named := hnamed
          ensured := hsteps.ensured
          running := fun pc hpc => nomatch hf.symm.trans hpc
          based := fun _ => hbase' _ rfl rfl
          attempt := fun a ha => ⟨by cases ha; exact ht, hf, hb⟩
          calm := fun _ _ hn => nomatch hn
          calls := fun j => (h.calls j).under (hq j) rfl id (fun r h1 h2 => ⟨hplaced r h1, h2⟩) fun r hu =>
            ⟨hu.only, hdue r hu, hu.base⟩ }⟩
      | throws =>
        cases hstep
        exact ⟨C', D, hmore, { h with
          disk := hsteps.disk
          acked := hacked
          named := hnamed
          ensured := hsteps.ensured
          running := fun pc hpc => nomatch hf.symm.trans hpc
          based := fun _ => hbase' _ rfl rfl
          attempt := fun a ha => ⟨by cases ha; exact nofun, hf, hb⟩
          calm := fun _ _ hn => nomatch hn
          calls := fun j => (h.calls j).under (hq j) rfl id (fun r h1 h2 => ⟨hplaced r h1, h2⟩) fun r hu =>
            ⟨hu.only, hdue r hu, hu.base⟩ }⟩
      | installs ix =>
        cases hstep
        obtain ⟨⟨V, hV, hhead, hix⟩, he⟩ := ht
        exact ⟨C', C', hmore, { h with
          disk := hsteps.disk
          acked := hacked
          named := hnamed
          ensured := hsteps.ensured
          running := fun pc hpc => nomatch hf.symm.trans hpc
          based := fun _ => ⟨hsteps.disk.good, List.prefix_rfl, .refl _, hix, he, hacked⟩
          attempt := fun a ha => ⟨by cases ha; exact fun _ => ⟨V, hV, hhead, hix⟩, hf, hb⟩
          calm := fun _ _ hn => nomatch hn
          calls := fun j => (h.calls j).under (hq j) rfl id (fun r h1 _ => ⟨hplaced r h1, hplaced r h1⟩) fun r hu =>
            ⟨hu.only, hdue r hu, hdue r hu⟩ }⟩
    | returned ok =>
      cases ok with
      | true =>
        cases hstep
        exact ⟨C, D, .refl _, { h with
          unbarriered := nofun
          based := fun hf => (h.based hf).congr rfl rfl rfl
          behind := nofun
          attempt := nofun
          calm := fun _ _ _ _ => hok rfl
          replies := h.replies_wake (onAttempt_replied _)
          calls := fun j => (h.calls j).onAttempt (hq j) rfl id fun _ => rfl }⟩
      | false =>
        cases hstep
        exact ⟨C, D, .refl _, { h with
          unbarriered := fun _ => rfl
          based := fun hf => (h.based hf).congr rfl rfl rfl
          behind := fun _ => hf
          attempt := nofun
          calm := fun _ hst => nomatch hst
          replies := h.replies_wake (onAttempt_replied _)
          calls := fun j => (h.calls j).onAttempt (hq j) rfl id nofun }⟩

end

end RegistrationBackend
