import MnoVerify.Season
import Mathlib.Logic.Relation

/-!
# The members cache follows the durable records

`cache_behind_store`: in every run over one store, each cached tree holds a first
part of its bucket and its window ends in the root of that part. `Context.Follows`
is the invariant of one context; each operation keeps it, and so does a store that
only grows.
-/

namespace Season

open Members Registration

theorem eq_of_strictEq {a b : Js.Num} (h : a.strictEq b = true) : a = b := by
  cases a <;> simp [Js.Num.strictEq] at h <;> exact h

/-- An outcome other than that of a commit that went through. -/
def Outcome.Idle (o : Outcome) : Prop := ∀ i root size, o ≠ .committed i root size

section
variable {F : Type} {H : Poseidon F} {cfg : Config}

/-- The context is a first part of its bucket, and its window ends in the root of that part. -/
structure Context.Follows (c : Context H cfg) (records : List Record) : Prop where
  behind : c.tree.commitments <+: records.map Record.commitment
  window : c.roots.UpTo c.tree.size
  top : ∃ ts, c.roots.current = some ⟨c.tree.size, c.tree.root, ts⟩

theorem Context.Follows.mono {c : Context H cfg} {l l' : List Record} (h : c.Follows l) (hl : l <+: l') : c.Follows l' :=
  ⟨h.behind.trans (hl.map _), h.window, h.top⟩

theorem Context.Follows.size_le {c : Context H cfg} {l : List Record} (h : c.Follows l) : c.tree.size ≤ l.length := by
  have := h.behind.length_le
  rwa [List.length_map] at this

/-- A window takes the root of a tree that is no smaller than it reaches. -/
theorem follows_update {tree : MembersTree H cfg.depth} {roots : RootStore} {records : List Record} (ts : Int)
    (hb : tree.commitments <+: records.map Record.commitment) (hr : roots.UpTo tree.size) :
    (⟨tree, roots.update [⟨tree.size, tree.root, ts⟩]⟩ : Context H cfg).Follows records := by
  obtain ⟨htop, hup⟩ := RootStore.update_top (s := roots) (r := ⟨tree.size, tree.root, ts⟩) hr
  exact ⟨hb, hup, ts, htop⟩

namespace State

/-- Every cached context follows its bucket of the current season. -/
def Follows (m : State H cfg) (store : Index) : Prop :=
  ∀ x c, m.ctx.lookup x = some c → c.Follows (store.forSeasonContext m.number x)

theorem Follows.grows {m : State H cfg} {store store' : Index} (h : m.Follows store)
    (hs : ∀ b, store.records b <+: store'.records b) : m.Follows store' := fun x c hc => (h x c hc).mono (hs _)

theorem number_of_isCurrent {m : State H cfg} {season : Js.Num} (h : m.isCurrent season = true) : m.current = some season := by
  rw [isCurrent] at h
  cases hc : m.current with
  | none => rw [hc] at h; cases h
  | some c => rw [hc, Option.any_some] at h; rw [eq_of_strictEq h]

theorem Follows.set {m : State H cfg} {store : Index} (h : m.Follows store) {x : String} {c : Context H cfg}
    (hc : c.Follows (store.forSeasonContext m.number x)) : Follows { m with ctx := Assoc.set m.ctx x c } store := by
  intro y d hd
  by_cases hy : y = x
  · subst hy
    rw [Assoc.lookup_set_self, Option.some.injEq] at hd
    exact hd ▸ hc
  · rw [Assoc.lookup_set_of_ne hy] at hd
    exact h y d hd

theorem roll_follows {m m' : State H cfg} {store : Index} {season : Js.Num} (h : m.Follows store)
    (hr : m.roll season = some m') : m'.Follows store := by
  rw [roll] at hr
  split at hr
  · cases hr
  · split at hr
    · cases hr; exact h
    · cases hr; intro x c hc; cases hc

/-- What putting a tree over a whole bucket in the cache does. -/
theorem install_spec {m m' : State H cfg} {store : Index} {x : String} {roots : RootStore} {throws : Bool} {now : Int}
    {c : Context H cfg} (h : m.Follows store) (hr : roots.UpTo (store.forSeasonContext m.number x).length)
    (hi : m.install x (store.forSeasonContext m.number x) roots throws now = some (m', c)) :
    m'.Follows store ∧ m'.current = m.current ∧ m'.ctx.lookup x = some c ∧
      c.tree.size = (store.forSeasonContext m.number x).length := by
  rw [install] at hi
  split at hi
  · cases hi
  rw [Option.map_eq_some_iff] at hi
  obtain ⟨tree, htree, he⟩ := hi
  cases he
  have hcs := MembersTree.fromCommitments_commitments htree
  have hsize : tree.size = (store.forSeasonContext m.number x).length := by
    rw [MembersTree.size, hcs, List.length_map]
  refine ⟨h.set (follows_update now (hcs ▸ List.prefix_refl _) (hsize ▸ hr)), rfl, Assoc.lookup_set_self _ _ _, hsize⟩

theorem materialize_spec {m m' : State H cfg} {store : Index} {x : String} {a : Awaits} {c : Context H cfg}
    (h : m.Follows store) (hm : m.materialize store x a = some (m', c)) :
    m'.Follows store ∧ m'.current = m.current ∧ m'.ctx.lookup x = some c := by
  rw [materialize] at hm
  cases hl : m.ctx.lookup x with
  | some c' => rw [hl] at hm; cases hm; exact ⟨h, rfl, hl⟩
  | none =>
    rw [hl] at hm
    dsimp only at hm
    split at hm
    · cases hm
    · obtain ⟨h1, h2, h3, -⟩ := install_spec h (RootStore.upTo_nil _ _) hm
      exact ⟨h1, h2, h3⟩

theorem size_le {m : State H cfg} {store : Index} (h : m.Follows store) (x : String) :
    m.size x ≤ (store.forSeasonContext m.number x).length := by
  rw [size]
  cases hl : m.ctx.lookup x with
  | none => exact Nat.zero_le _
  | some c => exact (h x c hl).size_le

theorem size_of_lookup {m : State H cfg} {x : String} {c : Context H cfg} (h : m.ctx.lookup x = some c) :
    m.size x = c.tree.size := by rw [size, h]; rfl

/-- After a reconciliation nothing durable is missing from the context. -/
theorem reconcileIfBehind_spec {m m' : State H cfg} {store : Index} {x : String} {a : Awaits} {rebuilt : Bool}
    (h : m.Follows store) (hm : m.reconcileIfBehind store x a = some (m', rebuilt)) :
    m'.Follows store ∧ m'.current = m.current ∧ m'.size x = (store.forSeasonContext m.number x).length ∧
      ((m.ctx.lookup x).isSome → (m'.ctx.lookup x).isSome) := by
  rw [reconcileIfBehind] at hm
  split at hm
  · cases hm
  dsimp only at hm
  split at hm
  · rename_i hlt
    rw [Option.map_eq_some_iff] at hm
    obtain ⟨⟨m₁, c⟩, hr, he⟩ := hm
    cases he
    have hup : (((m.ctx.lookup x).map Context.roots).getD ⟨cfg.rootWindow, []⟩).UpTo
        (store.forSeasonContext m.number x).length := by
      cases hl : m.ctx.lookup x with
      | none => exact RootStore.upTo_nil _ _
      | some c => exact (h x c hl).window.mono (h x c hl).size_le
    obtain ⟨h1, h2, h3, h4⟩ := install_spec h hup hr
    exact ⟨h1, h2, by rw [size_of_lookup h3, h4], fun _ => by rw [h3]; rfl⟩
  · rename_i hge
    cases hm
    exact ⟨h, rfl, Nat.le_antisymm (size_le h x) (Nat.le_of_not_lt hge), id⟩

theorem ensure_follows {m : State H cfg} {store : Index} (h : m.Follows store) (season : Js.Num) :
    (m.ensure season).1.Follows store := by
  rw [ensure]
  cases hr : m.roll season with
  | none => exact h
  | some m' => exact roll_follows h hr

theorem ensureContext_follows {m : State H cfg} {store : Index} (h : m.Follows store) (season : Js.Num) (x : String)
    (a : Awaits) : (m.ensureContext store season x a).1.Follows store := by
  rw [ensureContext]
  cases hr : m.roll season with
  | none => exact h
  | some m' =>
    have h' := roll_follows h hr
    dsimp only
    split
    · exact h'
    split
    · exact h'
    split
    · cases hm : m'.materializeFrom x (store.forSeasonContext m'.number x) a with
      | none => exact h'
      | some p => exact (install_spec h' (RootStore.upTo_nil _ _) hm).1
    · exact h'

theorem recoverMember_follows {m : State H cfg} {store : Index} (h : m.Follows store) (season : Js.Num) (x : String)
    (a : Awaits) : (m.recoverMember store season x a).1.Follows store := by
  rw [recoverMember]
  split
  · cases hr : m.reconcileIfBehind store x a with
    | none => exact h
    | some p => exact (reconcileIfBehind_spec h hr).1
  · exact h

theorem refusal_idle {store : Index} {r : Commit} {c : Context H cfg} {a : Awaits} {o : Outcome}
    (h : refusal store r c a = some o) : o.Idle := by
  intro i root size he
  subst he
  unfold refusal at h
  repeat' split at h
  all_goals cases h

theorem prepare_idle {m : State H cfg} {store : Index} {r : Commit} {a : Awaits} {o : Outcome}
    (h : (m.prepare store r a).2 = .inl o) : o.Idle := by
  unfold prepare at h
  split at h
  · split at h
    · cases h; simp [Outcome.Idle]
    · split at h
      · cases h; simp [Outcome.Idle]
      · dsimp only at h
        split at h
        · rename_i hr; cases h; exact refusal_idle hr
        · cases h
  · cases h; simp [Outcome.Idle]

/-- What holds where a commit waits for its durable write. -/
structure Prepared (m : State H cfg) (store : Index) (r : Commit) (c : Context H cfg) : Prop where
  cached : m.ctx.lookup r.contextHash = some c
  current : m.current = some r.season

/-- A commit on its way to its durable write has reconciled its context and passed its checks. -/
theorem prepare_spec {m : State H cfg} {store : Index} (h : m.Follows store) (r : Commit) (a : Awaits) :
    (m.prepare store r a).1.Follows store ∧ ∀ c, (m.prepare store r a).2 = .inr c →
      (m.prepare store r a).1.Prepared store r c ∧ c.tree.size = (store.forSeasonContext r.season r.contextHash).length ∧
        refusal store r c a = none := by
  rw [prepare]
  by_cases hc : m.isCurrent r.season = true
  · rw [if_pos hc]
    cases hm : m.materialize store r.contextHash a with
    | none => exact ⟨h, fun c hc => by cases hc⟩
    | some p =>
      obtain ⟨m₁, c₁⟩ := p
      obtain ⟨h1, hcur1, hl1⟩ := materialize_spec h hm
      dsimp only
      cases hr : m₁.reconcileIfBehind store r.contextHash a with
      | none => exact ⟨h1, fun c hc => by cases hc⟩
      | some p =>
        obtain ⟨m₂, rebuilt⟩ := p
        obtain ⟨h2, hcur2, hsize, hsome⟩ := reconcileIfBehind_spec h1 hr
        obtain ⟨c₂, hl2⟩ := Option.isSome_iff_exists.1 (hsome (by rw [hl1]; rfl))
        have hcur : m₂.current = some r.season := by rw [hcur2, hcur1, number_of_isCurrent hc]
        simp only [hl2, Option.getD_some]
        cases hf : refusal store r c₂ a with
        | some o => exact ⟨h2, fun c hc => by cases hc⟩
        | none =>
          refine ⟨h2, fun c hc => ?_⟩
          cases hc
          have hn : m₁.number = r.season := by rw [number, ← hcur2, hcur]; rfl
          exact ⟨⟨hl2, hcur⟩, by rw [← size_of_lookup hl2, hsize, hn], hf⟩
  · rw [if_neg hc]
    exact ⟨h, fun c hc => by cases hc⟩

/-- A commitment joins the tree only behind the record that is durable at its place. -/
theorem finish_spec {m : State H cfg} {store : Index} (h : m.Follows store) {r : Commit} {c : Context H cfg} {w : Written}
    (hp : m.Prepared store r c) (a : Awaits) (hw : ∀ i, w = .answer (.stored i) →
      (store.forSeasonContext r.season r.contextHash)[i]? = some (r.record i)) :
    (m.finish r c w a).1.Follows store ∧ ∀ i root size, (m.finish r c w a).2 = .committed i root size →
      (m.finish r c w a).1.current = some r.season ∧
      ∃ c', (m.finish r c w a).1.ctx.lookup r.contextHash = some c' ∧ c'.tree.size = i + 1 ∧
        c'.tree.commitments[i]? = some r.commitment ∧
        (store.forSeasonContext r.season r.contextHash)[i]? = some (r.record i) := by
  have hskip : ∀ o : Outcome, o.Idle →
      (m, o).1.Follows store ∧ ∀ i root size, (m, o).2 = .committed i root size →
        (m, o).1.current = some r.season ∧
        ∃ c', (m, o).1.ctx.lookup r.contextHash = some c' ∧ c'.tree.size = i + 1 ∧
          c'.tree.commitments[i]? = some r.commitment ∧
          (store.forSeasonContext r.season r.contextHash)[i]? = some (r.record i) :=
    fun o ho => ⟨h, fun i root size hs => absurd hs (ho i root size)⟩
  unfold finish
  split
  · exact hskip _ (by simp [Outcome.Idle])
  · exact hskip _ (by simp [Outcome.Idle])
  · exact hskip _ (by simp [Outcome.Idle])
  · exact hskip _ (by simp [Outcome.Idle])
  · exact hskip _ (by simp [Outcome.Idle])
  · rename_i i
    have hrec := hw i rfl
    split
    · exact hskip _ (by simp [Outcome.Idle])
    · rename_i hi
      rw [not_not] at hi
      cases ht : c.tree.append r.commitment with
      | none => exact hskip _ (by simp [Outcome.Idle])
      | some tree =>
        have hcs := MembersTree.append_commitments ht
        have hn : m.number = r.season := by rw [number, hp.current]; rfl
        have hc := h _ c hp.cached
        have hsize : tree.size = i + 1 := by
          rw [MembersTree.size, hcs, List.length_append, List.length_singleton, hi, MembersTree.size]
        have hbehind : tree.commitments <+: (store.forSeasonContext m.number r.contextHash).map Record.commitment := by
          -- the record at the next position carries the commitment that is appended
          have hat : ((store.forSeasonContext m.number r.contextHash).map Record.commitment)[c.tree.commitments.length]? =
              some r.commitment := by
            rw [List.getElem?_map, hn, ← MembersTree.size, ← hi, hrec]; rfl
          rw [hcs]
          obtain ⟨rest, hrest⟩ := hc.behind
          rw [← hrest, List.getElem?_append_right (le_refl _), Nat.sub_self] at hat
          cases rest with
          | nil => cases hat
          | cons y rest =>
            rw [List.getElem?_cons_zero, Option.some.injEq] at hat
            exact ⟨rest, by rw [← hrest, hat, List.append_assoc, List.singleton_append]⟩
        have hup : c.roots.UpTo tree.size := hc.window.mono (by omega)
        refine ⟨h.set (follows_update a.now hbehind hup), fun i' root size hs => ?_⟩
        cases hs
        refine ⟨hp.current, _, Assoc.lookup_set_self _ _ _, hsize, ?_, hrec⟩
        rw [hcs, hi, MembersTree.size, List.getElem?_append_right (le_refl _), Nat.sub_self]; rfl

end State

/-! ## Runs -/

theorem appendChecked_prefix (store : Index) (g : Given) (b : String) :
    store.records b <+: (store.appendChecked g).1.records b := by
  rw [Index.appendChecked]
  cases g.check with
  | error why => exact List.prefix_refl _
  | ok d => exact Index.records_append_prefix store d b

theorem appendDurable_prefix (store : Index) (r : Commit) (w : Write) (b : String) :
    store.records b <+: (appendDurable store r w).1.records b := by
  cases w with
  | proceeds => exact appendChecked_prefix _ _ _
  | throws landed =>
    cases landed with
    | true => exact appendChecked_prefix _ _ _
    | false => exact List.prefix_refl _
  | _ => exact List.prefix_refl _

/-- An index comes back only with the record durable at it. -/
theorem appendDurable_stored {store : Index} {r : Commit} {w : Write} {i : Nat}
    (h : (appendDurable store r w).2 = some (.answer (.stored i))) :
    ((appendDurable store r w).1.forSeasonContext r.season r.contextHash)[i]? = some (r.record i) := by
  cases w with
  | proceeds =>
    simp only [appendDurable, Option.some.injEq, Written.answer.injEq] at h ⊢
    rcases Index.appendChecked_cases store r.toDraft with ⟨he, -⟩ | ⟨-, hno⟩
    · rw [he] at h ⊢
      cases h
      have hb : bucketKey r.season r.contextHash = r.bucket := rfl
      rw [Index.forSeasonContext, Index.records_remember, hb, Draft.record_bucket, if_pos rfl]
      exact List.getElem?_concat_length
    · exact absurd h (hno i)
  | throws landed => cases h
  | stale => cases h
  | unrecognised => cases h

namespace Machine

/-- What the last commit left, if it was the last to be over. -/
def Committed (m : Machine H cfg) : Prop :=
  ∀ r i root size, m.settled.getLast? = some (.commit r, .committed i root size) →
    m.members.current = some r.season ∧
    ∃ c, m.members.ctx.lookup r.contextHash = some c ∧ c.tree.size = i + 1 ∧ c.tree.commitments[i]? = some r.commitment ∧
      (m.store.forSeasonContext r.season r.contextHash)[i]? = some (r.record i)

structure Inv (m : Machine H cfg) : Prop where
  follows : m.members.Follows m.store
  prepared : ∀ f, m.running = some f → m.members.Prepared m.store f.commit f.context
  written : ∀ f i, m.running = some f → f.written = some (.answer (.stored i)) →
    (m.store.forSeasonContext f.commit.season f.commit.contextHash)[i]? = some (f.commit.record i)
  committed : m.running = none → m.Committed

theorem init_inv (store : Index) : (init H cfg store).Inv where
  follows := fun x c hc => by cases hc
  prepared := fun f hf => by cases hf
  written := fun f i hf => by cases hf
  committed := fun _ r i root size hs => by cases hs

/-- An operation that is over, and was not a commit that went through. -/
theorem settle_inv {m : Machine H cfg} {members : State H cfg} {op : Op} {o : Outcome} (hf : members.Follows m.store)
    (ho : o.Idle) : (m.settle members op o).Inv where
  follows := hf
  prepared := fun f h => by cases h
  written := fun f i h => by cases h
  committed := fun _ r i root size hs => by
    rw [settle, List.getLast?_concat, Option.some.injEq, Prod.mk.injEq] at hs
    exact absurd hs.2 (ho i root size)

theorem start_inv {m : Machine H cfg} (h : m.Inv) (op : Op) (rest : List Op) (a : Awaits) : (m.start op rest a).Inv := by
  have hf : ({ m with queue := rest } : Machine H cfg).members.Follows { m with queue := rest }.store := h.follows
  cases op with
  | ensure season =>
    refine settle_inv (State.ensure_follows hf season) fun i root size ho => ?_
    dsimp only [State.ensure] at ho
    split at ho <;> cases ho
  | ensureContext season x =>
    refine settle_inv (State.ensureContext_follows hf season x a) fun i root size ho => ?_
    simp only [State.ensureContext] at ho
    repeat' split at ho
    all_goals cases ho
  | recoverMember season x =>
    refine settle_inv (State.recoverMember_follows hf season x a) fun i root size ho => ?_
    simp only [State.recoverMember] at ho
    repeat' split at ho
    all_goals cases ho
  | commit r =>
    have hp := State.prepare_spec hf r a
    have hno : ∀ o, (m.members.prepare m.store r a).2 = .inl o → o.Idle := fun o => State.prepare_idle
    simp only [start]
    cases hq : m.members.prepare m.store r a with
    | mk members res =>
      rw [hq] at hp hno
      cases res with
      | inl o => exact settle_inv hp.1 (hno o rfl)
      | inr c =>
        refine ⟨hp.1, fun f hf => ?_, fun f i hf hw => ?_, fun hn => by cases hn⟩
        · cases hf; exact (hp.2 c rfl).1
        · cases hf; cases hw

theorem write_inv {m : Machine H cfg} (h : m.Inv) {f : Frame H cfg} (a : Awaits) (hr : m.running = some f) :
    (m.write f a).Inv := by
  have hpre := appendDurable_prefix m.store f.commit a.write
  have hst : ∀ i, (appendDurable m.store f.commit a.write).2 = some (.answer (.stored i)) → _ := fun i =>
    appendDurable_stored (i := i)
  rw [write]
  cases hd : appendDurable m.store f.commit a.write with
  | mk store res =>
    rw [hd] at hpre hst
    cases res with
    | none => exact settle_inv (m := { m with store := store }) (h.follows.grows hpre) (by simp [Outcome.Idle])
    | some w =>
      refine ⟨h.follows.grows hpre, fun g hg => ?_, fun g i hg hw => ?_, fun hn => by cases hn⟩
      · cases hg; exact ⟨(h.prepared f hr).cached, (h.prepared f hr).current⟩
      · cases hg; exact hst i hw

theorem finish_inv {m : Machine H cfg} (h : m.Inv) {f : Frame H cfg} {w : Written} (a : Awaits) (hr : m.running = some f)
    (hw : f.written = some w) : (m.finish f w a).Inv := by
  have hst : ∀ i, w = .answer (.stored i) →
      (m.store.forSeasonContext f.commit.season f.commit.contextHash)[i]? = some (f.commit.record i) :=
    fun i hi => h.written f i hr (by rw [hw, hi])
  have hs := State.finish_spec h.follows (h.prepared f hr) a hst
  refine ⟨hs.1, fun f h => (by cases h), fun f i h => (by cases h), fun _ r i root size hl => ?_⟩
  rw [finish, settle, List.getLast?_concat, Option.some.injEq, Prod.mk.injEq] at hl
  obtain ⟨he, ho⟩ := hl
  cases he
  exact hs.2 i root size ho

theorem step_inv {m m' : Machine H cfg} (hs : Step m m') (h : m.Inv) : m'.Inv := by
  cases hs with
  | enqueue op => exact ⟨h.follows, h.prepared, h.written, h.committed⟩
  | start a hq hr => exact start_inv h _ _ a
  | write a hr hw => exact write_inv h a hr
  | finish a hr hw => exact finish_inv h a hr hw

def Reach (store : Index) (m : Machine H cfg) : Prop := Relation.ReflTransGen Step (init H cfg store) m

theorem Reach.enqueue {store : Index} {m : Machine H cfg} (h : Reach store m) (op : Op) : Reach store (m.enqueue op) :=
  h.tail (.enqueue m op)

theorem advance_step (m : Machine H cfg) (a : Awaits) : m.advance a = m ∨ Step m (m.advance a) := by
  unfold Machine.advance
  split
  · rename_i f hr
    split
    · rename_i hw; exact .inr (.write m a hr hw)
    · rename_i w hw; exact .inr (.finish m a hr hw)
  · rename_i hr
    split
    · rename_i op rest hq; exact .inr (.start m a hq hr)
    · exact .inl rfl

theorem Reach.advance {store : Index} {m : Machine H cfg} (h : Reach store m) (a : Awaits) : Reach store (m.advance a) := by
  rcases advance_step m a with he | hs
  · rw [he]; exact h
  · exact h.tail hs

theorem reach_inv {store : Index} {m : Machine H cfg} (h : Reach store m) : m.Inv := by
  induction h with
  | refl => exact init_inv store
  | tail _ hs ih => exact step_inv hs ih

end Machine

/-- At every point of every run the cache is behind the store, its roots are its own, and a commit
that went through stands at the place of its durable record. -/
theorem cache_behind_store {store : Index} {m : Machine H cfg} (h : Machine.Reach store m) :
    (∀ x c, m.members.ctx.lookup x = some c →
      c.tree.commitments <+: m.durable x ∧
      (∃ e, c.roots.current = some e ∧ rootFromFullBuild H cfg.depth c.tree.commitments = some e.root) ∧
      ∀ commitment ∈ c.tree.commitments, ∃ r ∈ m.store.forSeasonContext m.members.number x, r.commitment = commitment) ∧
    (m.running = none → ∀ r i root size, m.settled.getLast? = some (.commit r, .committed i root size) →
      ∃ c, m.members.ctx.lookup r.contextHash = some c ∧ c.tree.size = i + 1 ∧
        c.tree.commitments[i]? = some r.commitment ∧
        (m.store.forSeasonContext r.season r.contextHash)[i]? = some (r.record i)) := by
  have hi := Machine.reach_inv h
  refine ⟨fun x c hc => ?_, fun hr r i root size hs => (hi.committed hr r i root size hs).2⟩
  have hf := hi.follows x c hc
  obtain ⟨ts, htop⟩ := hf.top
  refine ⟨hf.behind, ⟨_, htop, c.tree.root_eq_fullBuild⟩, fun commitment hm => ?_⟩
  obtain ⟨r, hr, he⟩ := List.mem_map.1 (hf.behind.subset hm)
  exact ⟨r, hr, he⟩

end

/-- One registration, into the empty store of season 5. -/
theorem cache_behind_store_first :
    let H : Poseidon Nat := ⟨Int.toNat, fun a b => 3 * a + b, id⟩
    let cfg : Config := ⟨true, some 2, 8, true, true⟩
    let r : Commit := ⟨⟨.dec (.ofNat 5), "1", "2", "3", "plonk", "derive"⟩, true⟩
    ∃ m : Machine H cfg, m.running = none ∧
      m.settled.getLast? = some (.commit r, .committed 0 27 1) ∧
      ∃ c, m.members.ctx.lookup "1" = some c ∧ c.tree.size = 0 + 1 ∧ c.tree.commitments[0]? = some "3" ∧
        (m.store.forSeasonContext (.dec (.ofNat 5)) "1")[0]? = some (r.record 0) := by
  intro H cfg r
  let a : Awaits := ⟨false, false, false, false, false, 0, some (.dec (.ofNat 5)), false, .proceeds⟩
  let m := (((((Machine.init H cfg {}).enqueue (.ensure (.dec (.ofNat 5)))).enqueue (.commit r)).advance a).advance a).advance a
  have h : Machine.Reach {} m := (((((Machine.Reach.enqueue .refl _).enqueue _).advance a).advance a).advance a)
  have hr : (m.advance a).running = none := by decide
  have hs : (m.advance a).settled.getLast? = some (.commit r, .committed 0 27 1) := by decide
  exact ⟨m.advance a, hr, hs, (cache_behind_store (h.advance a)).2 hr r 0 27 1 hs⟩

end Season
