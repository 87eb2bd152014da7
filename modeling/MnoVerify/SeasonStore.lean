import MnoVerify.SeasonSound

/-!
# What commits do to the store

`Machine.Safe` is kept by every step of the queue: one record for each key, one
declaration for each bucket, no bucket above the capacity of its tree, and no two
commits that went through for one key.
-/

namespace Registration

theorem notMem_of_split {α : Type} {c : α} : ∀ {a b x y : List α}, c ∉ a → c ∉ x → a ++ c :: x = b ++ c :: y → c ∉ b
  | [], b, x, y, _, hx, h => by
    intro hc
    cases b with
    | nil => cases hc
    | cons d b =>
      rw [List.nil_append, List.cons_append, List.cons.injEq] at h
      exact hx (h.2 ▸ List.mem_append_right b List.mem_cons_self)
  | d :: a, b, x, y, ha, hx, h => by
    intro hc
    cases b with
    | nil => cases hc
    | cons e b =>
      rw [List.cons_append, List.cons_append, List.cons.injEq] at h
      have hd : c ≠ e := fun he => ha (by rw [he, ← h.1]; exact List.mem_cons_self)
      rcases List.mem_cons.1 hc with hc | hc
      · exact hd hc
      · exact notMem_of_split (fun hm => ha (List.mem_cons_of_mem _ hm)) hx h.2 hc

/-- A key whose own parts have no separator names its parts. -/
theorem uniqueKey_parts {s t : Js.Num} {c c' n n' : String} (hc : ':' ∉ c.toList) (hn : ':' ∉ n.toList)
    (h : uniqueKey s c n = uniqueKey t c' n') : s.toText = t.toText ∧ c = c' ∧ n = n' := by
  have h2 := (split_sep (colon_notMem_toText s) (colon_notMem_toText t) (String.ofList_inj.1 h)).2
  exact uniqueKey_inj hc (notMem_of_split hc hn h2) h

theorem bucketKey_congr {s t : Js.Num} (h : s.toText = t.toText) (c : String) : bucketKey s c = bucketKey t c := by
  rw [bucketKey, h, bucketKey]

namespace Index

/-- What the checks of an append keep, with at most `capacity` records in a bucket. -/
structure Sound (ix : Index) (capacity : Nat) : Prop where
  home : ∀ b, ∀ r ∈ ix.records b, r.bucket = b
  seen : ∀ b, ∀ r ∈ ix.records b, ix.has r.key = true
  kept : ∀ k, ix.has k = true → ∃ b, ∃ r ∈ ix.records b, r.key = k
  unique : ∀ b, ((ix.records b).map Record.key).Nodup
  declared : ∀ b, ∀ r ∈ ix.records b, ∀ q ∈ ix.records b, r.declaration = q.declaration
  plain : ∀ b, ∀ r ∈ ix.records b, ':' ∉ r.contextHash.toList ∧ ':' ∉ r.regNullifier.toList
  room : ∀ b, (ix.records b).length ≤ capacity

theorem sound_empty (capacity : Nat) : Sound {} capacity where
  home := fun b r hr => by cases hr
  seen := fun b r hr => by cases hr
  kept := fun k hk => by cases hk
  unique := fun b => .nil
  declared := fun b r hr => by cases hr
  plain := fun b r hr => by cases hr
  room := fun b => Nat.zero_le _

theorem mem_records_remember {ix : Index} {r q : Record} {b : String} :
    q ∈ (ix.remember r).records b ↔ q ∈ ix.records b ∨ (b = r.bucket ∧ q = r) := by
  rw [records_remember]
  by_cases h : b = r.bucket
  · rw [if_pos h, List.mem_append, List.mem_singleton]; simp [h]
  · rw [if_neg h]; simp [h]

theorem remember_sound {ix : Index} {capacity : Nat} (h : ix.Sound capacity) {d : Draft} (hd : d.Checked)
    (hk : ix.has d.key = false) (hh : ∀ q ∈ (ix.records d.bucket).head?, q.declaration = d.declaration)
    (hn : (ix.records d.bucket).length < capacity) : (ix.remember (d.record (ix.records d.bucket).length)).Sound capacity := by
  have hdecl : ∀ q ∈ ix.records d.bucket, q.declaration = d.declaration := by
    intro q hq
    cases hl : ix.records d.bucket with
    | nil => rw [hl] at hq; cases hq
    | cons p l =>
      have hp : p ∈ ix.records d.bucket := by rw [hl]; exact List.mem_cons_self
      rw [h.declared _ q hq p hp]
      exact hh p (by rw [hl]; rfl)
  refine ⟨fun b r hr => ?_, fun b r hr => ?_, fun k hk' => ?_, fun b => ?_, fun b r hr q hq => ?_, fun b r hr => ?_, fun b => ?_⟩
  · rcases mem_records_remember.1 hr with hr | ⟨hb, he⟩
    · exact h.home b r hr
    · rw [he, hb]
  · rw [has_remember, Bool.or_eq_true, decide_eq_true_eq]
    rcases mem_records_remember.1 hr with hr | ⟨-, he⟩
    · exact .inl (h.seen b r hr)
    · exact .inr (by rw [he])
  · rw [has_remember, Bool.or_eq_true, decide_eq_true_eq] at hk'
    rcases hk' with hk' | hk'
    · obtain ⟨b, r, hr, he⟩ := h.kept k hk'
      exact ⟨b, r, mem_records_remember.2 (.inl hr), he⟩
    · exact ⟨_, _, mem_records_remember.2 (.inr ⟨rfl, rfl⟩), hk'.symm⟩
  · rw [records_remember]
    split
    · rename_i hb
      rw [List.map_append, List.nodup_append]
      refine ⟨h.unique b, by simp, fun k hk' k' hs he => ?_⟩
      obtain ⟨r, hr, rfl⟩ := List.mem_map.1 hk'
      rw [List.map_singleton, List.mem_singleton, Draft.record_key] at hs
      have := h.seen b r hr
      rw [he, hs, hk] at this
      cases this
    · exact h.unique b
  · rcases mem_records_remember.1 hr with hr | ⟨hb, he⟩ <;> rcases mem_records_remember.1 hq with hq | ⟨hb', he'⟩
    · exact h.declared b r hr q hq
    · rw [he', Draft.record_declaration]; rw [hb'] at hr; exact hdecl r hr
    · rw [he, Draft.record_declaration]; rw [hb] at hq; exact (hdecl q hq).symm
    · rw [he, he']
  · rcases mem_records_remember.1 hr with hr | ⟨-, he⟩
    · exact h.plain b r hr
    · rw [he]; exact ⟨colon_notMem_canonical hd.contextHash, colon_notMem_canonical hd.regNullifier⟩
  · rw [records_remember]
    split
    · rename_i hb
      rw [List.length_append, List.length_singleton, hb]; exact hn
    · exact h.room b

/-- In one bucket, a nullifier fixes the record. -/
theorem Sound.eq_of_nullifier {ix : Index} {capacity : Nat} (h : ix.Sound capacity) (season : Js.Num) (contextHash : String) :
    ((ix.forSeasonContext season contextHash).map Record.regNullifier).Nodup := by
  have hu := h.unique (bucketKey season contextHash)
  rw [List.Nodup, List.pairwise_map] at hu ⊢
  refine hu.imp_of_mem fun {a b} ha hb hne he => hne ?_
  have hab : a.bucket = b.bucket := (h.home _ a ha).trans (h.home _ b hb).symm
  obtain ⟨ht, hc⟩ := bucketKey_inj hab
  rw [Record.key, Record.key, uniqueKey, uniqueKey, ht, hc, he]

/-- A key that was found belongs to a record of its bucket. -/
theorem Sound.record_of_has {ix : Index} {capacity : Nat} (h : ix.Sound capacity) {season : Js.Num} {contextHash nf : String}
    (hk : ix.has (uniqueKey season contextHash nf) = true) :
    ∃ r ∈ ix.forSeasonContext season contextHash, r.regNullifier = nf := by
  obtain ⟨b, r, hr, he⟩ := h.kept _ hk
  obtain ⟨hs, hc, hn⟩ := uniqueKey_parts (h.plain b r hr).1 (h.plain b r hr).2 he
  have hb : b = bucketKey season contextHash := by
    rw [← h.home b r hr, Record.bucket, hc]; exact bucketKey_congr hs _
  rw [hb] at hr
  exact ⟨r, hr, hn⟩

end Index

end Registration

namespace Season

open Members Registration

section
variable {F : Type} {H : Poseidon F} {cfg : Config}

theorem refusal_none {store : Index} {r : Commit} {c : Context H cfg} {a : Awaits} (h : State.refusal store r c a = none) :
    c.tree.size < 2 ^ cfg.depth ∧ (cfg.seasonNow = true → a.live = some r.season) := by
  unfold State.refusal at h
  split at h
  · cases h
  split at h
  · cases h
  split at h
  · cases h
  rename_i hfull
  split at h
  · cases h
  rename_i hlive
  split at h
  · cases h
  rename_i hseason
  rw [MembersTree.full, MembersTree.capacity, decide_eq_true_eq, Nat.not_le] at hfull
  refine ⟨hfull, fun hs => ?_⟩
  rw [hs, Bool.true_and, Option.isNone_iff_eq_none] at hlive
  rw [hs, Bool.true_and, Bool.not_eq_true'] at hseason
  cases hl : a.live with
  | none => exact absurd hl hlive
  | some live =>
    rw [hl, Option.any_some, Bool.not_eq_false] at hseason
    rw [eq_of_strictEq hseason]

/-- A durable write stores the commit's record at the end of its bucket, or nothing. -/
theorem appendDurable_cases (store : Index) (r : Commit) (w : Write) :
    ((appendDurable store r w).1 = store.remember (r.record (store.records r.bucket).length) ∧
      ((appendDurable store r w).2 = some (.answer (.stored (store.records r.bucket).length)) ∨
        (appendDurable store r w).2 = none) ∧
      r.toDraft.Checked ∧ store.has r.key = false ∧ ∀ q ∈ (store.records r.bucket).head?, q.declaration = r.declaration) ∨
    ((appendDurable store r w).1 = store ∧ ∀ i, (appendDurable store r w).2 ≠ some (.answer (.stored i))) := by
  have hc := Index.appendChecked_cases store r.toDraft
  cases w with
  | proceeds =>
    rcases hc with ⟨he, hrest⟩ | ⟨he, hno⟩
    · rw [appendDurable, he]
      exact .inl ⟨rfl, .inl rfl, hrest⟩
    · refine .inr ⟨he, fun i hi => hno i ?_⟩
      rw [appendDurable, Option.some.injEq, Written.answer.injEq] at hi
      exact hi
  | throws landed =>
    cases landed with
    | false => exact .inr ⟨rfl, fun i hi => by cases hi⟩
    | true =>
      rcases hc with ⟨he, hrest⟩ | ⟨he, -⟩
      · rw [appendDurable, if_pos rfl, he]
        exact .inl ⟨rfl, .inr rfl, hrest⟩
      · exact .inr ⟨he, fun i hi => by cases hi⟩
  | stale => exact .inr ⟨rfl, fun i hi => by cases hi⟩
  | unrecognised => exact .inr ⟨rfl, fun i hi => by cases hi⟩

namespace Machine

def committedKey : Op × Outcome → Option String
  | (.commit r, .committed _ _ _) => some r.key
  | _ => none

def storedKey (f : Frame H cfg) : Option String :=
  match f.written with
  | some (.answer (.stored _)) => some f.commit.key
  | _ => none

/-- The keys of the commits that stored their record and were, or are to be, told so. -/
def spent (m : Machine H cfg) : List String :=
  m.settled.filterMap committedKey ++ (m.running.bind storedKey).toList

/-- What the last recovery left, if it was the last to be over. -/
def Recovered (m : Machine H cfg) : Prop :=
  ∀ season x o, m.settled.getLast? = some (.recoverMember season x, o) → o ≠ .threw → m.members.isCurrent season = true →
    m.members.size x = (m.store.forSeasonContext season x).length

structure Safe (m : Machine H cfg) : Prop where
  sound : m.store.Sound (2 ^ cfg.depth)
  room : ∀ f, m.running = some f → f.written = none →
    (m.store.forSeasonContext f.commit.season f.commit.contextHash).length < 2 ^ cfg.depth ∧
      (cfg.seasonNow = true → f.live = some f.commit.season)
  once : m.spent.Nodup
  spent_has : ∀ k ∈ m.spent, m.store.has k = true
  recovered : m.running = none → m.Recovered

theorem init_safe {store : Index} (h : store.Sound (2 ^ cfg.depth)) : (init H cfg store).Safe where
  sound := h
  room := fun f hf => by cases hf
  once := .nil
  spent_has := fun k hk => by cases hk
  recovered := fun _ season x o hs => by cases hs

theorem spent_settle {m : Machine H cfg} {members : State H cfg} {op : Op} {o : Outcome} :
    (m.settle members op o).spent = m.settled.filterMap committedKey ++ (committedKey (op, o)).toList := by
  rw [spent, settle, List.filterMap_append]
  cases h : committedKey (op, o) <;> simp [h]

theorem committedKey_idle {op : Op} {o : Outcome} (h : o.Idle) : committedKey (op, o) = none := by
  cases o with
  | committed i root size => exact absurd rfl (h i root size)
  | _ => cases op <;> rfl

/-- The part of `Safe` that is about the store and the operations that are over. -/
structure Kept (m : Machine H cfg) : Prop where
  sound : m.store.Sound (2 ^ cfg.depth)
  once : (m.settled.filterMap committedKey).Nodup
  has : ∀ k ∈ m.settled.filterMap committedKey, m.store.has k = true

theorem Safe.toKept {m : Machine H cfg} (h : m.Safe) : m.Kept :=
  ⟨h.sound, (List.nodup_append.1 h.once).1, fun k hk => h.spent_has k (List.mem_append_left _ hk)⟩

/-- An operation that is over without a commit going through. -/
theorem settle_safe {m : Machine H cfg} (h : m.Kept) {members : State H cfg} {op : Op} {o : Outcome} (ho : o.Idle)
    (hr : ∀ season x, op = .recoverMember season x → o ≠ .threw → members.isCurrent season = true →
      members.size x = (m.store.forSeasonContext season x).length) : (m.settle members op o).Safe := by
  have hs : (m.settle members op o).spent = m.settled.filterMap committedKey := by
    rw [spent_settle, committedKey_idle ho, Option.toList_none, List.append_nil]
  refine ⟨h.sound, fun f hf => (by cases hf), by rw [hs]; exact h.once, fun k hk => h.has k (by rwa [hs] at hk),
    fun _ season x o' hl hne hc => ?_⟩
  rw [settle, List.getLast?_concat, Option.some.injEq, Prod.mk.injEq] at hl
  exact hr season x hl.1 (hl.2 ▸ hne) hc

theorem start_safe {m : Machine H cfg} (h : m.Safe) (hi : m.Inv) (op : Op) (rest : List Op) (a : Awaits)
    (hrun : m.running = none) : (m.start op rest a).Safe := by
  have hq : ({ m with queue := rest } : Machine H cfg).Kept := ⟨h.sound, h.toKept.once, h.toKept.has⟩
  cases op with
  | ensure season =>
    refine settle_safe hq (fun i root size ho => ?_) fun season x he => by cases he
    dsimp only [State.ensure] at ho
    split at ho <;> cases ho
  | ensureContext season x =>
    refine settle_safe hq (fun i root size ho => ?_) fun season x he => by cases he
    simp only [State.ensureContext] at ho
    repeat' split at ho
    all_goals cases ho
  | recoverMember season x =>
    refine settle_safe hq (fun i root size ho => ?_) fun season' x' he hne hc => ?_
    · simp only [State.recoverMember] at ho
      repeat' split at ho
      all_goals cases ho
    · cases he
      simp only [State.recoverMember] at hne hc ⊢
      split at hne
      · rename_i hcur
        rw [if_pos hcur] at hc ⊢
        cases hr : m.members.reconcileIfBehind m.store x a with
        | none => rw [hr] at hne; exact absurd rfl hne
        | some p =>
          obtain ⟨-, -, hsize, -⟩ := State.reconcileIfBehind_spec hi.follows hr
          have hn : m.members.number = season := by rw [State.number, State.number_of_isCurrent hcur]; rfl
          rw [hn] at hsize
          exact hsize
      · rename_i hcur
        rw [if_neg hcur] at hc
        exact absurd hc hcur
  | commit r =>
    have hp := State.prepare_spec hi.follows r a
    have hno : ∀ o, (m.members.prepare m.store r a).2 = .inl o → o.Idle := fun o => State.prepare_idle
    simp only [start]
    cases hq' : m.members.prepare m.store r a with
    | mk members res =>
      rw [hq'] at hp hno
      cases res with
      | inl o => exact settle_safe hq (hno o rfl) fun season x he => by cases he
      | inr c =>
        obtain ⟨-, hsize, href⟩ := hp.2 c rfl
        have hs : spent { m with queue := rest, members := members, running := some ⟨r, c, a.live, none⟩ } = m.spent := by
          rw [spent, spent, hrun]; rfl
        refine ⟨h.sound, fun f hf _ => ?_, by rw [hs]; exact h.once, fun k hk => h.spent_has k (by rwa [hs] at hk),
          fun hn => by cases hn⟩
        cases hf
        rw [← hsize]
        exact refusal_none href

theorem storedKey_eq {f : Frame H cfg} {k : String} (h : storedKey f = some k) :
    (∃ i, f.written = some (.answer (.stored i))) ∧ k = f.commit.key := by
  unfold storedKey at h
  split at h
  · rename_i i hw; cases h; exact ⟨⟨i, hw⟩, rfl⟩
  · cases h

/-- A commit that has been told what its durable write did. -/
theorem running_safe {m : Machine H cfg} (h : m.Kept) {f : Frame H cfg} (hw : f.written ≠ none)
    (hk : ∀ k, storedKey f = some k → m.store.has k = true ∧ k ∉ m.settled.filterMap committedKey) :
    ({ m with running := some f } : Machine H cfg).Safe := by
  refine ⟨h.sound, fun g hg hn => ?_, ?_, fun k hm => ?_, fun hn => by cases hn⟩
  · cases hg; exact absurd hn hw
  · refine List.nodup_append.2 ⟨h.once, ?_, fun k hm k' hm' he => ?_⟩
    · rw [Option.bind_some]; cases storedKey f <;> simp
    · rw [Option.bind_some, Option.mem_toList] at hm'
      exact (hk k' hm').2 (he ▸ hm)
  · rcases List.mem_append.1 hm with hm | hm
    · exact h.has k hm
    · rw [Option.bind_some, Option.mem_toList] at hm
      exact (hk k hm).1

theorem write_safe {m : Machine H cfg} (h : m.Safe) {f : Frame H cfg} (a : Awaits) (hr : m.running = some f)
    (hw : f.written = none) : (m.write f a).Safe := by
  have hc := appendDurable_cases m.store f.commit a.write
  have hkept : ∀ store, (appendDurable m.store f.commit a.write).1 = store → ({ m with store := store } : Machine H cfg).Kept := by
    intro store hs
    rcases hc with ⟨he, -, hd, hk, hh⟩ | ⟨he, -⟩
    · rw [← hs, he]
      exact ⟨Index.remember_sound h.sound hd hk hh (h.room f hr hw).1, h.toKept.once,
        fun k hm => by rw [Index.has_remember, h.toKept.has k hm, Bool.true_or]⟩
    · rw [← hs, he]; exact h.toKept
  rw [write]
  cases hd : appendDurable m.store f.commit a.write with
  | mk store res =>
    rw [hd] at hc hkept
    cases res with
    | none => exact settle_safe (hkept store rfl) (by simp [Outcome.Idle]) fun season x he => by cases he
    | some w =>
      refine running_safe (hkept store rfl) (by simp) fun k hk => ?_
      obtain ⟨⟨i, hi⟩, rfl⟩ := storedKey_eq hk
      rcases hc with ⟨he, -, -, hnew, -⟩ | ⟨-, hno⟩
      · refine ⟨?_, fun hm => ?_⟩
        · dsimp only at he ⊢
          rw [he, Index.has_remember, Draft.record_key, decide_eq_true rfl, Bool.or_true]
        · rw [h.toKept.has _ hm] at hnew; cases hnew
      · exact absurd hi (hno i)

theorem finish_safe {m : Machine H cfg} (h : m.Safe) {f : Frame H cfg} {w : Written} (a : Awaits) (hr : m.running = some f)
    (hw : f.written = some w) : (m.finish f w a).Safe := by
  have hkey : ∀ o, o = (m.members.finish f.commit f.context w a).2 →
      (committedKey (.commit f.commit, o)).toList.Sublist (storedKey f).toList := by
    intro o ho
    cases hk : committedKey (.commit f.commit, o) with
    | none => exact List.nil_sublist _
    | some k =>
      cases o with
      | committed i root size =>
        cases hk
        have hst : ∃ i, w = .answer (.stored i) := by
          unfold State.finish at ho
          split at ho
          case h_6 i => exact ⟨i, rfl⟩
          all_goals exact nomatch ho
        obtain ⟨j, rfl⟩ := hst
        rw [storedKey, hw]
      | _ => cases hk
  have hs : (m.finish f w a).spent.Sublist m.spent := by
    rw [finish, spent_settle, spent, hr, Option.bind_some]
    exact (List.Sublist.refl _).append (hkey _ rfl)
  refine ⟨h.sound, fun f hf => (by cases hf), h.once.sublist hs, fun k hk => h.spent_has k (hs.subset hk),
    fun _ season x o hl => ?_⟩
  rw [finish, settle, List.getLast?_concat] at hl
  cases hl

theorem step_safe {m m' : Machine H cfg} (hs : Step m m') (h : m.Safe) (hi : m.Inv) : m'.Safe := by
  cases hs with
  | enqueue op => exact ⟨h.sound, h.room, h.once, h.spent_has, h.recovered⟩
  | start a hq hr => exact start_safe h hi _ _ a hr
  | write a hr hw => exact write_safe h a hr hw
  | finish a hr hw => exact finish_safe h a hr hw

/-! ## Tickets -/

theorem ops_enqueue (m : Machine H cfg) (op : Op) : (m.enqueue op).ops = m.ops ++ [op] := (List.append_assoc _ _ _).symm

theorem settle_ops (m : Machine H cfg) (members : State H cfg) (op : Op) (o : Outcome) :
    (m.settle members op o).ops = m.settled.map Prod.fst ++ op :: m.queue := by simp [ops, settle]

theorem start_ops {m : Machine H cfg} {op : Op} {rest : List Op} (a : Awaits) (hq : m.queue = op :: rest)
    (hr : m.running = none) : (m.start op rest a).ops = m.ops ∧ m.settled <+: (m.start op rest a).settled := by
  have hm : m.ops = m.settled.map Prod.fst ++ op :: rest := by simp [ops, hr, hq]
  rw [hm]
  cases op with
  | commit r =>
    simp only [start]
    split
    · exact ⟨settle_ops _ _ _ _, List.prefix_append _ _⟩
    · exact ⟨by simp [ops], List.prefix_refl _⟩
  | _ => exact ⟨settle_ops _ _ _ _, List.prefix_append _ _⟩

theorem write_ops {m : Machine H cfg} {f : Frame H cfg} (a : Awaits) (hr : m.running = some f) :
    (m.write f a).ops = m.ops ∧ m.settled <+: (m.write f a).settled := by
  have hm : m.ops = m.settled.map Prod.fst ++ .commit f.commit :: m.queue := by simp [ops, hr]
  rw [hm, write]
  split
  · exact ⟨settle_ops _ _ _ _, List.prefix_append _ _⟩
  · exact ⟨by simp [ops], List.prefix_refl _⟩

theorem finish_ops {m : Machine H cfg} {f : Frame H cfg} (w : Written) (a : Awaits) (hr : m.running = some f) :
    (m.finish f w a).ops = m.ops ∧ m.settled <+: (m.finish f w a).settled := by
  have hm : m.ops = m.settled.map Prod.fst ++ .commit f.commit :: m.queue := by simp [ops, hr]
  rw [hm, finish]
  exact ⟨settle_ops _ _ _ _, List.prefix_append _ _⟩

/-- An operation runs in its turn, and its outcome stands where it was enqueued. -/
theorem advance_ops (m : Machine H cfg) (a : Awaits) : (m.advance a).ops = m.ops ∧ m.settled <+: (m.advance a).settled := by
  unfold advance
  split
  · rename_i f hr
    split
    · exact write_ops a hr
    · exact finish_ops _ a hr
  · rename_i hr
    split
    · rename_i op rest hq; exact start_ops a hq hr
    · exact ⟨rfl, List.prefix_refl _⟩

theorem ops_settled {m : Machine H cfg} {t : Nat} {op : Op} {o : Outcome} (h : m.settled[t]? = some (op, o)) :
    m.ops[t]? = some op := by
  have ht : t < m.settled.length := (List.getElem?_eq_some_iff.1 h).1
  rw [ops, List.append_assoc, List.getElem?_append_left (by simpa using ht), List.getElem?_map, h]; rfl

theorem ops_running {m : Machine H cfg} {f : Frame H cfg} (h : m.running = some f) :
    m.ops[m.settled.length]? = some (.commit f.commit) := by
  rw [ops, h, List.append_assoc, List.getElem?_append_right (by simp)]; simp

theorem write_store (m : Machine H cfg) (f : Frame H cfg) (a : Awaits) :
    (m.write f a).store = (appendDurable m.store f.commit a.write).1 := by
  rw [write]
  split
  · rename_i hd; rw [hd]; rfl
  · rename_i hd; rw [hd]

/-- A store changes in no other step than a durable write, and grows by the record of its commit. -/
theorem advance_store (m : Machine H cfg) (a : Awaits) : (m.advance a).store = m.store ∨
    ∃ f, m.running = some f ∧ f.written = none ∧
      (m.advance a).store = m.store.remember (f.commit.record (m.store.records f.commit.bucket).length) := by
  unfold advance
  split
  · rename_i f hr
    split
    · rename_i hw
      rw [write_store]
      rcases appendDurable_cases m.store f.commit a.write with ⟨he, -⟩ | ⟨he, -⟩
      · exact .inr ⟨f, hr, hw, he⟩
      · exact .inl he
    · exact .inl rfl
  · split
    · rename_i op rest _
      refine .inl ?_
      cases op with
      | commit r =>
        simp only [start]
        split <;> rfl
      | _ => rfl
    · exact .inl rfl

end Machine

end

end Season
