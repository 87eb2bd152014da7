import MnoVerify.Decommission
import MnoVerify.Coerce
import MnoVerify.GrantLedgerSound

/-!
# What a decommission forgets

`decommission_keeps`: a row stops naming a target for a member only when the target was
given, the row belongs to this guild, and the member's removal settled, found nothing,
or the target was confirmed gone; everything else of every row stays. The pass leaves
the bot's own member alone, and `bot_forgotten` is a ledger with a row for it.
-/

namespace Decommission

open GrantLedger (Target mem_list_channel mem_list_role)

/-- What a row names. -/
def Row.Names (row : Row) (t : Target) : Prop := ∃ record, row.record = some record ∧ t ∈ record.toTargets.list

def Db.Names (db : Db) (u : String) (t : Target) : Prop := ∃ row, db.row u = some row ∧ row.Names t

def Run.targets (run : Run) : List Target := match run.pass with
  | .role v => [.role v.id]
  | .channel vs => vs.map fun v => .channel v.id

/-- The member's role was taken back, or was not there to take. -/
def RoleVisit.TookBack (v : RoleVisit) (confirmGone : Bool) (u : String) : Prop :=
  (confirmGone = true ∧ (v.fetched = .gone ∨ v.fetched = .null)) ∨
    v.fetched = .found () ∧
      ∃ members, v.members = some members ∧ ∀ m ∈ members, m.1.id = u → m.1.holds = true → m.2 ≠ .failed

/-- The member's access to the channel was taken back, or was not there to take. -/
def ChannelVisit.TookBack (v : ChannelVisit) (confirmGone : Bool) (u : String) : Prop :=
  (confirmGone = true ∧ v.fetched = .gone) ∨
    ∃ overwrites, v.fetched = .found overwrites ∧
      ∀ ow ∈ overwrites, ow.1.id = u → ow.1.member = true → ow.1.managedAllow ≠ [] → ow.2 ≠ .failed

/-- The removal of `u` on the target settled, found nothing to remove, or the target was confirmed gone. -/
inductive TakenBack (run : Run) (u : String) : Target → Prop
  | role {v : RoleVisit} (hp : run.pass = .role v) (h : v.TookBack run.confirmGone u) : TakenBack run u (.role v.id)
  | channel {vs : List ChannelVisit} {id : String} (hp : run.pass = .channel vs) (hm : ∃ v ∈ vs, v.id = id)
      (h : ∀ v ∈ vs, v.id = id → v.TookBack run.confirmGone u) : TakenBack run u (.channel id)

/-- The transform counts the target as taken back from the member. -/
inductive Cleared (run : Run) (t : Tally) (u : String) : Target → Prop
  | role {v : RoleVisit} (hp : run.pass = .role v) (h : u ∉ t.failedMembers) : Cleared run t u (.role v.id)
  | channel {vs : List ChannelVisit} {id : String} (hp : run.pass = .channel vs) (hm : ∃ v ∈ vs, v.id = id)
      (hs : id ∉ t.skippedChannels) (h : pair id u ∉ t.failedPairs) : Cleared run t u (.channel id)

theorem Cleared.mem_targets {run : Run} {t : Tally} {u : String} {x : Target} (h : Cleared run t u x) : x ∈ run.targets := by
  cases h with
  | role hp => rw [Run.targets, hp]; exact List.mem_singleton_self _
  | channel hp hm =>
    obtain ⟨v, hv, rfl⟩ := hm
    rw [Run.targets, hp]
    exact List.mem_map.2 ⟨v, hv, rfl⟩

/-! ## The transform -/

/-- What the transform does to a record: nothing, or it belongs to this guild and loses targets among `C`. -/
inductive Transformed (guildId : String) (scope : Option String) (C : Target → Prop) (record : Record) :
    Ledger.Retired Record → Prop
  | same : Transformed guildId scope C record .same
  | drop (home : recordHomeGuild record scope (some guildId) = some guildId) (h : ∀ x ∈ record.toTargets.list, C x)
      (hn : record.toTargets.list ≠ []) : Transformed guildId scope C record .drop
  | replace (channels : List String) (home : recordHomeGuild record scope (some guildId) = some guildId)
      (hm : record.mode = .channel) (hs : ∀ c ∈ channels, c ∈ record.channels) (hn : channels ≠ [])
      (h : ∀ c ∈ record.channels, c ∈ channels ∨ C (.channel c)) (hc : ∃ c ∈ record.channels, c ∉ channels) :
      Transformed guildId scope C record (.replace { record with channels := channels })

theorem home_of_local {record : Record} {scope : Option String} {guildId : String}
    (h : ¬ ((some guildId).isSome = true ∧ (recordHomeGuild record scope (some guildId)).isSome = true ∧
      recordHomeGuild record scope (some guildId) ≠ some guildId)) :
    recordHomeGuild record scope (some guildId) = some guildId := by
  by_contra hne
  have hsome : (recordHomeGuild record scope (some guildId)).isSome = true := by
    have hor : (scope.or (some guildId)).isSome = true := by cases scope <;> rfl
    unfold recordHomeGuild
    split
    · split
      · rfl
      · exact hor
    · exact hor
  exact h ⟨rfl, hsome, hne⟩

theorem transform_role {ids : List String} {guildId : String} {scope : Option String} {t : Tally} {record : Record}
    {u : String} {C : Target → Prop} (hC : ∀ id ∈ ids, u ∉ t.failedMembers → C (.role id)) :
    Transformed guildId scope C record (retireTargetTransform .role ids (some guildId) scope t record u) := by
  unfold retireTargetTransform
  dsimp only
  split
  · exact .same
  rename_i hlocal
  split
  · exact .same
  rename_i hu
  split
  · rename_i hr
    obtain ⟨hm, hany⟩ := hr
    cases hid : record.roleId with
    | none => rw [hid] at hany; cases hany
    | some id =>
      rw [hid] at hany
      have hid' : id ∈ ids := by simpa using hany
      refine .drop (home_of_local hlocal) (fun x hx => ?_) ?_
      · obtain ⟨i, hi, rfl⟩ := (mem_list_role hm x).1 hx
        rw [hid] at hi; cases hi
        exact hC id hid' hu
      · exact List.ne_nil_of_mem ((mem_list_role hm (.role id)).2 ⟨id, hid, rfl⟩)
  · exact .same

theorem transform_channel {ids : List String} {guildId : String} {scope : Option String} {t : Tally} {record : Record}
    {u : String} {C : Target → Prop}
    (hC : ∀ c ∈ ids, c ∉ t.skippedChannels → pair c u ∉ t.failedPairs → C (.channel c)) :
    Transformed guildId scope C record (retireTargetTransform .channel ids (some guildId) scope t record u) := by
  unfold retireTargetTransform
  dsimp only
  split
  · exact .same
  rename_i hlocal
  have home := home_of_local hlocal
  split
  · exact .same
  rename_i hm
  have hm : record.mode = .channel := by simpa using hm
  generalize hcl : ids.filter (fun c => decide (c ∉ t.skippedChannels ∧ pair c u ∉ t.failedPairs)) = cleared
  have hcleared {c : String} (hc : c ∈ cleared) : C (.channel c) := by
    rw [← hcl] at hc
    obtain ⟨hmem, hok⟩ := List.mem_filter.1 hc
    obtain ⟨hs, hf⟩ := of_decide_eq_true hok
    exact hC c hmem hs hf
  split
  · exact .same
  split
  · exact .same
  rename_i hlen
  have hleft (c : String) (hc : c ∈ record.channels) :
      c ∈ record.channels.filter (fun c => decide (c ∉ cleared)) ∨ C (.channel c) := by
    by_cases hcc : c ∈ cleared
    · exact .inr (hcleared hcc)
    · exact .inl (List.mem_filter.2 ⟨hc, decide_eq_true hcc⟩)
  have hlost : ∃ c ∈ record.channels, c ∉ record.channels.filter fun c => decide (c ∉ cleared) := by
    by_contra hno
    push Not at hno
    exact hlen (congrArg List.length (List.filter_eq_self.2 fun c hc => (List.mem_filter.1 (hno c hc)).2))
  split
  · rename_i hemp
    rw [List.isEmpty_iff] at hemp
    refine .drop home (fun x hx => ?_) ?_
    · obtain ⟨c, hc, rfl⟩ := (mem_list_channel hm x).1 hx
      refine (hleft c hc).resolve_left fun h => ?_
      rw [hemp] at h; cases h
    · obtain ⟨c, hc, -⟩ := hlost
      exact List.ne_nil_of_mem ((mem_list_channel hm (.channel c)).2 ⟨c, hc, rfl⟩)
  · rename_i hemp
    exact .replace _ home hm (fun c hc => (List.mem_filter.1 hc).1) (fun h => hemp (List.isEmpty_iff.2 h)) hleft hlost

theorem transform_spec (run : Run) (db : Db) (t : Tally) (record : Record) (u : String) :
    Transformed run.guildId db.scope (Cleared run t u) record (run.transform db t record u) := by
  unfold Run.transform
  cases hp : run.pass with
  | role v =>
    refine transform_role fun id hid hu => ?_
    rw [show id = v.id from List.mem_singleton.1 hid]
    exact .role hp hu
  | channel vs =>
    refine transform_channel fun c hc hs hf => ?_
    obtain ⟨v, hv, rfl⟩ := List.mem_map.1 hc
    exact .channel hp ⟨v, hv, rfl⟩ hs hf

/-! ## The pass -/

theorem failedMembers_takeRole (run : Run) (t : Tally) (m : Member × Outcome) :
    (∀ u ∈ t.failedMembers, u ∈ (takeRole run t m).failedMembers) ∧
      (run.dryRun = false → m.1.holds = true → m.1.id ≠ run.botUserId → m.2 = .failed →
        m.1.id ∈ (takeRole run t m).failedMembers) := by
  unfold takeRole
  split
  · rename_i hskip
    refine ⟨fun u hu => hu, fun _ hh hb => ?_⟩
    simp [hh, hb] at hskip
  split
  · exact ⟨fun u hu => hu, fun hd => by simp_all⟩
  split
  · exact ⟨fun u hu => hu, fun _ _ _ ho => by simp_all⟩
  · exact ⟨fun u hu => hu, fun _ _ _ ho => by simp_all⟩
  · exact ⟨fun u hu => List.mem_append_left _ hu, fun _ _ _ _ => List.mem_append_right _ (List.mem_singleton_self _)⟩

theorem failedMembers_foldl (run : Run) (members : List (Member × Outcome)) : ∀ (t : Tally),
    (∀ u ∈ t.failedMembers, u ∈ (members.foldl (takeRole run) t).failedMembers) ∧
      ∀ m ∈ members, run.dryRun = false → m.1.holds = true → m.1.id ≠ run.botUserId → m.2 = .failed →
        m.1.id ∈ (members.foldl (takeRole run) t).failedMembers := by
  induction members with
  | nil => exact fun t => ⟨fun u hu => hu, nofun⟩
  | cons m members ih =>
    intro t
    obtain ⟨hkeep, hadd⟩ := failedMembers_takeRole run t m
    obtain ⟨hkeep', hadd'⟩ := ih (takeRole run t m)
    refine ⟨fun u hu => hkeep' u (hkeep u hu), fun m' hm' hd hh hb ho => ?_⟩
    rcases List.mem_cons.1 hm' with rfl | hm'
    · exact hkeep' _ (hadd hd hh hb ho)
    · exact hadd' m' hm' hd hh hb ho

theorem rolePass_tookBack {run : Run} {v : RoleVisit} {t : Tally} (h : rolePass run v = .ok t) (hd : run.dryRun = false)
    {u : String} (hb : u ≠ run.botUserId) (hu : u ∉ t.failedMembers) : v.TookBack run.confirmGone u := by
  unfold rolePass at h
  split at h
  · cases h
  · rename_i hf
    split at h
    · exact .inl ⟨‹_›, .inr hf⟩
    · cases h
  · rename_i hf
    split at h
    · exact .inl ⟨‹_›, .inl hf⟩
    · cases h
  · rename_i hf
    split at h
    · cases h
    · cases h
    · split at h
      · cases h
      · rename_i members hm
        cases h
        refine .inr ⟨hf, members, hm, fun m hmem hid hh ho => ?_⟩
        have hfail := (failedMembers_foldl run members .empty).2 m hmem hd hh (by rw [hid]; exact hb) ho
        rw [hid] at hfail
        exact hu hfail

/-- The tally keeps what it has recorded against the target channels. -/
def Tally.Le (t t' : Tally) : Prop :=
  (∀ c ∈ t.skippedChannels, c ∈ t'.skippedChannels) ∧ ∀ p ∈ t.failedPairs, p ∈ t'.failedPairs

theorem Tally.Le.rfl {t : Tally} : t.Le t := ⟨fun _ h => h, fun _ h => h⟩

theorem Tally.Le.trans {t t' t'' : Tally} (h : t.Le t') (h' : t'.Le t'') : t.Le t'' :=
  ⟨fun c hc => h'.1 c (h.1 c hc), fun p hp => h'.2 p (h.2 p hp)⟩

theorem le_clearOverwrite (run : Run) (c : String) (t : Tally) (ow : Overwrite × Outcome) :
    t.Le (clearOverwrite run c t ow) ∧ (run.dryRun = false → ow.1.held run.botUserId = true → ow.2 = .failed →
      pair c ow.1.id ∈ (clearOverwrite run c t ow).failedPairs) := by
  unfold clearOverwrite
  split
  · rename_i hskip
    exact ⟨.rfl, fun _ hh => by simp [hh] at hskip⟩
  split
  · exact ⟨.rfl, fun hd => by simp_all⟩
  split
  · exact ⟨.rfl, fun _ _ ho => by simp_all⟩
  · exact ⟨.rfl, fun _ _ ho => by simp_all⟩
  · exact ⟨⟨fun _ h => h, fun p hp => List.mem_append_left _ hp⟩,
      fun _ _ _ => List.mem_append_right _ (List.mem_singleton_self _)⟩

theorem le_foldl_clearOverwrite (run : Run) (c : String) (ows : List (Overwrite × Outcome)) : ∀ (t : Tally),
    t.Le (ows.foldl (clearOverwrite run c) t) ∧
      ∀ ow ∈ ows, run.dryRun = false → ow.1.held run.botUserId = true → ow.2 = .failed →
        pair c ow.1.id ∈ (ows.foldl (clearOverwrite run c) t).failedPairs := by
  induction ows with
  | nil => exact fun t => ⟨.rfl, nofun⟩
  | cons ow ows ih =>
    intro t
    obtain ⟨hle, hadd⟩ := le_clearOverwrite run c t ow
    obtain ⟨hle', hadd'⟩ := ih (clearOverwrite run c t ow)
    refine ⟨hle.trans hle', fun ow' how' hd hh ho => ?_⟩
    rcases List.mem_cons.1 how' with rfl | how'
    · exact hle'.2 _ (hadd hd hh ho)
    · exact hadd' ow' how' hd hh ho

theorem le_skip (t : Tally) (c : String) : t.Le (t.skip c) :=
  ⟨fun _ hc => List.mem_append_left _ hc, fun _ h => h⟩

/-- After the visit of a channel, what is neither skipped nor a failed pair was taken back. -/
theorem visitChannel_spec {run : Run} {t t' : Tally} {v : ChannelVisit} (h : visitChannel run t v = .ok t') :
    t.Le t' ∧ (run.dryRun = false → ∀ u, u ≠ run.botUserId → v.id ∉ t'.skippedChannels → pair v.id u ∉ t'.failedPairs →
      v.TookBack run.confirmGone u) := by
  unfold visitChannel at h
  split at h
  · rename_i hf
    split at h
    · cases h; exact ⟨.rfl, fun _ u _ _ _ => .inl ⟨‹_›, hf⟩⟩
    · cases h
      exact ⟨le_skip t v.id, fun _ u _ hs => absurd (List.mem_append_right _ (List.mem_singleton_self _)) hs⟩
  · cases h
    exact ⟨le_skip t v.id, fun _ u _ hs => absurd (List.mem_append_right _ (List.mem_singleton_self _)) hs⟩
  · cases h
  · rename_i ows hf
    cases h
    obtain ⟨hle, hadd⟩ := le_foldl_clearOverwrite run v.id ows t
    refine ⟨hle, fun hd u hb _ hp => .inr ⟨ows, hf, fun ow how hid hm ha ho => hp ?_⟩⟩
    have hheld : ow.1.held run.botUserId = true := by
      simp [Overwrite.held, hm, hid, hb, ha]
    rw [← hid]
    exact hadd ow how hd hheld ho

theorem channelPass_tookBack {run : Run} (hd : run.dryRun = false) {u : String} (hb : u ≠ run.botUserId)
    {vs : List ChannelVisit} : ∀ {t t' : Tally}, vs.foldlM (visitChannel run) t = .ok t' → t.Le t' ∧
      ∀ v ∈ vs, v.id ∉ t'.skippedChannels → pair v.id u ∉ t'.failedPairs → v.TookBack run.confirmGone u := by
  induction vs with
  | nil =>
    intro t t' h
    cases h
    exact ⟨.rfl, nofun⟩
  | cons v vs ih =>
    intro t t' h
    rw [List.foldlM_cons] at h
    obtain ⟨t₁, h₁, h₂⟩ := Js.bind_eq_ok.1 h
    obtain ⟨hle, hback⟩ := visitChannel_spec h₁
    obtain ⟨hle', hback'⟩ := ih h₂
    refine ⟨hle.trans hle', fun v' hv' hs hp => ?_⟩
    rcases List.mem_cons.1 hv' with rfl | hv'
    · exact hback hd u hb (fun hc => hs (hle'.1 _ hc)) fun hc => hp (hle'.2 _ hc)
    · exact hback' v' hv' hs hp

theorem takenBack_of_cleared {run : Run} {t : Tally} (h : takeBack run = .ok t) (hd : run.dryRun = false) {u : String}
    (hb : u ≠ run.botUserId) {x : Target} (hc : Cleared run t u x) : TakenBack run u x := by
  cases hc with
  | role hp hu =>
    rw [takeBack, hp] at h
    exact .role hp (rolePass_tookBack h hd hb hu)
  | channel hp hm hs hf =>
    rw [takeBack, hp] at h
    refine .channel hp hm fun v hv hid => ?_
    subst hid
    exact (channelPass_tookBack hd hb h).2 v hv hs hf

/-! ## The rows -/

/-- What the retirement makes of a row. -/
inductive Settled (transform : Record → String → Ledger.Retired Record) (u : String) (row : Row) : Option Row → Prop
  | same {before : Record} (hp : row.parse = some before) (ht : transform before u = .same) :
      Settled transform u row (some row)
  | drop {before : Record} (hp : row.parse = some before) (ht : transform before u = .drop) : Settled transform u row none
  | replace {before after : Record} (rev : Nat) (hp : row.parse = some before) (ht : transform before u = .replace after)
      (hv : GrantLedger.isValidRecord after.toRecord = true) :
      Settled transform u row (some ⟨some after, ⌊after.expiresAt⌋, rev⟩)

/-- A retirement that commits adds no row, and settles every row there was. -/
theorem retireRows_settles {fails : String → Bool} {transform : Record → String → Ledger.Retired Record}
    {rows : List (String × Row)} : ∀ {revSeq : Nat} {r : List (String × Row) × Nat},
    retireRows fails transform rows revSeq = some r → (rows.map Prod.fst).Nodup → ∀ u : String,
      (rows.lookup u = none → r.1.lookup u = none) ∧
        ∀ row, rows.lookup u = some row → Settled transform u row (r.1.lookup u) := by
  induction rows with
  | nil => rintro revSeq r ⟨⟩ _ u; exact ⟨fun h => h, nofun⟩
  | cons p rows ih =>
    obtain ⟨k, row₀⟩ := p
    intro revSeq r h hnd u
    obtain ⟨hk, hnd⟩ := List.nodup_cons.1 hnd
    -- the row at the head: its own member gets `row'`, and the others what `r'` has for them
    have hcons {n : Nat} {r' : List (String × Row) × Nat} {row' : Row}
        (hr' : retireRows fails transform rows n = some r') (hs : Settled transform k row₀ (some row')) :
        (((k, row₀) :: rows).lookup u = none → ((k, row') :: r'.1).lookup u = none) ∧
          ∀ row, ((k, row₀) :: rows).lookup u = some row → Settled transform u row (((k, row') :: r'.1).lookup u) := by
      rw [Assoc.lookup_cons, Assoc.lookup_cons]
      by_cases huk : u = k
      · subst huk
        rw [if_pos rfl, if_pos rfl]
        refine ⟨nofun, fun row hrow => ?_⟩
        cases hrow
        exact hs
      · rw [if_neg huk, if_neg huk]
        exact ih hr' hnd u
    rw [retireRows] at h
    split at h
    · cases h
    rename_i before hp
    split at h
    · rename_i ht
      obtain ⟨r', hr', rfl⟩ := Option.map_eq_some_iff.1 h
      exact hcons hr' (.same hp ht)
    · rename_i ht
      split at h
      · cases h
      rw [Assoc.lookup_cons]
      by_cases huk : u = k
      · subst huk
        rw [if_pos rfl]
        have hgone : r.1.lookup u = none := by
          by_contra hne
          obtain ⟨row', hrow'⟩ := Option.ne_none_iff_exists'.1 hne
          exact hk ((keys_retireRows h).subset (List.mem_map.2 ⟨_, Assoc.mem_of_lookup hrow', rfl⟩))
        rw [hgone]
        refine ⟨nofun, fun row hrow => ?_⟩
        cases hrow
        exact .drop hp ht
      · rw [if_neg huk]
        exact ih h hnd u
    · rename_i after ht
      split at h
      · cases h
      · rename_i hok
        obtain ⟨r', hr', rfl⟩ := Option.map_eq_some_iff.1 h
        refine hcons hr' (.replace _ hp ht ?_)
        by_contra hv
        exact hok (by simp [hv])
    · cases h

/-- The retirement throws at this row. -/
def Throws (fails : String → Bool) (transform : Record → String → Ledger.Retired Record) (u : String) (row : Row) : Prop :=
  match row.parse with
  | none => True
  | some before => match transform before u with
    | .same => False
    | .drop => fails u = true
    | .replace after => GrantLedger.isValidRecord after.toRecord = false ∨ fails u = true
    | .invalid => True

theorem retireRows_of_throws {fails : String → Bool} {transform : Record → String → Ledger.Retired Record}
    {rows : List (String × Row)} {u : String} {row : Row} (hm : (u, row) ∈ rows) (ht : Throws fails transform u row) :
    ∀ (revSeq : Nat), retireRows fails transform rows revSeq = none := by
  induction rows with
  | nil => cases hm
  | cons p rows ih =>
    intro revSeq
    obtain ⟨u', row'⟩ := p
    rw [retireRows]
    rcases List.mem_cons.1 hm with hm | hm
    · cases hm
      unfold Throws at ht
      cases hp : row.parse with
      | none => rfl
      | some before =>
        rw [hp] at ht
        dsimp only at ht ⊢
        cases htr : transform before u with
        | same => rw [htr] at ht; exact ht.elim
        | drop => rw [htr] at ht; exact if_pos ht
        | replace after =>
          rw [htr] at ht
          dsimp only
          rw [if_pos]
          rcases ht with ht | ht
          · simp [ht]
          · simp [ht]
        | invalid => rfl
    · split
      · rfl
      · split
        · rw [ih hm]; rfl
        · split
          · rfl
          · exact ih hm revSeq
        · split
          · rfl
          · rw [ih hm]; rfl
        · rfl

theorem record_of_parse {row : Row} {before : Record} (h : row.parse = some before) :
    row.record = some before ∧ GrantLedger.isValidRecord before.toRecord = true := by
  unfold Row.parse at h
  exact Option.filter_eq_some_iff.1 h

/-- The row belongs to the guild. -/
def Row.Of (row : Row) (scope : Option String) (guildId : String) : Prop :=
  ∃ record, row.record = some record ∧ recordHomeGuild record scope (some guildId) = some guildId

section
variable {run : Run} {db : Db} {t : Tally} {u : String} {row : Row} {left : Option Row}

theorem Settled.lost (hs : Settled (run.transform db t) u row left) {x : Target} (hn : row.Names x)
    (hl : ∀ row', left = some row' → ¬ row'.Names x) : row.Of db.scope run.guildId ∧ Cleared run t u x := by
  obtain ⟨record, hrec, hx⟩ := hn
  have hspec := transform_spec run db t record u
  have hparse {before : Record} (hp : row.parse = some before) : before = record := by
    rw [(record_of_parse hp).1] at hrec; exact Option.some.inj hrec
  cases hs with
  | same => exact absurd ⟨record, hrec, hx⟩ (hl row rfl)
  | drop hp ht =>
    rw [hparse hp] at ht
    rw [ht] at hspec
    cases hspec with
    | drop home hC => exact ⟨⟨record, hrec, home⟩, hC x hx⟩
  | replace rev hp ht hv =>
    rw [hparse hp] at ht
    rw [ht] at hspec
    cases hspec with
    | replace channels home hm hsub hne hC =>
      refine ⟨⟨record, hrec, home⟩, ?_⟩
      obtain ⟨c, hc, rfl⟩ := (mem_list_channel hm x).1 hx
      refine (hC c hc).resolve_left fun hcl => hl _ rfl ⟨_, rfl, ?_⟩
      exact (mem_list_channel (by exact hm) (.channel c)).2 ⟨c, by exact hcl, rfl⟩

/-- What remains is the row, or the row's record with fewer channels, and it parses. -/
theorem Settled.kept (hs : Settled (run.transform db t) u row left) {row' : Row} (hl : left = some row') :
    (∃ record, row'.parse = some record) ∧ (row' = row ∨ ∃ record channels rev, row.record = some record ∧
      record.mode = .channel ∧ (∀ c ∈ channels, c ∈ record.channels) ∧
      row' = ⟨some { record with channels := channels }, ⌊record.expiresAt⌋, rev⟩) := by
  cases hs with
  | same hp => cases hl; exact ⟨⟨_, hp⟩, .inl rfl⟩
  | drop => cases hl
  | @replace before after rev hp ht hv =>
    cases hl
    have hspec := transform_spec run db t before u
    rw [ht] at hspec
    cases hspec with
    | replace channels home hm hsub =>
      exact ⟨⟨_, Option.filter_eq_some_iff.2 ⟨rfl, hv⟩⟩,
        .inr ⟨before, channels, rev, (record_of_parse hp).1, hm, hsub, rfl⟩⟩

theorem Settled.names (hs : Settled (run.transform db t) u row left) {row' : Row} (hl : left = some row') {x : Target}
    (hx : row'.Names x) : row.Names x := by
  obtain ⟨-, rfl | ⟨record, channels, rev, hrec, hm, hsub, rfl⟩⟩ := hs.kept hl
  · exact hx
  · obtain ⟨r, hr, hmem⟩ := hx
    cases hr
    obtain ⟨c, hc, rfl⟩ := (mem_list_channel (by exact hm) x).1 hmem
    exact ⟨record, hrec, (mem_list_channel hm (.channel c)).2 ⟨c, hsub c hc, rfl⟩⟩

theorem Settled.untouched (hs : Settled (run.transform db t) u row left) (hn : ∀ x ∈ run.targets, ¬ row.Names x) :
    left = some row := by
  cases hs with
  | same => rfl
  | @drop before hp ht =>
    have hspec := transform_spec run db t before u
    rw [ht] at hspec
    cases hspec with
    | drop home hC hne =>
      obtain ⟨x, hx⟩ := List.exists_mem_of_ne_nil _ hne
      exact absurd ⟨before, (record_of_parse hp).1, hx⟩ (hn x (hC x hx).mem_targets)
  | @replace before after rev hp ht hv =>
    have hspec := transform_spec run db t before u
    rw [ht] at hspec
    cases hspec with
    | replace channels home hm hsub hne hC hc =>
      obtain ⟨c, hmem, hout⟩ := hc
      exact absurd ⟨before, (record_of_parse hp).1, (mem_list_channel hm (.channel c)).2 ⟨c, hmem, rfl⟩⟩
        (hn _ ((hC c hmem).resolve_left hout).mem_targets)

end

/-! ## The whole run -/

/-- The ledger after the run. -/
def Run.after (run : Run) (db : Db) : Db := (runDecommission run db).1

theorem retireAll_cases (db : Db) (fails : String → Bool) (transactionFails : Bool)
    (transform : Record → String → Ledger.Retired Record) :
    (db.retireAll fails transactionFails transform).1 = db ∨ transactionFails = false ∧ ∀ u,
      (db.row u = none → (db.retireAll fails transactionFails transform).1.row u = none) ∧
      ∀ row, db.row u = some row →
        Settled transform u row ((db.retireAll fails transactionFails transform).1.row u) ∧ ¬ Throws fails transform u row := by
  unfold Db.retireAll
  split
  · rename_i rows revSeq h
    split
    · exact .inl rfl
    · refine .inr ⟨by simpa using ‹¬ transactionFails = true›, fun u => ?_⟩
      obtain ⟨hnone, hsome⟩ := retireRows_settles h db.primaryKey u
      refine ⟨hnone, fun row hrow => ⟨hsome row hrow, fun ht => ?_⟩⟩
      rw [retireRows_of_throws (Assoc.mem_of_lookup hrow) ht] at h
      cases h
  · exact .inl rfl

/-- A run leaves the ledger, or its pass went through and every row is settled. -/
theorem after_cases {run : Run} (hd : run.dryRun = false) (db : Db) :
    run.after db = db ∨ run.transactionFails = false ∧ ∃ t, takeBack run = .ok t ∧ ∀ u,
      (db.row u = none → (run.after db).row u = none) ∧
      ∀ row, db.row u = some row → Settled (run.transform db t) u row ((run.after db).row u) ∧
        ¬ Throws run.ledgerFails (run.transform db t) u row := by
  unfold Run.after runDecommission
  split
  · exact .inl rfl
  split
  · exact .inl rfl
  · rename_i t ht
    rw [if_neg (by simp [hd])]
    rcases retireAll_cases db run.ledgerFails run.transactionFails (run.transform db t) with h | ⟨htx, h⟩
    · exact .inl h
    · exact .inr ⟨htx, t, ht, h⟩

/-- A target is forgotten only where the access was taken back; the rest of every row stays. -/
theorem decommission_keeps (run : Run) (db : Db) (hd : run.dryRun = false) :
    (∀ u row x, db.row u = some row → row.Names x → ¬ (run.after db).Names u x →
      row.Of db.scope run.guildId ∧ x ∈ run.targets ∧ (u = run.botUserId ∨ TakenBack run u x)) ∧
    (∀ u x, (run.after db).Names u x → db.Names u x) ∧
    (∀ u row, db.row u = some row → (∀ x ∈ run.targets, ¬ row.Names x) → (run.after db).row u = some row) ∧
    (∀ u row', (run.after db).row u = some row' → ∃ row, db.row u = some row ∧
      (row' = row ∨ ∃ record channels rev, row.record = some record ∧ record.mode = .channel ∧
        (∀ c ∈ channels, c ∈ record.channels) ∧
        row' = ⟨some { record with channels := channels }, ⌊record.expiresAt⌋, rev⟩)) ∧
    (run.after db = db ∨ ∀ u row', (run.after db).row u = some row' → ∃ record, row'.parse = some record) ∧
    ((run.transactionFails = true ∨ ∃ t u row, takeBack run = .ok t ∧ db.row u = some row ∧
      Throws run.ledgerFails (run.transform db t) u row) → run.after db = db) := by
  rcases after_cases hd db with hdb | ⟨htx, t, ht, hrows⟩
  · rw [hdb]
    exact ⟨fun u row x hrow hx hnot => absurd ⟨row, hrow, hx⟩ hnot, fun _ _ h => h, fun _ _ h _ => h,
      fun u row' h => ⟨row', h, .inl rfl⟩, .inl rfl, fun _ => rfl⟩
  -- what is left of a row that was there
  have hback {u : String} {row' : Row} (h : (run.after db).row u = some row') :
      ∃ row, db.row u = some row ∧ Settled (run.transform db t) u row (some row') := by
    cases hrow : db.row u with
    | none => rw [(hrows u).1 hrow] at h; cases h
    | some row => exact ⟨row, rfl, by rw [← h]; exact ((hrows u).2 row hrow).1⟩
  refine ⟨fun u row x hrow hx hnot => ?_, fun u x ⟨row', hrow', hx⟩ => ?_, fun u row hrow hn => ?_,
    fun u row' h => ?_, .inr fun u row' h => ?_, fun h => ?_⟩
  · obtain ⟨hof, hc⟩ := ((hrows u).2 row hrow).1.lost hx fun row' hl hx' => hnot ⟨row', hl, hx'⟩
    refine ⟨hof, hc.mem_targets, ?_⟩
    by_cases hb : u = run.botUserId
    · exact .inl hb
    · exact .inr (takenBack_of_cleared ht hd hb hc)
  · obtain ⟨row, hrow, hs⟩ := hback hrow'
    exact ⟨row, hrow, hs.names rfl hx⟩
  · exact ((hrows u).2 row hrow).1.untouched hn
  · obtain ⟨row, hrow, hs⟩ := hback h
    exact ⟨row, hrow, (hs.kept rfl).2⟩
  · obtain ⟨row, hrow, hs⟩ := hback h
    exact (hs.kept rfl).1
  · rcases h with h | ⟨t', u, row, ht', hrow, hthrows⟩
    · rw [htx] at h; cases h
    · rw [ht] at ht'
      cases ht'
      exact absurd hthrows ((hrows u).2 row hrow).2

/-! ## Runs -/

def channelRow (channels : List String) (guildId : Option String) : Row :=
  ⟨some ⟨⟨⟨.channel, channels, none⟩, 100⟩, guildId⟩, 100, 1⟩

/-- `bot` and `u` hold `c1` and `c2`, and clearing `u` on `c2` fails. -/
def twoChannels : Run where
  guildId := "g"
  pass := .channel [
    ⟨"c1", .found [(⟨"bot", true, managedBits, []⟩, .resolved), (⟨"u", true, managedBits, []⟩, .resolved)]⟩,
    ⟨"c2", .found [(⟨"u", true, managedBits, []⟩, .failed)]⟩]
  dryRun := false
  confirmGone := false
  botUserId := "bot"
  ledgerFails _ := false
  transactionFails := false

def ledger (rows : List (String × Row)) (h : (rows.map Prod.fst).Nodup) : Db := ⟨rows, 1, some "g", h⟩

def heldBoth : Db := ledger [("u", channelRow ["c1", "c2", "c3"] none), ("v", channelRow ["c1"] (some "h"))] (by decide)

theorem decommission_keeps_failed : (twoChannels.after heldBoth).Names "u" (.channel "c2") := by
  by_contra hnot
  have hx : (channelRow ["c1", "c2", "c3"] none).Names (.channel "c2") := ⟨_, rfl, by decide⟩
  obtain ⟨-, -, hb | hback⟩ := (decommission_keeps twoChannels heldBoth rfl).1 "u" _ _ rfl hx hnot
  · exact absurd hb (by decide)
  · cases hback with
    | channel hp hm h =>
      cases hp
      rcases h ⟨"c2", .found [(⟨"u", true, managedBits, []⟩, .failed)]⟩ (by simp) rfl with ⟨hg, -⟩ | ⟨ows, hf, hok⟩
      · cases hg
      · cases hf
        exact hok _ (List.mem_singleton_self _) rfl rfl (by decide) rfl

/-- The bot holds `c1` itself; the pass never tries to take that back. -/
def botHeld : Run := { twoChannels with pass := .channel [⟨"c1", .found [(⟨"bot", true, managedBits, []⟩, .failed)]⟩] }

def heldByBot : Db := ledger [("bot", channelRow ["c1"] none)] (by decide)

def unparsed : Db := ledger [("u", ⟨none, 100, 1⟩)] (by decide)

/-- The run retires the row that names the bot's own access, and a row that does not parse outlives any run. -/
theorem bot_forgotten :
    (¬ ∀ (run : Run) (db : Db) (u : String) (x : Target), run.dryRun = false → db.Names u x → ¬ (run.after db).Names u x →
      TakenBack run u x) ∧
    ¬ ∀ (run : Run) (db : Db) (u : String) (row : Row), run.dryRun = false → (run.after db).row u = some row →
      ∃ record, row.parse = some record := by
  refine ⟨fun h => ?_, fun h => ?_⟩
  · have hgone : (botHeld.after heldByBot).row "bot" = none := by decide +kernel
    have hback := h botHeld heldByBot "bot" (.channel "c1") rfl ⟨_, rfl, _, rfl, by decide⟩ fun ⟨row, hrow, _⟩ => by
      rw [hgone] at hrow; cases hrow
    cases hback with
    | channel hp hm hv =>
      cases hp
      rcases hv _ (List.mem_singleton_self _) rfl with ⟨hg, -⟩ | ⟨ows, hf, hok⟩
      · cases hg
      · cases hf
        exact hok _ (List.mem_singleton_self _) rfl rfl (by decide) rfl
  · have hrow : (twoChannels.after unparsed).row "u" = some ⟨none, 100, 1⟩ := by decide +kernel
    obtain ⟨record, hrec⟩ := h twoChannels unparsed "u" _ rfl hrow
    cases hrec

end Decommission
