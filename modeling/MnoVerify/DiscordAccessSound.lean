import MnoVerify.DiscordAccess
import MnoVerify.GrantLedgerSound

/-!
# When `mutated: false` is true

`mutated_iff`: the flag tells the truth, and the ledger drops no row of live access, exactly when it is not the case
that every channel ends in a refusal and one of them was refused after an earlier attempt had sent its edit.
-/

namespace DiscordAccess

open GrantLedger (Record Mode)

/-! ## The attempts at one channel -/

def Attempt.isDenied : Attempt → Bool
  | .denied _ => true
  | _ => false

/-- It rejects, and another attempt may follow. -/
def Attempt.isRetried : Attempt → Bool
  | .unfetched _ => true
  | .failed _ _ => true
  | _ => false

def Attempt.isSent : Attempt → Bool
  | .edited => true
  | .failed _ _ => true
  | _ => false

/-- Attempt `n + j` is the first not to be retried, and it is refused. -/
def Refused (outcome : Nat → Attempt) (k n j : Nat) : Prop :=
  j ≤ k ∧ (outcome (n + j)).isDenied = true ∧ ∀ m < j, (outcome (n + m)).isRetried = true

theorem refused_zero {outcome : Nat → Attempt} {k n : Nat} : Refused outcome k n 0 ↔ (outcome n).isDenied = true := by
  constructor
  · exact fun h => h.2.1
  · exact fun h => ⟨Nat.zero_le k, h, nofun⟩

theorem refused_succ {outcome : Nat → Attempt} {k n j : Nat} :
    Refused outcome (k + 1) n (j + 1) ↔ (outcome n).isRetried = true ∧ Refused outcome k (n + 1) j := by
  unfold Refused
  rw [show n + (j + 1) = n + 1 + j by omega]
  constructor
  · rintro ⟨hj, hd, hr⟩
    refine ⟨hr 0 (Nat.succ_pos j), by omega, hd, fun m hm => ?_⟩
    rw [show n + 1 + m = n + (m + 1) by omega]
    exact hr (m + 1) (by omega)
  · rintro ⟨h0, hj, hd, hr⟩
    refine ⟨by omega, hd, fun m hm => ?_⟩
    cases m with
    | zero => exact h0
    | succ m =>
      rw [show n + (m + 1) = n + 1 + m by omega]
      exact hr m (by omega)

theorem denied_not_retried {a : Attempt} (h : a.isDenied = true) : a.isRetried = false := by
  cases a <;> first | rfl | cases h

/-- `lastErr` is a denial. -/
def EndsDenied (r : Option Err × List Edit) : Prop := ∃ e, r.1 = some e ∧ e.isDenialConflict = true

theorem attempt_endsDenied {chId : String} {a : Attempt} : EndsDenied (attempt chId a) ↔ a.isDenied = true := by
  cases a <;> simp [EndsDenied, attempt, Attempt.isDenied]

theorem attempt_sent {chId : String} {a : Attempt} : (attempt chId a).2 = [] ↔ a.isSent = false := by
  cases a <;> simp [attempt, Attempt.isSent]

/-- Nothing follows an attempt that is not retried. -/
theorem attempts_settled {chId : String} {outcome : Nat → Attempt} {n : Nat} (h : (outcome n).isRetried = false) (k : Nat) :
    attempts chId outcome k n = attempt chId (outcome n) := by
  cases k with
  | zero => rfl
  | succ k =>
    rw [attempts]
    cases ha : outcome n with
    | edited => rfl
    | denied message => rfl
    | unfetched message => rw [ha] at h; cases h
    | failed message landed => rw [ha] at h; cases h

theorem attempts_retried {chId : String} {outcome : Nat → Attempt} {n : Nat} (h : (outcome n).isRetried = true) (k : Nat) :
    attempts chId outcome (k + 1) n =
      ((attempts chId outcome k (n + 1)).1, (attempt chId (outcome n)).2 ++ (attempts chId outcome k (n + 1)).2) := by
  rw [attempts]
  cases ha : outcome n with
  | edited => rw [ha] at h; cases h
  | denied message => rw [ha] at h; cases h
  | unfetched message => rfl
  | failed message landed => rfl

theorem not_sent_of_denied {a : Attempt} (h : a.isDenied = true) : a.isSent = false := by
  cases a <;> first | rfl | cases h

/-- Where the first attempt settles the channel, it is refused exactly if that attempt is. -/
theorem settled_spec {chId : String} {outcome : Nat → Attempt} {k n : Nat}
    (hs : attempts chId outcome k n = attempt chId (outcome n)) (hno : ∀ j, Refused outcome k n j → j = 0) :
    (EndsDenied (attempts chId outcome k n) ↔ ∃ j, Refused outcome k n j) ∧
      ∀ j, Refused outcome k n j → ((attempts chId outcome k n).2 = [] ↔ ∀ m < j, (outcome (n + m)).isSent = false) := by
  rw [hs, attempt_endsDenied]
  refine ⟨⟨fun h => ⟨0, refused_zero.2 h⟩, fun ⟨j, hj⟩ => ?_⟩, fun j hj => ?_⟩
  · rw [hno j hj, refused_zero] at hj
    exact hj
  · obtain rfl := hno j hj
    rw [refused_zero] at hj
    rw [attempt_sent]
    exact ⟨fun _ => nofun, fun _ => not_sent_of_denied hj⟩

/-- The attempts end in a denial where one of them is refused, and they have sent what those before it have. -/
theorem attempts_spec (chId : String) (outcome : Nat → Attempt) : ∀ k n,
    (EndsDenied (attempts chId outcome k n) ↔ ∃ j, Refused outcome k n j) ∧
      ∀ j, Refused outcome k n j → ((attempts chId outcome k n).2 = [] ↔ ∀ m < j, (outcome (n + m)).isSent = false) := by
  intro k
  induction k with
  | zero => exact fun n => settled_spec rfl fun j hj => Nat.le_zero.1 hj.1
  | succ k ih =>
    intro n
    by_cases hr : (outcome n).isRetried = true
    · obtain ⟨ihd, ihs⟩ := ih (n + 1)
      have hsucc : ∀ j, Refused outcome (k + 1) n j → ∃ i, j = i + 1 ∧ Refused outcome k (n + 1) i := by
        intro j hj
        cases j with
        | zero =>
          rw [refused_zero] at hj
          rw [denied_not_retried hj] at hr
          cases hr
        | succ j => exact ⟨j, rfl, (refused_succ.1 hj).2⟩
      rw [attempts_retried hr]
      refine ⟨?_, fun j hj => ?_⟩
      · apply ihd.trans
        constructor
        · exact fun ⟨j, hj⟩ => ⟨j + 1, refused_succ.2 ⟨hr, hj⟩⟩
        · rintro ⟨j, hj⟩
          obtain ⟨i, -, hi⟩ := hsucc j hj
          exact ⟨i, hi⟩
      · obtain ⟨i, rfl, hi⟩ := hsucc j hj
        rw [List.append_eq_nil_iff, attempt_sent, ihs i hi]
        constructor
        · rintro ⟨h0, h⟩ m hm
          cases m with
          | zero => exact h0
          | succ m =>
            rw [show n + (m + 1) = n + 1 + m by omega]
            exact h m (by omega)
        · intro h
          refine ⟨h 0 (Nat.succ_pos i), fun m hm => ?_⟩
          rw [show n + 1 + m = n + (m + 1) by omega]
          exact h (m + 1) (by omega)
    · rw [Bool.not_eq_true] at hr
      apply settled_spec (attempts_settled hr (k + 1))
      intro j hj
      cases j with
      | zero => rfl
      | succ j =>
        rw [refused_succ, hr] at hj
        cases hj.1

/-! ## All channels -/

/-- Every channel of `n` from number `i` on ends in a denial. -/
def AllRefused (outcome : Nat → Nat → Attempt) (n i : Nat) : Prop :=
  ∀ j < n, ∃ k, Refused (outcome (i + j)) RETRY_DELAYS_MS.length 0 k

/-- One of them was refused after an edit had been sent. -/
def SentBefore (outcome : Nat → Nat → Attempt) (n i : Nat) : Prop :=
  ∃ j < n, ∃ k, Refused (outcome (i + j)) RETRY_DELAYS_MS.length 0 k ∧ ∃ m < k, (outcome (i + j) m).isSent = true

/-- The loop has seen denials only. -/
def Clean (p : Progress) : Prop := p.applied = false ∧ p.onlyRefusals = true

theorem channel_clean {p : Progress} {chId : String} {r : Option Err × List Edit} :
    Clean (p.channel chId r) ↔ Clean p ∧ EndsDenied r := by
  obtain ⟨last, sent⟩ := r
  cases last with
  | none => simp [Clean, Progress.channel, EndsDenied]
  | some e =>
    cases h : e.isDenialConflict <;> simp [Clean, Progress.channel, EndsDenied, h]

theorem channel_sent (p : Progress) (chId : String) (r : Option Err × List Edit) :
    (p.channel chId r).sent = p.sent ++ r.2 := by
  obtain ⟨last, sent⟩ := r
  cases last with
  | none => rfl
  | some e => cases h : e.isDenialConflict <;> simp [Progress.channel, h]

theorem channel_failures {p : Progress} {chId : String} {r : Option Err × List Edit} (h : EndsDenied r) :
    (p.channel chId r).failures ≠ [] := by
  obtain ⟨last, sent⟩ := r
  obtain ⟨e, rfl, he⟩ := h
  simp [Progress.channel, he]

theorem failures_channel {p : Progress} {chId : String} {r : Option Err × List Edit} (h : p.failures ≠ []) :
    (p.channel chId r).failures ≠ [] := by
  obtain ⟨last, sent⟩ := r
  cases last with
  | none => exact h
  | some e => cases he : e.isDenialConflict <;> simp [Progress.channel, he]

theorem failures_channelLoop (outcome : Nat → Nat → Attempt) : ∀ (channels : List String) (i : Nat) {p : Progress},
    p.failures ≠ [] → (channelLoop outcome channels i p).failures ≠ [] := by
  intro channels
  induction channels with
  | nil => exact fun _ _ h => h
  | cons chId channels ih => exact fun i p h => ih (i + 1) (failures_channel h)

theorem allRefused_succ {outcome : Nat → Nat → Attempt} {n i : Nat} : AllRefused outcome (n + 1) i ↔
    (∃ k, Refused (outcome i) RETRY_DELAYS_MS.length 0 k) ∧ AllRefused outcome n (i + 1) := by
  constructor
  · intro h
    refine ⟨h 0 (Nat.succ_pos n), fun j hj => ?_⟩
    rw [show i + 1 + j = i + (j + 1) by omega]
    exact h (j + 1) (by omega)
  · rintro ⟨h0, h⟩ j hj
    cases j with
    | zero => exact h0
    | succ j =>
      rw [show i + (j + 1) = i + 1 + j by omega]
      exact h j (by omega)

theorem sentBefore_succ {outcome : Nat → Nat → Attempt} {n i : Nat} : SentBefore outcome (n + 1) i ↔
    (∃ k, Refused (outcome i) RETRY_DELAYS_MS.length 0 k ∧ ∃ m < k, (outcome i m).isSent = true) ∨
      SentBefore outcome n (i + 1) := by
  constructor
  · rintro ⟨j, hj, h⟩
    cases j with
    | zero => exact .inl h
    | succ j =>
      rw [show i + (j + 1) = i + 1 + j by omega] at h
      exact .inr ⟨j, by omega, h⟩
  · rintro (h | ⟨j, hj, h⟩)
    · exact ⟨0, Nat.succ_pos n, h⟩
    · refine ⟨j + 1, by omega, ?_⟩
      rw [show i + (j + 1) = i + 1 + j by omega]
      exact h

/-- The loop stays clean over channels that are all refused, and has then sent nothing unless one was refused late. -/
theorem channelLoop_spec (outcome : Nat → Nat → Attempt) : ∀ (channels : List String) (i : Nat) (p : Progress),
    (Clean (channelLoop outcome channels i p) ↔ Clean p ∧ AllRefused outcome channels.length i) ∧
      (AllRefused outcome channels.length i →
        ((channelLoop outcome channels i p).sent = [] ↔ p.sent = [] ∧ ¬ SentBefore outcome channels.length i)) := by
  intro channels
  induction channels with
  | nil =>
    intro i p
    refine ⟨⟨fun h => ⟨h, nofun⟩, fun h => h.1⟩, fun _ => ⟨fun h => ⟨h, fun ⟨j, hj, _⟩ => ?_⟩, fun h => h.1⟩⟩
    cases hj
  | cons chId channels ih =>
    intro i p
    obtain ⟨hden, hsent⟩ := attempts_spec chId (outcome i) RETRY_DELAYS_MS.length 0
    obtain ⟨ihc, ihs⟩ := ih (i + 1) (p.channel chId (attempts chId (outcome i) RETRY_DELAYS_MS.length 0))
    rw [channelLoop, List.length_cons, allRefused_succ, sentBefore_succ, ihc, channel_clean, hden, and_assoc]
    refine ⟨Iff.rfl, ?_⟩
    rintro ⟨⟨j, hj⟩, hall⟩
    rw [ihs hall, channel_sent, List.append_eq_nil_iff, hsent j hj, and_assoc, not_or]
    apply and_congr_right
    intro _
    apply and_congr_left
    intro _
    simp only [Nat.zero_add]
    constructor
    · rintro h ⟨j', ⟨hj', hd', hr'⟩, m, hm, hms⟩
      -- the refusal is the first attempt not to be retried, so there is one of it only
      have hle : j' ≤ j := by
        by_contra hlt
        have := hr' j (by omega)
        rw [denied_not_retried hj.2.1] at this
        cases this
      rw [h m (by omega)] at hms
      cases hms
    · intro h m hm
      by_contra hms
      exact h ⟨j, hj, m, hm, by simpa using hms⟩

/-! ## The flag -/

/-- Every channel of the record ends in a refusal, and one was refused after an earlier attempt had sent its edit. -/
def RefusedLate (record : Record) (guild : Option String) (outcome : Nat → Nat → Attempt) : Prop :=
  guild = none ∧ record.mode = .channel ∧ AllRefused outcome record.channels.length 0 ∧
    SentBefore outcome record.channels.length 0

/-- An error with `mutated: false` means that nothing was sent. -/
def Truthful (r : Option GrantError × List Edit) : Prop := ∀ e, r.1 = some e → e.mutated = some false → r.2 = []

/-- What throws with `mutated: false`. -/
theorem mutated_false {userId : String} {record : Record} {guild : Option String} {outcome : Nat → Nat → Attempt} :
    (∃ e, (applyAccess userId record guild outcome).1 = some e ∧ e.mutated = some false) ↔
      guild = none ∧ record.mode = .channel ∧ AllRefused outcome record.channels.length 0 ∧ record.channels ≠ [] := by
  unfold applyAccess
  cases guild with
  | some message =>
    simp [plain]
  | none =>
    by_cases hmode : record.mode = .channel
    · obtain ⟨hclean, -⟩ := channelLoop_spec outcome record.channels 0 {}
      rw [if_neg (not_not.2 hmode)]
      dsimp only
      split
      · rename_i hf
        simp only [reduceCtorEq, false_and, exists_false, true_and, false_iff, not_and, not_not]
        intro _ hall
        cases hcs : record.channels with
        | nil => rfl
        | cons chId channels =>
          rw [hcs, List.length_cons, allRefused_succ] at hall
          have hden := (attempts_spec chId (outcome 0) RETRY_DELAYS_MS.length 0).1.2 hall.1
          rw [hcs, channelLoop, List.isEmpty_iff] at hf
          exact absurd hf (failures_channelLoop outcome channels 1 (channel_failures hden))
      · rename_i hf
        have hcs : record.channels ≠ [] := by
          intro h
          rw [h] at hf
          exact hf rfl
        constructor
        · rintro ⟨e, he, hm⟩
          cases he
          simp only [Option.some.injEq, Bool.or_eq_false_iff, Bool.not_eq_false'] at hm
          exact ⟨rfl, hmode, (hclean.1 hm).2, hcs⟩
        · rintro ⟨-, -, hall, -⟩
          obtain ⟨ha, ho⟩ := hclean.2 ⟨⟨rfl, rfl⟩, hall⟩
          exact ⟨_, rfl, by simp [ha, ho]⟩
    · rw [if_pos hmode]
      simp [plain, hmode]

theorem truthful_iff {userId : String} {record : Record} {guild : Option String} {outcome : Nat → Nat → Attempt} :
    Truthful (applyAccess userId record guild outcome) ↔ ¬ RefusedLate record guild outcome := by
  have hsent : guild = none → record.mode = .channel → AllRefused outcome record.channels.length 0 →
      ((applyAccess userId record guild outcome).2 = [] ↔ ¬ SentBefore outcome record.channels.length 0) := by
    rintro rfl hmode hall
    have := (channelLoop_spec outcome record.channels 0 {}).2 hall
    have heq : (applyAccess userId record none outcome).2 = (channelLoop outcome record.channels 0 {}).sent := by
      unfold applyAccess
      dsimp only
      rw [if_neg (not_not.2 hmode)]
      split <;> rfl
    rw [heq, this]
    exact ⟨fun h => h.2, fun h => ⟨rfl, h⟩⟩
  constructor
  · rintro h ⟨hg, hmode, hall, hlate⟩
    have hne : record.channels ≠ [] := by
      intro hcs
      obtain ⟨j, hj, -⟩ := hlate
      rw [hcs] at hj
      cases hj
    obtain ⟨e, he, hm⟩ := (@mutated_false userId record guild outcome).2 ⟨hg, hmode, hall, hne⟩
    exact (hsent hg hmode hall).1 (h e he hm) hlate
  · intro h e he hm
    obtain ⟨hg, hmode, hall, -⟩ := mutated_false.1 ⟨e, he, hm⟩
    exact (hsent hg hmode hall).2 fun hlate => h ⟨hg, hmode, hall, hlate⟩

/-! ## The ledger's row -/

open GrantLedger (World step)

/-- The ledger during the call, from a first grant that has written its row. -/
structure Granting (w : World) (userId : String) (record : Record) (rev : Nat) : Prop where
  op : w.op userId = some (.applying record false rev)
  row : w.db.row userId = some (record, rev)

/-- The ledger after the call. -/
def afterCall (repairs : Bool) (w : World) (userId : String) (r : Option GrantError × List Edit) : World :=
  (grantEvents userId r).foldl (step repairs) w

theorem granting_effect {repairs : Bool} {w : World} {userId : String} {record : Record} {rev : Nat}
    (h : Granting w userId record rev) (t : GrantLedger.Target) :
    Granting (step repairs w (.effect userId t)) userId record rev := by
  dsimp only [step]
  unfold World.effect
  rw [h.op]
  dsimp only
  split
  · exact ⟨h.op, h.row⟩
  · exact h

theorem granting_effects {repairs : Bool} {userId : String} {record : Record} {rev : Nat} : ∀ (edits : List Edit) {w : World},
    Granting w userId record rev →
      Granting ((edits.map fun e => .effect userId (.channel e.channel)).foldl (step repairs) w) userId record rev := by
  intro edits
  induction edits with
  | nil => exact fun h => h
  | cons e edits ih => exact fun h => ih (granting_effect h _)

theorem op_setOp (w : World) (userId : String) (o : GrantLedger.Op) : (w.setOp userId o).op userId = some o :=
  Assoc.lookup_set_self ..

theorem op_done (w : World) (userId : String) : (w.done userId).op userId = none := Assoc.lookup_erase_self ..

theorem step_del_none {repairs : Bool} {w : World} {userId : String} (h : ∀ rev, w.op userId ≠ some (.deleting rev)) :
    step repairs w (.del userId) = w := by
  dsimp only [step]
  split
  · exact absurd ‹_› (h _)
  · rfl

/-- The settling of the call, and the deletion if one follows, drop the row exactly after `mutated: false`. -/
theorem row_settled {repairs : Bool} {w : World} {userId : String} {record : Record} {rev : Nat}
    (h : Granting w userId record rev) (last : Option GrantError) :
    (step repairs (step repairs w (.settle userId (settled last))) (.del userId)).db.row userId = none ↔
      ∃ e, last = some e ∧ e.mutated = some false := by
  have hrow : w.db.row userId ≠ none := by
    rw [h.row]
    exact Option.some_ne_none _
  cases last with
  | none =>
    have hw : step repairs w (.settle userId (settled none)) = (w.give userId record.list).done userId := by
      dsimp only [step, settled]
      unfold World.settle
      rw [h.op]
    rw [hw, step_del_none (by rw [op_done]; exact nofun)]
    exact ⟨fun hr => absurd hr hrow, fun ⟨e, he, _⟩ => by cases he⟩
  | some e =>
    have hw : step repairs w (.settle userId (settled (some e))) =
        if e.mutated = some false then w.setOp userId (.deleting rev)
        else if repairs then w.done userId else w.setOp userId (.revoking record rev) := by
      dsimp only [step, settled]
      unfold World.settle
      rw [h.op]
      rfl
    rw [hw]
    by_cases hm : e.mutated = some false
    · rw [if_pos hm]
      refine ⟨fun _ => ⟨e, rfl, hm⟩, fun _ => ?_⟩
      have hdel : step repairs (w.setOp userId (.deleting rev)) (.del userId) =
          ((w.setOp userId (.deleting rev)).setDb (w.db.del userId rev)).done userId := by
        dsimp only [step]
        rw [op_setOp]
        rfl
      rw [hdel]
      show (w.db.del userId rev).row userId = none
      unfold GrantLedger.Database.del
      rw [h.row, Option.map_some, if_pos rfl]
      exact Assoc.lookup_erase_self ..
    · rw [if_neg hm]
      refine ⟨fun hr => ?_, fun ⟨e', he, hm'⟩ => by cases he; exact absurd hm' hm⟩
      split at hr
      · rw [step_del_none (by rw [op_done]; exact nofun)] at hr
        exact absurd hr hrow
      · rw [step_del_none (by rw [op_setOp]; exact nofun)] at hr
        exact absurd hr hrow

/-- The call drops the row exactly when it throws with `mutated: false`. -/
theorem row_dropped_iff {repairs : Bool} {w : World} {userId : String} {record : Record} {rev : Nat}
    (h : Granting w userId record rev) (r : Option GrantError × List Edit) :
    (afterCall repairs w userId r).db.row userId = none ↔ ∃ e, r.1 = some e ∧ e.mutated = some false := by
  unfold afterCall grantEvents
  rw [List.foldl_append, List.foldl_cons, List.foldl_cons, List.foldl_nil]
  exact row_settled (granting_effects _ h) r.1

/-- A first grant that has passed the checks and written its row is at the call. -/
theorem granting_of_grant {repairs : Bool} {w : World} {userId : String} {record : Record} {now : Int}
    (hop : w.op userId = none) (hrow : w.db.row userId = none) (hvalid : GrantLedger.isValidRecord record = true)
    (hlive : ((w.db.observeClock now).2 : ℚ) < record.expiresAt) :
    ∃ rev, Granting (step repairs (step repairs w (.grant userId record now)) (.put userId true)) userId record rev := by
  have hobs : (w.db.observeClock now).1.row userId = none := by
    rw [GrantLedger.row_observe]
    exact hrow
  have hgrant : step repairs w (.grant userId record now) =
      (w.setDb (w.db.observeClock now).1).setOp userId (.writing record false) := by
    dsimp only [step]
    rw [hop, Option.isNone_none, if_pos rfl]
    unfold World.grant
    rw [hvalid, if_neg (by decide)]
    dsimp only
    rw [if_neg (not_le.2 hlive), hobs]
  rw [hgrant]
  dsimp only [step]
  unfold World.put
  rw [op_setOp]
  dsimp only
  rw [if_pos rfl]
  exact ⟨_, op_setOp _ _ _, Assoc.lookup_set_self ..⟩

/-- A row that the call drops leaves no access that the call has given. -/
def DropsNothingLive (userId : String) (record : Record) (r : Option GrantError × List Edit) : Prop :=
  ∀ (repairs : Bool) (w : World) (rev : Nat), Granting w userId record rev →
    (afterCall repairs w userId r).db.row userId = none →
      ∀ t ∈ record.list, (afterCall repairs w userId r).isLive userId t → w.isLive userId t

theorem live_settle_false {repairs : Bool} {w : World} {userId : String} {record : Record} {rev : Nat}
    (h : Granting w userId record rev) {e : GrantError} (hm : e.mutated = some false) :
    (step repairs (step repairs w (.settle userId (settled (some e)))) (.del userId)).live = w.live := by
  have hw : step repairs w (.settle userId (settled (some e))) = w.setOp userId (.deleting rev) := by
    dsimp only [step, settled]
    unfold World.settle
    rw [h.op]
    dsimp only
    rw [if_neg Bool.false_ne_true, if_pos hm]
  rw [hw]
  dsimp only [step]
  rw [op_setOp]
  rfl

theorem dropsNothingLive_of_truthful {userId : String} {record : Record} {r : Option GrantError × List Edit}
    (h : Truthful r) : DropsNothingLive userId record r := by
  intro repairs w rev hg hrow t _ hlive
  obtain ⟨e, he, hm⟩ := (row_dropped_iff hg r).1 hrow
  obtain ⟨last, sent⟩ := r
  dsimp only at he
  subst he
  obtain rfl : sent = [] := h e rfl hm
  have heq : (afterCall repairs w userId (some e, [])).live = w.live := live_settle_false hg hm
  unfold World.isLive at hlive ⊢
  rwa [heq] at hlive

/-- The flag tells the truth, and the ledger acts on it safely, unless a refusal comes after an edit was sent. -/
theorem mutated_iff (userId : String) (record : Record) (guild : Option String) (outcome : Nat → Nat → Attempt) :
    Truthful (applyAccess userId record guild outcome) ∧
        DropsNothingLive userId record (applyAccess userId record guild outcome) ↔
      ¬ RefusedLate record guild outcome := by
  rw [← @truthful_iff userId record guild outcome]
  exact ⟨fun h => h.1, fun h => ⟨h, dropsNothingLive_of_truthful h⟩⟩

/-! ## A refusal after an edit -/

def oneChannel : Record := ⟨⟨.channel, ["c"], none⟩, 10⟩

/-- The edit lands and its call is lost; the next attempt finds a denial. -/
def lostThenDenied (_ n : Nat) : Attempt := if n = 0 then .failed "timeout" true else .denied "denied"

/-- A ledger in the middle of a first grant. -/
def granting : World := ⟨⟨[("m", oneChannel, 1)], 1, some 0, none⟩, [], [("m", .applying oneChannel false 1)], []⟩

/-- The flag is false, the row is gone, and the access is live. -/
theorem late_refusal_forgets : ¬ Truthful (applyAccess "m" oneChannel none lostThenDenied) ∧
    ¬ DropsNothingLive "m" oneChannel (applyAccess "m" oneChannel none lostThenDenied) := by
  constructor
  · intro h
    have := h ⟨"could not grant c: denied", some false, some false, some ["c"]⟩ (by decide) rfl
    revert this
    decide
  · intro h
    have := h true granting 1 ⟨rfl, rfl⟩ (by decide) (.channel "c") (by decide) (by decide)
    revert this
    decide

end DiscordAccess
