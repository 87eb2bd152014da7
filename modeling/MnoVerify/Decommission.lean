import MnoVerify.GrantLedger
import MnoVerify.Ledger

/-!
# The decommission pass

`runDecommission` of `adapters/discord/decommission.js`, the retirement transform of
`adapters/discord/grant_ledger.js`, and `retireAll` over rows that may fail to parse.
What Discord answers is data: each fetch, each overwrite and member read, and how each
removal settles, in the order in which the pass makes the calls.
-/

namespace Decommission

open GrantLedger (Mode Targets)

/-- A record with the guild it names. -/
structure Record extends GrantLedger.Record where
  guildId : Option String
deriving DecidableEq

/-- A row of `grants`; the record is `none` when it is not JSON of a record's shape. -/
structure Row where
  record : Option Record
  column : ℚ
  rev : Nat
deriving DecidableEq

/-- `#parse`. -/
def Row.parse (row : Row) : Option Record := row.record.filter fun r => GrantLedger.isValidRecord r.toRecord

structure Db where
  rows : List (String × Row)
  revSeq : Nat
  /-- The bound scope. -/
  scope : Option String
  primaryKey : (rows.map Prod.fst).Nodup

def Db.row (db : Db) (userId : String) : Option Row := db.rows.lookup userId

/-- `all`; `none` when it throws. -/
def Db.all (db : Db) : Option (List Record) := db.rows.mapM fun p => p.2.parse

/-! ## Discord -/

/-- How a removal settles: `gone` is a rejection that `isGone` accepts. -/
inductive Outcome
  | resolved
  | gone
  | failed
deriving DecidableEq

inductive Fetched (α : Type)
  | found (a : α)
  | null
  | gone
  | failed

structure Overwrite where
  id : String
  /-- `type === OverwriteType.Member`. -/
  member : Bool
  allow : List String
  deny : List String

def managedBits : List String := ["ViewChannel", "SendMessages", "ReadMessageHistory"]

/-- `managedState(overwrite).allow`. -/
def Overwrite.managedAllow (ow : Overwrite) : List String := managedBits.filter fun b => decide (b ∈ ow.allow)

/-- One target channel of the list: what its fetch answers, and how clearing each overwrite settles. -/
structure ChannelVisit where
  id : String
  fetched : Fetched (List (Overwrite × Outcome))

structure Member where
  id : String
  /-- The target role is among the member's roles. -/
  holds : Bool

/-- The target role: its fetch, whether `roleDenialsAcrossChannels` names a channel (`none` when the
channels cannot be fetched), and each member with how removing the role settles. -/
structure RoleVisit where
  id : String
  fetched : Fetched Unit
  denies : Option Bool
  members : Option (List (Member × Outcome))

/-- The target, as `parseTargetKey` returns it, with what Discord answers. -/
inductive Pass
  | role (v : RoleVisit)
  | channel (vs : List ChannelVisit)

def Pass.mode : Pass → Mode
  | .role _ => .role
  | .channel _ => .channel

def Pass.ids : Pass → List String
  | .role v => [v.id]
  | .channel vs => vs.map ChannelVisit.id

structure Run where
  guildId : String
  pass : Pass
  dryRun : Bool
  confirmGone : Bool
  botUserId : String
  /-- The statements of the retirement on this member's row throw. -/
  ledgerFails : String → Bool
  /-- Reading the rows, or `BEGIN` or `COMMIT`, throws. -/
  transactionFails : Bool

/-! ## The retirement transform -/

/-- `recordHomeGuild`. -/
def recordHomeGuild (record : Record) (boundScope currentGuild : Option String) : Option String :=
  match record.guildId with
  | some g => if g ≠ "" then some g else boundScope.or currentGuild
  | none => boundScope.or currentGuild

/-- What the pass collects. -/
structure Tally where
  removed : List String
  failed : List String
  failedMembers : List String
  failedPairs : List String
  skippedChannels : List String

def pair (channel userId : String) : String := channel ++ "/" ++ userId

def retireTargetTransform (mode : Mode) (ids : List String) (currentGuild boundScope : Option String) (t : Tally)
    (record : Record) (userId : String) : Ledger.Retired Record :=
  let home := recordHomeGuild record boundScope currentGuild
  if currentGuild.isSome ∧ home.isSome ∧ home ≠ currentGuild then .same
  else match mode with
    | .role =>
      if userId ∈ t.failedMembers then .same
      else if record.mode = .role ∧ record.roleId.any (fun id => decide (id ∈ ids)) then .drop else .same
    | .channel =>
      if record.mode ≠ .channel then .same
      else
        let clearedHere := ids.filter fun c => decide (c ∉ t.skippedChannels ∧ pair c userId ∉ t.failedPairs)
        if clearedHere.isEmpty then .same
        else
          let left := record.channels.filter fun c => decide (c ∉ clearedHere)
          if left.length = record.channels.length then .same
          else if left.isEmpty then .drop
          else .replace { record with channels := left }

/-! ## The ledger -/

/-- The loop of `retireAll`; `none` rolls back. -/
def retireRows (fails : String → Bool) (transform : Record → String → Ledger.Retired Record) :
    List (String × Row) → Nat → Option (List (String × Row) × Nat)
  | [], revSeq => some ([], revSeq)
  | (userId, row) :: rows, revSeq => match row.parse with
    | none => none
    | some before => match transform before userId with
      | .same => (retireRows fails transform rows revSeq).map fun r => ((userId, row) :: r.1, r.2)
      | .drop => if fails userId then none else retireRows fails transform rows revSeq
      | .replace after =>
        if !GrantLedger.isValidRecord after.toRecord || fails userId then none
        else (retireRows fails transform rows (revSeq + 1)).map fun r =>
          ((userId, ⟨some after, ⌊after.expiresAt⌋, revSeq + 1⟩) :: r.1, r.2)
      | .invalid => none

theorem keys_retireRows {fails : String → Bool} {transform : Record → String → Ledger.Retired Record}
    {rows : List (String × Row)} : ∀ {revSeq : Nat} {r : List (String × Row) × Nat},
    retireRows fails transform rows revSeq = some r → (r.1.map Prod.fst).Sublist (rows.map Prod.fst) := by
  induction rows with
  | nil => rintro revSeq r ⟨⟩; exact List.Sublist.refl _
  | cons p rows ih =>
    intro revSeq r h
    obtain ⟨u, row⟩ := p
    rw [retireRows] at h
    split at h
    · cases h
    split at h
    · obtain ⟨r', hr', rfl⟩ := Option.map_eq_some_iff.1 h
      exact (ih hr').cons_cons u
    · split at h
      · cases h
      · exact (ih h).cons u
    · split at h
      · cases h
      · obtain ⟨r', hr', rfl⟩ := Option.map_eq_some_iff.1 h
        exact (ih hr').cons_cons u
    · cases h

/-- `retireAll`: the database after the transaction, and whether it committed. -/
def Db.retireAll (db : Db) (fails : String → Bool) (transactionFails : Bool)
    (transform : Record → String → Ledger.Retired Record) : Db × Bool :=
  match h : retireRows fails transform db.rows db.revSeq with
  | some (rows, revSeq) =>
    if transactionFails then (db, false)
    else (⟨rows, revSeq, db.scope, (keys_retireRows h).nodup db.primaryKey⟩, true)
  | none => (db, false)

/-! ## The pass -/

/-- Why `runDecommission` throws. -/
inductive Refusal
  | malformedRow
  /-- `--confirm-target-gone` for targets that no record names. -/
  | unnamed (ids : List String)
  | roleUnreadable
  | roleMissing
  | channelsUnreadable
  | roleDenies
  | membersUnreadable
  /-- The channel is `null`. -/
  | typeError

def Tally.empty : Tally := ⟨[], [], [], [], []⟩

/-- `namedInLedger`, over the records of this guild. -/
def namedInLedger (records : List Record) (boundScope : Option String) (guildId id : String) : Bool :=
  (records.filter fun r => decide (recordHomeGuild r boundScope (some guildId) = some guildId)).any fun r =>
    match r.mode with
    | .role => decide (r.roleId = some id)
    | .channel => decide (id ∈ r.channels)

/-- The check of `--confirm-target-gone` against the ledger. -/
def checkNamed (run : Run) (db : Db) : Except Refusal Unit :=
  if run.confirmGone && !run.dryRun && !run.pass.ids.isEmpty then
    match db.all with
    | none => .error .malformedRow
    | some records =>
      let unnamed := run.pass.ids.filter fun id => !namedInLedger records db.scope run.guildId id
      if unnamed.isEmpty then .ok () else .error (.unnamed unnamed)
  else .ok ()

/-- The loop over the role's holders, at one member. -/
def takeRole (run : Run) (t : Tally) (m : Member × Outcome) : Tally :=
  if !m.1.holds || decide (m.1.id = run.botUserId) then t
  else if run.dryRun then { t with removed := t.removed ++ [m.1.id] }
  else match m.2 with
    | .resolved => { t with removed := t.removed ++ [m.1.id] }
    | .gone => t
    | .failed => { t with failed := t.failed ++ [m.1.id], failedMembers := t.failedMembers ++ [m.1.id] }

def rolePass (run : Run) (v : RoleVisit) : Except Refusal Tally :=
  match v.fetched with
  | .failed => .error .roleUnreadable
  | .null => if run.confirmGone then .ok .empty else .error .roleMissing
  | .gone => if run.confirmGone then .ok .empty else .error .roleMissing
  | .found _ => match v.denies with
    | none => .error .channelsUnreadable
    | some true => .error .roleDenies
    | some false => match v.members with
      | none => .error .membersUnreadable
      | some members => .ok (members.foldl (takeRole run) .empty)

/-- The overwrite is one that the pass clears. -/
def Overwrite.held (ow : Overwrite) (botUserId : String) : Bool :=
  ow.member && decide (ow.id ≠ botUserId) && !ow.managedAllow.isEmpty

/-- The loop over a channel's holders, at one overwrite. -/
def clearOverwrite (run : Run) (channel : String) (t : Tally) (ow : Overwrite × Outcome) : Tally :=
  if !ow.1.held run.botUserId then t
  else if run.dryRun then { t with removed := t.removed ++ [pair channel ow.1.id] }
  else match ow.2 with
    | .resolved => { t with removed := t.removed ++ [pair channel ow.1.id] }
    | .gone => t
    | .failed =>
      { t with failed := t.failed ++ [pair channel ow.1.id], failedPairs := t.failedPairs ++ [pair channel ow.1.id] }

/-- The channel is left alone, and so are its rows. -/
def Tally.skip (t : Tally) (channel : String) : Tally :=
  { t with failed := t.failed ++ [pair channel "*"], skippedChannels := t.skippedChannels ++ [channel] }

/-- The loop over the target channels, at one of them. -/
def visitChannel (run : Run) (t : Tally) (v : ChannelVisit) : Except Refusal Tally :=
  match v.fetched with
  | .gone => if run.confirmGone then .ok t else .ok (t.skip v.id)
  | .failed => .ok (t.skip v.id)
  | .null => .error .typeError
  | .found overwrites => .ok (overwrites.foldl (clearOverwrite run v.id) t)

def channelPass (run : Run) (vs : List ChannelVisit) : Except Refusal Tally := vs.foldlM (visitChannel run) .empty

def takeBack (run : Run) : Except Refusal Tally :=
  match run.pass with
  | .role v => rolePass run v
  | .channel vs => channelPass run vs

/-- The transform that the pass hands to the ledger. -/
def Run.transform (run : Run) (db : Db) (t : Tally) : Record → String → Ledger.Retired Record :=
  retireTargetTransform run.pass.mode run.pass.ids (some run.guildId) db.scope t

/-- The ledger afterwards, and `removed` and `failed` or why it throws. -/
def runDecommission (run : Run) (db : Db) : Db × Except Refusal (List String × List String) :=
  match checkNamed run db with
  | .error e => (db, .error e)
  | .ok () => match takeBack run with
    | .error e => (db, .error e)
    | .ok t =>
      if run.dryRun then (db, .ok (t.removed, t.failed))
      else
        let r := db.retireAll run.ledgerFails run.transactionFails (run.transform db t)
        (r.1, .ok (t.removed, if r.2 then t.failed else t.failed ++ ["the ledger"]))

end Decommission
