import MnoVerify.GrantLedger

/-!
# Applying access on Discord

`applyAccess` of `adapters/discord/access.js` over `grantMemberOverwrite` of `adapters/discord/permissions.js`, and its
call in the ledger's `grant`. What an attempt meets on the platform is given; each edit that is sent is kept.
-/

namespace DiscordAccess

open GrantLedger (Record Mode)

/-! ## One channel -/

structure Err where
  message : String
  /-- It is a `DenialConflict`. -/
  isDenialConflict : Bool
deriving DecidableEq

/-- What an attempt at a channel meets. -/
inductive Attempt
  /-- The channel is not fetched. -/
  | unfetched (message : String)
  /-- The member's overwrite carries a denial. -/
  | denied (message : String)
  /-- The edit is sent, and its call resolves. -/
  | edited
  /-- The edit is sent, and its call rejects, though the edit may have landed. -/
  | failed (message : String) (landed : Bool)
deriving DecidableEq

/-- An edit that was sent, and whether it took effect. -/
structure Edit where
  channel : String
  landed : Bool
deriving DecidableEq

/-- The fetch and `grantMemberOverwrite`: what is thrown, and what is sent. -/
def attempt (chId : String) : Attempt → Option Err × List Edit
  | .unfetched message => (some ⟨message, false⟩, [])
  | .denied message => (some ⟨message, true⟩, [])
  | .edited => (none, [⟨chId, true⟩])
  | .failed message landed => (some ⟨message, false⟩, [⟨chId, landed⟩])

def RETRY_DELAYS_MS : List Nat := [250, 1000]

/-- The attempts from number `n` on, with `k` retries left: `lastErr`, and what is sent. -/
def attempts (chId : String) (outcome : Nat → Attempt) : Nat → Nat → Option Err × List Edit
  | 0, n => attempt chId (outcome n)
  | k + 1, n => match attempt chId (outcome n) with
    | (none, sent) => (none, sent)
    | (some e, sent) =>
      if e.isDenialConflict then (some e, sent)
      else ((attempts chId outcome k (n + 1)).1, sent ++ (attempts chId outcome k (n + 1)).2)

/-! ## All channels -/

structure Progress where
  failures : List String := []
  applied : Bool := false
  onlyRefusals : Bool := true
  refusedChannels : List String := []
  sent : List Edit := []

/-- What the loop does with `lastErr` of a channel. -/
def Progress.channel (p : Progress) (chId : String) : Option Err × List Edit → Progress
  | (none, sent) => { p with applied := true, sent := p.sent ++ sent }
  | (some e, sent) =>
    let p := { p with failures := p.failures ++ [chId ++ ": " ++ e.message], sent := p.sent ++ sent }
    if e.isDenialConflict then { p with refusedChannels := p.refusedChannels ++ [chId] } else { p with onlyRefusals := false }

/-- The loop over the channels, the first of them number `i`. -/
def channelLoop (outcome : Nat → Nat → Attempt) : List String → Nat → Progress → Progress
  | [], _, p => p
  | chId :: channels, i, p =>
    channelLoop outcome channels (i + 1) (p.channel chId (attempts chId (outcome i) RETRY_DELAYS_MS.length 0))

/-- What `applyAccess` throws. -/
structure GrantError where
  message : String
  mutated : Option Bool
  applied : Option Bool
  refusedChannels : Option (List String)
deriving DecidableEq

def plain (message : String) : GrantError := ⟨message, none, none, none⟩

/-- `record.mode` in a message. -/
def modeText : Mode → String
  | .channel => "channel"
  | .role => "role"

/-- `applyAccess`: what it throws, and what it has sent. `guild` is what `getGuild` throws, `outcome i n` what attempt
`n` at channel `i` meets. -/
def applyAccess (userId : String) (record : Record) (guild : Option String) (outcome : Nat → Nat → Attempt) :
    Option GrantError × List Edit :=
  match guild with
  | some message => (some (plain message), [])
  | none =>
    if record.mode ≠ .channel then
      (some (plain ("refusing to grant " ++ userId ++ " a " ++ modeText record.mode ++
        " target: this bot only ever grants per-channel access. Take the old target back with npm run discord:decommission.")), [])
    else
      let p := channelLoop outcome record.channels 0 {}
      if p.failures.isEmpty then (none, p.sent)
      else (some ⟨"could not grant " ++ "; ".intercalate p.failures, some (p.applied || !p.onlyRefusals), some p.applied,
        some p.refusedChannels⟩, p.sent)

/-! ## In the ledger -/

/-- How the ledger sees the call settle. -/
def settled : Option GrantError → GrantLedger.Outcome
  | none => .resolved
  | some e => .rejected e.mutated

/-- The rest of a first grant from the call on: its effects, its settling, and the deletion if one follows. -/
def grantEvents (userId : String) (r : Option GrantError × List Edit) : List GrantLedger.Event :=
  (r.2.filter fun e => e.landed).map (fun e => .effect userId (.channel e.channel)) ++
    [.settle userId (settled r.1), .del userId]

end DiscordAccess
