import MnoVerify.Assoc
import MnoVerify.Json

/-!
# Rooms of the Matrix bot

`RoomStateTracker` and `isPrivateDirectRoomState` of `adapters/matrix/room_privacy.js`, and the sync loop of
`adapters/matrix/bot.js`; beside them the state of a room by the rules of Matrix, and the ways in which an honest
homeserver delivers the history of a room.
-/

namespace RoomPrivacy

open Json (isText)

/-- An event as a homeserver sends it; only a state event has a state key. -/
structure Event where
  id : String
  type : String
  stateKey : Option String
  sender : String
  content : Json

/-! ## The tracker -/

/-- `{ members, joinRule, historyVisibility }`. A member event without a state key stands for the member `undefined`. -/
structure Room where
  members : List (Option String)
  joinRule : Option Json
  historyVisibility : Option Json

def Room.empty : Room := ⟨[], none, none⟩

/-- `Set.prototype.add` -/
def addMember (ids : List (Option String)) (id : Option String) : List (Option String) :=
  if id ∈ ids then ids else ids ++ [id]

/-- `ev.content?.[field]`, where it is not null. -/
def stated (field : String) (ev : Event) : Option Json :=
  match ev.content.field field with
  | some .null => none
  | v => v

/-- `applyEvent` on the room of the event. -/
def Room.applyEvent (r : Room) (ev : Event) : Room :=
  if ev.type = "m.room.member" then
    if isText "join" (ev.content.field "membership") then { r with members := addMember r.members ev.stateKey }
    else { r with members := r.members.erase ev.stateKey }
  else if ev.type = "m.room.join_rules" then
    match stated "join_rule" ev with
    | some v => { r with joinRule := some v }
    | none => r
  else if ev.type = "m.room.history_visibility" then
    match stated "history_visibility" ev with
    | some v => { r with historyVisibility := some v }
    | none => r
  else r

/-- The rooms by their id. -/
abbrev Tracker := List (String × Room)

/-- `#room`; what it adds, `applyEvent` writes back. -/
def room (t : Tracker) (roomId : String) : Room := (t.lookup roomId).getD Room.empty

def applyEvent (roomId : String) (t : Tracker) (ev : Event) : Tracker := Assoc.set t roomId ((room t roomId).applyEvent ev)

def applyEvents (t : Tracker) (roomId : String) (events : List Event) : Tracker := events.foldl (applyEvent roomId) t

def snapshot (t : Tracker) (roomId : String) : Option Room := t.lookup roomId

def forget (t : Tracker) (roomId : String) : Tracker := Assoc.erase t roomId

def isPrivateDirectRoomState (state : Option Room) (botUserId sender : String) : Bool :=
  match state with
  | none => false
  | some r => decide (r.members.length = 2) && decide (some botUserId ∈ r.members) && decide (some sender ∈ r.members) &&
      isText "invite" r.joinRule && isText "joined" r.historyVisibility

/-! ## The sync loop -/

/-- `rooms.join[roomId]` of a response; a section that is missing is empty. -/
structure JoinedRoom where
  state : List Event
  timeline : List Event

structure Sync where
  join : List (String × JoinedRoom)
  leave : List String

/-- A message that the bot handles, with the snapshot that it is given. -/
structure Message where
  roomId : String
  event : Event
  state : Option Room

/-- A text message; at one of its own `handle` returns at once. -/
def handled (botUserId : String) (ev : Event) : Bool :=
  decide (ev.type = "m.room.message") && isText "m.text" (ev.content.field "msgtype") && decide (ev.sender ≠ botUserId)

/-- The tracker, and what was handled so far. -/
abbrev Bot := Tracker × List Message

def timelineStep (botUserId roomId : String) (b : Bot) (ev : Event) : Bot :=
  let t := applyEvent roomId b.1 ev
  (t, if handled botUserId ev then b.2 ++ [⟨roomId, ev, snapshot t roomId⟩] else b.2)

def joinStep (botUserId : String) (b : Bot) (p : String × JoinedRoom) : Bot :=
  p.2.timeline.foldl (timelineStep botUserId p.1) (applyEvents b.1 p.1 p.2.state, b.2)

def syncStep (botUserId : String) (b : Bot) (s : Sync) : Bot :=
  let b := s.join.foldl (joinStep botUserId) b
  (s.leave.foldl forget b.1, b.2)

/-- The first response: its messages are backlog. -/
def start (init : Sync) : Tracker :=
  init.join.foldl (fun t p => applyEvents (applyEvents t p.1 p.2.state) p.1 p.2.timeline) []

def run (botUserId : String) (init : Sync) (syncs : List Sync) : Bot :=
  syncs.foldl (syncStep botUserId) (start init, [])

/-! ## The rules of Matrix -/

/-- The content of the current event of a type and a state key. -/
abbrev RoomState := String → String → Option Json

def RoomState.empty : RoomState := fun _ _ => none

/-- A state event replaces the one of its type and key. -/
def RoomState.apply (σ : RoomState) (ev : Event) : RoomState :=
  match ev.stateKey with
  | none => σ
  | some key => fun type k => if type = ev.type ∧ k = key then some ev.content else σ type k

def replay (σ : RoomState) (events : List Event) : RoomState := events.foldl RoomState.apply σ

def membership (σ : RoomState) (user : String) : Option Json := (σ "m.room.member" user).bind (Json.field "membership")

/-- A setting of the room, at the empty state key. -/
def setting (σ : RoomState) (type field : String) : Option Json := (σ type "").bind (Json.field field)

def joinRule (σ : RoomState) : Option Json := setting σ "m.room.join_rules" "join_rule"

def historyVisibility (σ : RoomState) : Json :=
  (setting σ "m.room.history_visibility" "history_visibility").getD (.str "shared")

/-- What the bot asks of a room, by the rules. -/
structure PrivateDirect (σ : RoomState) (bot sender : String) : Prop where
  members : ∀ user, membership σ user = some (.str "join") ↔ user = bot ∨ user = sender
  invite : joinRule σ = some (.str "invite")
  joined : historyVisibility σ = .str "joined"

/-! ## An honest homeserver -/

/-- The events of every room, from its first one on; no event is there twice. -/
structure History where
  events : String → List Event
  nodup : ∀ roomId, (events roomId).Nodup

/-- How far the bot has seen a room; `none` before it joins and after it left. -/
abbrev View := String → Option Nat

def stateAt (H : History) (roomId : String) (n : Nat) : RoomState := replay RoomState.empty ((H.events roomId).take n)

/-- The state that the bot was told. -/
def known (H : History) (v : View) (roomId : String) : RoomState :=
  match v roomId with
  | none => RoomState.empty
  | some n => stateAt H roomId n

/-- The rooms of a response. The timeline is a stretch of the history; `state` holds what changed up to its start, and
for a room that the bot did not know, all of its state. -/
inductive Delivers (H : History) : View → List (String × JoinedRoom) → View → Prop
  | nil (v : View) : Delivers H v [] v
  | cons {v v' : View} {roomId : String} {r : JoinedRoom} {rooms : List (String × JoinedRoom)} (n : Nat)
      (state : ∀ ev ∈ r.state, ev.stateKey.isSome)
      (delta : replay (known H v roomId) r.state = stateAt H roomId n)
      (timeline : r.timeline <+: (H.events roomId).drop n)
      (rest : Delivers H (fun id => if id = roomId then some (n + r.timeline.length) else v id) rooms v') :
      Delivers H v ((roomId, r) :: rooms) v'

/-- The responses after the first. -/
inductive Continues (H : History) : View → List Sync → Prop
  | nil (v : View) : Continues H v []
  | cons {v v' : View} {s : Sync} {syncs : List Sync} (join : Delivers H v s.join v')
      (rest : Continues H (fun id => if id ∈ s.leave then none else v' id) syncs) : Continues H v (s :: syncs)

/-- The responses of an honest homeserver. -/
def Honest (H : History) (init : Sync) (syncs : List Sync) : Prop :=
  ∃ v, Delivers H (fun _ => none) init.join v ∧ Continues H v syncs

end RoomPrivacy
