import MnoVerify.RoomPrivacy
import Mathlib.Data.List.Nodup
import Mathlib.Data.List.Perm.Subperm

/-!
# What the Matrix bot is shown to be private

The tracked room follows the room, as long as the events that the bot receives are plain (`Plain`): `agree_apply_iff` is
the one step, for which the condition is exact, and `handled_private` a run of the sync loop. An event of a tracked type
that is no state event can make a shared room look private (`shared_seems_private`).
-/

namespace RoomPrivacy

open Json (isText isText_iff)

/-! ## One event -/

theorem field_apply (σ : RoomState) (ev : Event) (type key field : String) : ((σ.apply ev) type key).bind (Json.field field) =
    if ev.type = type ∧ ev.stateKey = some key then ev.content.field field else (σ type key).bind (Json.field field) := by
  unfold RoomState.apply
  cases hk : ev.stateKey with
  | none => rw [if_neg fun h => by cases h.2]
  | some key' =>
    by_cases h : type = ev.type ∧ key = key'
    · rw [if_pos ⟨h.1.symm, by rw [h.2]⟩]
      simp only [if_pos h, Option.bind_some]
    · rw [if_neg fun h' => h ⟨h'.1.symm, (Option.some.inj h'.2).symm⟩]
      simp only [if_neg h]

theorem membership_apply (σ : RoomState) (ev : Event) (user : String) : membership (σ.apply ev) user =
    if ev.type = "m.room.member" ∧ ev.stateKey = some user then ev.content.field "membership" else membership σ user :=
  field_apply σ ev _ user _

theorem setting_apply (σ : RoomState) (ev : Event) (type field : String) : setting (σ.apply ev) type field =
    if ev.type = type ∧ ev.stateKey = some "" then ev.content.field field else setting σ type field :=
  field_apply σ ev type "" field

theorem members_applyEvent (r : Room) (ev : Event) : (r.applyEvent ev).members =
    if ev.type = "m.room.member" then
      if isText "join" (ev.content.field "membership") then addMember r.members ev.stateKey else r.members.erase ev.stateKey
    else r.members := by
  rw [Room.applyEvent]
  repeat' split
  all_goals rfl

theorem joinRule_applyEvent (r : Room) (ev : Event) : (r.applyEvent ev).joinRule =
    if ev.type = "m.room.join_rules" then (stated "join_rule" ev).or r.joinRule else r.joinRule := by
  rw [Room.applyEvent]
  by_cases hm : ev.type = "m.room.member"
  · have hne : ¬ ev.type = "m.room.join_rules" := by rw [hm]; decide
    rw [if_pos hm, if_neg hne]
    split <;> rfl
  · rw [if_neg hm]
    by_cases hj : ev.type = "m.room.join_rules"
    · rw [if_pos hj, if_pos hj]
      split
      · rename_i v hv
        rw [hv, Option.some_or]
      · rename_i hv
        rw [hv, Option.none_or]
    · rw [if_neg hj, if_neg hj]
      repeat' split
      all_goals rfl

theorem historyVisibility_applyEvent (r : Room) (ev : Event) : (r.applyEvent ev).historyVisibility =
    if ev.type = "m.room.history_visibility" then (stated "history_visibility" ev).or r.historyVisibility
    else r.historyVisibility := by
  rw [Room.applyEvent]
  by_cases hm : ev.type = "m.room.member"
  · have hne : ¬ ev.type = "m.room.history_visibility" := by rw [hm]; decide
    rw [if_pos hm, if_neg hne]
    split <;> rfl
  · rw [if_neg hm]
    by_cases hj : ev.type = "m.room.join_rules"
    · have hne : ¬ ev.type = "m.room.history_visibility" := by rw [hj]; decide
      rw [if_pos hj, if_neg hne]
      split <;> rfl
    · rw [if_neg hj]
      by_cases hh : ev.type = "m.room.history_visibility"
      · rw [if_pos hh, if_pos hh]
        split
        · rename_i v hv
          rw [hv, Option.some_or]
        · rename_i hv
          rw [hv, Option.none_or]
      · rw [if_neg hh, if_neg hh]

/-! ## Events that the tracker reads right -/

/-- An event about a setting: it is the state event and has a value, or it is another one and does not state the value
that makes a room private. -/
def Faithful (type field value : String) (ev : Event) : Prop :=
  ev.type = type → (ev.stateKey = some "" ∧ (stated field ev).isSome) ∨
    (ev.stateKey ≠ some "" ∧ isText value (ev.content.field field) = false)

structure Plain (ev : Event) : Prop where
  joinRule : Faithful "m.room.join_rules" "join_rule" "invite" ev
  historyVisibility : Faithful "m.room.history_visibility" "history_visibility" "joined" ev

instance (type field value : String) (ev : Event) : Decidable (Faithful type field value ev) :=
  inferInstanceAs (Decidable (_ → _))

instance (ev : Event) : Decidable (Plain ev) :=
  decidable_of_iff (Faithful "m.room.join_rules" "join_rule" "invite" ev ∧
    Faithful "m.room.history_visibility" "history_visibility" "joined" ev)
    ⟨fun h => ⟨h.1, h.2⟩, fun h => ⟨h.joinRule, h.historyVisibility⟩⟩

/-- The tracked room is no more private than the room. -/
structure Agree (r : Room) (σ : RoomState) : Prop where
  nodup : r.members.Nodup
  members : ∀ user, some user ∈ r.members ↔ membership σ user = some (.str "join")
  invite : r.joinRule = some (.str "invite") → setting σ "m.room.join_rules" "join_rule" = some (.str "invite")
  joined : r.historyVisibility = some (.str "joined") →
    setting σ "m.room.history_visibility" "history_visibility" = some (.str "joined")

theorem agree_empty : Agree Room.empty RoomState.empty :=
  ⟨List.nodup_nil, fun _ => ⟨fun h => absurd h List.not_mem_nil, fun h => (by cases h)⟩, fun h => (by cases h),
    fun h => (by cases h)⟩

theorem stated_some {field : String} {ev : Event} {v : Json} (h : stated field ev = some v) :
    ev.content.field field = some v := by
  rw [stated] at h
  split at h
  · cases h
  · exact h

/-- A setting follows the room over one event. -/
theorem setting_follows {type field value : String} {ev : Event} {tracked : Option Json} {σ : RoomState}
    (hf : Faithful type field value ev) (h : tracked = some (.str value) → setting σ type field = some (.str value))
    (ht : (if ev.type = type then (stated field ev).or tracked else tracked) = some (.str value)) :
    setting (σ.apply ev) type field = some (.str value) := by
  rw [setting_apply]
  by_cases hty : ev.type = type
  · rw [if_pos hty] at ht
    rcases hf hty with ⟨hk, hs⟩ | ⟨hk, hv⟩
    · obtain ⟨v, hv⟩ := Option.isSome_iff_exists.mp hs
      rw [hv, Option.some_or] at ht
      rw [if_pos ⟨hty, hk⟩, stated_some hv, ht]
    · rw [if_neg (fun h => hk h.2)]
      cases hst : stated field ev with
      | none => exact h (by rwa [hst, Option.none_or] at ht)
      | some v =>
        rw [hst, Option.some_or] at ht
        rw [ht] at hst
        rw [isText_iff.mpr (stated_some hst)] at hv
        cases hv
  · rw [if_neg hty] at ht
    rw [if_neg (fun h => hty h.1)]
    exact h ht

theorem members_follow {ids : List (Option String)} {σ : RoomState} (ev : Event)
    (h : ∀ user, some user ∈ ids ↔ membership σ user = some (.str "join")) (hn : ids.Nodup) (user : String) :
    some user ∈ (if isText "join" (ev.content.field "membership") then addMember ids ev.stateKey
      else ids.erase ev.stateKey) ↔
    (if ev.stateKey = some user then ev.content.field "membership" else membership σ user) = some (.str "join") := by
  by_cases hj : isText "join" (ev.content.field "membership") = true
  · rw [if_pos hj, addMember]
    by_cases hk : ev.stateKey = some user
    · rw [if_pos hk, hk]
      refine iff_of_true ?_ (isText_iff.mp hj)
      split
      · assumption
      · exact List.mem_append_right _ (List.mem_singleton_self _)
    · rw [if_neg hk, ← h user]
      split
      · rfl
      · rw [List.mem_append, List.mem_singleton]
        exact or_iff_left fun he => hk he.symm
  · rw [if_neg hj, hn.mem_erase_iff]
    by_cases hk : ev.stateKey = some user
    · rw [if_pos hk, hk]
      exact iff_of_false (fun h => h.1 rfl) fun h => hj (isText_iff.mpr h)
    · rw [if_neg hk, ← h user]
      exact and_iff_right fun he => hk he.symm

theorem nodup_addMember {ids : List (Option String)} (h : ids.Nodup) (id : Option String) : (addMember ids id).Nodup := by
  rw [addMember]
  split
  · exact h
  · exact List.Nodup.append h (List.nodup_singleton _) (List.disjoint_singleton.mpr ‹_›)

theorem Agree.apply {r : Room} {σ : RoomState} {ev : Event} (h : Agree r σ) (hp : Plain ev) :
    Agree (r.applyEvent ev) (σ.apply ev) where
  nodup := by
    rw [members_applyEvent]
    split
    · split
      · exact nodup_addMember h.nodup _
      · exact h.nodup.erase _
    · exact h.nodup
  members user := by
    rw [members_applyEvent, membership_apply]
    by_cases ht : ev.type = "m.room.member"
    · rw [if_pos ht, members_follow ev h.members h.nodup]
      simp only [ht, true_and]
    · rw [if_neg ht, if_neg (fun h => ht h.1)]
      exact h.members user
  invite hi := by
    rw [joinRule_applyEvent] at hi
    exact setting_follows hp.joinRule h.invite hi
  joined hj := by
    rw [historyVisibility_applyEvent] at hj
    exact setting_follows hp.historyVisibility h.joined hj

/-- The state with one event, of the given content. -/
def RoomState.one (type : String) (content : Json) : RoomState :=
  fun type' key => if type' = type ∧ key = "" then some content else none

theorem membership_one {type : String} (h : type ≠ "m.room.member") (content : Json) (user : String) :
    membership (RoomState.one type content) user = none := by
  rw [membership, RoomState.one, if_neg (fun he => h he.1.symm), Option.bind_none]

theorem setting_one (type field value : String) :
    setting (RoomState.one type (.obj [(field, .str value)])) type field = some (.str value) := by
  rw [setting, RoomState.one, if_pos ⟨rfl, rfl⟩, Option.bind_some]
  simp [Json.field]

/-- An event that is not faithful goes wrong in some room. -/
theorem faithful_of_follows {type field value : String} {ev : Event} (hty : type ≠ "m.room.member")
    (h : ∀ (tracked : Option Json) (σ : RoomState), (∀ user, membership σ user = none) →
      (tracked = some (.str value) → setting σ type field = some (.str value)) →
      (if ev.type = type then (stated field ev).or tracked else tracked) = some (.str value) →
      setting (σ.apply ev) type field = some (.str value)) : Faithful type field value ev := by
  intro ht
  by_cases hk : ev.stateKey = some ""
  · refine Or.inl ⟨hk, ?_⟩
    by_contra hs
    rw [Option.not_isSome_iff_eq_none] at hs
    have hno := h (some (.str value)) (RoomState.one type (.obj [(field, .str value)])) (membership_one hty _)
      (fun _ => setting_one type field value) (by rw [if_pos ht, hs, Option.none_or])
    rw [setting_apply, if_pos ⟨ht, hk⟩] at hno
    rw [stated, hno] at hs
    cases hs
  · refine Or.inr ⟨hk, ?_⟩
    by_contra hv
    rw [Bool.not_eq_false, isText_iff] at hv
    have hst : stated field ev = some (.str value) := by rw [stated, hv]
    have hno := h none RoomState.empty (fun _ => rfl) (fun hn => by cases hn) (by rw [if_pos ht, hst, Option.some_or])
    rw [setting_apply, if_neg (fun he => hk he.2)] at hno
    cases hno

theorem agree_bare {σ : RoomState} (hm : ∀ user, membership σ user = none) {rule visibility : Option Json}
    (hi : rule = some (.str "invite") → setting σ "m.room.join_rules" "join_rule" = some (.str "invite"))
    (hj : visibility = some (.str "joined") →
      setting σ "m.room.history_visibility" "history_visibility" = some (.str "joined")) :
    Agree ⟨[], rule, visibility⟩ σ :=
  ⟨List.nodup_nil, fun user => iff_of_false List.not_mem_nil (by rw [hm user]; exact fun h => by cases h), hi, hj⟩

/-- An event keeps every tracked room no more private than the room if and only if it is plain. -/
theorem agree_apply_iff (ev : Event) :
    (∀ r σ, Agree r σ → Agree (r.applyEvent ev) (σ.apply ev)) ↔ Plain ev := by
  constructor
  · intro h
    refine ⟨faithful_of_follows (by decide) fun tracked σ hm hs ht => ?_,
      faithful_of_follows (by decide) fun tracked σ hm hs ht => ?_⟩
    · refine (h _ σ (@agree_bare σ hm tracked none hs fun hn => by cases hn)).invite ?_
      rw [joinRule_applyEvent]
      exact ht
    · refine (h _ σ (@agree_bare σ hm none tracked (fun hn => by cases hn) hs)).joined ?_
      rw [historyVisibility_applyEvent]
      exact ht
  · exact fun hp r σ h => h.apply hp

/-! ## The predicate -/

theorem privateDirect_of_agree {t : Option Room} {σ : RoomState} {bot sender : String} (hne : sender ≠ bot)
    (h : ∀ r, t = some r → Agree r σ) (hp : isPrivateDirectRoomState t bot sender = true) : PrivateDirect σ bot sender := by
  cases t with
  | none => cases hp
  | some r =>
    have ha := h r rfl
    simp only [isPrivateDirectRoomState, Bool.and_eq_true, decide_eq_true_eq] at hp
    obtain ⟨⟨⟨⟨hlen, hb⟩, hs⟩, hi⟩, hj⟩ := hp
    refine ⟨fun user => ?_, ha.invite (isText_iff.mp hi), ?_⟩
    · rw [← ha.members user]
      constructor
      · intro hu
        -- a third member does not fit in
        by_contra hno
        rw [not_or] at hno
        have hsub : [some user, some bot, some sender] ⊆ r.members := by
          intro id hid
          simp only [List.mem_cons, List.not_mem_nil, or_false] at hid
          rcases hid with rfl | rfl | rfl
          · exact hu
          · exact hb
          · exact hs
        have hnodup : [some user, some bot, some sender].Nodup := by
          simp [hno.1, hno.2, Ne.symm hne]
        have hle := (List.subperm_of_subset hnodup hsub).length_le
        rw [hlen] at hle
        exact absurd hle (by simp)
      · rintro (rfl | rfl)
        · exact hb
        · exact hs
    · rw [historyVisibility, ha.joined (isText_iff.mp hj), Option.getD_some]

/-! ## The tracker -/

theorem room_applyEvent (roomId : String) (t : Tracker) (ev : Event) (id : String) :
    room (applyEvent roomId t ev) id = if id = roomId then (room t id).applyEvent ev else room t id := by
  by_cases h : id = roomId
  · rw [if_pos h, room, applyEvent, h, Assoc.lookup_set_self, Option.getD_some]
  · rw [if_neg h, room, applyEvent, Assoc.lookup_set_of_ne h, room]

theorem room_applyEvents (t : Tracker) (roomId : String) (events : List Event) (id : String) :
    room (applyEvents t roomId events) id =
      if id = roomId then events.foldl Room.applyEvent (room t id) else room t id := by
  induction events generalizing t with
  | nil => rw [applyEvents, List.foldl_nil, List.foldl_nil, ite_self]
  | cons ev events ih =>
    rw [applyEvents, List.foldl_cons, ← applyEvents, ih, room_applyEvent, List.foldl_cons]
    by_cases h : id = roomId
    · rw [if_pos h, if_pos h, if_pos h]
    · rw [if_neg h, if_neg h, if_neg h]

theorem room_forget (t : Tracker) (roomIds : List String) (id : String) :
    room (roomIds.foldl forget t) id = if id ∈ roomIds then Room.empty else room t id := by
  induction roomIds generalizing t with
  | nil => rw [List.foldl_nil, if_neg List.not_mem_nil]
  | cons roomId roomIds ih =>
    rw [List.foldl_cons, ih]
    by_cases hm : id ∈ roomIds
    · rw [if_pos hm, if_pos (List.mem_cons_of_mem _ hm)]
    · rw [if_neg hm, room, forget]
      by_cases h : id = roomId
      · rw [if_pos (by rw [h]; exact List.mem_cons_self), h, Assoc.lookup_erase_self, Option.getD_none]
      · rw [if_neg (by rw [List.mem_cons, not_or]; exact ⟨h, hm⟩), Assoc.lookup_erase_of_ne h, room]

theorem Agree.replay {r : Room} {σ : RoomState} {events : List Event} (h : Agree r σ) (hp : ∀ ev ∈ events, Plain ev) :
    Agree (events.foldl Room.applyEvent r) (replay σ events) := by
  induction events generalizing r σ with
  | nil => exact h
  | cons ev events ih =>
    exact ih (h.apply (hp ev List.mem_cons_self)) fun ev' hmem => hp ev' (List.mem_cons_of_mem _ hmem)

/-! ## The loop -/

section

variable {H : History} {bot : String}

/-- At every place of the message in the history, what was taken for private is private. -/
def Safe (H : History) (bot : String) (m : Message) : Prop :=
  ∀ before after, H.events m.roomId = before ++ m.event :: after →
    isPrivateDirectRoomState m.state bot m.event.sender = true →
      PrivateDirect (replay RoomState.empty (before ++ [m.event])) bot m.event.sender

theorem replay_append (σ : RoomState) (a b : List Event) : replay σ (a ++ b) = replay (replay σ a) b := List.foldl_append

/-- An event stands at one place of its history. -/
theorem before_unique {l before before' after after' : List Event} {ev : Event} (hn : l.Nodup)
    (h : l = before ++ ev :: after) (h' : l = before' ++ ev :: after') : before = before' := by
  have hev := hn
  rw [h, List.nodup_middle, List.nodup_cons, List.mem_append, not_or] at hev
  exact ((List.append_cons_inj_of_notMem hev.1.1 hev.1.2).mp (h.symm.trans h')).1

theorem safe_of_agree {roomId : String} {t : Tracker} {before after : List Event} {ev : Event}
    (hev : H.events roomId = before ++ ev :: after) (hs : ev.sender ≠ bot)
    (h : Agree (room t roomId) (replay RoomState.empty (before ++ [ev]))) : Safe H bot ⟨roomId, ev, snapshot t roomId⟩ := by
  intro before' after' hev' hp
  rw [before_unique (H.nodup roomId) hev' hev]
  refine privateDirect_of_agree hs (fun r hr => ?_) hp
  dsimp only [snapshot] at hr
  rwa [room, hr, Option.getD_some] at h

theorem timeline_safe {roomId : String} : ∀ (timeline before after : List Event) (b : Bot),
    H.events roomId = before ++ timeline ++ after → (∀ ev ∈ timeline, Plain ev) →
    Agree (room b.1 roomId) (replay RoomState.empty before) → (∀ m ∈ b.2, Safe H bot m) →
      ∀ m ∈ (timeline.foldl (timelineStep bot roomId) b).2, Safe H bot m
  | [], _, _, _, _, _, _, hm => hm
  | ev :: timeline, before, after, b, he, hp, ha, hm => by
    have he' : H.events roomId = before ++ [ev] ++ timeline ++ after := by
      rw [he, List.append_assoc before [ev], List.singleton_append]
    have ha' : Agree (room (applyEvent roomId b.1 ev) roomId) (replay RoomState.empty (before ++ [ev])) := by
      rw [room_applyEvent, if_pos rfl, replay_append]
      exact ha.apply (hp ev List.mem_cons_self)
    refine timeline_safe timeline (before ++ [ev]) after _ he' (fun ev' hmem => hp ev' (List.mem_cons_of_mem _ hmem)) ha' ?_
    intro m hmem
    rw [timelineStep] at hmem
    dsimp only at hmem
    split at hmem
    · rename_i hh
      rcases List.mem_append.mp hmem with hold | hnew
      · exact hm m hold
      · rw [List.mem_singleton] at hnew
        rw [hnew]
        simp only [handled, Bool.and_eq_true, decide_eq_true_eq] at hh
        have hev : H.events roomId = before ++ ev :: (timeline ++ after) := by
          rw [he', List.append_assoc, List.append_assoc, List.singleton_append]
        exact safe_of_agree hev hh.2 ha'
    · exact hm m hmem

theorem timelineStep_fst (roomId : String) (timeline : List Event) (b : Bot) :
    (timeline.foldl (timelineStep bot roomId) b).1 = applyEvents b.1 roomId timeline := by
  induction timeline generalizing b with
  | nil => rfl
  | cons ev timeline ih => rw [List.foldl_cons, ih, applyEvents, applyEvents, List.foldl_cons, timelineStep]

theorem joinStep_fst (b : Bot) (p : String × JoinedRoom) :
    (joinStep bot b p).1 = applyEvents (applyEvents b.1 p.1 p.2.state) p.1 p.2.timeline := by
  rw [joinStep, timelineStep_fst]

/-- The tracker is no more private than what the bot was told. -/
def Tracks (H : History) (v : View) (t : Tracker) : Prop := ∀ roomId, Agree (room t roomId) (known H v roomId)

/-- The events of a response are plain. -/
def PlainSync (s : Sync) : Prop := ∀ p ∈ s.join, ∀ ev ∈ p.2.state ++ p.2.timeline, Plain ev

theorem stateAt_append {roomId : String} {n : Nat} {timeline : List Event}
    (h : timeline <+: (H.events roomId).drop n) :
    stateAt H roomId (n + timeline.length) = replay (stateAt H roomId n) timeline := by
  rw [stateAt, List.take_add, ← List.prefix_iff_eq_take.mp h, replay_append, stateAt]

theorem known_seen (v : View) (roomId : String) (n : Nat) :
    known H (fun id => if id = roomId then some n else v id) roomId = stateAt H roomId n := by
  simp [known]

theorem known_other (v : View) {roomId id : String} (o : Option Nat) (h : id ≠ roomId) :
    known H (fun id => if id = roomId then o else v id) id = known H v id := by
  simp [known, h]

theorem delivers_safe {v v' : View} {rooms : List (String × JoinedRoom)} (h : Delivers H v rooms v') :
    ∀ {b : Bot}, (∀ p ∈ rooms, ∀ ev ∈ p.2.state ++ p.2.timeline, Plain ev) → Tracks H v b.1 → (∀ m ∈ b.2, Safe H bot m) →
      Tracks H v' (rooms.foldl (joinStep bot) b).1 ∧ ∀ m ∈ (rooms.foldl (joinStep bot) b).2, Safe H bot m := by
  induction h with
  | nil v => exact fun _ ht hm => ⟨ht, hm⟩
  | @cons v v' roomId r rooms n hstate hdelta htimeline hrest ih =>
    intro b hp ht hm
    have hplain := hp (roomId, r) List.mem_cons_self
    have hplain₁ : ∀ ev ∈ r.state, Plain ev := fun ev hmem => hplain ev (List.mem_append_left _ hmem)
    have hplain₂ : ∀ ev ∈ r.timeline, Plain ev := fun ev hmem => hplain ev (List.mem_append_right _ hmem)
    have hstart : Agree (room (applyEvents b.1 roomId r.state) roomId) (stateAt H roomId n) := by
      rw [room_applyEvents, if_pos rfl, ← hdelta]
      exact (ht roomId).replay hplain₁
    refine ih (fun p hmem => hp p (List.mem_cons_of_mem _ hmem)) ?_ ?_
    · intro id
      rw [joinStep_fst]
      by_cases hid : id = roomId
      · subst hid
        rw [room_applyEvents, if_pos rfl, known_seen, stateAt_append htimeline]
        exact hstart.replay hplain₂
      · rw [room_applyEvents, if_neg hid, room_applyEvents, if_neg hid, known_other v _ hid]
        exact ht id
    · obtain ⟨after, hafter⟩ := htimeline
      refine timeline_safe r.timeline ((H.events roomId).take n) after _ ?_ hplain₂ hstart hm
      rw [List.append_assoc, hafter, List.take_append_drop]

theorem continues_safe {v : View} {syncs : List Sync} (h : Continues H v syncs) :
    ∀ {b : Bot}, (∀ s ∈ syncs, PlainSync s) → Tracks H v b.1 → (∀ m ∈ b.2, Safe H bot m) →
      ∀ m ∈ (syncs.foldl (syncStep bot) b).2, Safe H bot m := by
  induction h with
  | nil v => exact fun _ _ hm => hm
  | @cons v v' s syncs hjoin hrest ih =>
    intro b hp ht hm
    obtain ⟨ht', hm'⟩ := delivers_safe hjoin (hp s List.mem_cons_self) ht hm
    refine ih (fun s' hmem => hp s' (List.mem_cons_of_mem _ hmem)) ?_ hm'
    intro id
    rw [syncStep, room_forget, known]
    by_cases hid : id ∈ s.leave
    · simp only [if_pos hid]
      exact agree_empty
    · simp only [if_neg hid]
      exact ht' id

theorem start_eq (init : Sync) : start init = (init.join.foldl (joinStep bot) ([], [])).1 := by
  have h : ∀ (rooms : List (String × JoinedRoom)) (b : Bot),
      rooms.foldl (fun t p => applyEvents (applyEvents t p.1 p.2.state) p.1 p.2.timeline) b.1 =
        (rooms.foldl (joinStep bot) b).1 := by
    intro rooms
    induction rooms with
    | nil => exact fun _ => rfl
    | cons p rooms ih => exact fun b => by rw [List.foldl_cons, List.foldl_cons, ← joinStep_fst, ih]
  exact h init.join ([], [])

/-- A room that is taken for private is private, at every message that the bot handles, when the events of the
responses are plain. -/
theorem handled_private {init : Sync} {syncs : List Sync} (hh : Honest H init syncs)
    (hp : ∀ s ∈ init :: syncs, PlainSync s) : ∀ m ∈ (run bot init syncs).2, Safe H bot m := by
  obtain ⟨v, hinit, hrest⟩ := hh
  have ht := (@delivers_safe H bot _ _ _ hinit ([], []) (hp init List.mem_cons_self) (fun _ => agree_empty) fun _ h =>
    absurd h List.not_mem_nil).1
  rw [← start_eq] at ht
  exact continues_safe hrest (b := (start init, [])) (fun s hmem => hp s (List.mem_cons_of_mem _ hmem)) ht fun _ h =>
    absurd h List.not_mem_nil

end

/-! ## A room with one event more -/

def memberEvent (user : String) : Event :=
  ⟨"$" ++ user, "m.room.member", some user, user, .obj [("membership", .str "join")]⟩

def settingEvent (id type : String) (stateKey : Option String) (field value : String) : Event :=
  ⟨id, type, stateKey, "@alice:hs", .obj [(field, .str value)]⟩

/-- The room of Alice and the bot: its history visibility, an event that Alice sends, and a message of hers. -/
def aliceEvents (visibility : String) (ev : Event) : List Event :=
  [memberEvent "@alice:hs", memberEvent "@bot:hs", settingEvent "$rule" "m.room.join_rules" (some "") "join_rule" "invite",
    settingEvent "$visibility" "m.room.history_visibility" (some "") "history_visibility" visibility, ev,
    ⟨"$verify", "m.room.message", none, "@alice:hs", .obj [("msgtype", .str "m.text"), ("body", .str "!verify")]⟩]

def aliceHistory (visibility : String) (ev : Event) (h : ((aliceEvents visibility ev).map Event.id).Nodup) : History where
  events roomId := if roomId = "!room:hs" then aliceEvents visibility ev else []
  nodup roomId := by
    split
    · exact h.of_map
    · exact List.nodup_nil

def noRooms : Sync := ⟨[], []⟩

def aliceSync (visibility : String) (ev : Event) : Sync := ⟨[("!room:hs", ⟨[], aliceEvents visibility ev⟩)], []⟩

theorem alice_honest (visibility : String) (ev : Event) (h : ((aliceEvents visibility ev).map Event.id).Nodup) :
    Honest (aliceHistory visibility ev h) noRooms [aliceSync visibility ev] := by
  refine ⟨_, .nil _, .cons (.cons 0 (fun _ hm => absurd hm List.not_mem_nil) rfl ?_ (.nil _)) (.nil _)⟩
  rw [List.drop_zero, aliceHistory]
  exact List.prefix_rfl

/-- It has the type of a setting, and it is no state event. -/
def strayEvent : Event := settingEvent "$stray" "m.room.history_visibility" none "history_visibility" "joined"

/-- The room is shared with everyone who joins later, and passes for private. -/
theorem shared_seems_private :
    Honest (aliceHistory "shared" strayEvent (by decide)) noRooms [aliceSync "shared" strayEvent] ∧
    ∃ m ∈ (run "@bot:hs" noRooms [aliceSync "shared" strayEvent]).2,
      ¬ Safe (aliceHistory "shared" strayEvent (by decide)) "@bot:hs" m := by
  refine ⟨alice_honest _ _ _, _, List.mem_singleton_self _, fun h => ?_⟩
  have hp := h ((aliceEvents "shared" strayEvent).take 5) [] rfl (by decide)
  have hv := Json.str.inj hp.joined
  exact absurd hv (by decide)

def topicEvent : Event := settingEvent "$topic" "m.room.topic" (some "") "topic" "verification"

theorem handled_private_alice :
    PrivateDirect (replay RoomState.empty (aliceEvents "joined" topicEvent)) "@bot:hs" "@alice:hs" := by
  have hplain : ∀ s ∈ [noRooms, aliceSync "joined" topicEvent], PlainSync s := by
    intro s hs p hp
    rcases List.mem_cons.mp hs with rfl | hs
    · exact absurd hp List.not_mem_nil
    · rw [List.mem_singleton.mp hs] at hp
      rw [List.mem_singleton.mp hp]
      decide
  have hsafe : ∃ m ∈ (run "@bot:hs" noRooms [aliceSync "joined" topicEvent]).2, m.event.sender = "@alice:hs" ∧
      isPrivateDirectRoomState m.state "@bot:hs" m.event.sender = true ∧ m.roomId = "!room:hs" ∧
      aliceEvents "joined" topicEvent = (aliceEvents "joined" topicEvent).take 5 ++ [m.event] :=
    ⟨_, List.mem_singleton_self _, rfl, by decide, rfl, rfl⟩
  obtain ⟨m, hm, hs, hp, hid, hev⟩ := hsafe
  have h := handled_private (alice_honest "joined" topicEvent (by decide)) hplain m hm
  have hat : (aliceHistory "joined" topicEvent (by decide)).events m.roomId =
      (aliceEvents "joined" topicEvent).take 5 ++ m.event :: [] := by rw [hid, ← hev]; rfl
  have hd := h _ [] hat hp
  rwa [← hev, hs] at hd

end RoomPrivacy
