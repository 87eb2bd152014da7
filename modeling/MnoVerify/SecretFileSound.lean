import MnoVerify.SecretFile

/-!
# The member secret is kept

The record of a path has a core that no run changes: the secret, the context and the season (`Core`, `Fits`). `Ext` is
what one operation may do to the disk, `PcOk` what is known of a run at each place, and `Inv` holds both of an interleaving
(`inv_step`). `secrets_kept` is the result for the runs that find the file on the disk.
-/

namespace SecretFile

open Snapshot (present)
open Gateway (truthy)
open Json (isText isText_iff)

/-! ## Records -/

theorem field_cons (k : String) (p : String × Json) (m : List (String × Json)) :
    Json.field k (.obj (p :: m)) = (Json.field k (.obj m)).or (if p.1 = k then some p.2 else none) := by
  simp only [Json.field, List.reverse_cons, List.find?_append, List.find?_cons, List.find?_nil]
  cases hf : m.reverse.find? fun q => q.1 == k with
  | some q => rfl
  | none =>
    by_cases hk : p.1 = k
    · simp [hk]
    · simp [hk, beq_false_of_ne hk]

theorem field_set (k k' : String) (v : Json) (m : List (String × Json)) :
    Json.field k (.obj (Assoc.set m k' v)) = Json.field k (.obj m) ∨
      (k = k' ∧ Json.field k (.obj (Assoc.set m k' v)) = some v) := by
  induction m with
  | nil =>
    rw [Assoc.set, field_cons]
    by_cases hk : k' = k
    · exact Or.inr ⟨hk.symm, by rw [if_pos hk]; rfl⟩
    · exact Or.inl (by rw [if_neg hk]; rfl)
  | cons p m ih =>
    obtain ⟨j, w⟩ := p
    rw [Assoc.set]
    by_cases hj : j = k'
    · rw [if_pos hj, field_cons, field_cons, hj]
      by_cases hk : k' = k
      · rw [if_pos hk, if_pos hk]
        cases Json.field k (.obj m) with
        | some x => exact Or.inl rfl
        | none => exact Or.inr ⟨hk.symm, rfl⟩
      · rw [if_neg hk, if_neg hk]
        exact Or.inl rfl
    · rw [if_neg hj, field_cons, field_cons]
      rcases ih with h | ⟨hk, h⟩
      · exact Or.inl (by rw [h])
      · exact Or.inr ⟨hk, by rw [h, Option.some_or]⟩

theorem field_set_of_ne {k k' : String} (h : k ≠ k') (v : Json) (m : List (String × Json)) :
    Json.field k (.obj (Assoc.set m k' v)) = Json.field k (.obj m) :=
  (field_set k k' v m).resolve_right fun hk => h hk.1

theorem field_erase_of_ne {k k' : String} (h : k ≠ k') (m : List (String × Json)) :
    Json.field k (.obj (Assoc.erase m k')) = Json.field k (.obj m) := by
  induction m with
  | nil => rfl
  | cons p m ih =>
    rw [Assoc.erase, List.filter_cons]
    split
    · rw [← Assoc.erase, field_cons, field_cons, ih]
    · rename_i hp
      rw [decide_eq_true_eq, not_not] at hp
      rw [← Assoc.erase, ih, field_cons, if_neg (by rw [hp]; exact h.symm), Option.or_none]

theorem field_spread_of_ne {k k' : String} (h : k ≠ k') (v : Option Json) (m : List (String × Json)) :
    Json.field k (.obj (spread m k' v)) = Json.field k (.obj m) := by
  cases v with
  | none => exact field_erase_of_ne h m
  | some v => exact field_set_of_ne h v m

/-- What no run changes in the record of a path. -/
structure Core where
  secret : String
  contextHash : String
  season : String

def Run.core (r : Run) : Core := ⟨r.secret, r.contextHash, r.season⟩

/-- A record with this core, pending or accepted. -/
structure Fits (c : Core) (v : Json) : Prop where
  object : ∃ m, v = .obj m
  secret : v.field "secret" = some (.str c.secret)
  contextHash : v.field "contextHash" = some (.str c.contextHash)
  season : v.field "season" = some (.str c.season)
  status : v.field "status" = some (.str "pending") ∨ v.field "status" = some (.str "accepted")

theorem fits_pending (r : Run) : Fits r.core (pendingRecord r) := ⟨⟨_, rfl⟩, rfl, rfl, rfl, Or.inl rfl⟩

theorem field_acceptedRecord {k : String} (h₁ : k ≠ "index") (h₂ : k ≠ "membersRoot") (h₃ : k ≠ "status")
    (m : List (String × Json)) (res : Json) : (acceptedRecord (.obj m) res).field k = Json.field k (.obj m) := by
  rw [acceptedRecord, field_set_of_ne h₃, field_spread_of_ne h₂, field_spread_of_ne h₁, members]

/-- The promotion keeps the core. -/
theorem Fits.accepted {c : Core} {v : Json} (h : Fits c v) (res : Json) : Fits c (acceptedRecord v res) := by
  obtain ⟨m, rfl⟩ := h.object
  refine ⟨⟨_, rfl⟩, ?_, ?_, ?_, ?_⟩
  · rw [field_acceptedRecord (by decide) (by decide) (by decide), h.secret]
  · rw [field_acceptedRecord (by decide) (by decide) (by decide), h.contextHash]
  · rw [field_acceptedRecord (by decide) (by decide) (by decide), h.season]
  · rw [acceptedRecord]
    rcases field_set "status" "status" (.str "accepted")
      (spread (spread (members (.obj m)) "index" (res.field "index")) "membersRoot" (res.field "membersRoot")) with hs | hs
    · rw [hs, field_spread_of_ne (by decide), field_spread_of_ne (by decide)]
      exact h.status
    · exact Or.inr hs.2

/-! ## What `resolveSecret` makes of a record -/

theorem differs_str (s expected : String) : differs (some (.str s)) expected = decide (s ≠ expected) := by
  have h : (Json.textOf (some (.str s)) = expected.toList) = (s = expected) := by
    rw [Json.textOf, Json.toStr, String.toList_inj]
  simp only [differs, present, Bool.true_and, ne_eq, h]

/-- A record is used again by a run of its own context and season only. -/
theorem resolve_retry {c : Core} {v secret : Json} {r : Run} (h : Fits c v) (hr : resolveSecret v r = .retry secret) :
    secret = .str c.secret ∧ c.contextHash = r.contextHash ∧ c.season = r.season := by
  obtain ⟨m, rfl⟩ := h.object
  rw [resolveSecret, h.contextHash, h.season, h.secret, differs_str, differs_str] at hr
  · split at hr
    · cases hr
    · rename_i hd
      split at hr
      · cases hr
      · dsimp only at hr
        split at hr
        · simp only [Bool.or_eq_true, decide_eq_true_eq, not_or, not_not] at hd
          exact ⟨(Kind.retry.inj hr).symm, hd⟩
        · cases hr
  · exact fun h => by cases h

theorem resolve_not_fresh {c : Core} {v : Json} {r : Run} (h : Fits c v) : resolveSecret v r ≠ .fresh := by
  obtain ⟨m, rfl⟩ := h.object
  intro hr
  rw [resolveSecret, h.secret] at hr
  · split at hr
    · cases hr
    · split at hr
      · cases hr
      · dsimp only at hr
        split at hr
        · cases hr
        · cases hr
  · exact fun h => by cases h

/-! ## Texts -/

theorem parse_textOf (v : Json) : Json.parse (textOf v) = some v := Json.parse_pretty 0 v

/-- The text holds a record with this core. -/
def Whole (c : Core) (s : List Char) : Prop := ∃ v, Json.parse s = some v ∧ Fits c v

theorem whole_textOf {c : Core} {v : Json} (h : Fits c v) : Whole c (textOf v) := ⟨v, parse_textOf v, h⟩

/-- A part of a record that can be read is all of it. -/
theorem eq_of_prefix {c : Core} {v w : Json} {s : List Char} (h : Fits c v) (hs : s <+: textOf v)
    (hp : Json.parse s = some w) : s = textOf v := by
  obtain ⟨m, rfl⟩ := h.object
  obtain ⟨q, hq⟩ := hs
  cases q with
  | nil => rwa [List.append_nil] at hq
  | cons x q =>
    have hn := Json.parse_pretty_torn hq.symm (List.cons_ne_nil x q)
    rw [hp] at hn
    cases hn

theorem torn_of_append {c : Core} {v : Json} {s todo : List Char} (h : Fits c v) (hs : s ++ todo = textOf v)
    (ht : todo ≠ []) : Json.parse s = none := by
  obtain ⟨m, rfl⟩ := h.object
  exact Json.parse_pretty_torn hs.symm ht

theorem not_whole_of_torn {c : Core} {s : List Char} (h : Json.parse s = none) : ¬ Whole c s := by
  rintro ⟨v, hv, -⟩
  rw [h] at hv
  cases hv

/-! ## The disk -/

/-- A file that holds the record, and holds it on the disk. -/
def Firm (c : Core) (fs : Fs) (j : Nat) : Prop :=
  ∃ ino, fs.inodes[j]? = some ino ∧ Whole c ino.visible ∧ Whole c ino.stable

/-- The path shows the record. -/
def Seen (c : Core) (fs : Fs) : Prop := ∃ i, fs.entry = some i ∧ Whole c (fs.text i)

def Settled (c : Core) (fs : Fs) : Prop := ∃ i, fs.entry = some i ∧ Firm c fs i

/-- The record is there, whether the power fails or not. -/
def Durable (c : Core) (fs : Fs) : Prop := Settled c fs ∧ ∃ j, fs.stableEntry = some j ∧ Firm c fs j

/-- The file holds a part of a record, and the disk a part of that. -/
def InodeOk (c : Core) (ino : Inode) : Prop := ∃ v, Fits c v ∧ ino.visible <+: textOf v ∧ ino.stable <+: ino.visible

structure FsOk (c : Core) (fs : Fs) : Prop where
  inodes : ∀ (j : Nat) (ino : Inode), fs.inodes[j]? = some ino → InodeOk c ino
  entry : ∃ i, fs.entry = some i ∧ i < fs.inodes.length
  stable : ∀ j, fs.stableEntry = some j → j < fs.inodes.length ∧ (fs.entry = some j ∨ Settled c fs)

/-- What an operation does to the disk; `w` is the file that it writes. -/
structure Ext (c : Core) (fs fs' : Fs) (w : Option Nat) : Prop where
  length : fs.inodes.length ≤ fs'.inodes.length
  text : ∀ j < fs.inodes.length, w ≠ some j → fs'.text j = fs.text j
  whole : ∀ j, Whole c (fs.text j) → fs'.text j = fs.text j
  firm : ∀ j, Firm c fs j → Firm c fs' j
  entry : fs'.entry = fs.entry ∨ (Settled c fs' ∧ Seen c fs)
  stable : fs'.stableEntry = fs.stableEntry ∨ fs'.stableEntry = fs.entry

section

variable {c : Core} {fs fs' : Fs} {w : Option Nat}

theorem text_of_getElem? {j : Nat} {ino : Inode} (h : fs.inodes[j]? = some ino) : fs.text j = ino.visible := by
  rw [Fs.text, h, Option.map_some, Option.getD_some]

theorem lt_of_getElem? {j : Nat} {ino : Inode} (h : fs.inodes[j]? = some ino) : j < fs.inodes.length :=
  (List.getElem?_eq_some_iff.mp h).1

theorem not_whole_nil : ¬ Whole c [] := not_whole_of_torn rfl

/-- A file whose text is whole exists. -/
theorem inode_of_whole {j : Nat} (h : Whole c (fs.text j)) : ∃ ino, fs.inodes[j]? = some ino ∧ Whole c ino.visible := by
  cases hj : fs.inodes[j]? with
  | none =>
    rw [Fs.text, hj] at h
    exact absurd h not_whole_nil
  | some ino => exact ⟨ino, rfl, text_of_getElem? hj ▸ h⟩

theorem Firm.whole {j : Nat} (h : Firm c fs j) : Whole c (fs.text j) := by
  obtain ⟨ino, hj, hv, -⟩ := h
  rwa [text_of_getElem? hj]

theorem Firm.lt {j : Nat} (h : Firm c fs j) : j < fs.inodes.length := by
  obtain ⟨ino, hj, -⟩ := h
  exact lt_of_getElem? hj

theorem Settled.seen (h : Settled c fs) : Seen c fs := by
  obtain ⟨i, hi, hf⟩ := h
  exact ⟨i, hi, hf.whole⟩

theorem Ext.settled (h : Ext c fs fs' w) (hs : Settled c fs) : Settled c fs' := by
  rcases h.entry with he | he
  · obtain ⟨i, hi, hf⟩ := hs
    exact ⟨i, he.trans hi, h.firm i hf⟩
  · exact he.1

theorem Ext.seen (h : Ext c fs fs' w) (hs : Seen c fs) : Seen c fs' := by
  rcases h.entry with he | he
  · obtain ⟨i, hi, hw⟩ := hs
    exact ⟨i, he.trans hi, by rwa [h.whole i hw]⟩
  · exact he.1.seen

theorem Ext.durable (h : Ext c fs fs' w) (hd : Durable c fs) : Durable c fs' := by
  refine ⟨h.settled hd.1, ?_⟩
  rcases h.stable with hs | hs
  · obtain ⟨j, hj, hf⟩ := hd.2
    exact ⟨j, hs.trans hj, h.firm j hf⟩
  · obtain ⟨i, hi, hf⟩ := hd.1
    exact ⟨i, hs.trans hi, h.firm i hf⟩

/-! ## One operation on the disk -/

theorem ext_refl (c : Core) (fs : Fs) : Ext c fs fs none :=
  ⟨Nat.le_refl _, fun _ _ _ => rfl, fun _ _ => rfl, fun _ h => h, Or.inl rfl, Or.inl rfl⟩

theorem getElem?_create {j : Nat} (h : j < fs.inodes.length) : fs.create.inodes[j]? = fs.inodes[j]? := by
  rw [Fs.create, List.getElem?_append_left h]

theorem text_create {j : Nat} (h : j < fs.inodes.length) : fs.create.text j = fs.text j := by
  rw [Fs.text, Fs.text, getElem?_create h]

theorem ext_create (c : Core) (fs : Fs) : Ext c fs fs.create none where
  length := by simp [Fs.create]
  text j hj _ := text_create hj
  whole j hw := by
    obtain ⟨ino, hj, -⟩ := inode_of_whole hw
    exact text_create (lt_of_getElem? hj)
  firm j hf := by
    obtain ⟨ino, hj, hw⟩ := hf
    exact ⟨ino, by rw [getElem?_create (lt_of_getElem? hj), hj], hw⟩
  entry := Or.inl rfl
  stable := Or.inl rfl

theorem FsOk.create (h : FsOk c fs) {v : Json} (hv : Fits c v) : FsOk c fs.create where
  inodes j ino hj := by
    by_cases hlt : j < fs.inodes.length
    · rw [getElem?_create hlt] at hj
      exact h.inodes j ino hj
    · rw [Fs.create, List.getElem?_append_right (by omega), List.getElem?_singleton] at hj
      split at hj
      · rw [← Option.some.inj hj]
        exact ⟨v, hv, List.nil_prefix, List.nil_prefix⟩
      · cases hj
  entry := by
    obtain ⟨i, hi, hlt⟩ := h.entry
    exact ⟨i, hi, hlt.trans_le (ext_create c fs).length⟩
  stable j hj := by
    obtain ⟨hlt, hs⟩ := h.stable j hj
    exact ⟨hlt.trans_le (ext_create c fs).length, hs.imp_right (ext_create c fs).settled⟩

theorem getElem?_append (i : Nat) (chunk : List Char) (j : Nat) : (fs.append i chunk).inodes[j]? =
    (fs.inodes[j]?).map fun ino => if i = j then { ino with visible := ino.visible ++ chunk } else ino := by
  rw [Fs.append, List.getElem?_modify]
  rfl

theorem text_append_of_ne {i j : Nat} (h : i ≠ j) (chunk : List Char) : (fs.append i chunk).text j = fs.text j := by
  rw [Fs.text, Fs.text, getElem?_append]
  simp only [if_neg h, Option.map_id_fun', id_eq]

theorem text_append {i : Nat} (h : i < fs.inodes.length) (chunk : List Char) :
    (fs.append i chunk).text i = fs.text i ++ chunk := by
  rw [Fs.text, Fs.text, getElem?_append, List.getElem?_eq_getElem h]
  simp

/-- Only a file that is not whole yet is written. -/
theorem ext_append {i : Nat} (chunk : List Char) (ht : Json.parse (fs.text i) = none) :
    Ext c fs (fs.append i chunk) (some i) where
  length := by simp [Fs.append]
  text j _ hw := text_append_of_ne (fun h => hw (by rw [h])) chunk
  whole j hw := by
    refine text_append_of_ne ?_ chunk
    rintro rfl
    exact not_whole_of_torn ht hw
  firm j hf := by
    have hne : i ≠ j := by
      rintro rfl
      exact not_whole_of_torn ht hf.whole
    obtain ⟨ino, hj, hw⟩ := hf
    refine ⟨ino, ?_, hw⟩
    rw [getElem?_append, hj, Option.map_some, if_neg hne]
  entry := Or.inl rfl
  stable := Or.inl rfl

theorem FsOk.append (h : FsOk c fs) {i : Nat} {chunk : List Char} {v : Json} (hv : Fits c v)
    (hp : fs.text i ++ chunk <+: textOf v) (ht : Json.parse (fs.text i) = none) : FsOk c (fs.append i chunk) where
  inodes j ino hj := by
    rw [getElem?_append, Option.map_eq_some_iff] at hj
    obtain ⟨old, hold, rfl⟩ := hj
    obtain ⟨v', hv', hvis, hst⟩ := h.inodes j old hold
    by_cases hij : i = j
    · subst hij
      rw [if_pos rfl]
      rw [text_of_getElem? hold] at hp
      exact ⟨v, hv, hp, hst.trans (List.prefix_append _ _)⟩
    · rw [if_neg hij]
      exact ⟨v', hv', hvis, hst⟩
  entry := by
    obtain ⟨k, hk, hlt⟩ := h.entry
    exact ⟨k, hk, hlt.trans_le (@ext_append c fs i chunk ht).length⟩
  stable j hj := by
    obtain ⟨hlt, hs⟩ := h.stable j hj
    exact ⟨hlt.trans_le (@ext_append c fs i chunk ht).length, hs.imp_right (ext_append chunk ht).settled⟩

theorem getElem?_sync (i j : Nat) : (fs.sync i).inodes[j]? =
    (fs.inodes[j]?).map fun ino => if i = j then { ino with stable := ino.visible } else ino := by
  rw [Fs.sync, List.getElem?_modify]
  rfl

theorem text_sync (i j : Nat) : (fs.sync i).text j = fs.text j := by
  rw [Fs.text, Fs.text, getElem?_sync, Option.map_map]
  congr 2
  funext ino
  by_cases h : i = j
  · simp [h]
  · simp [h]

theorem ext_sync (c : Core) (fs : Fs) (i : Nat) : Ext c fs (fs.sync i) none where
  length := by simp [Fs.sync]
  text j _ _ := text_sync i j
  whole j _ := text_sync i j
  firm j hf := by
    obtain ⟨ino, hj, hv, hs⟩ := hf
    refine ⟨_, by rw [getElem?_sync, hj, Option.map_some], ?_⟩
    by_cases h : i = j
    · rw [if_pos h]
      exact ⟨hv, hv⟩
    · rw [if_neg h]
      exact ⟨hv, hs⟩
  entry := Or.inl rfl
  stable := Or.inl rfl

/-- The sync of a whole file. -/
theorem firm_sync {i : Nat} (h : Whole c (fs.text i)) : Firm c (fs.sync i) i := by
  obtain ⟨ino, hi, hv⟩ := inode_of_whole h
  exact ⟨⟨ino.visible, ino.visible⟩, by rw [getElem?_sync, hi, Option.map_some, if_pos rfl], hv, hv⟩

theorem FsOk.sync (h : FsOk c fs) (i : Nat) : FsOk c (fs.sync i) where
  inodes j ino hj := by
    rw [getElem?_sync, Option.map_eq_some_iff] at hj
    obtain ⟨old, hold, rfl⟩ := hj
    obtain ⟨v, hv, hvis, hst⟩ := h.inodes j old hold
    by_cases hij : i = j
    · rw [if_pos hij]
      exact ⟨v, hv, hvis, List.prefix_rfl⟩
    · rw [if_neg hij]
      exact ⟨v, hv, hvis, hst⟩
  entry := by
    obtain ⟨k, hk, hlt⟩ := h.entry
    exact ⟨k, hk, hlt.trans_le (ext_sync c fs i).length⟩
  stable j hj := by
    obtain ⟨hlt, hs⟩ := h.stable j hj
    exact ⟨hlt.trans_le (ext_sync c fs i).length, hs.imp_right (ext_sync c fs i).settled⟩

theorem ext_syncDir (c : Core) (fs : Fs) : Ext c fs fs.syncDir none :=
  ⟨Nat.le_refl _, fun _ _ _ => rfl, fun _ _ => rfl, fun _ h => h, Or.inl rfl, Or.inr rfl⟩

theorem FsOk.syncDir (h : FsOk c fs) : FsOk c fs.syncDir where
  inodes := h.inodes
  entry := h.entry
  stable j hj := by
    obtain ⟨i, hi, hlt⟩ := h.entry
    have hij : j = i := Option.some.inj (hj.symm.trans hi)
    subst hij
    exact ⟨hlt, Or.inl hi⟩

theorem durable_syncDir (h : Settled c fs) : Durable c fs.syncDir := by
  obtain ⟨i, hi, hf⟩ := h
  exact ⟨⟨i, hi, hf⟩, i, hi, hf⟩

theorem ext_link {i : Nat} (hf : Firm c fs i) (hs : Seen c fs) : Ext c fs (fs.link i) none :=
  ⟨Nat.le_refl _, fun _ _ _ => rfl, fun _ _ => rfl, fun _ h => h, Or.inr ⟨⟨i, rfl, hf⟩, hs⟩, Or.inl rfl⟩

theorem FsOk.link (h : FsOk c fs) {i : Nat} (hf : Firm c fs i) : FsOk c (fs.link i) where
  inodes := h.inodes
  entry := ⟨i, rfl, hf.lt⟩
  stable j hj := ⟨(h.stable j hj).1, Or.inr ⟨i, rfl, hf⟩⟩

/-- A record that the power failure would leave is there to stay. -/
theorem durable_of_stable (h : FsOk c fs) {j : Nat} {ino : Inode} {v : Json} (hj : fs.stableEntry = some j)
    (hi : fs.inodes[j]? = some ino) (hp : Json.parse ino.stable = some v) : Durable c fs := by
  obtain ⟨v', hv', hvis, hst⟩ := h.inodes j ino hi
  have hs : ino.stable = textOf v' := eq_of_prefix hv' (hst.trans hvis) hp
  have hvs : ino.visible = textOf v' := by
    rw [hs] at hst
    exact (hst.eq_of_length_le hvis.length_le).symm
  have hf : Firm c fs j := ⟨ino, hi, by rw [hvs]; exact whole_textOf hv', by rw [hs]; exact whole_textOf hv'⟩
  refine ⟨?_, j, hj, hf⟩
  rcases (h.stable j hj).2 with he | he
  · exact ⟨j, he, hf⟩
  · exact he

end

/-! ## A run -/

/-- The record of the path is for the context and the season of the run. -/
def SameContext (c : Core) (r : Run) : Prop := c.contextHash = r.contextHash ∧ c.season = r.season

/-- What is known where a run stands. -/
def PcOk (c : Core) (fs : Fs) (r : Run) : Pc → Prop
  | .start => True
  | .reading i => fs.entry = some i ∨ Seen c fs
  | .creating => True
  | .writing i todo =>
    r.core = c ∧ i < fs.inodes.length ∧ fs.entry = some i ∧ todo ≠ [] ∧ fs.text i ++ todo = textOf (pendingRecord r)
  | .syncing i => r.core = c ∧ Whole c (fs.text i) ∧ (fs.entry = some i ∨ Settled c fs)
  | .syncingDir => r.core = c ∧ Settled c fs
  | .ready secret => secret = .str c.secret ∧ SameContext c r ∧ Seen c fs
  | .posted _ => SameContext c r ∧ Seen c fs
  | .marking _ => SameContext c r ∧ Seen c fs
  | .rereading _ _ => SameContext c r ∧ Seen c fs
  | .opening text => (∃ v, Fits c v ∧ text = textOf v) ∧ SameContext c r ∧ Seen c fs
  | .copying i todo =>
    i < fs.inodes.length ∧ todo ≠ [] ∧ (∃ v, Fits c v ∧ fs.text i ++ todo = textOf v) ∧ SameContext c r ∧ Seen c fs
  | .copySyncing i => Whole c (fs.text i) ∧ SameContext c r ∧ Seen c fs
  | .replacing i => Firm c fs i ∧ SameContext c r ∧ Seen c fs
  | .flushing => Settled c fs
  | .stopped => True

/-- The file that the run writes. -/
def writes : Pc → Option Nat
  | .writing i _ => some i
  | .copying i _ => some i
  | _ => none

theorem pendingRecord_fits {c : Core} {r : Run} (h : r.core = c) : Fits c (pendingRecord r) := h ▸ fits_pending r

/-- What one run knows stands, whatever another one does. -/
theorem PcOk.mono {c : Core} {fs fs' : Fs} {w : Option Nat} {r : Run} {pc : Pc} (he : Ext c fs fs' w) (h : PcOk c fs r pc)
    (hw : ∀ i, writes pc = some i → w ≠ some i) : PcOk c fs' r pc := by
  cases pc with
  | start | creating | stopped => trivial
  | reading i =>
    rcases h with h | h
    · rcases he.entry with hent | hent
      · exact Or.inl (hent.trans h)
      · exact Or.inr hent.1.seen
    · exact Or.inr (he.seen h)
  | writing i todo =>
    obtain ⟨hc, hlt, hent, htodo, ht⟩ := h
    have htext := he.text i hlt (hw i rfl)
    refine ⟨hc, hlt.trans_le he.length, ?_, htodo, by rw [htext, ht]⟩
    rcases he.entry with hs | ⟨-, i', hi', hwhole⟩
    · exact hs.trans hent
    · -- nothing that can be read is there to be renamed over
      rw [hent, Option.some.injEq] at hi'
      subst hi'
      exact absurd hwhole (not_whole_of_torn (torn_of_append (pendingRecord_fits hc) ht htodo))
  | syncing i =>
    obtain ⟨hc, hwhole, hs⟩ := h
    refine ⟨hc, by rwa [he.whole i hwhole], ?_⟩
    rcases hs with hs | hs
    · exact he.entry.imp (fun hent => hent.trans hs) And.left
    · exact Or.inr (he.settled hs)
  | syncingDir => exact ⟨h.1, he.settled h.2⟩
  | ready secret => exact ⟨h.1, h.2.1, he.seen h.2.2⟩
  | posted secret => exact ⟨h.1, he.seen h.2⟩
  | marking res => exact ⟨h.1, he.seen h.2⟩
  | rereading i res => exact ⟨h.1, he.seen h.2⟩
  | opening text => exact ⟨h.1, h.2.1, he.seen h.2.2⟩
  | copying i todo =>
    obtain ⟨hlt, htodo, ⟨v, hv, ht⟩, hsame, hseen⟩ := h
    have htext := he.text i hlt (hw i rfl)
    exact ⟨hlt.trans_le he.length, htodo, ⟨v, hv, by rw [htext, ht]⟩, hsame, he.seen hseen⟩
  | copySyncing i =>
    obtain ⟨hwhole, hsame, hseen⟩ := h
    exact ⟨by rwa [he.whole i hwhole], hsame, he.seen hseen⟩
  | replacing i => exact ⟨he.firm i h.1, h.2.1, he.seen h.2.2⟩
  | flushing => exact he.settled h

/-- What the next operation of a run does. -/
structure NextOk (c : Core) (r : Run) (fs fs' : Fs) (pc pc' : Pc) : Prop where
  ext : ∃ w, Ext c fs fs' w ∧ ∀ i, w = some i → writes pc = some i
  disk : FsOk c fs'
  place : PcOk c fs' r pc'
  owns : ∀ i, writes pc' = some i → writes pc = some i ∨ fs.inodes.length ≤ i
  saves : ∀ s ∈ returns r pc pc', s = c.secret ∧ Durable c fs'
  same : fs'.entry = fs.entry ∨ SameContext c r

section

variable {c : Core} {r : Run} {fs fs' : Fs} {pc pc' : Pc}

/-- Only the place changes. -/
theorem nextOk_stay (hfs : FsOk c fs) (hpc : PcOk c fs r pc') (hw : writes pc' = none) (hret : returns r pc pc' = []) :
    NextOk c r fs fs pc pc' where
  ext := ⟨none, ext_refl c fs, fun i hi => by cases hi⟩
  disk := hfs
  place := hpc
  owns i hi := by
    rw [hw] at hi
    cases hi
  saves s hs := by
    rw [hret] at hs
    exact absurd hs List.not_mem_nil
  same := Or.inl rfl

theorem nextOk_stopped (hfs : FsOk c fs) : NextOk c r fs fs pc .stopped :=
  nextOk_stay hfs trivial rfl (by cases pc <;> rfl)

/-- A record that a run has read. -/
theorem fits_of_parse (hfs : FsOk c fs) {i : Nat} {v : Json} (h : Json.parse (fs.text i) = some v) :
    Fits c v ∧ Whole c (fs.text i) := by
  cases hi : fs.inodes[i]? with
  | none =>
    rw [Fs.text, hi] at h
    cases h
  | some ino =>
    rw [text_of_getElem? hi] at h ⊢
    obtain ⟨v', hv', hvis, -⟩ := hfs.inodes i ino hi
    have heq := eq_of_prefix hv' hvis h
    rw [heq] at h ⊢
    rw [parse_textOf, Option.some.injEq] at h
    exact ⟨h ▸ hv', whole_textOf hv'⟩

theorem next_reading (hfs : FsOk c fs) {i : Nat} {o : Outcome} (hpc : PcOk c fs r (.reading i))
    (h : next r fs (.reading i) o = some (fs', pc')) : NextOk c r fs fs' (.reading i) pc' := by
  cases o with
  | fails =>
    cases h
    exact nextOk_stopped hfs
  | unsupported | writes n | answers res => cases h
  | done =>
    simp only [next] at h
    split at h
    · cases h
      exact nextOk_stopped hfs
    · rename_i v hv
      obtain ⟨hfits, hwhole⟩ := fits_of_parse hfs hv
      have hseen : Seen c fs := hpc.elim (fun he => ⟨i, he, hwhole⟩) id
      split at h
      · rename_i hfresh
        exact absurd hfresh (resolve_not_fresh hfits)
      · rename_i secret hretry
        cases h
        obtain ⟨hs, hsame⟩ := resolve_retry hfits hretry
        exact nextOk_stay hfs ⟨hs, hsame, hseen⟩ rfl rfl
      · cases h
        exact nextOk_stopped hfs

theorem next_rereading (hfs : FsOk c fs) {i : Nat} {res : Json} {o : Outcome} (hpc : PcOk c fs r (.rereading i res))
    (h : next r fs (.rereading i res) o = some (fs', pc')) : NextOk c r fs fs' (.rereading i res) pc' := by
  cases o with
  | fails =>
    cases h
    exact nextOk_stopped hfs
  | unsupported | writes n | answers res => cases h
  | done =>
    simp only [next] at h
    split at h
    · cases h
      exact nextOk_stopped hfs
    · cases h
      exact nextOk_stopped hfs
    · rename_i v hne hv
      cases h
      exact nextOk_stay hfs ⟨⟨_, (fits_of_parse hfs hv).1.accepted res, rfl⟩, hpc.1, hpc.2⟩ rfl rfl

theorem take_append_drop_ne {todo : List Char} {n : Nat} (h : ¬ todo.length ≤ n) : todo.drop n ≠ [] := by
  rw [Ne, List.drop_eq_nil_iff]
  exact h

/-- A write of a record, whichever run makes it and wherever it goes on. -/
theorem nextOk_append (hfs : FsOk c fs) {i n : Nat} {todo : List Char} {v : Json} (hw : writes pc = some i)
    (htodo : todo ≠ []) (hv : Fits c v) (ht : fs.text i ++ todo = textOf v)
    (hpc : PcOk c (fs.append i (todo.take n)) r pc') (hw' : ∀ j, writes pc' = some j → j = i)
    (hret : returns r pc pc' = []) : NextOk c r fs (fs.append i (todo.take n)) pc pc' where
  ext := ⟨some i, ext_append _ (torn_of_append hv ht htodo), fun j hj => by rw [← hj, hw]⟩
  disk := by
    refine hfs.append hv ?_ (torn_of_append hv ht htodo)
    rw [← ht, List.prefix_append_right_inj]
    exact List.take_prefix n todo
  place := hpc
  owns j hj := Or.inl (by rw [hw, hw' j hj])
  saves s hs := by
    rw [hret] at hs
    exact absurd hs List.not_mem_nil
  same := Or.inl rfl

theorem text_append_take {i n : Nat} (hlt : i < fs.inodes.length) (todo : List Char) :
    (fs.append i (todo.take n)).text i ++ todo.drop n = fs.text i ++ todo := by
  rw [text_append hlt, List.append_assoc, List.take_append_drop]

theorem text_append_all {i n : Nat} (hlt : i < fs.inodes.length) {todo : List Char} (h : todo.length ≤ n) :
    (fs.append i (todo.take n)).text i = fs.text i ++ todo := by
  rw [text_append hlt, List.take_of_length_le h]

theorem next_writing (hfs : FsOk c fs) {i : Nat} {todo : List Char} {o : Outcome} (hpc : PcOk c fs r (.writing i todo))
    (h : next r fs (.writing i todo) o = some (fs', pc')) : NextOk c r fs fs' (.writing i todo) pc' := by
  cases o with
  | fails =>
    cases h
    exact nextOk_stopped hfs
  | unsupported | done | answers res => cases h
  | writes n =>
    obtain ⟨hc, hlt, hent, htodo, ht⟩ := hpc
    have hv := pendingRecord_fits hc
    rw [next, Option.some.injEq, Prod.mk.injEq] at h
    obtain ⟨rfl, rfl⟩ := h
    by_cases hn : todo.length ≤ n
    · rw [if_pos hn]
      refine nextOk_append hfs rfl htodo hv ht ⟨hc, ?_, Or.inl hent⟩ (fun j hj => by cases hj) rfl
      rw [text_append_all hlt hn, ht]
      exact whole_textOf hv
    · rw [if_neg hn]
      refine nextOk_append hfs rfl htodo hv ht ⟨hc, ?_, hent, take_append_drop_ne hn, ?_⟩
        (fun j hj => (Option.some.inj hj).symm) rfl
      · exact hlt.trans_le (@ext_append c fs i _ (torn_of_append hv ht htodo)).length
      · rw [text_append_take hlt, ht]

theorem next_copying (hfs : FsOk c fs) {i : Nat} {todo : List Char} {o : Outcome} (hpc : PcOk c fs r (.copying i todo))
    (h : next r fs (.copying i todo) o = some (fs', pc')) : NextOk c r fs fs' (.copying i todo) pc' := by
  cases o with
  | fails =>
    cases h
    exact nextOk_stopped hfs
  | unsupported | done | answers res => cases h
  | writes n =>
    obtain ⟨hlt, htodo, ⟨v, hv, ht⟩, hsame, hseen⟩ := hpc
    rw [next, Option.some.injEq, Prod.mk.injEq] at h
    obtain ⟨rfl, rfl⟩ := h
    have hext := @ext_append c fs i (todo.take n) (torn_of_append hv ht htodo)
    by_cases hn : todo.length ≤ n
    · rw [if_pos hn]
      refine nextOk_append hfs rfl htodo hv ht ⟨?_, hsame, hext.seen hseen⟩ (fun j hj => by cases hj) rfl
      rw [text_append_all hlt hn, ht]
      exact whole_textOf hv
    · rw [if_neg hn]
      exact nextOk_append hfs rfl htodo hv ht ⟨hlt.trans_le hext.length, take_append_drop_ne hn,
        ⟨v, hv, by rw [text_append_take hlt, ht]⟩, hsame, hext.seen hseen⟩ (fun j hj => (Option.some.inj hj).symm) rfl

/-- A sync of a file that is whole. -/
theorem nextOk_sync (hfs : FsOk c fs) {i : Nat} (hpc : PcOk c (fs.sync i) r pc') (hw : writes pc' = none)
    (hret : returns r pc pc' = []) : NextOk c r fs (fs.sync i) pc pc' where
  ext := ⟨none, ext_sync c fs i, fun j hj => by cases hj⟩
  disk := hfs.sync i
  place := hpc
  owns j hj := by
    rw [hw] at hj
    cases hj
  saves s hs := by
    rw [hret] at hs
    exact absurd hs List.not_mem_nil
  same := Or.inl rfl

theorem next_syncing (hfs : FsOk c fs) {i : Nat} {o : Outcome} (hpc : PcOk c fs r (.syncing i))
    (h : next r fs (.syncing i) o = some (fs', pc')) : NextOk c r fs fs' (.syncing i) pc' := by
  cases o with
  | fails =>
    cases h
    exact nextOk_stopped hfs
  | unsupported | writes n | answers res => cases h
  | done =>
    obtain ⟨hc, hwhole, hs⟩ := hpc
    cases h
    refine nextOk_sync hfs ⟨hc, ?_⟩ rfl rfl
    rcases hs with hs | hs
    · exact ⟨i, hs, firm_sync hwhole⟩
    · exact (ext_sync c fs i).settled hs

theorem next_copySyncing (hfs : FsOk c fs) {i : Nat} {o : Outcome} (hpc : PcOk c fs r (.copySyncing i))
    (h : next r fs (.copySyncing i) o = some (fs', pc')) : NextOk c r fs fs' (.copySyncing i) pc' := by
  cases o with
  | fails =>
    cases h
    exact nextOk_stopped hfs
  | unsupported | writes n | answers res => cases h
  | done =>
    obtain ⟨hwhole, hsame, hseen⟩ := hpc
    cases h
    exact nextOk_sync hfs ⟨firm_sync hwhole, hsame, (ext_sync c fs i).seen hseen⟩ rfl rfl

/-- The sync of the directory, from which `writePendingSecret` returns. -/
theorem nextOk_syncingDir (hfs : FsOk c fs) (hpc : PcOk c fs r .syncingDir) :
    NextOk c r fs fs.syncDir .syncingDir (.ready (.str r.secret)) := by
  obtain ⟨rfl, hs⟩ := hpc
  have hd := durable_syncDir hs
  refine ⟨⟨none, ext_syncDir _ fs, fun j hj => by cases hj⟩, hfs.syncDir, ⟨rfl, ⟨rfl, rfl⟩, hd.1.seen⟩,
    fun j hj => (by cases hj), ?_, Or.inl rfl⟩
  intro s hs
  exact ⟨List.mem_singleton.mp hs, hd⟩

theorem next_syncingDir (hfs : FsOk c fs) {o : Outcome} (hpc : PcOk c fs r .syncingDir)
    (h : next r fs .syncingDir o = some (fs', pc')) : NextOk c r fs fs' .syncingDir pc' := by
  cases o with
  | fails =>
    cases h
    exact nextOk_stopped hfs
  | writes n | answers res => cases h
  | done =>
    cases h
    exact nextOk_syncingDir hfs hpc
  | unsupported =>
    cases h
    exact nextOk_syncingDir hfs hpc

theorem nextOk_flushing (hfs : FsOk c fs) : NextOk c r fs fs.syncDir .flushing .stopped :=
  ⟨⟨none, ext_syncDir c fs, fun j hj => by cases hj⟩, hfs.syncDir, trivial, fun j hj => (by cases hj), fun s hs =>
    absurd hs List.not_mem_nil, Or.inl rfl⟩

theorem next_opening (hfs : FsOk c fs) {text : List Char} {o : Outcome} (hpc : PcOk c fs r (.opening text))
    (h : next r fs (.opening text) o = some (fs', pc')) : NextOk c r fs fs' (.opening text) pc' := by
  cases o with
  | fails =>
    cases h
    exact nextOk_stopped hfs
  | unsupported | writes n | answers res => cases h
  | done =>
    obtain ⟨⟨v, hv, rfl⟩, hsame, hseen⟩ := hpc
    cases h
    refine ⟨⟨none, ext_create c fs, fun j hj => by cases hj⟩, hfs.create hv, ?_, ?_, fun s hs => absurd hs List.not_mem_nil,
      Or.inl rfl⟩
    · refine ⟨by simp [Fs.create], ?_, ⟨v, hv, ?_⟩, hsame, (ext_create c fs).seen hseen⟩
      · intro hn
        have hp := parse_textOf v
        rw [hn] at hp
        cases hp
      · simp [Fs.text, Fs.create]
    · intro j hj
      exact Or.inr (Option.some.inj hj).le

theorem next_replacing (hfs : FsOk c fs) {i : Nat} {o : Outcome} (hpc : PcOk c fs r (.replacing i))
    (h : next r fs (.replacing i) o = some (fs', pc')) : NextOk c r fs fs' (.replacing i) pc' := by
  cases o with
  | fails =>
    cases h
    exact nextOk_stopped hfs
  | unsupported | writes n | answers res => cases h
  | done =>
    obtain ⟨hf, hsame, hseen⟩ := hpc
    cases h
    have he := ext_link hf hseen
    exact ⟨⟨none, he, fun j hj => by cases hj⟩, hfs.link hf, ⟨i, rfl, hf⟩, fun j hj => (by cases hj), fun s hs =>
      absurd hs List.not_mem_nil, Or.inr hsame⟩

/-- One operation of a run, on a path that holds a record or the beginning of one. -/
theorem next_ok (hfs : FsOk c fs) {o : Outcome} (hpc : PcOk c fs r pc) (h : next r fs pc o = some (fs', pc')) :
    NextOk c r fs fs' pc pc' := by
  obtain ⟨i, hent, -⟩ := hfs.entry
  cases pc with
  | reading j => exact next_reading hfs hpc h
  | writing j todo => exact next_writing hfs hpc h
  | syncing j => exact next_syncing hfs hpc h
  | syncingDir => exact next_syncingDir hfs hpc h
  | rereading j res => exact next_rereading hfs hpc h
  | opening text => exact next_opening hfs hpc h
  | copying j todo => exact next_copying hfs hpc h
  | copySyncing j => exact next_copySyncing hfs hpc h
  | replacing j => exact next_replacing hfs hpc h
  | stopped => cases h
  | start =>
    cases o with
    | fails =>
      cases h
      exact nextOk_stopped hfs
    | unsupported | writes n | answers res => cases h
    | done =>
      simp only [next, hent] at h
      cases h
      exact nextOk_stay hfs (Or.inl hent) rfl rfl
  | creating =>
    cases o with
    | fails =>
      cases h
      exact nextOk_stopped hfs
    | unsupported | writes n | answers res => cases h
    | done =>
      simp only [next, hent] at h
      cases h
      exact nextOk_stopped hfs
  | ready secret =>
    cases o with
    | fails =>
      cases h
      exact nextOk_stopped hfs
    | unsupported | writes n | answers res => cases h
    | done =>
      cases h
      exact nextOk_stay hfs hpc.2 rfl rfl
  | posted secret =>
    cases o with
    | fails =>
      cases h
      exact nextOk_stopped hfs
    | unsupported | writes n | done => cases h
    | answers res =>
      rw [next, Option.some.injEq, Prod.mk.injEq] at h
      obtain ⟨rfl, rfl⟩ := h
      split
      · exact nextOk_stay hfs hpc rfl rfl
      · exact nextOk_stopped hfs
  | marking res =>
    cases o with
    | fails =>
      cases h
      exact nextOk_stopped hfs
    | unsupported | writes n | answers res => cases h
    | done =>
      simp only [next, hent] at h
      cases h
      exact nextOk_stay hfs hpc rfl rfl
  | flushing =>
    cases o with
    | fails =>
      cases h
      exact nextOk_stopped hfs
    | writes n | answers res => cases h
    | done =>
      cases h
      exact nextOk_flushing hfs
    | unsupported =>
      cases h
      exact nextOk_flushing hfs

end

/-! ## An interleaving -/

/-- The path holds a record with this core, or the beginning of one. -/
structure Inv (runs : Nat → Run) (c : Core) (σ : State) : Prop where
  disk : FsOk c σ.fs
  places : ∀ k, PcOk c σ.fs (runs k) (σ.pc k)
  owner : ∀ k k' i, writes (σ.pc k) = some i → writes (σ.pc k') = some i → k = k'
  saved : ∀ s ∈ σ.saved, s = c.secret ∧ Durable c σ.fs

/-- There is no file yet. -/
structure Blank (σ : State) : Prop where
  disk : σ.fs = Fs.empty
  places : ∀ k, σ.pc k = .start ∨ σ.pc k = .creating ∨ σ.pc k = .stopped
  saved : σ.saved = []

section

variable {runs : Nat → Run} {c : Core} {σ σ' : State}

theorem writes_lt {fs : Fs} {r : Run} {pc : Pc} {i : Nat} (h : PcOk c fs r pc) (hw : writes pc = some i) :
    i < fs.inodes.length := by
  cases pc with
  | writing j todo =>
    rw [← Option.some.inj hw]
    exact h.2.1
  | copying j todo =>
    rw [← Option.some.inj hw]
    exact h.1
  | start | reading j | creating | syncing j | syncingDir | ready s | posted s | marking res | rereading j res
  | opening text | copySyncing j | replacing j | flushing | stopped => cases hw

theorem step_run {k : Nat} {o : Outcome} (h : step runs σ (.run k o) = some σ') : ∃ fs pc,
    next (runs k) σ.fs (σ.pc k) o = some (fs, pc) ∧
    σ' = ⟨fs, fun j => if j = k then pc else σ.pc j, σ.saved ++ returns (runs k) (σ.pc k) pc⟩ := by
  simp only [step, Option.bind_eq_bind, Option.bind_eq_some_iff, Prod.exists] at h
  obtain ⟨fs, pc, hn, h⟩ := h
  exact ⟨fs, pc, hn, (Option.some.inj h).symm⟩

theorem inv_run {k : Nat} {o : Outcome} (hi : Inv runs c σ) (h : step runs σ (.run k o) = some σ') : Inv runs c σ' := by
  obtain ⟨fs, pc, hn, rfl⟩ := step_run h
  obtain ⟨⟨w, hext, hw⟩, hdisk, hplace, howns, hsaves, -⟩ := next_ok hi.disk (hi.places k) hn
  refine ⟨hdisk, ?_, ?_, ?_⟩
  · intro j
    dsimp only
    by_cases hj : j = k
    · rw [if_pos hj, hj]
      exact hplace
    · rw [if_neg hj]
      refine (hi.places j).mono hext fun i hij hwi => hj (hi.owner j k i hij (hw i hwi))
  · -- the file of the run is one that it wrote before, or a new one
    have hother : ∀ j i, j ≠ k → writes (σ.pc j) = some i → writes pc ≠ some i := by
      intro j i hj hji hpi
      rcases howns i hpi with hki | hlen
      · exact hj (hi.owner j k i hji hki)
      · exact absurd (writes_lt (hi.places j) hji) (by omega)
    intro j j' i hji hj'i
    dsimp only at hji hj'i
    by_cases hj : j = k
    · by_cases hj' : j' = k
      · rw [hj, hj']
      · rw [if_pos hj] at hji
        rw [if_neg hj'] at hj'i
        exact absurd hji (hother j' i hj' hj'i)
    · by_cases hj' : j' = k
      · rw [if_neg hj] at hji
        rw [if_pos hj'] at hj'i
        exact absurd hj'i (hother j i hj hji)
      · rw [if_neg hj] at hji
        rw [if_neg hj'] at hj'i
        exact hi.owner j j' i hji hj'i
  · intro s hs
    rcases List.mem_append.mp hs with hs | hs
    · obtain ⟨hsec, hd⟩ := hi.saved s hs
      exact ⟨hsec, hext.durable hd⟩
    · exact hsaves s hs

/-- The system writes something to the disk. -/
theorem Inv.ext (hi : Inv runs c σ) {fs : Fs} (he : Ext c σ.fs fs none) (hd : FsOk c fs) :
    Inv runs c { σ with fs := fs } where
  disk := hd
  places k := (hi.places k).mono he fun i _ h => by cases h
  owner := hi.owner
  saved s hs := ⟨(hi.saved s hs).1, he.durable (hi.saved s hs).2⟩

theorem getElem?_powerLoss {fs : Fs} {j : Nat} (h : fs.stableEntry = some j) (k : Nat) :
    fs.powerLoss.inodes[k]? = (fs.inodes[k]?).map fun ino => ⟨ino.stable, ino.stable⟩ := by
  simp only [Fs.powerLoss, h, List.getElem?_map]

theorem inv_powerLoss (hi : Inv runs c σ) (h : step runs σ .powerLoss = some σ') :
    Inv runs c σ' ∨ (Blank σ' ∧ σ.saved = []) := by
  cases h
  cases hst : σ.fs.stableEntry with
  | none =>
    have hsaved : σ.saved = [] := by
      rw [List.eq_nil_iff_forall_not_mem]
      intro s hs
      obtain ⟨j, hj, -⟩ := (hi.saved s hs).2.2
      rw [hst] at hj
      cases hj
    exact Or.inr ⟨⟨by simp only [Fs.powerLoss, hst], fun _ => Or.inr (Or.inr rfl), hsaved⟩, hsaved⟩
  | some j =>
    have hent : σ.fs.powerLoss.entry = some j ∧ σ.fs.powerLoss.stableEntry = some j := by
      simp only [Fs.powerLoss, hst, and_self]
    have hlen : σ.fs.powerLoss.inodes.length = σ.fs.inodes.length := by
      simp only [Fs.powerLoss, hst, List.length_map]
    have hjlt := (hi.disk.stable j hst).1
    refine Or.inl ⟨⟨?_, ⟨j, hent.1, hlen ▸ hjlt⟩, ?_⟩, fun _ => trivial, fun _ _ _ h => (by cases h), ?_⟩
    · intro k ino hk
      rw [getElem?_powerLoss hst, Option.map_eq_some_iff] at hk
      obtain ⟨old, hold, rfl⟩ := hk
      obtain ⟨v, hv, hvis, hstab⟩ := hi.disk.inodes k old hold
      exact ⟨v, hv, hstab.trans hvis, List.prefix_rfl⟩
    · intro k hk
      rw [hent.2, Option.some.injEq] at hk
      subst hk
      exact ⟨hlen ▸ hjlt, Or.inl hent.1⟩
    · intro s hs
      obtain ⟨hsec, -, k, hk, ino, hino, -, hstab⟩ := hi.saved s hs
      rw [hst, Option.some.injEq] at hk
      subst hk
      have hf : Firm c σ.fs.powerLoss j :=
        ⟨⟨ino.stable, ino.stable⟩, by rw [getElem?_powerLoss hst, hino, Option.map_some], hstab, hstab⟩
      exact ⟨hsec, ⟨j, hent.1, hf⟩, j, hent.2, hf⟩

theorem inv_step {a : Act} (hi : Inv runs c σ) (h : step runs σ a = some σ') :
    Inv runs c σ' ∨ (Blank σ' ∧ a = .powerLoss) := by
  cases a with
  | run k o => exact Or.inl (inv_run hi h)
  | writeBack i =>
    cases h
    exact Or.inl (hi.ext (ext_sync c σ.fs i) (hi.disk.sync i))
  | writeBackDir =>
    cases h
    exact Or.inl (hi.ext (ext_syncDir c σ.fs) hi.disk.syncDir)
  | powerLoss => exact (inv_powerLoss hi h).imp_right fun hb => ⟨hb.1, rfl⟩

/-! ## Before there is a file -/

theorem sync_empty (i : Nat) : Fs.empty.sync i = Fs.empty := by
  rw [Fs.sync, Fs.empty, List.modify_nil]

theorem Blank.writes_none (hb : Blank σ) (k : Nat) : writes (σ.pc k) = none := by
  rcases hb.places k with h | h | h <;> (rw [h]; rfl)

/-- The file, when its run has created it. -/
theorem inv_created (hb : Blank σ) (k : Nat) : Inv runs (runs k).core ⟨Fs.empty.create.link 0,
    fun j => if j = k then .writing 0 (textOf (pendingRecord (runs k))) else σ.pc j, []⟩ where
  disk := by
    refine ⟨?_, ⟨0, rfl, by simp [Fs.create, Fs.link]⟩, fun j hj => by cases hj⟩
    intro j ino hj
    simp only [Fs.link, Fs.create, Fs.empty, List.nil_append, List.getElem?_singleton] at hj
    split at hj
    · rw [← Option.some.inj hj]
      exact ⟨_, fits_pending (runs k), List.nil_prefix, List.nil_prefix⟩
    · cases hj
  places j := by
    dsimp only
    by_cases hj : j = k
    · rw [if_pos hj, hj]
      refine ⟨rfl, by simp [Fs.create, Fs.link], rfl, ?_, rfl⟩
      intro hnil
      have hp := parse_textOf (pendingRecord (runs k))
      rw [hnil] at hp
      cases hp
    · rw [if_neg hj]
      rcases hb.places j with h | h | h <;> (rw [h]; trivial)
  owner j j' i hji hj'i := by
    have heq : ∀ l, writes (if l = k then .writing 0 (textOf (pendingRecord (runs k))) else σ.pc l) = some i → l = k := by
      intro l hl
      by_contra hne
      rw [if_neg hne, hb.writes_none l] at hl
      cases hl
    rw [heq j hji, heq j' hj'i]
  saved s hs := absurd hs List.not_mem_nil

theorem Blank.go (hb : Blank σ) (k : Nat) {pc : Pc} (hpc : pc = .creating ∨ pc = .stopped) :
    Blank ⟨Fs.empty, fun j => if j = k then pc else σ.pc j, []⟩ where
  disk := rfl
  places j := by
    dsimp only
    by_cases hj : j = k
    · rw [if_pos hj]
      exact Or.inr hpc
    · rw [if_neg hj]
      exact hb.places j
  saved := rfl

theorem blank_run {k : Nat} {o : Outcome} (hb : Blank σ) (h : step runs σ (.run k o) = some σ') :
    Blank σ' ∨ Inv runs (runs k).core σ' := by
  obtain ⟨fs, pc, hn, rfl⟩ := step_run h
  rw [hb.disk] at hn
  rw [hb.saved, List.nil_append]
  rcases hb.places k with hk | hk | hk
  · rw [hk] at hn ⊢
    cases o with
    | fails =>
      cases hn
      exact Or.inl (hb.go k (Or.inr rfl))
    | unsupported | writes n | answers res => cases hn
    | done =>
      cases hn
      exact Or.inl (hb.go k (Or.inl rfl))
  · rw [hk] at hn ⊢
    cases o with
    | fails =>
      cases hn
      exact Or.inl (hb.go k (Or.inr rfl))
    | unsupported | writes n | answers res => cases hn
    | done =>
      cases hn
      exact Or.inr (inv_created hb k)
  · rw [hk] at hn
    cases hn

theorem blank_step {a : Act} (hb : Blank σ) (h : step runs σ a = some σ') : Blank σ' ∨ ∃ c, Inv runs c σ' := by
  cases a with
  | run k o => exact (blank_run hb h).imp_right fun hi => ⟨_, hi⟩
  | writeBack i =>
    cases h
    exact Or.inl ⟨by rw [hb.disk]; exact sync_empty i, hb.places, hb.saved⟩
  | writeBackDir =>
    cases h
    exact Or.inl ⟨by rw [hb.disk]; rfl, hb.places, hb.saved⟩
  | powerLoss =>
    cases h
    exact Or.inl ⟨by rw [hb.disk]; rfl, fun _ => Or.inr (Or.inr rfl), hb.saved⟩

end

/-! ## What is kept -/

/-- The path shows the record. -/
def Shows (fs : Fs) (v : Json) : Prop := ∃ i, fs.entry = some i ∧ Json.parse (fs.text i) = some v

/-- The disk holds a record with the secret, and its directory entry. -/
def Survives (fs : Fs) (secret : Json) : Prop :=
  ∃ (j : Nat) (ino : Inode) (v : Json), fs.stableEntry = some j ∧ fs.inodes[j]? = some ino ∧
    Json.parse ino.stable = some v ∧ v.field "secret" = some secret

/-- The record is for the context and the season of the run. -/
def RecordedFor (r : Run) (v : Json) : Prop :=
  v.field "contextHash" = some (.str r.contextHash) ∧ v.field "season" = some (.str r.season)

/-- No secret is lost or crossed by a step. -/
structure Retained (runs : Nat → Run) (σ : State) (a : Act) (σ' : State) : Prop where
  /-- Once `writePendingSecret` has returned, the file holds its secret. -/
  kept : ∀ s ∈ σ'.saved, ∃ v, Shows σ'.fs v ∧ v.field "secret" = some (.str s) ∧
    (v.field "status" = some (.str "pending") ∨ v.field "status" = some (.str "accepted"))
  /-- The secret that a run uses again is recorded for its context and season. -/
  reused : ∀ k o i secret, a = .run k o → σ.pc k = .reading i → σ'.pc k = .ready secret →
    ∃ v, Json.parse (σ.fs.text i) = some v ∧ v.field "secret" = some secret ∧ RecordedFor (runs k) v
  /-- No run changes what a file is recorded for, or its secret. -/
  unchanged : ∀ k o v, a = .run k o → Shows σ.fs v → ∃ v', Shows σ'.fs v' ∧
    ∀ key ∈ ["secret", "contextHash", "season"], v'.field key = v.field key
  /-- A file is written over by a run of its own context and season only. -/
  overwritten : ∀ k o, a = .run k o → σ.fs.entry ≠ none → σ'.fs.entry ≠ σ.fs.entry →
    ∃ v, Shows σ.fs v ∧ RecordedFor (runs k) v

/-- And a run posts only what the disk holds. -/
structure StepSafe (runs : Nat → Run) (σ : State) (a : Act) (σ' : State) : Prop extends Retained runs σ a σ' where
  posts : ∀ k secret, a = .run k .done → σ.pc k = .ready secret → Survives σ.fs secret

/-- A run that finds a file with its secret finds it on the disk. -/
def FoundStable (σ : State) (a : Act) (σ' : State) : Prop :=
  ∀ k i secret, a = .run k .done → σ.pc k = .reading i → σ'.pc k = .ready secret → Survives σ.fs secret

section

variable {runs : Nat → Run} {c : Core} {σ σ' : State}

theorem shows_fits (hi : Inv runs c σ) {v : Json} (h : Shows σ.fs v) : Fits c v ∧ Seen c σ.fs := by
  obtain ⟨i, he, hp⟩ := h
  obtain ⟨hf, hw⟩ := fits_of_parse hi.disk hp
  exact ⟨hf, i, he, hw⟩

theorem seen_shows {fs : Fs} (h : Seen c fs) : ∃ v, Shows fs v ∧ Fits c v := by
  obtain ⟨i, he, v, hp, hf⟩ := h
  exact ⟨v, ⟨i, he, hp⟩, hf⟩

theorem kept_of_inv (hi : Inv runs c σ) : ∀ s ∈ σ.saved, ∃ v, Shows σ.fs v ∧ v.field "secret" = some (.str s) ∧
    (v.field "status" = some (.str "pending") ∨ v.field "status" = some (.str "accepted")) := by
  intro s hs
  obtain ⟨rfl, hd⟩ := hi.saved s hs
  obtain ⟨v, hv, hf⟩ := seen_shows hd.1.seen
  exact ⟨v, hv, hf.secret, hf.status⟩

theorem recordedFor_of_fits {r : Run} {v : Json} (hf : Fits c v) (h : SameContext c r) : RecordedFor r v :=
  ⟨by rw [hf.contextHash, h.1], by rw [hf.season, h.2]⟩

/-- A run gets its secret from the file that it creates, or from the one that it reads. -/
theorem next_ready {r : Run} {fs fs' : Fs} {pc : Pc} {o : Outcome} {secret : Json}
    (h : next r fs pc o = some (fs', .ready secret)) :
    pc = .syncingDir ∨ ∃ i v, pc = .reading i ∧ o = .done ∧ Json.parse (fs.text i) = some v := by
  cases pc with
  | syncingDir => exact Or.inl rfl
  | reading i =>
    cases o with
    | fails | unsupported | writes n | answers res => cases h
    | done =>
      simp only [next] at h
      split at h
      · cases h
      · rename_i v hv
        exact Or.inr ⟨i, v, rfl, rfl, hv⟩
  | start | creating | marking res | rereading j res =>
    cases o with
    | fails | unsupported | writes n | answers res => cases h
    | done =>
      simp only [next] at h
      split at h <;> cases h
  | writing i todo | copying i todo =>
    cases o with
    | fails | unsupported | done | answers res => cases h
    | writes n =>
      have hpc := (Prod.mk.inj (Option.some.inj h)).2
      split at hpc <;> cases hpc
  | posted s =>
    cases o with
    | fails | unsupported | done | writes n => cases h
    | answers res =>
      have hpc := (Prod.mk.inj (Option.some.inj h)).2
      split at hpc <;> cases hpc
  | syncing i | ready s | opening text | copySyncing i | replacing i | flushing => cases o <;> cases h
  | stopped => cases h

theorem retained_of_inv {a : Act} (hi : Inv runs c σ) (h : step runs σ a = some σ') : Retained runs σ a σ' where
  kept := by
    rcases inv_step hi h with hi' | ⟨hb, -⟩
    · exact kept_of_inv hi'
    · intro s hs
      rw [hb.saved] at hs
      exact absurd hs List.not_mem_nil
  reused := by
    rintro k o i secret rfl hread hready
    have hi' := inv_run hi h
    obtain ⟨fs, pc, hn, rfl⟩ := step_run h
    have hplace := hi'.places k
    dsimp only at hready hplace
    rw [if_pos rfl] at hready hplace
    rw [hready] at hn hplace
    rw [hread] at hn
    obtain hpc | ⟨j, v, hpc, -, hv⟩ := next_ready hn
    · cases hpc
    cases hpc
    have hf := (fits_of_parse hi.disk hv).1
    exact ⟨v, hv, by rw [hf.secret, hplace.1], recordedFor_of_fits hf hplace.2.1⟩
  unchanged := by
    rintro k o v rfl hv
    obtain ⟨hf, hs⟩ := shows_fits hi hv
    obtain ⟨fs, pc, hn, rfl⟩ := step_run h
    obtain ⟨w, hext, -⟩ := (next_ok hi.disk (hi.places k) hn).ext
    obtain ⟨v', hv', hf'⟩ := seen_shows (hext.seen hs)
    refine ⟨v', hv', ?_⟩
    intro key hkey
    simp only [List.mem_cons, List.not_mem_nil, or_false] at hkey
    rcases hkey with rfl | rfl | rfl
    · rw [hf'.secret, hf.secret]
    · rw [hf'.contextHash, hf.contextHash]
    · rw [hf'.season, hf.season]
  overwritten := by
    rintro k o rfl - hne
    obtain ⟨fs, pc, hn, rfl⟩ := step_run h
    have hok := next_ok hi.disk (hi.places k) hn
    obtain ⟨w, hext, -⟩ := hok.ext
    rcases hext.entry with he | ⟨-, hs⟩
    · exact absurd he hne
    · obtain ⟨v, hv, hf⟩ := seen_shows hs
      rcases hok.same with he | hsame
      · exact absurd he hne
      · exact ⟨v, hv, recordedFor_of_fits hf hsame⟩

theorem retained_of_blank {a : Act} (hb : Blank σ) (h : step runs σ a = some σ') : Retained runs σ a σ' where
  kept := by
    rcases blank_step hb h with hb' | ⟨c, hi⟩
    · intro s hs
      rw [hb'.saved] at hs
      exact absurd hs List.not_mem_nil
    · exact kept_of_inv hi
  reused := by
    rintro k o i secret rfl hread -
    rcases hb.places k with hk | hk | hk <;> (rw [hk] at hread; cases hread)
  unchanged := by
    rintro k o v rfl ⟨i, he, -⟩
    rw [hb.disk] at he
    cases he
  overwritten := by
    rintro k o rfl he -
    rw [hb.disk] at he
    exact absurd rfl he

/-- A run that has its secret has it on the disk. -/
def ReadyDurable (c : Core) (σ : State) : Prop := ∀ k secret, σ.pc k = .ready secret → Durable c σ.fs

theorem survives_of_durable {fs : Fs} (h : Durable c fs) : Survives fs (.str c.secret) := by
  obtain ⟨-, j, hj, ino, hino, -, v, hp, hf⟩ := h
  exact ⟨j, ino, v, hj, hino, hp, hf.secret⟩

theorem durable_of_survives (hi : Inv runs c σ) {secret : Json} (h : Survives σ.fs secret) : Durable c σ.fs := by
  obtain ⟨j, ino, v, hj, hino, hp, -⟩ := h
  exact durable_of_stable hi.disk hj hino hp

theorem posts_of_inv {a : Act} (hi : Inv runs c σ) (hr : ReadyDurable c σ) :
    ∀ k secret, a = .run k .done → σ.pc k = .ready secret → Survives σ.fs secret := by
  rintro k secret - hk
  have hplace := hi.places k
  rw [hk] at hplace
  rw [hplace.1]
  exact survives_of_durable (hr k secret hk)

theorem ready_run {k : Nat} {o : Outcome} (hi : Inv runs c σ) (hr : ReadyDurable c σ)
    (h : step runs σ (.run k o) = some σ') (hfound : FoundStable σ (.run k o) σ') : ReadyDurable c σ' := by
  have hi' := inv_run hi h
  obtain ⟨fs, pc, hn, rfl⟩ := step_run h
  have hok := next_ok hi.disk (hi.places k) hn
  obtain ⟨w, hext, -⟩ := hok.ext
  intro j secret hj
  dsimp only at hj ⊢
  by_cases hjk : j = k
  · rw [if_pos hjk] at hj
    subst hjk
    subst hj
    -- the run has created the file, or has found it
    rcases next_ready hn with hpc | ⟨i, v, hpc, rfl, -⟩
    · have hs := hok.saves
      rw [hpc] at hs
      exact (hs (runs j).secret (List.mem_singleton_self _)).2
    · exact hext.durable (durable_of_survives hi (hfound j i secret rfl hpc (if_pos rfl)))
  · rw [if_neg hjk] at hj
    exact hext.durable (hr j secret hj)

theorem Blank.not_ready (hb : Blank σ) (k : Nat) (secret : Json) : σ.pc k ≠ .ready secret := by
  intro hk
  rcases hb.places k with h | h | h <;> (rw [h] at hk; cases hk)

/-- No run has its secret when the file is created. -/
theorem not_ready_of_blank {a : Act} (hb : Blank σ) (h : step runs σ a = some σ') (j : Nat) (secret : Json) :
    σ'.pc j ≠ .ready secret := by
  intro hj
  cases a with
  | writeBack i | writeBackDir =>
    cases h
    exact hb.not_ready j secret hj
  | powerLoss =>
    cases h
    cases hj
  | run k o =>
    obtain ⟨fs, pc, hn, rfl⟩ := step_run h
    dsimp only at hj
    by_cases hjk : j = k
    · rw [if_pos hjk] at hj
      subst hj
      rcases next_ready hn with hpc | ⟨i, v, hpc, -⟩
      · rcases hb.places k with hp | hp | hp <;> (rw [hp] at hpc; cases hpc)
      · rcases hb.places k with hp | hp | hp <;> (rw [hp] at hpc; cases hpc)
    · rw [if_neg hjk] at hj
      exact hb.not_ready j secret hj

/-- What holds of an interleaving at every state. -/
def Good (runs : Nat → Run) (σ : State) : Prop := Blank σ ∨ ∃ c, Inv runs c σ ∧ ReadyDurable c σ

theorem good_initial : Good runs State.initial := Or.inl ⟨rfl, fun _ => Or.inl rfl, rfl⟩

theorem good_step {a : Act} (hg : Good runs σ) (h : step runs σ a = some σ') (hfound : FoundStable σ a σ') :
    StepSafe runs σ a σ' ∧ Good runs σ' := by
  rcases hg with hb | ⟨c, hi, hr⟩
  · refine ⟨⟨retained_of_blank hb h, ?_⟩, ?_⟩
    · exact fun k secret _ hk => absurd hk (hb.not_ready k secret)
    · rcases blank_step hb h with hb' | ⟨c, hi⟩
      · exact Or.inl hb'
      · exact Or.inr ⟨c, hi, fun k s hk => absurd hk (not_ready_of_blank hb h k s)⟩
  · refine ⟨⟨retained_of_inv hi h, posts_of_inv hi hr⟩, ?_⟩
    cases a with
    | run k o => exact Or.inr ⟨c, inv_run hi h, ready_run hi hr h hfound⟩
    | writeBack i =>
      cases h
      exact Or.inr ⟨c, hi.ext (ext_sync c σ.fs i) (hi.disk.sync i), fun k s hk => (ext_sync c σ.fs i).durable (hr k s hk)⟩
    | writeBackDir =>
      cases h
      exact Or.inr ⟨c, hi.ext (ext_syncDir c σ.fs) hi.disk.syncDir, fun k s hk =>
        (ext_syncDir c σ.fs).durable (hr k s hk)⟩
    | powerLoss =>
      rcases inv_powerLoss hi h with hi' | ⟨hb, -⟩
      · cases h
        exact Or.inr ⟨c, hi', fun k s hk => by cases hk⟩
      · exact Or.inl hb

theorem allSteps_of_good : ∀ (acts : List Act) {σ : State}, Good runs σ → AllSteps runs FoundStable σ acts →
    AllSteps runs (StepSafe runs) σ acts
  | [], _, _, _ => trivial
  | a :: acts, σ, hg, hf => by
    intro σ' h
    obtain ⟨hfound, hrest⟩ := hf σ' h
    obtain ⟨hsafe, hg'⟩ := good_step hg h hfound
    exact ⟨hsafe, allSteps_of_good acts hg' hrest⟩

/-- No secret is lost or crossed, and none is posted that the disk does not hold, when the runs that find the file find it
on the disk. -/
theorem secrets_kept (runs : Nat → Run) (acts : List Act) (h : AllSteps runs FoundStable State.initial acts) :
    AllSteps runs (StepSafe runs) State.initial acts :=
  allSteps_of_good acts good_initial h

/-- Whatever the runs find, no secret is lost or crossed. -/
theorem secrets_retained (runs : Nat → Run) (acts : List Act) : AllSteps runs (Retained runs) State.initial acts := by
  have go : ∀ (acts : List Act) {σ : State}, (Blank σ ∨ ∃ c, Inv runs c σ) → AllSteps runs (Retained runs) σ acts := by
    intro acts
    induction acts with
    | nil => exact fun _ => trivial
    | cons a acts ih =>
      intro σ hg σ' h
      rcases hg with hb | ⟨c, hi⟩
      · exact ⟨retained_of_blank hb h, ih (blank_step hb h)⟩
      · refine ⟨retained_of_inv hi h, ih ?_⟩
        exact (inv_step hi h).symm.imp And.left fun hi' => ⟨c, hi'⟩
  exact go acts (Or.inl ⟨rfl, fun _ => Or.inl rfl, rfl⟩)

end

/-! ## A file that is not on the disk -/

/-- Two runs of one member. -/
def twice : Nat → Run := fun k => ⟨"discord", "1", "2", "3", "4", if k = 0 then "5" else "6"⟩

/-- The first run saves its secret, but the sync of the directory fails; the second run finds the file and posts. -/
def unsynced : List Act :=
  [.run 0 .done, .run 0 .done, .run 0 (.writes 1000), .run 0 .done, .run 0 .fails, .run 1 .done, .run 1 .done, .run 1 .done]

set_option maxRecDepth 4000 in
theorem posts_unsynced : ¬ AllSteps twice (StepSafe twice) State.initial unsynced := by
  intro h
  obtain ⟨-, h⟩ := h _ rfl
  obtain ⟨-, h⟩ := h _ rfl
  obtain ⟨-, h⟩ := h _ rfl
  obtain ⟨-, h⟩ := h _ rfl
  obtain ⟨-, h⟩ := h _ rfl
  obtain ⟨-, h⟩ := h _ rfl
  obtain ⟨-, h⟩ := h _ rfl
  obtain ⟨j, ino, v, hj, -⟩ := (h _ rfl).1.posts 1 _ rfl rfl
  cases hj

/-- The sync of the directory is not supported, which counts as done. -/
def synced : List Act :=
  [.run 0 .done, .run 0 .done, .run 0 (.writes 1000), .run 0 .done, .run 0 .unsupported, .run 1 .done, .run 1 .done,
    .run 1 .done]

theorem foundStable_of_not_reading {σ σ' : State} {k : Nat} {o : Outcome} (h : ∀ i, σ.pc k ≠ .reading i) :
    FoundStable σ (.run k o) σ' := by
  intro k' i secret ha hr
  cases ha
  exact absurd hr (h i)

set_option maxRecDepth 4000 in
theorem secrets_kept_twice : AllSteps twice (StepSafe twice) State.initial synced := by
  refine secrets_kept twice synced ?_
  intro σ₁ h₁
  cases h₁
  refine ⟨foundStable_of_not_reading fun i h => (by cases h), ?_⟩
  intro σ₂ h₂
  cases h₂
  refine ⟨foundStable_of_not_reading fun i h => (by cases h), ?_⟩
  intro σ₃ h₃
  cases h₃
  refine ⟨foundStable_of_not_reading fun i h => (by cases h), ?_⟩
  intro σ₄ h₄
  cases h₄
  refine ⟨foundStable_of_not_reading fun i h => (by cases h), ?_⟩
  intro σ₅ h₅
  cases h₅
  refine ⟨foundStable_of_not_reading fun i h => (by cases h), ?_⟩
  intro σ₆ h₆
  cases h₆
  refine ⟨foundStable_of_not_reading fun i h => (by cases h), ?_⟩
  intro σ₇ h₇
  cases h₇
  refine ⟨?_, ?_⟩
  · intro k i secret ha hr hs
    cases ha
    cases hs
    exact ⟨0, _, _, rfl, rfl, rfl, rfl⟩
  intro σ₈ h₈
  cases h₈
  exact ⟨foundStable_of_not_reading fun i h => (by cases h), trivial⟩

end SecretFile
