import MnoVerify.Refresh
import MnoVerify.RootWindowSound
import MnoVerify.SnapshotSound
import MnoVerify.Bytes

/-!
# The window over a gateway's runs

`window_holds`: whatever a source answers, in whatever order refreshes, requests and the close come, every retained
record holds the roots that its own leaves hash to, the records of one height name one block and one leaf set, and a
snapshot is adopted only at or above every height of the window. SHA-256 may not collide on the leaf sets offered.
-/

namespace Refresh

open RootWindow (Record)
open Snapshot (leafTexts leafSetCommitment)

/-! ## The leaf set -/

theorem hexOf_eq_toHex (bytes : List UInt8) : Snapshot.hexOf bytes = Bytes.toHex bytes := by
  induction bytes with
  | nil => rfl
  | cons b bytes ih =>
    rw [Bytes.toHex, ← ih]
    rfl

/-- The bytes that `leafSetCommitment` hashes. -/
def setBytes (leaves : List (List Char)) : List UInt8 :=
  Utf8.encode (['\n'].intercalate (leaves.mergeSort Snapshot.leafLe))

theorem ne_nil_of_isCanonical {l : List Char} (h : Field.isCanonical l = true) : l ≠ [] ∧ '\n' ∉ l := by
  have hd := Field.isDecimal_of_isCanonical h
  refine ⟨fun hn => (by subst hn; cases hd), fun hm => ?_⟩
  exact absurd (Field.isDigit_of_isDecimal hd _ hm) (by decide)

theorem intercalate_inj {xs ys : List (List Char)} (hx : ∀ l ∈ xs, l ≠ [] ∧ '\n' ∉ l) (hy : ∀ l ∈ ys, l ≠ [] ∧ '\n' ∉ l)
    (h : ['\n'].intercalate xs = ['\n'].intercalate ys) : xs = ys := by
  have hnil {l : List (List Char)} (hl : ∀ a ∈ l, a ≠ [] ∧ '\n' ∉ a) (h0 : ['\n'].intercalate l = []) : l = [] := by
    by_contra hne
    have hs := List.splitOn_intercalate '\n' (fun a ha => (hl a ha).2) hne
    rw [h0] at hs
    exact (hl [] (by rw [← hs]; exact List.mem_singleton_self _)).1 rfl
  by_cases hxn : xs = []
  · subst hxn
    exact (hnil hy h.symm).symm
  · by_cases hyn : ys = []
    · subst hyn
      exact hnil hx h
    · rw [← List.splitOn_intercalate '\n' (fun a ha => (hx a ha).2) hxn, h,
        List.splitOn_intercalate '\n' (fun a ha => (hy a ha).2) hyn]

/-- Two canonical lists of leaves with one text are one multiset. -/
theorem perm_of_setBytes_eq {xs ys : List (List Char)} (hx : ∀ l ∈ xs, Field.isCanonical l = true)
    (hy : ∀ l ∈ ys, Field.isCanonical l = true) (h : setBytes xs = setBytes ys) : xs.Perm ys := by
  have hsort := intercalate_inj (fun l hl => ne_nil_of_isCanonical (hx l (List.mem_mergeSort.1 hl)))
    (fun l hl => ne_nil_of_isCanonical (hy l (List.mem_mergeSort.1 hl))) (Utf8.encode_inj h)
  exact (List.mergeSort_perm xs _).symm.trans (hsort ▸ List.mergeSort_perm ys _)

/-! ## One snapshot -/

section
variable {cfg : Config} {K : Crypto}

/-- The facts about a valid snapshot that its record rests on. -/
theorem validateSnapshot_fields {now₁ now₂ : Int} {o : Json} {requiresSha : Bool}
    (h : Snapshot.validateSnapshot cfg.toConfig now₁ now₂ o requiresSha = .ok ()) :
    Snapshot.isHeight (o.field "height") = true ∧
      (Snapshot.snapshotVersion o = .ok 3 → Snapshot.isOrder (o.field "order") = true) ∧
      (0 < cfg.oracleMaxAgeSeconds → ∃ d, Json.numberOf (o.field "ts") = .dec d) := by
  simp only [Snapshot.validateSnapshot, Snapshot.require_eq_ok, Js.bind_eq_ok] at h
  obtain ⟨-, -, -, hheight, -, -, -, -, -, -, -, -, -, -, version, hv, -, -, -, -, -, -, -, -, ⟨⟩, horder, -, -, hts⟩ := h
  refine ⟨hheight, fun h3 => ?_, fun hpos => ?_⟩
  · rw [h3] at hv
    cases hv
    simp only [Snapshot.validateOrder, ne_eq, not_true_eq_false, if_false, Snapshot.require_eq_ok, Js.bind_eq_ok] at horder
    obtain ⟨-, -, -, -, -, ho, -⟩ := horder
    exact ho
  · rw [Snapshot.validateTimestamp, if_pos hpos] at hts
    split at hts
    · exact ⟨_, ‹_›⟩
    · cases hts

theorem field_normalizeSnapshot (o : Json) (depth : Nat) :
    (RootWindow.normalizeSnapshot o depth).field "leaves" = some (.arr (Snapshot.leaves o)) ∧
      (RootWindow.normalizeSnapshot o depth).field "root" = some (.str (Snapshot.textOf (o.field "root"))) ∧
      (RootWindow.normalizeSnapshot o depth).field "shaRoot" = some (Json.orElse .null (o.field "shaRoot")) := by
  simp [RootWindow.normalizeSnapshot, Json.field]

theorem height_normalizeSnapshot {o : Json} {d : Js.Dec} (h : o.field "height" = some (.num d)) (depth : Nat) :
    (RootWindow.normalizeSnapshot o depth).field "height" = some (.num d) := by
  unfold RootWindow.normalizeSnapshot
  rw [h]
  cases o.field "ts" with
  | none => simp [Json.field, RootWindow.prop]
  | some ts => simp [Json.field, RootWindow.prop]

theorem checkFields_normalizeSnapshot (o : Json) (depth : Nat) :
    RootWindow.checkFields (RootWindow.normalizeSnapshot o depth) = .ok () := by
  have hall : ∀ k ∈ RootWindow.keysOf (RootWindow.normalizeSnapshot o depth), k ∈ RootWindow.SNAPSHOT_FIELDS := by
    intro k hk
    simp only [RootWindow.keysOf, RootWindow.normalizeSnapshot, RootWindow.prop, List.map_append, List.map_cons, List.map_map,
      List.mem_append, List.mem_cons, List.mem_map, Function.comp_apply, List.map_nil, List.not_mem_nil, or_false] at hk
    rcases hk with ((rfl | ⟨_, -, rfl⟩) | (rfl | rfl | ⟨_, -, rfl⟩)) | (rfl | rfl | rfl)
    all_goals decide
  unfold RootWindow.checkFields
  rw [List.find?_eq_none.2 fun k hk => by simpa using hall k hk]

/-- The record of a valid snapshot passes the checks of `adopt`. -/
theorem checkSnapshot_recordOf {o : Json} (hheight : Snapshot.isHeight (o.field "height") = true) (now : Int)
    (version : Nat) : RootWindow.checkSnapshot (recordOf cfg K now o version)
      (RootWindow.normalizeSnapshot o cfg.treeDepth) = .ok () := by
  obtain ⟨-, hroot, hsha⟩ := field_normalizeSnapshot o cfg.treeDepth
  have hh : Json.numberOf ((RootWindow.normalizeSnapshot o cfg.treeDepth).field "height") = .dec (.ofInt (heightOf o)) := by
    cases hf : o.field "height" with
    | none => rw [hf] at hheight; cases hheight
    | some v =>
      cases v with
      | num d =>
        rw [hf] at hheight
        have hint : d.isInteger = true := (Bool.and_eq_true_iff.1 hheight).1
        rw [height_normalizeSnapshot hf, heightOf, hf, Json.numberOf, Js.Dec.ofInt_toInt hint]
      | _ => rw [hf] at hheight; cases hheight
  have hs : RootWindow.nullText (textOrNull (o.field "shaRoot")) = (Json.orElse .null (o.field "shaRoot")).toStr := by
    cases hf : o.field "shaRoot" with
    | none => rfl
    | some v => cases v <;> rfl
  simp only [RootWindow.checkSnapshot, Js.bind_eq_ok, Snapshot.require_eq_ok, decide_eq_true_eq]
  refine ⟨(), checkFields_normalizeSnapshot o _, (), ?_, (), hh, ?_⟩
  · rw [hroot]
    exact String.toList_ofList
  · rw [hsha]
    exact hs.trans (by cases Json.orElse .null (o.field "shaRoot") <;> rfl)

theorem knownOrder_recordOf {o : Json} {version : Nat} (hv : Snapshot.snapshotVersion o = .ok version)
    (h3 : Snapshot.snapshotVersion o = .ok 3 → Snapshot.isOrder (o.field "order") = true) (now : Int) :
    RootWindow.KNOWN_ORDERS.contains (recordOf cfg K now o version).order = true := by
  show RootWindow.KNOWN_ORDERS.contains (windowOrderKey version (o.field "order")) = true
  unfold windowOrderKey
  split
  · subst version
    have ho := h3 hv
    cases hf : o.field "order" with
    | none => rw [hf] at ho; cases ho
    | some v =>
      cases v with
      | str s =>
        rw [hf] at ho
        have hs : s = "proRegTxHash" := of_decide_eq_true ho
        subst hs
        decide
      | _ => rw [hf] at ho; cases ho
  · rfl

/-- What an adopted record is of its snapshot. -/
structure Adopted (cfg : Config) (K : Crypto) (o : Json) (r : Record) : Prop where
  snapshot : r.snapshot = some (RootWindow.normalizeSnapshot o cfg.treeDepth)
  root : Snapshot.dmlRootFromLeaves K.poseidon cfg.treeDepth (leafTexts o) = .ok r.root
  rootText : r.root = Json.textOf (o.field "root")
  shaRoot : ∀ s, r.shaRoot = some s → Snapshot.shaRootFromLeaves K.sha256 cfg.treeDepth (leafTexts o) = .ok s
  ts : 0 < cfg.oracleMaxAgeSeconds → ∃ d, r.ts = .dec d
  commitment : r.setCommitment = some (leafSetCommitment K.sha256 (leafTexts o))
  canonical : ∀ l ∈ leafTexts o, Field.isCanonical l = true

/-- A snapshot is judged fit only at or above every height, and where it agrees with the records at its own. -/
theorem judge_adopt {now : Nat → Int} {snaps : List Record} {o : Json} {requiresSha : Bool} {r : Record}
    (h : judge cfg K now snaps o requiresSha = .ok (.adopt r)) :
    Adopted cfg K o r ∧ (∀ s ∈ snaps, s.height ≤ r.height) ∧
      (∀ s ∈ snaps, s.height = r.height → s.blockHash = r.blockHash ∧ s.setCommitment = r.setCommitment) ∧
      ∀ limits pinned, RootWindow.adopt limits pinned snaps r = .ok (RootWindow.adopted limits pinned snaps r) := by
  simp only [judge, Js.bind_eq_ok] at h
  obtain ⟨⟨⟩, hvalid, signaturesOk, -, h⟩ := h
  split at h
  · cases h
  simp only [Js.bind_eq_ok] at h
  obtain ⟨recomputed, hroot, sha, hsha, h⟩ := h
  split at h
  · cases h
  rename_i hr
  split at h
  · cases h
  rename_i hs
  split at h
  · cases h
  rename_i hheight
  split at h
  · cases h
  rename_i hco
  simp only [Js.bind_eq_ok] at h
  obtain ⟨version, hversion, h⟩ := h
  cases h
  have hr : recomputed = Json.textOf (o.field "root") := Decidable.of_not_not hr
  obtain ⟨hh, horder, hts⟩ := validateSnapshot_fields hvalid
  refine ⟨⟨rfl, by rw [hroot, hr]; rfl, rfl, fun s hsr => ?_, fun hpos => ?_, rfl,
    (Snapshot.validateSnapshot_ok hvalid).2⟩, ?_, ?_, fun limits pinned => ?_⟩
  · have hsr : textOrNull (o.field "shaRoot") = some s := hsr
    unfold textOrNull at hsr
    split at hsr
    · rename_i hp
      cases hsr
      rw [shaRecomputed, if_pos hp] at hsha
      cases hx : Snapshot.shaRootFromLeaves K.sha256 cfg.treeDepth (leafTexts o) with
      | error e => rw [hx] at hsha; cases hsha
      | ok x =>
        rw [hx] at hsha
        cases hsha
        exact congrArg Except.ok (by simpa using hs)
    · cases hsr
  · obtain ⟨d, hd⟩ := hts hpos
    show ∃ d, Json.numberOf (some (Json.orElse (.num (.ofInt (now 2))) (o.field "ts"))) = .dec d
    cases hf : o.field "ts" with
    | none => exact ⟨_, rfl⟩
    | some v =>
      rw [hf] at hd
      cases v with
      | null => exact ⟨_, rfl⟩
      | _ => exact ⟨d, hd⟩
  · refine RootWindow.le_maxHeight fun m hm => ?_
    rw [hm] at hheight
    exact not_lt.1 fun hlt => hheight (decide_eq_true hlt)
  · intro s hmem heq
    have hco : RootWindow.mayCoexist snaps (heightOf o) (textOrNull (o.field "blockHash"))
        (some (leafSetCommitment K.sha256 (leafTexts o))) = true := by simpa using hco
    obtain ⟨⟨-, hb⟩, -, hc⟩ := RootWindow.mayCoexist_iff.1 hco s hmem heq
    exact ⟨hb, hc⟩
  · simp only [RootWindow.adopt, Js.bind_eq_ok, Snapshot.require_eq_ok]
    exact ⟨(), checkSnapshot_recordOf hh _ _, (), knownOrder_recordOf hversion horder _, rfl⟩

/-! ## The records of a window -/

/-- The leaves of the snapshot that a record holds. -/
def leavesOf (r : Record) : List (List Char) := r.snapshot.elim [] leafTexts

theorem Adopted.leavesOf_eq {o : Json} {r : Record} (h : Adopted cfg K o r) : leavesOf r = leafTexts o := by
  rw [leavesOf, h.snapshot]
  show (Snapshot.leaves (RootWindow.normalizeSnapshot o cfg.treeDepth)).map Json.toStr = leafTexts o
  rw [Snapshot.leaves, (field_normalizeSnapshot o cfg.treeDepth).1]
  rfl

/-- The records come from snapshots among `os`, and those of one height agree. -/
structure Inv (cfg : Config) (K : Crypto) (os : List Json) (snaps : List Record) : Prop where
  own : ∀ r ∈ snaps, ∃ o ∈ os, Adopted cfg K o r
  agree : ∀ r ∈ snaps, ∀ s ∈ snaps, r.height = s.height → r.blockHash = s.blockHash ∧ r.setCommitment = s.setCommitment

theorem Inv.subset {os : List Json} {snaps snaps' : List Record} (h : Inv cfg K os snaps) (hs : ∀ r ∈ snaps', r ∈ snaps) :
    Inv cfg K os snaps' :=
  ⟨fun r hr => h.own r (hs r hr), fun r hr s hs' => h.agree r (hs r hr) s (hs s hs')⟩

theorem Inv.mono {os os' : List Json} {snaps : List Record} (h : Inv cfg K os snaps) (ho : ∀ o ∈ os, o ∈ os') :
    Inv cfg K os' snaps :=
  ⟨fun r hr => let ⟨o, hm, ha⟩ := h.own r hr; ⟨o, ho o hm, ha⟩, h.agree⟩

theorem enforceDmlFreshness_subset (now : Int) (snaps : List Record) :
    ∀ r ∈ enforceDmlFreshness cfg now snaps, r ∈ snaps := by
  intro r hr
  unfold enforceDmlFreshness at hr
  split at hr
  · exact hr
  · exact (RootWindow.mem_dropOlderThan.1 hr).1

theorem attempt_adopt {snaps : List Record} {a : Attempt} {r : Record} (h : attempt cfg K snaps a = .ok (.adopt r)) :
    ∃ o requiresSha, a.fetched = .ok o ∧ judge cfg K a.now snaps o requiresSha = .ok (.adopt r) := by
  simp only [attempt, Js.bind_eq_ok] at h
  obtain ⟨o, ho, requiresSha, -, h⟩ := h
  exact ⟨o, requiresSha, ho, h⟩

/-- The `try` block leaves the window, or adopts a record that was judged fit. -/
theorem tried_cases (cfg : Config) (K : Crypto) (snaps : List Record) (a : Attempt) :
    tried cfg K snaps a = snaps ∨ ∃ r, attempt cfg K snaps a = .ok (.adopt r) ∧
      tried cfg K snaps a = RootWindow.adopted cfg.limits a.pinned snaps r := by
  unfold tried
  split
  · rename_i r h
    split
    · rename_i snaps' hadopt
      exact .inr ⟨r, h, RootWindow.adopt_eq_ok hadopt⟩
    · exact .inl rfl
  · exact .inl rfl

theorem Inv.tried {os : List Json} {snaps : List Record} (h : Inv cfg K os snaps) (a : Attempt) :
    Inv cfg K (os ++ a.fetched.toOption.toList) (tried cfg K snaps a) := by
  have hmono : Inv cfg K (os ++ a.fetched.toOption.toList) snaps := h.mono fun o ho => List.mem_append_left _ ho
  rcases tried_cases cfg K snaps a with heq | ⟨r, hr, heq⟩
  · rw [heq]; exact hmono
  obtain ⟨o, requiresSha, ho, hj⟩ := attempt_adopt hr
  obtain ⟨hadopted, -, hagree, -⟩ := judge_adopt hj
  rw [heq]
  refine ⟨fun s hs => ?_, fun s hs s' hs' hh => ?_⟩
  · rcases RootWindow.mem_adopted hs with rfl | hs
    · exact ⟨o, List.mem_append_right _ (by rw [ho]; exact List.mem_singleton_self o), hadopted⟩
    · exact hmono.own s hs
  -- the new record agrees with the old ones because it may coexist with them
  · rcases RootWindow.mem_adopted hs with hr₁ | hold
    · rcases RootWindow.mem_adopted hs' with hr₂ | hold'
      · rw [hr₁, hr₂]; exact ⟨rfl, rfl⟩
      · subst hr₁
        obtain ⟨hb, hc⟩ := hagree s' hold' hh.symm
        exact ⟨hb.symm, hc.symm⟩
    · rcases RootWindow.mem_adopted hs' with hr₂ | hold'
      · subst hr₂; exact hagree s hold hh
      · exact h.agree s hold s' hold' hh

/-! ## Runs -/

/-- The snapshots that the source answers with. -/
def offered (es : List Event) : List Json :=
  es.flatMap fun e => match e with
    | .settle a => a.fetched.toOption.toList
    | _ => []

theorem Inv.step {os : List Json} {g : Gateway} (h : Inv cfg K os g.snaps) (e : Event) :
    Inv cfg K (os ++ offered [e]) (g.step cfg K e).snaps := by
  have hmono : Inv cfg K (os ++ offered [e]) g.snaps := h.mono fun o ho => List.mem_append_left _ ho
  cases e with
  | refreshRoots =>
    dsimp only [Gateway.step]
    split
    · exact hmono
    · exact hmono
  | settle a =>
    dsimp only [Gateway.step]
    split
    · exact hmono
    split
    · exact hmono
    · have ht := h.tried a
      rw [show offered [.settle a] = a.fetched.toOption.toList from List.append_nil _]
      exact ht.subset (enforceDmlFreshness_subset _ _)
  | request now => exact hmono.subset (enforceDmlFreshness_subset now g.snaps)
  | close => exact hmono

theorem Inv.run {es : List Event} : ∀ {os : List Json} {g : Gateway}, Inv cfg K os g.snaps →
    Inv cfg K (os ++ offered es) (g.run cfg K es).snaps := by
  induction es with
  | nil => exact fun h => h.mono fun o ho => List.mem_append_left _ ho
  | cons e es ih =>
    intro os g h
    rw [show offered (e :: es) = offered [e] ++ offered es by simp [offered], ← List.append_assoc]
    exact ih (h.step e)

/-- The timestamp is a number no older than the age. -/
def Fresh (maxAge : Nat) (now : Int) (ts : Js.Num) : Prop := ∃ d, ts = .dec d ∧ (now : ℚ) - d.toRat ≤ maxAge

theorem fresh_of_mem {os : List Json} {snaps : List Record} (h : Inv cfg K os snaps) (hpos : 0 < cfg.oracleMaxAgeSeconds)
    {now : Int} {r : Record} (hr : r ∈ enforceDmlFreshness cfg now snaps) : Fresh cfg.oracleMaxAgeSeconds now r.ts := by
  rw [enforceDmlFreshness, if_neg (by omega)] at hr
  obtain ⟨hmem, hts⟩ := RootWindow.mem_dropOlderThan.1 hr
  obtain ⟨o, -, ho⟩ := h.own r hmem
  obtain ⟨d, hd⟩ := ho.ts hpos
  rw [hd] at hts
  have hle := of_decide_eq_true hts
  push_cast at hle
  exact ⟨d, hd, by linarith⟩

/-- A record that the `try` block adopts is at or above the window and becomes its current record. -/
theorem adopt_current {snaps : List Record} {a : Attempt} {r : Record} (h : attempt cfg K snaps a = .ok (.adopt r)) :
    (∀ s ∈ snaps, s.height ≤ r.height) ∧ RootWindow.current (tried cfg K snaps a) = some r := by
  obtain ⟨o, requiresSha, -, hj⟩ := attempt_adopt h
  obtain ⟨-, hmax, -, hok⟩ := judge_adopt hj
  refine ⟨hmax, ?_⟩
  rw [tried, h]
  dsimp only
  rw [hok]
  exact RootWindow.current_adopted hmax

/-- Only an adoption brings a record. -/
theorem mem_step {g : Gateway} {e : Event} {r : Record} (h : r ∈ (g.step cfg K e).snaps) :
    r ∈ g.snaps ∨ ∃ a, e = .settle a ∧ attempt cfg K g.snaps a = .ok (.adopt r) := by
  cases e with
  | refreshRoots =>
    dsimp only [Gateway.step] at h
    split at h
    · exact .inl h
    · exact .inl h
  | settle a =>
    dsimp only [Gateway.step] at h
    split at h
    · exact .inl h
    split at h
    · exact .inl h
    have ht := enforceDmlFreshness_subset _ _ r h
    rcases tried_cases cfg K g.snaps a with heq | ⟨r', hr', heq⟩
    · rw [heq] at ht; exact .inl ht
    · rw [heq] at ht
      rcases RootWindow.mem_adopted ht with rfl | ht
      · exact .inr ⟨a, rfl, hr'⟩
      · exact .inl ht
  | request now => exact .inl (enforceDmlFreshness_subset now g.snaps r h)
  | close => exact .inl h

/-- The window of a gateway, in every state that a run reaches. -/
theorem window_holds (cfg : Config) (K : Crypto) (es : List Event)
    (hsha : ∀ o ∈ offered es, ∀ o' ∈ offered es, K.sha256 (setBytes (leafTexts o)) = K.sha256 (setBytes (leafTexts o')) →
      setBytes (leafTexts o) = setBytes (leafTexts o')) :
    let g := Gateway.boot.run cfg K es
    (∀ r ∈ g.snaps, Snapshot.dmlRootFromLeaves K.poseidon cfg.treeDepth (leavesOf r) = .ok r.root ∧
      ∀ s, r.shaRoot = some s → Snapshot.shaRootFromLeaves K.sha256 cfg.treeDepth (leavesOf r) = .ok s) ∧
    (∀ r ∈ g.snaps, ∀ s ∈ g.snaps, r.height = s.height → r.blockHash = s.blockHash ∧ (leavesOf r).Perm (leavesOf s)) ∧
    (∀ a r, attempt cfg K g.snaps a = .ok (.adopt r) →
      (∀ s ∈ g.snaps, s.height ≤ r.height) ∧ RootWindow.current (tried cfg K g.snaps a) = some r) ∧
    (∀ e r, r ∈ (g.step cfg K e).snaps → r ∈ g.snaps ∨ ∃ a, e = .settle a ∧ attempt cfg K g.snaps a = .ok (.adopt r)) ∧
    (∀ r, RootWindow.current g.snaps = some r →
      ∃ o, r.snapshot = some o ∧ Json.textOf (o.field "root") = r.root) ∧
    (0 < cfg.oracleMaxAgeSeconds → ∀ now,
      (∀ r ∈ enforceDmlFreshness cfg now g.snaps, Fresh cfg.oracleMaxAgeSeconds now r.ts) ∧
      ∀ root, RootWindow.isRecent (enforceDmlFreshness cfg now g.snaps) root = true →
        ∃ r ∈ enforceDmlFreshness cfg now g.snaps, r.root = root ∧ Fresh cfg.oracleMaxAgeSeconds now r.ts) := by
  have h : Inv cfg K (offered es) (Gateway.boot.run cfg K es).snaps := @Inv.run cfg K es [] Gateway.boot ⟨nofun, nofun⟩
  refine ⟨fun r hr => ?_, fun r hr s hs hh => ?_, fun a r ha => adopt_current ha, fun e r hr => mem_step hr,
    fun r hr => ?_, fun hpos now => ⟨fun r hr => fresh_of_mem h hpos hr, fun root hroot => ?_⟩⟩
  · obtain ⟨o, -, ho⟩ := h.own r hr
    rw [ho.leavesOf_eq]
    exact ⟨ho.root, ho.shaRoot⟩
  · obtain ⟨o, hom, ho⟩ := h.own r hr
    obtain ⟨o', hom', ho'⟩ := h.own s hs
    obtain ⟨hb, hc⟩ := h.agree r hr s hs hh
    refine ⟨hb, ?_⟩
    rw [ho.commitment, ho'.commitment] at hc
    have hhex := Option.some.inj hc
    rw [leafSetCommitment, leafSetCommitment, hexOf_eq_toHex, hexOf_eq_toHex] at hhex
    rw [ho.leavesOf_eq, ho'.leavesOf_eq]
    exact perm_of_setBytes_eq ho.canonical ho'.canonical (hsha o hom o' hom' (Bytes.toHex_inj hhex))
  · obtain ⟨o, -, ho⟩ := h.own r (List.mem_of_getLast? hr)
    refine ⟨_, ho.snapshot, ?_⟩
    rw [(field_normalizeSnapshot o cfg.treeDepth).2.1, ho.rootText]
    exact String.toList_ofList
  · obtain ⟨r, hr, heq⟩ := List.any_eq_true.1 hroot
    exact ⟨r, hr, of_decide_eq_true heq, fresh_of_mem h hpos hr⟩

end

/-! ## A run -/

def addCrypto : Crypto := ⟨(· + ·), id, fun _ => none, fun _ _ _ => false⟩

def unsignedConfig : Config where
  treeDepth := 1
  oracleMaxAgeSeconds := 100
  oracleFutureSkewSeconds := 0
  limits := ⟨8, by decide, 0⟩
  nodeMode := false
  oraclePubkeys := []
  oracleQuorum := 1
  requireShaRoot := false
  twoTier := false

/-- One refresh that adopts `padShort` at time 1750, and a request at time 1800. -/
def padRun : List Event :=
  [.refreshRoots, .settle ⟨.ok Snapshot.padShort, .ok false, fun _ => 1750, fun _ => []⟩, .request 1800]

theorem window_holds_pad : ∃ r ∈ (Gateway.boot.run unsignedConfig addCrypto padRun).snaps,
    Snapshot.dmlRootFromLeaves (· + ·) 1 (leavesOf r) = .ok r.root := by
  have h := (window_holds unsignedConfig addCrypto padRun fun _ _ _ _ h => h).1
  obtain ⟨r, hr⟩ : ∃ r, r ∈ (Gateway.boot.run unsignedConfig addCrypto padRun).snaps :=
    List.exists_mem_of_length_pos (by decide +kernel)
  exact ⟨r, hr, (h r hr).1⟩

end Refresh
