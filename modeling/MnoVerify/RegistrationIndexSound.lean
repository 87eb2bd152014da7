import MnoVerify.RegistrationFile

/-!
# The records of a registration file

Of the records with one key the last one stands (`latest`), and `Holds` says that an index is of some records. Records that
fit together (`Coherent`) go into the index one after the other (`agreesAll_iff`) and come out in the order of their indexes
(`sortIndex_ok`).
-/

namespace RegistrationFile

open Registration

/-! ## Records that passed their check -/

structure Usable (r : Record) : Prop where
  season : ∃ d, r.season = .dec d ∧ d.isInteger = true ∧ d.neg = false
  contextHash : Field.isCanonical r.contextHash.toList = true
  regNullifier : Field.isCanonical r.regNullifier.toList = true
  commitment : Field.isCanonical r.commitment.toList = true
  declared : (r.engine = none ∧ r.statement = none) ∨ isValidEngineStatement r.engine r.statement = true

theorem bucket_of_key {q r : Record} (hq : Usable q) (hr : Usable r) (h : q.key = r.key) : q.bucket = r.bucket := by
  obtain ⟨hs, hc, -⟩ := uniqueKey_inj (colon_notMem_canonical hq.contextHash) (colon_notMem_canonical hr.contextHash) h
  rw [Record.bucket, Record.bucket, bucketKey, bucketKey, hs, hc]

theorem same_iff {q r : Record} : sameRegistrationRecord q r = true ↔
    q.season.toText = r.season.toText ∧ q.contextHash = r.contextHash ∧ q.regNullifier = r.regNullifier ∧
      q.commitment = r.commitment ∧ q.engine.getD "" = r.engine.getD "" ∧ q.statement.getD "" = r.statement.getD "" := by
  simp only [sameRegistrationRecord, Bool.and_eq_true, decide_eq_true_eq, and_assoc]

theorem same_trans {q r s : Record} (h : sameRegistrationRecord q r = true) (h' : sameRegistrationRecord r s = true) :
    sameRegistrationRecord q s = true := by
  obtain ⟨h1, h2, h3, h4, h5, h6⟩ := same_iff.1 h
  obtain ⟨h1', h2', h3', h4', h5', h6'⟩ := same_iff.1 h'
  exact same_iff.2 ⟨h1.trans h1', h2.trans h2', h3.trans h3', h4.trans h4', h5.trans h5', h6.trans h6'⟩

theorem engine_ne_empty {r : Record} (hr : Usable r) : r.engine ≠ some "" ∧ r.statement ≠ some "" := by
  rcases hr.declared with ⟨he, hs⟩ | hv
  · rw [he, hs]
    exact ⟨nofun, nofun⟩
  constructor
  · intro he
    rw [he] at hv
    cases hs : r.statement with
    | none => rw [hs] at hv; cases hv
    | some s =>
      rw [hs] at hv
      have hl : ENGINE_STATEMENTS.lookup "" = none := by decide
      rw [isValidEngineStatement, hl] at hv
      cases hv
  · intro hs
    rw [hs] at hv
    cases he : r.engine with
    | none => rw [he] at hv; cases hv
    | some e =>
      rw [he] at hv
      have hl : ∀ p ∈ ENGINE_STATEMENTS, p.2.contains "" = false := by decide
      rw [isValidEngineStatement] at hv
      cases hle : ENGINE_STATEMENTS.lookup e with
      | none => rw [hle] at hv; cases hv
      | some l =>
        rw [hle, Option.getD_some, hl _ (Assoc.mem_of_lookup hle)] at hv
        cases hv

theorem getD_inj {x y : Option String} (hx : x ≠ some "") (hy : y ≠ some "") (h : x.getD "" = y.getD "") : x = y := by
  cases x with
  | none =>
    cases y with
    | none => rfl
    | some b => exact absurd (by rw [Option.getD_none, Option.getD_some] at h; rw [← h]) hy
  | some a =>
    cases y with
    | none => exact absurd (by rw [Option.getD_none, Option.getD_some] at h; rw [h]) hx
    | some b => exact congrArg some h

theorem declaration_of_same {q r : Record} (hq : Usable q) (hr : Usable r) (h : sameRegistrationRecord q r = true) :
    q.declaration = r.declaration := by
  obtain ⟨-, -, -, -, he, hs⟩ := same_iff.1 h
  rw [Record.declaration, Record.declaration, getD_inj (engine_ne_empty hq).1 (engine_ne_empty hr).1 he,
    getD_inj (engine_ne_empty hq).2 (engine_ne_empty hr).2 hs]

/-! ## The last record of each key -/

def latest : List Record → List Record
  | [] => []
  | r :: rs => if rs.any fun q => decide (q.key = r.key) then latest rs else r :: latest rs

theorem mem_of_latest {rs : List Record} {r : Record} (h : r ∈ latest rs) : r ∈ rs := by
  induction rs with
  | nil => exact h
  | cons q rs ih =>
    rw [latest] at h
    split at h
    · exact List.mem_cons_of_mem _ (ih h)
    · rcases List.mem_cons.1 h with rfl | h
      · exact List.mem_cons_self
      · exact List.mem_cons_of_mem _ (ih h)

theorem exists_latest {rs : List Record} {q : Record} (h : q ∈ rs) : ∃ r ∈ latest rs, r.key = q.key := by
  induction rs generalizing q with
  | nil => cases h
  | cons p rs ih =>
    rw [latest]
    split
    · rename_i hp
      rcases List.mem_cons.1 h with rfl | h
      · obtain ⟨q', hq', hk⟩ := List.any_eq_true.1 hp
        obtain ⟨r, hr, hrk⟩ := ih hq'
        exact ⟨r, hr, hrk.trans (of_decide_eq_true hk)⟩
      · exact ih h
    · rcases List.mem_cons.1 h with rfl | h
      · exact ⟨q, List.mem_cons_self, rfl⟩
      · obtain ⟨r, hr, hrk⟩ := ih h
        exact ⟨r, List.mem_cons_of_mem _ hr, hrk⟩

theorem nodup_latest (rs : List Record) : ((latest rs).map Record.key).Nodup := by
  induction rs with
  | nil => exact List.nodup_nil
  | cons r rs ih =>
    rw [latest]
    split
    · exact ih
    · rename_i h
      refine List.nodup_cons.2 ⟨fun hm => ?_, ih⟩
      obtain ⟨q, hq, hk⟩ := List.mem_map.1 hm
      exact h (List.any_eq_true.2 ⟨q, mem_of_latest hq, decide_eq_true hk⟩)

theorem latest_concat (rs : List Record) (r : Record) :
    latest (rs ++ [r]) = (latest rs).filter (fun q => decide (q.key ≠ r.key)) ++ [r] := by
  induction rs with
  | nil => rfl
  | cons q rs ih =>
    rw [List.cons_append, latest, latest, List.any_append, ih]
    by_cases hr : r.key = q.key
    · have h : [r].any (fun p => decide (p.key = q.key)) = true := by simp [hr]
      rw [h, Bool.or_true, if_pos rfl]
      split
      · rfl
      · rw [List.filter_cons_of_neg (by simp [hr])]
    · have h : [r].any (fun p => decide (p.key = q.key)) = false := by simp [hr]
      rw [h, Bool.or_false]
      split
      · rfl
      · rw [List.filter_cons_of_pos (by simpa using fun he => hr he.symm), List.cons_append]

/-- The last record of each key in a bucket. -/
def latestIn (rs : List Record) (bucket : String) : List Record := (latest rs).filter fun r => decide (r.bucket = bucket)

theorem mem_latestIn {rs : List Record} {b : String} {r : Record} : r ∈ latestIn rs b ↔ r ∈ latest rs ∧ r.bucket = b := by
  rw [latestIn, List.mem_filter, decide_eq_true_eq]

theorem latestIn_concat (rs : List Record) (r : Record) (b : String) :
    latestIn (rs ++ [r]) b =
      (latestIn rs b).filter (fun q => decide (q.key ≠ r.key)) ++ if r.bucket = b then [r] else [] := by
  rw [latestIn, latest_concat, List.filter_append, List.filter_comm, ← latestIn, List.filter_singleton]
  simp

/-! ## Records that fit together -/

/-- Each key names one registration, and each bucket has one declaration. -/
structure Compatible (rs : List Record) : Prop where
  same : ∀ q ∈ rs, ∀ r ∈ rs, q.key = r.key → sameRegistrationRecord q r = true
  declared : ∀ q ∈ rs, ∀ r ∈ rs, q.bucket = r.bucket → q.declaration = r.declaration

/-- And no record has an index above the number of records in its bucket. -/
structure Coherent (rs : List Record) : Prop extends Compatible rs where
  fits : ∀ r ∈ latest rs, r.index ≤ (latestIn rs r.bucket).length

/-- The index is of the records. -/
structure Holds (ix : Index) (rs : List Record) : Prop where
  has : ∀ k, ix.has k = true ↔ ∃ r ∈ rs, r.key = k
  records : ∀ b, (ix.records b).Perm (latestIn rs b)
  nodup : (ix.byBucket.map Prod.fst).Nodup

theorem holds_empty : Holds {} [] where
  has k := by simp [Index.has]
  records b := .nil
  nodup := List.nodup_nil

/-- `addRecord` where it does not fail. -/
def put (ix : Index) (r : Record) : Index :=
  if ix.has r.key then { ix with byBucket := Assoc.set ix.byBucket r.bucket (replace r (ix.records r.bucket)) }
  else ix.remember r

/-- The record gets past the checks of `addRecord`. -/
def Agrees (ix : Index) (r : Record) : Prop :=
  if ix.has r.key then
    ∃ q, (ix.records r.bucket).find? (fun q => decide (q.key = r.key)) = some q ∧ sameRegistrationRecord q r = true
  else ∀ q ∈ (ix.records r.bucket).head?, q.declaration = r.declaration

theorem addRecord_ok {n : Nat} {ix ix' : Index} {r : Record} : addRecord n ix r = .ok ix' ↔ Agrees ix r ∧ put ix r = ix' := by
  unfold addRecord Agrees put
  split
  · dsimp only
    cases hf : (ix.records r.bucket).find? fun q => decide (q.key = r.key) with
    | none => exact ⟨nofun, fun ⟨⟨q, hq, _⟩, _⟩ => nomatch hq⟩
    | some q =>
      dsimp only
      by_cases hs : sameRegistrationRecord q r = true
      · rw [if_pos hs, Except.ok.injEq]
        exact ⟨fun h => ⟨⟨q, rfl, hs⟩, h⟩, And.right⟩
      · rw [if_neg hs]
        refine ⟨nofun, fun ⟨⟨q', hq', hs'⟩, _⟩ => ?_⟩
        cases hq'
        exact absurd hs' hs
  · cases hl : ix.records r.bucket with
    | nil =>
      simp only [Except.ok.injEq, List.head?_nil]
      exact ⟨fun h => ⟨nofun, h⟩, And.right⟩
    | cons q l =>
      dsimp only
      simp only [List.head?_cons, Option.mem_some_iff]
      by_cases hd : q.declaration = r.declaration
      · rw [if_neg (not_not.2 hd), Except.ok.injEq]
        exact ⟨fun h => ⟨fun _ he => he ▸ hd, h⟩, And.right⟩
      · rw [if_pos hd]
        exact ⟨nofun, fun h => absurd (h.1 q rfl) hd⟩

theorem replace_perm {l : List Record} {r : Record} (hl : (l.map Record.key).Nodup) (h : ∃ q ∈ l, q.key = r.key) :
    (replace r l).Perm (l.filter (fun q => decide (q.key ≠ r.key)) ++ [r]) := by
  induction l with
  | nil => obtain ⟨q, hq, -⟩ := h; cases hq
  | cons p l ih =>
    obtain ⟨hp, hl⟩ := List.nodup_cons.1 hl
    rw [replace]
    by_cases hk : p.key = r.key
    · rw [if_pos hk, List.filter_cons_of_neg (by simpa using hk), List.filter_eq_self.2 fun q hq => ?_]
      · exact (List.perm_append_singleton r l).symm
      · exact decide_eq_true fun hqr => hp (List.mem_map.2 ⟨q, hq, hqr.trans hk.symm⟩)
    · rw [if_neg hk, List.filter_cons_of_pos (by simpa using hk), List.cons_append]
      refine (ih hl ?_).cons p
      obtain ⟨q, hq, hqr⟩ := h
      rcases List.mem_cons.1 hq with rfl | hq
      · exact absurd hqr hk
      · exact ⟨q, hq, hqr⟩

theorem records_set (ix : Index) (b b' : String) (l : List Record) :
    ({ ix with byBucket := Assoc.set ix.byBucket b' l } : Index).records b = if b = b' then l else ix.records b := by
  rw [Index.records]
  by_cases h : b = b'
  · subst h
    rw [if_pos rfl, Assoc.lookup_set_self]
    rfl
  · rw [if_neg h, Assoc.lookup_set_of_ne h]
    rfl

theorem nodup_records {ix : Index} {rs : List Record} (h : Holds ix rs) (b : String) :
    ((ix.records b).map Record.key).Nodup :=
  ((h.records b).map _).nodup_iff.2 ((nodup_latest rs).sublist (List.filter_sublist.map _))

theorem mem_records {ix : Index} {rs : List Record} (h : Holds ix rs) {b : String} {r : Record} :
    r ∈ ix.records b ↔ r ∈ latest rs ∧ r.bucket = b := by
  rw [(h.records b).mem_iff, mem_latestIn]

/-- The record that an index has under a key of its records. -/
theorem find_record {ix : Index} {rs : List Record} (h : Holds ix rs) (hrs : ∀ q ∈ rs, Usable q) {r : Record} (hr : Usable r)
    (hk : ix.has r.key = true) : ∃ q ∈ rs, q.key = r.key ∧ q ∈ ix.records r.bucket ∧
      (ix.records r.bucket).find? (fun q => decide (q.key = r.key)) = some q := by
  obtain ⟨p, hp, hpk⟩ := (h.has _).1 hk
  obtain ⟨q, hq, hqp⟩ := exists_latest hp
  have hqk : q.key = r.key := hqp.trans hpk
  have hm : q ∈ ix.records r.bucket := (mem_records h).2 ⟨hq, bucket_of_key (hrs q (mem_of_latest hq)) hr hqk⟩
  cases hf : (ix.records r.bucket).find? fun q => decide (q.key = r.key) with
  | none => exact absurd (decide_eq_true hqk) (List.find?_eq_none.1 hf q hm)
  | some q' =>
    have hq' := List.mem_of_find?_eq_some hf
    have hk' : q'.key = r.key := by simpa using List.find?_some hf
    exact ⟨q', mem_of_latest ((mem_records h).1 hq').1, hk', hq', rfl⟩

theorem holds_put {ix : Index} {rs : List Record} (h : Holds ix rs) (hrs : ∀ q ∈ rs, Usable q) {r : Record} (hr : Usable r) :
    Holds (put ix r) (rs ++ [r]) := by
  -- No record of another bucket has the key.
  have hother : ∀ b, r.bucket ≠ b → (latestIn rs b).filter (fun q => decide (q.key ≠ r.key)) = latestIn rs b := by
    intro b hb
    refine List.filter_eq_self.2 fun q hq => decide_eq_true fun hk => ?_
    obtain ⟨hq, hqb⟩ := mem_latestIn.1 hq
    exact hb ((bucket_of_key (hrs q (mem_of_latest hq)) hr hk).symm.trans hqb)
  unfold put
  by_cases hk : ix.has r.key = true
  · rw [if_pos hk]
    obtain ⟨q, hq, hqk, hm, -⟩ := find_record h hrs hr hk
    refine ⟨fun k => ?_, fun b => ?_, Assoc.nodup_set h.nodup _ _⟩
    · change ix.has k = true ↔ _
      rw [h.has]
      constructor
      · rintro ⟨p, hp, rfl⟩
        exact ⟨p, List.mem_append_left _ hp, rfl⟩
      · rintro ⟨p, hp, rfl⟩
        rcases List.mem_append.1 hp with hp | hp
        · exact ⟨p, hp, rfl⟩
        · rw [List.mem_singleton.1 hp]
          exact ⟨q, hq, hqk⟩
    · rw [records_set, latestIn_concat]
      by_cases hb : r.bucket = b
      · subst hb
        rw [if_pos rfl, if_pos rfl]
        exact (replace_perm (nodup_records h _) ⟨q, hm, hqk⟩).trans (((h.records _).filter _).append_right _)
      · rw [if_neg fun he => hb he.symm, if_neg hb, hother b hb, List.append_nil]
        exact h.records b
  · rw [if_neg hk]
    have hnew : ∀ q ∈ rs, q.key ≠ r.key := fun q hq hqk => hk ((h.has _).2 ⟨q, hq, hqk⟩)
    refine ⟨fun k => ?_, fun b => ?_, Assoc.nodup_set h.nodup _ _⟩
    · rw [Index.has_remember, Bool.or_eq_true, h.has, decide_eq_true_eq]
      simp only [List.mem_append, List.mem_singleton, or_and_right, exists_or, exists_eq_left]
      exact or_congr_right eq_comm
    · rw [Index.records_remember, latestIn_concat]
      have hself : (latestIn rs b).filter (fun q => decide (q.key ≠ r.key)) = latestIn rs b :=
        List.filter_eq_self.2 fun q hq => decide_eq_true (hnew q (mem_of_latest (mem_latestIn.1 hq).1))
      rw [hself]
      by_cases hb : r.bucket = b
      · rw [if_pos hb.symm, if_pos hb]
        exact (h.records b).append_right _
      · rw [if_neg fun he => hb he.symm, if_neg hb, List.append_nil]
        exact h.records b

theorem agrees_iff {ix : Index} {rs : List Record} (h : Holds ix rs) (hrs : ∀ q ∈ rs, Usable q) (hc : Compatible rs)
    {r : Record} (hr : Usable r) : Agrees ix r ↔
      ∀ q ∈ rs, (q.key = r.key → sameRegistrationRecord q r = true) ∧ (q.bucket = r.bucket → q.declaration = r.declaration) := by
  unfold Agrees
  by_cases hk : ix.has r.key = true
  · rw [if_pos hk]
    obtain ⟨p, hp, hpk, -, hf⟩ := find_record h hrs hr hk
    constructor
    · rintro ⟨p', hp', hs⟩
      rw [hf] at hp'
      cases hp'
      refine fun q hq => ⟨fun hqk => same_trans (hc.same q hq p hp (hqk.trans hpk.symm)) hs, fun hqb => ?_⟩
      rw [← declaration_of_same (hrs p hp) hr hs]
      exact hc.declared q hq p hp (hqb.trans (bucket_of_key (hrs p hp) hr hpk).symm)
    · exact fun hall => ⟨p, hf, (hall p hp).1 hpk⟩
  · rw [if_neg hk]
    constructor
    · refine fun hd q hq => ⟨fun hqk => absurd ((h.has _).2 ⟨q, hq, hqk⟩) hk, fun hqb => ?_⟩
      obtain ⟨q', hq', hqk'⟩ := exists_latest hq
      have hb' : q'.bucket = q.bucket := bucket_of_key (hrs q' (mem_of_latest hq')) (hrs q hq) hqk'
      have hm : q' ∈ ix.records r.bucket := (mem_records h).2 ⟨hq', hb'.trans hqb⟩
      obtain ⟨p, l, hl⟩ := List.exists_cons_of_ne_nil (List.ne_nil_of_mem hm)
      have hp := (mem_records h).1 (hl ▸ List.mem_cons_self : p ∈ ix.records r.bucket)
      rw [hl] at hd
      rw [← hd p (by rw [List.head?_cons]; rfl)]
      exact hc.declared q hq p (mem_of_latest hp.1) (hqb.trans hp.2.symm)
    · intro hall p hp
      have hm := (mem_records h).1 (List.mem_of_head? hp)
      exact (hall p (mem_of_latest hm.1)).2 hm.2

theorem compatible_concat {rs : List Record} {r : Record} : Compatible (rs ++ [r]) ↔ Compatible rs ∧
    ∀ q ∈ rs, (q.key = r.key → sameRegistrationRecord q r = true) ∧ (q.bucket = r.bucket → q.declaration = r.declaration) := by
  have hsymm : ∀ {q r : Record}, sameRegistrationRecord q r = true → sameRegistrationRecord r q = true := fun h => by
    obtain ⟨h1, h2, h3, h4, h5, h6⟩ := same_iff.1 h
    exact same_iff.2 ⟨h1.symm, h2.symm, h3.symm, h4.symm, h5.symm, h6.symm⟩
  constructor
  · intro h
    refine ⟨⟨fun q hq p hp => h.same q (List.mem_append_left _ hq) p (List.mem_append_left _ hp), fun q hq p hp =>
      h.declared q (List.mem_append_left _ hq) p (List.mem_append_left _ hp)⟩, fun q hq => ?_⟩
    have hr : r ∈ rs ++ [r] := List.mem_append_right _ List.mem_cons_self
    exact ⟨h.same q (List.mem_append_left _ hq) r hr, h.declared q (List.mem_append_left _ hq) r hr⟩
  · rintro ⟨h, hr⟩
    constructor
    · intro q hq p hp hk
      rcases List.mem_append.1 hq with hq | hq <;> rcases List.mem_append.1 hp with hp | hp
      · exact h.same q hq p hp hk
      · rw [List.mem_singleton.1 hp] at hk ⊢
        exact (hr q hq).1 hk
      · rw [List.mem_singleton.1 hq] at hk ⊢
        exact hsymm ((hr p hp).1 hk.symm)
      · rw [List.mem_singleton.1 hq, List.mem_singleton.1 hp]
        exact same_iff.2 ⟨rfl, rfl, rfl, rfl, rfl, rfl⟩
    · intro q hq p hp hk
      rcases List.mem_append.1 hq with hq | hq <;> rcases List.mem_append.1 hp with hp | hp
      · exact h.declared q hq p hp hk
      · rw [List.mem_singleton.1 hp] at hk ⊢
        exact (hr q hq).2 hk
      · rw [List.mem_singleton.1 hq] at hk ⊢
        exact ((hr p hp).2 hk.symm).symm
      · rw [List.mem_singleton.1 hq, List.mem_singleton.1 hp]

/-- The records go into the index one after the other. -/
def AgreesAll : Index → List Record → Prop
  | _, [] => True
  | ix, r :: rs => Agrees ix r ∧ AgreesAll (put ix r) rs

theorem agreesAll_iff {ix : Index} {rs rs' : List Record} (h : Holds ix rs) (hc : Compatible rs) (hrs : ∀ q ∈ rs, Usable q)
    (hrs' : ∀ q ∈ rs', Usable q) : AgreesAll ix rs' ↔ Compatible (rs ++ rs') := by
  induction rs' generalizing ix rs with
  | nil => rw [List.append_nil]; exact ⟨fun _ => hc, fun _ => trivial⟩
  | cons r rs' ih =>
    have hr := hrs' r List.mem_cons_self
    have hu : ∀ q ∈ rs ++ [r], Usable q := List.forall_mem_append.2 ⟨hrs, List.forall_mem_singleton.2 hr⟩
    have hu' : ∀ q ∈ rs', Usable q := fun q hq => hrs' q (List.mem_cons_of_mem _ hq)
    rw [AgreesAll, agrees_iff h hrs hc hr, List.append_cons]
    constructor
    · rintro ⟨ha, hall⟩
      exact (ih (holds_put h hrs hr) (compatible_concat.2 ⟨hc, ha⟩) hu hu').1 hall
    · intro hall
      have hc' : Compatible (rs ++ [r]) :=
        ⟨fun q hq p hp => hall.same q (List.mem_append_left _ hq) p (List.mem_append_left _ hp),
          fun q hq p hp => hall.declared q (List.mem_append_left _ hq) p (List.mem_append_left _ hp)⟩
      exact ⟨(compatible_concat.1 hc').2, (ih (holds_put h hrs hr) hc' hu hu').2 hall⟩

theorem holds_foldl {ix : Index} {rs rs' : List Record} (h : Holds ix rs) (hrs : ∀ q ∈ rs, Usable q)
    (hrs' : ∀ q ∈ rs', Usable q) : Holds (rs'.foldl put ix) (rs ++ rs') := by
  induction rs' generalizing ix rs with
  | nil => rwa [List.append_nil]
  | cons r rs' ih =>
    have hr := hrs' r List.mem_cons_self
    rw [List.foldl_cons, List.append_cons]
    exact ih (holds_put h hrs hr) (List.forall_mem_append.2 ⟨hrs, List.forall_mem_singleton.2 hr⟩) fun q hq =>
      hrs' q (List.mem_cons_of_mem _ hq)

/-! ## The order of a bucket -/

def byIndex (recs : List Record) : List Record := recs.insertionSort fun a b => a.index ≤ b.index

theorem mem_byIndex {recs : List Record} {r : Record} : r ∈ byIndex recs ↔ r ∈ recs := List.mem_insertionSort _

@[simp] theorem length_byIndex (recs : List Record) : (byIndex recs).length = recs.length := List.length_insertionSort _ recs

theorem byIndex_sorted (recs : List Record) : (byIndex recs).Pairwise fun a b => a.index ≤ b.index :=
  List.pairwise_insertionSort _ recs

/-- A record with an index as high as any other's goes last. -/
theorem byIndex_concat {recs : List Record} {r : Record} (h : ∀ q ∈ recs, q.index ≤ r.index) :
    byIndex (recs ++ [r]) = byIndex recs ++ [r] := by
  have hinsert : ∀ {l : List Record} {q : Record}, q.index ≤ r.index →
      (l ++ [r]).orderedInsert (fun a b => a.index ≤ b.index) q = l.orderedInsert (fun a b => a.index ≤ b.index) q ++ [r] := by
    intro l q hq
    induction l with
    | nil => rw [List.nil_append, List.orderedInsert_cons, if_pos hq]; rfl
    | cons p l ih =>
      rw [List.cons_append, List.orderedInsert_cons, List.orderedInsert_cons]
      split
      · rfl
      · rw [ih, List.cons_append]
  induction recs with
  | nil => rfl
  | cons q recs ih =>
    rw [byIndex, List.cons_append, List.insertionSort_cons, ← byIndex, ih fun p hp => h p (List.mem_cons_of_mem _ hp),
      hinsert (h q List.mem_cons_self)]
    rfl

theorem sortBucket_ok {p p' : String × List Record} : sortBucket p = .ok p' ↔
    (∀ r ∈ p.2, r.index ≤ p.2.length) ∧ (p.1, byIndex p.2) = p' := by
  unfold sortBucket
  dsimp only
  rw [← byIndex]
  cases hl : (byIndex p.2).getLast? with
  | none =>
    have h0 : p.2 = [] := by
      rw [List.getLast?_eq_none_iff] at hl
      rw [← List.length_eq_zero_iff, ← length_byIndex, hl, List.length_nil]
    simp only [Except.ok.injEq, h0, List.not_mem_nil, false_imp_iff, implies_true, true_and]
  | some last =>
    obtain ⟨l, hl⟩ := List.getLast?_eq_some_iff.1 hl
    have hmax : ∀ r ∈ p.2, r.index ≤ last.index := by
      intro r hr
      rw [← mem_byIndex, hl] at hr
      have hs := byIndex_sorted p.2
      rw [hl] at hs
      rcases List.mem_append.1 hr with hr | hr
      · exact (List.pairwise_append.1 hs).2.2 r hr last List.mem_cons_self
      · rw [List.mem_singleton.1 hr]
    dsimp only
    rw [length_byIndex]
    split
    · rename_i hlt
      refine ⟨nofun, fun h => absurd (h.1 last ?_) (Nat.not_le_of_lt hlt)⟩
      rw [← mem_byIndex, hl]
      exact List.mem_append_right _ List.mem_cons_self
    · rename_i hle
      rw [Except.ok.injEq]
      exact ⟨fun h => ⟨fun r hr => (hmax r hr).trans (Nat.le_of_not_lt hle), h⟩, And.right⟩

/-- The index with its buckets in order. -/
def sorted (ix : Index) : Index := { ix with byBucket := ix.byBucket.map fun p => (p.1, byIndex p.2) }

theorem sortIndex_ok {ix ix' : Index} : sortIndex ix = .ok ix' ↔
    (∀ p ∈ ix.byBucket, ∀ r ∈ p.2, r.index ≤ p.2.length) ∧ sorted ix = ix' := by
  have hmap : ∀ {l bs : List (String × List Record)}, List.Forall₂ (fun p p' => sortBucket p = .ok p') l bs ↔
      (∀ p ∈ l, ∀ r ∈ p.2, r.index ≤ p.2.length) ∧ (l.map fun p => (p.1, byIndex p.2)) = bs := by
    intro l
    induction l with
    | nil => intro bs; rw [List.forall₂_nil_left_iff]; exact ⟨fun h => ⟨nofun, h.symm⟩, fun h => h.2.symm⟩
    | cons p l ih =>
      intro bs
      constructor
      · rintro (_ | ⟨hp, hl⟩)
        obtain ⟨h1, rfl⟩ := sortBucket_ok.1 hp
        obtain ⟨h2, rfl⟩ := ih.1 hl
        exact ⟨List.forall_mem_cons.2 ⟨h1, h2⟩, rfl⟩
      · rintro ⟨h, rfl⟩
        obtain ⟨h1, h2⟩ := List.forall_mem_cons.1 h
        exact .cons (sortBucket_ok.2 ⟨h1, rfl⟩) (ih.2 ⟨h2, rfl⟩)
  unfold sortIndex sorted
  rw [Js.bind_eq_ok]
  constructor
  · rintro ⟨bs, hbs, h⟩
    cases h
    obtain ⟨h1, rfl⟩ := hmap.1 (Js.mapM_eq_ok.1 hbs)
    exact ⟨h1, rfl⟩
  · rintro ⟨h, rfl⟩
    exact ⟨_, Js.mapM_eq_ok.2 (hmap.2 ⟨h, rfl⟩), rfl⟩

@[simp] theorem has_sorted (ix : Index) (k : String) : (sorted ix).has k = ix.has k := rfl

@[simp] theorem records_sorted (ix : Index) (b : String) : (sorted ix).records b = byIndex (ix.records b) := by
  rw [Index.records, sorted]
  have h := @Assoc.lookup_map _ _ _ _ _ _ (fun k => k) Iff.rfl byIndex ix.byBucket b
  rw [h, Index.records]
  cases ix.byBucket.lookup b with
  | none => rfl
  | some l => rfl

/-- The order of the buckets stays when a record comes in whose index is the highest. -/
theorem sorted_remember {ix : Index} {r : Record} (h : ∀ q ∈ ix.records r.bucket, q.index ≤ r.index) :
    sorted (ix.remember r) = (sorted ix).remember r := by
  rw [Index.remember, Index.remember, records_sorted, ← byIndex_concat h, sorted, sorted]
  exact congrArg (Index.mk (ix.seen ++ [r.key]))
    (@Assoc.set_map _ _ _ _ _ _ (fun k => k) Iff.rfl byIndex ix.byBucket r.bucket _).symm

/-- The bound of `sortIndex` is on the last records. -/
theorem fits_iff {ix : Index} {rs : List Record} (h : Holds ix rs) :
    (∀ p ∈ ix.byBucket, ∀ r ∈ p.2, r.index ≤ p.2.length) ↔ ∀ r ∈ latest rs, r.index ≤ (latestIn rs r.bucket).length := by
  constructor
  · intro hall r hr
    have hm : r ∈ ix.records r.bucket := (mem_records h).2 ⟨hr, rfl⟩
    cases hl : ix.byBucket.lookup r.bucket with
    | none => rw [Index.records, hl] at hm; cases hm
    | some l =>
      have hrec : ix.records r.bucket = l := by rw [Index.records, hl]; rfl
      rw [← (h.records r.bucket).length_eq, hrec]
      rw [hrec] at hm
      exact hall _ (Assoc.mem_of_lookup hl) r hm
  · rintro hall ⟨b, l⟩ hp r hr
    have hrec : ix.records b = l := by rw [Index.records, Assoc.lookup_of_mem h.nodup hp]; rfl
    have hm := (mem_records h).1 (hrec ▸ hr : r ∈ ix.records b)
    have hle := hall r hm.1
    rw [hm.2, ← (h.records b).length_eq, hrec] at hle
    exact hle

end RegistrationFile
