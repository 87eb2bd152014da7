import MnoVerify.RegistrationFileSound
import MnoVerify.RegistrationBackend

/-!
# The load of the file backend

The file is at every moment made of complete lines that are on the disk and of the beginning of what one append, or the
header, puts behind them. `load_next` says that every operation of a load keeps that, and that the maps that a load installs
are those of the complete lines.
-/

namespace RegistrationBackend

open Registration RegistrationFile
open Durable (Disk Session Op Outcome)

/-! ## Lines and their view -/

/-- The bytes of complete lines. -/
def enc (C : List (List Char)) : List UInt8 := Utf8.encode (Lines.text C)

@[simp] theorem enc_nil : enc [] = [] := rfl

@[simp] theorem enc_append (C ms : List (List Char)) : enc (C ++ ms) = enc C ++ enc ms := by simp [enc]

theorem enc_singleton (l : List Char) : enc [l] = Utf8.encode (l ++ ['\n']) := by simp [enc]

/-- The maps before they are put in order. -/
def built (C : List (List Char)) : Index := (recordsOf C).foldl put {}

/-- The maps that the lines stand for. -/
def view (C : List (List Char)) : Index := sorted (built C)

/-- The record is in its place. -/
def Placed (C : List (List Char)) (r : Record) : Prop :=
  (view C).has r.key = true ∧ ((view C).records r.bucket)[r.index]? = some r

/-- The record that an append writes next. -/
structure Next (C : List (List Char)) (r : Record) : Prop where
  usable : Usable r
  new : (view C).has r.key = false
  index : r.index = ((view C).records r.bucket).length
  declared : ∀ q ∈ (view C).records r.bucket, q.declaration = r.declaration

theorem holds_built (C : List (List Char)) : Holds (built C) (recordsOf C) := holds_recordsOf C

theorem mem_view {C : List (List Char)} {b : String} {r : Record} (h : r ∈ (view C).records b) : r ∈ recordsOf C ∧ r.bucket = b := by
  rw [view, records_sorted, mem_byIndex] at h
  obtain ⟨hr, hb⟩ := (mem_records (holds_built C)).1 h
  exact ⟨mem_of_latest hr, hb⟩

theorem has_view {C : List (List Char)} {k : String} : (view C).has k = true ↔ ∃ r ∈ recordsOf C, r.key = k := (holds_built C).has k

theorem view_append {C ms : List (List Char)} (h : recordsOf ms = []) : view (C ++ ms) = view C := by
  simp [view, built, h]

/-- A bucket of coherent lines fits. -/
theorem fits_view {C : List (List Char)} (hc : Coherent (recordsOf C)) {b : String} {q : Record} (h : q ∈ (view C).records b) :
    q.index ≤ ((view C).records b).length := by
  rw [view, records_sorted, mem_byIndex] at h
  obtain ⟨hq, hb⟩ := (mem_records (holds_built C)).1 h
  have hle := hc.fits q hq
  rw [hb, ← ((holds_built C).records b).length_eq] at hle
  rwa [view, records_sorted, length_byIndex]

/-- The next record comes last in its bucket. -/
theorem view_next {C ms : List (List Char)} {r : Record} (hc : Coherent (recordsOf C)) (hr : Next C r) (hms : recordsOf ms = [r]) :
    view (C ++ ms) = (view C).remember r := by
  have hk : (built C).has r.key = false := hr.new
  rw [view, built, recordsOf_append, hms, List.foldl_concat]
  change sorted (put (built C) r) = _
  rw [put, hk, if_neg Bool.false_ne_true, sorted_remember, view]
  intro q hq
  have hq' : q ∈ (view C).records r.bucket := by rwa [view, records_sorted, mem_byIndex]
  rw [hr.index]
  exact fits_view hc hq'

theorem coherent_next {C ms : List (List Char)} {r : Record} (hc : Coherent (recordsOf C)) (hr : Next C r) (hms : recordsOf ms = [r]) :
    Coherent (recordsOf (C ++ ms)) := by
  rw [recordsOf_append, hms]
  apply coherent_concat (holds_built C) (usable_recordsOf C) hc
  · exact hr.new
  · rw [hr.index, view, records_sorted, length_byIndex]
  · intro q hq
    apply hr.declared
    rwa [view, records_sorted, mem_byIndex]

theorem placed_remember {C ms : List (List Char)} {r : Record} (hc : Coherent (recordsOf C)) (hr : Next C r) (hms : recordsOf ms = [r]) :
    Placed (C ++ ms) r := by
  rw [Placed, view_next hc hr hms]
  simp [hr.index]

/-- The second maps have all that the first have, and nothing before it. -/
structure Extends (ix ix' : Index) : Prop where
  has : ∀ k, ix.has k = true → ix'.has k = true
  records : ∀ b, ix.records b <+: ix'.records b

theorem Extends.refl (ix : Index) : Extends ix ix := ⟨fun _ => id, fun _ => List.prefix_rfl⟩

theorem Extends.trans {ix ix' ix'' : Index} (h : Extends ix ix') (h' : Extends ix' ix'') : Extends ix ix'' :=
  ⟨fun k hk => h'.has k (h.has k hk), fun b => (h.records b).trans (h'.records b)⟩

theorem Extends.remember (ix : Index) (r : Record) : Extends ix (ix.remember r) := by
  refine ⟨fun k hk => by simp [hk], fun b => ?_⟩
  rw [Index.records_remember]
  split
  · exact List.prefix_append _ _
  · exact List.prefix_rfl

/-- A place is never given up. -/
theorem Placed.within {C : List (List Char)} {r : Record} {ix : Index} (h : Placed C r) (he : Extends (view C) ix) :
    ix.has r.key = true ∧ (ix.records r.bucket)[r.index]? = some r := by
  refine ⟨he.has _ h.1, ?_⟩
  obtain ⟨t, ht⟩ := he.records r.bucket
  rw [← ht, List.getElem?_append_left (List.getElem?_eq_some_iff.1 h.2).1, h.2]

theorem Placed.more {C C' : List (List Char)} {r : Record} (h : Placed C r) (he : Extends (view C) (view C')) : Placed C' r :=
  h.within he

/-! ## What is written behind them -/

variable {cfg : Config}

/-- A line of the program: the header, or a record. -/
def Written (cfg : Config) (l : List Char) : Prop :=
  (∃ s, cfg.schedule = some s ∧ l = headerText s) ∨ ∃ r, Usable r ∧ l = recordText r

theorem Written.shape {l : List Char} (h : Written cfg l) : ∃ m, l = (Json.obj m).stringify := by
  obtain ⟨s, -, rfl⟩ | ⟨r, -, rfl⟩ := h
  · exact ⟨_, rfl⟩
  · exact ⟨_, rfl⟩

theorem Written.entry {l : List Char} (h : Written cfg l) : (readLine l).IsEntry := by
  obtain ⟨s, -, rfl⟩ | ⟨r, hr, rfl⟩ := h
  · rw [readLine_headerText]; trivial
  · rw [readLine_recordText hr]; trivial

theorem Written.valid {l : List Char} (h : Written cfg l) : Valid cfg l := by
  obtain ⟨s, hs, rfl⟩ | ⟨r, hr, rfl⟩ := h
  · refine ⟨Json.newline_notMem_stringify _, .inr (.inl ⟨_, readLine_headerText s, ?_⟩)⟩
    intro s' hs'
    rw [hs] at hs'
    cases hs'
    rfl
  · exact ⟨Json.newline_notMem_stringify _, .inr (.inr ⟨r, readLine_recordText hr⟩)⟩

/-- The line is cut, or whole. -/
theorem Written.cut {l : List Char} (h : Written cfg l) {p q : List UInt8} (hp : p ≠ []) (hl : p ++ q = Utf8.encode l) :
    '\n' ∉ Utf8.decode p ∧ (readLine (Utf8.decode p) = .notJson ∨ (p = Utf8.encode l ∧ Utf8.decode p = l)) := by
  obtain ⟨hn, hcut⟩ := readLine_cut h.valid.one h.entry hl
  refine ⟨hn, ?_⟩
  rcases hcut with hcut | ⟨hp', hread⟩
  · exact .inl hcut
  right
  -- The part of the line is text, and what follows it is the rest.
  have hline : l = Utf8.decode p ++ Utf8.decode q := by
    rw [← Utf8.decode_encode l, ← hl, hp', Utf8.decode_encode_append, Utf8.decode_encode]
  obtain ⟨m, hm⟩ := h.shape
  have htrim : Js.trim l = l := by rw [hm, trim_stringify]
  have hentry : (readLine (Utf8.decode p)).IsEntry := by
    rcases hread with hb | he
    · exfalso
      have hsp := Lines.trim_eq_nil.1 (readLine_blank.1 hb)
      obtain ⟨t, ht, -⟩ := Json.moves_object m
      cases hd : Utf8.decode p with
      | nil =>
        rw [hd] at hp'
        exact hp hp'
      | cons c u =>
        rw [hd, hm, ht, List.cons_append, List.cons.injEq] at hline
        have hc := hsp c (hd ▸ List.mem_cons_self)
        rw [← hline.1] at hc
        exact absurd hc (by decide)
    · rw [he]
      exact h.entry
  obtain ⟨t, ht, hmoves⟩ := isEntry_brace h.entry
  obtain ⟨x, hx⟩ := Lines.trim_prefix (Utf8.decode p) (Utf8.decode q)
  rw [← hline] at hx
  have hx0 : x = [] := by
    by_contra hne
    have hcut := Json.parse_cut (ht.symm.trans hx.symm) hmoves hne
    obtain ⟨o, ho⟩ := isEntry_obj hentry
    rw [ho] at hcut
    cases hcut
  rw [hx0, List.append_nil, htrim] at hx
  have hlen : l.length ≤ (Utf8.decode p).length := by
    rw [← hx]
    exact (List.dropWhile_sublist _).length_le.trans' ((List.rdropWhile_prefix _ _).length_le)
  have hd : Utf8.decode p = l :=
    (List.prefix_append _ _ |>.eq_of_length_le (by rw [← hline]; exact hlen)).trans hline.symm
  exact ⟨by rw [hp', hd], hd⟩

/-- Lines that may follow `C`: at most one record is among them, the last of them and behind a header, and it is one that
`R` allows. -/
structure Fresh (cfg : Config) (R : Record → Prop) (C ms : List (List Char)) : Prop where
  written : ∀ m ∈ ms, Written cfg m
  plain : recordsOf ms.dropLast = []
  next : ∀ r ∈ recordsOf ms, Next C r ∧ R r
  headed : recordsOf ms ≠ [] → headed (C ++ ms) = true

variable {R : Record → Prop} {C : List (List Char)}

theorem recordsOf_singleton (m : List Char) : recordsOf [m] = (readLine m).record?.toList := by
  rw [recordsOf, List.filterMap_cons]
  cases (readLine m).record? <;> rfl

theorem recordsOf_recordText {r : Record} (h : Usable r) : recordsOf [recordText r] = [r] := by
  rw [recordsOf_singleton, readLine_recordText h]
  rfl

namespace Fresh

theorem nil : Fresh cfg R C [] := ⟨nofun, rfl, nofun, fun h => absurd rfl h⟩

theorem proper {ms ms' : List (List Char)} (h : Fresh cfg R C (ms ++ ms')) (hne : ms' ≠ []) : recordsOf ms = [] := by
  have hp := h.plain
  rw [List.dropLast_append_of_ne_nil hne, recordsOf_append] at hp
  exact (List.append_eq_nil_iff.1 hp).1

theorem left {ms ms' : List (List Char)} (h : Fresh cfg R C (ms ++ ms')) : Fresh cfg R C ms := by
  by_cases hne : ms' = []
  · rwa [hne, List.append_nil] at h
  have hp := h.proper hne
  refine ⟨fun m hm => h.written m (List.mem_append_left _ hm), ?_, fun r hr => h.next r (by simp [hr]), fun h => absurd hp h⟩
  rcases List.eq_nil_or_concat ms with rfl | ⟨l, m, rfl⟩
  · rfl
  · rw [List.concat_eq_append, recordsOf_append] at hp
    rw [List.concat_eq_append, List.dropLast_concat]
    exact (List.append_eq_nil_iff.1 hp).1

theorem concat {H : List (List Char)} {m : List Char} (h : Fresh cfg R C H) (hH : recordsOf H = []) (hm : Written cfg m)
    (hr : ∀ r ∈ recordsOf [m], Next C r ∧ R r ∧ RegistrationFile.headed (C ++ H) = true) : Fresh cfg R C (H ++ [m]) := by
  refine ⟨List.forall_mem_append.2 ⟨h.written, List.forall_mem_singleton.2 hm⟩, ?_, ?_, ?_⟩
  · rw [List.dropLast_concat, hH]
  · rw [recordsOf_append, hH]
    exact fun r h => ⟨(hr r h).1, (hr r h).2.1⟩
  · intro hne
    rw [recordsOf_append, hH, List.nil_append] at hne
    obtain ⟨r, hmem⟩ := List.exists_mem_of_ne_nil _ hne
    rw [← List.append_assoc, headed_append, (hr r hmem).2.2]
    rfl

theorem cases {ms : List (List Char)} (h : Fresh cfg R C ms) : recordsOf ms = [] ∨ ∃ r, recordsOf ms = [r] ∧ Next C r ∧ R r := by
  rcases List.eq_nil_or_concat ms with rfl | ⟨l, m, rfl⟩
  · exact .inl rfl
  rw [List.concat_eq_append] at h ⊢
  have hp := h.plain
  have hnext := h.next
  rw [List.dropLast_concat] at hp
  rw [recordsOf_append, hp, List.nil_append, recordsOf_singleton] at hnext ⊢
  cases hm : (readLine m).record? with
  | none => exact .inl rfl
  | some r => exact .inr ⟨r, rfl, hnext r (by simp [hm])⟩

theorem mono {R' : Record → Prop} {ms : List (List Char)} (h : Fresh cfg R C ms) (hR : ∀ r, R r → R' r) : Fresh cfg R' C ms :=
  ⟨h.written, h.plain, fun r hr => ⟨(h.next r hr).1, hR r (h.next r hr).2⟩, h.headed⟩

theorem plain_mono {R' : Record → Prop} {ms : List (List Char)} (h : Fresh cfg R C ms) (hms : recordsOf ms = []) : Fresh cfg R' C ms :=
  ⟨h.written, h.plain, fun r hr => (by rw [hms] at hr; cases hr), h.headed⟩

theorem valid {ms : List (List Char)} (h : Fresh cfg R C ms) : ∀ m ∈ ms, Valid cfg m := fun m hm => (h.written m hm).valid

theorem coherent {ms : List (List Char)} (h : Fresh cfg R C ms) (hc : Coherent (recordsOf C)) : Coherent (recordsOf (C ++ ms)) := by
  rcases h.cases with hms | ⟨r, hms, hr, -⟩
  · rw [recordsOf_append, hms, List.append_nil]
    exact hc
  · exact coherent_next hc hr hms

theorem more {ms : List (List Char)} (h : Fresh cfg R C ms) (hc : Coherent (recordsOf C)) : Extends (view C) (view (C ++ ms)) := by
  rcases h.cases with hms | ⟨r, hms, hr, -⟩
  · rw [view_append hms]
    exact .refl _
  · rw [view_next hc hr hms]
    exact .remember _ r

end Fresh

/-! ## The disk -/

/-- The bytes are those of the lines, and the beginning of what may follow. -/
def Near (cfg : Config) (R : Record → Prop) (C : List (List Char)) (x : List UInt8) : Prop :=
  enc C <+: x ∧ ∃ ms, Fresh cfg R C ms ∧ x <+: enc (C ++ ms)

/-- Lines on which a load succeeds. -/
structure Good (cfg : Config) (C : List (List Char)) : Prop where
  valid : ∀ l ∈ C, Valid cfg l
  coherent : Coherent (recordsOf C)
  stampable : Stampable cfg C

/-- The lines are on the disk; what a read sees behind them, and what the disk has there, may be a part of a line. -/
structure DiskOk (cfg : Config) (R : Record → Prop) (C : List (List Char)) (d : Disk) : Prop where
  good : Good cfg C
  visible : Near cfg R C d.bytes
  stable : Near cfg (fun _ => True) C d.stable
  entered : d.Entered

theorem Fresh.good {ms : List (List Char)} (h : Fresh cfg R C ms) (hC : Good cfg C) : Good cfg (C ++ ms) := by
  refine ⟨List.forall_mem_append.2 ⟨hC.valid, h.valid⟩, h.coherent hC.coherent, ?_⟩
  by_cases hms : recordsOf ms = []
  · rcases hC.stampable with hs | hs | hs | hs
    · exact .inl (by simp [hs])
    · exact .inr (.inl hs)
    · exact .inr (.inr (.inl (by simp [hs, hms])))
    · exact .inr (.inr (.inr hs))
  · exact .inl (h.headed hms)

theorem Near.exact {ms : List (List Char)} (h : Fresh cfg R C ms) : Near cfg R C (enc (C ++ ms)) :=
  ⟨by simp, ms, h, List.prefix_rfl⟩

theorem Near.whole (V : List (List Char)) : Near cfg R V (enc V) := ⟨List.prefix_rfl, [], .nil, by simp⟩

theorem Near.mono {R' : Record → Prop} {x : List UInt8} (h : Near cfg R C x) (hR : ∀ r, R r → R' r) : Near cfg R' C x := by
  obtain ⟨hC, ms, hms, hx⟩ := h
  exact ⟨hC, ms, hms.mono hR, hx⟩

/-- A file of lines and the beginning of others has whole ones of these, and a part of the next. -/
theorem exists_cut {ms : List (List Char)} {x : List UInt8} (h : x <+: enc ms) : ∃ ms₁ ms₂ p, ms = ms₁ ++ ms₂ ∧ x = enc ms₁ ++ p ∧
    (p = [] ∨ ∃ m ms₃ q, ms₂ = m :: ms₃ ∧ p ≠ [] ∧ p ++ q = Utf8.encode m) := by
  induction ms generalizing x with
  | nil =>
    rw [enc_nil, List.prefix_nil] at h
    exact ⟨[], [], [], rfl, h, .inl rfl⟩
  | cons m ms ih =>
    have hm : enc (m :: ms) = Utf8.encode m ++ (Utf8.encode ['\n'] ++ enc ms) := by
      rw [← List.singleton_append, enc_append, enc_singleton, Utf8.encode_append, List.append_assoc]
    rw [hm] at h
    by_cases hle : x.length ≤ (Utf8.encode m).length
    · obtain ⟨q, hq⟩ := List.prefix_of_prefix_length_le h (List.prefix_append _ _) hle
      by_cases hx : x = []
      · exact ⟨[], m :: ms, [], rfl, hx, .inl rfl⟩
      · exact ⟨[], m :: ms, x, rfl, rfl, .inr ⟨m, ms, q, rfl, hx, hq⟩⟩
    · obtain ⟨y, rfl⟩ := List.prefix_of_prefix_length_le (List.prefix_append _ _) h (by omega)
      rw [List.prefix_append_right_inj] at h
      have hy : y ≠ [] := by
        intro hy
        simp [hy] at hle
      -- The line break is one byte.
      obtain ⟨c, z, rfl⟩ := List.exists_cons_of_ne_nil hy
      have hnl : Utf8.encode ['\n'] = [10] := by decide
      rw [hnl, List.singleton_append, List.cons_prefix_cons] at h
      obtain ⟨ms₁, ms₂, p, rfl, rfl, hp⟩ := ih h.2
      refine ⟨m :: ms₁, ms₂, p, rfl, ?_, hp⟩
      rw [← List.singleton_append (l := ms₁), enc_append, enc_singleton, Utf8.encode_append, hnl, h.1]
      simp

/-- What a read of the file sees: whole lines, and perhaps a part of one. -/
theorem Near.cut {x : List UInt8} (h : Near cfg R C x) : ∃ ms p, Fresh cfg R C ms ∧ x = enc (C ++ ms) ++ p ∧
    (p = [] ∨ ∃ m q, recordsOf ms = [] ∧ Fresh cfg R C (ms ++ [m]) ∧ p ≠ [] ∧ p ++ q = Utf8.encode m) := by
  obtain ⟨⟨y, rfl⟩, ms, hms, hx⟩ := h
  rw [enc_append, List.prefix_append_right_inj] at hx
  obtain ⟨ms₁, ms₂, p, rfl, rfl, hp⟩ := exists_cut hx
  refine ⟨ms₁, p, hms.left, by simp, ?_⟩
  rcases hp with hp | ⟨m, ms₃, q, rfl, hp, hq⟩
  · exact .inl hp
  · right
    refine ⟨m, q, hms.proper (List.cons_ne_nil _ _), ?_, hp, hq⟩
    rw [List.append_cons] at hms
    exact hms.left

/-! ## The work on a handle -/

/-- The file is lines, and those of them that are not on the disk have no record. -/
def Whole (cfg : Config) (R : Record → Prop) (C : List (List Char)) (d : Disk) (V : List (List Char)) : Prop :=
  d.bytes = enc V ∧ ∃ H, Fresh cfg R C H ∧ recordsOf H = [] ∧ V = C ++ H

/-- The work makes `V` of the file, and syncs it last. -/
structure Toward (cfg : Config) (R : Record → Prop) (C : List (List Char)) (d : Disk) (s : Session) (V : List (List Char)) : Prop where
  lines : ∃ ms, Fresh cfg R C ms ∧ V = C ++ ms
  text : d.bytes ++ s.pending = enc V
  flushes : s.todo.getLast? = some .sync

/-- The operation leaves the lines that are on the disk. -/
theorem DiskOk.moves {d d' : Disk} {s : Session} {ms : List (List Char)} (hd : DiskOk cfg R C d) (h : s.Moves d d')
    (hms : Fresh cfg R C ms) (htext : d.bytes ++ s.pending <+: enc (C ++ ms)) : DiskOk cfg R C d' := by
  have hbytes : Near cfg R C d'.bytes := ⟨hd.visible.1.trans h.grows, ms, hms, h.within.trans htext⟩
  refine ⟨hd.good, hbytes, ?_, h.entered hd.entered⟩
  · rcases h.stable with hs | hs
    · rw [hs]
      exact hd.stable
    · rw [hs]
      exact hbytes.mono fun _ _ => trivial

/-- The step of a work: it is still on its way, it has failed, or it is done and the lines are on the disk. -/
theorem Toward.next {d d' : Disk} {s : Session} {o : Outcome} {t : Durable.Turn} {V : List (List Char)} (hd : DiskOk cfg R C d)
    (h : Toward cfg R C d s V) (hn : s.next d o = (d', t)) :
    (DiskOk cfg R C d' ∧ t ≠ .returns ∧ ∀ s', t = .goes s' → s' = .closing false ∨ (s' ≠ .closing true ∧ Toward cfg R C d' s' V)) ∨
      (t = .goes (.closing true) ∧ DiskOk cfg R V d' ∧ d'.bytes = enc V) := by
  obtain ⟨⟨ms, hms, rfl⟩, htext, hflush⟩ := h
  have hmoves := Session.next_moves hn
  have hd' : DiskOk cfg R C d' := hd.moves hmoves hms (by rw [htext])
  cases t with
  | throws => exact .inl ⟨hd', by simp, by simp⟩
  | missing => exact .inl ⟨hd', by simp, by simp⟩
  | returns =>
    obtain ⟨rfl, -⟩ := Session.next_returns hn
    cases hflush
  | goes s' =>
    rcases Session.next_goes hn with rfl | ⟨hstart, htext', hops⟩
    · refine .inl ⟨hd', by simp, fun s' h => ?_⟩
      cases h
      exact .inl rfl
    rw [htext] at htext'
    by_cases hnil : s'.todo = []
    · -- The last operation was the sync.
      right
      have hpending : s'.pending = [] := by rw [Session.pending, hnil, List.flatMap_nil]
      rw [hpending, List.append_nil] at htext'
      rcases hops with ⟨hsame, -⟩ | ⟨op, hop, hrun⟩
      · rw [hnil] at hsame
        rw [← hsame] at hflush
        cases hflush
      rw [hop, hnil, List.getLast?_singleton, Option.some.injEq] at hflush
      subst hflush
      have hstable : d'.stable = enc (C ++ ms) := by
        rw [← htext', hrun]
        rfl
      refine ⟨?_, ⟨hms.good hd.good, ?_, ?_, hd'.entered⟩, htext'⟩
      · rw [hstart, hnil]
        rfl
      · rw [htext']
        exact .whole _
      · rw [hstable]
        exact .whole _
    · refine .inl ⟨hd', by simp, fun s h => ?_⟩
      cases h
      refine .inr ⟨?_, ⟨ms, hms, rfl⟩, htext', ?_⟩
      · rintro rfl
        exact hnil rfl
      · rcases hops with ⟨hsame, -⟩ | ⟨op, hop, -⟩
        · rw [hsame, hflush]
        · rw [hop, List.getLast?_cons_of_ne_nil hnil] at hflush
          exact hflush

/-- Where a work that makes `V` of the file stands. -/
inductive Works (cfg : Config) (R : Record → Prop) (C : List (List Char)) (d : Disk) (V : List (List Char)) : Session → Prop
  | toward {s : Session} : Toward cfg R C d s V → Works cfg R C d V s
  | whole : Whole cfg R C d V → Works cfg R C d V (.closing true)
  | failed : Works cfg R C d V (.closing false)

/-- More of the lines are on the disk. -/
def Grown (cfg : Config) (R : Record → Prop) (C C' : List (List Char)) : Prop := ∃ ms, Fresh cfg R C ms ∧ C' = C ++ ms

theorem Grown.rfl : Grown cfg R C C := ⟨[], .nil, by simp⟩

theorem Works.next {d d' : Disk} {s : Session} {o : Outcome} {t : Durable.Turn} {V : List (List Char)} (hd : DiskOk cfg R C d)
    (h : Works cfg R C d V s) (hn : s.next d o = (d', t)) : ∃ C', Grown cfg R C C' ∧ DiskOk cfg R C' d' ∧
      (∀ s', t = .goes s' → Works cfg R C' d' V s') ∧ (t = .returns → Whole cfg R C' d' V) := by
  cases h with
  | toward h =>
    obtain ⟨ms, hms, hV⟩ := h.lines
    rcases h.next hd hn with ⟨hd', hret, hgo⟩ | ⟨rfl, hd', htext⟩
    · refine ⟨C, .rfl, hd', fun s' hs' => ?_, fun h => absurd h hret⟩
      rcases hgo s' hs' with rfl | ⟨-, h'⟩
      · exact .failed
      · exact .toward h'
    · refine ⟨V, ⟨ms, hms, hV⟩, hd', fun s' hs' => ?_, nofun⟩
      cases hs'
      exact .whole ⟨htext, [], .nil, rfl, by simp⟩
  | whole h =>
    cases o with
    | done => cases hn; exact ⟨C, .rfl, hd, nofun, fun _ => h⟩
    | fails n => cases hn; exact ⟨C, .rfl, hd, nofun, nofun⟩
  | failed => cases o <;> cases hn <;> exact ⟨C, .rfl, hd, nofun, nofun⟩

/-! ## The load -/

/-- The flush of the directory. -/
def Naming (d : Disk) (w : Session) : Prop :=
  w = .opening .directory [.syncDir] ∨ w = .doing .syncDir [] ∨ (w = .closing true ∧ d.named = true) ∨ w = .closing false

theorem Naming.pending {d : Disk} {w : Session} (h : Naming d w) : w.pending = [] := by
  rcases h with rfl | rfl | ⟨rfl, -⟩ | rfl <;> rfl

theorem Naming.next {d d' : Disk} {w : Session} {o : Outcome} {t : Durable.Turn} (h : Naming d w) (hv : d.visible.isSome = true)
    (hn : w.next d o = (d', t)) : d'.bytes = d.bytes ∧ d'.visible.isSome = true ∧ (∀ w', t = .goes w' → Naming d' w') ∧
      (t = .returns → d'.named = true) := by
  rcases h with rfl | rfl | ⟨rfl, hnamed⟩ | rfl
  · cases o with
    | done => cases hn; exact ⟨rfl, hv, fun w' h => by cases h; exact .inr (.inl rfl), by simp⟩
    | fails n => cases hn; exact ⟨rfl, hv, by simp, by simp⟩
  · cases o with
    | done =>
      cases hn
      refine ⟨rfl, hv, fun w' h => ?_, by simp⟩
      cases h
      exact .inr (.inr (.inl ⟨rfl, by simp [Op.run, Disk.syncDir, hv]⟩))
    | fails n => cases hn; exact ⟨rfl, hv, fun w' h => by cases h; exact .inr (.inr (.inr rfl)), by simp⟩
  · cases o with
    | done => cases hn; exact ⟨rfl, hv, by simp, fun _ => hnamed⟩
    | fails n => cases hn; exact ⟨rfl, hv, by simp, by simp⟩
  · cases o <;> cases hn <;> exact ⟨rfl, hv, by simp, by simp⟩

/-- What a load knows where it stands. -/
def LoadOk (cfg : Config) (R : Record → Prop) (C : List (List Char)) (d : Disk) : LoadPc → Prop
  | .mkdir => True
  | .reading => True
  | .truncating n s => ∃ H, Fresh cfg R C H ∧ recordsOf H = [] ∧ enc (C ++ H) <+: d.bytes ∧ n = (enc (C ++ H)).length ∧
      s.index = built (C ++ H) ∧ s.seenHeader = headed (C ++ H)
  | .repairing w ix seenHeader => ∃ V, Works cfg R C d V w ∧ ix = built V ∧ seenHeader = headed V
  | .stamping w ix => ∃ V, Works cfg R C d V w ∧ ix = built V ∧ headed V = true
  | .naming w ix => ∃ V, Whole cfg R C d V ∧ ix = built V ∧ headed V = true ∧ d.visible.isSome = true ∧ Naming d w

/-- The maps are those of the lines on the disk, and the file has no others with a record. -/
def Installed (cfg : Config) (R : Record → Prop) (C : List (List Char)) (d : Disk) (ix : Index) : Prop :=
  ∃ V, Whole cfg R C d V ∧ headed V = true ∧ ix = view C

def TurnOk (cfg : Config) (R : Record → Prop) (C : List (List Char)) (d : Disk) (ensured : Bool) : LoadTurn → Prop
  | .goes pc => LoadOk cfg R C d pc
  | .installs ix => Installed cfg R C d ix ∧ ensured = true
  | .throws => True

theorem isSome_of_bytes {d : Disk} (h : d.bytes ≠ []) : d.visible.isSome = true := by
  cases hv : d.visible with
  | none => simp [Disk.bytes, hv] at h
  | some b => rfl

theorem Whole.view_eq {d : Disk} {V : List (List Char)} (h : Whole cfg R C d V) : view V = view C := by
  obtain ⟨-, H, -, hH, rfl⟩ := h
  exact view_append hH

theorem Whole.good {d : Disk} {V : List (List Char)} (h : Whole cfg R C d V) (hC : Good cfg C) : Good cfg V := by
  obtain ⟨-, H, hH, -, rfl⟩ := h
  exact hH.good hC

/-- A header is some text. -/
theorem Whole.isSome {d : Disk} {V : List (List Char)} (h : Whole cfg R C d V) (hV : headed V = true) : d.visible.isSome = true := by
  apply isSome_of_bytes
  rw [h.1]
  cases V with
  | nil => cases hV
  | cons l V =>
    intro hnil
    have hnl : Utf8.encode ['\n'] = [10] := by decide
    rw [← List.singleton_append, enc_append, enc_singleton, Utf8.encode_append, hnl] at hnil
    simp at hnil

theorem finish_built {V : List (List Char)} (h : Good cfg V) : finish (built V) = .installs (view V) := by
  have hsort : sortIndex (built V) = .ok (view V) := sortIndex_ok.2 ⟨(fits_iff (holds_built V)).2 h.coherent.fits, rfl⟩
  rw [finish, hsort]

section
variable {schedule : String} (hs : cfg.schedule = some schedule) {d : Disk} {V : List (List Char)} (hC : Good cfg C) {ensured : Bool}
include hC hs

theorem afterStamp_ok (h : Whole cfg R C d V) (hV : headed V = true) :
    TurnOk cfg R C d ensured (afterStamp cfg ensured (built V)) := by
  rw [afterStamp, hs]
  cases ensured with
  | true =>
    rw [Bool.not_true, Bool.and_false, if_neg Bool.false_ne_true, finish_built (h.good hC)]
    exact ⟨⟨V, h, hV, h.view_eq⟩, rfl⟩
  | false => exact ⟨V, h, rfl, hV, h.isSome hV, .inl rfl⟩

theorem afterRepair_ok (h : Whole cfg R C d V) : TurnOk cfg R C d ensured (afterRepair cfg ensured (built V) (headed V)) := by
  rw [afterRepair, hs]
  dsimp only
  by_cases hV : headed V = true
  · rw [if_pos hV]
    exact afterStamp_ok hs hC h hV
  rw [if_neg hV]
  split
  · trivial
  -- The header comes behind lines that have no new record.
  obtain ⟨htext, H, hH, hnone, rfl⟩ := h
  have hw : Written cfg (headerText schedule) := .inl ⟨schedule, hs, rfl⟩
  have hrec : recordsOf [headerText schedule] = [] := by
    rw [recordsOf_singleton, readLine_headerText]
    rfl
  refine ⟨C ++ H ++ [headerText schedule], .toward ⟨⟨H ++ [headerText schedule], ?_, by simp⟩, ?_, rfl⟩, ?_, ?_⟩
  · apply hH.concat hnone hw
    rw [hrec]
    exact nofun
  · simp [Session.pending, Op.chunk, htext, enc_append, enc_singleton]
  · simp [built, hrec]
  · rw [headed_append, headed, headed, List.any_cons, readLine_headerText]
    simp [Line.isHeader]

/-- What is read of the file is lines that stand for their view; a part of a line is cut off, and a whole one that is not
terminated is repaired. -/
theorem read_ok (hd : DiskOk cfg R C d) {s : Scan}
    (h : scan cfg (decide ((Utf8.decode d.bytes).getLast? ≠ some '\n')) [] ((Utf8.decode d.bytes).splitOn '\n') {} = .ok s) :
    TurnOk cfg R C d ensured (afterScan cfg ensured (Utf8.decode d.bytes) s) := by
  obtain ⟨ms, p, hms, hbytes, hp⟩ := hd.visible.cut
  have hvalid : ∀ l ∈ C ++ ms, Valid cfg l := (hms.good hC).valid
  have hraw : Utf8.decode d.bytes = Lines.text (C ++ ms) ++ Utf8.decode p := by rw [hbytes, enc, Utf8.decode_encode_append]
  rw [hraw] at h ⊢
  rcases hp with rfl | ⟨m, q, hnone, hm, hp0, hq⟩
  · -- The file ends on a line boundary.
    have hd0 : Utf8.decode [] = [] := rfl
    rw [hd0, Lines.splitOn_text (fun l hl => (hvalid l hl).one) (by simp), scan_valid hvalid] at h
    obtain ⟨-, h⟩ := h
    have hblank : ∀ {P : Prop}, ¬(readLine [] = .notJson ∧ P) := fun h => absurd h.1 (by decide)
    rw [scan, if_neg hblank] at h
    cases h
    have hend : Lines.text (C ++ ms) ++ [] = [] ∨ (Lines.text (C ++ ms) ++ []).getLast? = some '\n' := by
      rw [List.append_nil]
      by_cases hn : C ++ ms = []
      · exact .inl (Lines.text_eq_nil.2 hn)
      · exact .inr (Lines.getLast?_text hn)
    rw [hd0, afterScan]
    dsimp only
    rw [(repair_none hend none _ _).2, if_neg Bool.false_ne_true, Bool.false_or, hs, Option.isSome_some, Bool.true_and]
    rw [List.append_nil] at hbytes
    change TurnOk cfg R C d ensured (if (!(built (C ++ ms)).seen.isEmpty) = true then _ else _)
    by_cases hseen : (built (C ++ ms)).seen.isEmpty = true
    · rw [hseen, Bool.not_true, if_neg Bool.false_ne_true]
      have hempty := (seen_isEmpty (holds_built (C ++ ms))).1 hseen
      rw [recordsOf_append] at hempty
      exact afterRepair_ok hs hC ⟨hbytes, ms, hms, (List.append_eq_nil_iff.1 hempty).2, rfl⟩
    · rw [Bool.not_eq_true] at hseen
      rw [hseen, Bool.not_false, if_pos rfl]
      refine ⟨C ++ ms, .toward ⟨⟨ms, hms, rfl⟩, ?_, rfl⟩, rfl, rfl⟩
      simp [Session.pending, Op.chunk, hbytes]
  · have hmw : Written cfg m := hm.written m (List.mem_append_right _ List.mem_cons_self)
    obtain ⟨hnl, hcut⟩ := hmw.cut hp0 hq
    rw [Lines.splitOn_text (fun l hl => (hvalid l hl).one) hnl] at h
    rcases hcut with hn | ⟨hwhole, hdec⟩
    · -- The last line is cut.
      have hne : Utf8.decode p ≠ [] := fun h => (readLine_notJson.1 hn).1 (by rw [h]; rfl)
      rw [scan_valid hvalid] at h
      obtain ⟨-, h⟩ := h
      rw [scan, if_pos ⟨hn, decide_eq_true (getLast?_tail hne hnl), by simp⟩] at h
      cases h
      refine ⟨ms, hms, hnone, by simp [hbytes], ?_, rfl, rfl⟩
      rw [List.nil_append, offset_eq]
      rfl
    · -- The last line is whole.
      rw [hdec] at h hnl ⊢
      have hvalid' : ∀ l ∈ C ++ ms ++ [m], Valid cfg l := List.forall_mem_append.2 ⟨hvalid, List.forall_mem_singleton.2 hmw.valid⟩
      rw [← List.append_nil (C ++ ms ++ [m]), scan_valid hvalid'] at h
      obtain ⟨-, h⟩ := h
      cases h
      have hne : m ≠ [] := by
        obtain ⟨t, ht, -⟩ := isEntry_brace hmw.entry
        rintro rfl
        cases ht
      have hterm : terminates (Lines.text (C ++ ms) ++ m) ⟨built (C ++ ms ++ [m]), false || headed (C ++ ms ++ [m]), none⟩ = true := by
        rw [terminates, decide_eq_true (getLast?_tail hne hnl), Bool.and_true, Bool.and_eq_true, Bool.not_eq_true',
          List.isEmpty_eq_false_iff]
        exact ⟨rfl, fun h => hne (List.append_eq_nil_iff.1 h).2⟩
      rw [afterScan]
      dsimp only
      rw [show (List.foldl put {} (recordsOf (C ++ ms ++ [m]))) = built (C ++ ms ++ [m]) from rfl, hterm, if_pos rfl]
      refine ⟨C ++ ms ++ [m], .toward ⟨⟨ms ++ [m], hm, by simp⟩, ?_, rfl⟩, rfl, rfl⟩
      simp [Session.pending, Op.chunk, hbytes, enc_append, enc_singleton, hwhole]

end

theorem DiskOk.truncate {d : Disk} {H : List (List Char)} (hd : DiskOk cfg R C d) (hH : Fresh cfg R C H)
    (hbytes : enc (C ++ H) <+: d.bytes) : DiskOk cfg R C (d.truncate (enc (C ++ H)).length) ∧
      (d.truncate (enc (C ++ H)).length).bytes = enc (C ++ H) := by
  have htext : (d.truncate (enc (C ++ H)).length).bytes = enc (C ++ H) := by
    rw [Disk.bytes_truncate _ hbytes.length_le]
    exact (List.prefix_iff_eq_take.1 hbytes).symm
  refine ⟨⟨hd.good, ?_, hd.stable, fun hn => ?_⟩, htext⟩
  · rw [htext]
    exact .exact hH
  · have hv := hd.entered hn
    simpa [Disk.truncate] using hv

/-- An operation of the work of a load. -/
theorem work_ok {d d' : Disk} {s : Session} {o : Outcome} {ensured e' : Bool} {t : LoadTurn} {goes : Session → LoadPc}
    {returns : Bool × LoadTurn} (C' : List (List Char)) {step : Disk × Durable.Turn} (hstep : step = s.next d o)
    (h : work step ensured goes returns = (d', e', t)) (hgoes : ∀ s', step.2 = .goes s' → LoadOk cfg R C' step.1 (goes s'))
    (hreturns : step.2 = .returns → (ensured = true → returns.1 = true) ∧ (returns.1 = true → ensured = true ∨ step.1.named = true) ∧
      TurnOk cfg R C' step.1 returns.1 returns.2) :
    d' = step.1 ∧ (ensured = true → e' = true) ∧ (e' = true → ensured = true ∨ d'.named = true) ∧ TurnOk cfg R C' d' e' t := by
  obtain ⟨d₁, turn⟩ := step
  unfold work at h
  cases turn with
  | goes s' =>
    cases h
    exact ⟨rfl, id, .inl, hgoes s' rfl⟩
  | returns =>
    obtain ⟨h1, h2, h3⟩ := hreturns rfl
    cases h
    exact ⟨rfl, h1, h2, h3⟩
  | throws => cases h; exact ⟨rfl, id, .inl, trivial⟩
  | missing => cases h; exact ⟨rfl, id, .inl, trivial⟩

/-- What a step of a load keeps. -/
structure Steps (cfg : Config) (R : Record → Prop) (C C' : List (List Char)) (d d' : Disk) (ensured e' : Bool) : Prop where
  grown : Grown cfg R C C'
  disk : DiskOk cfg R C' d'
  named : d.named = true → d'.named = true
  more : ensured = true → e' = true
  ensured : e' = true → d'.named = true

theorem load_next {schedule : String} (hs : cfg.schedule = some schedule) {d d' : Disk} {ensured e' : Bool} {pc : LoadPc}
    {o : Outcome} {t : LoadTurn} (hd : DiskOk cfg R C d) (hl : LoadOk cfg R C d pc) (he : ensured = true → d.named = true)
    (h : pc.next cfg d ensured o = (d', e', t)) : ∃ C', Steps cfg R C C' d d' ensured e' ∧ TurnOk cfg R C' d' e' t := by
  have hstay : Steps cfg R C C d d ensured ensured := ⟨.rfl, hd, id, id, he⟩
  cases pc with
  | mkdir => cases o <;> cases h <;> exact ⟨C, hstay, trivial⟩
  | reading =>
    cases o with
    | fails n => cases h; exact ⟨C, hstay, trivial⟩
    | done =>
      simp only [LoadPc.next] at h
      split at h
      · cases h
        exact ⟨C, hstay, trivial⟩
      · rename_i s hscan
        cases h
        exact ⟨C, hstay, read_ok hs hd.good hd hscan⟩
  | truncating n s =>
    cases o with
    | fails n => cases h; exact ⟨C, hstay, trivial⟩
    | done =>
      obtain ⟨H, hH, hnone, hbytes, rfl, hix, hseen⟩ := hl
      obtain ⟨hd', htext⟩ := hd.truncate hH hbytes
      cases h
      refine ⟨C, ⟨.rfl, hd', id, id, he⟩, ?_⟩
      rw [hix, hseen]
      exact afterRepair_ok hs hd.good ⟨htext, H, hH, hnone, rfl⟩
  | repairing w ix seenHeader =>
    obtain ⟨V, hw, rfl, rfl⟩ := hl
    obtain ⟨C', hg, hd', hgo, hret⟩ := hw.next hd (Prod.mk.eta (p := w.next d o)).symm
    obtain ⟨rfl, hm, hn, ht⟩ := work_ok C' rfl h (fun s' hs' => ⟨V, hgo s' hs', rfl, rfl⟩)
      fun hr => ⟨id, .inl, afterRepair_ok hs hd'.good (hret hr)⟩
    have hnamed := (Session.next_moves (Prod.mk.eta (p := w.next d o)).symm).named
    exact ⟨C', ⟨hg, hd', hnamed, hm, fun h => (hn h).elim (fun h => hnamed (he h)) id⟩, ht⟩
  | stamping w ix =>
    obtain ⟨V, hw, rfl, hV⟩ := hl
    obtain ⟨C', hg, hd', hgo, hret⟩ := hw.next hd (Prod.mk.eta (p := w.next d o)).symm
    obtain ⟨rfl, hm, hn, ht⟩ := work_ok C' rfl h (fun s' hs' => ⟨V, hgo s' hs', rfl, hV⟩)
      fun hr => ⟨id, .inl, afterStamp_ok hs hd'.good (hret hr) hV⟩
    have hnamed := (Session.next_moves (Prod.mk.eta (p := w.next d o)).symm).named
    exact ⟨C', ⟨hg, hd', hnamed, hm, fun h => (hn h).elim (fun h => hnamed (he h)) id⟩, ht⟩
  | naming w ix =>
    obtain ⟨V, hV, rfl, hhead, hvis, hw⟩ := hl
    obtain ⟨hbytes, hvis', hgo, hret⟩ := hw.next hvis (Prod.mk.eta (p := w.next d o)).symm
    have hmoves := Session.next_moves (Prod.mk.eta (p := w.next d o)).symm
    obtain ⟨htext, H, hH, hnone, rfl⟩ := hV
    have hd' : DiskOk cfg R C (w.next d o).1 := hd.moves hmoves hH (by rw [htext, hw.pending, List.append_nil])
    have hV' : Whole cfg R C (w.next d o).1 (C ++ H) := ⟨hbytes.trans htext, H, hH, hnone, rfl⟩
    obtain ⟨rfl, hm, hn, ht⟩ := work_ok C rfl h (fun s' hs' => ⟨_, hV', rfl, hhead, hvis', hgo s' hs'⟩) fun hr => by
      refine ⟨fun _ => rfl, fun _ => .inr (hret hr), ?_⟩
      dsimp only
      rw [finish_built (hV'.good hd'.good)]
      exact ⟨⟨_, hV', hhead, hV'.view_eq⟩, rfl⟩
    exact ⟨C, ⟨.rfl, hd', hmoves.named, hm, fun h => (hn h).elim (fun h => hmoves.named (he h)) id⟩, ht⟩

end RegistrationBackend
