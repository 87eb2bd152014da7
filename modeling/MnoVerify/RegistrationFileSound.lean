import MnoVerify.RegistrationIndexSound

/-!
# Torn tails are repaired

A line that is cut reads as blank, as no JSON, or as the whole line (`readLine_cut`), so a torn file loads as its complete
lines do (`load_torn`). `Stands` is what a load leaves behind and what each append keeps: the file is complete lines, and a
reload gives the index of the store (`load_stands`, `stands_append`).
-/

namespace RegistrationFile

open Registration

/-! ## What a line is -/

theorem isSpace_of_isWs {c : Char} (h : Json.isWs c = true) : Js.isSpace c = true := by
  simp only [Json.isWs, Bool.or_eq_true, beq_iff_eq] at h
  rcases h with ((rfl | rfl) | rfl) | rfl <;> decide

theorem plain_of_isSpace {c : Char} (h : Js.isSpace c = true) : Json.Plain c := by
  refine ⟨?_, ?_, ?_, ?_, ?_⟩ <;> (rintro rfl; exact absurd h (by decide))

theorem lineOf_cases (rec : Json) :
    (∃ s, lineOf rec = .header s) ∨ (∃ why, lineOf rec = .unusable why) ∨
      (lineOf rec = .record (recordOf rec) ∧ registrationRecordProblem rec = none) := by
  unfold lineOf
  split
  · exact .inl ⟨_, rfl⟩
  · cases h : registrationRecordProblem rec with
    | some why => exact .inr (.inl ⟨why, rfl⟩)
    | none => exact .inr (.inr ⟨rfl, rfl⟩)

theorem readLine_blank {l : List Char} : readLine l = .blank ↔ Js.trim l = [] := by
  unfold readLine
  dsimp only
  split
  · rename_i h; exact ⟨fun _ => h, fun _ => rfl⟩
  · rename_i h
    refine ⟨fun hb => ?_, fun ht => absurd ht h⟩
    cases hp : Json.parse (Js.trim l) with
    | none => rw [hp] at hb; cases hb
    | some rec =>
      rw [hp] at hb
      dsimp only at hb
      rcases lineOf_cases rec with ⟨_, h⟩ | ⟨_, h⟩ | ⟨h, -⟩ <;> rw [h] at hb <;> cases hb

theorem readLine_notJson {l : List Char} : readLine l = .notJson ↔ Js.trim l ≠ [] ∧ Json.parse (Js.trim l) = none := by
  unfold readLine
  dsimp only
  split
  · rename_i h; exact ⟨nofun, fun h' => absurd h h'.1⟩
  · rename_i h
    cases hp : Json.parse (Js.trim l) with
    | none => exact ⟨fun _ => ⟨h, rfl⟩, fun _ => rfl⟩
    | some rec =>
      refine ⟨fun hn => ?_, fun h' => nomatch h'.2⟩
      dsimp only at hn
      rcases lineOf_cases rec with ⟨_, h⟩ | ⟨_, h⟩ | ⟨h, -⟩ <;> rw [h] at hn <;> cases hn

theorem readLine_congr {l l' : List Char} (h : Js.trim l = Js.trim l') : readLine l = readLine l' := by
  unfold readLine
  rw [h]

/-- A header or a record. -/
def Line.IsEntry : Line → Prop
  | .header _ => True
  | .record _ => True
  | _ => False

theorem isEntry_obj {l : List Char} (h : (readLine l).IsEntry) : ∃ m, Json.parse (Js.trim l) = some (.obj m) := by
  unfold readLine at h
  dsimp only at h
  split at h
  · exact h.elim
  · cases hp : Json.parse (Js.trim l) with
    | none => rw [hp] at h; exact h.elim
    | some rec =>
      rw [hp] at h
      cases rec with
      | obj m => exact ⟨m, rfl⟩
      | _ => exact h.elim

/-- The text of an entry: the brace that opens it is closed by its last character. -/
theorem isEntry_brace {l : List Char} (h : (readLine l).IsEntry) : ∃ t, Js.trim l = '{' :: t ∧ Json.Moves (-1) t := by
  obtain ⟨m, hm⟩ := isEntry_obj h
  obtain ⟨t, ht⟩ := Json.parse_obj_head hm
  -- No white space stands before the brace.
  have hhead : Js.trim l = '{' :: t := by
    cases hl : Js.trim l with
    | nil => rw [hl] at ht; cases ht
    | cons c r =>
      obtain ⟨r', hr'⟩ := Lines.head_trim hl
      have hc := List.head_dropWhile_not Js.isSpace (by rw [hr']; exact List.cons_ne_nil _ _)
      simp only [hr', List.head_cons] at hc
      rw [hl, Json.skipWs_cons r (Bool.eq_false_iff.2 fun hw => by rw [isSpace_of_isWs hw] at hc; cases hc)] at ht
      exact ht
  refine ⟨t, hhead, ?_⟩
  rw [hhead] at hm
  obtain ⟨-, u, r, rfl, hu, hr⟩ := Json.parse_brace hm
  -- And none after the last one.
  cases r using List.reverseRecOn with
  | nil => rwa [List.append_nil]
  | append_singleton r c =>
    have hsp := Lines.last_trim (s := l) (t := '{' :: (u ++ r)) (c := c) (by rw [hhead]; simp)
    have hws : Json.isWs c = true := List.dropWhile_eq_nil_iff.1 hr c (List.mem_append_right _ List.mem_cons_self)
    rw [isSpace_of_isWs hws] at hsp
    cases hsp

/-! ## A line that is cut -/

theorem readLine_prefix {u v : List Char} (h : (readLine (u ++ v)).IsEntry) :
    readLine u = .blank ∨ readLine u = .notJson ∨ readLine u = readLine (u ++ v) := by
  obtain ⟨t, ht, hm⟩ := isEntry_brace h
  obtain ⟨q, hq⟩ := Lines.trim_prefix u v
  by_cases h0 : Js.trim u = []
  · exact .inl (readLine_blank.2 h0)
  by_cases hq0 : q = []
  · rw [hq0, List.append_nil] at hq
    exact .inr (.inr (readLine_congr hq))
  · exact .inr (.inl (readLine_notJson.2 ⟨h0, Json.parse_cut (ht.symm.trans hq.symm) hm hq0⟩))

/-- A line that is cut inside a character is no JSON. -/
theorem readLine_replacement {u v : List Char} (h : (readLine (u ++ v)).IsEntry) :
    readLine (u ++ ['\uFFFD']) = .notJson := by
  obtain ⟨t, ht, -⟩ := isEntry_brace h
  obtain ⟨r, hr⟩ := Lines.head_trim ht
  have htrim := Lines.trim_concat u (c := '\uFFFD') (by decide)
  refine readLine_notJson.2 ⟨by rw [htrim]; exact List.concat_ne_nil _ _, ?_⟩
  rw [htrim]
  by_cases hu : u.dropWhile Js.isSpace = []
  · rw [hu]; rfl
  rw [Lines.dropWhile_append_of_ne_nil hu] at hr
  obtain ⟨c, w, hw⟩ := List.exists_cons_of_ne_nil hu
  rw [hw, List.cons_append, List.cons.injEq] at hr
  rw [hw, hr.1, List.cons_append]
  cases hp : Json.parse ('{' :: (w ++ ['\uFFFD'])) with
  | none => rfl
  | some x =>
    obtain ⟨-, s, r', hs, hm, hr'⟩ := Json.parse_brace hp
    exfalso
    cases r' using List.reverseRecOn with
    | nil =>
      rw [List.append_nil] at hs
      exact (hs ▸ hm : Json.Moves (-1) (w ++ ['\uFFFD'])).last (by decide) (by decide)
    | append_singleton r' c' =>
      rw [← List.append_assoc] at hs
      have hc : '\uFFFD' = c' := (List.append_inj' hs rfl).2 |> List.cons.inj |> And.left
      have hws := List.dropWhile_eq_nil_iff.1 hr' c' (List.mem_append_right _ List.mem_cons_self)
      rw [← hc] at hws
      revert hws; decide

/-- What a prefix of the bytes of an entry reads as. -/
theorem readLine_cut {line : List Char} {p q : List UInt8} (hl : '\n' ∉ line) (h : (readLine line).IsEntry)
    (hp : p ++ q = Utf8.encode line) : '\n' ∉ Utf8.decode p ∧ (readLine (Utf8.decode p) = .notJson ∨
      (p = Utf8.encode (Utf8.decode p) ∧
        (readLine (Utf8.decode p) = .blank ∨ readLine (Utf8.decode p) = readLine line))) := by
  obtain ⟨u, v, rfl, rfl | hu⟩ := Utf8.encode_cut hp.symm
  · rw [Utf8.decode_encode]
    refine ⟨fun hn => hl (List.mem_append_left _ hn), ?_⟩
    rcases readLine_prefix h with hr | hr | hr
    · exact .inr ⟨rfl, .inl hr⟩
    · exact .inl hr
    · exact .inr ⟨rfl, .inr hr⟩
  · rw [hu]
    refine ⟨fun hn => ?_, .inl (readLine_replacement h)⟩
    rcases List.mem_append.1 hn with hn | hn
    · exact hl (List.mem_append_left _ hn)
    · revert hn; decide

/-! ## Records and their lines -/

theorem isCount_iff {v : Option Json} : isCount v = true ↔ ∃ d, v = some (.num d) ∧ d.isInteger = true ∧ d.neg = false := by
  unfold isCount
  split
  · rename_i d
    simp
  · rename_i h
    exact ⟨nofun, fun ⟨d, hd, _⟩ => absurd hd (h d)⟩

theorem isCanonicalProp_iff {v : Option Json} :
    isCanonicalProp v = true ↔ ∃ s, v = some (.str s) ∧ Field.isCanonical s.toList = true := by
  unfold isCanonicalProp
  cases v with
  | none => exact ⟨nofun, fun ⟨s, hs, _⟩ => nomatch hs⟩
  | some j =>
    cases j with
    | str s => simp [Field.isCanonicalField]
    | _ => exact ⟨nofun, fun ⟨s, hs, _⟩ => nomatch hs⟩

theorem find_noncanonical {rec : Json} :
    ["contextHash", "regNullifier", "commitment"].find? (fun f => !isCanonicalProp (rec.field f)) = none ↔
      isCanonicalProp (rec.field "contextHash") = true ∧ isCanonicalProp (rec.field "regNullifier") = true ∧
        isCanonicalProp (rec.field "commitment") = true := by
  simp [List.find?_eq_none]

/-- A record without a problem is usable, whatever else is in it. -/
theorem usable_recordOf {rec : Json} (h : registrationRecordProblem rec = none) : Usable (recordOf rec) := by
  cases rec with
  | obj m =>
    rw [registrationRecordProblem] at h
    split at h
    · cases h
    rename_i hseason
    rw [Bool.not_eq_true', Bool.not_eq_false] at hseason
    split at h
    · cases h
    rename_i hfields
    split at h
    · cases h
    split at h
    · cases h
    rename_i hdeclared
    obtain ⟨hc, hn, hm⟩ := find_noncanonical.1 hfields
    obtain ⟨d, hd, hint, hneg⟩ := isCount_iff.1 hseason
    obtain ⟨c, hc, hcc⟩ := isCanonicalProp_iff.1 hc
    obtain ⟨n, hn, hnc⟩ := isCanonicalProp_iff.1 hn
    obtain ⟨x, hm, hmc⟩ := isCanonicalProp_iff.1 hm
    refine ⟨⟨d, by rw [recordOf, hd]; rfl, hint, hneg⟩, ?_, ?_, ?_, ?_⟩
    · rw [recordOf, hc]; exact hcc
    · rw [recordOf, hn]; exact hnc
    · rw [recordOf, hm]; exact hmc
    · rw [recordOf]
      cases he : Json.field "engine" (.obj m) with
      | none =>
        cases hs : Json.field "statement" (.obj m) with
        | none => exact .inl ⟨rfl, rfl⟩
        | some s =>
          rw [he, hs] at hdeclared
          simp [textProp, isValidEngineStatement] at hdeclared
      | some e =>
        rw [he] at hdeclared
        refine .inr ?_
        simpa using hdeclared
  | _ => cases h

theorem usable_of_readLine {l : List Char} {r : Record} (h : readLine l = .record r) : Usable r := by
  unfold readLine at h
  dsimp only at h
  split at h
  · cases h
  · cases hp : Json.parse (Js.trim l) with
    | none => rw [hp] at h; cases h
    | some rec =>
      rw [hp] at h
      dsimp only at h
      rcases lineOf_cases rec with ⟨_, h'⟩ | ⟨_, h'⟩ | ⟨h', hok⟩ <;> rw [h'] at h <;> cases h
      exact usable_recordOf hok

theorem trim_stringify (m : List (String × Json)) : Js.trim (Json.obj m).stringify = (Json.obj m).stringify := by
  obtain ⟨t, ht, hm⟩ := Json.moves_object m
  rw [ht]
  cases t using List.reverseRecOn with
  | nil => exact absurd (hm 0).1 (by decide)
  | append_singleton t c =>
    have hc : Js.isSpace c = false := Bool.eq_false_iff.2 fun hs => hm.last (by decide) (plain_of_isSpace hs)
    exact Lines.trim_between t (by decide) hc

/-- What the line of a written object is. -/
theorem readLine_stringify (m : List (String × Json)) : readLine (Json.obj m).stringify = lineOf (.obj m) := by
  obtain ⟨t, ht, -⟩ := Json.moves_object m
  have hne : (Json.obj m).stringify ≠ [] := by rw [ht]; exact List.cons_ne_nil _ _
  simp only [readLine, trim_stringify, hne, if_false, Json.parse_stringify]

theorem readLine_headerText (schedule : String) : readLine (headerText schedule) = .header schedule.toList := by
  rw [headerText, readLine_stringify, lineOf, if_pos (by rfl)]
  rfl

theorem isCount_ofNat (n : Nat) : isCount (some (.num (.ofNat n))) = true := by
  refine isCount_iff.2 ⟨_, rfl, Js.Dec.isInteger_ofNat n, ?_⟩
  rw [Js.Dec.ofNat, Js.Dec.make]
  split <;> rfl

/-- The line that an append writes is read as its record. -/
theorem readLine_recordText {r : Record} (h : Usable r) : readLine (recordText r) = .record r := by
  obtain ⟨⟨d, hd, hint, hneg⟩, hc, hn, hm, hdecl⟩ := h
  obtain ⟨season, c, n, x, e, s, i⟩ := r
  dsimp only at hd hc hn hm hdecl
  subst hd
  have hseason : isCount (some (.num d)) = true := isCount_iff.2 ⟨d, rfl, hint, hneg⟩
  have hcanon : ∀ {t : String}, Field.isCanonical t.toList = true → isCanonicalProp (some (.str t)) = true := fun h =>
    isCanonicalProp_iff.2 ⟨_, rfl, h⟩
  have hi := isCount_ofNat i
  rcases hdecl with ⟨rfl, rfl⟩ | hv
  · rw [recordText, readLine_stringify]
    simp [lineOf, Json.field, Json.isText, registrationRecordProblem, recordOf, textProp, Js.Num.toJson, Json.numberOf, hseason,
      hcanon hc, hcanon hn, hcanon hm, hi]
  · obtain ⟨e, rfl⟩ : ∃ e', e = some e' := by cases e with
      | none => cases hv
      | some e => exact ⟨e, rfl⟩
    obtain ⟨s, rfl⟩ : ∃ s', s = some s' := by cases s with
      | none => cases hv
      | some s => exact ⟨s, rfl⟩
    rw [recordText, readLine_stringify]
    simp [lineOf, Json.field, Json.isText, registrationRecordProblem, recordOf, textProp, Js.Num.toJson, Json.numberOf, hseason,
      hcanon hc, hcanon hn, hcanon hm, hi, hv]

/-! ## Complete lines -/

/-- The record of a line, if it is one. -/
def Line.record? : Line → Option Record
  | .record r => some r
  | _ => none

def Line.isHeader : Line → Bool
  | .header _ => true
  | _ => false

def recordsOf (ls : List (List Char)) : List Record := ls.filterMap fun l => (readLine l).record?

def headed (ls : List (List Char)) : Bool := ls.any fun l => (readLine l).isHeader

/-- A line that the store reads: a blank line, a header of its schedule, or a record. -/
structure Valid (cfg : Config) (l : List Char) : Prop where
  one : '\n' ∉ l
  reads : readLine l = .blank ∨ (∃ s, readLine l = .header s ∧ ∀ schedule ∈ cfg.schedule, s = schedule.toList) ∨
    ∃ r, readLine l = .record r

@[simp] theorem recordsOf_append (ls ls' : List (List Char)) : recordsOf (ls ++ ls') = recordsOf ls ++ recordsOf ls' :=
  List.filterMap_append

@[simp] theorem headed_append (ls ls' : List (List Char)) : headed (ls ++ ls') = (headed ls || headed ls') := List.any_append

theorem usable_recordsOf (ls : List (List Char)) : ∀ r ∈ recordsOf ls, Usable r := by
  intro r hr
  obtain ⟨l, -, hl⟩ := List.mem_filterMap.1 hr
  refine usable_of_readLine (l := l) ?_
  cases h : readLine l with
  | record r' =>
    rw [h] at hl
    cases hl
    rfl
  | _ => rw [h] at hl; cases hl

/-- The loop over valid lines puts their records into the index. -/
theorem scan_valid {cfg : Config} {u : Bool} {rest : List (List Char)} {s' : Scan} {ls : List (List Char)}
    (hls : ∀ l ∈ ls, Valid cfg l) {done : List (List Char)} {s : Scan} : scan cfg u done (ls ++ rest) s = .ok s' ↔
      AgreesAll s.index (recordsOf ls) ∧
        scan cfg u (done ++ ls) rest ⟨(recordsOf ls).foldl put s.index, s.seenHeader || headed ls, s.truncateTo⟩ = .ok s' := by
  induction ls generalizing done s with
  | nil =>
    simp only [List.nil_append, List.append_nil, recordsOf, List.filterMap_nil, List.foldl_nil, headed, List.any_nil,
      Bool.or_false, AgreesAll, true_and]
  | cons l ls ih =>
    have ih := @ih fun l' hl' => hls l' (List.mem_cons_of_mem _ hl')
    rw [List.append_cons done l ls]
    rcases (hls l List.mem_cons_self).reads with hl | ⟨found, hl, hfound⟩ | ⟨r, hl⟩
    · rw [List.cons_append, scan, if_neg (by simp [hl]), hl]
      simp only [takeLine, Js.bind_eq_ok, Except.ok.injEq, exists_eq_left', ih, recordsOf, headed, List.filterMap_cons, hl,
        Line.record?, List.any_cons, Line.isHeader, Bool.false_or]
    · have hany : (cfg.schedule.any fun schedule => decide (found ≠ schedule.toList)) = false := by
        cases hs : cfg.schedule with
        | none => rfl
        | some schedule => simpa using hfound schedule hs
      rw [List.cons_append, scan, if_neg (by simp [hl]), hl]
      simp only [takeLine, hany, Bool.false_eq_true, if_false, Js.bind_eq_ok, Except.ok.injEq, exists_eq_left', ih, recordsOf,
        headed, List.filterMap_cons, hl, Line.record?, List.any_cons, Line.isHeader, Bool.true_or, Bool.or_true]
    · rw [List.cons_append, scan, if_neg (by simp [hl]), hl]
      simp only [takeLine, Js.bind_eq_ok, Except.ok.injEq, addRecord_ok, recordsOf, headed, List.filterMap_cons, hl,
        Line.record?, List.any_cons, Line.isHeader, Bool.false_or, AgreesAll, List.foldl_cons]
      constructor
      · rintro ⟨s₁, ⟨ix, ⟨ha, rfl⟩, rfl⟩, h⟩
        obtain ⟨h1, h2⟩ := ih.1 h
        exact ⟨⟨ha, h1⟩, h2⟩
      · rintro ⟨⟨ha, h1⟩, h2⟩
        exact ⟨_, ⟨_, ⟨ha, rfl⟩, rfl⟩, ih.2 ⟨h1, h2⟩⟩

/-- The cut point is where the complete lines end. -/
theorem offset_eq (ls : List (List Char)) : offset ls = (Utf8.encode (Lines.text ls)).length := by
  rw [offset]
  cases ls with
  | nil => rfl
  | cons l ls =>
    have hne := List.cons_ne_nil l ls
    rw [if_pos (List.length_pos_of_ne_nil hne), ← Lines.intercalate_append hne, Utf8.encode_append, List.length_append]
    rfl

/-! ## A torn file -/

/-- The lines that a load keeps of complete lines and the bytes after them. -/
def kept (ls : List (List Char)) (p : List UInt8) : List (List Char) :=
  if p = [] ∨ readLine (Utf8.decode p) = .notJson then ls else ls ++ [Utf8.decode p]

theorem load_of_scan {cfg : Config} {file : Option (List UInt8)} {raw : List Char} {ls t : List (List Char)}
    {n : Option Nat} (hraw : Utf8.decode (file.getD []) = raw) (hsplit : raw.splitOn '\n' = ls ++ t)
    (hls : ∀ l ∈ ls, Valid cfg l) (hrest : ∀ ix h,
      scan cfg (decide (raw.getLast? ≠ some '\n')) ls t ⟨ix, h, none⟩ = .ok ⟨ix, h, n⟩) :
    (AgreesAll {} (recordsOf ls) → load cfg file =
      stamp cfg (repair raw file ⟨(recordsOf ls).foldl put {}, headed ls, n⟩) n.isSome
        (terminates raw ⟨(recordsOf ls).foldl put {}, headed ls, n⟩) ((recordsOf ls).foldl put {}) (headed ls)) ∧
    (¬ AgreesAll {} (recordsOf ls) → ∃ e, (load cfg file).result = .error e) := by
  have hscan : ∀ {s'}, scan cfg (decide (raw.getLast? ≠ some '\n')) [] (ls ++ t) {} = .ok s' ↔
      AgreesAll {} (recordsOf ls) ∧ (⟨(recordsOf ls).foldl put {}, headed ls, n⟩ : Scan) = s' := by
    intro s'
    rw [scan_valid hls, List.nil_append, hrest, Except.ok.injEq, Bool.false_or]
  unfold load
  dsimp only
  rw [hraw, hsplit]
  constructor
  · intro ha
    rw [hscan.2 ⟨ha, rfl⟩]
  · intro ha
    cases h : scan cfg (decide (raw.getLast? ≠ some '\n')) [] (ls ++ t) {} with
    | error e => exact ⟨e, rfl⟩
    | ok s' => exact absurd (hscan.1 h).1 ha

theorem repair_none {raw : List Char} (h : raw = [] ∨ raw.getLast? = some '\n') (file : Option (List UInt8)) (ix : Index)
    (seen : Bool) : repair raw file ⟨ix, seen, none⟩ = file ∧ terminates raw ⟨ix, seen, none⟩ = false := by
  have ht : terminates raw ⟨ix, seen, none⟩ = false := by
    rcases h with h | h <;> simp [terminates, h]
  exact ⟨by simp [repair, ht], ht⟩

theorem getLast?_tail {ls : List (List Char)} {t : List Char} (h : t ≠ []) (ht : '\n' ∉ t) :
    (Lines.text ls ++ t).getLast? ≠ some '\n' := by
  rw [List.getLast?_append_of_ne_nil _ h]
  exact fun hl => ht (List.mem_of_getLast? hl)

/-- Of complete lines and the bytes of a part of a line, a load keeps `kept`. -/
theorem load_kept {cfg : Config} {file : Option (List UInt8)} {ls : List (List Char)} {p : List UInt8}
    (hls : ∀ l ∈ ls, Valid cfg l) (hp : '\n' ∉ Utf8.decode p)
    (hpart : readLine (Utf8.decode p) = .notJson ∨ (p = Utf8.encode (Utf8.decode p) ∧ Valid cfg (Utf8.decode p)))
    (hfile : file.getD [] = Utf8.encode (Lines.text ls) ++ p) :
    ∃ file' discarded terminated, file'.getD [] = Utf8.encode (Lines.text (kept ls p)) ∧
      (p = [] → file' = file ∧ discarded = false ∧ terminated = false) ∧
      (AgreesAll {} (recordsOf (kept ls p)) → load cfg file = stamp cfg file' discarded terminated
        ((recordsOf (kept ls p)).foldl put {}) (headed (kept ls p))) ∧
      (¬ AgreesAll {} (recordsOf (kept ls p)) → ∃ e, (load cfg file).result = .error e) := by
  have hraw : Utf8.decode (file.getD []) = Lines.text ls ++ Utf8.decode p := by rw [hfile, Utf8.decode_encode_append]
  have hsplit := Lines.splitOn_text (fun l hl => (hls l hl).one) hp
  by_cases h0 : p = []
  · -- The file ends on a line boundary.
    subst h0
    have hk : kept ls [] = ls := if_pos (.inl rfl)
    have hend : Lines.text ls ++ Utf8.decode [] = [] ∨ (Lines.text ls ++ Utf8.decode []).getLast? = some '\n' := by
      rw [show Utf8.decode [] = [] from rfl, List.append_nil]
      by_cases hn : ls = []
      · exact .inl (Lines.text_eq_nil.2 hn)
      · exact .inr (Lines.getLast?_text hn)
    obtain ⟨h1, h2⟩ := load_of_scan (n := none) hraw hsplit hls fun ix h => by
      rw [scan, if_neg fun h => nomatch h.1]
      rfl
    rw [hk]
    refine ⟨file, false, false, by rw [hfile, List.append_nil], fun _ => ⟨rfl, rfl, rfl⟩, fun ha => ?_, h2⟩
    rw [h1 ha, (repair_none hend file _ _).1, (repair_none hend file _ _).2]
    rfl
  obtain ⟨b, rfl⟩ : ∃ b, file = some b := by
    cases file with
    | none => exact absurd (List.append_eq_nil_iff.1 hfile.symm).2 h0
    | some b => exact ⟨b, rfl⟩
  rw [Option.getD_some] at hfile
  rcases hpart with hn | ⟨henc, hv⟩
  · -- The part of the line is torn, and the file is cut where it begins.
    have hk : kept ls p = ls := if_pos (.inr hn)
    have hne : Utf8.decode p ≠ [] := fun h => (readLine_notJson.1 hn).1 (by rw [h]; rfl)
    obtain ⟨h1, h2⟩ := load_of_scan (n := some (offset ls)) hraw hsplit hls fun ix h => by
      rw [scan, if_pos ⟨hn, decide_eq_true (getLast?_tail hne hp), nofun⟩]
    rw [hk]
    refine ⟨some (truncate (offset ls) b), true, false, ?_, fun h => absurd h h0, h1, h2⟩
    rw [Option.getD_some, truncate, offset_eq, hfile, List.take_left' rfl, List.length_append, Nat.sub_eq_zero_of_le (by omega)]
    exact List.append_nil _
  · -- The part of the line is whole, and its line break is added.
    by_cases hn : readLine (Utf8.decode p) = .notJson
    · rcases hv.reads with hr | ⟨_, hr, -⟩ | ⟨_, hr⟩ <;> rw [hr] at hn <;> cases hn
    have hk : kept ls p = ls ++ [Utf8.decode p] := if_neg fun h => h.elim h0 hn
    have hne : Utf8.decode p ≠ [] := fun h => h0 (by rw [henc, h]; rfl)
    have hlast : (Lines.text ls ++ Utf8.decode p).getLast? ≠ some '\n' := getLast?_tail hne hp
    have hvk : ∀ l ∈ ls ++ [Utf8.decode p], Valid cfg l := List.forall_mem_append.2 ⟨hls, List.forall_mem_singleton.2 hv⟩
    obtain ⟨h1, h2⟩ := load_of_scan (n := none) (t := []) hraw (by rw [hsplit, List.append_nil]) hvk fun ix h => rfl
    have hterm : ∀ ix h, terminates (Lines.text ls ++ Utf8.decode p) ⟨ix, h, none⟩ = true := by
      intro ix h
      rw [terminates, decide_eq_true hlast, Bool.and_true, Bool.and_eq_true, Bool.not_eq_true', List.isEmpty_eq_false_iff]
      exact ⟨rfl, fun h => hne (List.append_eq_nil_iff.1 h).2⟩
    rw [hk]
    refine ⟨appendText (some b) ['\n'], false, true, ?_, fun h => absurd h h0, fun ha => ?_, h2⟩
    · rw [appendText, Option.getD_some, Option.getD_some, hfile, Lines.text_append, Lines.text_singleton,
        Utf8.encode_append, Utf8.encode_append, ← henc, List.append_assoc]
    · rw [h1 ha, hterm, repair, hterm]
      rfl

/-! ## The header and the result -/

/-- The header that a load adds. -/
def stampLines (cfg : Config) (ls : List (List Char)) : List (List Char) :=
  match cfg.schedule with
  | none => []
  | some schedule => if headed ls then [] else [headerText schedule]

theorem valid_stampLines (cfg : Config) (ls : List (List Char)) : ∀ l ∈ stampLines cfg ls, Valid cfg l := by
  intro l hl
  unfold stampLines at hl
  split at hl
  · cases hl
  · rename_i schedule hs
    split at hl
    · cases hl
    · rw [List.mem_singleton.1 hl]
      refine ⟨Json.newline_notMem_stringify _, .inr (.inl ⟨_, readLine_headerText schedule, fun schedule' h' => ?_⟩)⟩
      rw [hs] at h'
      cases h'
      rfl

@[simp] theorem recordsOf_stampLines (cfg : Config) (ls : List (List Char)) : recordsOf (stampLines cfg ls) = [] := by
  unfold stampLines
  split
  · rfl
  · split
    · rfl
    · rw [recordsOf, List.filterMap_cons, readLine_headerText]
      rfl

theorem headed_stampLines (cfg : Config) (ls : List (List Char)) :
    headed (ls ++ stampLines cfg ls) = true ∨ cfg.schedule = none := by
  unfold stampLines
  split
  · rename_i h; exact .inr h
  · refine .inl ?_
    split
    · rename_i h
      rw [List.append_nil, h]
    · rw [headed_append, headed, headed, List.any_cons, readLine_headerText]
      exact Bool.or_true _

/-- The header of the schedule is there, or nothing speaks against adding it. -/
def Stampable (cfg : Config) (ls : List (List Char)) : Prop :=
  headed ls = true ∨ cfg.schedule = none ∨ recordsOf ls = [] ∨ cfg.assumeSchedule = true

theorem seen_isEmpty {ix : Index} {rs : List Record} (h : Holds ix rs) : ix.seen.isEmpty = true ↔ rs = [] := by
  rw [List.isEmpty_iff]
  constructor
  · intro hs
    refine List.eq_nil_iff_forall_not_mem.2 fun r hr => ?_
    have hk := (h.has r.key).2 ⟨r, hr, rfl⟩
    rw [Index.has, hs] at hk
    cases hk
  · rintro rfl
    refine List.eq_nil_iff_forall_not_mem.2 fun k hk => ?_
    obtain ⟨r, hr, -⟩ := (h.has k).1 (by rw [Index.has, List.contains_eq_mem]; exact decide_eq_true hk)
    cases hr

/-- What a load gives once the file ends on a line boundary. -/
theorem stamp_ok {cfg : Config} {file : Option (List UInt8)} {discarded terminated : Bool} {ls : List (List Char)}
    {ix ix' : Index} (hix : Holds ix (recordsOf ls)) :
    (stamp cfg file discarded terminated ix (headed ls)).result = .ok ix' ↔
      Stampable cfg ls ∧ (∀ r ∈ latest (recordsOf ls), r.index ≤ (latestIn (recordsOf ls) r.bucket).length) ∧
        sorted ix = ix' := by
  rw [← fits_iff hix, ← sortIndex_ok, Stampable]
  unfold stamp
  cases hs : cfg.schedule with
  | none => exact ⟨fun h => ⟨.inr (.inl rfl), h⟩, And.right⟩
  | some schedule =>
    dsimp only
    by_cases hh : headed ls = true
    · rw [if_pos hh]
      exact ⟨fun h => ⟨.inl hh, h⟩, And.right⟩
    rw [if_neg hh]
    by_cases hr : (!ix.seen.isEmpty && !cfg.assumeSchedule) = true
    · rw [if_pos hr]
      rw [Bool.and_eq_true, Bool.not_eq_true', Bool.not_eq_true'] at hr
      refine ⟨nofun, fun h => ?_⟩
      rcases h.1 with h | h | h | h
      · exact absurd h hh
      · cases h
      · rw [(seen_isEmpty hix).2 h] at hr; exact nomatch hr.1
      · rw [h] at hr; exact nomatch hr.2
    · rw [if_neg hr]
      refine ⟨fun h => ⟨.inr (.inr ?_), h⟩, And.right⟩
      by_cases he : ix.seen.isEmpty = true
      · exact .inl ((seen_isEmpty hix).1 he)
      · refine .inr ?_
        rw [Bool.not_eq_true] at he
        simpa [he] using hr

theorem stamp_file {cfg : Config} {file : Option (List UInt8)} {discarded terminated : Bool} {ls : List (List Char)}
    {ix ix' : Index} (h : (stamp cfg file discarded terminated ix (headed ls)).result = .ok ix')
    (hfile : file.getD [] = Utf8.encode (Lines.text ls)) :
    (stamp cfg file discarded terminated ix (headed ls)).file.getD [] =
      Utf8.encode (Lines.text (ls ++ stampLines cfg ls)) := by
  unfold stamp stampLines at *
  cases hs : cfg.schedule with
  | none => simpa [hs] using hfile
  | some schedule =>
    rw [hs] at h
    dsimp only at h ⊢
    by_cases hh : headed ls = true
    · simpa [if_pos hh] using hfile
    rw [if_neg hh] at h ⊢
    by_cases hr : (!ix.seen.isEmpty && !cfg.assumeSchedule) = true
    · rw [if_pos hr] at h; cases h
    · rw [if_neg hr, if_neg hh, appendText, Option.getD_some, hfile, Lines.text_append, Lines.text_singleton,
        Utf8.encode_append (Lines.text ls)]

/-! ## A store after its load -/

/-- The file of a store is complete lines with a header, and the index is of their records. -/
structure Stands (cfg : Config) (st : Store) (ls : List (List Char)) : Prop where
  valid : ∀ l ∈ ls, Valid cfg l
  file : st.file.getD [] = Utf8.encode (Lines.text ls)
  header : headed ls = true ∨ cfg.schedule = none
  coherent : Coherent (recordsOf ls)
  index : st.index = sorted ((recordsOf ls).foldl put {})

theorem holds_recordsOf (ls : List (List Char)) : Holds ((recordsOf ls).foldl put {}) (recordsOf ls) :=
  holds_foldl holds_empty nofun (usable_recordsOf ls)

theorem agreesAll_recordsOf (ls : List (List Char)) : AgreesAll {} (recordsOf ls) ↔ Compatible (recordsOf ls) :=
  agreesAll_iff holds_empty ⟨nofun, nofun⟩ nofun (usable_recordsOf ls)

/-- A reload gives the index of the store and leaves the file. -/
theorem stands_load {cfg : Config} {st : Store} {ls : List (List Char)} (h : Stands cfg st ls) :
    load cfg st.file = ⟨st.file, false, false, .ok st.index⟩ := by
  obtain ⟨file', d, t, -, hsame, hload, -⟩ := load_kept (p := []) h.valid (by decide)
    (.inr ⟨rfl, by decide, .inl (readLine_blank.2 rfl)⟩) (by rw [h.file, List.append_nil])
  obtain ⟨rfl, rfl, rfl⟩ := hsame rfl
  have hk : kept ls [] = ls := if_pos (.inl rfl)
  rw [hk] at hload
  rw [hload ((agreesAll_recordsOf ls).2 h.coherent.toCompatible)]
  have hres : sortIndex ((recordsOf ls).foldl put {}) = .ok st.index := by
    rw [h.index]
    exact sortIndex_ok.2 ⟨(fits_iff (holds_recordsOf ls)).2 h.coherent.fits, rfl⟩
  unfold stamp
  rcases h.header with hh | hh
  · cases cfg.schedule with
    | none => rw [← hres]
    | some schedule =>
      dsimp only
      rw [if_pos hh, hres]
  · rw [hh, ← hres]

/-- What a load that succeeds leaves behind. -/
theorem load_stands {cfg : Config} {file : Option (List UInt8)} {ls : List (List Char)} {p : List UInt8}
    (hls : ∀ l ∈ ls, Valid cfg l) (hp : '\n' ∉ Utf8.decode p)
    (hpart : readLine (Utf8.decode p) = .notJson ∨ (p = Utf8.encode (Utf8.decode p) ∧ Valid cfg (Utf8.decode p)))
    (hfile : file.getD [] = Utf8.encode (Lines.text ls) ++ p) :
    ((∃ ix, (load cfg file).result = .ok ix) ↔ Coherent (recordsOf (kept ls p)) ∧ Stampable cfg (kept ls p)) ∧
      ∀ ix, (load cfg file).result = .ok ix →
        Stands cfg ⟨(load cfg file).file, ix⟩ (kept ls p ++ stampLines cfg (kept ls p)) := by
  have hvk : ∀ l ∈ kept ls p, Valid cfg l := by
    unfold kept
    split
    · exact hls
    · rename_i h
      refine List.forall_mem_append.2 ⟨hls, List.forall_mem_singleton.2 ?_⟩
      rcases hpart with hn | hn
      · exact absurd (.inr hn) h
      · exact hn.2
  obtain ⟨file', d, t, hfile', -, hok, herr⟩ := load_kept hls hp hpart hfile
  generalize kept ls p = k at *
  have hix := holds_recordsOf k
  by_cases ha : AgreesAll {} (recordsOf k)
  · rw [hok ha]
    have hc := (agreesAll_recordsOf k).1 ha
    refine ⟨⟨fun ⟨ix, h⟩ => ?_, fun ⟨hcoh, hst⟩ => ⟨_, (stamp_ok hix).2 ⟨hst, hcoh.fits, rfl⟩⟩⟩, fun ix h => ?_⟩
    · obtain ⟨hst, hfits, -⟩ := (stamp_ok hix).1 h
      exact ⟨⟨hc, hfits⟩, hst⟩
    · obtain ⟨-, hfits, rfl⟩ := (stamp_ok hix).1 h
      refine ⟨List.forall_mem_append.2 ⟨hvk, valid_stampLines cfg k⟩, stamp_file h hfile', headed_stampLines cfg k, ?_, ?_⟩
      · rw [recordsOf_append, recordsOf_stampLines, List.append_nil]
        exact ⟨hc, hfits⟩
      · rw [recordsOf_append, recordsOf_stampLines, List.append_nil]
  · obtain ⟨e, he⟩ := herr ha
    rw [he]
    exact ⟨⟨fun ⟨ix, h⟩ => (nomatch h), fun h => absurd ((agreesAll_recordsOf k).2 h.1.toCompatible) ha⟩, nofun⟩

theorem usable_record {d : Draft} (hd : d.Checked) {n : Nat} (hn : d.season = .dec (.ofNat n)) (i : Nat) :
    Usable (d.record i) := by
  refine ⟨⟨_, hn, Js.Dec.isInteger_ofNat n, ?_⟩, hd.contextHash, hd.regNullifier, hd.commitment, .inr hd.declared⟩
  rw [Js.Dec.ofNat, Js.Dec.make]
  split <;> rfl

/-- A record with a new key, the declaration of its bucket and the next index fits. -/
theorem coherent_concat {ix : Index} {rs : List Record} {r : Record} (h : Holds ix rs) (hrs : ∀ q ∈ rs, Usable q)
    (hc : Coherent rs) (hk : ix.has r.key = false) (hi : r.index = (ix.records r.bucket).length)
    (hd : ∀ q ∈ ix.records r.bucket, q.declaration = r.declaration) : Coherent (rs ++ [r]) := by
  have hnew : ∀ q ∈ rs, q.key ≠ r.key := fun q hq hqk => by rw [(h.has _).2 ⟨q, hq, hqk⟩] at hk; cases hk
  have hlen : ∀ b, (latestIn rs b).length ≤ (latestIn (rs ++ [r]) b).length := by
    intro b
    rw [latestIn_concat, List.filter_eq_self.2 fun q hq =>
      decide_eq_true (hnew q (mem_of_latest (mem_latestIn.1 hq).1)), List.length_append]
    exact Nat.le_add_right _ _
  refine ⟨compatible_concat.2 ⟨hc.toCompatible, fun q hq => ⟨fun hqk => absurd hqk (hnew q hq), fun hqb => ?_⟩⟩,
    fun q hq => ?_⟩
  · obtain ⟨p, hp, hpk⟩ := exists_latest hq
    have hpb : p.bucket = q.bucket := bucket_of_key (hrs p (mem_of_latest hp)) (hrs q hq) hpk
    rw [← hd p ((mem_records h).2 ⟨hp, hpb.trans hqb⟩)]
    exact hc.declared q hq p (mem_of_latest hp) hpb.symm
  · rw [latest_concat] at hq
    rcases List.mem_append.1 hq with hq | hq
    · exact (hc.fits q (List.mem_filter.1 hq).1).trans (hlen _)
    · rw [List.mem_singleton.1 hq, hi, (h.records r.bucket).length_eq]
      exact hlen _

/-- An append writes the line of its record, or nothing. -/
theorem stands_append {cfg : Config} {st : Store} {ls : List (List Char)} (h : Stands cfg st ls) {d : Draft} (hd : d.Checked)
    {n : Nat} (hn : d.season = .dec (.ofNat n)) :
    ((append st d).1 = st ∧ ∀ i, (append st d).2 ≠ .stored i) ∨
      ∃ i, (append st d).2 = .stored i ∧ Stands cfg (append st d).1 (ls ++ [recordText (d.record i)]) := by
  have hix := holds_recordsOf ls
  unfold append
  cases hdec : st.index.decideAppend d with
  | answer a =>
    refine .inl ⟨rfl, fun i hi => ?_⟩
    dsimp only at hi
    subst hi
    exact Index.decideAppend_answer hdec
  | write r =>
    obtain ⟨rfl, hk, hhead⟩ := Index.decideAppend_write hdec
    refine .inr ⟨(st.index.records d.bucket).length, rfl, ?_⟩
    dsimp only
    -- The index of the store is the one of the loop, with its buckets in order.
    have hrec : ∀ q, q ∈ st.index.records d.bucket ↔ q ∈ ((recordsOf ls).foldl put {}).records d.bucket := by
      intro q
      rw [h.index, records_sorted, mem_byIndex]
    have hlen : (st.index.records d.bucket).length = (((recordsOf ls).foldl put {}).records d.bucket).length := by
      rw [h.index, records_sorted, length_byIndex]
    have hk' : ((recordsOf ls).foldl put {}).has d.key = false := by rwa [h.index, has_sorted] at hk
    have hr := usable_record hd hn (st.index.records d.bucket).length
    have hrl := readLine_recordText hr
    have hrs : recordsOf (ls ++ [recordText (d.record (st.index.records d.bucket).length)]) =
        recordsOf ls ++ [d.record (st.index.records d.bucket).length] := by
      rw [recordsOf_append, recordsOf, recordsOf, List.filterMap_cons, hrl]
      rfl
    have hdecl : ∀ q ∈ ((recordsOf ls).foldl put {}).records d.bucket, q.declaration = d.declaration := by
      intro q hq
      obtain ⟨p, l, hpl⟩ := List.exists_cons_of_ne_nil (List.ne_nil_of_mem ((hrec q).2 hq))
      have hp := (hrec p).1 (hpl ▸ List.mem_cons_self)
      rw [← hhead p (by rw [hpl]; rfl)]
      have hq := (mem_records hix).1 hq
      have hp := (mem_records hix).1 hp
      exact h.coherent.declared q (mem_of_latest hq.1) p (mem_of_latest hp.1) (hq.2.trans hp.2.symm)
    refine ⟨List.forall_mem_append.2 ⟨h.valid, List.forall_mem_singleton.2
      ⟨Json.newline_notMem_stringify _, .inr (.inr ⟨_, hrl⟩)⟩⟩, ?_, ?_, ?_, ?_⟩
    · rw [appendText, Option.getD_some, h.file, Lines.text_append, Lines.text_singleton, Utf8.encode_append (Lines.text ls)]
    · exact h.header.imp_left fun hh => by rw [headed_append, hh]; rfl
    · rw [hrs]
      exact coherent_concat hix (usable_recordsOf ls) h.coherent hk' hlen hdecl
    · rw [hrs, List.foldl_concat, put, Draft.record_key, hk', if_neg Bool.false_ne_true, sorted_remember ?_, h.index]
      intro q hq
      rw [Draft.record_bucket] at hq
      have hm := (mem_records hix).1 hq
      have hle := h.coherent.fits q hm.1
      rw [hm.2, ← (hix.records d.bucket).length_eq, ← hlen] at hle
      exact hle

/-! ## Runs -/

/-- The index has the last record of each key, in the order of their indexes. -/
structure Yields (ix : Index) (rs : List Record) : Prop where
  has : ∀ k, ix.has k = true ↔ ∃ r ∈ rs, r.key = k
  records : ∀ b, (ix.records b).Perm (latestIn rs b)
  ordered : ∀ b, (ix.records b).Pairwise fun q r => q.index ≤ r.index

theorem Stands.yields {cfg : Config} {st : Store} {ls : List (List Char)} (h : Stands cfg st ls) :
    Yields st.index (recordsOf ls) := by
  have hix := holds_recordsOf ls
  rw [h.index]
  refine ⟨hix.has, fun b => ?_, fun b => ?_⟩
  · rw [records_sorted]
    exact (List.perm_insertionSort _ _).trans (hix.records b)
  · rw [records_sorted]
    exact byIndex_sorted _

theorem stands_appendAll {cfg : Config} {ds : List Draft} {st : Store} {ls : List (List Char)} (h : Stands cfg st ls)
    (hds : ∀ d ∈ ds, d.Checked ∧ ∃ n, d.season = .dec (.ofNat n)) :
    ∃ ls', Stands cfg (appendAll st ds).1 ls' ∧ recordsOf ls' = recordsOf ls ++ (appendAll st ds).2 := by
  induction ds generalizing st ls with
  | nil => exact ⟨ls, h, (List.append_nil _).symm⟩
  | cons d ds ih =>
    obtain ⟨⟨hd, n, hn⟩, hds⟩ := List.forall_mem_cons.1 hds
    rcases stands_append h hd hn with ⟨hst, hans⟩ | ⟨i, hans, hst⟩
    · obtain ⟨ls', h1, h2⟩ := ih h hds
      have hrun : appendAll st (d :: ds) = appendAll st ds := by
        rw [appendAll, hst]
        cases ha : (append st d).2 with
        | stored i => exact absurd ha (hans i)
        | _ => rfl
      rw [hrun]
      exact ⟨ls', h1, h2⟩
    · obtain ⟨ls', h1, h2⟩ := ih hst hds
      have hrun : appendAll st (d :: ds) = ((appendAll (append st d).1 ds).1, d.record i :: (appendAll (append st d).1 ds).2) := by
        rw [appendAll, hans]
      rw [hrun]
      refine ⟨ls', h1, ?_⟩
      rw [h2, recordsOf_append, recordsOf, recordsOf, List.filterMap_cons, readLine_recordText (usable_record hd hn i)]
      simp [Line.record?]

/-! ## Malformed lines -/

/-- A line with content that no load takes: no JSON, unless it is the last one with content of a file that does not end in a
line break, or JSON that is neither a header nor a record. -/
def Malformed (unterminated : Bool) (l : List Char) (post : List (List Char)) : Prop :=
  (readLine l = .notJson ∧ ¬ (unterminated = true ∧ ∀ l' ∈ post, Js.trim l' = [])) ∨ ∃ why, readLine l = .unusable why

theorem scan_malformed {cfg : Config} {u : Bool} {pre : List (List Char)} {l : List Char} {post : List (List Char)}
    (h : Malformed u l post) {done : List (List Char)} {s : Scan} : ∃ e, scan cfg u done (pre ++ l :: post) s = .error e := by
  induction pre generalizing done s with
  | nil =>
    rw [List.nil_append, scan]
    rcases h with ⟨hl, hlast⟩ | ⟨why, hl⟩
    · rw [if_neg fun h => hlast h.2]
      exact ⟨.notJson (done.length + 1), by rw [hl]; rfl⟩
    · rw [if_neg fun h => by rw [hl] at h; exact (nomatch h.1)]
      exact ⟨.unusable (done.length + 1) why, by rw [hl]; rfl⟩
  | cons x pre ih =>
    rw [List.cons_append, scan]
    by_cases hx : readLine x = .notJson ∧ u = true ∧ ∀ l' ∈ pre ++ l :: post, Js.trim l' = []
    · -- A torn line is followed by blank lines only.
      have hb := readLine_blank.2 (hx.2.2 l (List.mem_append_right _ List.mem_cons_self))
      rcases h with ⟨hl, -⟩ | ⟨why, hl⟩ <;> rw [hb] at hl <;> cases hl
    · rw [if_neg hx]
      cases takeLine cfg (done.length + 1) s (readLine x) with
      | error e => exact ⟨e, rfl⟩
      | ok s' => exact ih

/-! ## The result -/

theorem kept_records {cfg : Config} {ls : List (List Char)} {line : List Char} {p q : List UInt8} (hline : Valid cfg line)
    (hentry : (readLine line).IsEntry) (hp : p ++ q = Utf8.encode line) : recordsOf (kept ls p) =
      recordsOf ls ++ if (Json.parse (Js.trim (Utf8.decode p))).isSome then recordsOf [line] else [] := by
  obtain ⟨-, hcut⟩ := readLine_cut hline.one hentry hp
  by_cases h0 : p = []
  · subst h0
    rw [kept, if_pos (.inl rfl)]
    exact (List.append_nil _).symm
  rcases hcut with hn | ⟨-, hb | hr⟩
  · rw [kept, if_pos (.inr hn), (readLine_notJson.1 hn).2]
    exact (List.append_nil _).symm
  · have hn : readLine (Utf8.decode p) ≠ .notJson := by
      rw [hb]
      exact nofun
    rw [kept, if_neg fun h => h.elim h0 hn, recordsOf_append, readLine_blank.1 hb]
    simp only [recordsOf, List.filterMap_cons, List.filterMap_nil, hb, Line.record?]
    rfl
  · have hn : readLine (Utf8.decode p) ≠ .notJson := by
      rw [hr]
      intro hn
      rw [hn] at hentry
      exact hentry
    have hs : (Json.parse (Js.trim (Utf8.decode p))).isSome = true := by
      obtain ⟨m, hm⟩ := isEntry_obj (hr ▸ hentry)
      rw [hm]
      rfl
    rw [kept, if_neg fun h => h.elim h0 hn, hs, if_pos rfl, recordsOf_append]
    simp only [recordsOf, List.filterMap_cons, List.filterMap_nil, hr]

/-- A file of valid lines, cut inside one more header or record, loads as the lines that are whole do, if these fit together
and have a header or may be given one; what the load leaves behind is loaded again as it is, and so is what appends make of
it. A malformed line in another place refuses the load, and the file stays. -/
theorem torn_tail_repaired (cfg : Config) :
    (∀ (ls : List (List Char)) (line : List Char) (p q : List UInt8) (file : Option (List UInt8)),
      (∀ l ∈ ls, Valid cfg l) → Valid cfg line → (readLine line).IsEntry → p ++ q = Utf8.encode line →
      file.getD [] = Utf8.encode (Lines.text ls) ++ p →
      recordsOf (kept ls p) =
        recordsOf ls ++ (if (Json.parse (Js.trim (Utf8.decode p))).isSome then recordsOf [line] else []) ∧
      ((∃ ix, (load cfg file).result = .ok ix) ↔ Coherent (recordsOf (kept ls p)) ∧ Stampable cfg (kept ls p)) ∧
      ∀ ix, (load cfg file).result = .ok ix →
        Yields ix (recordsOf (kept ls p)) ∧
        (load cfg file).file.getD [] = Utf8.encode (Lines.text (kept ls p ++ stampLines cfg (kept ls p))) ∧
        load cfg (load cfg file).file = ⟨(load cfg file).file, false, false, .ok ix⟩ ∧
        ∀ (ds : List Draft) (st : Store) (rs : List Record), (∀ d ∈ ds, d.Checked ∧ ∃ n, d.season = .dec (.ofNat n)) →
          appendAll ⟨(load cfg file).file, ix⟩ ds = (st, rs) →
          load cfg st.file = ⟨st.file, false, false, .ok st.index⟩ ∧ Yields st.index (recordsOf (kept ls p) ++ rs)) ∧
    ∀ (file : Option (List UInt8)) (pre : List (List Char)) (l : List Char) (post : List (List Char)),
      (Utf8.decode (file.getD [])).splitOn '\n' = pre ++ l :: post →
      Malformed (decide ((Utf8.decode (file.getD [])).getLast? ≠ some '\n')) l post →
      ∃ e, load cfg file = ⟨file, false, false, .error e⟩ := by
  refine ⟨fun ls line p q file hls hline hentry hp hfile => ?_, fun file pre l post hsplit hbad => ?_⟩
  · obtain ⟨hnl, hcut⟩ := readLine_cut hline.one hentry hp
    have hpart : readLine (Utf8.decode p) = .notJson ∨ (p = Utf8.encode (Utf8.decode p) ∧ Valid cfg (Utf8.decode p)) := by
      refine hcut.imp_right fun ⟨henc, hr⟩ => ⟨henc, hnl, ?_⟩
      rcases hr with hr | hr
      · exact .inl hr
      · rw [hr]
        exact hline.reads
    obtain ⟨hiff, hstands⟩ := load_stands hls hnl hpart hfile
    refine ⟨kept_records hline hentry hp, hiff, fun ix hix => ?_⟩
    have hst := hstands ix hix
    have hrec : recordsOf (kept ls p ++ stampLines cfg (kept ls p)) = recordsOf (kept ls p) := by
      rw [recordsOf_append, recordsOf_stampLines, List.append_nil]
    refine ⟨hrec ▸ hst.yields, hst.file, stands_load hst, fun ds st rs hds hrun => ?_⟩
    obtain ⟨ls', hst', hrec'⟩ := stands_appendAll hst hds
    rw [hrun, hrec] at hrec'
    rw [hrun] at hst'
    exact ⟨stands_load hst', hrec' ▸ hst'.yields⟩
  · obtain ⟨e, he⟩ := @scan_malformed cfg _ pre l post hbad [] {}
    refine ⟨e, ?_⟩
    unfold load
    dsimp only
    rw [hsplit, he]

def exampleRecord : Record := ⟨.dec (.ofNat 7), "1", "2", "3", some "plonk", some "derive", 0⟩

theorem usable_exampleRecord : Usable exampleRecord :=
  ⟨⟨_, rfl, Js.Dec.isInteger_ofNat 7, rfl⟩, by decide, by decide, by decide, .inr (by decide)⟩

theorem valid_recordText (cfg : Config) {r : Record} (h : Usable r) : Valid cfg (recordText r) :=
  ⟨Json.newline_notMem_stringify _, .inr (.inr ⟨r, readLine_recordText h⟩)⟩

/-- A file with records and no header is refused under a schedule, and its lines are valid. -/
theorem legacy_file_refused : ¬ ∀ (cfg : Config) (ls : List (List Char)) (line : List Char) (p q : List UInt8),
    (∀ l ∈ ls, Valid cfg l) → Valid cfg line → (readLine line).IsEntry → p ++ q = Utf8.encode line →
    ∃ ix, (load cfg (some (Utf8.encode (Lines.text ls) ++ p))).result = .ok ix := by
  intro h
  have hv := valid_recordText ⟨some "600:604800", false⟩ usable_exampleRecord
  have hr := readLine_recordText usable_exampleRecord
  have hls : ∀ l ∈ [recordText exampleRecord], Valid ⟨some "600:604800", false⟩ l := List.forall_mem_singleton.2 hv
  have hload := h _ _ (recordText exampleRecord) [] _ hls hv (by rw [hr]; trivial) (List.nil_append _)
  rw [List.append_nil] at hload
  have hfile : (some (Utf8.encode (Lines.text [recordText exampleRecord]))).getD [] =
      Utf8.encode (Lines.text [recordText exampleRecord]) ++ [] := (List.append_nil _).symm
  obtain ⟨hiff, -⟩ := load_stands hls (by decide) (.inr ⟨rfl, by decide, .inl (readLine_blank.2 rfl)⟩) hfile
  obtain ⟨-, hs⟩ := hiff.1 hload
  have hk : kept [recordText exampleRecord] [] = [recordText exampleRecord] := if_pos (.inl rfl)
  rw [hk, Stampable] at hs
  rcases hs with hs | hs | hs | hs
  · simp [headed, hr, Line.isHeader] at hs
  · cases hs
  · simp [recordsOf, hr, Line.record?] at hs
  · cases hs

theorem torn_record_discarded :
    ∃ ix, (load ⟨some "600:604800", false⟩ (some (Utf8.encode (Lines.text [headerText "600:604800", recordText exampleRecord]) ++
      (Utf8.encode (recordText exampleRecord)).take 1))).result = .ok ix ∧ Yields ix [exampleRecord] := by
  have hr := readLine_recordText usable_exampleRecord
  have hh := readLine_headerText "600:604800"
  have hv := valid_recordText ⟨some "600:604800", false⟩ usable_exampleRecord
  have hvh : Valid ⟨some "600:604800", false⟩ (headerText "600:604800") :=
    ⟨Json.newline_notMem_stringify _, .inr (.inl ⟨_, hh, fun s hs => by cases hs; rfl⟩)⟩
  have hls : ∀ l ∈ [headerText "600:604800", recordText exampleRecord], Valid ⟨some "600:604800", false⟩ l :=
    List.forall_mem_cons.2 ⟨hvh, List.forall_mem_singleton.2 hv⟩
  obtain ⟨hrec, hiff, hok⟩ := (torn_tail_repaired ⟨some "600:604800", false⟩).1 _ (recordText exampleRecord)
    ((Utf8.encode (recordText exampleRecord)).take 1) _ (some _) hls hv (by rw [hr]; trivial) (List.take_append_drop 1 _) rfl
  have htorn : readLine (Utf8.decode ((Utf8.encode (recordText exampleRecord)).take 1)) = .notJson := by
    obtain ⟨t, ht, -⟩ := isEntry_brace (l := recordText exampleRecord) (by rw [hr]; trivial)
    rw [recordText, trim_stringify, ← recordText] at ht
    rw [ht]
    rfl
  have hk : kept [headerText "600:604800", recordText exampleRecord] ((Utf8.encode (recordText exampleRecord)).take 1) =
      [headerText "600:604800", recordText exampleRecord] := if_pos (.inr htorn)
  have hrs : recordsOf [headerText "600:604800", recordText exampleRecord] = [exampleRecord] := by
    simp [recordsOf, hr, hh, Line.record?]
  rw [hk, hrs] at hiff hok
  have hc : Coherent [exampleRecord] := ⟨⟨by simp [same_iff], by simp⟩, by simp [latest, exampleRecord]⟩
  obtain ⟨ix, hix⟩ := hiff.2 ⟨hc, .inl (by simp [headed, hh, Line.isHeader])⟩
  exact ⟨ix, hix, (hok ix hix).1⟩

end RegistrationFile
