import MnoVerify.Snapshot

/-!
# What the signed root authenticates

`leaves_eq_iff`: two adopted snapshots with one signed message have the same
leaves exactly when they have the same number of trailing `"0"` leaves. A trailing
`"0"` is a canonical leaf that both trees hash like their padding, so the root does
not tell it from no leaf at all.
-/

namespace Snapshot

/-! ## The signed fields -/

theorem require_eq_ok {c : Bool} {message : String} {u : Unit} : require c message = .ok u ↔ c = true := by
  cases c <;> simp [require]

theorem frameSafe_ok {v : Json} {field : String} {s : List Char} (h : frameSafe v field = .ok s) :
    s = v.toStr ∧ '\n' ∉ s := by
  unfold frameSafe at h
  dsimp only at h
  split at h
  · cases h
  · cases h; exact ⟨rfl, ‹_›⟩

theorem newline_notMem_toText (d : Js.Dec) : '\n' ∉ d.toText := by
  intro h
  rcases d.numberChar_toText _ h with h | h
  · exact absurd h (by decide)
  · exact absurd h (by decide)

theorem frameInt_num {v : Option Json} {field : String} {s : List Char} (h : frameInt v field = .ok s) :
    ∃ d, v = some (.num d) ∧ s = d.toText := by
  unfold frameInt at h
  split at h
  · split at h
    · cases h; exact ⟨_, rfl, rfl⟩
    · cases h
  · cases h

theorem frameInt_ok {v : Option Json} {field : String} {s : List Char} (h : frameInt v field = .ok s) : '\n' ∉ s := by
  obtain ⟨d, -, rfl⟩ := frameInt_num h
  exact newline_notMem_toText d

theorem toText_inj {d e : Js.Dec} (h : d.toText = e.toText) : d = e := by
  have hd := d.readNumber_toText (r := []) (by simp [Js.Dec.Stops])
  rw [h, e.readNumber_toText (by simp [Js.Dec.Stops])] at hd
  simp only [Option.some.injEq, Prod.mk.injEq, and_true] at hd
  exact hd.symm

/-- A number is read back off its frame. -/
theorem frameInt_inj {v v' : Option Json} {field : String} {s : List Char} (h : frameInt v field = .ok s)
    (h' : frameInt v' field = .ok s) : v = v' := by
  obtain ⟨d, rfl, hd⟩ := frameInt_num h
  obtain ⟨e, rfl, he⟩ := frameInt_num h'
  rw [toText_inj (hd.symm.trans he)]

/-- Where the fields of a message name the root. -/
def rootAt (fields : List (List Char)) : Option (List Char) := if fields.length = 6 then fields[4]? else fields[5]?

/-- The fields that every version has, framed. -/
structure Frame (o : Json) (height blockHash depth root ts : List Char) : Prop where
  height : frameInt (o.field "height") "height" = .ok height
  blockHash : frameSafe (Json.orElse (.str "") (o.field "blockHash")) "blockHash" = .ok blockHash
  depth : frameInt (o.field "depth") "depth" = .ok depth
  root : frameSafe (framed (o.field "root")) "root" = .ok root
  ts : frameInt (o.field "ts") "ts" = .ok ts

theorem isStr_iff {v : Option Json} : isStr v = true ↔ ∃ s, v = some (.str s) := by
  constructor
  · intro h
    unfold isStr at h
    split at h
    · exact ⟨_, rfl⟩
    · cases h
  · rintro ⟨s, rfl⟩
    rfl

theorem isStr_of_isNonemptyStr {v : Option Json} (h : isNonemptyStr v = true) : isStr v = true := by
  unfold isNonemptyStr at h
  split at h
  · rfl
  · cases h

/-- The fields of a message, version by version. -/
theorem messageFields_ok {o : Json} {fields : List (List Char)} (h : messageFields o = .ok fields) :
    ∃ height blockHash depth root ts, Frame o height blockHash depth root ts ∧
      (snapshotVersion o = .ok 1 ∧ fields = ["mno-oracle-snapshot-v1".toList, height, blockHash, depth, root, ts] ∨
       (snapshotVersion o = .ok 2 ∧ isStr (o.field "shaRoot") = true ∧ ∃ shaRoot,
        frameSafe (framed (o.field "shaRoot")) "shaRoot" = .ok shaRoot ∧
        fields = ["mno-oracle-snapshot-v2".toList, "2".toList, height, blockHash, depth, root, shaRoot, ts]) ∨
       (snapshotVersion o = .ok 3 ∧ isStr (o.field "shaRoot") = true ∧ isStr (o.field "order") = true ∧ ∃ shaRoot order,
        frameSafe (framed (o.field "shaRoot")) "shaRoot" = .ok shaRoot ∧
        frameSafe (framed (o.field "order")) "order" = .ok order ∧
        fields = ["mno-oracle-snapshot-v3".toList, "3".toList, height, blockHash, depth, root, shaRoot, order, "1".toList, ts])) := by
  simp only [messageFields, Js.bind_eq_ok] at h
  obtain ⟨version, hv, h⟩ := h
  split at h
  · next h3v =>
    subst h3v
    simp only [require_eq_ok, Js.bind_eq_ok] at h
    obtain ⟨-, hs, -, ho, -, -, height, h1, blockHash, h2, depth, h3, root, h4, shaRoot, h5, order, h6, ts, h7, h⟩ := h
    cases h
    exact ⟨height, blockHash, depth, root, ts, ⟨h1, h2, h3, h4, h7⟩,
      .inr (.inr ⟨hv, hs, isStr_of_isNonemptyStr ho, shaRoot, order, h5, h6, rfl⟩)⟩
  split at h
  · next h2v =>
    subst h2v
    simp only [require_eq_ok, Js.bind_eq_ok] at h
    obtain ⟨-, hs, height, h1, blockHash, h2, depth, h3, root, h4, shaRoot, h5, ts, h7, h⟩ := h
    cases h
    exact ⟨height, blockHash, depth, root, ts, ⟨h1, h2, h3, h4, h7⟩, .inr (.inl ⟨hv, hs, shaRoot, h5, rfl⟩)⟩
  · next h3v h2v =>
    have h1v : version = 1 := by
      unfold snapshotVersion at hv
      dsimp only at hv
      split at hv
      · cases hv; rfl
      · split at hv
        · cases hv; exact absurd rfl h2v
        · split at hv
          · cases hv; exact absurd rfl h3v
          · cases hv
    subst h1v
    simp only [Js.bind_eq_ok] at h
    obtain ⟨height, h1, blockHash, h2, depth, h3, root, h4, ts, h7, h⟩ := h
    cases h
    exact ⟨height, blockHash, depth, root, ts, ⟨h1, h2, h3, h4, h7⟩, .inl ⟨hv, rfl⟩⟩

theorem messageFields_spec {o : Json} {fields : List (List Char)} (h : messageFields o = .ok fields) :
    (∀ l ∈ fields, '\n' ∉ l) ∧ fields ≠ [] ∧ rootAt fields = some (framed (o.field "root")).toStr := by
  have hd : ∀ s ∈ ["mno-oracle-snapshot-v1", "mno-oracle-snapshot-v2", "mno-oracle-snapshot-v3", "1", "2", "3"],
      '\n' ∉ s.toList := by decide
  obtain ⟨height, blockHash, depth, root, ts, hf, h⟩ := messageFields_ok h
  have h1 := frameInt_ok hf.height
  have h2 := (frameSafe_ok hf.blockHash).2
  have h3 := frameInt_ok hf.depth
  have h4 := (frameSafe_ok hf.root).2
  have h7 := frameInt_ok hf.ts
  rw [← (frameSafe_ok hf.root).1]
  rcases h with ⟨-, rfl⟩ | ⟨-, -, shaRoot, h5, rfl⟩ | ⟨-, -, -, shaRoot, order, h5, h6, rfl⟩
  · simp only [List.mem_cons, List.not_mem_nil, or_false, forall_eq_or_imp, forall_eq]
    exact ⟨⟨hd _ (by decide), h1, h2, h3, h4, h7⟩, nofun, rfl⟩
  · simp only [List.mem_cons, List.not_mem_nil, or_false, forall_eq_or_imp, forall_eq]
    exact ⟨⟨hd _ (by decide), hd _ (by decide), h1, h2, h3, h4, (frameSafe_ok h5).2, h7⟩, nofun, rfl⟩
  · simp only [List.mem_cons, List.not_mem_nil, or_false, forall_eq_or_imp, forall_eq]
    exact ⟨⟨hd _ (by decide), hd _ (by decide), h1, h2, h3, h4, (frameSafe_ok h5).2, (frameSafe_ok h6).2, hd _ (by decide), h7⟩,
      nofun, rfl⟩

/-- Equal messages have equal fields. -/
theorem fields_eq_of_message_eq {o o' : Json} {m : List UInt8} (h : snapshotMessage o = .ok m) (h' : snapshotMessage o' = .ok m) :
    ∃ fields, messageFields o = .ok fields ∧ messageFields o' = .ok fields := by
  simp only [snapshotMessage, Js.bind_eq_ok] at h h'
  obtain ⟨fs, hf, h⟩ := h
  obtain ⟨fs', hf', h'⟩ := h'
  obtain ⟨hn, hne, -⟩ := messageFields_spec hf
  obtain ⟨hn', hne', -⟩ := messageFields_spec hf'
  have hm : Utf8.encode (['\n'].intercalate fs) = Utf8.encode (['\n'].intercalate fs') :=
    Except.ok.inj (h.trans h'.symm)
  have he : fs = fs' := by
    rw [← List.splitOn_intercalate '\n' hn hne, Utf8.encode_inj hm, List.splitOn_intercalate '\n' hn' hne']
  exact ⟨fs, hf, he ▸ hf'⟩

/-- Equal messages name one root. -/
theorem root_eq_of_message_eq {o o' : Json} {m : List UInt8} (h : snapshotMessage o = .ok m)
    (h' : snapshotMessage o' = .ok m) : (framed (o.field "root")).toStr = (framed (o'.field "root")).toStr := by
  obtain ⟨fields, hf, hf'⟩ := fields_eq_of_message_eq h h'
  have hr := (messageFields_spec hf).2.2
  rw [(messageFields_spec hf').2.2] at hr
  exact (Option.some.inj hr).symm

theorem safe_eq {v v' : Json} {field : String} {s : List Char} (h : frameSafe v field = .ok s) (h' : frameSafe v' field = .ok s) :
    v.toStr = v'.toStr := (frameSafe_ok h).1.symm.trans (frameSafe_ok h').1

theorem str_eq {v v' : Option Json} {field : String} {s : List Char} (hv : isStr v = true) (hv' : isStr v' = true)
    (h : frameSafe (framed v) field = .ok s) (h' : frameSafe (framed v') field = .ok s) : v = v' := by
  obtain ⟨a, rfl⟩ := isStr_iff.1 hv
  obtain ⟨b, rfl⟩ := isStr_iff.1 hv'
  have hab : a.toList = b.toList := safe_eq h h'
  rw [String.toList_inj.1 hab]

/-- Snapshots with one signed message are of one version, and agree in what that version signs. -/
theorem message_unambiguous {o o' : Json} {m : List UInt8} (h : snapshotMessage o = .ok m) (h' : snapshotMessage o' = .ok m) :
    ∃ version, snapshotVersion o = .ok version ∧ snapshotVersion o' = .ok version ∧
      o.field "height" = o'.field "height" ∧ o.field "depth" = o'.field "depth" ∧ o.field "ts" = o'.field "ts" ∧
      (Json.orElse (.str "") (o.field "blockHash")).toStr = (Json.orElse (.str "") (o'.field "blockHash")).toStr ∧
      (framed (o.field "root")).toStr = (framed (o'.field "root")).toStr ∧
      (version ∈ DUAL_ROOT_VERSIONS → o.field "shaRoot" = o'.field "shaRoot") ∧
      (version = 3 → o.field "order" = o'.field "order") := by
  obtain ⟨fields, hf, hf'⟩ := fields_eq_of_message_eq h h'
  obtain ⟨height, blockHash, depth, root, ts, f, hf⟩ := messageFields_ok hf
  obtain ⟨height', blockHash', depth', root', ts', f', hf'⟩ := messageFields_ok hf'
  -- the first field names the version
  have h12 : "mno-oracle-snapshot-v1".toList ≠ "mno-oracle-snapshot-v2".toList := by decide
  have h13 : "mno-oracle-snapshot-v1".toList ≠ "mno-oracle-snapshot-v3".toList := by decide
  have h23 : "mno-oracle-snapshot-v2".toList ≠ "mno-oracle-snapshot-v3".toList := by decide
  have common : height = height' → blockHash = blockHash' → depth = depth' → root = root' → ts = ts' →
      o.field "height" = o'.field "height" ∧ o.field "depth" = o'.field "depth" ∧ o.field "ts" = o'.field "ts" ∧
      (Json.orElse (.str "") (o.field "blockHash")).toStr = (Json.orElse (.str "") (o'.field "blockHash")).toStr ∧
      (framed (o.field "root")).toStr = (framed (o'.field "root")).toStr := by
    rintro rfl rfl rfl rfl rfl
    exact ⟨frameInt_inj f.height f'.height, frameInt_inj f.depth f'.depth, frameInt_inj f.ts f'.ts,
      safe_eq f.blockHash f'.blockHash, safe_eq f.root f'.root⟩
  rcases hf with ⟨hv, rfl⟩ | ⟨hv, hs, shaRoot, h5, rfl⟩ | ⟨hv, hs, ho, shaRoot, order, h5, h6, rfl⟩
  · rcases hf' with ⟨hv', he⟩ | ⟨-, -, _, -, he⟩ | ⟨-, -, -, _, _, -, -, he⟩
    · simp only [List.cons.injEq, true_and, and_true] at he
      obtain ⟨e1, e2, e3, e4, e5⟩ := he
      obtain ⟨c1, c2, c3, c4, c5⟩ := common e1 e2 e3 e4 e5
      exact ⟨1, hv, hv', c1, c2, c3, c4, c5, fun hm => absurd hm (by decide), fun hm => absurd hm (by decide)⟩
    · exact absurd (List.cons.inj he).1 h12
    · exact absurd (List.cons.inj he).1 h13
  · rcases hf' with ⟨-, he⟩ | ⟨hv', hs', shaRoot', h5', he⟩ | ⟨-, -, -, _, _, -, -, he⟩
    · exact absurd (List.cons.inj he).1.symm h12
    · simp only [List.cons.injEq, true_and, and_true] at he
      obtain ⟨e1, e2, e3, e4, e5, e6⟩ := he
      obtain ⟨c1, c2, c3, c4, c5⟩ := common e1 e2 e3 e4 e6
      rw [← e5] at h5'
      exact ⟨2, hv, hv', c1, c2, c3, c4, c5, fun _ => str_eq hs hs' h5 h5', fun hm => absurd hm (by decide)⟩
    · exact absurd (List.cons.inj he).1 h23
  · rcases hf' with ⟨-, he⟩ | ⟨-, -, _, -, he⟩ | ⟨hv', hs', ho', shaRoot', order', h5', h6', he⟩
    · exact absurd (List.cons.inj he).1.symm h13
    · exact absurd (List.cons.inj he).1.symm h23
    · simp only [List.cons.injEq, true_and, and_true] at he
      obtain ⟨e1, e2, e3, e4, e5, e6, e7⟩ := he
      obtain ⟨c1, c2, c3, c4, c5⟩ := common e1 e2 e3 e4 e7
      rw [← e5] at h5'
      rw [← e6] at h6'
      exact ⟨3, hv, hv', c1, c2, c3, c4, c5, fun _ => str_eq hs hs' h5 h5', fun _ => str_eq ho ho' h6 h6'⟩

/-- A snapshot of version 3 with a remark that nobody signs. -/
def remarked (remark : String) : Json :=
  .obj [("version", .num (.ofNat 3)), ("height", .num (.ofNat 100)), ("blockHash", .str "ab"), ("depth", .num (.ofNat 16)),
    ("root", .str "5"), ("shaRoot", .str "cd"), ("order", .str "proRegTxHash"), ("chainlocked", .bool true),
    ("ts", .num (.ofNat 1700)), ("remark", .str remark)]

theorem message_unambiguous_remarked : ∃ m, snapshotMessage (remarked "a") = .ok m ∧ snapshotMessage (remarked "b") = .ok m ∧
    ∃ version, snapshotVersion (remarked "a") = .ok version ∧ snapshotVersion (remarked "b") = .ok version ∧
      (remarked "a").field "order" = (remarked "b").field "order" := by
  have h : snapshotMessage (remarked "b") = snapshotMessage (remarked "a") := by decide +kernel
  have hok : (snapshotMessage (remarked "a")).toOption.isSome = true := by decide +kernel
  cases hm : snapshotMessage (remarked "a") with
  | error e =>
    rw [hm] at hok
    cases hok
  | ok m =>
    rw [hm] at h
    obtain ⟨version, hv, hv', -, -, -, -, -, -, ho⟩ := message_unambiguous hm h
    have h3 : snapshotVersion (remarked "a") = .ok 3 := rfl
    rw [hv, Except.ok.injEq] at h3
    exact ⟨m, rfl, h, version, hv, hv', ho h3⟩

/-! ## The recomputed root -/

/-- The facts about a valid snapshot that the recompute rests on. -/
theorem validateSnapshot_ok {cfg : Config} {now₁ now₂ : Int} {o : Json} {requiresSha : Bool}
    (h : validateSnapshot cfg now₁ now₂ o requiresSha = .ok ()) :
    (leaves o).length ≤ 2 ^ cfg.treeDepth ∧ ∀ l ∈ leafTexts o, Field.isCanonical l = true := by
  simp only [validateSnapshot, require_eq_ok, Js.bind_eq_ok] at h
  obtain ⟨-, -, -, -, -, -, -, -, -, -, -, hlen, -, hall, -⟩ := h
  refine ⟨of_decide_eq_true hlen, fun l hl => ?_⟩
  obtain ⟨j, hj, rfl⟩ := List.mem_map.1 hl
  have hc := List.all_eq_true.1 hall j hj
  obtain ⟨s, rfl, -⟩ := Field.isCanonicalField_str hc
  exact hc

theorem buildRoot_eq {α : Type*} {f : α → α → α} {z : α} {d : Nat} {xs : List α} {r : α} (h : buildRoot f z d xs = .ok r) :
    r = PaddedTree.root f z d xs := by
  unfold buildRoot at h
  split at h
  · cases h
  · cases h
    cases xs with
    | nil =>
      rw [PaddedTree.root_nil]
      have : ∀ k l, PaddedTree.levelUp f z l k [] = [] := fun k => by
        induction k with
        | zero => exact fun _ => rfl
        | succ k ih => exact fun l => ih (l + 1)
      rw [this]; rfl
    | cons a xs =>
      have := @PaddedTree.levelUp_head _ f z d (a :: xs) nofun
      rw [List.headD_eq_head?_getD, this]; rfl

theorem buildRoot_ok {α : Type*} {f : α → α → α} {z : α} {d : Nat} {xs : List α} (h : xs.length ≤ 2 ^ d) :
    buildRoot f z d xs = .ok (PaddedTree.root f z d xs) := by
  have hok : ∃ r, buildRoot f z d xs = .ok r := by
    unfold buildRoot
    rw [if_neg (not_lt.2 h)]
    exact ⟨_, rfl⟩
  obtain ⟨r, hr⟩ := hok
  rw [hr, buildRoot_eq hr]

theorem toDigits_inj {m n : Nat} (h : Nat.toDigits 10 m = Nat.toDigits 10 n) : m = n := by
  rw [← Nat.ofDigitChars_ten_toDigits (n := m), h, Nat.ofDigitChars_ten_toDigits]

variable (poseidon : Nat → Nat → Nat) (sha256 : List UInt8 → List UInt8)

/-- Two different pairs hashed in the two trees have different hashes. -/
def NoCollision (depth : Nat) (xs ys : List (List Char)) : Prop :=
  ∀ p q : Nat × Nat, PaddedTree.Hashed poseidon (PaddedTree.pad 0 (xs.map fieldOf)) depth p →
    PaddedTree.Hashed poseidon (PaddedTree.pad 0 (ys.map fieldOf)) depth q → poseidon p.1 p.2 = poseidon q.1 q.2 → p = q

theorem pad_eq_of_root_eq {depth : Nat} {xs ys : List (List Char)} {r : List Char}
    (hx : dmlRootFromLeaves poseidon depth xs = .ok r) (hy : dmlRootFromLeaves poseidon depth ys = .ok r)
    (hc : NoCollision poseidon depth xs ys) :
    ∀ i < 2 ^ depth, PaddedTree.pad 0 (xs.map fieldOf) i = PaddedTree.pad 0 (ys.map fieldOf) i := by
  simp only [dmlRootFromLeaves, Js.bind_eq_ok] at hx hy
  obtain ⟨a, ha, hx⟩ := hx
  obtain ⟨b, hb, hy⟩ := hy
  have hab : a = b := toDigits_inj (Except.ok.inj (hx.trans hy.symm))
  refine PaddedTree.leaves_eq_of_node_eq poseidon hc ?_
  have h1 := buildRoot_eq ha
  have h2 := buildRoot_eq hb
  rw [hab, h2] at h1
  exact h1.symm

/-! ## Trailing zeros -/

/-- How many leaves `"0"` the list ends with. -/
def trailingZeros (leaves : List (List Char)) : Nat := (leaves.reverse.takeWhile fun l => decide (l = ['0'])).length

theorem trailingZeros_append (l : List (List Char)) (k : Nat) :
    trailingZeros (l ++ List.replicate k ['0']) = trailingZeros l + k := by
  rw [trailingZeros, List.reverse_append, List.reverse_replicate, List.takeWhile_append_of_pos, List.length_append,
    List.length_replicate, Nat.add_comm, trailingZeros]
  intro a ha
  rw [List.eq_of_mem_replicate ha]; rfl

theorem fieldOf_canonical {l : List Char} (h : Field.isCanonical l = true) : fieldOf l = Field.value l :=
  Nat.mod_eq_of_lt (Field.value_lt_of_isCanonical h)

theorem eq_zero_of_fieldOf {l : List Char} (h : Field.isCanonical l = true) (h0 : fieldOf l = 0) : l = ['0'] := by
  rw [fieldOf_canonical h] at h0
  have := Field.toDigits_value (Field.isDecimal_of_isCanonical h)
  rw [h0] at this; exact this.symm

/-- Of two lists of canonical leaves that are padded to one list, the longer one is the
shorter one with leaves `"0"` after it. -/
theorem eq_append_zeros {depth : Nat} {xs ys : List (List Char)} (hx : ∀ l ∈ xs, Field.isCanonical l = true)
    (hy : ∀ l ∈ ys, Field.isCanonical l = true) (hlen : ys.length ≤ 2 ^ depth) (hle : xs.length ≤ ys.length)
    (h : ∀ i < 2 ^ depth, PaddedTree.pad 0 (xs.map fieldOf) i = PaddedTree.pad 0 (ys.map fieldOf) i) :
    ys = xs ++ List.replicate (ys.length - xs.length) ['0'] := by
  have hg : ∀ (zs : List (List Char)) (i : Nat) (hi : i < zs.length), PaddedTree.pad 0 (zs.map fieldOf) i = fieldOf zs[i] := by
    intro zs i hi; simp [PaddedTree.pad, hi]
  refine List.ext_getElem (by simp; omega) fun i h1 h2 => ?_
  have hi := h i (by omega)
  rw [hg ys i h1] at hi
  have hyc := hy _ (List.getElem_mem h1)
  by_cases hxi : i < xs.length
  · rw [hg xs i hxi] at hi
    have hxc := hx _ (List.getElem_mem hxi)
    rw [fieldOf_canonical hxc, fieldOf_canonical hyc] at hi
    rw [List.getElem_append_left hxi]
    exact Field.value_inj (Field.isDecimal_of_isCanonical hyc) (Field.isDecimal_of_isCanonical hxc) hi.symm
  · rw [PaddedTree.pad_of_le 0 (by simp; omega)] at hi
    rw [List.getElem_append_right (by omega), List.getElem_replicate]
    exact eq_zero_of_fieldOf hyc hi.symm

theorem leaves_eq_of_trailingZeros {depth : Nat} {xs ys : List (List Char)} (hx : ∀ l ∈ xs, Field.isCanonical l = true)
    (hy : ∀ l ∈ ys, Field.isCanonical l = true) (hlx : xs.length ≤ 2 ^ depth) (hly : ys.length ≤ 2 ^ depth)
    (h : ∀ i < 2 ^ depth, PaddedTree.pad 0 (xs.map fieldOf) i = PaddedTree.pad 0 (ys.map fieldOf) i)
    (ht : trailingZeros xs = trailingZeros ys) : xs = ys := by
  rcases Nat.le_total xs.length ys.length with hle | hle
  · have he := eq_append_zeros hx hy hly hle h
    rw [he, trailingZeros_append] at ht
    rw [he, show ys.length - xs.length = 0 by omega, List.replicate_zero, List.append_nil]
  · have he := eq_append_zeros hy hx hlx hle fun i hi => (h i hi).symm
    rw [he, trailingZeros_append] at ht
    rw [he, show xs.length - ys.length = 0 by omega, List.replicate_zero, List.append_nil]

theorem textOf_framed (v : Option Json) : Json.textOf v = (framed v).toStr := by
  cases v with
  | none => rw [Json.textOf, framed, Json.toStr]; rfl
  | some v => rfl

/-- The signed message fixes the leaf list up to the leaves `"0"` at its end. -/
theorem leaves_eq_iff {cfg : Config} {o o' : Json} {m : List UInt8} (ho : Recomputed poseidon sha256 cfg o)
    (ho' : Recomputed poseidon sha256 cfg o') (hm : snapshotMessage o = .ok m) (hm' : snapshotMessage o' = .ok m)
    (hc : NoCollision poseidon cfg.treeDepth (leafTexts o) (leafTexts o')) :
    leafTexts o = leafTexts o' ∧ leafSetCommitment sha256 (leafTexts o) = leafSetCommitment sha256 (leafTexts o') ↔
      trailingZeros (leafTexts o) = trailingZeros (leafTexts o') := by
  obtain ⟨⟨_, _, _, hv⟩, hr, -⟩ := ho
  obtain ⟨⟨_, _, _, hv'⟩, hr', -⟩ := ho'
  obtain ⟨hlen, hcan⟩ := validateSnapshot_ok hv
  obtain ⟨hlen', hcan'⟩ := validateSnapshot_ok hv'
  refine ⟨fun h => by rw [h.1], fun ht => ?_⟩
  rw [textOf_framed, root_eq_of_message_eq hm hm'] at hr
  rw [textOf_framed] at hr'
  have hpad := pad_eq_of_root_eq poseidon hr hr' hc
  have he := leaves_eq_of_trailingZeros hcan hcan' (by simpa [leafTexts] using hlen) (by simpa [leafTexts] using hlen')
    hpad ht
  exact ⟨he, by rw [he]⟩

/-! ## A padded list -/

def padConfig : Config := ⟨1, 0, 0⟩

def padSnapshot (leaves : List Json) : Json :=
  .obj [("height", .num (.ofNat 100)), ("depth", .num (.ofNat 1)), ("root", .str "5"), ("ts", .num (.ofNat 1700)),
    ("leaves", .arr leaves)]

def padShort : Json := padSnapshot [.str "5"]

def padLong : Json := padSnapshot [.str "5", .str "0"]

theorem recomputed_pad {o : Json} (h : o = padShort ∨ o = padLong) : Recomputed (· + ·) id padConfig o := by
  rcases h with rfl | rfl
  · exact ⟨⟨0, 0, false, by decide +kernel⟩, by decide +kernel, nofun⟩
  · exact ⟨⟨0, 0, false, by decide +kernel⟩, by decide +kernel, nofun⟩

theorem noCollision_pad : NoCollision (· + ·) padConfig.treeDepth (leafTexts padShort) (leafTexts padLong) := by
  rintro p q ⟨l, i, hl, hi, rfl⟩ ⟨l', i', hl', hi', rfl⟩ -
  have h0 : l = 0 ∧ l' = 0 := by simp only [padConfig] at hl hl'; omega
  obtain ⟨rfl, rfl⟩ := h0
  have h1 : i = 0 ∧ i' = 0 := by simp only [padConfig] at hi hi'; omega
  obtain ⟨rfl, rfl⟩ := h1
  decide +kernel

/-- One signed message, two adopted leaf lists. -/
theorem padded_message_ambiguous :
    Recomputed (· + ·) id padConfig padShort ∧ Recomputed (· + ·) id padConfig padLong ∧
      NoCollision (· + ·) padConfig.treeDepth (leafTexts padShort) (leafTexts padLong) ∧
      (∃ m, snapshotMessage padShort = .ok m ∧ snapshotMessage padLong = .ok m) ∧
      leafTexts padShort ≠ leafTexts padLong ∧
      leafSetCommitment id (leafTexts padShort) ≠ leafSetCommitment id (leafTexts padLong) := by
  refine ⟨recomputed_pad (.inl rfl), recomputed_pad (.inr rfl), noCollision_pad, ⟨_, rfl, ?_⟩, ?_, ?_⟩
  · decide +kernel
  · decide +kernel
  · have h1 : [['5']].mergeSort leafLe = [['5']] := List.mergeSort_singleton _
    have h2 : [['5'], ['0']].mergeSort leafLe = [['0'], ['5']] := by
      have hle : leafLe ['5'] ['0'] = false := by decide
      simp [List.mergeSort, List.MergeSort.Internal.splitInTwo, hle]
    have hs : leafTexts padShort = [['5']] := by decide +kernel
    have hl : leafTexts padLong = [['5'], ['0']] := by decide +kernel
    rw [hs, hl, leafSetCommitment, leafSetCommitment, h1, h2]
    decide +kernel

theorem leaves_eq_iff_pad :
    leafTexts padShort = leafTexts padLong ∧
        leafSetCommitment id (leafTexts padShort) = leafSetCommitment id (leafTexts padLong) ↔
      trailingZeros (leafTexts padShort) = trailingZeros (leafTexts padLong) :=
  leaves_eq_iff (· + ·) id (m := (snapshotMessage padShort).toOption.getD []) (recomputed_pad (.inl rfl))
    (recomputed_pad (.inr rfl)) rfl (by decide +kernel) noCollision_pad

end Snapshot
