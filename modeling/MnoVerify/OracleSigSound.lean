import MnoVerify.OracleSig
import MnoVerify.RefreshSound

/-!
# The signature quorum

`oracleSignaturesOk` counts keys: what it accepts has a verifying signature of a quorum of trusted keys
(`quorum_vouches`). The converse goes by an invariant of the snapshot on its way, `Carries`: its entries are those of a
list of distinct keys, in order, each with a signature of the message. `step_sign` and `step_respell` keep it, and a
snapshot that carries a quorum of trusted keys is accepted (`accepted_of_carries`).
-/

namespace Json

@[simp] theorem field_set_self (k : String) (v : Json) (m : List (String × Json)) : (set (.obj m) k v).field k = some v := by
  simp [set, field]

theorem field_set_ne {k k' : String} (h : k' ≠ k) (v : Json) : ∀ o : Json, (o.set k v).field k' = o.field k'
  | .obj m => by
    have hne : (k == k') = false := beq_false_of_ne (Ne.symm h)
    simp only [set, field, List.reverse_append, List.reverse_cons, List.reverse_nil, List.nil_append,
      List.singleton_append, List.find?_cons, hne, ← List.filter_reverse, List.find?_filter]
    congr 2
    funext p
    by_cases hp : p.1 = k'
    · simp [hp, h]
    · simp [hp]
  | .null | .bool _ | .num _ | .str _ | .arr _ => rfl

end Json

namespace OracleSig

open Snapshot (snapshotMessage messageFields snapshotVersion isHash)

/-! ## Spellings of a key -/

theorem trim_of_no_space {s : List Char} (h : ∀ c ∈ s, Js.isSpace c = false) : Js.trim s = s := by
  have drop : ∀ t : List Char, (∀ c ∈ t, Js.isSpace c = false) → t.dropWhile Js.isSpace = t := by
    intro t ht
    cases t with
    | nil => rfl
    | cons c t => rw [List.dropWhile_cons, if_neg (by rw [ht c List.mem_cons_self]; decide)]
  rw [Js.trim, drop s h, drop s.reverse fun c hc => h c (List.mem_reverse.mp hc), List.reverse_reverse]

theorem digit_no_space : ∀ v < 64, Js.isSpace (Base64.digit v) = false := by decide

theorem encode_no_space : ∀ (bytes : List UInt8), ∀ c ∈ Base64.encode bytes, Js.isSpace c = false
  | [], c, hc => absurd hc List.not_mem_nil
  | [a], c, hc => by
    have ha := Base64.byte_lt a
    simp only [Base64.encode, List.mem_cons, List.not_mem_nil, or_false] at hc
    rcases hc with rfl | rfl | rfl | rfl
    · exact digit_no_space _ (by omega)
    · exact digit_no_space _ (by omega)
    · decide
    · decide
  | [a, b], c, hc => by
    have ha := Base64.byte_lt a
    have hb := Base64.byte_lt b
    simp only [Base64.encode, List.mem_cons, List.not_mem_nil, or_false] at hc
    rcases hc with rfl | rfl | rfl | rfl
    · exact digit_no_space _ (by omega)
    · exact digit_no_space _ (by omega)
    · exact digit_no_space _ (by omega)
    · decide
  | a :: b :: d :: bytes, c, hc => by
    have ha := Base64.byte_lt a
    have hb := Base64.byte_lt b
    have hd := Base64.byte_lt d
    simp only [Base64.encode, List.mem_cons] at hc
    rcases hc with rfl | rfl | rfl | rfl | hc
    · exact digit_no_space _ (by omega)
    · exact digit_no_space _ (by omega)
    · exact digit_no_space _ (by omega)
    · exact digit_no_space _ (by omega)
    · exact encode_no_space bytes c hc

@[simp] theorem bytesOf_base64 (bytes : List UInt8) : bytesOf (base64 bytes) = bytes := by
  rw [bytesOf, base64, String.toList_ofList, Base64.decode_encode]

theorem rawPublicB64_inj {a b : List UInt8} (h : rawPublicB64 a = rawPublicB64 b) : a = b := by
  rw [← bytesOf_base64 a, ← bytesOf_base64 b]
  exact congrArg bytesOf h

theorem publicKeyFromRaw_rawPublicB64 {key : List UInt8} (h : key.length = 32) :
    publicKeyFromRaw (rawPublicB64 key) = .ok key := by
  have ht : Base64.decode (Js.trim (rawPublicB64 key).toList) = key := by
    rw [rawPublicB64, base64, String.toList_ofList, trim_of_no_space (encode_no_space key), Base64.decode_encode]
  rw [publicKeyFromRaw]
  simp only [ht, if_pos h]

theorem canonicalKey_rawPublicB64 {key : List UInt8} (h : key.length = 32) :
    canonicalKey (rawPublicB64 key) = some (rawPublicB64 key) := by
  rw [canonicalKey, publicKeyFromRaw_rawPublicB64 h]
  rfl

/-! ## The trusted keys -/

theorem pin_nodup {entries : List (List Char)} : ∀ {out keys : List String}, pin entries out = .ok keys → out.Nodup →
    keys.Nodup := by
  induction entries with
  | nil =>
    intro out keys h hn
    rw [pin, Except.ok.injEq] at h
    rwa [← h]
  | cons entry entries ih =>
    intro out keys h hn
    rw [pin, Js.bind_eq_ok] at h
    obtain ⟨key, -, h⟩ := h
    refine ih h ?_
    by_cases hk : rawPublicB64 key ∈ out
    · rwa [if_pos hk]
    · rw [if_neg hk]
      exact List.Nodup.append hn (List.nodup_singleton _) (List.disjoint_singleton.mpr hk)

theorem Configured.nodup {cfg : Refresh.Config} (hc : Configured cfg) : cfg.oraclePubkeys.Nodup := by
  obtain ⟨raw, h⟩ := hc.keys
  exact pin_nodup h List.nodup_nil

/-! ## What the check accepts -/

/-- The entry holds a signature under the label of `key`. -/
def Holds (key sig : String) (entry : Json) : Prop :=
  ∃ label, entry.field "key" = some (.str label) ∧ entry.field "sig" = some (.str sig) ∧ canonicalKey label = some key

theorem byKey_holds {K : Refresh.Crypto} (hK : K.canonicalKey = canonicalKey) : ∀ {sigs : List Json}
    {m m' : List (String × String)}, Refresh.byKey K sigs m = some m' → ∀ {key sig : String}, m'.lookup key = some sig →
      m.lookup key = some sig ∨ ∃ entry ∈ sigs, Holds key sig entry
  | [], m, m', h, key, sig, hl => by
    rw [Refresh.byKey, Option.some.injEq] at h
    rw [h]
    exact Or.inl hl
  | entry :: sigs, m, m', h, key, sig, hl => by
    have later : (∃ entry ∈ sigs, Holds key sig entry) → ∃ e ∈ entry :: sigs, Holds key sig e := by
      rintro ⟨e, he, hh⟩
      exact ⟨e, List.mem_cons_of_mem _ he, hh⟩
    rw [Refresh.byKey] at h
    split at h
    · rename_i label sig' hlabel hsig
      split at h
      · exact (byKey_holds hK h hl).imp_right later
      · rename_i id hid
        split at h
        · cases h
        · rcases byKey_holds hK h hl with hm | hr
          · by_cases hk : key = id
            · subst hk
              rw [Assoc.lookup_set_self, Option.some.injEq] at hm
              rw [hK] at hid
              rw [hm] at hsig
              exact Or.inr ⟨entry, List.mem_cons_self, label, hlabel, hsig, hid⟩
            · rw [Assoc.lookup_set_of_ne hk] at hm
              exact Or.inl hm
          · exact Or.inr (later hr)
    · exact (byKey_holds hK h hl).imp_right later

section

variable {E : Ed25519} {poseidon : Nat → Nat → Nat} {sha256 : List UInt8 → List UInt8} {cfg : Refresh.Config}

/-- A quorum of distinct trusted keys has signed the message of the snapshot. -/
def Vouched (E : Ed25519) (cfg : Refresh.Config) (o : Json) : Prop :=
  ∃ msg keys, snapshotMessage o = .ok msg ∧ keys.Nodup ∧ keys ⊆ cfg.oraclePubkeys ∧ cfg.oracleQuorum ≤ keys.length ∧
    ∀ key ∈ keys, ∃ entry ∈ Refresh.sigs o, ∃ sig, Holds key sig entry ∧ verifySnapshotSig E msg sig key = true

theorem quorum_vouches (hcfg : Configured cfg) (hne : cfg.oraclePubkeys ≠ []) {o : Json}
    (h : Refresh.oracleSignaturesOk cfg (crypto E poseidon sha256) o = .ok true) : Vouched E cfg o := by
  rw [Refresh.oracleSignaturesOk, if_neg (by rw [List.isEmpty_iff]; exact hne)] at h
  split at h
  · cases h
  · split at h
    · cases h
    · split at h
      · cases h
      · rename_i m hm
        rw [Js.bind_eq_ok] at h
        obtain ⟨msg, hmsg, h⟩ := h
        have hq := of_decide_eq_true (Except.ok.inj h)
        rw [List.countP_eq_length_filter] at hq
        refine ⟨msg, _, hmsg, hcfg.nodup.filter _, List.filter_subset_self _, hq, ?_⟩
        intro key hkey
        have hv := (List.mem_filter.mp hkey).2
        rw [Option.any_eq_true] at hv
        obtain ⟨sig, hl, hv⟩ := hv
        rcases byKey_holds rfl hm hl with h0 | ⟨entry, hmem, hh⟩
        · cases h0
        · exact ⟨entry, hmem, sig, hh, hv⟩

/-! ## A snapshot on its way -/

/-- The entry is labelled with the key, in some spelling, and its signature verifies. -/
def Vouches (E : Ed25519) (msg : List UInt8) (key : List UInt8) (entry : Json) : Prop :=
  ∃ sig, Holds (rawPublicB64 key) sig entry ∧ E.verify msg (bytesOf sig) key = true

/-- The entries of the snapshot are those of the keys, in order. -/
structure Carries (E : Ed25519) (msg : List UInt8) (keys : List (List UInt8)) (entries : List Json) (o : Json) : Prop where
  message : snapshotMessage o = .ok msg
  blockHash : isHash (o.field "blockHash") = true
  sigs : sigsOf o = .ok entries
  nodup : keys.Nodup
  vouches : List.Forall₂ (Vouches E msg) keys entries

theorem labelled_iff {msg key key' : List UInt8} {entry : Json} (h : Vouches E msg key entry) :
    labelled (rawPublicB64 key') entry = true ↔ key = key' := by
  obtain ⟨sig, ⟨label, hl, -, hc⟩, -⟩ := h
  rw [labelled, hl]
  simp only [hc, decide_eq_true_eq, Option.some.injEq]
  exact ⟨rawPublicB64_inj, fun h => h ▸ rfl⟩

theorem vouches_entryOf (msg : List UInt8) (sk : E.Secret) : Vouches E msg (E.publicKey sk) (entryOf E msg sk) := by
  refine ⟨signSnapshot E msg sk, ⟨rawPublicB64 (E.publicKey sk), rfl, rfl, ?_⟩, ?_⟩
  · exact canonicalKey_rawPublicB64 (E.publicKey_length sk)
  · rw [signSnapshot, bytesOf_base64]
    exact E.verify_sign sk msg

/-- Another spelling keeps the key of an entry, and its signature. -/
theorem vouches_respelled {msg key : List UInt8} {entry : Json} (label : String) (h : Vouches E msg key entry) :
    Vouches E msg key (respelled label entry) := by
  obtain ⟨sig, ⟨old, hl, hs, hc⟩, hv⟩ := h
  rw [respelled, hl]
  dsimp only
  by_cases hk : (canonicalKey old).isSome ∧ canonicalKey label = canonicalKey old
  · rw [if_pos hk]
    cases entry with
    | obj m =>
      refine ⟨sig, ⟨label, Json.field_set_self _ _ m, ?_, by rw [hk.2, hc]⟩, hv⟩
      rw [Json.field_set_ne (by decide), hs]
    | null | bool b | num d | str s | arr l => cases hl
  · rw [if_neg hk]
    exact ⟨sig, ⟨old, hl, hs, hc⟩, hv⟩

/-- The signed message does not read the signatures. -/
theorem snapshotMessage_set (v : Json) (o : Json) : snapshotMessage (o.set "sigs" v) = snapshotMessage o := by
  have hne {k : String} (h : k ≠ "sigs") : (o.set "sigs" v).field k = o.field k := Json.field_set_ne h v o
  simp only [snapshotMessage, messageFields, snapshotVersion, @hne "version" (by decide), @hne "height" (by decide),
    @hne "blockHash" (by decide), @hne "depth" (by decide), @hne "root" (by decide), @hne "shaRoot" (by decide),
    @hne "order" (by decide), @hne "chainlocked" (by decide), @hne "ts" (by decide)]

theorem obj_of_blockHash {o : Json} (h : isHash (o.field "blockHash") = true) : ∃ m, o = .obj m := by
  cases o with
  | obj m => exact ⟨m, rfl⟩
  | null | bool b | num d | str s | arr l => cases h

/-- New entries in a snapshot. -/
theorem Carries.set {msg : List UInt8} {keys keys' : List (List UInt8)} {entries entries' : List Json} {o : Json}
    (h : Carries E msg keys entries o) (hn : keys'.Nodup) (hv : List.Forall₂ (Vouches E msg) keys' entries') :
    Carries E msg keys' entries' (o.set "sigs" (.arr entries')) where
  message := by rw [snapshotMessage_set, h.message]
  blockHash := by rw [Json.field_set_ne (by decide), h.blockHash]
  sigs := by
    obtain ⟨m, rfl⟩ := obj_of_blockHash h.blockHash
    rw [sigsOf, Json.field_set_self]
  nodup := hn
  vouches := hv

/-! ## One step -/

/-- The keys of the entries, after a step. -/
def keysStep (E : Ed25519) (keys : List (List UInt8)) : Act E → List (List UInt8)
  | .sign sk => keys.filter (fun key => decide (key ≠ E.publicKey sk)) ++ [E.publicKey sk]
  | .respell _ _ => keys

/-- The entries, after `sk` has signed. -/
def signed (E : Ed25519) (msg : List UInt8) (sk : E.Secret) (entries : List Json) : List Json :=
  entries.filter (fun s => !labelled (rawPublicB64 (E.publicKey sk)) s) ++ [entryOf E msg sk]

theorem step_sign {msg : List UInt8} {keys : List (List UInt8)} {entries : List Json} {o : Json} (sk : E.Secret)
    (h : Carries E msg keys entries o) :
    ∃ o', step E o (.sign sk) = .ok o' ∧ Carries E msg (keysStep E keys (.sign sk)) (signed E msg sk entries) o' := by
  refine ⟨_, ?_, h.set ?_ ?_⟩
  · rw [step, addSignature, h.message, h.sigs]
    rfl
  · refine List.Nodup.append (h.nodup.filter _) (List.nodup_singleton _) (List.disjoint_singleton.mpr fun hmem => ?_)
    exact of_decide_eq_true (List.mem_filter.mp hmem).2 rfl
  · have hlab : ∀ ⦃key : List UInt8⦄ ⦃entry : Json⦄, Vouches E msg key entry →
        (decide (key ≠ E.publicKey sk) = true ↔ (!labelled (rawPublicB64 (E.publicKey sk)) entry) = true) := by
      intro key entry hk
      rw [decide_eq_true_eq, Bool.not_eq_true', Ne, ← labelled_iff hk, Bool.not_eq_true]
    exact List.rel_append (List.rel_filter hlab h.vouches) (.cons (vouches_entryOf msg sk) .nil)

theorem forall₂_modify {α β : Type*} {R : α → β → Prop} {f : β → β} (hf : ∀ a b, R a b → R a (f b)) {l : List α} :
    ∀ {l' : List β} (i : Nat), List.Forall₂ R l l' → List.Forall₂ R l (l'.modify i f) := by
  intro l' i h
  induction h generalizing i with
  | nil =>
    rw [List.modify_nil]
    exact .nil
  | cons hab h ih =>
    cases i with
    | zero => exact .cons (hf _ _ hab) h
    | succ i => exact .cons hab (ih i)

theorem step_respell {msg : List UInt8} {keys : List (List UInt8)} {entries : List Json} {o : Json} (i : Nat)
    (label : String) (h : Carries E msg keys entries o) :
    ∃ o' entries', step E o (.respell i label) = .ok o' ∧ Carries E msg keys entries' o' := by
  rw [step]
  split
  · rename_i l hl
    have he : entries = l := by
      have hs := h.sigs
      rw [sigsOf, hl, Except.ok.injEq] at hs
      exact hs.symm
    subst he
    exact ⟨_, _, rfl, h.set h.nodup (forall₂_modify (fun _ _ => vouches_respelled label) i h.vouches)⟩
  · exact ⟨o, entries, rfl, h⟩

/-! ## A run -/

theorem run_carries {msg : List UInt8} : ∀ (acts : List (Act E)) {keys : List (List UInt8)} {entries : List Json} {o : Json},
    Carries E msg keys entries o →
      ∃ o' entries', run E o acts = .ok o' ∧ Carries E msg (acts.foldl (keysStep E) keys) entries' o'
  | [], keys, entries, o, h => ⟨o, entries, rfl, h⟩
  | act :: acts, keys, entries, o, h => by
    have hstep : ∃ o₁ entries₁, step E o act = .ok o₁ ∧ Carries E msg (keysStep E keys act) entries₁ o₁ := by
      cases act with
      | sign sk =>
        obtain ⟨o₁, hs, hc⟩ := step_sign sk h
        exact ⟨o₁, _, hs, hc⟩
      | respell i label => exact step_respell i label h
    obtain ⟨o₁, entries₁, hs, hc⟩ := hstep
    obtain ⟨o', entries', hr, hc'⟩ := run_carries acts hc
    refine ⟨o', entries', ?_, hc'⟩
    rw [run, List.foldlM_cons, hs]
    exact hr

/-- A snapshot whose message does not form is not signed. -/
theorem run_error {e : String} : ∀ {acts : List (Act E)} {o : Json}, snapshotMessage o = .error e →
    (∃ sk, Act.sign sk ∈ acts) → run E o acts = .error e
  | [], o, _, h => by
    obtain ⟨sk, hsk⟩ := h
    cases hsk
  | .sign sk :: acts, o, he, _ => by
    rw [run, List.foldlM_cons, step, addSignature, he]
    rfl
  | .respell i label :: acts, o, he, h => by
    obtain ⟨sk, hsk⟩ := h
    have hsk' : Act.sign sk ∈ acts := by
      rcases List.mem_cons.mp hsk with hc | hc
      · cases hc
      · exact hc
    rw [run, List.foldlM_cons, step]
    refine run_error ?_ ⟨sk, hsk'⟩
    split
    · rw [snapshotMessage_set, he]
    · exact he

theorem mem_keys (acts : List (Act E)) (keys : List (List UInt8)) (key : List UInt8) :
    key ∈ acts.foldl (keysStep E) keys ↔ key ∈ keys ∨ ∃ sk, Act.sign sk ∈ acts ∧ E.publicKey sk = key := by
  induction acts generalizing keys with
  | nil => simp
  | cons act acts ih =>
    rw [List.foldl_cons, ih]
    cases act with
    | respell i label => simp [keysStep]
    | sign sk =>
      simp only [keysStep, List.mem_append, List.mem_filter, decide_eq_true_eq, List.mem_cons, List.not_mem_nil,
        or_false, Act.sign.injEq]
      by_cases hk : key = E.publicKey sk
      · constructor
        · exact fun _ => Or.inr ⟨sk, Or.inl rfl, hk.symm⟩
        · exact fun _ => Or.inl (Or.inr hk)
      · constructor
        · rintro ((h | h) | ⟨sk', h, hk'⟩)
          · exact Or.inl h.1
          · exact absurd h hk
          · exact Or.inr ⟨sk', Or.inr h, hk'⟩
        · rintro (h | ⟨sk', rfl | h, hk'⟩)
          · exact Or.inl (Or.inl ⟨h, hk⟩)
          · exact absurd hk'.symm hk
          · exact Or.inr ⟨sk', h, hk'⟩

/-! ## What the check makes of it -/

/-- No label is refused: the signatures stand under the keys. -/
theorem byKey_of_vouches {K : Refresh.Crypto} (hK : K.canonicalKey = canonicalKey) {msg : List UInt8}
    {keys : List (List UInt8)} {entries : List Json} (h : List.Forall₂ (Vouches E msg) keys entries) :
    ∀ {m : List (String × String)}, keys.Nodup → (∀ key ∈ keys, m.lookup (rawPublicB64 key) = none) →
      ∃ m', Refresh.byKey K entries m = some m' ∧ (∀ id, id ∉ keys.map rawPublicB64 → m'.lookup id = m.lookup id) ∧
        ∀ key ∈ keys, ∃ sig, m'.lookup (rawPublicB64 key) = some sig ∧ E.verify msg (bytesOf sig) key = true := by
  induction h with
  | nil => exact fun {m} _ _ => ⟨m, rfl, fun _ _ => rfl, fun _ h => absurd h List.not_mem_nil⟩
  | @cons key entry keys entries hv h ih =>
    intro m hn hm
    obtain ⟨sig, ⟨label, hl, hs, hc⟩, hver⟩ := hv
    have hfresh : ∀ key' ∈ keys, rawPublicB64 key' ≠ rawPublicB64 key := by
      intro key' hmem he
      exact (List.nodup_cons.mp hn).1 (rawPublicB64_inj he ▸ hmem)
    obtain ⟨m', hb, hother, hkeys⟩ := @ih (Assoc.set m (rawPublicB64 key) sig) (List.nodup_cons.mp hn).2 (by
      intro key' hmem
      rw [Assoc.lookup_set_of_ne (hfresh key' hmem)]
      exact hm key' (List.mem_cons_of_mem _ hmem))
    refine ⟨m', ?_, ?_, ?_⟩
    · rw [Refresh.byKey, hl, hs]
      simp only [hK, hc, hm key List.mem_cons_self, Option.isSome_none, Bool.false_eq_true, if_false, hb]
    · intro id hid
      rw [List.map_cons, List.mem_cons, not_or] at hid
      rw [hother id hid.2, Assoc.lookup_set_of_ne hid.1]
    · intro key' hmem
      rcases List.mem_cons.mp hmem with rfl | hmem
      · refine ⟨sig, ?_, hver⟩
        rw [hother _ ?_, Assoc.lookup_set_self]
        intro hmap
        obtain ⟨key'', hmem', he⟩ := List.mem_map.mp hmap
        exact hfresh key'' hmem' he
      · exact hkeys key' hmem

theorem sigs_of_sigsOf {o : Json} {entries : List Json} (h : sigsOf o = .ok entries) : Refresh.sigs o = entries := by
  rw [sigsOf] at h
  rw [Refresh.sigs]
  split at h <;> rename_i hf
  · rw [hf, ← Except.ok.inj h]
  · rw [hf, ← Except.ok.inj h]
  · rw [hf]
    exact Except.ok.inj h
  · cases h

theorem accepted_of_carries {msg : List UInt8} {keys : List (List UInt8)} {entries : List Json} {o : Json}
    (h : Carries E msg keys entries o) (hcap : keys.length ≤ Refresh.MAX_SNAPSHOT_SIGS)
    (htrust : ∀ key ∈ keys, rawPublicB64 key ∈ cfg.oraclePubkeys) (hq : cfg.oracleQuorum ≤ keys.length) :
    Refresh.oracleSignaturesOk cfg (crypto E poseidon sha256) o = .ok true := by
  rw [Refresh.oracleSignaturesOk]
  split
  · rfl
  · obtain ⟨m, hm, -, hkeys⟩ := byKey_of_vouches (K := crypto E poseidon sha256) (m := []) rfl h.vouches h.nodup
      fun _ _ => rfl
    have hcount : ¬ Refresh.MAX_SNAPSHOT_SIGS < entries.length := by
      rw [← h.vouches.length_eq]
      omega
    rw [if_neg (by rw [h.blockHash]; decide), sigs_of_sigsOf h.sigs, if_neg hcount, hm]
    simp only [h.message, Js.bind_eq_ok]
    refine ⟨msg, rfl, ?_⟩
    -- every key of the snapshot is one of those counted
    have hsub : keys.map rawPublicB64 ⊆ cfg.oraclePubkeys.filter fun trusted =>
        (m.lookup trusted).any fun sig => verifySnapshotSig E msg sig trusted := by
      intro id hid
      obtain ⟨key, hmem, rfl⟩ := List.mem_map.mp hid
      obtain ⟨sig, hl, hv⟩ := hkeys key hmem
      refine List.mem_filter.mpr ⟨htrust key hmem, ?_⟩
      rw [hl, Option.any_some, verifySnapshotSig, rawPublicB64, bytesOf_base64, hv]
    have hnodup : (keys.map rawPublicB64).Nodup := h.nodup.map fun _ _ => rawPublicB64_inj
    have hlen := (List.subperm_of_subset hnodup hsub).length_le
    rw [List.length_map] at hlen
    refine congrArg Except.ok (decide_eq_true ?_)
    rw [List.countP_eq_length_filter]
    exact hq.trans hlen

/-! ## Signing again -/

/-- The new entry stands last; the entry that `sk` had, if it had one, is gone, and the others stand as they stood. -/
def Replaces (E : Ed25519) (msg : List UInt8) (sk : E.Secret) (again : Prop) (entries entries' : List Json) : Prop :=
  ∃ before own after, entries = before ++ own ++ after ∧ entries' = before ++ after ++ [entryOf E msg sk] ∧
    (∀ entry ∈ own, labelled (rawPublicB64 (E.publicKey sk)) entry = true) ∧
    (∀ entry ∈ before ++ after, labelled (rawPublicB64 (E.publicKey sk)) entry = false) ∧
    (again → own.length = 1) ∧ (¬ again → own = [])

theorem unlabelled {msg key : List UInt8} {keys : List (List UInt8)} {entries : List Json}
    (h : List.Forall₂ (Vouches E msg) keys entries) (hk : key ∉ keys) :
    ∀ entry ∈ entries, labelled (rawPublicB64 key) entry = false := by
  induction h with
  | nil => exact fun _ h => absurd h List.not_mem_nil
  | cons hv h ih =>
    rw [List.mem_cons, not_or] at hk
    intro entry hmem
    rcases List.mem_cons.mp hmem with rfl | hmem
    · rw [← Bool.not_eq_true, labelled_iff hv]
      exact fun he => hk.1 he.symm
    · exact ih hk.2 entry hmem

theorem forall₂_split {α β : Type*} {R : α → β → Prop} {l₁ l₂ : List α} {a : α} : ∀ {l : List β},
    List.Forall₂ R (l₁ ++ a :: l₂) l → ∃ m₁ b m₂, l = m₁ ++ b :: m₂ ∧ List.Forall₂ R l₁ m₁ ∧ R a b ∧ List.Forall₂ R l₂ m₂ := by
  induction l₁ with
  | nil =>
    rintro _ (_ | ⟨hab, h⟩)
    exact ⟨[], _, _, rfl, .nil, hab, h⟩
  | cons x l₁ ih =>
    rintro _ (_ | ⟨hxb, h⟩)
    obtain ⟨m₁, b, m₂, rfl, h₁, hab, h₂⟩ := ih h
    exact ⟨_ :: m₁, b, m₂, rfl, .cons hxb h₁, hab, h₂⟩

theorem filter_unlabelled {key : String} {entries : List Json} (h : ∀ entry ∈ entries, labelled key entry = false) :
    entries.filter (fun s => !labelled key s) = entries := by
  rw [List.filter_eq_self]
  intro entry hmem
  rw [h entry hmem]
  rfl

theorem replaces_signed {msg : List UInt8} {keys : List (List UInt8)} {entries : List Json} {o : Json} (sk : E.Secret)
    (h : Carries E msg keys entries o) :
    Replaces E msg sk (E.publicKey sk ∈ keys) entries (signed E msg sk entries) := by
  by_cases hk : E.publicKey sk ∈ keys
  · obtain ⟨keys₁, keys₂, rfl⟩ := List.append_of_mem hk
    obtain ⟨before, own, after, rfl, h₁, hv, h₂⟩ := forall₂_split h.vouches
    have hn := (List.nodup_cons.mp (List.nodup_middle.mp h.nodup)).1
    rw [List.mem_append, not_or] at hn
    have hbefore := unlabelled h₁ hn.1
    have hafter := unlabelled h₂ hn.2
    have hown := (labelled_iff hv).mpr rfl
    refine ⟨before, [own], after, ?_, ?_, ?_, ?_, ?_, ?_⟩
    · rw [List.append_assoc, List.singleton_append]
    · rw [signed, List.filter_append, List.filter_cons, if_neg (by rw [hown]; decide), filter_unlabelled hbefore,
        filter_unlabelled hafter]
    · intro entry hmem
      rw [List.mem_singleton.mp hmem, hown]
    · intro entry hmem
      exact (List.mem_append.mp hmem).elim (hbefore entry) (hafter entry)
    · exact fun _ => rfl
    · exact fun hno => absurd hk hno
  · refine ⟨entries, [], [], ?_, ?_, ?_, ?_, ?_, ?_⟩
    · rw [List.append_nil, List.append_nil]
    · rw [signed, filter_unlabelled (unlabelled h.vouches hk), List.append_nil]
    · exact fun _ hmem => absurd hmem List.not_mem_nil
    · rw [List.append_nil]
      exact unlabelled h.vouches hk
    · exact fun hmem => absurd hmem hk
    · exact fun _ => rfl

end

/-! ## The two sides together -/

/-- A quorum of distinct trusted signers, under the cap. -/
structure Quorum (E : Ed25519) (cfg : Refresh.Config) (signers : List E.Secret) : Prop where
  distinct : (signers.map E.publicKey).Nodup
  trusted : ∀ sk ∈ signers, rawPublicB64 (E.publicKey sk) ∈ cfg.oraclePubkeys
  quorum : cfg.oracleQuorum ≤ signers.length
  cap : signers.length ≤ Refresh.MAX_SNAPSHOT_SIGS

/-- The signatures of the run are those of the signers, each of which signs. -/
def SignedBy {E : Ed25519} (signers : List E.Secret) (acts : List (Act E)) : Prop := ∀ sk, Act.sign sk ∈ acts ↔ sk ∈ signers

/-- The run ends with a snapshot that the gateway accepts, and each of its signatures replaces the signer's own. -/
def Accepted (E : Ed25519) (cfg : Refresh.Config) (K : Refresh.Crypto) (o : Json) (acts : List (Act E)) : Prop :=
  (∃ o', run E o acts = .ok o' ∧ Refresh.oracleSignaturesOk cfg K o' = .ok true) ∧
  ∀ before sk after, acts = before ++ Act.sign sk :: after → ∃ msg o₁ o₂ entries entries',
    snapshotMessage o = .ok msg ∧ run E o before = .ok o₁ ∧ sigsOf o₁ = .ok entries ∧
    step E o₁ (.sign sk) = .ok o₂ ∧ sigsOf o₂ = .ok entries' ∧ Replaces E msg sk (Act.sign sk ∈ before) entries entries'

section

variable {E : Ed25519} {poseidon : Nat → Nat → Nat} {sha256 : List UInt8 → List UInt8} {cfg : Refresh.Config}

/-- The keys that are carried at the end are the signers'. -/
theorem mem_signers {signers : List E.Secret} {acts : List (Act E)} (h : SignedBy signers acts) (key : List UInt8) :
    key ∈ acts.foldl (keysStep E) [] ↔ key ∈ signers.map E.publicKey := by
  rw [mem_keys, List.mem_map]
  constructor
  · rintro (hmem | ⟨sk, hmem, hk⟩)
    · cases hmem
    · exact ⟨sk, (h sk).mp hmem, hk⟩
  · rintro ⟨sk, hmem, hk⟩
    exact Or.inr ⟨sk, (h sk).mpr hmem, hk⟩

theorem signed_accepted {o : Json} {msg : List UInt8} (hmsg : snapshotMessage o = .ok msg)
    (hb : isHash (o.field "blockHash") = true) (hu : Unsigned o) {signers : List E.Secret} (hq : Quorum E cfg signers)
    {acts : List (Act E)} (hs : SignedBy signers acts) : Accepted E cfg (crypto E poseidon sha256) o acts := by
  have h0 : Carries E msg [] [] o := ⟨hmsg, hb, hu, List.nodup_nil, .nil⟩
  constructor
  · obtain ⟨o', entries, hr, hc⟩ := run_carries acts h0
    have hperm := (List.perm_ext_iff_of_nodup hc.nodup hq.distinct).mpr (mem_signers hs)
    have hlen := hperm.length_eq
    rw [List.length_map] at hlen
    refine ⟨o', hr, accepted_of_carries hc (hlen ▸ hq.cap) ?_ (hlen ▸ hq.quorum)⟩
    intro key hmem
    obtain ⟨sk, hsk, rfl⟩ := List.mem_map.mp ((mem_signers hs key).mp hmem)
    exact hq.trusted sk hsk
  · rintro before sk after rfl
    obtain ⟨o₁, entries, hr, hc⟩ := run_carries before h0
    obtain ⟨o₂, hst, hc₂⟩ := step_sign sk hc
    have hagain : E.publicKey sk ∈ before.foldl (keysStep E) [] ↔ Act.sign sk ∈ before := by
      rw [mem_keys]
      constructor
      · rintro (hmem | ⟨sk', hmem, hk⟩)
        · cases hmem
        · have hin : sk' ∈ signers := (hs sk').mp (List.mem_append_left _ hmem)
          have hin' : sk ∈ signers := (hs sk).mp (List.mem_append_right _ List.mem_cons_self)
          rwa [← List.inj_on_of_nodup_map hq.distinct hin hin' hk]
      · exact fun hmem => Or.inr ⟨sk, hmem, rfl⟩
    have hrep := replaces_signed sk hc
    rw [hagain] at hrep
    exact ⟨msg, o₁, o₂, entries, _, hmsg, hr, hc.sigs, hst, hc₂.sigs, hrep⟩

/-- The check asks for a quorum of trusted keys, and is met by any quorum of trusted signers, in whatever order and
however often they sign, and however their labels are spelled on the way. -/
theorem signing_quorum (hcfg : Configured cfg) :
    (∀ o, cfg.oraclePubkeys ≠ [] → Refresh.oracleSignaturesOk cfg (crypto E poseidon sha256) o = .ok true →
      Vouched E cfg o) ∧
    ∀ (o : Json) (signers : List E.Secret) (acts : List (Act E)), isHash (o.field "blockHash") = true → Unsigned o →
      Quorum E cfg signers → SignedBy signers acts →
        Accepted E cfg (crypto E poseidon sha256) o acts ∨
        ∃ e, snapshotMessage o = .error e ∧ run E o acts = .error e := by
  refine ⟨fun o hne h => quorum_vouches hcfg hne h, ?_⟩
  intro o signers acts hb hu hq hs
  cases hmsg : snapshotMessage o with
  | ok msg => exact Or.inl (signed_accepted hmsg hb hu hq hs)
  | error e =>
    refine Or.inr ⟨e, rfl, run_error hmsg ?_⟩
    have hpos : 0 < signers.length := hcfg.quorum_pos.trans hq.quorum
    obtain ⟨sk, hmem⟩ := List.exists_mem_of_length_pos hpos
    exact ⟨sk, (hs sk).mpr hmem⟩

/-- Two signers that sign with their keys. -/
def duo : Ed25519 where
  Secret := Bool
  publicKey sk := List.replicate 32 (if sk then 1 else 0)
  sign sk _ := List.replicate 32 (if sk then 1 else 0)
  verify _ sig key := decide (sig = key)
  publicKey_length _ := List.length_replicate
  verify_sign _ _ := decide_eq_true rfl

def duoKeys : List String := [rawPublicB64 (duo.publicKey false), rawPublicB64 (duo.publicKey true)]

def duoConfig : Refresh.Config where
  treeDepth := 1
  oracleMaxAgeSeconds := 0
  oracleFutureSkewSeconds := 0
  limits := ⟨1, Nat.one_pos, 0⟩
  nodeMode := false
  oraclePubkeys := duoKeys
  oracleQuorum := 2
  requireShaRoot := false
  twoTier := false

theorem duo_configured : Configured duoConfig :=
  ⟨⟨String.ofList ("AAAAAAAAAAAAAAAAAAAAAAAAAAAAAAAAAAAAAAAAAAA, ".toList ++ (rawPublicB64 (duo.publicKey true)).toList),
    by decide⟩, by decide⟩

def unsignedSnapshot : Json :=
  .obj [("height", .num (.ofNat 7)), ("blockHash", .str (String.ofList (List.replicate 64 '0'))), ("depth", .num (.ofNat 1)),
    ("root", .str "0"), ("leaves", .arr []), ("ts", .num (.ofNat 5))]

theorem duo_quorum : Quorum duo duoConfig [false, true] where
  distinct := by decide
  trusted := by decide
  quorum := by decide
  cap := by decide

/-- The first entry is spelled without its padding before the first signer signs again. -/
def duoActs : List (Act duo) :=
  [.sign false, .respell 0 (String.ofList (List.replicate 43 'A')), .sign true, .sign false]

theorem duo_signedBy : SignedBy [false, true] duoActs := by
  intro sk
  cases sk with
  | false => exact ⟨fun _ => List.mem_cons_self, fun _ => List.mem_cons_self⟩
  | true =>
    exact ⟨fun _ => List.mem_cons_of_mem _ List.mem_cons_self,
      fun _ => List.mem_cons_of_mem _ (List.mem_cons_of_mem _ List.mem_cons_self)⟩

theorem signing_quorum_duo : Accepted duo duoConfig (crypto duo (fun _ _ => 0) id) unsignedSnapshot duoActs ∧
    ∃ o', run duo unsignedSnapshot duoActs = .ok o' ∧ Vouched duo duoConfig o' := by
  have h := @signing_quorum duo (fun _ _ => 0) id duoConfig duo_configured
  have hok : (snapshotMessage unsignedSnapshot).toOption.isSome = true := by decide
  have hacc := (h.2 unsignedSnapshot [false, true] duoActs (by decide) rfl duo_quorum duo_signedBy).resolve_right (by
    rintro ⟨e, he, -⟩
    rw [he] at hok
    cases hok)
  obtain ⟨o', hr, ha⟩ := hacc.1
  exact ⟨hacc, o', hr, h.1 o' (by decide) ha⟩

end

end OracleSig
