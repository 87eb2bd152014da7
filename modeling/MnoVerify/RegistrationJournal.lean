import MnoVerify.RefreshSound
import MnoVerify.RegistrationEngines

/-!
# The journal and its claims

`decodeZkvmRegistrationClaims` against the bytes the guest commits. `decode_bijective`: the journals it accepts are, one to
one, the tuples of canonical texts.
-/

namespace RegistrationEngines

open Field (Scalar FIELD_PRIME)
open OracleLeaves (bigEndian)
open Snapshot (require_eq_ok natText hexOf)

/-! ## Bytes -/

@[simp] theorem length_toBE (k n : Nat) : (toBE k n).length = k := by
  rw [toBE, List.length_reverse, Bytes.length_toLE]

@[simp] theorem length_frToBe32 (v : Scalar) : (frToBe32 v).length = 32 := length_toBE 32 _

theorem bigEndian_toBE {k n : Nat} (h : n < 256 ^ k) : bigEndian (toBE k n) = n := by
  rw [bigEndian, toBE, List.reverse_reverse, Bytes.ofLE_toLE k h]

theorem toBE_bigEndian {k : Nat} {bytes : List UInt8} (h : bytes.length = k) : toBE k (bigEndian bytes) = bytes := by
  have hlen : bytes.reverse.length = k := by rw [List.length_reverse, h]
  rw [toBE, bigEndian, ← hlen, Bytes.toLE_ofLE, List.reverse_reverse]

theorem bigEndian_lt {k : Nat} {bytes : List UInt8} (h : bytes.length = k) : bigEndian bytes < 256 ^ k := by
  have hlt := Bytes.ofLE_lt bytes.reverse
  rwa [List.length_reverse, h] at hlt

theorem lt_bytes {n : Nat} (h : n < FIELD_PRIME) : n < 256 ^ 32 := lt_trans h (by decide)

theorem bigEndian_frToBe32 (v : Scalar) : bigEndian (frToBe32 v) = v.val := bigEndian_toBE (lt_bytes v.val_lt)

theorem frToBe32_bigEndian {bytes : List UInt8} (h : bytes.length = 32) (hlt : bigEndian bytes < FIELD_PRIME) :
    frToBe32 (bigEndian bytes : Scalar) = bytes := by
  rw [frToBe32, ZMod.val_natCast_of_lt hlt, toBE_bigEndian h]

theorem subarray_head {a b : List UInt8} {n : Nat} (h : a.length = n) : subarray (a ++ b) 0 n = a := by
  rw [subarray, List.drop_zero, List.take_left' h]

theorem subarray_skip {a b : List UInt8} {k : Nat} (h : a.length = k) (off : Nat) {n : Nat} :
    subarray (a ++ b) (k + off) n = subarray b off n := by
  rw [subarray, ← h, List.drop_length_add_append, subarray]

theorem length_subarray {j : List UInt8} {off n : Nat} (h : off + n ≤ j.length) : (subarray j off n).length = n := by
  rw [subarray, List.length_take, List.length_drop]
  omega

/-! ## Texts -/

theorem value_natText (n : Nat) : Field.value (natText n).toList = n := by
  rw [natText, String.toList_ofList]
  exact Nat.ofDigitChars_ten_toDigits

theorem natText_inj {m n : Nat} (h : natText m = natText n) : m = n := by
  rw [← value_natText m, h, value_natText]

theorem natText_value {s : String} (h : Field.isDecimal s.toList = true) : natText (Field.value s.toList) = s := by
  rw [natText, Field.toDigits_value h, String.ofList_toList]

theorem isCanonical_natText {n : Nat} (h : n < FIELD_PRIME) : Field.isCanonical (natText n).toList = true := by
  rw [natText, String.toList_ofList]
  exact Field.isCanonical_toDigits h

theorem isCanonical_natText_iff (n : Nat) : Field.isCanonical (natText n).toList = true ↔ n < FIELD_PRIME := by
  constructor
  · intro h
    have hlt := Field.value_lt_of_isCanonical h
    rwa [value_natText] at hlt
  · exact isCanonical_natText

/-! ## What the guest commits -/

/-- The five parts of a journal, by their types in the guest. -/
structure Entry where
  commitment : Scalar
  regNullifier : Scalar
  root : Vector UInt8 32
  season : UInt64
  contextHash : Scalar

namespace Entry

variable (e : Entry)

def journal : List UInt8 :=
  frToBe32 e.commitment ++
    (frToBe32 e.regNullifier ++ (e.root.toList ++ (toBE 8 e.season.toNat ++ frToBe32 e.contextHash)))

/-- The parts as texts. -/
def claims : Claims where
  commitment := natText e.commitment.val
  regNullifier := natText e.regNullifier.val
  root := String.ofList (hexOf e.root.toList)
  season := natText e.season.toNat
  contextHash := natText e.contextHash.val

theorem length_journal : e.journal.length = REG_JOURNAL_BYTES := by
  simp only [journal, List.length_append, length_frToBe32, length_toBE, Vector.length_toList]
  rfl

/-- Each part lies behind the ones before it. -/
theorem subarrays : subarray e.journal 0 32 = frToBe32 e.commitment ∧ subarray e.journal 32 32 = frToBe32 e.regNullifier ∧
    subarray e.journal 64 32 = e.root.toList ∧ subarray e.journal 96 8 = toBE 8 e.season.toNat ∧
    subarray e.journal 104 32 = frToBe32 e.contextHash := by
  have hroot : e.root.toList.length = 32 := Vector.length_toList
  refine ⟨subarray_head (length_frToBe32 _), ?_, ?_, ?_, ?_⟩
  · rw [journal, subarray_skip (length_frToBe32 _) 0, subarray_head (length_frToBe32 _)]
  · rw [journal, subarray_skip (length_frToBe32 _) 32, subarray_skip (length_frToBe32 _) 0, subarray_head hroot]
  · rw [journal, subarray_skip (length_frToBe32 _) 64, subarray_skip (length_frToBe32 _) 32, subarray_skip hroot 0,
      subarray_head (length_toBE 8 _)]
  · rw [journal, subarray_skip (length_frToBe32 _) 72, subarray_skip (length_frToBe32 _) 40, subarray_skip hroot 8,
      subarray_skip (length_toBE 8 _) 0]
    exact List.take_of_length_le (le_of_eq (length_frToBe32 _))

theorem decode_journal : decodeZkvmRegistrationClaims e.journal = .ok e.claims := by
  have hseason : e.season.toNat < 256 ^ 8 := e.season.toNat_lt
  obtain ⟨h0, h32, h64, h96, h104⟩ := e.subarrays
  rw [decodeZkvmRegistrationClaims, if_neg (not_not.2 e.length_journal)]
  simp only [h0, h32, h64, h96, h104, bigEndian_frToBe32, bigEndian_toBE hseason, List.all_cons, List.all_nil,
    isCanonical_natText (ZMod.val_lt _)]
  rfl

theorem claims_inj {e e' : Entry} (h : e.claims = e'.claims) : e = e' := by
  simp only [claims, Claims.mk.injEq, String.ofList_inj, Refresh.hexOf_eq_toHex] at h
  obtain ⟨h1, h2, h3, h4, h5⟩ := h
  have hroot : e.root = e'.root := Vector.toList_inj.1 (Bytes.toHex_inj h3)
  have hseason : e.season = e'.season := UInt64.toNat_inj.1 (natText_inj h4)
  cases e
  cases e'
  simp only [mk.injEq]
  exact ⟨ZMod.val_injective _ (natText_inj h1), ZMod.val_injective _ (natText_inj h2), hroot, hseason,
    ZMod.val_injective _ (natText_inj h5)⟩

end Entry

/-! ## What the decoder accepts -/

/-- The tuples of canonical texts. -/
structure Canonical (c : Claims) : Prop where
  commitment : Field.isCanonical c.commitment.toList = true
  regNullifier : Field.isCanonical c.regNullifier.toList = true
  root : Bytes.isHex 32 c.root.toList = true ∧ c.root.toList.map Char.toLower = c.root.toList
  season : Field.isDecimal c.season.toList = true ∧ Field.value c.season.toList < 2 ^ 64
  contextHash : Field.isCanonical c.contextHash.toList = true

theorem Entry.canonical (e : Entry) : Canonical e.claims := by
  have hhex := Bytes.isHex_toHex e.root.toList
  rw [Vector.length_toList] at hhex
  have hseason : Field.isDecimal (natText e.season.toNat).toList = true := by
    rw [natText, String.toList_ofList]
    exact Field.isDecimal_toDigits _
  refine ⟨isCanonical_natText (ZMod.val_lt _), isCanonical_natText (ZMod.val_lt _), ?_, ⟨hseason, ?_⟩,
    isCanonical_natText (ZMod.val_lt _)⟩
  · rw [claims, String.toList_ofList, Refresh.hexOf_eq_toHex]
    exact hhex
  · rw [claims, value_natText]
    exact e.season.toNat_lt

/-- A canonical text of an element is the text of its value. -/
theorem natText_val {s : String} (h : Field.isCanonical s.toList = true) :
    natText (Field.value s.toList : Scalar).val = s := by
  rw [ZMod.val_natCast_of_lt (Field.value_lt_of_isCanonical h), natText_value (Field.isDecimal_of_isCanonical h)]

/-- Canonical texts are those of one journal. -/
theorem Canonical.entry {c : Claims} (h : Canonical c) : ∃ e : Entry, e.claims = c := by
  obtain ⟨hhex, hlen⟩ := Bytes.toHex_fromHex h.root.1
  rw [h.root.2] at hhex hlen
  refine ⟨⟨(Field.value c.commitment.toList : Nat), (Field.value c.regNullifier.toList : Nat),
    ⟨(Bytes.fromHex c.root.toList).toArray, hlen⟩, UInt64.ofNat (Field.value c.season.toList),
    (Field.value c.contextHash.toList : Nat)⟩, ?_⟩
  have hseason : (UInt64.ofNat (Field.value c.season.toList)).toNat = Field.value c.season.toList :=
    UInt64.toNat_ofNat_of_lt' h.season.2
  have hroot : String.ofList (hexOf (Bytes.fromHex c.root.toList)) = c.root := by
    rw [Refresh.hexOf_eq_toHex, hhex, String.ofList_toList]
  rw [Entry.claims, natText_val h.commitment, natText_val h.regNullifier, natText_val h.contextHash, hseason,
    natText_value h.season.1]
  exact congrArg (fun r => (⟨_, _, r, _, _⟩ : Claims)) hroot

/-- The journals of 136 bytes whose three field slots are below the modulus. -/
def Accepted (journal : List UInt8) : Prop :=
  journal.length = REG_JOURNAL_BYTES ∧ ∀ off ∈ [0, 32, 104], bigEndian (subarray journal off 32) < FIELD_PRIME

theorem decode_ok_iff (journal : List UInt8) :
    (∃ c, decodeZkvmRegistrationClaims journal = .ok c) ↔ Accepted journal := by
  have hall : ([0, 32, 104].all fun off => Field.isCanonical (natText (bigEndian (subarray journal off 32))).toList) = true ↔
      ∀ off ∈ [0, 32, 104], bigEndian (subarray journal off 32) < FIELD_PRIME := by
    rw [List.all_eq_true]
    exact forall₂_congr fun off _ => isCanonical_natText_iff _
  have accepts : ∀ (b : Bool) (claims : Claims), journal.length = REG_JOURNAL_BYTES →
      ((∃ c, (if !b then Except.error "non-canonical-signal" else .ok claims) = .ok c) ↔
        journal.length = REG_JOURNAL_BYTES ∧ b = true) := fun b claims hlen => by
    cases b with
    | true => exact ⟨fun _ => ⟨hlen, rfl⟩, fun _ => ⟨claims, rfl⟩⟩
    | false => exact ⟨fun ⟨c, hc⟩ => (by cases hc), fun h => (by cases h.2)⟩
  rw [Accepted, ← hall, decodeZkvmRegistrationClaims]
  by_cases hlen : journal.length = REG_JOURNAL_BYTES
  · rw [if_neg (not_not.2 hlen)]
    exact accepts _ _ hlen
  · rw [if_pos hlen]
    exact ⟨fun ⟨c, hc⟩ => (by cases hc), fun h => absurd h.1 hlen⟩

/-- An accepted journal is that of its parts. -/
theorem Accepted.entry {journal : List UInt8} (h : Accepted journal) : ∃ e : Entry, e.journal = journal := by
  obtain ⟨hlen, hlt⟩ := h
  rw [REG_JOURNAL_BYTES] at hlen
  have field : ∀ off ∈ [0, 32, 104], off + 32 ≤ 136 →
      frToBe32 (bigEndian (subarray journal off 32) : Scalar) = subarray journal off 32 := fun off hoff hle =>
    frToBe32_bigEndian (length_subarray (by omega)) (hlt off hoff)
  have hroot : (subarray journal 64 32).length = 32 := length_subarray (by omega)
  have hseason : (subarray journal 96 8).length = 8 := length_subarray (by omega)
  have hnat : (UInt64.ofNat (bigEndian (subarray journal 96 8))).toNat = bigEndian (subarray journal 96 8) :=
    UInt64.toNat_ofNat_of_lt' (bigEndian_lt hseason)
  refine ⟨⟨(bigEndian (subarray journal 0 32) : Nat), (bigEndian (subarray journal 32 32) : Nat),
    ⟨(subarray journal 64 32).toArray, hroot⟩, UInt64.ofNat (bigEndian (subarray journal 96 8)),
    (bigEndian (subarray journal 104 32) : Nat)⟩, ?_⟩
  rw [Entry.journal, field 0 (by decide) (by decide), field 32 (by decide) (by decide), field 104 (by decide) (by decide),
    hnat, toBE_bigEndian hseason]
  have slice : ∀ off n : Nat, subarray journal off n ++ journal.drop (off + n) = journal.drop off := fun off n => by
    rw [subarray, ← List.drop_drop, List.take_append_drop]
  have hlast : subarray journal 104 32 = journal.drop 104 :=
    List.take_of_length_le (by rw [List.length_drop]; omega)
  calc _ = subarray journal 0 32 ++ (subarray journal 32 32 ++ (subarray journal 64 32 ++ (subarray journal 96 8 ++
        journal.drop 104))) := by rw [hlast]; rfl
    _ = journal := by rw [slice 96 8, slice 64 32, slice 32 32, slice 0 32, List.drop_zero]

/-! ## The bijection -/

section
variable (P : Primitives) (poseidon : Poseidon)

/-- The journal of a run of the guest is that of its five values. -/
theorem guest_journal {d secret : List UInt8} {pathSiblings : List (List UInt8)} {pathBits : List UInt8}
    {root : Vector UInt8 32} {season : UInt64} {contextHash journal : List UInt8}
    (h : guest P poseidon d secret pathSiblings pathBits root.toList season contextHash = .ok journal) :
    ∃ e : Entry, e.journal = journal ∧ e.root = root ∧ e.season = season ∧ frToBe32 e.contextHash = contextHash ∧
      e.commitment = poseidon [(bigEndian secret : Scalar)] := by
  have canonical : ∀ {bytes : List UInt8} {what : String} {v : Scalar}, frFromBeCanonical bytes what = .ok v →
      v = (bigEndian bytes : Scalar) ∧ frToBe32 v = bytes := by
    intro bytes what v hv
    rw [frFromBeCanonical] at hv
    simp only [Js.bind_eq_ok, require_eq_ok, exists_const, decide_eq_true_eq] at hv
    obtain ⟨hround, hv⟩ := hv
    cases hv
    exact ⟨rfl, hround⟩
  unfold guest at h
  simp only [Js.bind_eq_ok, require_eq_ok, exists_const, decide_eq_true_eq] at h
  obtain ⟨-, -, -, node, -, -, s, hs, c, hc, h⟩ := h
  obtain ⟨rfl, -⟩ := canonical hs
  obtain ⟨-, hround⟩ := canonical hc
  rw [← Except.ok.inj h, ← hround]
  exact ⟨⟨_, _, root, season, c⟩, rfl, rfl, rfl, rfl, rfl⟩

end

theorem decode_bijective :
    (∀ journal, (∃ c, decodeZkvmRegistrationClaims journal = .ok c) ↔ Accepted journal) ∧
      (∀ journal c, decodeZkvmRegistrationClaims journal = .ok c → Canonical c) ∧
      (∀ c, Canonical c → ∃! journal, decodeZkvmRegistrationClaims journal = .ok c) ∧
      (∀ c, Canonical c → ∃! e : Entry, e.claims = c) ∧
      (∀ e : Entry, decodeZkvmRegistrationClaims e.journal = .ok e.claims) ∧
      ∀ (P : Primitives) (poseidon : Poseidon) (d secret : List UInt8) (pathSiblings : List (List UInt8))
        (pathBits : List UInt8) (root : Vector UInt8 32) (season : UInt64) (contextHash journal : List UInt8),
        guest P poseidon d secret pathSiblings pathBits root.toList season contextHash = .ok journal →
          ∃ e : Entry, e.journal = journal ∧ e.root = root ∧ e.season = season ∧ frToBe32 e.contextHash = contextHash ∧
            e.commitment = poseidon [(bigEndian secret : Scalar)] := by
  have of_ok : ∀ {journal c}, decodeZkvmRegistrationClaims journal = .ok c → ∃ e : Entry, e.journal = journal ∧ e.claims = c := by
    intro journal c h
    obtain ⟨e, rfl⟩ := ((decode_ok_iff journal).1 ⟨c, h⟩).entry
    rw [e.decode_journal] at h
    exact ⟨e, rfl, Except.ok.inj h⟩
  refine ⟨decode_ok_iff, fun journal c h => ?_, fun c h => ?_, fun c h => ?_, Entry.decode_journal,
    fun P poseidon d secret pathSiblings pathBits root season contextHash journal => guest_journal P poseidon⟩
  · obtain ⟨e, -, rfl⟩ := of_ok h
    exact e.canonical
  · obtain ⟨e, rfl⟩ := h.entry
    refine ⟨e.journal, e.decode_journal, fun journal hj => ?_⟩
    obtain ⟨e', rfl, he⟩ := of_ok hj
    rw [Entry.claims_inj he]
  · obtain ⟨e, rfl⟩ := h.entry
    exact ⟨e, rfl, fun e' he => Entry.claims_inj he⟩

/-- The entry of zeros. -/
def zeroEntry : Entry := ⟨0, 0, .replicate 32 0, 0, 0⟩

theorem decode_zeroEntry : ∃! journal, decodeZkvmRegistrationClaims journal = .ok zeroEntry.claims :=
  decode_bijective.2.2.1 _ zeroEntry.canonical

end RegistrationEngines
