import MnoVerify.Codec
import MnoVerify.QuorumCommitment
import MnoVerify.ReaderSound

/-!
# The encoding of a coinbase

The reader of a coinbase with the fields that it walks, and its encoder. The two are inverse, so an accepted byte string is
the one encoding of its fields; `compactSize` of the other file is the encoder of the reader's `varint`.
-/

namespace DmlCommitment

open Bytes Js Codec
open Snapshot (require require_eq_ok)

namespace Reader

/-! ## The operations of the reader -/

theorem run_take (n : Nat) (s b r : List UInt8) :
    (take n).run s = .ok (b, r) ↔ n ≤ s.length ∧ b = s.take n ∧ r = s.drop n := by
  by_cases hn : n ≤ s.length
  · have h1 : (take n).run s = .ok (s.take n, s.drop n) := if_pos hn
    rw [h1]
    constructor
    · intro h
      cases h
      exact ⟨hn, rfl, rfl⟩
    · rintro ⟨_, rfl, rfl⟩
      rfl
  · have h1 : (take n).run s = .error "truncated while reading" := if_neg hn
    rw [h1]
    exact ⟨fun h => (nomatch h), fun h => absurd h.1 hn⟩

theorem reads_take (n : Nat) : Reads (take n) id fun b => b.length = n := by
  intro s b r
  constructor
  · intro h
    exact ⟨(take_ok h).2, (take_ok h).1⟩
  · rintro ⟨rfl, rfl⟩
    rw [run_take]
    exact ⟨by simp, by simp, by simp⟩

theorem run_ask_bind {α : Type} {c : Bool} {message : String} {k : Unit → Reader α} {s r : List UInt8} {a : α} :
    (ask c message >>= k).run s = .ok (a, r) ↔ c = true ∧ (k ()).run s = .ok (a, r) := by
  cases c with
  | true => exact ⟨fun h => ⟨rfl, h⟩, fun h => h.2⟩
  | false => exact ⟨fun h => (nomatch h), fun h => (nomatch h.1)⟩

/-- A little-endian number of `n` bytes. -/
theorem reads_ofLE (n : Nat) : Reads (do return ofLE (← take n) : Reader Nat) (toLE n) (· < 256 ^ n) := by
  intro s v r
  constructor
  · intro h
    exact ⟨(ofLE_take_ok h).2, (ofLE_take_ok h).1⟩
  · rintro ⟨hv, rfl⟩
    rw [(reads_take n).bind_iff]
    refine ⟨toLE n v, r, ⟨length_toLE n v, rfl⟩, ?_⟩
    rw [ofLE_toLE n hv]
    rfl

theorem reads_u16 : Reads u16 (toLE 2) (· < 256 ^ 2) := reads_ofLE 2

theorem reads_u32 : Reads u32 (toLE 4) (· < 256 ^ 4) := reads_ofLE 4

theorem run_wide {width least v : Nat} (hl : least ≤ v) (hv : v < 256 ^ width) (r : List UInt8) :
    (wide width least).run (toLE width v ++ r) = .ok (v, r) := by
  unfold wide
  rw [(reads_take width).bind_iff]
  refine ⟨toLE width v, r, ⟨length_toLE width v, rfl⟩, ?_⟩
  dsimp only
  rw [ofLE_toLE width hv, run_ask_bind]
  exact ⟨decide_eq_true hl, rfl⟩

theorem varint_le {s r : List UInt8} {v : Nat} (h : varint.run s = .ok (v, r)) : v ≤ 2 ^ 53 - 1 := by
  obtain ⟨b, s', _, h⟩ := run_bind_eq_ok.1 h
  dsimp only at h
  split at h
  · obtain ⟨rfl, _⟩ := pure_ok h
    omega
  split at h
  · obtain ⟨_, _, hlt⟩ := wide_ok h
    omega
  split at h
  · obtain ⟨_, _, hlt⟩ := wide_ok h
    omega
  · obtain ⟨w, s'', _, h⟩ := run_bind_eq_ok.1 h
    obtain ⟨_, _, hask, h⟩ := run_bind_eq_ok.1 h
    obtain ⟨rfl, _⟩ := pure_ok h
    exact of_decide_eq_true (ask_ok hask).1

theorem run_compact {v : Nat} (hv : v ≤ 2 ^ 53 - 1) (r : List UInt8) : varint.run (compact v ++ r) = .ok (v, r) := by
  unfold varint compact
  rw [(reads_take 1).bind_iff]
  by_cases h1 : v < 0xfd
  · refine ⟨toLE 1 v, r, ⟨length_toLE 1 v, by rw [if_pos h1, id]⟩, ?_⟩
    dsimp only
    rw [ofLE_toLE 1 (by omega), if_pos h1]
    rfl
  by_cases h2 : v ≤ 0xffff
  · refine ⟨toLE 1 0xfd, toLE 2 v ++ r, ⟨length_toLE 1 _, by rw [if_neg h1, if_pos h2, List.append_assoc, id]⟩, ?_⟩
    dsimp only
    rw [ofLE_toLE 1 (by decide), if_neg (by decide), if_pos rfl]
    exact run_wide (by omega) (by omega) r
  by_cases h3 : v ≤ 0xffffffff
  · refine ⟨toLE 1 0xfe, toLE 4 v ++ r, ⟨length_toLE 1 _, by rw [if_neg h1, if_neg h2, if_pos h3, List.append_assoc, id]⟩, ?_⟩
    dsimp only
    rw [ofLE_toLE 1 (by decide), if_neg (by decide), if_neg (by decide), if_pos rfl]
    exact run_wide (by omega) (by omega) r
  · refine ⟨toLE 1 0xff, toLE 8 v ++ r, ⟨length_toLE 1 _, by rw [if_neg h1, if_neg h2, if_neg h3, List.append_assoc, id]⟩, ?_⟩
    dsimp only
    rw [ofLE_toLE 1 (by decide), if_neg (by decide), if_neg (by decide), if_neg (by decide), run_bind_eq_ok]
    refine ⟨v, r, run_wide (by omega) (by omega) r, ?_⟩
    rw [run_ask_bind]
    exact ⟨decide_eq_true hv, rfl⟩

theorem reads_varint : Reads varint compact (· ≤ 2 ^ 53 - 1) := by
  intro s v r
  constructor
  · intro h
    exact ⟨varint_le h, varint_ok h⟩
  · rintro ⟨hv, rfl⟩
    exact run_compact hv r

theorem reads_times {α : Type} {x : Reader α} {encode : α → List UInt8} {Fits : α → Prop} (h : Reads x encode Fits) :
    ∀ n, Reads (times x n) (List.flatMap encode) fun l => l.length = n ∧ ∀ a ∈ l, Fits a
  | 0 => fun s l r => by
    rw [times, run_pure_iff]
    constructor
    · rintro ⟨rfl, rfl⟩
      exact ⟨⟨rfl, fun a ha => by cases ha⟩, rfl⟩
    · rintro ⟨⟨hl, _⟩, rfl⟩
      rw [List.length_eq_zero_iff] at hl
      rw [hl]
      exact ⟨rfl, rfl⟩
  | n + 1 => fun s l r => by
    rw [times, h.bind_iff]
    simp only [(reads_times h n).bind_iff, run_pure_iff]
    constructor
    · rintro ⟨a, s', ⟨ha, rfl⟩, l', s'', ⟨⟨hl, hfits⟩, rfl⟩, rfl, rfl⟩
      refine ⟨⟨by rw [List.length_cons, hl], fun b hb => ?_⟩, by rw [List.flatMap_cons, List.append_assoc]⟩
      rcases List.mem_cons.1 hb with rfl | hb
      · exact ha
      · exact hfits b hb
    · rintro ⟨⟨hl, hfits⟩, rfl⟩
      cases l with
      | nil => cases hl
      | cons a l =>
        refine ⟨a, l.flatMap encode ++ r, ⟨hfits a List.mem_cons_self, ?_⟩, l, r, ⟨⟨?_, fun b hb => ?_⟩, rfl⟩, rfl, rfl⟩
        · rw [List.flatMap_cons, List.append_assoc]
        · exact Nat.succ.inj hl
        · exact hfits b (List.mem_cons_of_mem _ hb)

/-- A loop whose body consumes something stops when the bytes do: a larger count changes nothing. -/
theorem times_stops {α : Type} {x : Reader α} (hx : ∀ {s a r}, x.run s = .ok (a, r) → r.length < s.length) :
    ∀ (m n : Nat) (s : List UInt8), s.length < m → s.length < n → (times x m).run s = (times x n).run s
  | 0, _, _, hm, _ => absurd hm (Nat.not_lt_zero _)
  | _, 0, _, _, hn => absurd hn (Nat.not_lt_zero _)
  | m + 1, n + 1, s, hm, hn => by
    rw [times, times, StateT.run_bind, StateT.run_bind]
    cases hs : x.run s with
    | error e => rfl
    | ok p =>
      obtain ⟨a, r⟩ := p
      have hr := hx hs
      have ih := times_stops hx m n r (by omega) (by omega)
      show (times x m >>= fun l => pure (a :: l)).run r = (times x n >>= fun l => pure (a :: l)).run r
      rw [StateT.run_bind, StateT.run_bind, ih]

end Reader

open Reader

/-! ## The coinbase with its fields -/

structure TxInput where
  prevHash : List UInt8
  prevIndex : Nat
  script : List UInt8
  sequence : Nat

structure TxOutput where
  value : List UInt8
  script : List UInt8

structure Coinbase where
  nVersion : Nat
  inputs : List TxInput
  outputs : List TxOutput
  lockTime : Nat
  payload : List UInt8

/-- A compact size and that many bytes. -/
def sized (b : List UInt8) : List UInt8 := compact b.length ++ b

def TxInput.encode (i : TxInput) : List UInt8 :=
  i.prevHash ++ (toLE 4 i.prevIndex ++ (sized i.script ++ toLE 4 i.sequence))

def TxOutput.encode (o : TxOutput) : List UInt8 := o.value ++ sized o.script

def Coinbase.encode (t : Coinbase) : List UInt8 :=
  toLE 2 t.nVersion ++ (toLE 2 5 ++ (compact t.inputs.length ++ (t.inputs.flatMap TxInput.encode ++
    (compact t.outputs.length ++ (t.outputs.flatMap TxOutput.encode ++ (toLE 4 t.lockTime ++ sized t.payload))))))

/-- The fields have their widths, and the lengths can be written. -/
structure TxInput.Fits (i : TxInput) : Prop where
  prevHash : i.prevHash.length = 32
  prevIndex : i.prevIndex < 2 ^ 32
  script : i.script.length < 2 ^ 53
  sequence : i.sequence < 2 ^ 32

structure TxOutput.Fits (o : TxOutput) : Prop where
  value : o.value.length = 8
  script : o.script.length < 2 ^ 53

structure Coinbase.Fits (t : Coinbase) : Prop where
  nVersion : t.nVersion < 2 ^ 16
  inputs : t.inputs.length < 2 ^ 53 ∧ ∀ i ∈ t.inputs, i.Fits
  outputs : t.outputs.length < 2 ^ 53 ∧ ∀ o ∈ t.outputs, o.Fits
  lockTime : t.lockTime < 2 ^ 32
  payload : t.payload.length < 2 ^ 53

/-- `txInput` with what it reads. -/
def txInputFields : Reader TxInput := do
  let prevHash ← take 32
  let prevIndex ← u32
  let script ← take (← varint)
  let sequence ← u32
  return { prevHash, prevIndex, script, sequence }

/-- `txOutput` with what it reads. -/
def txOutputFields : Reader TxOutput := do
  let value ← take 8
  let script ← take (← varint)
  return { value, script }

/-- `cbTxPayload` with what it reads. -/
def coinbase : Reader Coinbase := do
  let nVersion ← u16
  let nType ← u16
  ask (decide (nType = 5)) ("expected a coinbase special transaction (type 5), got type " ++ Snapshot.natText nType ++
    " version " ++ Snapshot.natText nVersion)
  let inputs ← times txInputFields (← varint)
  let outputs ← times txOutputFields (← varint)
  let lockTime ← u32
  let payload ← take (← varint)
  return { nVersion, inputs, outputs, lockTime, payload }

/-! Without the fields they are the readers of the source. -/

theorem txInput_eq : txInput = (fun _ => ()) <$> txInputFields := by
  simp [txInput, txInputFields]

theorem txOutput_eq : txOutput = (fun _ => ()) <$> txOutputFields := by
  simp [txOutput, txOutputFields]

theorem times_map {α γ : Type} (f : α → γ) (x : Reader α) : ∀ n, times (f <$> x) n = List.map f <$> times x n
  | 0 => by simp [times]
  | n + 1 => by simp [times, times_map f x n]

theorem cbTxPayload_eq : cbTxPayload = Coinbase.payload <$> coinbase := by
  simp [cbTxPayload, coinbase, txInput_eq, txOutput_eq, times_map]

/-! ## Reading is the inverse of writing -/

theorem reads_txInput : Reads txInputFields TxInput.encode TxInput.Fits := by
  intro s i r
  unfold txInputFields
  simp only [(reads_take _).bind_iff, reads_u32.bind_iff, reads_varint.bind_iff, run_pure_iff, id]
  constructor
  · rintro ⟨prevHash, _, ⟨h1, rfl⟩, prevIndex, _, ⟨h2, rfl⟩, n, _, ⟨h3, rfl⟩, script, _, ⟨rfl, rfl⟩, sequence, _, ⟨h5, rfl⟩,
      rfl, rfl⟩
    refine ⟨⟨h1, by omega, by show script.length < _; omega, by omega⟩, ?_⟩
    simp only [TxInput.encode, sized, List.append_assoc]
  · rintro ⟨⟨h1, h2, h3, h4⟩, rfl⟩
    refine ⟨i.prevHash, _, ⟨h1, ?_⟩, i.prevIndex, _, ⟨by omega, rfl⟩, i.script.length, _, ⟨by omega, rfl⟩, i.script, _,
      ⟨rfl, rfl⟩, i.sequence, r, ⟨by omega, rfl⟩, rfl, rfl⟩
    simp only [TxInput.encode, sized, List.append_assoc]

theorem reads_txOutput : Reads txOutputFields TxOutput.encode TxOutput.Fits := by
  intro s o r
  unfold txOutputFields
  simp only [(reads_take _).bind_iff, reads_varint.bind_iff, run_pure_iff, id]
  constructor
  · rintro ⟨value, _, ⟨h1, rfl⟩, n, _, ⟨h2, rfl⟩, script, _, ⟨rfl, rfl⟩, rfl, rfl⟩
    refine ⟨⟨h1, by show script.length < _; omega⟩, ?_⟩
    simp only [TxOutput.encode, sized, List.append_assoc]
  · rintro ⟨⟨h1, h2⟩, rfl⟩
    refine ⟨o.value, _, ⟨h1, ?_⟩, o.script.length, _, ⟨by omega, rfl⟩, o.script, r, ⟨rfl, rfl⟩, rfl, rfl⟩
    simp only [TxOutput.encode, sized, List.append_assoc]

theorem reads_coinbase : Reads coinbase Coinbase.encode Coinbase.Fits := by
  intro s t r
  unfold coinbase
  simp only [reads_u16.bind_iff, run_ask_bind, reads_varint.bind_iff, (reads_times reads_txInput _).bind_iff,
    (reads_times reads_txOutput _).bind_iff, reads_u32.bind_iff, (reads_take _).bind_iff, run_pure_iff, id]
  constructor
  · rintro ⟨nVersion, _, ⟨h1, rfl⟩, nType, _, ⟨h2, rfl⟩, htype, n, _, ⟨h3, rfl⟩, inputs, _, ⟨⟨rfl, h4⟩, rfl⟩, m, _,
      ⟨h5, rfl⟩, outputs, _, ⟨⟨rfl, h6⟩, rfl⟩, lockTime, _, ⟨h7, rfl⟩, k, _, ⟨h8, rfl⟩, payload, _, ⟨rfl, rfl⟩, rfl, rfl⟩
    rw [of_decide_eq_true htype]
    refine ⟨⟨by omega, ⟨?_, h4⟩, ⟨?_, h6⟩, by omega, ?_⟩, ?_⟩
    · show inputs.length < _
      omega
    · show outputs.length < _
      omega
    · show payload.length < _
      omega
    · simp only [Coinbase.encode, sized, List.append_assoc]
  · rintro ⟨⟨h1, h2, h3, h4, h5⟩, rfl⟩
    refine ⟨t.nVersion, _, ⟨by omega, ?_⟩, 5, _, ⟨by decide, rfl⟩, rfl, t.inputs.length, _, ⟨by omega, rfl⟩, t.inputs, _,
      ⟨⟨rfl, h2.2⟩, rfl⟩, t.outputs.length, _, ⟨by omega, rfl⟩, t.outputs, _, ⟨⟨rfl, h3.2⟩, rfl⟩, t.lockTime, _,
      ⟨by omega, rfl⟩, t.payload.length, _, ⟨by omega, rfl⟩, t.payload, r, ⟨rfl, rfl⟩, rfl, rfl⟩
    simp only [Coinbase.encode, sized, List.append_assoc]

/-! ## The payload -/

/-- The bytes of a payload that are read. -/
def payloadRead (payload : List UInt8) : Nat := if 2 ≤ ofLE (payload.take 2) then 70 else 38

/-- The fields at their offsets. -/
def CbTxCommitment.ofPayload (payload : List UInt8) : CbTxCommitment where
  payloadVersion := ofLE (payload.take 2)
  height := ofLE ((payload.drop 2).take 4)
  merkleRootMNList := toHex ((payload.drop 6).take 32).reverse
  merkleRootQuorums := if 2 ≤ ofLE (payload.take 2) then some (toHex ((payload.drop 38).take 32).reverse) else none

theorem take_bind_iff {α : Type} {n : Nat} {k : List UInt8 → Reader α} {s r : List UInt8} {a : α} :
    (take n >>= k).run s = .ok (a, r) ↔ n ≤ s.length ∧ (k (s.take n)).run (s.drop n) = .ok (a, r) := by
  rw [run_bind_eq_ok]
  constructor
  · rintro ⟨b, s', h, hk⟩
    obtain ⟨hn, rfl, rfl⟩ := (run_take n s b s').1 h
    exact ⟨hn, hk⟩
  · rintro ⟨hn, hk⟩
    exact ⟨_, _, (run_take n s _ _).2 ⟨hn, rfl, rfl⟩, hk⟩

theorem cbTxFields_iff (payload : List UInt8) (c : CbTxCommitment) :
    (∃ r, cbTxFields.run payload = .ok (c, r)) ↔ payloadRead payload ≤ payload.length ∧ c = .ofPayload payload := by
  unfold cbTxFields u16 u32 displayed payloadRead CbTxCommitment.ofPayload
  simp only [bind_assoc, pure_bind, take_bind_iff, List.drop_drop, List.length_drop]
  by_cases hv : 2 ≤ ofLE (payload.take 2)
  · simp only [if_pos hv, map_bind, map_pure, bind_assoc, pure_bind, take_bind_iff, List.drop_drop, List.length_drop,
      run_pure_iff]
    constructor
    · rintro ⟨r, h1, h2, h3, h4, rfl, _⟩
      exact ⟨by omega, rfl⟩
    · rintro ⟨h, rfl⟩
      exact ⟨_, by omega, by omega, by omega, by omega, rfl, rfl⟩
  · simp only [if_neg hv, pure_bind, run_pure_iff]
    constructor
    · rintro ⟨r, h1, h2, h3, rfl, _⟩
      exact ⟨by omega, rfl⟩
    · rintro ⟨h, rfl⟩
      exact ⟨_, by omega, by omega, by omega, rfl, rfl⟩

theorem run_cbTxPayload {s payload r : List UInt8} :
    cbTxPayload.run s = .ok (payload, r) ↔ ∃ t : Coinbase, t.Fits ∧ s = t.encode ++ r ∧ payload = t.payload := by
  rw [cbTxPayload_eq, map_eq_pure_bind, reads_coinbase.bind_iff]
  simp only [run_pure_iff]
  constructor
  · rintro ⟨t, s', ⟨ht, rfl⟩, rfl, rfl⟩
    exact ⟨t, ht, rfl, rfl⟩
  · rintro ⟨t, ht, rfl, rfl⟩
    exact ⟨t, r, ⟨ht, rfl⟩, rfl, rfl⟩

theorem cbTxOfBytes_iff (tx : List UInt8) (c : CbTxCommitment) :
    cbTxOfBytes tx = .ok c ↔ ∃ t : Coinbase, t.Fits ∧ tx = t.encode ∧ payloadRead t.payload ≤ t.payload.length ∧
      c = .ofPayload t.payload := by
  unfold cbTxOfBytes
  rw [bind_eq_ok]
  constructor
  · rintro ⟨⟨payload, rest⟩, h1, h⟩
    obtain ⟨_, h2, h⟩ := bind_eq_ok.1 h
    obtain ⟨⟨fields, r⟩, h3, h⟩ := bind_eq_ok.1 h
    cases h
    obtain ⟨t, ht, rfl, rfl⟩ := run_cbTxPayload.1 h1
    have hrest : rest = [] := of_decide_eq_true (require_eq_ok.1 h2)
    obtain ⟨hlen, hc⟩ := (cbTxFields_iff t.payload c).1 ⟨r, h3⟩
    exact ⟨t, ht, by rw [hrest, List.append_nil], hlen, hc⟩
  · rintro ⟨t, ht, rfl, hlen, hc⟩
    obtain ⟨r, h3⟩ := (cbTxFields_iff t.payload c).2 ⟨hlen, hc⟩
    refine ⟨(t.payload, []), run_cbTxPayload.2 ⟨t, ht, (List.append_nil _).symm, rfl⟩, ?_⟩
    refine bind_eq_ok.2 ⟨(), require_eq_ok.2 (decide_eq_true rfl), bind_eq_ok.2 ⟨(c, r), h3, rfl⟩⟩

/-! ## Compact sizes -/

theorem compactSize_eq {n : Nat} (h : n ≤ 2 ^ 32 - 1) : QuorumCommitment.compactSize n = .ok (compact n) := by
  have h4 : n ≤ 0xffffffff := h
  unfold QuorumCommitment.compactSize compact
  by_cases h1 : n < 0xfd
  · have hmod : n % 256 = n := Nat.mod_eq_of_lt (by omega)
    rw [if_pos h1, if_pos h1, toLE, toLE, hmod]
    rfl
  by_cases h2 : n ≤ 0xffff
  · rw [if_neg h1, if_neg h1, if_pos h2, if_pos h2]
    rfl
  · rw [if_neg h1, if_neg h1, if_neg h2, if_neg h2, if_pos h4, if_pos h4]
    rfl

/-- An input or an output consumes bytes. -/
theorem consumes_txInput {s r : List UInt8} {u : Unit} (h : txInput.run s = .ok (u, r)) : r.length < s.length := by
  rw [txInput_eq, map_eq_pure_bind, reads_txInput.bind_iff] at h
  obtain ⟨i, s', ⟨hi, rfl⟩, h⟩ := h
  obtain ⟨_, rfl⟩ := run_pure_iff.1 h
  have h32 := hi.prevHash
  simp only [TxInput.encode, List.length_append]
  omega

theorem consumes_txOutput {s r : List UInt8} {u : Unit} (h : txOutput.run s = .ok (u, r)) : r.length < s.length := by
  rw [txOutput_eq, map_eq_pure_bind, reads_txOutput.bind_iff] at h
  obtain ⟨o, s', ⟨ho, rfl⟩, h⟩ := h
  obtain ⟨_, rfl⟩ := run_pure_iff.1 h
  have h8 := ho.value
  simp only [TxOutput.encode, List.length_append]
  omega

theorem coinbase_canonical :
    -- what is accepted is the one encoding of the fields that are walked
    cbTxPayload = Coinbase.payload <$> coinbase ∧
    (∀ tx c, cbTxOfBytes tx = .ok c ↔ ∃ t : Coinbase, coinbase.run tx = .ok (t, []) ∧ tx = t.encode ∧
      payloadRead t.payload ≤ t.payload.length ∧ c = .ofPayload t.payload) ∧
    (∀ t t' : Coinbase, t.Fits → t'.Fits → t.encode = t'.encode → t = t') ∧
    -- the loops over a count stop when the bytes do
    (∀ s m n, s.length < m → s.length < n → (times txInput m).run s = (times txInput n).run s ∧
      (times txOutput m).run s = (times txOutput n).run s) ∧
    -- `varint` and `compactSize`
    (∀ n ≤ 2 ^ 32 - 1, ∃ b, QuorumCommitment.compactSize n = .ok b ∧ ∀ r, varint.run (b ++ r) = .ok (n, r)) ∧
    (∀ s v r, varint.run s = .ok (v, r) → v ≤ 2 ^ 32 - 1 → ∃ b, QuorumCommitment.compactSize v = .ok b ∧ s = b ++ r) := by
  refine ⟨cbTxPayload_eq, fun tx c => ?_, fun t t' ht ht' h => ?_, fun s m n hm hn => ⟨?_, ?_⟩, fun n hn => ?_, fun s v r h hv => ?_⟩
  · rw [cbTxOfBytes_iff]
    constructor
    · rintro ⟨t, ht, rfl, hrest⟩
      have hrun := reads_coinbase.run ht []
      rw [List.append_nil] at hrun
      exact ⟨t, hrun, rfl, hrest⟩
    · rintro ⟨t, hrun, htx, hrest⟩
      exact ⟨t, ((reads_coinbase tx t []).1 hrun).1, htx, hrest⟩
  · exact (reads_coinbase.inj (r := []) (s := []) ht ht' (by rw [h])).1
  · exact times_stops consumes_txInput m n s hm hn
  · exact times_stops consumes_txOutput m n s hm hn
  · exact ⟨compact n, compactSize_eq hn, run_compact (by omega)⟩
  · exact ⟨compact v, compactSize_eq hv, varint_ok h⟩

end DmlCommitment
