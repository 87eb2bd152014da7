import MnoVerify.Circuits
import MnoVerify.RegistrationEnginesSound

/-!
# One key, one nullifier

Whatever satisfies a circuit over a voting key knows a scalar from 1 up to the order, and its limbs can be spelled in one
way only. So a nullifier stands for one subject in one period and context (`nullifier_eq_iff`).
-/

namespace Circuits

open Field (Scalar FIELD_PRIME)
open RegistrationEngines (Components KeyHash Poseidon Primitives ORDER TREE_DEPTH signals privToLimbs privToLimbs_eq
  TAG_SEASONAL_REGISTRATION lt_prime)

variable {P : Primitives} {C : Components P} {poseidon : Poseidon}

/-! ## The key -/

/-- The limbs that a circuit admits are those of a scalar from 1 up to the order, and the point is its multiple. -/
theorem key_of (hr : RangeChecked C) {k x y : List Scalar} (hp : C.ECDSAPrivToPub k x y) (hlt : C.BigLessThan k C.order 1)
    (hz : C.IsZero k.sum 0) : ∃ d, 0 < d ∧ d < ORDER ∧ k = signals (privToLimbs d) ∧
      x = signals (privToLimbs (P.point d).1) ∧ y = signals (privToLimbs (P.point d).2) := by
  obtain ⟨limbs, hlen, hlimb, rfl⟩ := hr k x y hp
  have hspell : privToLimbs (Bits.ofLimbs 64 limbs) = limbs := by
    rw [privToLimbs_eq, ← hlen, Bits.limbs_ofLimbs 64 hlimb]
  have hd : Bits.ofLimbs 64 limbs < 2 ^ 256 := by
    have h := Bits.ofLimbs_lt 64 hlimb
    rwa [hlen] at h
  rw [← hspell] at hp hlt hz ⊢
  generalize Bits.ofLimbs 64 limbs = d at *
  rw [C.order_eq, C.lessThan d ORDER hd (by decide)] at hlt
  have hord : d < ORDER := by
    by_contra h
    rw [if_neg h] at hlt
    exact one_ne_zero hlt
  rw [C.isZero] at hz
  have hpos : 0 < d := by
    rcases Nat.eq_zero_or_pos d with rfl | h
    · rw [if_pos (by decide)] at hz
      exact absurd hz.symm one_ne_zero
    · exact h
  exact ⟨d, hpos, hord, rfl, (C.privToPub d hpos hord x y).1 hp⟩

theorem Membership.Satisfies.key {s : Membership} (hr : RangeChecked C) (h : s.Satisfies C poseidon) : ∃ d, 0 < d ∧ d < ORDER ∧
    s.privkey = signals (privToLimbs d) ∧ s.lh.x = signals (privToLimbs (P.point d).1) ∧
      s.lh.y = signals (privToLimbs (P.point d).2) := key_of hr h.p2p h.dlt h.kz

theorem registration_key {s : RegistrationEngines.Signals} (hr : RangeChecked C) (h : s.Satisfies C poseidon) :
    ∃ d, 0 < d ∧ d < ORDER ∧ s.privkey = signals (privToLimbs d) ∧ s.lh.x = signals (privToLimbs (P.point d).1) ∧
      s.lh.y = signals (privToLimbs (P.point d).2) := key_of hr h.p2p h.dlt h.kz

theorem signals_inj {xs ys : List Nat} (hx : ∀ v ∈ xs, v < 2 ^ 64) (hy : ∀ v ∈ ys, v < 2 ^ 64) (h : signals xs = signals ys) :
    xs = ys := by
  have hval : ∀ zs : List Nat, (∀ v ∈ zs, v < 2 ^ 64) → (signals zs).map ZMod.val = zs := by
    intro zs hz
    rw [signals, List.map_map]
    conv_rhs => rw [← List.map_id zs]
    refine List.map_congr_left fun v hv => ?_
    exact ZMod.val_natCast_of_lt (lt_prime (lt_trans (hz v hv) (by decide)))
  rw [← hval xs hx, ← hval ys hy, h]

theorem privToLimbs_inj {a b : Nat} (ha : a < 2 ^ 256) (hb : b < 2 ^ 256)
    (h : signals (privToLimbs a) = signals (privToLimbs b)) : a = b := by
  have hlimbs := signals_inj (fun v hv => RegistrationEngines.limb_lt hv) (fun v hv => RegistrationEngines.limb_lt hv) h
  rw [privToLimbs_eq, privToLimbs_eq] at hlimbs
  rw [← Bits.ofLimbs_limbs 64 4 (v := a) ha, hlimbs, Bits.ofLimbs_limbs 64 4 (v := b) hb]

/-- Two keys are the same number exactly when their points are. -/
theorem key_eq_iff (hi : PointInjective P) {d d' : Nat} (hd : 0 < d ∧ d < ORDER) (hd' : 0 < d' ∧ d' < ORDER) :
    signals (privToLimbs d) = signals (privToLimbs d') ↔
      signals (privToLimbs (P.point d).1) = signals (privToLimbs (P.point d').1) ∧
        signals (privToLimbs (P.point d).2) = signals (privToLimbs (P.point d').2) := by
  have hlt : ORDER < 2 ^ 256 := by decide
  constructor
  · intro h
    rw [privToLimbs_inj (lt_trans hd.2 hlt) (lt_trans hd'.2 hlt) h]
    exact ⟨rfl, rfl⟩
  · rintro ⟨hx, hy⟩
    have hx' := privToLimbs_inj (P.point_lt d).1 (P.point_lt d').1 hx
    have hy' := privToLimbs_inj (P.point_lt d).2 (P.point_lt d').2 hy
    rw [hi d d' hd.1 hd.2 hd'.1 hd'.2 (Prod.ext hx' hy')]

/-! ## Nullifiers -/

namespace Proven

theorem nullifier_eq (p : Proven C poseidon) : p.nullifier = poseidon p.preimage := by
  cases p with
  | membership s h => exact h.nullifier
  | registration s h => exact h.regNullifier
  | members s h => exact h.nullifier

theorem preimage_mem (p : Proven C poseidon) : p.preimage ∈ p.hashed := List.mem_cons_self

theorem tags_ne : TAG_SINGLE_TIER_ADMISSION ≠ TAG_SEASONAL_REGISTRATION := by
  intro h
  have hval := congrArg ZMod.val h
  have hlit : ∀ n : Nat, n < FIELD_PRIME → ((n : Nat) : Scalar).val = n := fun n hn => ZMod.val_natCast_of_lt hn
  have ha := hlit 2746475764083232086712230627440145149755258450541734044813292983362430706365 (by decide)
  have hb := hlit 4412587802530862675250799606570235507701539531635883910631083162293640935633 (by decide)
  rw [Nat.cast_ofNat] at ha hb
  rw [TAG_SINGLE_TIER_ADMISSION, TAG_SEASONAL_REGISTRATION, ha, hb] at hval
  omega

theorem keys_iff (hr : RangeChecked C) (hi : PointInjective P) {k x y k' x' y' : List Scalar}
    (h : C.ECDSAPrivToPub k x y ∧ C.BigLessThan k C.order 1 ∧ C.IsZero k.sum 0)
    (h' : C.ECDSAPrivToPub k' x' y' ∧ C.BigLessThan k' C.order 1 ∧ C.IsZero k'.sum 0) : k = k' ↔ x = x' ∧ y = y' := by
  obtain ⟨d, hd, hlt, rfl, rfl, rfl⟩ := key_of hr h.1 h.2.1 h.2.2
  obtain ⟨d', hd', hlt', rfl, rfl, rfl⟩ := key_of hr h'.1 h'.2.1 h'.2.2
  exact key_eq_iff hi ⟨hd, hlt⟩ ⟨hd', hlt'⟩

/-- The hash of two keys tells them apart where it does not collide. -/
theorem keyHash_iff {k k' : List Scalar} {inputs : List (List Scalar)} (hc : CollisionFree poseidon inputs) (hk : k ∈ inputs)
    (hk' : k' ∈ inputs) : poseidon k = poseidon k' ↔ k = k' := by
  constructor
  · apply hc k hk k' hk'
  · apply congrArg

/-- The preimages meet exactly where the subjects, the periods and the contexts do. -/
theorem preimage_eq_iff (hr : RangeChecked C) (hi : PointInjective P) (p q : Proven C poseidon)
    (hc : CollisionFree poseidon (p.hashed ++ q.hashed)) :
    p.preimage = q.preimage ↔ p.subject = q.subject ∧ p.period = q.period ∧ p.contextHash = q.contextHash := by
  cases p with
  | membership s h =>
    cases q with
    | membership t h' =>
      have hk := keys_iff hr hi ⟨h.p2p, h.dlt, h.kz⟩ ⟨h'.p2p, h'.dlt, h'.kz⟩
      have hp : poseidon s.privkey = poseidon t.privkey ↔ s.privkey = t.privkey :=
        keyHash_iff hc (by simp [hashed, limbs]) (by simp [hashed, limbs])
      simp [preimage, subject, period, contextHash, hp, hk]
    | registration t h' => simp [preimage, subject, tags_ne]
    | members t h' => simp [preimage, subject]
  | registration s h =>
    cases q with
    | membership t h' => simp [preimage, subject, tags_ne.symm]
    | registration t h' =>
      have hk := keys_iff hr hi ⟨h.p2p, h.dlt, h.kz⟩ ⟨h'.p2p, h'.dlt, h'.kz⟩
      have hp : poseidon s.privkey = poseidon t.privkey ↔ s.privkey = t.privkey :=
        keyHash_iff hc (by simp [hashed, limbs]) (by simp [hashed, limbs])
      simp [preimage, subject, period, contextHash, hp, hk]
    | members t h' => simp [preimage, subject]
  | members s h =>
    cases q with
    | membership t h' => simp [preimage, subject]
    | registration t h' => simp [preimage, subject]
    | members t h' => simp [preimage, subject, period, contextHash]

/-- The same subject in the same period and context has one nullifier, whatever the hash. -/
theorem nullifier_congr (hr : RangeChecked C) (hi : PointInjective P) {p q : Proven C poseidon} (hs : p.subject = q.subject)
    (hperiod : p.period = q.period) (hcontext : p.contextHash = q.contextHash) : p.nullifier = q.nullifier := by
  rw [nullifier_eq, nullifier_eq]
  apply congrArg
  cases p with
  | membership s h =>
    cases q with
    | membership t h' =>
      have hk := keys_iff hr hi ⟨h.p2p, h.dlt, h.kz⟩ ⟨h'.p2p, h'.dlt, h'.kz⟩
      simp_all [preimage, subject, period, contextHash]
    | registration t h' => cases hs
    | members t h' => cases hs
  | registration s h =>
    cases q with
    | membership t h' => cases hs
    | registration t h' =>
      have hk := keys_iff hr hi ⟨h.p2p, h.dlt, h.kz⟩ ⟨h'.p2p, h'.dlt, h'.kz⟩
      simp_all [preimage, subject, period, contextHash]
    | members t h' => cases hs
  | members s h =>
    cases q with
    | membership t h' => cases hs
    | registration t h' => cases hs
    | members t h' => simp_all [preimage, subject, period, contextHash]

/-- A nullifier stands for one subject, one period and one context: within a circuit, and across the three. -/
theorem nullifier_eq_iff (hr : RangeChecked C) (hi : PointInjective P) (p q : Proven C poseidon)
    (hc : CollisionFree poseidon (p.hashed ++ q.hashed)) :
    p.nullifier = q.nullifier ↔ p.subject = q.subject ∧ p.period = q.period ∧ p.contextHash = q.contextHash := by
  rw [← preimage_eq_iff hr hi p q hc, nullifier_eq, nullifier_eq]
  constructor
  · exact hc _ (List.mem_append_left _ p.preimage_mem) _ (List.mem_append_right _ q.preimage_mem)
  · exact congrArg poseidon

end Proven

/-! ## A member, and the key 1 -/

/-- Poseidon that keeps its first input. -/
def first : Poseidon := fun xs => xs.headD 0

/-- The generator, with a point of its own for every other multiple. -/
def points : Primitives := { RegistrationEngines.generator with
  point := fun d => if d = 1 then RegistrationEngines.generator.point 1 else (d % 2 ^ 256, 0)
  point_lt := by
    intro d
    split
    · exact RegistrationEngines.generator.point_lt 1
    · exact ⟨Nat.mod_lt _ (by decide), Nat.two_pow_pos 256⟩ }

theorem point_injective : PointInjective points := by
  intro d d' hd hlt hd' hlt' h
  have hord : ORDER < 2 ^ 256 := by decide
  have hy : (RegistrationEngines.generator.point 1).2 ≠ 0 := by decide
  have hpoint : ∀ n, points.point n = if n = 1 then RegistrationEngines.generator.point 1 else (n % 2 ^ 256, 0) := fun _ => rfl
  rw [hpoint, hpoint] at h
  by_cases h1 : d = 1
  · by_cases h2 : d' = 1
    · rw [h1, h2]
    · rw [if_pos h1, if_neg h2] at h
      exact absurd (congrArg Prod.snd h) hy
  · by_cases h2 : d' = 1
    · rw [if_neg h1, if_pos h2] at h
      exact absurd (congrArg Prod.snd h).symm hy
    · rw [if_neg h1, if_neg h2] at h
      have hx := congrArg Prod.fst h
      rwa [Nat.mod_eq_of_lt (lt_trans hlt hord), Nat.mod_eq_of_lt (lt_trans hlt' hord)] at hx

/-- The components, with the range check of the limbs. -/
def checked (P : Primitives) : Components P := { RegistrationEngines.documented P with
  ECDSAPrivToPub := fun k x y => (∃ limbs : List Nat, limbs.length = 4 ∧ (∀ v ∈ limbs, v < 2 ^ 64) ∧ k = signals limbs) ∧
    (RegistrationEngines.documented P).ECDSAPrivToPub k x y
  privToPub := by
    intro d hd hlt x y
    rw [(RegistrationEngines.documented P).privToPub d hd hlt]
    constructor
    · exact And.right
    · intro h
      exact ⟨⟨privToLimbs d, by simp [privToLimbs], fun v hv => RegistrationEngines.limb_lt hv, rfl⟩, h⟩ }

theorem rangeChecked (P : Primitives) : RangeChecked (checked P) := by
  intro k x y h
  exact h.1

def keyOne : RegistrationEngines.Member points := { RegistrationEngines.keyOne with
  holds := congrArg some (RegistrationEngines.bigEndian_toBE (by decide)).symm }

/-- The member with the secret 2 in a tree of its own. -/
def memberTwo (epoch contextHash signalHash : Scalar) : Members where
  secret := (2 : Nat)
  membersRoot := (2 : Nat)
  epoch := epoch
  contextHash := contextHash
  signalHash := signalHash
  nullifier := (2 : Nat)
  incl := MerklePath.assign (fun l r => first [l, r]) TREE_DEPTH (2 : Nat) (fun _ => 0) fun _ => false
  sq := signalHash * signalHash

theorem memberTwo_satisfies (epoch contextHash signalHash : Scalar) :
    (memberTwo epoch contextHash signalHash).Satisfies first where
  leaf := rfl
  incl := MerklePath.assign_satisfies TREE_DEPTH (2 : Nat) (fun _ => 0) fun _ => false
  root := by
    have hwalk : ∀ l, PaddedTree.walk (fun l r => first [l, r]) (fun _ => false) (fun _ => 0) ((2 : Nat) : Scalar) l = (2 : Nat) := by
      intro l
      induction l with
      | zero => rfl
      | succ l ih => simpa [PaddedTree.walk, first] using ih
    exact hwalk TREE_DEPTH
  nullifier := rfl
  sq := rfl

def memberTwoProven (epoch contextHash signalHash : Scalar) : Proven (checked points) first :=
  .members (memberTwo epoch contextHash signalHash) (memberTwo_satisfies epoch contextHash signalHash)

/-- The key 1 registers in the season 7, the secret 2 is admitted in the epoch 7, and their nullifiers differ. -/
theorem keyOne_separate : ∃ s, ∃ h : RegistrationEngines.Signals.Satisfies (checked points) first s,
    (Proven.registration s h).period = (memberTwoProven (7 : Nat) (5 : Nat) (9 : Nat)).period ∧
      (Proven.registration s h).nullifier ≠ (memberTwoProven (7 : Nat) (5 : Nat) (9 : Nat)).nullifier := by
  obtain ⟨s, hs⟩ := keyOne.exists_proves (checked points) first
  refine ⟨s, hs.satisfies, hs.season, ?_⟩
  have hprivkey : s.privkey = [1, 0, 0, 0] := by
    rw [hs.privkey, show privToLimbs keyOne.d = [1, 0, 0, 0] by decide]
    simp [signals]
  have hlit : ∀ n : Nat, n < FIELD_PRIME → ((n : Nat) : Scalar).val = n := fun n hn => ZMod.val_natCast_of_lt hn
  have htag := hlit 4412587802530862675250799606570235507701539531635883910631083162293640935633 (by decide)
  have htwo := hlit 2 (by decide)
  rw [Nat.cast_ofNat] at htag
  have hne₁ : TAG_SEASONAL_REGISTRATION ≠ 1 := by
    intro h
    rw [TAG_SEASONAL_REGISTRATION] at h
    rw [h, ZMod.val_one] at htag
    omega
  have hne₂ : TAG_SEASONAL_REGISTRATION ≠ (memberTwo (7 : Nat) (5 : Nat) (9 : Nat)).secret := by
    intro h
    rw [TAG_SEASONAL_REGISTRATION, memberTwo] at h
    rw [h, htwo] at htag
    omega
  have hne₃ : (memberTwo (7 : Nat) (5 : Nat) (9 : Nat)).secret ≠ 1 := by
    intro h
    have hsecret : ((2 : Nat) : Scalar) = 1 := h
    rw [hsecret, ZMod.val_one] at htwo
    omega
  have hfree : CollisionFree first ((Proven.registration s hs.satisfies).hashed ++ (memberTwoProven (7 : Nat) (5 : Nat) (9 : Nat)).hashed) := by
    intro xs hxs ys hys heq
    simp only [Proven.hashed, Proven.limbs, Proven.preimage, memberTwoProven, List.mem_append, List.mem_cons, List.not_mem_nil,
      or_false, hprivkey] at hxs hys
    rcases hxs with (rfl | rfl) | rfl <;> rcases hys with (rfl | rfl) | rfl <;>
      simp_all [first, eq_comm]
  intro h
  have hsubject := ((Proven.nullifier_eq_iff (rangeChecked points) point_injective _ _ hfree).1 h).1
  cases hsubject

end Circuits
