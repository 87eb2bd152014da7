import MnoVerify.Bytes

/-!
# Bits and limbs

A number as bits or as limbs of a fixed width, the low ones first. The bits of limbs, and of bytes, are those of the
number (`flatMap_limbs`, `reverse_ofBytes`).
-/

namespace Bits

/-- The low `k` bits of a number, the lowest first. -/
def ofNat : Nat → Nat → List Bool
  | 0, _ => []
  | k + 1, v => decide (v % 2 = 1) :: ofNat k (v / 2)

/-- The number that bits stand for, the lowest first. -/
def toNat : List Bool → Nat
  | [] => 0
  | b :: bits => b.toNat + 2 * toNat bits

/-- The low `k` limbs of `w` bits, the lowest first. -/
def limbs (w : Nat) : Nat → Nat → List Nat
  | 0, _ => []
  | k + 1, v => v % 2 ^ w :: limbs w k (v / 2 ^ w)

def ofLimbs (w : Nat) : List Nat → Nat
  | [] => 0
  | v :: vs => v + 2 ^ w * ofLimbs w vs

/-- The bits of bytes in order, the highest of each byte first. -/
def ofBytes (bytes : List UInt8) : List Bool := bytes.flatMap fun b => (ofNat 8 b.toNat).reverse

/-! ## Bits -/

@[simp] theorem length_ofNat (k : Nat) : ∀ v, (ofNat k v).length = k := by
  induction k with
  | zero => intro v; rfl
  | succ k ih => intro v; rw [ofNat, List.length_cons, ih]

theorem toNat_ofNat (k : Nat) : ∀ {v}, v < 2 ^ k → toNat (ofNat k v) = v := by
  induction k with
  | zero =>
    intro v h
    rw [ofNat, toNat]
    omega
  | succ k ih =>
    intro v h
    rw [Nat.pow_succ] at h
    have hbit : (decide (v % 2 = 1)).toNat = v % 2 := by
      rcases Nat.mod_two_eq_zero_or_one v with h | h <;> rw [h] <;> rfl
    rw [ofNat, toNat, ih (by omega), hbit]
    omega

theorem ofNat_mod (a : Nat) : ∀ v, ofNat a (v % 2 ^ a) = ofNat a v := by
  induction a with
  | zero => intro v; rfl
  | succ a ih =>
    intro v
    have hdvd : 2 ∣ 2 ^ (a + 1) := dvd_pow_self 2 (Nat.succ_ne_zero a)
    have hlow : v % 2 ^ (a + 1) % 2 = v % 2 := Nat.mod_mod_of_dvd v hdvd
    have hhigh : v % 2 ^ (a + 1) / 2 = v / 2 % 2 ^ a := by
      rw [Nat.pow_succ', Nat.mod_mul_right_div_self]
    rw [ofNat, ofNat, hlow, hhigh, ih]

/-- Bits in two parts. -/
theorem ofNat_add (a b : Nat) : ∀ v, ofNat (a + b) v = ofNat a v ++ ofNat b (v / 2 ^ a) := by
  induction a with
  | zero => intro v; rw [Nat.zero_add, Nat.pow_zero, Nat.div_one]; rfl
  | succ a ih =>
    intro v
    have hdiv : v / 2 / 2 ^ a = v / 2 ^ (a + 1) := by rw [Nat.div_div_eq_div_mul, Nat.pow_succ']
    rw [show a + 1 + b = a + b + 1 by omega, ofNat, ofNat, ih, hdiv, List.cons_append]

theorem toNat_append (a b : List Bool) : toNat (a ++ b) = toNat a + 2 ^ a.length * toNat b := by
  induction a with
  | nil => rw [List.nil_append, toNat, List.length_nil, Nat.pow_zero]; omega
  | cons x a ih =>
    rw [List.cons_append, toNat, ih, toNat, List.length_cons, Nat.pow_succ']
    ring

/-! ## Limbs -/

theorem ofLimbs_limbs (w k : Nat) : ∀ {v}, v < 2 ^ (w * k) → ofLimbs w (limbs w k v) = v := by
  induction k with
  | zero =>
    intro v h
    rw [Nat.mul_zero] at h
    rw [limbs, ofLimbs]
    omega
  | succ k ih =>
    intro v h
    have hd : v / 2 ^ w < 2 ^ (w * k) := by
      rw [Nat.div_lt_iff_lt_mul (Nat.two_pow_pos w), ← Nat.pow_add]
      exact h
    rw [limbs, ofLimbs, ih hd]
    exact Nat.mod_add_div v (2 ^ w)

theorem ofLimbs_lt (w : Nat) : ∀ {vs : List Nat}, (∀ v ∈ vs, v < 2 ^ w) → ofLimbs w vs < 2 ^ (w * vs.length)
  | [], _ => by simp [ofLimbs]
  | v :: vs, h => by
    have hv := h v List.mem_cons_self
    have ih := ofLimbs_lt w fun u hu => h u (List.mem_cons_of_mem v hu)
    have hle : 2 ^ w * (ofLimbs w vs + 1) ≤ 2 ^ w * 2 ^ (w * vs.length) := Nat.mul_le_mul_left _ ih
    rw [List.length_cons, ofLimbs, Nat.mul_succ, Nat.add_comm (w * vs.length), Nat.pow_add]
    rw [Nat.mul_add, Nat.mul_one] at hle
    omega

theorem limbs_ofLimbs (w : Nat) : ∀ {vs : List Nat}, (∀ v ∈ vs, v < 2 ^ w) → limbs w vs.length (ofLimbs w vs) = vs
  | [], _ => rfl
  | v :: vs, h => by
    have hv := h v List.mem_cons_self
    have hlow : (v + 2 ^ w * ofLimbs w vs) % 2 ^ w = v := by rw [Nat.add_mul_mod_self_left, Nat.mod_eq_of_lt hv]
    have hhigh : (v + 2 ^ w * ofLimbs w vs) / 2 ^ w = ofLimbs w vs := by
      rw [Nat.add_mul_div_left _ _ (Nat.two_pow_pos w), Nat.div_eq_of_lt hv, Nat.zero_add]
    rw [List.length_cons, limbs, ofLimbs, hlow, hhigh, limbs_ofLimbs w fun u hu => h u (List.mem_cons_of_mem v hu)]

theorem limb_lt {w k v x : Nat} (h : x ∈ limbs w k v) : x < 2 ^ w := by
  induction k generalizing v with
  | zero => cases h
  | succ k ih =>
    rcases List.mem_cons.1 h with rfl | h
    · exact Nat.mod_lt _ (Nat.two_pow_pos w)
    · exact ih h

theorem limbs_eq_range (w k : Nat) : ∀ v, limbs w k v = (List.range k).map fun i => v / 2 ^ (w * i) % 2 ^ w := by
  induction k with
  | zero => intro v; rfl
  | succ k ih =>
    intro v
    have hdiv : ∀ i, v / 2 ^ w / 2 ^ (w * i) = v / 2 ^ (w * (i + 1)) := by
      intro i
      rw [Nat.div_div_eq_div_mul, ← Nat.pow_add, Nat.mul_succ, Nat.add_comm]
    rw [limbs, ih, List.range_succ_eq_map, List.map_cons, List.map_map, Nat.mul_zero, Nat.pow_zero, Nat.div_one]
    simp only [hdiv]
    rfl

theorem flatMap_limbs (w k : Nat) : ∀ v, (limbs w k v).flatMap (ofNat w) = ofNat (w * k) v := by
  induction k with
  | zero => intro v; rfl
  | succ k ih =>
    intro v
    rw [limbs, List.flatMap_cons, ih, ofNat_mod, Nat.mul_succ, Nat.add_comm, ofNat_add]

/-! ## Bytes -/

theorem ofBytes_cons (b : UInt8) (bytes : List UInt8) : ofBytes (b :: bytes) = (ofNat 8 b.toNat).reverse ++ ofBytes bytes :=
  List.flatMap_cons

@[simp] theorem length_ofBytes (bytes : List UInt8) : (ofBytes bytes).length = 8 * bytes.length := by
  induction bytes with
  | nil => rfl
  | cons b bytes ih => rw [ofBytes_cons, List.length_append, List.length_reverse, length_ofNat, ih, List.length_cons]; omega

theorem reverse_ofBytes (bytes : List UInt8) :
    (ofBytes bytes).reverse = bytes.reverse.flatMap fun b => ofNat 8 b.toNat := by
  induction bytes with
  | nil => rfl
  | cons b bytes ih =>
    rw [ofBytes_cons, List.reverse_append, List.reverse_reverse, ih, List.reverse_cons, List.flatMap_append,
      List.flatMap_singleton]

theorem flatMap_toLE (k : Nat) : ∀ n, (Bytes.toLE k n).flatMap (fun b => ofNat 8 b.toNat) = ofNat (8 * k) n := by
  induction k with
  | zero => intro n; rfl
  | succ k ih =>
    intro n
    have hlow : ofNat 8 (n % 256) = ofNat 8 n := ofNat_mod 8 n
    rw [Bytes.toLE, List.flatMap_cons, ih, Utf8.toNat_byte (Nat.mod_lt _ (by decide)), hlow, Nat.mul_succ, Nat.add_comm,
      ofNat_add]
    rfl

/-- The bits of a number's bytes in big-endian order. -/
theorem ofBytes_toLE (k n : Nat) : ofBytes (Bytes.toLE k n).reverse = (ofNat (8 * k) n).reverse := by
  rw [← List.reverse_inj, reverse_ofBytes, List.reverse_reverse, List.reverse_reverse, flatMap_toLE]

theorem toNat_flatMap (bytes : List UInt8) : toNat (bytes.flatMap fun b => ofNat 8 b.toNat) = Bytes.ofLE bytes := by
  induction bytes with
  | nil => rfl
  | cons b bytes ih =>
    rw [List.flatMap_cons, toNat_append, length_ofNat, toNat_ofNat 8 b.toNat_lt, ih, Bytes.ofLE]
    rfl

/-- The bytes of big-endian bits, eight at a time. -/
def toBytes : List Bool → List UInt8
  | b₀ :: b₁ :: b₂ :: b₃ :: b₄ :: b₅ :: b₆ :: b₇ :: bits =>
    UInt8.ofNat (toNat [b₇, b₆, b₅, b₄, b₃, b₂, b₁, b₀]) :: toBytes bits
  | _ => []

theorem toBytes_ofBytes (bytes : List UInt8) : toBytes (ofBytes bytes) = bytes := by
  induction bytes with
  | nil => rfl
  | cons b bytes ih =>
    have hb := toNat_ofNat 8 b.toNat_lt
    rw [ofBytes_cons]
    simp only [ofNat, List.reverse_cons, List.reverse_nil, List.nil_append, List.cons_append, toBytes, ih] at hb ⊢
    rw [hb, UInt8.ofNat_toNat]

end Bits
