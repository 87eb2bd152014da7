import MnoVerify.Coerce

/-!
# Readers of prefixes

A reader takes a value off the front of a list. `Reads` says that it is the inverse of an encoder on the values that fit: what
it accepts is one encoding of what it returns, and it accepts each.
-/

namespace Codec

variable {β ε α γ : Type} {x : StateT (List β) (Except ε) α} {encode : α → List β} {Fits : α → Prop}

def Reads (x : StateT (List β) (Except ε) α) (encode : α → List β) (Fits : α → Prop) : Prop :=
  ∀ s a r, x.run s = .ok (a, r) ↔ Fits a ∧ s = encode a ++ r

theorem Reads.run (h : Reads x encode Fits) {a : α} (ha : Fits a) (r : List β) : x.run (encode a ++ r) = .ok (a, r) :=
  (h _ a r).2 ⟨ha, rfl⟩

/-- No encoding starts another. -/
theorem Reads.inj (h : Reads x encode Fits) {a b : α} (ha : Fits a) (hb : Fits b) {r s : List β}
    (heq : encode a ++ r = encode b ++ s) : a = b ∧ r = s := by
  have hrun := h.run ha r
  rw [heq, h.run hb s] at hrun
  cases hrun
  exact ⟨rfl, rfl⟩

/-- A read value, then the rest. -/
theorem Reads.bind_iff (h : Reads x encode Fits) {k : α → StateT (List β) (Except ε) γ} {s r : List β} {c : γ} :
    (x >>= k).run s = .ok (c, r) ↔ ∃ a s', (Fits a ∧ s = encode a ++ s') ∧ (k a).run s' = .ok (c, r) := by
  rw [Js.run_bind_eq_ok]
  constructor
  · rintro ⟨a, s', h₁, h₂⟩
    exact ⟨a, s', (h s a s').1 h₁, h₂⟩
  · rintro ⟨a, s', h₁, h₂⟩
    exact ⟨a, s', (h s a s').2 h₁, h₂⟩

theorem run_pure_iff {a b : α} {s r : List β} :
    (pure a : StateT (List β) (Except ε) α).run s = .ok (b, r) ↔ b = a ∧ s = r := by
  constructor
  · intro h
    cases h
    exact ⟨rfl, rfl⟩
  · rintro ⟨rfl, rfl⟩
    rfl

end Codec
