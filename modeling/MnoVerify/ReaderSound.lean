import MnoVerify.DmlCommitment
import MnoVerify.SnapshotSound

/-!
# What the reader consumes

Each operation of the reader that succeeds has consumed one encoding of what it returns:
the bytes it started from are that encoding followed by the bytes that are left.
-/

namespace DmlCommitment

open Bytes Js
open Snapshot (require require_eq_ok)

/-- The shortest form of a compact size. -/
def compact (n : Nat) : List UInt8 :=
  if n < 0xfd then toLE 1 n
  else if n ≤ 0xffff then toLE 1 0xfd ++ toLE 2 n
  else if n ≤ 0xffffffff then toLE 1 0xfe ++ toLE 4 n
  else toLE 1 0xff ++ toLE 8 n

namespace Reader

variable {s r : List UInt8}

theorem pure_ok {α : Type} {a b : α} (h : (pure a : Reader α).run s = .ok (b, r)) : b = a ∧ r = s := by
  cases h
  exact ⟨rfl, rfl⟩

theorem ask_ok {c : Bool} {message : String} {u : Unit} (h : (ask c message).run s = .ok (u, r)) : c = true ∧ r = s := by
  cases c with
  | true => cases h; exact ⟨rfl, rfl⟩
  | false => cases h

theorem take_ok {n : Nat} {b : List UInt8} (h : (take n).run s = .ok (b, r)) : s = b ++ r ∧ b.length = n := by
  by_cases hn : n ≤ s.length
  · have h1 : (take n).run s = .ok (s.take n, s.drop n) := if_pos hn
    rw [h1] at h
    cases h
    exact ⟨(List.take_append_drop n s).symm, List.length_take_of_le hn⟩
  · have h1 : (take n).run s = .error "truncated while reading" := if_neg hn
    rw [h1] at h
    cases h

theorem take32_ok {d : Digest} (h : take32.run s = .ok (d, r)) : s = d.bytes ++ r := by
  by_cases hn : 32 ≤ s.length
  · have h1 : take32.run s = .ok (⟨s.take 32, by simp [hn]⟩, s.drop 32) := dif_pos hn
    rw [h1] at h
    cases h
    exact (List.take_append_drop 32 s).symm
  · have h1 : take32.run s = .error "truncated while reading" := dif_neg hn
    rw [h1] at h
    cases h

/-- A little-endian number of `n` bytes. -/
theorem ofLE_take_ok {n v : Nat} (h : (do return ofLE (← take n) : Reader Nat).run s = .ok (v, r)) :
    s = toLE n v ++ r ∧ v < 256 ^ n := by
  obtain ⟨b, s', h1, h2⟩ := run_bind_eq_ok.1 h
  obtain ⟨hs, hb⟩ := take_ok h1
  obtain ⟨rfl, rfl⟩ := pure_ok h2
  exact ⟨by rw [hs, ← hb, toLE_ofLE], hb ▸ ofLE_lt b⟩

theorem u16_ok {v : Nat} (h : u16.run s = .ok (v, r)) : s = toLE 2 v ++ r ∧ v < 256 ^ 2 := ofLE_take_ok h

theorem u32_ok {v : Nat} (h : u32.run s = .ok (v, r)) : s = toLE 4 v ++ r ∧ v < 256 ^ 4 := ofLE_take_ok h

theorem wide_ok {width least v : Nat} (h : (wide width least).run s = .ok (v, r)) :
    s = toLE width v ++ r ∧ least ≤ v ∧ v < 256 ^ width := by
  obtain ⟨b, s', h1, h2⟩ := run_bind_eq_ok.1 h
  obtain ⟨hs, hb⟩ := take_ok h1
  obtain ⟨_, s'', h3, h4⟩ := run_bind_eq_ok.1 h2
  obtain ⟨hle, rfl⟩ := ask_ok h3
  obtain ⟨rfl, rfl⟩ := pure_ok h4
  exact ⟨by rw [hs, ← hb, toLE_ofLE], of_decide_eq_true hle, hb ▸ ofLE_lt b⟩

/-- An accepted compact size is the shortest form of its value. -/
theorem varint_ok {v : Nat} (h : varint.run s = .ok (v, r)) : s = compact v ++ r := by
  obtain ⟨b, s', h1, h2⟩ := run_bind_eq_ok.1 h
  obtain ⟨hs, hb⟩ := take_ok h1
  have hfirst : b = toLE 1 (ofLE b) := by rw [← hb, toLE_ofLE]
  have hlt : ofLE b < 256 := by simpa [hb] using ofLE_lt b
  dsimp only at h2
  split at h2
  · next hsmall =>
    obtain ⟨rfl, rfl⟩ := pure_ok h2
    rw [compact, if_pos hsmall, ← hfirst, hs]
  split at h2
  · next hfd =>
    obtain ⟨h3, h4, h5⟩ := wide_ok h2
    rw [compact, if_neg (by omega), if_pos (by omega), hs, hfirst, hfd, h3, List.append_assoc]
  split at h2
  · next hfe =>
    obtain ⟨h3, h4, h5⟩ := wide_ok h2
    rw [compact, if_neg (by omega), if_neg (by omega), if_pos (by omega), hs, hfirst, hfe, h3, List.append_assoc]
  · obtain ⟨w, s'', h3, h4⟩ := run_bind_eq_ok.1 h2
    obtain ⟨h5, h6, h7⟩ := wide_ok h3
    obtain ⟨_, _, h8, h9⟩ := run_bind_eq_ok.1 h4
    obtain ⟨_, rfl⟩ := ask_ok h8
    obtain ⟨rfl, rfl⟩ := pure_ok h9
    rw [compact, if_neg (by omega), if_neg (by omega), if_neg (by omega), hs, hfirst, show ofLE b = 0xff by omega, h5,
      List.append_assoc]

theorem times_take32_ok : ∀ {n : Nat} {s : List UInt8} {ds : List Digest}, (times take32 n).run s = .ok (ds, r) →
    s = ds.flatMap Digest.bytes ++ r ∧ ds.length = n
  | 0, s, ds, h => by
    obtain ⟨rfl, rfl⟩ := pure_ok h
    exact ⟨rfl, rfl⟩
  | n + 1, s, ds, h => by
    obtain ⟨d, s', h1, h2⟩ := run_bind_eq_ok.1 h
    obtain ⟨ds', s'', h3, h4⟩ := run_bind_eq_ok.1 h2
    obtain ⟨rfl, rfl⟩ := pure_ok h4
    obtain ⟨h5, h6⟩ := times_take32_ok h3
    exact ⟨by rw [take32_ok h1, h5, List.flatMap_cons, List.append_assoc], by simp [h6]⟩

end Reader

end DmlCommitment
