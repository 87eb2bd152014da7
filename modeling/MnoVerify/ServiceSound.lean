import MnoVerify.DmlCommitment
import MnoVerify.Field
import MnoVerify.SnapshotSound

/-!
# The grammar of a service

What a service string may be, and which address and port it names. The parser accepts these strings and no others, and writes
the address and the port.
-/

namespace DmlCommitment

open Bytes Js
open Snapshot (require require_eq_ok)

/-! ## The grammar -/

/-- One to four hexadecimal digits. -/
def Group (g : List Char) : Prop := 1 ≤ g.length ∧ g.length ≤ 4 ∧ ∀ c ∈ g, isHexDigit c = true

/-- Groups with colons between them. -/
def colons (gs : List (List Char)) : List Char := [':'].intercalate gs

/-- The address of eight groups. -/
def groupsAddress (gs : List (List Char)) : List UInt8 := gs.flatMap fun g => u16BE (groupValue g)

/-- An IPv6 host, and its address. -/
inductive Host6 : List Char → List UInt8 → Prop
  | full (gs : List (List Char)) (hl : gs.length = 8) (hg : ∀ g ∈ gs, Group g) : Host6 (colons gs) (groupsAddress gs)
  | compressed (l r : List (List Char)) (hl : l.length + r.length ≤ 7) (hg : ∀ g ∈ l ++ r, Group g) :
      Host6 (colons l ++ ':' :: ':' :: colons r)
        (groupsAddress (l ++ List.replicate (8 - l.length - r.length) ['0'] ++ r))

/-- An IPv4 host of four octets in plain decimal, and its mapped address. -/
inductive Host4 : List Char → List UInt8 → Prop
  | octets (ns : List Nat) (hl : ns.length = 4) (hn : ∀ n ∈ ns, n ≤ 255) :
      Host4 (['.'].intercalate (ns.map (Nat.toDigits 10))) (List.replicate 10 0 ++ [0xff, 0xff] ++ ns.map UInt8.ofNat)

/-- One to five decimal digits, and their value. -/
def Port (p : List Char) (port : Nat) : Prop :=
  1 ≤ p.length ∧ p.length ≤ 5 ∧ (∀ c ∈ p, c.isDigit = true) ∧ port = decimal p ∧ port ≤ 0xffff

/-- A service string, with the address and the port that it names. -/
inductive Service : List Char → List UInt8 → Nat → Prop
  | v6 {host p : List Char} {address : List UInt8} {port : Nat} (hh : Host6 host address) (hp : Port p port) :
      Service ('[' :: (host ++ ']' :: ':' :: p)) address port
  | v4 {host p : List Char} {address : List UInt8} {port : Nat} (hh : Host4 host address) (hp : Port p port) :
      Service (host ++ ':' :: p) address port

/-! ## The split at brackets and colons -/

theorem span_ne {c : Char} {s l r : List Char} :
    s.span (· != c) = (l, c :: r) ↔ s = l ++ c :: r ∧ c ∉ l := by
  rw [List.span_eq_takeWhile_dropWhile, Prod.mk.injEq]
  constructor
  · rintro ⟨rfl, h2⟩
    refine ⟨by rw [← h2, List.takeWhile_append_dropWhile], fun hmem => ?_⟩
    have hne := List.mem_takeWhile_imp hmem
    simp at hne
  · rintro ⟨rfl, hc⟩
    have hp : ∀ x ∈ l, (x != c) = true := fun x hx => bne_iff_ne.2 fun hxc => hc (hxc ▸ hx)
    constructor
    · rw [List.takeWhile_append_of_pos hp, List.takeWhile_cons_of_neg (by simp), List.append_nil]
    · rw [List.dropWhile_append_of_pos hp, List.dropWhile_cons_of_neg (by simp)]

theorem splitService_v6 {s host p : List Char} {quoted : String} {isV6 : Bool} :
    splitService ('[' :: s) quoted = .ok (host, p, isV6) ↔
      isV6 = true ∧ s = host ++ ']' :: ':' :: p ∧ ']' ∉ host ∧ ':' ∈ host := by
  unfold splitService
  constructor
  · intro h
    split at h
    · rename_i s' heq
      obtain rfl : s = s' := List.tail_eq_of_cons_eq heq
      split at h
      · rename_i l r hspan
        obtain ⟨rfl, hnot⟩ := span_ne.1 hspan
        split at h
        · rename_i hcolon
          cases h
          exact ⟨rfl, rfl, hnot, List.contains_iff_mem.1 hcolon⟩
        · cases h
      · cases h
    · rename_i hne
      exact absurd rfl (hne s)
  · rintro ⟨rfl, rfl, hnot, hcolon⟩
    have hspan : (host ++ ']' :: ':' :: p).span (· != ']') = (host, ']' :: ':' :: p) := span_ne.2 ⟨rfl, hnot⟩
    simp only [hspan]
    exact if_pos (List.contains_iff_mem.2 hcolon)

/-- The last colon of a string. -/
theorem span_reverse {c : Char} {s l r : List Char} :
    s.reverse.span (· != c) = (l, c :: r) ↔ s = r.reverse ++ c :: l.reverse ∧ c ∉ l := by
  rw [span_ne, List.reverse_eq_iff, List.reverse_append, List.reverse_cons, List.append_assoc]
  rfl

theorem splitService_v4 {s host p : List Char} {quoted : String} {isV6 : Bool} (hs : s.head? ≠ some '[') :
    splitService s quoted = .ok (host, p, isV6) ↔
      isV6 = false ∧ s = host ++ ':' :: p ∧ ':' ∉ p ∧ ':' ∉ host := by
  unfold splitService
  split
  · exact absurd rfl hs
  constructor
  · intro h
    split at h
    · rename_i l r hspan
      obtain ⟨rfl, hnot⟩ := span_reverse.1 hspan
      split at h
      · cases h
      · rename_i hcolon
        cases h
        refine ⟨rfl, rfl, fun hmem => hnot (List.mem_reverse.1 hmem), fun hmem => hcolon ?_⟩
        exact List.contains_iff_mem.2 (List.mem_reverse.1 hmem)
    · cases h
  · rintro ⟨rfl, rfl, hp, hh⟩
    have hspan : (host ++ ':' :: p).reverse.span (· != ':') = (p.reverse, ':' :: host.reverse) :=
      span_reverse.2 ⟨by rw [List.reverse_reverse, List.reverse_reverse], fun hmem => hp (List.mem_reverse.1 hmem)⟩
    rw [hspan]
    have hnot : ¬ host.reverse.contains ':' = true := fun hmem => hh (List.mem_reverse.1 (List.contains_iff_mem.1 hmem))
    refine (if_neg hnot).trans ?_
    rw [List.reverse_reverse, List.reverse_reverse]

/-! ## Groups -/

theorem group_iff {g : List Char} : isGroup g = true ↔ Group g := by
  simp only [isGroup, Group, Bool.and_eq_true, decide_eq_true_eq, List.all_eq_true, and_assoc]

theorem colon_not_hex : isHexDigit ':' = false := by decide

theorem Group.colon_not_mem {g : List Char} (h : Group g) : ':' ∉ g := by
  intro hmem
  have hc := h.2.2 ':' hmem
  rw [colon_not_hex] at hc
  cases hc

theorem Group.ne_nil {g : List Char} (h : Group g) : g ≠ [] := by
  rintro rfl
  exact absurd h.1 (by decide)

theorem colons_cons_cons (g g' : List Char) (gs : List (List Char)) : colons (g :: g' :: gs) = g ++ ':' :: colons (g' :: gs) := by
  simp [colons, List.intercalate, List.intersperse]

theorem colons_singleton (g : List Char) : colons [g] = g := by
  simp [colons, List.intercalate]

theorem colons_eq_nil {gs : List (List Char)} (hg : ∀ g ∈ gs, Group g) : colons gs = [] ↔ gs = [] := by
  cases gs with
  | nil => simp [colons, List.intercalate]
  | cons g gs =>
    refine ⟨fun h => ?_, fun h => by cases h⟩
    have hne := (hg g List.mem_cons_self).ne_nil
    cases gs with
    | nil =>
      rw [colons_singleton] at h
      exact absurd h hne
    | cons g' gs =>
      rw [colons_cons_cons] at h
      exact absurd (List.append_eq_nil_iff.1 h).1 hne

/-- A loop that passes each element on. -/
theorem mapM_guard {ε α : Type} {f : α → Except ε α} {P : α → Prop} (hf : ∀ a b, f a = .ok b ↔ P a ∧ b = a) {l bs : List α} :
    l.mapM f = .ok bs ↔ (∀ a ∈ l, P a) ∧ bs = l := by
  rw [mapM_eq_ok]
  induction l generalizing bs with
  | nil =>
    rw [List.forall₂_nil_left_iff]
    exact ⟨fun h => ⟨fun a ha => (by cases ha), h⟩, fun h => h.2⟩
  | cons a l ih =>
    rw [List.forall₂_cons_left_iff]
    constructor
    · rintro ⟨b, bs', hb, hbs, rfl⟩
      obtain ⟨ha, rfl⟩ := (hf a b).1 hb
      obtain ⟨hl, rfl⟩ := ih.1 hbs
      exact ⟨List.forall_mem_cons.2 ⟨ha, hl⟩, rfl⟩
    · rintro ⟨hl, rfl⟩
      obtain ⟨ha, hl⟩ := List.forall_mem_cons.1 hl
      exact ⟨a, l, (hf a a).2 ⟨ha, rfl⟩, ih.2 ⟨hl, rfl⟩, rfl⟩

theorem groupsOf_iff {side : List Char} {quoted : String} {gs : List (List Char)} :
    groupsOf side quoted = .ok gs ↔ (∀ g ∈ gs, Group g) ∧ side = colons gs := by
  have hstep : ∀ g b : List Char, (if isGroup g then Except.ok g
      else .error ("malformed IPv6 group " ++ Snapshot.jsonText (some (.str (String.ofList g))) ++ " in " ++ quoted)) = .ok b ↔
      Group g ∧ b = g := by
    intro g b
    rw [← group_iff]
    by_cases h : isGroup g = true
    · rw [if_pos h]
      exact ⟨fun hb => ⟨h, (Except.ok.inj hb).symm⟩, fun hb => by rw [hb.2]⟩
    · rw [if_neg h]
      exact ⟨fun hb => (by cases hb), fun hb => absurd hb.1 h⟩
  unfold groupsOf
  by_cases hs : side = []
  · rw [if_pos hs]
    constructor
    · intro h
      cases h
      exact ⟨fun g hg => (by cases hg), hs⟩
    · rintro ⟨hg, h⟩
      rw [hs, eq_comm, colons_eq_nil hg] at h
      rw [h]
  · rw [if_neg hs, mapM_guard hstep]
    constructor
    · rintro ⟨hg, rfl⟩
      exact ⟨hg, (List.intercalate_splitOn ':').symm⟩
    · rintro ⟨hg, rfl⟩
      have hne : gs ≠ [] := fun h => hs ((colons_eq_nil hg).2 h)
      have hsplit : (colons gs).splitOn ':' = gs := List.splitOn_intercalate ':' (fun g h => (hg g h).colon_not_mem) hne
      rw [hsplit]
      exact ⟨hg, rfl⟩

/-! ## The double colon -/

/-- The first part of a split, longer by `x`. -/
def prepend (x : List Char) : List (List Char) → List (List Char)
  | [] => [x]
  | p :: ps => (x ++ p) :: ps

theorem prepend_append (x y : List Char) (ps : List (List Char)) : prepend x (prepend y ps) = prepend (x ++ y) ps := by
  cases ps with
  | nil => rfl
  | cons p ps => rw [prepend, prepend, prepend, List.append_assoc]

theorem splitDoubleColon_ne_nil (s : List Char) : splitDoubleColon s ≠ [] := by
  unfold splitDoubleColon
  split
  · exact List.cons_ne_nil _ _
  · split <;> exact List.cons_ne_nil _ _
  · exact List.cons_ne_nil _ _

theorem prepend_nil {ps : List (List Char)} (h : ps ≠ []) : prepend [] ps = ps := by
  cases ps with
  | nil => exact absurd rfl h
  | cons p ps => rfl

theorem split_of_ne {c : Char} {s : List Char} (h : ∀ t, c :: s ≠ ':' :: ':' :: t) :
    splitDoubleColon (c :: s) = prepend [c] (splitDoubleColon s) := by
  rw [splitDoubleColon]
  · cases splitDoubleColon s <;> rfl
  · rintro t rfl rfl
    exact h t rfl

theorem split_append {x : List Char} (hx : ':' ∉ x) (s : List Char) :
    splitDoubleColon (x ++ s) = prepend x (splitDoubleColon s) := by
  induction x with
  | nil => exact (prepend_nil (splitDoubleColon_ne_nil s)).symm
  | cons c x ih =>
    rw [List.mem_cons, not_or] at hx
    rw [List.cons_append, split_of_ne fun t ht => hx.1 (List.cons.inj ht).1.symm, ih hx.2, prepend_append]
    rfl

/-- The first character of some groups is one of the first group. -/
theorem head_colons {g : List Char} {gs : List (List Char)} (hg : ∀ x ∈ g :: gs, Group x) {c : Char} {r : List Char}
    (h : colons (g :: gs) = c :: r) : c ∈ g := by
  obtain ⟨d, g', rfl⟩ := List.exists_cons_of_ne_nil (hg g List.mem_cons_self).ne_nil
  have hd : c = d := by
    cases gs with
    | nil =>
      rw [colons_singleton] at h
      exact (List.cons.inj h).1.symm
    | cons g'' gs =>
      rw [colons_cons_cons, List.cons_append] at h
      exact (List.cons.inj h).1.symm
  rw [hd]
  exact List.mem_cons_self

/-- Groups before the end or a double colon are one part. -/
theorem split_colons {gs : List (List Char)} (hne : gs ≠ []) (hg : ∀ g ∈ gs, Group g) {s : List Char}
    (hs : s = [] ∨ ∃ t, s = ':' :: ':' :: t) : splitDoubleColon (colons gs ++ s) = prepend (colons gs) (splitDoubleColon s) := by
  induction gs with
  | nil => exact absurd rfl hne
  | cons g gs ih =>
    obtain ⟨hg1, hg2⟩ := List.forall_mem_cons.1 hg
    cases gs with
    | nil =>
      rw [colons_singleton]
      exact split_append hg1.colon_not_mem s
    | cons g' gs =>
      -- the group after the colon starts with a digit
      obtain ⟨c, r, hcr⟩ := List.exists_cons_of_ne_nil ((colons_eq_nil hg2).not.2 (List.cons_ne_nil g' gs))
      have hc : c ≠ ':' := by
        rintro rfl
        exact hg2 g' List.mem_cons_self |>.colon_not_mem (head_colons hg2 hcr)
      have hcolon : ∀ t, ':' :: (colons (g' :: gs) ++ s) ≠ ':' :: ':' :: t := by
        intro t ht
        rw [hcr] at ht
        exact hc (List.cons.inj (List.cons.inj ht).2).1
      rw [colons_cons_cons, List.append_assoc, split_append hg1.colon_not_mem, List.cons_append, split_of_ne hcolon,
        ih (List.cons_ne_nil g' gs) hg2, prepend_append, prepend_append, List.append_assoc]
      rfl

theorem join_split (s : List Char) : [':', ':'].intercalate (splitDoubleColon s) = s := by
  fun_induction splitDoubleColon s with
  | case1 s ih =>
    obtain ⟨p, ps, hp⟩ := List.exists_cons_of_ne_nil (splitDoubleColon_ne_nil s)
    rw [hp] at ih ⊢
    rw [← ih]
    simp [List.intercalate, List.intersperse]
  | case2 c s h p ps hp ih =>
    rw [hp] at ih
    rw [← ih]
    cases ps <;> simp [List.intercalate, List.intersperse]
  | case3 c s h hp => exact absurd hp (splitDoubleColon_ne_nil s)
  | case4 => rfl

theorem split_one {s a : List Char} (h : splitDoubleColon s = [a]) : s = a := by
  rw [← join_split s, h]
  simp [List.intercalate]

theorem split_two {s a b : List Char} (h : splitDoubleColon s = [a, b]) : s = a ++ ':' :: ':' :: b := by
  rw [← join_split s, h]
  simp [List.intercalate, List.intersperse]

theorem split_colons_end {gs : List (List Char)} (hg : ∀ g ∈ gs, Group g) : splitDoubleColon (colons gs) = [colons gs] := by
  cases gs with
  | nil => rfl
  | cons g gs =>
    have h := split_colons (List.cons_ne_nil g gs) hg (s := []) (Or.inl rfl)
    rw [List.append_nil] at h
    rw [h, splitDoubleColon, prepend, List.append_nil]

theorem split_colons_double {l r : List (List Char)} (hl : ∀ g ∈ l, Group g) (hr : ∀ g ∈ r, Group g) :
    splitDoubleColon (colons l ++ ':' :: ':' :: colons r) = [colons l, colons r] := by
  have hdouble : splitDoubleColon (':' :: ':' :: colons r) = [[], colons r] := by rw [splitDoubleColon, split_colons_end hr]
  cases l with
  | nil => exact hdouble
  | cons g gs =>
    rw [split_colons (List.cons_ne_nil g gs) hl (Or.inr ⟨_, rfl⟩), hdouble, prepend, List.append_nil]

/-! ## Hosts -/

theorem ipv6Bytes_iff {host : List Char} {quoted : String} {address : List UInt8} :
    ipv6Bytes host quoted = .ok address ↔ Host6 host address := by
  have htwo : ∀ a b : List Char, decide ([a, b].length = 2) = true := fun _ _ => rfl
  have hone : ∀ a : List Char, decide ([a].length = 2) = false := fun _ => rfl
  unfold ipv6Bytes
  constructor
  · intro h
    obtain ⟨_, h1, h⟩ := bind_eq_ok.1 h
    obtain ⟨l, h2, h⟩ := bind_eq_ok.1 h
    have h1 := require_eq_ok.1 h1
    dsimp only at h
    rcases hparts : splitDoubleColon host with _ | ⟨a, _ | ⟨b, _ | ⟨c, parts⟩⟩⟩
    · exact absurd hparts (splitDoubleColon_ne_nil host)
    · rw [hparts, hone, if_neg Bool.false_ne_true] at h
      obtain ⟨_, h3, h⟩ := bind_eq_ok.1 h
      obtain ⟨_, h4, h⟩ := bind_eq_ok.1 h
      obtain ⟨_, h5, h⟩ := bind_eq_ok.1 h
      cases h3
      cases h
      rw [hparts] at h2
      obtain ⟨hl, hla⟩ := groupsOf_iff.1 h2
      have ha : a = colons l := hla
      rw [split_one hparts, ha]
      exact .full l (of_decide_eq_true (require_eq_ok.1 h4)) hl
    · rw [hparts, htwo, if_pos rfl] at h
      obtain ⟨r, h3, h⟩ := bind_eq_ok.1 h
      obtain ⟨_, h4, h⟩ := bind_eq_ok.1 h
      obtain ⟨_, h5, h⟩ := bind_eq_ok.1 h
      cases h
      rw [hparts] at h2
      obtain ⟨hl, hla⟩ := groupsOf_iff.1 h2
      obtain ⟨hr, hrb⟩ := groupsOf_iff.1 h3
      have ha : a = colons l := hla
      have hb : b = colons r := hrb
      rw [split_two hparts, ha, hb]
      exact .compressed l r (of_decide_eq_true (require_eq_ok.1 h5)) (List.forall_mem_append.2 ⟨hl, hr⟩)
    · rw [hparts] at h1
      simp at h1
  · intro h
    cases h with
    | full gs hl hg =>
      rw [split_colons_end hg]
      refine bind_eq_ok.2 ⟨(), require_eq_ok.2 rfl, bind_eq_ok.2 ⟨gs, groupsOf_iff.2 ⟨hg, rfl⟩, ?_⟩⟩
      dsimp only
      rw [hone, if_neg Bool.false_ne_true]
      refine bind_eq_ok.2 ⟨[], rfl, bind_eq_ok.2 ⟨(), require_eq_ok.2 (decide_eq_true hl), ?_⟩⟩
      exact bind_eq_ok.2 ⟨(), require_eq_ok.2 rfl, rfl⟩
    | compressed l r hlen hg =>
      obtain ⟨hl, hr⟩ := List.forall_mem_append.1 hg
      rw [split_colons_double hl hr]
      refine bind_eq_ok.2 ⟨(), require_eq_ok.2 rfl, bind_eq_ok.2 ⟨l, groupsOf_iff.2 ⟨hl, rfl⟩, ?_⟩⟩
      dsimp only
      rw [htwo, if_pos rfl]
      refine bind_eq_ok.2 ⟨r, groupsOf_iff.2 ⟨hr, rfl⟩, bind_eq_ok.2 ⟨(), require_eq_ok.2 rfl, ?_⟩⟩
      exact bind_eq_ok.2 ⟨(), require_eq_ok.2 (decide_eq_true hlen), rfl⟩

theorem isDigits_iff {lo hi : Nat} {s : List Char} :
    isDigits lo hi s = true ↔ lo ≤ s.length ∧ s.length ≤ hi ∧ ∀ c ∈ s, c.isDigit = true := by
  simp only [isDigits, Bool.and_eq_true, decide_eq_true_eq, List.all_eq_true, and_assoc]

/-- A plain decimal of at most 255. -/
theorem octet_iff {o : List Char} : isOctet o = true ↔ ∃ n ≤ 255, o = Nat.toDigits 10 n := by
  unfold isOctet
  rw [Bool.and_eq_true, Bool.or_eq_true, Bool.and_eq_true, isDigits_iff, decide_eq_true_eq, decide_eq_true_eq,
    decide_eq_true_eq]
  constructor
  · rintro ⟨h, hle⟩
    have hdec : Field.isDecimal o = true := by
      rcases h with rfl | ⟨⟨hlen, _, hd⟩, h0⟩
      · rfl
      · cases o with
        | nil => exact absurd hlen (by decide)
        | cons c s =>
          obtain ⟨hc, hs⟩ := List.forall_mem_cons.1 hd
          have hc0 : c ≠ '0' := fun hc0 => h0 (by rw [hc0]; rfl)
          unfold Field.isDecimal
          split
          · rfl
          · rename_i heq
            cases heq
            rw [hc, bne_iff_ne.2 hc0, List.all_eq_true.2 hs]
            rfl
          · rename_i heq
            cases heq
    exact ⟨decimal o, hle, (Field.toDigits_value hdec).symm⟩
  · rintro ⟨n, hn, rfl⟩
    have hvalue : decimal (Nat.toDigits 10 n) = n := Nat.ofDigitChars_ten_toDigits
    have hlen : (Nat.toDigits 10 n).length ≤ 3 := by
      rw [Nat.length_toDigits_le_iff (by decide) (by decide)]
      omega
    refine ⟨?_, hvalue.le.trans hn⟩
    rcases Nat.eq_zero_or_pos n with rfl | hpos
    · exact Or.inl rfl
    · obtain ⟨c, ds, hc, h0⟩ := Dec.toDigits_head hpos
      refine Or.inr ⟨⟨?_, hlen, Dec.isDigit_toDigits n⟩, ?_⟩
      · rw [hc, List.length_cons]
        omega
      · rw [hc]
        exact fun heq => h0 (Option.some.inj heq)

theorem decimal_toDigits (n : Nat) : decimal (Nat.toDigits 10 n) = n := Nat.ofDigitChars_ten_toDigits

/-- The numbers of some octets. -/
theorem octets_iff {os : List (List Char)} {bs : List UInt8} :
    List.Forall₂ (fun o b => ∃ n ≤ 255, o = Nat.toDigits 10 n ∧ b = UInt8.ofNat n) os bs ↔
      ∃ ns : List Nat, (∀ n ∈ ns, n ≤ 255) ∧ os = ns.map (Nat.toDigits 10) ∧ bs = ns.map UInt8.ofNat := by
  constructor
  · intro h
    induction h with
    | nil => exact ⟨[], fun n hn => (by cases hn), rfl, rfl⟩
    | cons hn _ ih =>
      obtain ⟨n, hn, rfl, rfl⟩ := hn
      obtain ⟨ns, hns, rfl, rfl⟩ := ih
      exact ⟨n :: ns, List.forall_mem_cons.2 ⟨hn, hns⟩, rfl, rfl⟩
  · rintro ⟨ns, hns, rfl, rfl⟩
    induction ns with
    | nil => exact .nil
    | cons n ns ih =>
      obtain ⟨hn, hns⟩ := List.forall_mem_cons.1 hns
      exact .cons ⟨n, hn, rfl, rfl⟩ (ih hns)

theorem dot_not_mem_toDigits (n : Nat) : '.' ∉ Nat.toDigits 10 n := by
  intro hmem
  exact absurd (Dec.isDigit_toDigits n '.' hmem) (by decide)

theorem ipv4Bytes_iff {host : List Char} {quoted : String} {address : List UInt8} :
    ipv4Bytes host quoted = .ok address ↔ Host4 host address := by
  have hstep : ∀ (o : List Char) (b : UInt8), (if isOctet o then Except.ok (UInt8.ofNat (decimal o))
      else .error ("malformed IPv4 octet " ++ Snapshot.jsonText (some (.str (String.ofList o))) ++ " in " ++ quoted)) = .ok b ↔
      ∃ n ≤ 255, o = Nat.toDigits 10 n ∧ b = UInt8.ofNat n := by
    intro o b
    constructor
    · intro h
      split at h
      · rename_i ho
        obtain ⟨n, hn, rfl⟩ := octet_iff.1 ho
        rw [decimal_toDigits] at h
        exact ⟨n, hn, rfl, (Except.ok.inj h).symm⟩
      · cases h
    · rintro ⟨n, hn, rfl, rfl⟩
      rw [if_pos (octet_iff.2 ⟨n, hn, rfl⟩), decimal_toDigits]
  have hmapM : ∀ (os : List (List Char)) (bs : List UInt8), (os.mapM fun o =>
      if isOctet o then Except.ok (UInt8.ofNat (decimal o))
      else Except.error ("malformed IPv4 octet " ++ Snapshot.jsonText (some (.str (String.ofList o))) ++ " in " ++ quoted)) = .ok bs ↔
      ∃ ns : List Nat, (∀ n ∈ ns, n ≤ 255) ∧ os = ns.map (Nat.toDigits 10) ∧ bs = ns.map UInt8.ofNat := by
    intro os bs
    rw [mapM_eq_ok, ← octets_iff]
    simp only [hstep]
  unfold ipv4Bytes
  constructor
  · intro h
    obtain ⟨_, h1, h⟩ := bind_eq_ok.1 h
    obtain ⟨bytes, h2, h⟩ := bind_eq_ok.1 h
    cases h
    obtain ⟨ns, hns, hos, rfl⟩ := (hmapM _ _).1 h2
    have hhost : host = ['.'].intercalate (ns.map (Nat.toDigits 10)) := by rw [← hos, List.intercalate_splitOn]
    have hlen := of_decide_eq_true (require_eq_ok.1 h1)
    rw [hos, List.length_map] at hlen
    rw [hhost]
    exact .octets ns hlen hns
  · intro h
    cases h with
    | octets ns hl hn =>
      have hne : ns.map (Nat.toDigits 10) ≠ [] := by
        intro h
        rw [List.map_eq_nil_iff.1 h] at hl
        cases hl
      have hsplit : (['.'].intercalate (ns.map (Nat.toDigits 10))).splitOn '.' = ns.map (Nat.toDigits 10) := by
        refine List.splitOn_intercalate '.' (fun o ho => ?_) hne
        obtain ⟨n, _, rfl⟩ := List.mem_map.1 ho
        exact dot_not_mem_toDigits n
      rw [hsplit]
      refine bind_eq_ok.2 ⟨(), require_eq_ok.2 (decide_eq_true (by rw [List.length_map, hl])), ?_⟩
      exact bind_eq_ok.2 ⟨ns.map UInt8.ofNat, (hmapM _ _).2 ⟨ns, hn, rfl, rfl⟩, rfl⟩

/-! ## Characters of a host -/

theorem mem_intercalate {c d : Char} {l : List (List Char)} (h : c ∈ [d].intercalate l) : c = d ∨ ∃ x ∈ l, c ∈ x := by
  induction l with
  | nil => cases h
  | cons x l ih =>
    cases l with
    | nil =>
      simp only [List.intercalate, List.intersperse, List.flatten_cons, List.flatten_nil, List.append_nil] at h
      exact Or.inr ⟨x, List.mem_cons_self, h⟩
    | cons y l =>
      have hcons : [d].intercalate (x :: y :: l) = x ++ d :: [d].intercalate (y :: l) := by
        simp [List.intercalate, List.intersperse]
      rw [hcons, List.mem_append, List.mem_cons] at h
      rcases h with h | h | h
      · exact Or.inr ⟨x, List.mem_cons_self, h⟩
      · exact Or.inl h
      · exact (ih h).imp_right fun ⟨z, hz, hc⟩ => ⟨z, List.mem_cons_of_mem _ hz, hc⟩

theorem bracket_not_mem_colons {gs : List (List Char)} (hg : ∀ g ∈ gs, Group g) : ']' ∉ colons gs := by
  intro hmem
  rcases mem_intercalate hmem with h | ⟨g, hgs, h⟩
  · exact absurd h (by decide)
  · exact absurd ((hg g hgs).2.2 ']' h) (by decide)

theorem Host6.bracket_not_mem {host : List Char} {address : List UInt8} (h : Host6 host address) : ']' ∉ host := by
  cases h with
  | full gs hl hg => exact bracket_not_mem_colons hg
  | compressed l r hl hg =>
    obtain ⟨hgl, hgr⟩ := List.forall_mem_append.1 hg
    have hl := bracket_not_mem_colons hgl
    have hr := bracket_not_mem_colons hgr
    simp [hl, hr]

theorem Host6.colon_mem {host : List Char} {address : List UInt8} (h : Host6 host address) : ':' ∈ host := by
  cases h with
  | full gs hl hg =>
    obtain ⟨g, g', gs, rfl⟩ : ∃ g g' gs', gs = g :: g' :: gs' := by
      match gs with
      | g :: g' :: gs' => exact ⟨g, g', gs', rfl⟩
      | [_] => cases hl
      | [] => cases hl
    rw [colons_cons_cons]
    exact List.mem_append_right g List.mem_cons_self
  | compressed l r hl hg => exact List.mem_append_right _ List.mem_cons_self

theorem Host4.chars {host : List Char} {address : List UInt8} (h : Host4 host address) :
    ∀ c ∈ host, c = '.' ∨ c.isDigit = true := by
  intro c hc
  cases h with
  | octets ns hl hn =>
    refine (mem_intercalate hc).imp_right ?_
    rintro ⟨o, ho, hco⟩
    obtain ⟨n, _, rfl⟩ := List.mem_map.1 ho
    exact Dec.isDigit_toDigits n c hco

theorem length_groupsAddress (gs : List (List Char)) : (groupsAddress gs).length = 2 * gs.length := by
  unfold groupsAddress
  rw [List.length_flatMap, List.map_congr_left fun g _ => length_u16BE (groupValue g)]
  simp [Nat.mul_comm]

theorem Host6.length_address {host : List Char} {address : List UInt8} (h : Host6 host address) : address.length = 16 := by
  cases h with
  | full gs hl hg => rw [length_groupsAddress, hl]
  | compressed l r hl hg =>
    rw [length_groupsAddress, List.length_append, List.length_append, List.length_replicate]
    omega

theorem Host4.length_address {host : List Char} {address : List UInt8} (h : Host4 host address) : address.length = 16 := by
  cases h with
  | octets ns hl hn => simp [hl]

theorem port_iff {p : List Char} {port : Nat} :
    isDigits 1 5 p = true ∧ decimal p ≤ 0xffff ∧ port = decimal p ↔ Port p port := by
  rw [isDigits_iff, Port]
  constructor
  · rintro ⟨⟨h1, h2, h3⟩, h4, rfl⟩
    exact ⟨h1, h2, h3, rfl, h4⟩
  · rintro ⟨h1, h2, h3, rfl, h4⟩
    exact ⟨⟨h1, h2, h3⟩, h4, rfl⟩

/-! ## Services -/

theorem serviceBytes_iff (s : String) (out : List UInt8) : serviceBytes (some (.str s)) = .ok out ↔
    ∃ address port, Service s.toList address port ∧ out = address ++ u16BE port := by
  have htext : Json.textOf (some (.str s)) = s.toList := rfl
  unfold serviceBytes
  rw [htext]
  constructor
  · intro h
    obtain ⟨⟨host, p, isV6⟩, h1, h⟩ := bind_eq_ok.1 h
    obtain ⟨_, h2, h⟩ := bind_eq_ok.1 h
    obtain ⟨_, h3, h⟩ := bind_eq_ok.1 h
    have hport : Port p (decimal p) := port_iff.1 ⟨require_eq_ok.1 h2, of_decide_eq_true (require_eq_ok.1 h3), rfl⟩
    dsimp only at h
    by_cases hs : s.toList.head? = some '['
    · obtain ⟨t, ht⟩ : ∃ t, s.toList = '[' :: t := List.head?_eq_some_iff.1 hs
      rw [ht] at h1 ⊢
      obtain ⟨rfl, rfl, _, _⟩ := splitService_v6.1 h1
      rw [if_pos rfl] at h
      obtain ⟨address, h4, h⟩ := bind_eq_ok.1 h
      cases h
      exact ⟨address, decimal p, .v6 (ipv6Bytes_iff.1 h4) hport, rfl⟩
    · obtain ⟨rfl, heq, _, _⟩ := (splitService_v4 hs).1 h1
      rw [if_neg Bool.false_ne_true] at h
      obtain ⟨address, h4, h⟩ := bind_eq_ok.1 h
      cases h
      rw [heq]
      exact ⟨address, decimal p, .v4 (ipv4Bytes_iff.1 h4) hport, rfl⟩
  · rintro ⟨address, port, hs, rfl⟩
    generalize s.toList = l at hs htext
    cases hs with
    | @v6 host p _ _ hh hp =>
      obtain ⟨h2, h3, rfl⟩ := port_iff.2 hp
      refine bind_eq_ok.2 ⟨(host, p, true), splitService_v6.2 ⟨rfl, rfl, hh.bracket_not_mem, hh.colon_mem⟩, ?_⟩
      refine bind_eq_ok.2 ⟨(), require_eq_ok.2 h2, bind_eq_ok.2 ⟨(), require_eq_ok.2 (decide_eq_true h3), ?_⟩⟩
      dsimp only
      rw [if_pos rfl]
      exact bind_eq_ok.2 ⟨address, ipv6Bytes_iff.2 hh, rfl⟩
    | @v4 host p _ _ hh hp =>
      obtain ⟨h2, h3, rfl⟩ := port_iff.2 hp
      have hdigit : ∀ c : Char, c = '.' ∨ c.isDigit = true → c ≠ ':' ∧ c ≠ '[' := by
        rintro c (rfl | hc)
        · decide
        · exact ⟨fun h => absurd (h ▸ hc) (by decide), fun h => absurd (h ▸ hc) (by decide)⟩
      have hhead : (host ++ ':' :: p).head? ≠ some '[' := by
        intro hhead
        cases host with
        | nil => cases hhead
        | cons c host => exact (hdigit c (hh.chars c List.mem_cons_self)).2 (Option.some.inj hhead)
      have hp' : ':' ∉ p := fun hmem => (hdigit ':' (Or.inr (hp.2.2.1 ':' hmem))).1 rfl
      have hh' : ':' ∉ host := fun hmem => (hdigit ':' (hh.chars ':' hmem)).1 rfl
      refine bind_eq_ok.2 ⟨(host, p, false), (splitService_v4 hhead).2 ⟨rfl, rfl, hp', hh'⟩, ?_⟩
      refine bind_eq_ok.2 ⟨(), require_eq_ok.2 h2, bind_eq_ok.2 ⟨(), require_eq_ok.2 (decide_eq_true h3), ?_⟩⟩
      dsimp only
      rw [if_neg Bool.false_ne_true]
      exact bind_eq_ok.2 ⟨address, ipv4Bytes_iff.2 hh, rfl⟩

theorem Service.bounds {s : List Char} {address : List UInt8} {port : Nat} (h : Service s address port) :
    address.length = 16 ∧ port ≤ 0xffff := by
  cases h with
  | v6 hh hp => exact ⟨hh.length_address, hp.2.2.2.2⟩
  | v4 hh hp => exact ⟨hh.length_address, hp.2.2.2.2⟩

theorem u16BE_inj {m n : Nat} (hm : m ≤ 0xffff) (hn : n ≤ 0xffff) (h : u16BE m = u16BE n) : m = n :=
  toLE_inj (Nat.lt_succ_of_le hm) (Nat.lt_succ_of_le hn) (List.reverse_injective h)

theorem service_grammar :
    -- the strings that are accepted, and what is written
    (∀ (s : String) out, serviceBytes (some (.str s)) = .ok out ↔
      ∃ address port, Service s.toList address port ∧ out = address ++ u16BE port) ∧
    (∀ s address port, Service s address port → address.length = 16 ∧ port ≤ 0xffff) ∧
    -- what is written tells addresses and ports apart
    (∀ s s' address address' port port', Service s address port → Service s' address' port' →
      (address ++ u16BE port = address' ++ u16BE port' ↔ address = address' ∧ port = port')) := by
  refine ⟨serviceBytes_iff, fun s address port h => h.bounds, fun s s' address address' port port' h h' => ?_⟩
  obtain ⟨hlen, hport⟩ := h.bounds
  obtain ⟨hlen', hport'⟩ := h'.bounds
  constructor
  · intro heq
    obtain ⟨ha, hp⟩ := List.append_inj heq (hlen.trans hlen'.symm)
    exact ⟨ha, u16BE_inj hport hport' hp⟩
  · rintro ⟨rfl, rfl⟩
    rfl

end DmlCommitment
