import MnoVerify.Gateway
import MnoVerify.VerifierSound

/-!
# One grant for each challenge

`membership_flow`: a challenge is a token. It is pending, or held by one verify request
in flight, or used up by one; `Moves` says what a stretch of a request does with it, and
`tokens_le` that there is never more than one for each time its nonce was minted.
-/

namespace Gateway

/-! ## The challenge store -/

/-- One if the nonce is pending. -/
def present (n : String) (cs : Challenges) : Nat := (cs.lookup n).isSome.toNat

theorem present_le_of {n : String} {cs cs' : Challenges} (h : (cs'.lookup n).isSome = true → (cs.lookup n).isSome = true) :
    present n cs' ≤ present n cs := by
  unfold present
  cases hq : (cs'.lookup n).isSome with
  | false => exact Nat.zero_le _
  | true => rw [h hq]

/-- Nothing of one store is new to the other. -/
structure Shrinks (cs cs' : Challenges) : Prop where
  present : ∀ n, present n cs' ≤ present n cs
  mem : ∀ q ∈ cs', q ∈ cs

theorem shrinks_sweep (cs : Challenges) (now : Int) : Shrinks cs (cs.sweep now) :=
  ⟨fun _ => present_le_of Assoc.isSome_lookup_filter, fun _ h => (List.mem_filter.1 h).1⟩

theorem Shrinks.refl (cs : Challenges) : Shrinks cs cs := ⟨fun _ => Nat.le_refl _, fun _ h => h⟩

theorem shrinks_room (cs : Challenges) (maxPending : Nat) (now : Int) : Shrinks cs (cs.room maxPending now) := by
  unfold Challenges.room
  split
  · exact shrinks_sweep cs now
  · exact .refl cs

theorem shrinks_erase (cs : Challenges) (n : String) : Shrinks cs (Assoc.erase cs n) :=
  ⟨fun _ => present_le_of Assoc.isSome_lookup_filter, fun _ h => (List.mem_filter.1 h).1⟩

/-- Writing a nonce adds its entry alone. -/
theorem present_set (n : String) (v : Pending) (cs : Challenges) (m : String) :
    present m (Assoc.set cs n v) ≤ present m cs + if n = m then 1 else 0 := by
  unfold present
  by_cases h : m = n
  · subst h
    rw [Assoc.lookup_set_self, if_pos rfl]
    exact Nat.le_add_left 1 _
  · rw [Assoc.lookup_set_of_ne h, if_neg fun e => h e.symm, Nat.add_zero]

theorem room_put (cs : Challenges) (cfg : Config) (nonce : String) (c : Challenge) (sweepNow now : Int) :
    (∃ cs', cs.put cfg nonce c sweepNow now = (false, cs') ∧ Shrinks cs cs') ∨
      ∃ cs' expires, cs.put cfg nonce c sweepNow now = (true, Assoc.set cs' nonce ⟨c, expires⟩) ∧ Shrinks cs cs' := by
  unfold Challenges.put
  simp only
  split
  · exact Or.inl ⟨_, rfl, shrinks_room ..⟩
  · exact Or.inr ⟨_, _, rfl, shrinks_room ..⟩

theorem room_restore (cs : Challenges) (cfg : Config) (nonce : String) (v : Pending) (now sweepNow : Int) :
    (∃ cs', cs.restore cfg nonce v now sweepNow = (false, cs') ∧ Shrinks cs cs') ∨
      ∃ cs', cs.restore cfg nonce v now sweepNow = (true, Assoc.set cs' nonce v) ∧ Shrinks cs cs' := by
  unfold Challenges.restore
  split
  · exact Or.inl ⟨_, rfl, .refl cs⟩
  · simp only
    split
    · exact Or.inl ⟨_, rfl, shrinks_room ..⟩
    · exact Or.inr ⟨_, rfl, shrinks_room ..⟩

/-- A challenge that was taken was pending, and is not any more. -/
theorem take_some {cs : Challenges} {n : String} {now : Int} {v : Pending} (h : (cs.take n now).1 = some v) :
    (n, v) ∈ cs ∧ present n cs = 1 ∧ present n (cs.take n now).2 = 0 := by
  unfold Challenges.take at h ⊢
  split at h
  · cases h
  · rename_i v' hv
    simp only at h ⊢
    split at h
    · cases h
    · cases h
      refine ⟨Assoc.mem_of_lookup hv, by rw [present, hv]; rfl, ?_⟩
      rw [present, Assoc.lookup_erase_self]; rfl

theorem shrinks_take (cs : Challenges) (n : String) (now : Int) : Shrinks cs (cs.take n now).2 := by
  unfold Challenges.take
  split
  · exact .refl cs
  · exact shrinks_erase cs n

/-! ## What a stretch does with a challenge -/

/-- The challenge that a request took. -/
def Request.taken : Request → Option Taken
  | .verifyEnsure t => some t
  | .verifying t _ _ => some t
  | .ended t _ _ _ => some t
  | _ => none

/-- One if the request took the nonce and did not put it back. -/
def Request.weight (n : String) : Request → Nat
  | .verifyEnsure t => if t.nonce = n then 1 else 0
  | .verifying t _ _ => if t.nonce = n then 1 else 0
  | .ended t _ false _ => if t.nonce = n then 1 else 0
  | _ => 0

/-- The request ended and put its challenge back. -/
def Request.isPutBack : Request → Bool
  | .ended _ _ putBack _ => putBack
  | _ => false

/-- A stretch takes the world and the request on, and mints the challenges `new`. -/
structure Moves (w : World) (r : Request) (new : List (String × Challenge)) (w' : World) (r' : Request) : Prop where
  requests : w'.requests = w.requests
  minted : w'.minted = new ++ w.minted
  weight : ∀ n, present n w'.challenges + r'.weight n ≤ present n w.challenges + r.weight n + (new.map Prod.fst).count n
  /-- What holds of every challenge known before holds after. -/
  sources : ∀ P : String → Challenge → Prop, (∀ q ∈ w.challenges, P q.1 q.2.challenge) →
    (∀ t, r.taken = some t → P t.nonce t.pending.challenge) → (∀ q ∈ new, P q.1 q.2) →
      (∀ q ∈ w'.challenges, P q.1 q.2.challenge) ∧ ∀ t, r'.taken = some t → P t.nonce t.pending.challenge
  putBack : ∀ n, present n w.challenges < present n w'.challenges →
    n ∈ new.map Prod.fst ∨ ∃ t call answer, r' = .ended t call true answer ∧ t.nonce = n

/-- Nothing is minted or put back, and the request takes nothing. -/
theorem Moves.of_shrinks {w w' : World} {r r' : Request} (hreq : w'.requests = w.requests) (hmint : w'.minted = w.minted)
    (hcs : Shrinks w.challenges w'.challenges) (hw : ∀ n, r'.weight n ≤ r.weight n)
    (ht : ∀ t, r'.taken = some t → r.taken = some t) : Moves w r [] w' r' where
  requests := hreq
  minted := hmint
  weight n := by
    have h1 := hcs.present n
    have h2 := hw n
    simp only [List.map_nil, List.count_nil]
    omega
  sources P h1 h2 _ := ⟨fun q hq => h1 q (hcs.mem q hq), fun t htk => h2 t (ht t htk)⟩
  putBack n hn := absurd hn (Nat.not_lt.2 (hcs.present n))

theorem Moves.trans {w₁ w₂ w₃ : World} {r₁ r₂ r₃ : Request} {new₁ new₂ : List (String × Challenge)}
    (h₁ : Moves w₁ r₁ new₁ w₂ r₂) (h₂ : Moves w₂ r₂ new₂ w₃ r₃) (hr : r₂.isPutBack = false) :
    Moves w₁ r₁ (new₂ ++ new₁) w₃ r₃ where
  requests := h₂.requests.trans h₁.requests
  minted := by rw [h₂.minted, h₁.minted, List.append_assoc]
  weight n := by
    have h1 := h₁.weight n
    have h2 := h₂.weight n
    rw [List.map_append, List.count_append]
    omega
  sources P hc ht hn := by
    obtain ⟨hc', ht'⟩ := h₁.sources P hc ht fun q hq => hn q (List.mem_append_right _ hq)
    exact h₂.sources P hc' ht' fun q hq => hn q (List.mem_append_left _ hq)
  putBack n hlt := by
    rw [List.map_append, List.mem_append]
    by_cases h : present n w₂.challenges < present n w₃.challenges
    · exact (h₂.putBack n h).imp_left Or.inl
    · rcases h₁.putBack n (by omega) with hm | ⟨t, call, answer, he, _⟩
      · exact Or.inl (Or.inr hm)
      · exact absurd ((congrArg Request.isPutBack he).symm.trans hr) nofun

section
variable {cfg : Config}

theorem moves_mint (w : World) (env : Env) (season : Option Int) (ctx account : String) (r : Request) :
    ∃ new, Moves w r new (w.mint cfg env season ctx account).1 (w.mint cfg env season ctx account).2 := by
  have hfail : ∀ (g : TimeGuard.Guard) cs answer, Shrinks w.challenges cs →
      Moves w r [] { w with guard := g, challenges := cs } (.answered answer) :=
    fun g cs answer h => .of_shrinks rfl rfl h (fun n => Nat.zero_le _) nofun
  unfold World.mint
  simp only
  split
  · exact ⟨[], hfail w.guard _ _ (.refl _)⟩
  · split
    · exact ⟨[], hfail _ _ _ (.refl _)⟩
    · rename_i epoch _
      generalize hc : (Challenge.mk account (cfg.signalHash env.nonce account) epoch ctx season _) = c
      rcases room_put w.challenges cfg env.nonce c env.clock.sweepMs env.clock.ms with ⟨cs', hq, hs⟩ | ⟨cs', expires, hq, hs⟩ <;> rw [hq]
      · exact ⟨[], hfail _ _ _ hs⟩
      · refine ⟨[(env.nonce, c)], rfl, rfl, fun n => ?_, fun P hcs _ hn => ⟨fun q hq => ?_, nofun⟩, fun n hn => Or.inl ?_⟩
        · have h1 := present_set env.nonce ⟨c, expires⟩ cs' n
          have h2 := hs.present n
          simp only [List.map_cons, List.map_nil, List.count_cons, List.count_nil, beq_iff_eq, Request.weight]
          omega
        · rcases Assoc.mem_set hq with hq | rfl
          · exact hcs q (hs.mem q hq)
          · exact hn _ List.mem_cons_self
        · have h1 := present_set env.nonce ⟨c, expires⟩ cs' n
          have h2 := hs.present n
          have hn : present n w.challenges < present n (Assoc.set cs' env.nonce ⟨c, expires⟩) := hn
          by_cases he : env.nonce = n
          · rw [← he]; exact List.mem_cons_self
          · rw [if_neg he] at h1
            omega

theorem moves_challengeBody (w : World) (env : Env) (body : Json) :
    ∃ new, Moves w .challengeBody new (w.challengeBody cfg env body).1 (w.challengeBody cfg env body).2 := by
  have hkeep : ∀ (g : TimeGuard.Guard) r, (∀ n, r.weight n = 0) → r.taken = none →
      ∃ new, Moves w .challengeBody new { w with guard := g } r :=
    fun g r hw ht => ⟨[], .of_shrinks rfl rfl (.refl _) (fun n => (hw n).le) fun t h => by rw [ht] at h; cases h⟩
  unfold World.challengeBody
  split
  · exact hkeep w.guard _ (fun _ => rfl) rfl
  · simp only
    split
    · exact hkeep w.guard _ (fun _ => rfl) rfl
    · split
      · exact hkeep w.guard _ (fun _ => rfl) rfl
      · split
        · split
          · exact hkeep _ _ (fun _ => rfl) rfl
          · exact hkeep _ _ (fun _ => rfl) rfl
        · exact moves_mint w env _ _ _ _

theorem moves_finish (w w' : World) {r : Request} {t : Taken} (hreq : w'.requests = w.requests)
    (hmint : w'.minted = w.minted) (hcs : Shrinks w.challenges w'.challenges) (hr : r.taken = some t)
    (hw : ∀ n, r.weight n = if t.nonce = n then 1 else 0) (call : Option (Except String Call)) (answer : Answer) :
    Moves w r [] (w'.finish t call false answer).1 (w'.finish t call false answer).2 :=
  .of_shrinks hreq hmint hcs (fun n => (hw n).ge) fun t' h => by cases h; exact hr

theorem moves_verifyTaken (w : World) (env : Env) (t : Taken) :
    Moves w (.verifyEnsure t) [] (w.verifyTaken cfg env t).1 (w.verifyTaken cfg env t).2 := by
  have hend : ∀ (g : TimeGuard.Guard) answer,
      Moves w (.verifyEnsure t) [] ({ w with guard := g }.finish t none false answer).1
        ({ w with guard := g }.finish t none false answer).2 :=
    fun g answer => moves_finish w { w with guard := g } rfl rfl (.refl _) rfl (fun _ => rfl) none answer
  unfold World.verifyTaken
  split
  · exact hend w.guard _
  · split
    · exact hend w.guard _
    · split
      · split
        · exact hend _ _
        · exact .of_shrinks rfl rfl (.refl _) (fun _ => Nat.le_refl _) fun _ h => h
      · exact .of_shrinks rfl rfl (.refl _) (fun _ => Nat.le_refl _) fun _ h => h

theorem moves_take {w : World} {n : String} {v : Pending} {ms : Int} (h : (w.challenges.take n ms).1 = some v)
    (held : HeldRoots) (account publicSignals : Json) :
    Moves w .verifyBody [] { w with challenges := (w.challenges.take n ms).2, held := held }
      (.verifyEnsure ⟨n, account, publicSignals, v⟩) where
  requests := rfl
  minted := rfl
  weight m := by
    obtain ⟨_, h1, h0⟩ := take_some h
    have h2 := (shrinks_take w.challenges n ms).present m
    simp only [Request.weight]
    by_cases hm : n = m
    · subst hm; rw [h0, h1, if_pos rfl]; exact Nat.le_refl _
    · rw [if_neg hm]; exact Nat.le_trans h2 (Nat.le_add_right _ _)
  sources P hc _ _ := by
    refine ⟨fun q hq => hc q ((shrinks_take w.challenges n ms).mem q hq), fun t ht => ?_⟩
    cases ht
    exact hc (n, v) (take_some h).1
  putBack m hm := absurd hm (Nat.not_lt.2 ((shrinks_take w.challenges n ms).present m))

theorem moves_verifyBody (w : World) (env : Env) (body : Json) :
    Moves w .verifyBody [] (w.verifyBody cfg env body).1 (w.verifyBody cfg env body).2 := by
  have hkeep : ∀ answer, Moves w .verifyBody [] w (.answered answer) :=
    fun answer => .of_shrinks rfl rfl (.refl _) (fun _ => Nat.zero_le _) nofun
  unfold World.verifyBody
  split
  · exact hkeep _
  · split
    · exact hkeep _
    · split
      · exact hkeep _
      · generalize (body.field "nonce").getD .null = nonce
        cases nonce with
        | str n =>
          simp only [World.take]
          cases hv : (w.challenges.take n env.clock.ms).1 with
          | none =>
            rw [Option.map_none]
            exact .of_shrinks rfl rfl (shrinks_take w.challenges n env.clock.ms) (fun _ => Nat.zero_le _) nofun
          | some v =>
            rw [Option.map_some]
            exact (moves_take hv _ _ _).trans (@moves_verifyTaken cfg _ env _) rfl
        | _ => simp only [World.take]; exact hkeep _

theorem moves_verified (w : World) (env : Env) (t : Taken) (store : Nat) (call : Except String Call) (result : Verifier.Result) :
    Moves w (.verifying t store call) [] (w.verified cfg env t call result).1 (w.verified cfg env t call result).2 := by
  have hend : ∀ cs answer, Shrinks w.challenges cs →
      Moves w (.verifying t store call) [] ({ w with challenges := cs }.finish t (some call) false answer).1
        ({ w with challenges := cs }.finish t (some call) false answer).2 :=
    fun cs answer h => moves_finish w { w with challenges := cs } rfl rfl h rfl (fun _ => rfl) (some call) answer
  unfold World.verified
  split
  · exact hend w.challenges _ (.refl _)
  · exact hend w.challenges _ (.refl _)
  · exact hend w.challenges _ (.refl _)
  · simp only
    rcases room_restore w.challenges cfg t.nonce t.pending env.clock.ms env.clock.sweepMs with ⟨cs', hq, hs⟩ | ⟨cs', hq, hs⟩ <;> rw [hq]
    · exact hend cs' _ hs
    · refine ⟨rfl, rfl, fun n => ?_, fun P hc ht _ => ⟨fun q hq => ?_, fun t' h => ?_⟩, fun n hn => Or.inr ?_⟩
      · have h1 := present_set t.nonce t.pending cs' n
        have h2 := hs.present n
        simp only [World.finish, Request.weight, List.map_nil, List.count_nil]
        omega
      · rcases Assoc.mem_set hq with hq | rfl
        · exact hc q (hs.mem q hq)
        · exact ht t rfl
      · cases h; exact ht t rfl
      · have h1 := present_set t.nonce t.pending cs' n
        have h2 := hs.present n
        by_cases he : t.nonce = n
        · exact ⟨t, some call, _, rfl, he⟩
        · rw [if_neg he] at h1
          simp only [World.finish] at hn
          exact absurd hn (by omega)

theorem moves_verifying (w : World) (env : Env) (t : Taken) (store : Nat) (call : Except String Call) :
    Moves w (.verifying t store call) [] (w.verifying cfg env t store call).1 (w.verifying cfg env t store call).2 := by
  unfold World.verifying
  split
  · exact moves_verified w env t store _ _
  · split
    · exact moves_verified w env t store _ _
    · exact .of_shrinks rfl rfl (.refl _) (fun _ => Nat.le_refl _) fun _ h => h

theorem moves_resume (w : World) (env : Env) (r : Request) :
    ∃ new, Moves w r new (w.resume cfg env r).1 (w.resume cfg env r).2 := by
  have hkeep : ∀ r' : Request, (∀ n, r'.weight n = 0) → r'.taken = none → ∃ new, Moves w r new w r' :=
    fun r' hw ht => ⟨[], .of_shrinks rfl rfl (.refl _) (fun n => (hw n).le.trans (Nat.zero_le _))
      fun t h => by rw [ht] at h; cases h⟩
  have hsame : ∃ new, Moves w r new w r := ⟨[], .of_shrinks rfl rfl (.refl _) (fun _ => Nat.le_refl _) fun _ h => h⟩
  cases r with
  | challengeBody =>
    simp only [World.resume]
    split
    · exact hkeep _ (fun _ => rfl) rfl
    · exact hkeep _ (fun _ => rfl) rfl
    · exact moves_challengeBody w env _
  | challengeEnsure season ctx account =>
    simp only [World.resume]
    split
    · exact moves_mint w env _ _ _ _
    · exact hkeep _ (fun _ => rfl) rfl
  | verifyBody =>
    simp only [World.resume]
    split
    · exact hkeep _ (fun _ => rfl) rfl
    · exact hkeep _ (fun _ => rfl) rfl
    · exact ⟨[], moves_verifyBody w env _⟩
  | verifyEnsure t =>
    simp only [World.resume]
    split
    · exact ⟨[], .of_shrinks rfl rfl (.refl _) (fun _ => Nat.le_refl _) fun _ h => h⟩
    · exact ⟨[], moves_finish w w rfl rfl (.refl _) rfl (fun _ => rfl) none _⟩
  | verifying t store call => exact ⟨[], moves_verifying w env t store call⟩
  | answered answer => exact hsame
  | ended t call putBack answer => exact hsame

end

/-! ## Tokens -/

/-- How often a nonce is pending, held by a request, or used up by one. -/
def tokens (n : String) (w : World) : Nat := present n w.challenges + (w.requests.map (Request.weight n)).sum

theorem sum_map_set {α : Type} (f : α → Nat) (b : α) : ∀ (l : List α) (i : Nat) (a : α), l[i]? = some a →
    ((l.set i b).map f).sum + f a = (l.map f).sum + f b
  | [], i, a, h => by cases i <;> cases h
  | x :: l, 0, a, h => by
    cases h
    simp only [List.set_cons_zero, List.map_cons, List.sum_cons]
    omega
  | x :: l, i + 1, a, h => by
    have := sum_map_set f b l i a h
    simp only [List.set_cons_succ, List.map_cons, List.sum_cons]
    omega

theorem le_sum {α : Type} (f : α → Nat) : ∀ (l : List α) (i : Nat) (a : α), l[i]? = some a → f a ≤ (l.map f).sum
  | [], i, a, h => by cases i <;> cases h
  | x :: l, 0, a, h => by
    cases h
    simp only [List.map_cons, List.sum_cons]
    omega
  | x :: l, i + 1, a, h => by
    have := le_sum f l i a h
    simp only [List.map_cons, List.sum_cons]
    omega

theorem add_le_sum {α : Type} (f : α → Nat) : ∀ (l : List α) (i j : Nat) (a b : α), l[i]? = some a → l[j]? = some b →
    i ≠ j → f a + f b ≤ (l.map f).sum
  | [], i, _, a, _, h, _, _ => by cases i <;> cases h
  | x :: l, 0, 0, _, _, _, _, hij => absurd rfl hij
  | x :: l, 0, j + 1, a, b, h, h', _ => by
    cases h
    have := le_sum f l j b h'
    simp only [List.map_cons, List.sum_cons]
    omega
  | x :: l, i + 1, 0, a, b, h, h', _ => by
    cases h'
    have := le_sum f l i a h
    simp only [List.map_cons, List.sum_cons]
    omega
  | x :: l, i + 1, j + 1, a, b, h, h', hij => by
    have := add_le_sum f l i j a b h h' fun e => hij (by rw [e])
    simp only [List.map_cons, List.sum_cons]
    omega

def Answer.isGranted : Answer → Bool
  | .granted _ _ _ _ => true
  | _ => false

section
variable {cfg : Config}

/-- A request that arrives changes the clock guard alone. -/
theorem arrive_cases (w : World) (env : Env) (awaiting : Request) : ∃ g,
    w.arrive cfg env awaiting = ({ w with guard := g }, awaiting) ∨
      ∃ answer, answer.isGranted = false ∧ w.arrive cfg env awaiting = ({ w with guard := g }, .answered answer) := by
  unfold World.arrive
  split
  · exact ⟨_, Or.inr ⟨_, rfl, rfl⟩⟩
  · split
    · exact ⟨_, Or.inr ⟨_, rfl, rfl⟩⟩
    · simp only
      split
      · exact ⟨_, Or.inr ⟨_, rfl, rfl⟩⟩
      · split
        · exact ⟨_, Or.inr ⟨_, rfl, rfl⟩⟩
        · split
          · exact ⟨_, Or.inr ⟨_, rfl, rfl⟩⟩
          · exact ⟨_, Or.inl rfl⟩

/-- The request that an arrival adds. -/
theorem step_request (w : World) (route : Route) (env : Env) : ∃ g r,
    step cfg w (.request route env) = { w with guard := g, requests := w.requests ++ [r] } ∧
      (r = .challengeBody ∨ r = .verifyBody ∨ ∃ answer, answer.isGranted = false ∧ r = .answered answer) := by
  cases route <;>
  · simp only [step]
    obtain ⟨g, h | ⟨answer, ha, h⟩⟩ := @arrive_cases cfg w env _ <;> rw [h]
    · exact ⟨g, _, rfl, by simp⟩
    · exact ⟨g, _, rfl, Or.inr (Or.inr ⟨answer, ha, rfl⟩)⟩

theorem tokens_step (w : World) (e : Event) (n : String) (h : tokens n w ≤ (w.minted.map Prod.fst).count n) :
    tokens n (step cfg w e) ≤ ((step cfg w e).minted.map Prod.fst).count n := by
  cases e with
  | request route env =>
    obtain ⟨g, r, hq, hr⟩ := @step_request cfg w route env
    have hw : r.weight n = 0 := by rcases hr with rfl | rfl | ⟨answer, _, rfl⟩ <;> rfl
    rw [hq]
    simp only [tokens, List.map_append, List.map_cons, List.map_nil, List.sum_append, List.sum_cons, List.sum_nil, hw]
      at h ⊢
    exact h
  | resume i env =>
    simp only [step]
    split
    · rename_i r hr
      obtain ⟨new, hm⟩ := @moves_resume cfg w env r
      have hw := hm.weight n
      have hs := sum_map_set (Request.weight n) (w.resume cfg env r).2 w.requests i r hr
      simp only [tokens] at h ⊢
      rw [hm.requests, hm.minted, List.map_append, List.count_append]
      omega
    · exact h
  | sweep ms =>
    have := (shrinks_sweep w.challenges ms).present n
    simp only [tokens, step] at h ⊢
    omega
  | accept store roots => exact h
  | materialize ctx roots => exact h
  | rollover => exact h
  | clock kind reading => exact h
  | prune minEpoch => exact h

/-- Every challenge pending or taken was minted. -/
structure Minted (w : World) : Prop where
  pending : ∀ q ∈ w.challenges, (q.1, q.2.challenge) ∈ w.minted
  taken : ∀ (i : Nat) r t, w.requests[i]? = some r → r.taken = some t → (t.nonce, t.pending.challenge) ∈ w.minted

theorem getElem?_set_cases {α : Type} {l : List α} {i j : Nat} {a b : α} (h : (l.set i a)[j]? = some b) :
    j = i ∧ b = a ∨ l[j]? = some b := by
  rw [List.getElem?_set] at h
  split at h
  · rename_i hij
    split at h
    · cases h; exact Or.inl ⟨hij.symm, rfl⟩
    · cases h
  · exact Or.inr h

theorem getElem?_concat_cases {α : Type} {l : List α} {j : Nat} {a b : α} (h : (l ++ [a])[j]? = some b) :
    b = a ∨ l[j]? = some b := by
  rw [List.getElem?_append] at h
  split at h
  · exact Or.inr h
  · rw [List.getElem?_singleton] at h
    split at h
    · cases h; exact Or.inl rfl
    · cases h

theorem minted_step {w : World} (h : Minted w) (e : Event) : Minted (step cfg w e) := by
  cases e with
  | request route env =>
    obtain ⟨g, r, hq, hr⟩ := @step_request cfg w route env
    rw [hq]
    refine ⟨h.pending, fun i r' t hi ht => ?_⟩
    rcases getElem?_concat_cases hi with rfl | hi
    · rcases hr with rfl | rfl | ⟨answer, _, rfl⟩ <;> cases ht
    · exact h.taken i r' t hi ht
  | resume i env =>
    simp only [step]
    split
    · rename_i r hr
      obtain ⟨new, hm⟩ := @moves_resume cfg w env r
      have hold : ∀ {q}, q ∈ w.minted → q ∈ (w.resume cfg env r).1.minted := fun hq => by
        rw [hm.minted]; exact List.mem_append_right _ hq
      obtain ⟨hc, ht⟩ := hm.sources (fun n c => (n, c) ∈ (w.resume cfg env r).1.minted) (fun q hq => hold (h.pending q hq))
        (fun t ht => hold (h.taken i r t hr ht)) fun q hq => by rw [hm.minted]; exact List.mem_append_left _ hq
      refine ⟨hc, fun j r' t hj htk => ?_⟩
      rcases getElem?_set_cases hj with ⟨_, rfl⟩ | hj
      · exact ht t htk
      · rw [hm.requests] at hj
        exact hold (h.taken j r' t hj htk)
    · exact h
  | sweep ms => exact ⟨fun q hq => h.pending q ((shrinks_sweep w.challenges ms).mem q hq), h.taken⟩
  | accept store roots => exact ⟨h.pending, h.taken⟩
  | materialize ctx roots => exact ⟨h.pending, h.taken⟩
  | rollover => exact ⟨h.pending, h.taken⟩
  | clock kind reading => exact ⟨h.pending, h.taken⟩
  | prune minEpoch => exact ⟨h.pending, h.taken⟩

end

/-! ## What a verify has checked -/

section
variable (cfg : Config)

/-- The check read clocks that lie before the end of the challenge's epoch, and of its season. -/
def InPeriod (c : Challenge) (k : Check) : Prop :=
  k.now < c.epochEnd cfg ∧
    (cfg.twoTier = true → ∃ s r, c.season = some s ∧ k.season = some r ∧ r < (s + 1) * cfg.lengths.seasonSeconds)

/-- The answer grants what the call was granted. -/
structure Grants (t : Taken) (call : Option (Except String Call)) (account : String) (epoch : Element) (expiresAt : Int) :
    Prop where
  account : account = t.pending.challenge.account ∧ account = String.ofList t.account.toStr
  epoch : epoch.text = intText t.pending.challenge.epoch
  expires : expiresAt = t.pending.challenge.expiresAt cfg
  checked : ∃ c k, call = some (.ok c) ∧ c.proved = true ∧ c.checked = some k ∧ InPeriod cfg t.pending.challenge k

/-- A call that runs for a request. -/
structure Serves (t : Taken) (c : Call) : Prop where
  account : String.ofList t.account.toStr = t.pending.challenge.account
  epoch : c.signals.epoch.text = intText t.pending.challenge.epoch
  sound : c.Sound
  checked : c.Checked (InPeriod cfg t.pending.challenge)
  granted : ∀ n e b, c.pc = .done (.granted n e b) → e = c.signals.epoch

def Request.Ok : Request → Prop
  | .verifyEnsure t => String.ofList t.account.toStr = t.pending.challenge.account
  | .verifying t _ (.ok c) => Serves cfg t c
  | .ended t call putBack answer => (putBack = true → ∃ c, call = some (.ok c) ∧ c.recorded = false) ∧
      ∀ account epoch expiresAt regranted, answer = .granted account epoch expiresAt regranted →
        putBack = false ∧ Grants cfg t call account epoch expiresAt
  | .answered answer => answer.isGranted = false
  | _ => True

variable {cfg}

theorem guardCall_some {l : TimeGuard.Lengths} {g g' : TimeGuard.Guard} {k : TimeGuard.Kind} {r : Reading} {v : Int}
    (h : guardCall l g k r = (g', some v)) : v = TimeGuard.periodNow l k r.now := by
  unfold guardCall at h
  simp only [Prod.mk.injEq] at h
  have h2 := h.2
  split at h2
  · cases h2
  · exact (Option.some.inj h2).symm

/-- `stillCurrent` passes only what it read inside the periods. -/
theorem stillCurrent_truthful (w : World) (env : Env) (t : Taken) (store : Nat) :
    (World.verifierEnv env (w.stillCurrent cfg t store env.clock).2.1 (w.stillCurrent cfg t store env.clock).2.2).Truthful
      (InPeriod cfg t.pending.challenge) := by
  have hne : ∀ {reason : String} {P : Prop}, reason ≠ "stale-or-unknown-root" →
      (Verifier.Verdict.answers (some reason) = .answers none ∨
        Verifier.Verdict.answers (some reason) = .answers (some "stale-or-unknown-root")) → P := by
    rintro reason P hr (h | h)
    · cases h
    · cases h; exact absurd rfl hr
  have hthrows : ∀ {P : Prop}, (Verifier.Verdict.throws = .answers none ∨
      Verifier.Verdict.throws = .answers (some "stale-or-unknown-root")) → P := by rintro P (h | h) <;> cases h
  simp only [World.verifierEnv, Verifier.Env.Truthful, World.stillCurrent]
  split
  · exact hthrows
  · split
    · exact hthrows
    · split
      · exact hne (by decide)
      · split
        · exact hne (by decide)
        · rename_i hend
          rw [not_le] at hend
          split
          · rename_i hsingle
            exact fun _ => ⟨hend, fun htwo => by rw [htwo] at hsingle; cases hsingle⟩
          · split
            · exact hthrows
            · rename_i season hguard
              split
              · exact hne (by decide)
              · rename_i hseason
                rw [not_not] at hseason
                split
                · exact hne (by decide)
                · refine fun _ => ⟨hend, fun _ => ⟨season, _, hseason, rfl, ?_⟩⟩
                  rw [guardCall_some hguard]
                  exact Int.lt_ediv_add_one_mul_self _ (by exact_mod_cast cfg.lengths.season_pos)

theorem ok_verified (w : World) (env : Env) {t : Taken} {c : Call} (h : Serves cfg t c) {result : Verifier.Result}
    (hr : c.pc = .done result) : (w.verified cfg env t (.ok c) result).2.Ok cfg := by
  unfold World.verified
  split
  · exact ⟨nofun, nofun⟩
  · rename_i n e b
    refine ⟨nofun, fun account epoch expiresAt regranted ha => ⟨rfl, ?_⟩⟩
    cases ha
    obtain ⟨k, hk, hin⟩ := h.checked.checked (by rw [hr]; rfl)
    exact ⟨⟨rfl, h.account.symm⟩, by rw [h.granted n e b hr]; exact h.epoch, rfl, c, k, rfl,
      h.sound.proved (by rw [hr]; rfl), hk, hin⟩
  · exact ⟨nofun, nofun⟩
  · simp only
    split
    · exact ⟨fun _ => ⟨c, rfl, h.sound.unrecorded (by rw [hr]; rfl)⟩, nofun⟩
    · exact ⟨nofun, nofun⟩

theorem ok_verifying (w : World) (env : Env) (t : Taken) (store : Nat) {call : Except String Call}
    (h : (Request.verifying t store call).Ok cfg) : (w.verifying cfg env t store call).2.Ok cfg := by
  unfold World.verifying
  cases call with
  | error reason => exact ⟨nofun, nofun⟩
  | ok c =>
    simp only
    have h : Serves cfg t c := h
    split
    · rename_i result hpc
      exact ok_verified w env h hpc
    · have ht := @stillCurrent_truthful cfg w env t store
      refine ⟨h.account, ?_, h.sound.advance _ _, h.checked.advance _ ht, fun n e b hb => ?_⟩
      · rw [(c.args_advance _ _).1]; exact h.epoch
      · rw [(c.args_advance _ _).1]
        rcases Verifier.Call.granted_advance hb with hold | ⟨_, he⟩
        · exact h.granted n e b hold
        · exact he

theorem ok_callVerifier (w : World) (env : Env) {t : Taken} (h : String.ofList t.account.toStr = t.pending.challenge.account)
    (store : Nat) : (w.callVerifier env t store).2.Ok cfg := by
  unfold World.callVerifier
  cases hs : Verifier.start w.nullifiers t.publicSignals (w.expected t store)
    (World.verifierEnv env (.answers none) ⟨env.clock.now, none⟩) with
  | error reason => trivial
  | ok c =>
    obtain ⟨⟨_, _, _, _, he, _⟩, _, _, _, hpc⟩ := Verifier.start_ok hs
    refine ⟨h, he, Verifier.Call.sound_start hs, Verifier.Call.checked_start hs rfl, fun n e b hb => ?_⟩
    rcases hpc with ⟨spent, hpc⟩ | ⟨tag, hpc⟩ <;> rw [hpc] at hb <;> cases hb

theorem ok_verifyTaken (w : World) (env : Env) (t : Taken) : (w.verifyTaken cfg env t).2.Ok cfg := by
  unfold World.verifyTaken
  split
  · exact ⟨nofun, nofun⟩
  · rename_i hacc
    rw [not_not] at hacc
    split
    · exact ⟨nofun, nofun⟩
    · split
      · split
        · exact ⟨nofun, nofun⟩
        · exact hacc
      · exact ok_callVerifier w env hacc _

theorem ok_resume (w : World) (env : Env) {r : Request} (h : r.Ok cfg) : (w.resume cfg env r).2.Ok cfg := by
  have hmint : ∀ season ctx account, (w.mint cfg env season ctx account).2.Ok cfg := by
    intro season ctx account
    unfold World.mint
    simp only
    split
    · rfl
    · split
      · rfl
      · split <;> rfl
  cases r with
  | challengeBody =>
    simp only [World.resume]
    split
    · trivial
    · trivial
    · unfold World.challengeBody
      split
      · trivial
      · simp only
        split
        · trivial
        · split
          · trivial
          · split
            · split <;> trivial
            · exact hmint _ _ _
  | challengeEnsure season ctx account =>
    simp only [World.resume]
    split
    · exact hmint _ _ _
    · trivial
  | verifyBody =>
    simp only [World.resume]
    split
    · trivial
    · trivial
    · unfold World.verifyBody
      split
      · trivial
      · split
        · trivial
        · split
          · trivial
          · split
            · trivial
            · exact ok_verifyTaken _ env _
  | verifyEnsure t =>
    simp only [World.resume]
    split
    · exact ok_callVerifier w env h _
    · exact ⟨nofun, nofun⟩
  | verifying t store call => exact ok_verifying w env t store h
  | answered answer => trivial
  | ended t call putBack answer => exact h

/-- Every request is sound. -/
def AllOk (cfg : Config) (w : World) : Prop := ∀ (i : Nat) r, w.requests[i]? = some r → r.Ok cfg

theorem ok_step {w : World} (h : AllOk cfg w) (e : Event) : AllOk cfg (step cfg w e) := by
  cases e with
  | request route env =>
    obtain ⟨g, r, hq, hr⟩ := @step_request cfg w route env
    rw [hq]
    intro i r' hi
    rcases getElem?_concat_cases hi with rfl | hi
    · rcases hr with rfl | rfl | ⟨answer, ha, rfl⟩
      · trivial
      · trivial
      · exact ha
    · exact h i r' hi
  | resume i env =>
    simp only [step]
    split
    · rename_i r hr
      obtain ⟨new, hm⟩ := @moves_resume cfg w env r
      intro j r' hj
      rcases getElem?_set_cases hj with ⟨_, rfl⟩ | hj
      · exact ok_resume w env (h i r hr)
      · rw [hm.requests] at hj
        exact h j r' hj
    · exact h
  | _ => exact h

/-! ## Runs -/

/-- What holds of a gateway after any events. -/
structure Invariant (cfg : Config) (w : World) : Prop where
  tokens : ∀ n, tokens n w ≤ (w.minted.map Prod.fst).count n
  minted : Minted w
  ok : AllOk cfg w

theorem Invariant.step {w : World} (h : Invariant cfg w) (e : Event) : Invariant cfg (step cfg w e) :=
  ⟨fun n => tokens_step w e n (h.tokens n), minted_step h.minted e, ok_step h.ok e⟩

theorem Invariant.run {w : World} (h : Invariant cfg w) (events : List Event) : Invariant cfg (run cfg w events) := by
  induction events generalizing w with
  | nil => exact h
  | cons e events ih => exact ih (h.step e)

theorem invariant_boot (guard : TimeGuard.Guard) (roots : Roots) (nullifiers : NullifierStore) :
    Invariant cfg (.boot guard roots nullifiers) := by
  have hno : ∀ {i : Nat} {r : Request}, (World.boot guard roots nullifiers).requests[i]? ≠ some r := by
    intro i r hi
    simp [World.boot] at hi
  exact ⟨fun _ => Nat.le_refl 0, ⟨fun q hq => absurd hq List.not_mem_nil, fun i r t hi => absurd hi hno⟩,
    fun i r hi => absurd hi hno⟩

def Request.answer : Request → Option Answer
  | .answered answer => some answer
  | .ended _ _ _ answer => some answer
  | _ => none

/-- The request was answered ok for the nonce. -/
def Request.grants (n : String) : Request → Bool
  | .ended t _ _ (.granted _ _ _ _) => decide (t.nonce = n)
  | _ => false

/-- The request took the nonce and ended without putting it back. -/
def Request.usedUp (n : String) : Request → Bool
  | .ended t _ putBack _ => decide (t.nonce = n) && !putBack
  | _ => false

theorem weight_of_usedUp {n : String} {r : Request} (h : r.usedUp n = true) : r.weight n = 1 := by
  unfold Request.usedUp at h
  split at h
  · rename_i t call putBack answer
    simp only [Bool.and_eq_true, decide_eq_true_eq, Bool.not_eq_true'] at h
    rw [h.2, Request.weight, if_pos h.1]
  · cases h

theorem usedUp_of_grants {n : String} {r : Request} (hok : r.Ok cfg) (h : r.grants n = true) : r.usedUp n = true := by
  unfold Request.grants at h
  split at h
  · obtain ⟨hb, _⟩ := hok.2 _ _ _ _ rfl
    rw [hb, Request.usedUp, h]; rfl
  · cases h

/-- A nonce that nobody minted twice is used up by at most one request, and then neither
pending nor held. -/
theorem usedUp_unique {w : World} (h : Invariant cfg w) (hfresh : (w.minted.map Prod.fst).Nodup) {n : String} {i j : Nat}
    {r r' : Request} (hi : w.requests[i]? = some r) (hj : w.requests[j]? = some r') (hr : r.usedUp n = true) :
    w.challenges.lookup n = none ∧ (i ≠ j → r'.weight n = 0) := by
  have hle : tokens n w ≤ 1 := (h.tokens n).trans (List.nodup_iff_count.1 hfresh n)
  have h1 := weight_of_usedUp hr
  unfold tokens at hle
  refine ⟨?_, fun hij => ?_⟩
  · have h2 := le_sum (Request.weight n) w.requests i r hi
    have hp : present n w.challenges = 0 := by omega
    unfold present at hp
    cases hq : w.challenges.lookup n with
    | none => rfl
    | some v => rw [hq] at hp; cases hp
  · have h2 := add_le_sum (Request.weight n) w.requests i j r r' hi hj hij
    omega

/-- A nonce that becomes pending is minted, or put back by a request that recorded nothing. -/
theorem pending_step {w : World} (h : Invariant cfg w) (e : Event) {n : String} (hn : w.challenges.lookup n = none)
    (hn' : (step cfg w e).challenges.lookup n ≠ none) :
    (∃ new, (step cfg w e).minted = new ++ w.minted ∧ n ∈ new.map Prod.fst) ∨
      ∃ i env t c answer, e = .resume i env ∧ t.nonce = n ∧ c.recorded = false ∧
        (step cfg w e).requests[i]? = some (.ended t (some (.ok c)) true answer) := by
  have hlt : present n w.challenges < present n (step cfg w e).challenges := by
    unfold present
    rw [hn]
    cases hq : (step cfg w e).challenges.lookup n with
    | none => exact absurd hq hn'
    | some v => exact Nat.zero_lt_one
  cases e with
  | request route env =>
    obtain ⟨g, r, hq, _⟩ := @step_request cfg w route env
    rw [hq] at hlt
    exact absurd hlt (Nat.lt_irrefl _)
  | resume i env =>
    have hok := (h.step (.resume i env)).ok
    simp only [step] at hlt hok ⊢
    cases hr : w.requests[i]? with
    | none => rw [hr] at hlt; exact absurd hlt (Nat.lt_irrefl _)
    | some r =>
      rw [hr] at hlt hok
      obtain ⟨new, hm⟩ := @moves_resume cfg w env r
      rcases hm.putBack n hlt with hnew | ⟨t, call, answer, hend, ht⟩
      · exact Or.inl ⟨new, hm.minted, hnew⟩
      · have hi : ((w.resume cfg env r).1.requests.set i (w.resume cfg env r).2)[i]? = some (w.resume cfg env r).2 := by
          rw [hm.requests]
          exact List.getElem?_set_self (List.getElem?_eq_some_iff.1 hr).1
        have hok := hok i _ hi
        rw [hend] at hok
        obtain ⟨c, rfl, hc⟩ := hok.1 rfl
        exact Or.inr ⟨i, env, t, c, answer, rfl, ht, hc, hi.trans (congrArg some hend)⟩
  | sweep ms => exact absurd hlt (Nat.not_lt.2 ((shrinks_sweep w.challenges ms).present n))
  | accept store roots => exact absurd hlt (Nat.lt_irrefl _)
  | materialize ctx roots => exact absurd hlt (Nat.lt_irrefl _)
  | rollover => exact absurd hlt (Nat.lt_irrefl _)
  | clock kind reading => exact absurd hlt (Nat.lt_irrefl _)
  | prune minEpoch => exact absurd hlt (Nat.lt_irrefl _)

/-- A request that ended stays as it is. -/
theorem ended_step {w : World} {i : Nat} {t : Taken} {call : Option (Except String Call)} {putBack : Bool} {answer : Answer}
    (h : w.requests[i]? = some (.ended t call putBack answer)) (e : Event) :
    (step cfg w e).requests[i]? = some (.ended t call putBack answer) := by
  cases e with
  | request route env =>
    obtain ⟨g, r, hq, _⟩ := @step_request cfg w route env
    rw [hq]
    exact (List.getElem?_append_left (List.getElem?_eq_some_iff.1 h).1).trans h
  | resume j env =>
    simp only [step]
    split
    · rename_i r hr
      obtain ⟨new, hm⟩ := @moves_resume cfg w env r
      by_cases hij : j = i
      · subst hij
        rw [h] at hr
        cases hr
        exact List.getElem?_set_self (List.getElem?_eq_some_iff.1 h).1
      · exact (List.getElem?_set_ne hij).trans (by rw [hm.requests]; exact h)
    · exact h
  | _ => exact h

/-- Of any run from boot in which no nonce is minted twice: a nonce is granted once; a grant
is for the account and the epoch that its challenge was minted with, and its last check was
before every period end; a nonce comes back only by a request that recorded nothing; and one
that was used up is not granted to another request. -/
theorem membership_flow (cfg : Config) (guard : TimeGuard.Guard) (roots : Roots) (nullifiers : NullifierStore)
    (events : List Event) (hfresh : ((run cfg (.boot guard roots nullifiers) events).minted.map Prod.fst).Nodup) :
    let w := run cfg (.boot guard roots nullifiers) events
    (∀ (n : String) (i j : Nat) r r', w.requests[i]? = some r → w.requests[j]? = some r' →
      r.grants n = true → r'.grants n = true → i = j) ∧
    (∀ (i : Nat) r account epoch expiresAt regranted, w.requests[i]? = some r →
      r.answer = some (.granted account epoch expiresAt regranted) →
        ∃ t call, r = .ended t call false (.granted account epoch expiresAt regranted) ∧
          (t.nonce, t.pending.challenge) ∈ w.minted ∧ Grants cfg t call account epoch expiresAt) ∧
    (∀ e n, w.challenges.lookup n = none → (step cfg w e).challenges.lookup n ≠ none →
      (∃ new, (step cfg w e).minted = new ++ w.minted ∧ n ∈ new.map Prod.fst) ∨
        ∃ i env t c answer, e = .resume i env ∧ t.nonce = n ∧ c.recorded = false ∧
          (step cfg w e).requests[i]? = some (.ended t (some (.ok c)) true answer)) ∧
    (∀ (n : String) (i j : Nat) r r', w.requests[i]? = some r → w.requests[j]? = some r' → i ≠ j →
      r.usedUp n = true → r'.grants n = false) := by
  intro w
  have h : Invariant cfg w := (invariant_boot guard roots nullifiers).run events
  have hone : ∀ (n : String) (i j : Nat) r r', w.requests[i]? = some r → w.requests[j]? = some r' → i ≠ j →
      r.usedUp n = true → r'.grants n = false := by
    intro n i j r r' hi hj hij hr
    have hw := (usedUp_unique h hfresh hi hj hr).2 hij
    cases hg : r'.grants n with
    | false => rfl
    | true => rw [weight_of_usedUp (usedUp_of_grants (h.ok j r' hj) hg)] at hw; cases hw
  refine ⟨fun n i j r r' hi hj hr hr' => ?_, fun i r account epoch expiresAt regranted hi ha => ?_, fun e n => pending_step h e,
    hone⟩
  · by_contra hij
    rw [hone n i j r r' hi hj hij (usedUp_of_grants (h.ok i r hi) hr)] at hr'
    cases hr'
  · have hok := h.ok i r hi
    cases r with
    | answered answer =>
      cases ha
      cases hok
    | ended t call putBack answer =>
      cases ha
      obtain ⟨rfl, hg⟩ := hok.2 _ _ _ _ rfl
      exact ⟨t, call, rfl, h.minted.taken i _ t hi rfl, hg⟩
    | _ => cases ha

end

/-! ### A challenge and its verify -/

def flowConfig : Config :=
  ⟨⟨100, 1000, Nat.succ_pos _, Nat.succ_pos _⟩, false, 600, 10, 64, fun _ _ _ => "4", fun _ _ => "5", "0"⟩

def flowBoot : World := .boot .fresh ⟨[["2"], ["0"]], []⟩ (.memory [])

def flowEnv (body : Json) : Env :=
  let r : Reading := ⟨50, 50, false⟩
  ⟨true, true, true, .ok body, ⟨r, r, 50, r, 50000, 50000⟩, "n", true, none, .returns true, none⟩

def flowChallenge : Json :=
  .obj [("platform", .str "discord"), ("communityId", .str "1"), ("roleId", .str "2"), ("account", .str "alice")]

def flowVerify : Json :=
  .obj [("nonce", .str "n"), ("proof", .obj []), ("account", .str "alice"),
    ("publicSignals", .arr [.str "1", .str "2", .str "0", .str "4", .str "5"])]

def flow : List Event :=
  [.request .challenge (flowEnv .null), .resume 0 (flowEnv flowChallenge), .request .verify (flowEnv .null)] ++
    List.replicate 7 (.resume 1 (flowEnv flowVerify))

theorem flow_granted : ∃ t call, (run flowConfig flowBoot flow).requests[1]? =
      some (.ended t call false (.granted "alice" ⟨"0", rfl⟩ 100 false)) ∧
    Grants flowConfig t call "alice" ⟨"0", rfl⟩ 100 := by
  obtain ⟨_, h, _, _⟩ := membership_flow flowConfig .fresh ⟨[["2"], ["0"]], []⟩ (.memory []) flow (by decide +kernel)
  obtain ⟨t, call, hr, _, hg⟩ := h 1 _ _ _ _ _ rfl rfl
  exact ⟨t, call, hr ▸ rfl, hg⟩

end Gateway
