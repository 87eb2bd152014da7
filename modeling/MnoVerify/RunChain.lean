import MnoVerify.Assoc
import Mathlib.Data.List.Basic
import Mathlib.Data.List.Nodup

/-!
# One chain for each member

`#run` of `adapters/common/grant_ledger.js` over promises and microtasks. A world takes steps: a call of `#run`, one of the
pending microtasks, whichever, or the end of a function that runs. `serial`: along every run the functions of a member
follow one another.
-/

namespace RunChain

/-- How a function, or a promise, settles. -/
inductive Outcome (α : Type)
  | resolved (v : α)
  | rejected (e : α)

/-- How far a function is. -/
inductive Fn (α : Type)
  | waiting
  | running
  | settled (o : Outcome α)

def Fn.isRunning {α : Type} : Fn α → Bool
  | .running => true
  | _ => false

/-- A call of `#run`, with its promises `run` and `settled`. -/
structure Call (α : Type) where
  key : String
  /-- The call whose `settled` is `prev`, or none for `Promise.resolve()`. -/
  prev : Option Nat
  fn : Fn α
  run : Option (Outcome α)
  settled : Bool

/-- A microtask, by the call it belongs to: `fn` as a reaction to `prev`, the settling of `run` by what `fn` returned, the two
empty handlers, and the last handler. -/
inductive Job (α : Type)
  | fn (i : Nat)
  | adopt (i : Nat) (o : Outcome α)
  | swallow (i : Nat)
  | drop (i : Nat)

def Job.call {α : Type} : Job α → Nat
  | .fn i => i
  | .adopt i _ => i
  | .swallow i => i
  | .drop i => i

structure World (α : Type) where
  /-- `#chain`, each `settled` by its call. -/
  chain : List (String × Nat)
  calls : List (Call α)
  jobs : List (Job α)

namespace World

variable {α : Type} (w : World α)

def empty : World α := ⟨[], [], []⟩

/-- Whether `prev` is settled. -/
def isSettled : Option Nat → Bool
  | none => true
  | some i => w.calls[i]?.any Call.settled

/-- The calls that wait for the `settled` of a call, in the order of their `then`. -/
def waiters (i : Nat) : List Nat := (List.range w.calls.length).filter fun j => w.calls[j]?.any fun c => decide (c.prev = some i)

/-- `#run(userId, fn)` -/
def call (key : String) : World α :=
  let prev := w.chain.lookup key
  { chain := Assoc.set w.chain key w.calls.length
    calls := w.calls ++ [⟨key, prev, .waiting, none, false⟩]
    jobs := if w.isSettled prev then w.jobs ++ [.fn w.calls.length] else w.jobs }

/-- The promise of a call is settled. -/
def settleRun (i : Nat) (o : Outcome α) : World α :=
  { w with calls := w.calls.modify i fun c => { c with run := some o }, jobs := w.jobs ++ [.swallow i] }

/-- A microtask runs. -/
def react : Job α → World α
  | .fn i => { w with calls := w.calls.modify i fun c => { c with fn := .running } }
  | .adopt i o => w.settleRun i o
  | .swallow i =>
    { w with calls := w.calls.modify i fun c => { c with settled := true }, jobs := w.jobs ++ .drop i :: (w.waiters i).map .fn }
  | .drop i =>
    match w.calls[i]? with
    | some c => if w.chain.lookup c.key = some i then { w with chain := Assoc.erase w.chain c.key } else w
    | none => w

/-- A function that runs comes to its end: it returned or threw, or the promise it gave back is settled, which one more
microtask passes on. -/
def finish (i : Nat) (o : Outcome α) (returned : Bool) : World α :=
  match w.calls[i]? with
  | some c =>
    if c.fn.isRunning then
      let w' := { w with calls := w.calls.modify i fun c => { c with fn := .settled o } }
      if returned then w'.settleRun i o else { w' with jobs := w'.jobs ++ [.adopt i o] }
    else w
  | none => w

end World

inductive Event (α : Type)
  | call (key : String)
  | microtask (n : Nat)
  | finish (i : Nat) (o : Outcome α) (returned : Bool)

variable {α : Type}

def step (w : World α) : Event α → World α
  | .call key => w.call key
  | .microtask n =>
    match w.jobs[n]? with
    | some job => World.react { w with jobs := w.jobs.eraseIdx n } job
    | none => w
  | .finish i o returned => w.finish i o returned

def run (w : World α) (events : List (Event α)) : World α := events.foldl step w

/-! ## The invariant -/

/-- The calls of a member before a call are settled to the end. -/
def Over (w : World α) (key : String) (n : Nat) : Prop :=
  ∀ (m : Nat) (d : Call α), m < n → w.calls[m]? = some d → d.key = key → d.settled = true

/-- The last call of the member before a call. -/
def Last (w : World α) (key : String) (n i : Nat) : Prop :=
  i < n ∧ (∃ d, w.calls[i]? = some d ∧ d.key = key) ∧ ∀ (m : Nat) (d : Call α), m < n → w.calls[m]? = some d → d.key = key → m ≤ i

/-- What holds of a call and its microtasks; `ready` says that its `prev` is settled. -/
structure JobInv (jobs : List (Job α)) (ready : Bool) (i : Nat) (c : Call α) : Prop where
  fn_job : Job.fn i ∈ jobs ↔ c.fn = .waiting ∧ ready = true
  adopt_job : ∀ o, Job.adopt i o ∈ jobs ↔ c.fn = .settled o ∧ c.run = none
  swallow_job : Job.swallow i ∈ jobs ↔ c.run ≠ none ∧ c.settled = false
  drop_job : Job.drop i ∈ jobs → c.settled = true
  run_fn : ∀ o, c.run = some o → c.fn = .settled o
  settled_run : c.settled = true → c.run ≠ none
  started : c.fn ≠ .waiting → ready = true

structure Inv (w : World α) : Prop where
  nodup : w.jobs.Nodup
  bound : ∀ job ∈ w.jobs, job.call < w.calls.length
  job : ∀ (i : Nat) (c : Call α), w.calls[i]? = some c → JobInv w.jobs (w.isSettled c.prev) i c
  prev_some : ∀ (i : Nat) (c : Call α) (j : Nat), w.calls[i]? = some c → c.prev = some j → Last w c.key i j
  prev_none : ∀ (i : Nat) (c : Call α), w.calls[i]? = some c → c.prev = none → Over w c.key i
  chain_some : ∀ (k : String) (i : Nat), w.chain.lookup k = some i → Last w k w.calls.length i
  chain_drop : ∀ (k : String) (i : Nat) (c : Call α), w.chain.lookup k = some i → w.calls[i]? = some c → c.settled = true →
    Job.drop i ∈ w.jobs
  chain_none : ∀ k : String, w.chain.lookup k = none → Over w k w.calls.length

/-! ## Steps that leave the chains alone -/

/-- The calls differ in `fn` and `run` only. -/
structure Frame (w w' : World α) : Prop where
  length : w'.calls.length = w.calls.length
  chain : w'.chain = w.chain
  back : ∀ (i : Nat) (c' : Call α), w'.calls[i]? = some c' →
    ∃ c, w.calls[i]? = some c ∧ c'.key = c.key ∧ c'.prev = c.prev ∧ c'.settled = c.settled
  forth : ∀ (i : Nat) (c : Call α), w.calls[i]? = some c → ∃ c', w'.calls[i]? = some c' ∧ c'.key = c.key

namespace Frame

variable {w w' : World α} (h : Frame w w')

include h

theorem isSettled (prev : Option Nat) : w'.isSettled prev = w.isSettled prev := by
  cases prev with
  | none => rfl
  | some i =>
    rw [World.isSettled, World.isSettled]
    cases hc' : w'.calls[i]? with
    | some c' =>
      obtain ⟨c, hc, -, -, hs⟩ := h.back i c' hc'
      rw [hc, Option.any_some, Option.any_some, hs]
    | none =>
      rw [List.getElem?_eq_none_iff, h.length, ← List.getElem?_eq_none_iff] at hc'
      rw [hc']

theorem last {key : String} {n i : Nat} (hl : Last w key n i) : Last w' key n i := by
  obtain ⟨hi, ⟨d, hd, hk⟩, hall⟩ := hl
  obtain ⟨d', hd', hk'⟩ := h.forth i d hd
  refine ⟨hi, ⟨d', hd', hk'.trans hk⟩, fun m e' hm he' hke' => ?_⟩
  obtain ⟨e, he, hke, -⟩ := h.back m e' he'
  exact hall m e hm he (hke.symm.trans hke')

theorem isOver {key : String} {n : Nat} (ho : Over w key n) : Over w' key n := by
  intro m d' hm hd' hk'
  obtain ⟨d, hd, hk, -, hs⟩ := h.back m d' hd'
  exact hs.trans (ho m d hm hd (hk.symm.trans hk'))

/-- What is left to show of such a step. -/
theorem inv (hw : Inv w) (hnodup : w'.jobs.Nodup) (hbound : ∀ job ∈ w'.jobs, job.call < w.calls.length)
    (hdrop : ∀ i, Job.drop i ∈ w.jobs → Job.drop i ∈ w'.jobs)
    (hjob : ∀ (i : Nat) (c' : Call α), w'.calls[i]? = some c' → JobInv w'.jobs (w.isSettled c'.prev) i c') : Inv w' where
  nodup := hnodup
  bound := fun job hj => h.length ▸ hbound job hj
  job := fun i c' hc' => h.isSettled c'.prev ▸ hjob i c' hc'
  prev_some := fun i c' j hc' hp => by
    obtain ⟨c, hc, hk, hpc, -⟩ := h.back i c' hc'
    rw [hk]
    exact h.last (hw.prev_some i c j hc (hpc ▸ hp))
  prev_none := fun i c' hc' hp => by
    obtain ⟨c, hc, hk, hpc, -⟩ := h.back i c' hc'
    rw [hk]
    exact h.isOver (hw.prev_none i c hc (hpc ▸ hp))
  chain_some := fun k i hk => by
    rw [h.length]
    exact h.last (hw.chain_some k i (h.chain ▸ hk))
  chain_drop := fun k i c' hk hc' hs => by
    obtain ⟨c, hc, -, -, hsc⟩ := h.back i c' hc'
    exact hdrop i (hw.chain_drop k i c (h.chain ▸ hk) hc (hsc ▸ hs))
  chain_none := fun k hk => by
    rw [h.length]
    exact h.isOver (hw.chain_none k (h.chain ▸ hk))

end Frame

/-! ## One call changes -/

theorem getElem?_modify {β : Type} {l : List β} {f : β → β} {i j : Nat} {c' : β} (h : (l.modify i f)[j]? = some c') :
    ∃ c, l[j]? = some c ∧ c' = if i = j then f c else c := by
  rw [List.getElem?_modify] at h
  obtain ⟨c, hc, rfl⟩ := Option.map_eq_some_iff.1 h
  exact ⟨c, hc, rfl⟩

theorem frame_modify {w : World α} {i : Nat} {f : Call α → Call α} {jobs : List (Job α)} (hk : ∀ c, (f c).key = c.key)
    (hp : ∀ c, (f c).prev = c.prev) (hs : ∀ c, (f c).settled = c.settled) :
    Frame w { w with calls := w.calls.modify i f, jobs := jobs } where
  length := List.length_modify ..
  chain := rfl
  back := fun j c' h => by
    obtain ⟨c, hc, rfl⟩ := getElem?_modify h
    refine ⟨c, hc, ?_⟩
    split
    · exact ⟨hk c, hp c, hs c⟩
    · exact ⟨rfl, rfl, rfl⟩
  forth := fun j c h => by
    refine ⟨if i = j then f c else c, ?_, ?_⟩
    · rw [List.getElem?_modify, h]
      rfl
    · split
      · exact hk c
      · rfl

/-- A microtask is taken out. -/
theorem mem_eraseIdx {β : Type} {l : List β} (hn : l.Nodup) {n : Nat} {a : β} (h : l[n]? = some a) (x : β) :
    x ∈ l.eraseIdx n ↔ x ∈ l ∧ x ≠ a := by
  obtain ⟨hlt, rfl⟩ := List.getElem?_eq_some_iff.1 h
  have hl : l = l.take n ++ l[n] :: l.drop (n + 1) := by rw [List.getElem_cons_drop, List.take_append_drop]
  have hp : l.Perm (l[n] :: l.eraseIdx n) := by
    rw [List.eraseIdx_eq_take_drop_succ]
    nth_rewrite 1 [hl]
    exact List.perm_middle
  have hn' := hp.nodup_iff.1 hn
  rw [hp.mem_iff, List.mem_cons]
  constructor
  · intro hx
    exact ⟨Or.inr hx, fun he => (List.nodup_cons.1 hn').1 (he ▸ hx)⟩
  · rintro ⟨rfl | hx, hne⟩
    · exact absurd rfl hne
    · exact hx

theorem nodup_eraseIdx {β : Type} {l : List β} (hn : l.Nodup) (n : Nat) : (l.eraseIdx n).Nodup :=
  hn.sublist (List.eraseIdx_sublist ..)

theorem nodup_snoc {β : Type} {l : List β} (hn : l.Nodup) {x : β} (hx : x ∉ l) : (l ++ [x]).Nodup := by
  rw [← List.concat_eq_append]
  exact hn.concat hx

/-- The microtasks of another call stay. -/
theorem JobInv.congr {jobs jobs' : List (Job α)} {ready : Bool} {k : Nat} {c : Call α} (h : JobInv jobs ready k c)
    (hiff : ∀ x : Job α, x.call = k → (x ∈ jobs' ↔ x ∈ jobs)) : JobInv jobs' ready k c where
  fn_job := (hiff _ rfl).trans h.fn_job
  adopt_job := fun o => (hiff _ rfl).trans (h.adopt_job o)
  swallow_job := (hiff _ rfl).trans h.swallow_job
  drop_job := fun hd => h.drop_job ((hiff _ rfl).1 hd)
  run_fn := h.run_fn
  settled_run := h.settled_run
  started := h.started

/-- A step of one call that leaves the chains alone. -/
theorem inv_modify {w : World α} (h : Inv w) {i : Nat} {f : Call α → Call α} {jobs : List (Job α)}
    (hf : ∀ c, (f c).key = c.key ∧ (f c).prev = c.prev ∧ (f c).settled = c.settled) (hi : i < w.calls.length)
    (hnodup : jobs.Nodup) (hjobs : ∀ x : Job α, x ∈ jobs → x ∈ w.jobs ∨ x.call = i)
    (hothers : ∀ x : Job α, x.call ≠ i → x ∈ w.jobs → x ∈ jobs) (hdrop : Job.drop i ∈ w.jobs → Job.drop i ∈ jobs)
    (hself : ∀ c, w.calls[i]? = some c → JobInv w.jobs (w.isSettled c.prev) i c → JobInv jobs (w.isSettled c.prev) i (f c)) :
    Inv ⟨w.chain, w.calls.modify i f, jobs⟩ := by
  have hframe : Frame w ⟨w.chain, w.calls.modify i f, jobs⟩ :=
    frame_modify (fun c => (hf c).1) (fun c => (hf c).2.1) fun c => (hf c).2.2
  refine hframe.inv h hnodup (fun x hx => ?_) (fun k hk => ?_) fun k c' hc' => ?_
  · rcases hjobs x hx with hx | hx
    · exact h.bound x hx
    · exact hx ▸ hi
  · by_cases hki : k = i
    · exact hki ▸ hdrop (hki ▸ hk)
    · exact hothers _ hki hk
  · obtain ⟨c, hc, rfl⟩ := getElem?_modify hc'
    by_cases hik : i = k
    · subst hik
      rw [if_pos rfl, (hf c).2.1]
      exact hself c hc (h.job i c hc)
    · rw [if_neg hik]
      exact (h.job k c hc).congr fun x hx =>
        ⟨fun hm => (hjobs x hm).resolve_right fun he => hik (he.symm.trans hx), hothers x fun he => hik (he.symm.trans hx)⟩

theorem lt_of_job {w : World α} (h : Inv w) {n : Nat} {job : Job α} (hj : w.jobs[n]? = some job) : job.call < w.calls.length :=
  h.bound job (List.mem_of_getElem? hj)

/-- A function starts. -/
theorem inv_fn {w : World α} (h : Inv w) {n i : Nat} (hj : w.jobs[n]? = some (.fn i)) :
    Inv (World.react { w with jobs := w.jobs.eraseIdx n } (.fn i)) := by
  have hmem : ∀ x, x ∈ w.jobs.eraseIdx n ↔ x ∈ w.jobs ∧ x ≠ .fn i := mem_eraseIdx h.nodup hj
  have hm := List.mem_of_getElem? hj
  refine inv_modify h (fun _ => ⟨rfl, rfl, rfl⟩) (lt_of_job h hj) (nodup_eraseIdx h.nodup n) (fun x hx => Or.inl ((hmem x).1 hx).1)
    (fun x hx hxm => (hmem x).2 ⟨hxm, fun he => hx (by rw [he]; rfl)⟩) (fun hd => (hmem _).2 ⟨hd, nofun⟩) fun c hc hJ => ?_
  obtain ⟨hw, hs⟩ := hJ.fn_job.1 hm
  constructor
  all_goals grind [JobInv]

/-- The promise of a call is settled by what its function returned. -/
theorem inv_adopt {w : World α} (h : Inv w) {n i : Nat} {o : Outcome α} (hj : w.jobs[n]? = some (.adopt i o)) :
    Inv (World.react { w with jobs := w.jobs.eraseIdx n } (.adopt i o)) := by
  have hmem : ∀ x, x ∈ w.jobs.eraseIdx n ++ [.swallow i] ↔ (x ∈ w.jobs ∧ x ≠ .adopt i o) ∨ x = .swallow i := fun x => by
    rw [List.mem_append, mem_eraseIdx h.nodup hj, List.mem_singleton]
  have hm := List.mem_of_getElem? hj
  obtain ⟨c, hc⟩ : ∃ c, w.calls[i]? = some c := ⟨_, List.getElem?_eq_getElem (lt_of_job h hj)⟩
  have hnone := ((h.job i c hc).adopt_job o).1 hm
  have hnot : Job.swallow i ∉ w.jobs := fun hs => ((h.job i c hc).swallow_job.1 hs).1 hnone.2
  refine inv_modify h (fun _ => ⟨rfl, rfl, rfl⟩) (lt_of_job h hj) ?_ (fun x hx => ?_) (fun x hx hxm => ?_)
    (fun hd => (hmem _).2 (Or.inl ⟨hd, nofun⟩)) fun d hd hJ => ?_
  · exact nodup_snoc (nodup_eraseIdx h.nodup n) fun hs => hnot ((mem_eraseIdx h.nodup hj _).1 hs).1
  · rcases (hmem x).1 hx with hx | rfl
    · exact Or.inl hx.1
    · exact Or.inr rfl
  · exact (hmem x).2 (Or.inl ⟨hxm, fun he => hx (by rw [he]; rfl)⟩)
  · rw [hc] at hd
    cases hd
    constructor <;> simp only [hmem]
    all_goals grind [JobInv]

theorem inv_empty : Inv (World.empty : World α) where
  nodup := List.nodup_nil
  bound := nofun
  job := nofun
  prev_some := nofun
  prev_none := nofun
  chain_some := nofun
  chain_drop := nofun
  chain_none := fun _ _ _ _ _ => nofun

/-- What a function that ends leaves behind. -/
theorem inv_finish {w : World α} (h : Inv w) (i : Nat) (o : Outcome α) (returned : Bool) : Inv (w.finish i o returned) := by
  unfold World.finish
  cases hc : w.calls[i]? with
  | none => exact h
  | some c =>
    dsimp only
    cases hr : c.fn.isRunning with
    | false => exact h
    | true =>
      have hfn : c.fn = .running := by
        cases hf : c.fn with
        | running => rfl
        | _ => rw [hf] at hr; cases hr
      have hi : i < w.calls.length := (List.getElem?_eq_some_iff.1 hc).1
      have hJ := h.job i c hc
      have hrun : c.run = none := by
        cases hr : c.run with
        | none => rfl
        | some o' => rw [hJ.run_fn o' hr] at hfn; cases hfn
      rw [if_pos rfl]
      cases returned with
      | true =>
        have hnot : Job.swallow i ∉ w.jobs := fun hs => (hJ.swallow_job.1 hs).1 hrun
        rw [if_pos rfl, World.settleRun]
        simp only [List.modify_modify_eq]
        refine inv_modify h (fun _ => ⟨rfl, rfl, rfl⟩) hi (nodup_snoc h.nodup hnot) (fun x hx => ?_) (fun x _ hx => List.mem_append_left _ hx)
          (fun hd => List.mem_append_left _ hd) fun d hd hJ => ?_
        · exact (List.mem_append.1 hx).imp id fun hx => congrArg Job.call (List.mem_singleton.1 hx)
        · rw [hc] at hd
          cases hd
          constructor <;> simp only [List.mem_append, List.mem_singleton, Function.comp]
          all_goals grind [JobInv]
      | false =>
        have hnot : Job.adopt i o ∉ w.jobs := fun hs => by
          have := ((hJ.adopt_job o).1 hs).1
          rw [hfn] at this
          cases this
        rw [if_neg Bool.false_ne_true]
        refine inv_modify h (fun _ => ⟨rfl, rfl, rfl⟩) hi (nodup_snoc h.nodup hnot) (fun x hx => ?_) (fun x _ hx => List.mem_append_left _ hx)
          (fun hd => List.mem_append_left _ hd) fun d hd hJ => ?_
        · exact (List.mem_append.1 hx).imp id fun hx => congrArg Job.call (List.mem_singleton.1 hx)
        · rw [hc] at hd
          cases hd
          constructor <;> simp only [List.mem_append, List.mem_singleton]
          all_goals grind [JobInv]

/-- A call whose `prev` is settled comes after calls that are settled to the end. -/
theorem over_of_ready {w : World α} (h : Inv w) : ∀ (j : Nat) (c : Call α), w.calls[j]? = some c → w.isSettled c.prev = true →
    Over w c.key j := by
  intro j
  induction j using Nat.strongRecOn with
  | _ j ih =>
    intro c hc hready m e hm he hk
    cases hp : c.prev with
    | none => exact h.prev_none j c hc hp m e hm he hk
    | some i =>
      obtain ⟨hij, ⟨d, hd, hkd⟩, hall⟩ := h.prev_some j c i hc hp
      rw [hp, World.isSettled, hd, Option.any_some] at hready
      have hmi := hall m e hm he hk
      rcases Nat.lt_or_eq_of_le hmi with hlt | rfl
      · have hJ := h.job i d hd
        obtain ⟨o, ho⟩ := Option.ne_none_iff_exists'.1 (hJ.settled_run hready)
        have hstart := hJ.started (by rw [hJ.run_fn o ho]; nofun)
        exact ih i hij d hd hstart m e hlt he (hk.trans hkd.symm)
      · rw [hd] at he
        cases he
        exact hready

theorem inv_drop {w : World α} (h : Inv w) {n i : Nat} (hj : w.jobs[n]? = some (.drop i)) :
    Inv (World.react { w with jobs := w.jobs.eraseIdx n } (.drop i)) := by
  have hmem : ∀ x, x ∈ w.jobs.eraseIdx n ↔ x ∈ w.jobs ∧ x ≠ .drop i := mem_eraseIdx h.nodup hj
  have hm := List.mem_of_getElem? hj
  obtain ⟨c, hc⟩ : ∃ c, w.calls[i]? = some c := ⟨_, List.getElem?_eq_getElem (lt_of_job h hj)⟩
  have hJi := h.job i c hc
  have hsettled := hJi.drop_job hm
  have hjob : ∀ (k : Nat) (d : Call α), w.calls[k]? = some d → JobInv (w.jobs.eraseIdx n) (w.isSettled d.prev) k d := by
    intro k d hd
    have hJ := h.job k d hd
    constructor
    all_goals grind [JobInv]
  simp only [World.react, hc]
  by_cases hl : w.chain.lookup c.key = some i
  · rw [if_pos hl]
    have hlast := h.chain_some c.key i hl
    obtain ⟨o, ho⟩ := Option.ne_none_iff_exists'.1 (hJi.settled_run hsettled)
    have hover := over_of_ready h i c hc (hJi.started (by rw [hJi.run_fn o ho]; nofun))
    refine ⟨nodup_eraseIdx h.nodup n, fun x hx => h.bound x ((hmem x).1 hx).1, hjob, h.prev_some, h.prev_none, ?_, ?_, ?_⟩
    · intro k m hk
      by_cases hkc : k = c.key
      · rw [hkc, Assoc.lookup_erase_self] at hk
        cases hk
      · rw [Assoc.lookup_erase_of_ne hkc] at hk
        exact h.chain_some k m hk
    · intro k m d hk hd hs
      by_cases hkc : k = c.key
      · rw [hkc, Assoc.lookup_erase_self] at hk
        cases hk
      · rw [Assoc.lookup_erase_of_ne hkc] at hk
        refine (hmem _).2 ⟨h.chain_drop k m d hk hd hs, fun he => ?_⟩
        cases he
        obtain ⟨-, ⟨e, he, hke⟩, -⟩ := h.chain_some k i hk
        rw [hc] at he
        cases he
        exact hkc hke.symm
    · intro k hk m d hmn hd hkd
      by_cases hkc : k = c.key
      · have hmi := hlast.2.2 m d hmn hd (hkd.trans hkc)
        rcases Nat.lt_or_eq_of_le hmi with hlt | rfl
        · exact hover m d hlt hd (hkd.trans hkc)
        · rw [hc] at hd
          cases hd
          exact hsettled
      · rw [Assoc.lookup_erase_of_ne hkc] at hk
        exact h.chain_none k hk m d hmn hd hkd
  · rw [if_neg hl]
    refine ⟨nodup_eraseIdx h.nodup n, fun x hx => h.bound x ((hmem x).1 hx).1, hjob, h.prev_some, h.prev_none, h.chain_some, ?_,
      h.chain_none⟩
    intro k m d hk hd hs
    refine (hmem _).2 ⟨h.chain_drop k m d hk hd hs, fun he => ?_⟩
    cases he
    obtain ⟨-, ⟨e, he, hke⟩, -⟩ := h.chain_some k i hk
    rw [hc] at he
    cases he
    exact hl (hke ▸ hk)

theorem mem_waiters {w : World α} {i k : Nat} : k ∈ w.waiters i ↔ ∃ c, w.calls[k]? = some c ∧ c.prev = some i := by
  rw [World.waiters, List.mem_filter, List.mem_range, Option.any_eq_true]
  constructor
  · rintro ⟨-, c, hc, hp⟩
    exact ⟨c, hc, of_decide_eq_true hp⟩
  · rintro ⟨c, hc, hp⟩
    exact ⟨(List.getElem?_eq_some_iff.1 hc).1, c, hc, decide_eq_true hp⟩

/-! ### The `settled` of a call settles -/

/-- A call whose `settled` is settled. -/
def Call.close (c : Call α) : Call α := { c with settled := true }

/-- The world in which the `settled` of a call is settled. -/
def closeAt (w : World α) (i : Nat) (jobs : List (Job α)) : World α := ⟨w.chain, w.calls.modify i Call.close, jobs⟩

section
variable {w : World α} {i : Nat} {jobs : List (Job α)}

theorem get_closeAt {k : Nat} {c' : Call α} (h : (closeAt w i jobs).calls[k]? = some c') :
    ∃ c, w.calls[k]? = some c ∧ c'.key = c.key ∧ c'.prev = c.prev ∧ c' = if i = k then c.close else c := by
  obtain ⟨c, hc, rfl⟩ := getElem?_modify h
  refine ⟨c, hc, ?_, ?_, rfl⟩ <;> split <;> rfl

theorem isSettled_closeAt {c : Call α} (hc : w.calls[i]? = some c) (prev : Option Nat) :
    (closeAt w i jobs).isSettled prev = (w.isSettled prev || decide (prev = some i)) := by
  cases prev with
  | none => rfl
  | some k =>
    by_cases hik : i = k
    · subst hik
      have hk : (closeAt w i jobs).calls[i]? = some c.close := by rw [closeAt, List.getElem?_modify_eq, hc]; rfl
      rw [World.isSettled, hk, decide_eq_true rfl, Bool.or_true]
      rfl
    · have hk : (closeAt w i jobs).calls[k]? = w.calls[k]? := List.getElem?_modify_ne Call.close w.calls hik
      rw [World.isSettled, World.isSettled, hk, decide_eq_false fun he => hik (Option.some.inj he).symm, Bool.or_false]

theorem over_closeAt {key : String} {n : Nat} (h : Over w key n) : Over (closeAt w i jobs) key n := by
  intro m d' hm hd' hk
  obtain ⟨d, hd, hkd, -, rfl⟩ := get_closeAt hd'
  have hs := h m d hm hd (hkd.symm.trans hk)
  split
  · rfl
  · exact hs

theorem last_closeAt {key : String} {n j : Nat} (h : Last w key n j) : Last (closeAt w i jobs) key n j := by
  obtain ⟨hj, ⟨d, hd, hk⟩, hall⟩ := h
  refine ⟨hj, ⟨if i = j then d.close else d, ?_, ?_⟩, fun m e' hm he' hk' => ?_⟩
  · rw [closeAt, List.getElem?_modify, hd]
    rfl
  · split <;> exact hk
  · obtain ⟨e, he, hke, -⟩ := get_closeAt he'
    exact hall m e hm he (hke.symm.trans hk')

end

theorem inv_swallow {w : World α} (h : Inv w) {n i : Nat} (hj : w.jobs[n]? = some (.swallow i)) :
    Inv (World.react { w with jobs := w.jobs.eraseIdx n } (.swallow i)) := by
  have hm := List.mem_of_getElem? hj
  have hlt : i < w.calls.length := lt_of_job h hj
  obtain ⟨c, hc⟩ : ∃ c, w.calls[i]? = some c := ⟨_, List.getElem?_eq_getElem hlt⟩
  have hJi := h.job i c hc
  obtain ⟨hrun, hopen⟩ := hJi.swallow_job.1 hm
  have hmem : ∀ x, x ∈ w.jobs.eraseIdx n ++ .drop i :: (w.waiters i).map .fn ↔
      (x ∈ w.jobs ∧ x ≠ .swallow i) ∨ x = .drop i ∨ ∃ k ∈ w.waiters i, .fn k = x := fun x => by
    rw [List.mem_append, mem_eraseIdx h.nodup hj, List.mem_cons, List.mem_map]
  have hnotReady : w.isSettled (some i) = false := by rw [World.isSettled, hc, Option.any_some, hopen]
  -- a call that waits for `i` is not ready yet
  have hnot : ∀ k ∈ w.waiters i, Job.fn k ∉ w.jobs := fun k hk hf => by
    obtain ⟨d, hd, hp⟩ := mem_waiters.1 hk
    have hready := ((h.job k d hd).fn_job.1 hf).2
    rw [hp, hnotReady] at hready
    cases hready
  change Inv (closeAt w i (w.jobs.eraseIdx n ++ .drop i :: (w.waiters i).map .fn))
  refine ⟨?_, fun x hx => ?_, fun k c' hc' => ?_, fun k c' l hc' hp => ?_, fun k c' hc' hp => ?_, fun k l hk => ?_,
    fun k l c' hk hc' hs => ?_, fun k hk => ?_⟩
  · refine (nodup_eraseIdx h.nodup n).append ?_ ?_
    · refine List.nodup_cons.2 ⟨fun hd => ?_, (List.nodup_range.filter _).map fun a b hab => by cases hab; rfl⟩
      obtain ⟨k, -, hk⟩ := List.mem_map.1 hd
      cases hk
    · intro x hx hx'
      have hxw := ((mem_eraseIdx h.nodup hj x).1 hx).1
      rcases List.mem_cons.1 hx' with rfl | hx'
      · rw [hJi.drop_job hxw] at hopen
        cases hopen
      · obtain ⟨k, hk, rfl⟩ := List.mem_map.1 hx'
        exact hnot k hk hxw
  · rw [closeAt, List.length_modify]
    rcases (hmem x).1 hx with hx | rfl | ⟨k, hk, rfl⟩
    · exact h.bound x hx.1
    · exact hlt
    · obtain ⟨d, hd, -⟩ := mem_waiters.1 hk
      exact (List.getElem?_eq_some_iff.1 hd).1
  · obtain ⟨d, hd, -, hp, rfl⟩ := get_closeAt hc'
    have hJ := h.job k d hd
    rw [isSettled_closeAt hc, hp]
    have hw : k ∈ w.waiters i ↔ d.prev = some i := by
      rw [mem_waiters, hd]
      exact ⟨fun ⟨e, he, hp⟩ => (by cases he; exact hp), fun hp => ⟨d, rfl, hp⟩⟩
    have hwait : d.prev = some i → w.isSettled d.prev = false := fun hp => by rw [hp, hnotReady]
    change JobInv (w.jobs.eraseIdx n ++ .drop i :: (w.waiters i).map .fn) _ k _
    by_cases hik : i = k
    · subst hik
      rw [hc] at hd
      cases hd
      have hself : c.prev ≠ some i := fun hp => Nat.lt_irrefl i (h.prev_some i c i hc hp).1
      rw [if_pos rfl, decide_eq_false hself, Bool.or_false]
      constructor
      all_goals grind [JobInv, Call.close]
    · rw [if_neg hik]
      constructor
      all_goals grind [JobInv]
  · obtain ⟨d, hd, hkd, hpd, -⟩ := get_closeAt hc'
    rw [hkd]
    exact last_closeAt (h.prev_some k d l hd (hpd ▸ hp))
  · obtain ⟨d, hd, hkd, hpd, -⟩ := get_closeAt hc'
    rw [hkd]
    exact over_closeAt (h.prev_none k d hd (hpd ▸ hp))
  · rw [closeAt, List.length_modify]
    exact last_closeAt (h.chain_some k l hk)
  · obtain ⟨d, hd, -, -, rfl⟩ := get_closeAt hc'
    refine (hmem _).2 ?_
    by_cases hil : i = l
    · exact Or.inr (Or.inl (hil ▸ rfl))
    · rw [if_neg hil] at hs
      exact Or.inl ⟨h.chain_drop k l d hk hd hs, nofun⟩
  · rw [closeAt, List.length_modify]
    exact over_closeAt (h.chain_none k hk)

/-! ### A call -/

theorem getElem?_snoc {β : Type} {l : List β} {a b : β} {k : Nat} (h : (l ++ [a])[k]? = some b) :
    l[k]? = some b ∧ k < l.length ∨ k = l.length ∧ b = a := by
  rcases Nat.lt_trichotomy k l.length with hk | rfl | hk
  · rw [List.getElem?_append_left hk] at h
    exact Or.inl ⟨h, hk⟩
  · rw [List.getElem?_concat_length, Option.some_inj] at h
    exact Or.inr ⟨rfl, h.symm⟩
  · rw [List.getElem?_eq_none (by rw [List.length_append, List.length_singleton]; omega)] at h
    cases h

theorem inv_call {w : World α} (h : Inv w) (key : String) : Inv (w.call key) := by
  let new : Call α := ⟨key, w.chain.lookup key, .waiting, none, false⟩
  have hget : ∀ {k : Nat} {c : Call α}, (w.call key).calls[k]? = some c → w.calls[k]? = some c ∧ k < w.calls.length ∨ k = w.calls.length ∧ c = new :=
    getElem?_snoc
  have hold : ∀ {k : Nat} {c : Call α}, w.calls[k]? = some c → (w.call key).calls[k]? = some c := fun {k c} hc => by
    rw [World.call, List.getElem?_append_left (List.getElem?_eq_some_iff.1 hc).1, hc]
  have hnew : (w.call key).calls[w.calls.length]? = some new := List.getElem?_concat_length
  have hmem : ∀ x, x ∈ (w.call key).jobs ↔ x ∈ w.jobs ∨ (w.isSettled new.prev = true ∧ x = .fn w.calls.length) := fun x => by
    change x ∈ (if w.isSettled new.prev then w.jobs ++ [.fn w.calls.length] else w.jobs) ↔ _
    cases w.isSettled new.prev with
    | true => rw [if_pos rfl, List.mem_append, List.mem_singleton]; simp
    | false => rw [if_neg Bool.false_ne_true]; simp
  have hfresh : ∀ x ∈ w.jobs, x.call ≠ w.calls.length := fun x hx => Nat.ne_of_lt (h.bound x hx)
  have hover : ∀ {k : String} {n : Nat}, n ≤ w.calls.length → Over w k n → Over (w.call key) k n := by
    intro k n hn ho m d hm hd hk
    rcases hget hd with ⟨hd, -⟩ | ⟨rfl, -⟩
    · exact ho m d hm hd hk
    · omega
  have hlast : ∀ {k : String} {n i : Nat}, n ≤ w.calls.length → Last w k n i → Last (w.call key) k n i := by
    intro k n i hn ⟨hi, ⟨d, hd, hk⟩, hall⟩
    refine ⟨hi, ⟨d, hold hd, hk⟩, fun m e hm he hke => ?_⟩
    rcases hget he with ⟨he, -⟩ | ⟨rfl, -⟩
    · exact hall m e hm he hke
    · omega
  have hready : ∀ (k : Nat) (c : Call α), w.calls[k]? = some c → (w.call key).isSettled c.prev = w.isSettled c.prev := by
    intro k c hc
    cases hp : c.prev with
    | none => rfl
    | some i =>
      obtain ⟨-, ⟨d, hd, -⟩, -⟩ := h.prev_some k c i hc hp
      rw [World.isSettled, World.isSettled, hold hd, hd]
  have hreadyNew : (w.call key).isSettled new.prev = w.isSettled new.prev := by
    cases hp : new.prev with
    | none => rfl
    | some i =>
      obtain ⟨-, ⟨d, hd, -⟩, -⟩ := h.chain_some key i hp
      rw [World.isSettled, World.isSettled, hold hd, hd]
  have hlength : (w.call key).calls.length = w.calls.length + 1 := List.length_append
  refine ⟨?_, fun x hx => ?_, fun k c hc => ?_, fun k c i hc hp => ?_, fun k c hc hp => ?_, fun k i hk => ?_,
    fun k i c hk hc hs => ?_, fun k hk m d hm hd hkd => ?_⟩
  · change (if w.isSettled new.prev then w.jobs ++ [.fn w.calls.length] else w.jobs).Nodup
    split
    · exact nodup_snoc h.nodup fun hx => hfresh _ hx rfl
    · exact h.nodup
  · rw [hlength]
    rcases (hmem x).1 hx with hx | ⟨-, rfl⟩
    · exact Nat.lt_succ_of_lt (h.bound x hx)
    · exact Nat.lt_succ_self _
  · rcases hget hc with ⟨hc, hlt⟩ | ⟨rfl, rfl⟩
    · rw [hready k c hc]
      refine (h.job k c hc).congr fun x hx => (hmem x).trans ⟨fun hm => hm.resolve_right ?_, Or.inl⟩
      rintro ⟨-, rfl⟩
      exact Nat.ne_of_gt hlt hx
    · rw [hreadyNew]
      constructor
      all_goals grind [Job.call]
  · rcases hget hc with ⟨hc, hlt⟩ | ⟨rfl, rfl⟩
    · exact hlast (Nat.le_of_lt hlt) (h.prev_some k c i hc hp)
    · exact hlast (Nat.le_refl _) (h.chain_some key i hp)
  · rcases hget hc with ⟨hc, hlt⟩ | ⟨rfl, rfl⟩
    · exact hover (Nat.le_of_lt hlt) (h.prev_none k c hc hp)
    · exact hover (Nat.le_refl _) (h.chain_none key hp)
  · rw [hlength]
    by_cases hkk : k = key
    · subst hkk
      rw [World.call, Assoc.lookup_set_self, Option.some_inj] at hk
      rw [← hk]
      exact ⟨Nat.lt_succ_self _, ⟨new, hnew, rfl⟩, fun m _ hm _ _ => Nat.le_of_lt_succ hm⟩
    · rw [World.call, Assoc.lookup_set_of_ne hkk] at hk
      obtain ⟨hi, hd, hall⟩ := hlast (Nat.le_refl _) (h.chain_some k i hk)
      refine ⟨Nat.lt_succ_of_lt hi, hd, fun m e hm he hke => ?_⟩
      rcases hget he with ⟨-, hlt⟩ | ⟨-, rfl⟩
      · exact hall m e hlt he hke
      · exact absurd hke.symm hkk
  · rcases hget hc with ⟨hc, hlt⟩ | ⟨rfl, rfl⟩
    · refine (hmem _).2 (Or.inl ?_)
      by_cases hkk : k = key
      · subst hkk
        rw [World.call, Assoc.lookup_set_self, Option.some_inj] at hk
        omega
      · rw [World.call, Assoc.lookup_set_of_ne hkk] at hk
        exact h.chain_drop k i c hk hc hs
    · cases hs
  · have hkk : k ≠ key := fun hkk => by
      subst hkk
      rw [World.call, Assoc.lookup_set_self] at hk
      cases hk
    rw [World.call, Assoc.lookup_set_of_ne hkk] at hk
    rcases hget hd with ⟨hd, hlt⟩ | ⟨-, rfl⟩
    · exact h.chain_none k hk m d hlt hd hkd
    · exact absurd hkd.symm hkk

/-! ### Every step -/

theorem inv_step {w : World α} (h : Inv w) (e : Event α) : Inv (step w e) := by
  cases e with
  | call key => exact inv_call h key
  | microtask n =>
    rw [step]
    cases hj : w.jobs[n]? with
    | none => exact h
    | some job =>
      cases job with
      | fn i => exact inv_fn h hj
      | adopt i o => exact inv_adopt h hj
      | swallow i => exact inv_swallow h hj
      | drop i => exact inv_drop h hj
  | finish i o returned => exact inv_finish h i o returned

theorem inv_run (events : List (Event α)) : ∀ {w : World α}, Inv w → Inv (run w events) := by
  induction events with
  | nil => exact fun h => h
  | cons e events ih => exact fun h => ih (inv_step h e)

/-! ### How a call moves -/

/-- Before and after a step. -/
inductive Fn.Next : Fn α → Fn α → Prop
  | same (f : Fn α) : Fn.Next f f
  | start : Fn.Next .waiting .running
  | settle (o : Outcome α) : Fn.Next .running (.settled o)

/-- A promise that is settled stays as it is. -/
structure Call.Next (c c' : Call α) : Prop where
  key : c'.key = c.key
  fn : c.fn.Next c'.fn
  run : ∀ o, c.run = some o → c'.run = some o

theorem Call.Next.refl (c : Call α) : c.Next c := ⟨rfl, .same _, fun _ => id⟩

theorem next_modify {l : List (Call α)} {f : Call α → Call α} {i j : Nat} {c : Call α} (hc : l[j]? = some c)
    (h : i = j → c.Next (f c)) : ∃ c', (l.modify i f)[j]? = some c' ∧ c.Next c' := by
  refine ⟨if i = j then f c else c, by rw [List.getElem?_modify, hc]; rfl, ?_⟩
  split
  · exact h ‹_›
  · exact .refl c

theorem next_call {w : World α} (key : String) {j : Nat} {c : Call α} (hc : w.calls[j]? = some c) :
    ∃ c', (w.call key).calls[j]? = some c' ∧ c.Next c' := by
  refine ⟨c, ?_, .refl c⟩
  rw [World.call, List.getElem?_append_left (List.getElem?_eq_some_iff.1 hc).1, hc]

theorem next_react {w : World α} (h : Inv w) {n : Nat} {job : Job α} (hj : w.jobs[n]? = some job) {j : Nat} {c : Call α}
    (hc : w.calls[j]? = some c) :
    ∃ c', (World.react { w with jobs := w.jobs.eraseIdx n } job).calls[j]? = some c' ∧ c.Next c' := by
  have hm := List.mem_of_getElem? hj
  have hJ := h.job j c hc
  cases job with
  | fn i =>
    refine next_modify hc fun hij => ⟨rfl, ?_, fun _ => id⟩
    subst hij
    rw [(hJ.fn_job.1 hm).1]
    exact .start
  | adopt i o =>
    refine next_modify hc fun hij => ⟨rfl, .same _, fun o' ho => ?_⟩
    subst hij
    rw [((hJ.adopt_job o).1 hm).2] at ho
    cases ho
  | swallow i => exact next_modify hc fun _ => ⟨rfl, .same _, fun _ => id⟩
  | drop i =>
    refine ⟨c, ?_, .refl c⟩
    rw [World.react]
    split
    · split
      · exact hc
      · exact hc
    · exact hc

theorem isRunning_iff {f : Fn α} : f.isRunning = true ↔ f = .running := by
  cases f <;> simp [Fn.isRunning]

theorem next_finish {w : World α} (h : Inv w) (i : Nat) (o : Outcome α) (returned : Bool) {j : Nat} {c : Call α}
    (hc : w.calls[j]? = some c) : ∃ c', (w.finish i o returned).calls[j]? = some c' ∧ c.Next c' := by
  unfold World.finish
  split
  · next d hd =>
    split
    · next hr =>
      rw [isRunning_iff] at hr
      have hnext : i = j → c.fn = .running := fun hij => by
        rw [hij, hc] at hd
        cases hd
        exact hr
      have hend : ∃ c', (w.calls.modify i fun c => { c with fn := .settled o })[j]? = some c' ∧ c.Next c' :=
        next_modify hc fun hij => ⟨rfl, hnext hij ▸ .settle o, fun _ => id⟩
      cases returned with
      | false => exact hend
      | true =>
        rw [if_pos rfl, World.settleRun]
        simp only [List.modify_modify_eq]
        refine next_modify hc fun hij => ⟨rfl, hnext hij ▸ .settle o, fun o' ho => ?_⟩
        rw [(h.job j c hc).run_fn o' ho] at hnext
        cases hnext hij
    · exact ⟨c, hc, .refl c⟩
  · exact ⟨c, hc, .refl c⟩

theorem next_step {w : World α} (h : Inv w) (e : Event α) {j : Nat} {c : Call α} (hc : w.calls[j]? = some c) :
    ∃ c', (step w e).calls[j]? = some c' ∧ c.Next c' := by
  cases e with
  | call key => exact next_call key hc
  | microtask n =>
    rw [step]
    cases hj : w.jobs[n]? with
    | none => exact ⟨c, hc, .refl c⟩
    | some job => exact next_react h hj hc
  | finish i o returned => exact next_finish h i o returned hc

/-! ### What the calls of a member do -/

/-- No microtask of a call of the member is pending. -/
def Quiet (w : World α) (key : String) : Prop :=
  ∀ job ∈ w.jobs, ∀ c : Call α, w.calls[job.call]? = some c → c.key ≠ key

theorem Quiet.not_mem {w : World α} {key : String} (hq : Quiet w key) {i : Nat} {c : Call α} (hc : w.calls[i]? = some c)
    (hk : c.key = key) {job : Job α} (hi : job.call = i) : job ∉ w.jobs := fun hm => hq job hm c (hi ▸ hc) hk

theorem Inv.ended {w : World α} (h : Inv w) {i : Nat} {c : Call α} (hc : w.calls[i]? = some c) (hs : c.settled = true) :
    ∃ o, c.run = some o ∧ c.fn = .settled o := by
  have hJ := h.job i c hc
  obtain ⟨o, ho⟩ := Option.ne_none_iff_exists'.1 (hJ.settled_run hs)
  exact ⟨o, ho, hJ.run_fn o ho⟩

/-- When a function has started, those of the earlier calls have come to their end. -/
theorem Inv.earlier {w : World α} (h : Inv w) {i j : Nat} {c d : Call α} (hij : i < j) (hc : w.calls[i]? = some c)
    (hd : w.calls[j]? = some d) (hk : c.key = d.key) (hs : d.fn ≠ .waiting) : ∃ o, c.run = some o ∧ c.fn = .settled o := by
  have hover := over_of_ready h j d hd ((h.job j d hd).started hs)
  exact h.ended hc (hover i c hij hc hk)

theorem Quiet.settled {w : World α} {key : String} (hq : Quiet w key) (h : Inv w) {i : Nat} {c : Call α}
    (hc : w.calls[i]? = some c) (hk : c.key = key) {o : Outcome α} (hf : c.fn = .settled o) :
    c.run = some o ∧ c.settled = true := by
  have hJ := h.job i c hc
  have hrun : c.run = some o := by
    cases hr : c.run with
    | none => exact absurd ((hJ.adopt_job o).2 ⟨hf, hr⟩) (hq.not_mem hc hk rfl)
    | some o' =>
      have hf' := hJ.run_fn o' hr
      rw [hf] at hf'
      cases hf'
      rfl
  refine ⟨hrun, ?_⟩
  cases hs : c.settled with
  | true => rfl
  | false => exact absurd (hJ.swallow_job.2 ⟨by rw [hrun]; nofun, hs⟩) (hq.not_mem hc hk rfl)

/-- Who still waits, waits for a function that runs. -/
theorem Quiet.waits {w : World α} {key : String} (hq : Quiet w key) (h : Inv w) : ∀ (j : Nat) (d : Call α),
    w.calls[j]? = some d → d.key = key → d.fn = .waiting →
    ∃ (i : Nat) (c : Call α), i < j ∧ w.calls[i]? = some c ∧ c.key = key ∧ c.fn = .running := by
  intro j
  induction j using Nat.strongRecOn with
  | _ j ih =>
    intro d hd hk hf
    have hready : w.isSettled d.prev ≠ true := fun hr => hq.not_mem hd hk rfl ((h.job j d hd).fn_job.2 ⟨hf, hr⟩)
    cases hp : d.prev with
    | none =>
      rw [hp] at hready
      exact absurd rfl hready
    | some i =>
      obtain ⟨hij, ⟨c, hc, hkc⟩, -⟩ := h.prev_some j d i hd hp
      rw [hp, World.isSettled, hc, Option.any_some] at hready
      cases hfc : c.fn with
      | waiting =>
        obtain ⟨m, e, hm, he⟩ := ih i hij c hc (hkc.trans hk) hfc
        exact ⟨m, e, Nat.lt_trans hm hij, he⟩
      | running => exact ⟨i, c, hij, hc, hkc.trans hk, hfc⟩
      | settled o => exact absurd (hq.settled h hc (hkc.trans hk) hfc).2 hready

theorem Quiet.dropped {w : World α} {key : String} (hq : Quiet w key) (h : Inv w)
    (hall : ∀ (i : Nat) (c : Call α), w.calls[i]? = some c → c.key = key → c.run ≠ none) : w.chain.lookup key = none := by
  cases hl : w.chain.lookup key with
  | none => rfl
  | some i =>
    obtain ⟨-, ⟨c, hc, hk⟩, -⟩ := h.chain_some key i hl
    obtain ⟨o, ho⟩ := Option.ne_none_iff_exists'.1 (hall i c hc hk)
    have hs := (hq.settled h hc hk ((h.job i c hc).run_fn o ho)).2
    exact absurd (h.chain_drop key i c hl hc hs) (hq.not_mem hc hk rfl)

/-- Along every run: a call goes from waiting to running to settled, a function starts after those of the earlier calls of its
member have settled, and a promise settles as its function did. With no microtask of the member pending, every function that
came to its end has settled its promise, a function waits for one that runs, and when all promises are settled the map holds
no entry. -/
theorem serial (events : List (Event α)) (key : String) :
    (∀ (e : Event α) (i : Nat) (c : Call α), (run .empty events).calls[i]? = some c →
      ∃ c', (run .empty (events ++ [e])).calls[i]? = some c' ∧ c.Next c') ∧
    (∀ (i j : Nat) (c d : Call α), i < j → (run .empty events).calls[i]? = some c → (run .empty events).calls[j]? = some d →
      c.key = key → d.key = key → d.fn ≠ .waiting → ∃ o, c.fn = .settled o) ∧
    (∀ (i : Nat) (c : Call α) (o : Outcome α), (run .empty events).calls[i]? = some c → c.run = some o → c.fn = .settled o) ∧
    (Quiet (run .empty events) key →
      (∀ (i : Nat) (c : Call α) (o : Outcome α), (run .empty events).calls[i]? = some c → c.key = key → c.fn = .settled o →
        c.run = some o) ∧
      (∀ (j : Nat) (d : Call α), (run .empty events).calls[j]? = some d → d.key = key → d.fn = .waiting →
        ∃ (i : Nat) (c : Call α), i < j ∧ (run .empty events).calls[i]? = some c ∧ c.key = key ∧ c.fn = .running) ∧
      ((∀ (i : Nat) (c : Call α), (run .empty events).calls[i]? = some c → c.key = key → c.run ≠ none) →
        (run .empty events).chain.lookup key = none)) := by
  have h : Inv (run World.empty events) := inv_run events inv_empty
  refine ⟨fun e i c hc => ?_, fun i j c d hij hc hd hkc hkd hs => ?_, fun i c o hc => (h.job i c hc).run_fn o,
    fun hq => ⟨fun i c o hc hk hf => (hq.settled h hc hk hf).1, hq.waits h, hq.dropped h⟩⟩
  · rw [run, List.foldl_append]
    exact next_step h e hc
  · obtain ⟨o, -, hf⟩ := h.earlier hij hc hd (hkc.trans hkd.symm) hs
    exact ⟨o, hf⟩

/-- A call after one that rejects, and the map after both. -/
theorem serial_two : (∃ o, (⟨"m", none, .settled (.rejected ()), some (.rejected ()), true⟩ : Call Unit).fn = .settled o) ∧
    (run .empty [.call "m", .call "m", .microtask 0, .finish 0 (.rejected ()) true, .microtask 0, .microtask 1, .microtask 0,
      .finish 1 (.resolved ()) true, .microtask 0, .microtask 0]).chain.lookup "m" = none := by
  let events : List (Event Unit) := [.call "m", .call "m", .microtask 0, .finish 0 (.rejected ()) true, .microtask 0,
    .microtask 1, .microtask 0, .finish 1 (.resolved ()) true, .microtask 0, .microtask 0]
  have hend : run .empty events = ⟨[], [⟨"m", none, .settled (.rejected ()), some (.rejected ()), true⟩,
    ⟨"m", some 0, .settled (.resolved ()), some (.resolved ()), true⟩], []⟩ := rfl
  obtain ⟨-, hstart, -, hquiet⟩ := serial events "m"
  rw [hend] at hstart hquiet
  change _ ∧ (run .empty events).chain.lookup "m" = none
  rw [hend]
  refine ⟨hstart 0 1 _ _ Nat.zero_lt_one rfl rfl rfl rfl nofun, (hquiet fun _ => nofun).2.2 fun i c hc _ => ?_⟩
  match i, hc with
  | 0, hc => cases hc; nofun
  | 1, hc => cases hc; nofun

/-- A call whose promises are all settled, and whose entry is still there. -/
theorem entry_after_settled : ¬ ∀ (events : List (Event Unit)) (key : String),
    (∀ (i : Nat) (c : Call Unit), (run .empty events).calls[i]? = some c → c.key = key → c.run ≠ none ∧ c.settled = true) →
    (run .empty events).chain.lookup key = none := by
  intro h
  have := h [.call "m", .microtask 0, .finish 0 (.resolved ()) true, .microtask 0] "m" ?_
  · revert this
    decide
  · intro i c hc _
    match i, hc with
    | 0, hc =>
      cases hc
      exact ⟨nofun, rfl⟩

end RunChain
