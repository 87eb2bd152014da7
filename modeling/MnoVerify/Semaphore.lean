import Mathlib.Data.List.Perm.Basic
import Mathlib.Data.List.Nodup
import Mathlib.Order.Lattice

/-!
# The concurrency gate

`Semaphore` of `core/stores.js`. A call of `run` is cut at its awaits: it takes a slot, waits or is shed as it arrives;
a waiter goes on in a microtask of its own after its slot was handed over; and a call lets go of its slot once the await
of its function is over. `gate_holds`: what holds after any interleaving of these.
-/

/-- `queue` holds the calls whose resolvers are pending. -/
structure Semaphore where
  max : Int
  maxQueue : Int
  active : Int
  queue : List Nat

namespace Semaphore

/-- The constructor. -/
def new (max maxQueue : Int) : Semaphore := ⟨Max.max 1 max, Max.max 0 maxQueue, 0, []⟩

/-- How a function settles: it returns, or throws, at once or later. -/
inductive Outcome
  | returns
  | throws
deriving DecidableEq

/-- A gate and its calls, which are numbered as they arrive. -/
structure World where
  sem : Semaphore
  arrived : Nat
  /-- The waiters that were handed a slot and are to go on, in the order of the microtask queue. -/
  woken : List Nat
  /-- The calls whose function was called and whose await is not over. -/
  running : List Nat
  settled : List (Nat × Outcome)
  /-- The calls that threw `overloaded`. -/
  shed : List Nat
  /-- The waiters whose function was called, in that order. -/
  started : List Nat

def World.new (max maxQueue : Int) : World := ⟨Semaphore.new max maxQueue, 0, [], [], [], [], []⟩

namespace World

/-- `run` up to its first await. -/
def arrive (w : World) : World :=
  let id := w.arrived
  let w := { w with arrived := w.arrived + 1 }
  if w.sem.active < w.sem.max then
    { w with sem := { w.sem with active := w.sem.active + 1 }, running := w.running ++ [id] }
  else if (w.sem.queue.length : Int) < w.sem.maxQueue then { w with sem := { w.sem with queue := w.sem.queue ++ [id] } }
  else { w with shed := w.shed ++ [id] }

/-- The microtask of a waiter: it calls its function. -/
def resume (w : World) : World :=
  match w.woken with
  | [] => w
  | id :: woken => { w with woken := woken, running := w.running ++ [id], started := w.started ++ [id] }

/-- `finally` -/
def release (w : World) : World :=
  match w.sem.queue with
  | next :: queue => { w with sem := { w.sem with queue := queue }, woken := w.woken ++ [next] }
  | [] => { w with sem := { w.sem with active := w.sem.active - 1 } }

/-- The await of a running function is over. -/
def settle (w : World) (id : Nat) (o : Outcome) : World :=
  if id ∈ w.running then { w with running := w.running.erase id, settled := w.settled ++ [(id, o)] }.release else w

/-- What happens to a gate. -/
inductive Step
  | arrive
  | resume
  | settle (id : Nat) (o : Outcome)

def step (w : World) : Step → World
  | .arrive => w.arrive
  | .resume => w.resume
  | .settle id o => w.settle id o

def run (w : World) (steps : List Step) : World := steps.foldl step w

/-! ## The invariant -/

/-- The calls that no place has lost. -/
def calls (w : World) : List Nat := w.running ++ w.woken ++ w.sem.queue ++ w.settled.map Prod.fst ++ w.shed

/-- A slot is with a running function, with a waiter that it was handed to or, `k` of them, with the `finally` that runs;
it is free only when nobody waits. -/
structure Inv (k : Int) (w : World) : Prop where
  max_pos : 1 ≤ w.sem.max
  maxQueue_nonneg : 0 ≤ w.sem.maxQueue
  slots : w.sem.active = w.running.length + w.woken.length + k
  active_le : w.sem.active ≤ w.sem.max
  queue_le : w.sem.queue.length ≤ w.sem.maxQueue
  free : w.sem.active < w.sem.max → w.sem.queue = []
  order : (w.started ++ w.woken ++ w.sem.queue).Pairwise (· < ·)
  old : ∀ id ∈ w.started ++ w.woken ++ w.sem.queue, id < w.arrived
  all : w.calls.Perm (List.range w.arrived)

theorem inv_new (max maxQueue : Int) : (World.new max maxQueue).Inv 0 where
  max_pos := le_max_left ..
  maxQueue_nonneg := le_max_left ..
  slots := rfl
  active_le := by
    have h : (1 : Int) ≤ Max.max 1 max := le_max_left ..
    show (0 : Int) ≤ Max.max 1 max
    omega
  queue_le := le_max_left ..
  free _ := rfl
  order := List.Pairwise.nil
  old := nofun
  all := List.Perm.refl _

theorem inv_arrive {w : World} (h : w.Inv 0) : w.arrive.Inv 0 := by
  have hall : ∀ l : List Nat, l.Perm (w.arrived :: w.calls) → l.Perm (List.range (w.arrived + 1)) := by
    intro l hl
    rw [List.range_succ]
    exact hl.trans ((h.all.cons _).trans (List.perm_append_singleton _ _).symm)
  unfold arrive
  dsimp only
  by_cases hfree : w.sem.active < w.sem.max
  · rw [if_pos hfree]
    refine { h with slots := ?_, active_le := ?_, free := fun _ => h.free hfree, old := ?_, all := hall _ ?_ }
    · simp only [List.length_append, List.length_singleton]
      have := h.slots
      omega
    · show w.sem.active + 1 ≤ w.sem.max
      omega
    · intro id hid
      exact Nat.lt_succ_of_lt (h.old id hid)
    · simp only [calls, List.append_assoc]
      exact List.perm_middle
  · rw [if_neg hfree]
    by_cases hroom : (w.sem.queue.length : Int) < w.sem.maxQueue
    · rw [if_pos hroom]
      refine { h with queue_le := ?_, free := fun hf => absurd hf hfree, order := ?_, old := ?_, all := hall _ ?_ }
      · simp only [List.length_append, List.length_singleton]
        omega
      · simp only [← List.append_assoc]
        rw [List.pairwise_append]
        refine ⟨h.order, List.pairwise_singleton _ _, fun id hid id' hid' => ?_⟩
        rw [List.mem_singleton.1 hid']
        exact h.old id hid
      · intro id hid
        rw [← List.append_assoc, List.mem_append, List.mem_singleton] at hid
        rcases hid with hid | rfl
        · exact Nat.lt_succ_of_lt (h.old id hid)
        · exact Nat.lt_succ_self _
      · have hmid := @List.perm_middle Nat w.arrived (w.running ++ w.woken ++ w.sem.queue) (w.settled.map Prod.fst ++ w.shed)
        simpa only [calls, List.append_assoc, List.cons_append, List.nil_append] using hmid
    · rw [if_neg hroom]
      refine { h with old := ?_, all := hall _ ?_ }
      · intro id hid
        exact Nat.lt_succ_of_lt (h.old id hid)
      · rw [calls, ← List.append_assoc]
        exact List.perm_append_singleton _ _

theorem inv_resume {w : World} (h : w.Inv 0) : w.resume.Inv 0 := by
  unfold resume
  cases hw : w.woken with
  | nil => exact h
  | cons id woken =>
    have hslots := h.slots
    have horder := h.order
    have hold := h.old
    have hall := h.all
    rw [hw] at hslots horder hold
    rw [calls, hw] at hall
    refine { h with slots := ?_, order := ?_, old := ?_, all := ?_ }
    · simp only [List.length_append, List.length_cons, List.length_nil] at hslots ⊢
      omega
    · simpa only [List.append_assoc, List.cons_append, List.nil_append] using horder
    · simpa only [List.append_assoc, List.cons_append, List.nil_append] using hold
    · simpa only [calls, List.append_assoc, List.cons_append, List.nil_append] using hall

/-- To let go of a slot. -/
theorem inv_release {w : World} (h : w.Inv 1) : w.release.Inv 0 := by
  have hslots := h.slots
  unfold release
  cases hq : w.sem.queue with
  | nil =>
    refine { h with slots := ?_, active_le := ?_, free := fun _ => hq }
    · show w.sem.active - 1 = w.running.length + w.woken.length + 0
      omega
    · have := h.active_le
      show w.sem.active - 1 ≤ w.sem.max
      omega
  | cons next queue =>
    -- nobody waits while a slot is free
    have hfull : w.sem.active = w.sem.max := by
      rcases lt_or_eq_of_le h.active_le with hlt | heq
      · have hnil := h.free hlt
        rw [hq] at hnil
        cases hnil
      · exact heq
    have hqueue := h.queue_le
    have horder := h.order
    have hold := h.old
    have hall := h.all
    rw [hq] at hqueue horder hold
    rw [calls, hq] at hall
    refine { h with slots := ?_, queue_le := ?_, free := fun hlt => absurd hfull (ne_of_lt hlt), order := ?_, old := ?_, all := ?_ }
    · simp only [List.length_append, List.length_cons, List.length_nil]
      omega
    · rw [List.length_cons] at hqueue
      show (queue.length : Int) ≤ w.sem.maxQueue
      omega
    · simpa only [List.append_assoc, List.cons_append, List.nil_append] using horder
    · simpa only [List.append_assoc, List.cons_append, List.nil_append] using hold
    · simpa only [calls, List.append_assoc, List.cons_append, List.nil_append] using hall

theorem inv_settle {w : World} (h : w.Inv 0) (id : Nat) (o : Outcome) : (w.settle id o).Inv 0 := by
  unfold settle
  by_cases hid : id ∈ w.running
  · rw [if_pos hid]
    apply inv_release
    refine { h with slots := ?_, all := List.Perm.trans ?_ h.all }
    · have hlen := List.length_erase_add_one hid
      have hslots := h.slots
      show w.sem.active = ((w.running.erase id).length : Int) + w.woken.length + 1
      omega
    · have hrun : w.running.Perm (id :: w.running.erase id) := List.perm_cons_erase hid
      have hmid := @List.perm_middle Nat id (w.running.erase id ++ w.woken ++ w.sem.queue ++ w.settled.map Prod.fst) w.shed
      have hback := (hrun.append_right (w.woken ++ (w.sem.queue ++ (w.settled.map Prod.fst ++ w.shed)))).symm
      simp only [calls, List.map_append, List.map_cons, List.map_nil, List.append_assoc, List.cons_append,
        List.nil_append] at hmid hback ⊢
      exact hmid.trans hback
  · rw [if_neg hid]
    exact h

theorem inv_step {w : World} (h : w.Inv 0) (s : Step) : (w.step s).Inv 0 := by
  cases s with
  | arrive => exact inv_arrive h
  | resume => exact inv_resume h
  | settle id o => exact inv_settle h id o

theorem inv_run {w : World} (h : w.Inv 0) (steps : List Step) : (w.run steps).Inv 0 := by
  induction steps generalizing w with
  | nil => exact h
  | cons s steps ih => exact ih (inv_step h s)

/-! ## What holds after every interleaving -/

theorem bounds_release (w : World) : w.release.sem.max = w.sem.max ∧ w.release.sem.maxQueue = w.sem.maxQueue := by
  unfold release
  split
  · exact ⟨rfl, rfl⟩
  · exact ⟨rfl, rfl⟩

/-- No step moves the bounds. -/
theorem bounds_step (w : World) (s : Step) : (w.step s).sem.max = w.sem.max ∧ (w.step s).sem.maxQueue = w.sem.maxQueue := by
  cases s with
  | arrive =>
    rw [step, arrive]
    dsimp only
    split
    · exact ⟨rfl, rfl⟩
    · split
      · exact ⟨rfl, rfl⟩
      · exact ⟨rfl, rfl⟩
  | resume =>
    rw [step, resume]
    split
    · exact ⟨rfl, rfl⟩
    · exact ⟨rfl, rfl⟩
  | settle id o =>
    rw [step, settle]
    split
    · exact bounds_release _
    · exact ⟨rfl, rfl⟩

theorem bounds_run (w : World) (steps : List Step) :
    (w.run steps).sem.max = w.sem.max ∧ (w.run steps).sem.maxQueue = w.sem.maxQueue := by
  induction steps generalizing w with
  | nil => exact ⟨rfl, rfl⟩
  | cons s steps ih =>
    obtain ⟨h1, h2⟩ := ih (w.step s)
    obtain ⟨h3, h4⟩ := bounds_step w s
    exact ⟨h1.trans h3, h2.trans h4⟩

/-- The next call is shed exactly where every slot is taken and the queue is full. -/
theorem shed_iff {w : World} (h : w.Inv 0) :
    w.arrive.shed = w.shed ++ [w.arrived] ↔ w.sem.active = w.sem.max ∧ w.sem.queue.length = w.sem.maxQueue := by
  have hne : w.shed ≠ w.shed ++ [w.arrived] := by simp
  have hactive := h.active_le
  have hqueue := h.queue_le
  unfold arrive
  dsimp only
  by_cases hfree : w.sem.active < w.sem.max
  · rw [if_pos hfree]
    exact ⟨fun he => absurd he hne, fun he => absurd he.1 (ne_of_lt hfree)⟩
  · rw [if_neg hfree]
    by_cases hroom : (w.sem.queue.length : Int) < w.sem.maxQueue
    · rw [if_pos hroom]
      exact ⟨fun he => absurd he hne, fun he => absurd he.2 (ne_of_lt hroom)⟩
    · rw [if_neg hroom]
      exact ⟨fun _ => ⟨by omega, by omega⟩, fun _ => rfl⟩

end World

/-- Any calls of a gate, in any interleaving, whether their functions return or throw. -/
theorem gate_holds (max maxQueue : Int) (steps : List World.Step) :
    let w := (World.new max maxQueue).run steps
    w.sem.max = Max.max 1 max ∧ w.sem.maxQueue = Max.max 0 maxQueue ∧
    w.running.length ≤ w.sem.max ∧ w.sem.queue.length ≤ w.sem.maxQueue ∧
    w.sem.active = w.running.length + w.woken.length ∧ (w.sem.active < w.sem.max → w.sem.queue = []) ∧
    (w.started ++ w.woken ++ w.sem.queue).Pairwise (· < ·) ∧
    (w.arrive.shed = w.shed ++ [w.arrived] ↔ w.sem.active = w.sem.max ∧ w.sem.queue.length = w.sem.maxQueue) ∧
    w.calls.Perm (List.range w.arrived) ∧ (w.running = [] → w.woken = [] → w.sem.active = 0 ∧ w.sem.queue = []) ∧
    (w.settled.length + w.shed.length = w.arrived → w.sem.active = 0) := by
  intro w
  have h : w.Inv 0 := World.inv_run (World.inv_new max maxQueue) steps
  obtain ⟨hmax, hmaxQueue⟩ := World.bounds_run (World.new max maxQueue) steps
  have hslots := h.slots
  have hactive := h.active_le
  have hpos := h.max_pos
  refine ⟨hmax, hmaxQueue, by omega, h.queue_le, by omega, h.free, h.order, World.shed_iff h, h.all, ?_, ?_⟩
  · intro hrunning hwoken
    rw [hrunning, hwoken, List.length_nil] at hslots
    exact ⟨hslots, h.free (by omega)⟩
  · intro hsettled
    have hlen := h.all.length_eq
    simp only [World.calls, List.length_append, List.length_map, List.length_range] at hlen
    omega

/-- Two calls through one slot: the second is handed the slot of the first, which threw. -/
example : (((World.new 1 1).run [.arrive, .arrive, .settle 0 .throws, .resume]).running,
    ((World.new 1 1).run [.arrive, .arrive, .settle 0 .throws, .resume]).sem.active) = ([1], 1) := by decide

end Semaphore
