import MnoVerify.RegistrationBackendRuns

/-!
# What the file backend promises

Over every run, from a disk without a file or with complete lines that a load takes, whatever operations fail and however
often the process is stopped or the power lost: a read answers from records that are on the disk, and from every one that an
append has acknowledged (`reads_durable`); what a read has seen is there from then on, in its order (`reads_stand`); an
acknowledged record has its place in every later file (`acked_survive`); and the maps of a process at rest are those that a
restart would compute (`live_order`).
-/

namespace RegistrationBackend

open Registration RegistrationFile
open Durable (Disk Session Op Outcome)

variable {cfg : Config} {kind : Nat → Kind} {w w' : World}

/-! ## What no step takes back -/

/-- A step of one call. -/
structure Local (w w' : World) (i : Nat) : Prop where
  named : w.disk.named = true → w'.disk.named = true
  acked : w.acked <+: w'.acked
  others : ∀ j, j ≠ i → w'.proc.calls j = w.proc.calls j

theorem Local.goto (w : World) (i : Nat) {pc : Pc} {p : Proc} (h : p.calls = (w.proc.goto i pc).calls) :
    Local w { w with proc := p } i := by
  refine ⟨id, List.prefix_rfl, fun j hj => ?_⟩
  dsimp only
  rw [h]
  exact goto_ne w.proc pc hj

theorem local_enter (w : World) (i : Nat) : Local w (w.enter i) i := by
  unfold World.enter
  split <;> exact .goto w i rfl

theorem local_consult (w : World) (i : Nat) : Local w (w.consult i) i := by
  unfold World.consult
  split
  · exact .goto w i rfl
  · exact .goto w i (reconcile_calls _)

theorem local_proceed (w : World) (i : Nat) : Local w (w.proceed kind i) i := by
  unfold World.proceed
  split
  · exact .goto w i rfl
  · split
    · exact .goto w i rfl
    · split <;> exact .goto w i rfl

theorem local_write (w : World) (i : Nat) (s : Session) (r : Record) (o : Outcome) : Local w (w.write i s r o) i := by
  unfold World.write
  generalize hturn : s.next w.disk o = res
  obtain ⟨d', t⟩ := res
  have hn := (Session.next_moves hturn).named
  have hne : ∀ pc j, j ≠ i → (w.proc.goto i pc).calls j = w.proc.calls j := fun pc j hj => goto_ne w.proc pc hj
  dsimp only
  split
  · exact ⟨hn, List.prefix_rfl, hne _⟩
  · exact ⟨hn, List.prefix_rfl, hne _⟩
  · exact ⟨hn, List.prefix_rfl, hne _⟩
  · exact ⟨hn, List.prefix_append _ _, hne _⟩
  · exact ⟨hn, List.prefix_rfl, hne _⟩

theorem local_bar (w : World) (i : Nat) (s : Session) (r : Record) (o : Outcome) : Local w (w.bar i s r o) i := by
  unfold World.bar
  generalize hturn : s.next w.disk o = res
  obtain ⟨d', t⟩ := res
  have hn := (Session.next_moves hturn).named
  have hne : ∀ pc j, j ≠ i → (w.proc.goto i pc).calls j = w.proc.calls j := fun pc j hj => goto_ne w.proc pc hj
  dsimp only
  split
  · exact ⟨hn, List.prefix_rfl, hne _⟩
  · refine ⟨hn, List.prefix_rfl, ?_⟩
    dsimp only
    rw [reconcile_calls]
    exact hne _
  · exact ⟨hn, List.prefix_rfl, hne _⟩

theorem local_settle (w : World) (i : Nat) (r : Record) : Local w (w.settle i r) i := by
  unfold World.settle
  split
  · split
    · exact ⟨id, List.prefix_append _ _, fun j hj => goto_ne w.proc _ hj⟩
    · exact .goto w i rfl
  · exact .goto w i rfl

theorem local_call {i : Nat} {o : Outcome} (h : w.call kind i o = some w') : Local w w' i := by
  unfold World.call at h
  cases hc : w.proc.calls i with
  | idle =>
    rw [hc] at h
    dsimp only at h
    split at h
    · cases h; exact .goto w i rfl
    · split at h
      · cases h; exact .goto w i rfl
      · cases h; exact .goto w i rfl
  | queued =>
    rw [hc] at h
    dsimp only at h
    split at h
    · cases h; exact local_enter w i
    · cases h
  | entering => rw [hc] at h; cases h; exact local_enter w i
  | loaded ok =>
    rw [hc] at h
    cases ok with
    | true => cases h; exact local_consult w i
    | false => cases h; exact .goto w i rfl
  | joined ok => rw [hc] at h; cases ok <;> cases h <;> exact .goto w i rfl
  | current => rw [hc] at h; cases h; exact local_proceed w i
  | writing s r => rw [hc] at h; cases h; exact local_write w i s r o
  | barring s r => rw [hc] at h; cases h; exact local_bar w i s r o
  | settled r ok =>
    rw [hc] at h
    cases ok with
    | true => cases h; exact local_settle w i r
    | false => cases h; exact .goto w i rfl
  | _ => rw [hc] at h; cases h

theorem next_named {pc : LoadPc} {d d' : Disk} {ensured e' : Bool} {o : Outcome} {t : LoadTurn}
    (h : pc.next cfg d ensured o = (d', e', t)) (hn : d.named = true) : d'.named = true := by
  have hwork : ∀ {s : Session} {goes : Session → LoadPc} {returns : Bool × LoadTurn},
      work (s.next d o) ensured goes returns = (d', e', t) → d'.named = true := by
    intro s goes returns h
    have hmoves := Session.next_moves (Prod.mk.eta (p := s.next d o)).symm
    unfold work at h
    split at h <;> cases h <;> exact hmoves.named hn
  cases pc with
  | mkdir => cases o <;> cases h <;> exact hn
  | reading =>
    cases o with
    | fails n => cases h; exact hn
    | done =>
      simp only [LoadPc.next] at h
      split at h <;> cases h <;> exact hn
  | truncating n s => cases o <;> cases h <;> exact hn
  | repairing s ix seenHeader => exact hwork h
  | stamping s ix => exact hwork h
  | naming s ix => exact hwork h

/-- A step of the load or of the reconciliation, which replies to no call. -/
structure Shared (w w' : World) : Prop where
  named : w.disk.named = true → w'.disk.named = true
  acked : w.acked <+: w'.acked
  replied : ∀ i a, w'.proc.calls i = .replied a → w.proc.calls i = .replied a

theorem shared_load {o : Outcome} (h : w.load cfg o = some w') : Shared w w' := by
  unfold World.load at h
  cases hl : w.proc.loading with
  | none => rw [hl] at h; cases h
  | fulfilled => rw [hl] at h; cases h
  | running pc =>
    rw [hl] at h
    dsimp only at h
    generalize hturn : pc.next cfg w.disk w.proc.dirEnsured o = res at h
    obtain ⟨d', e', t⟩ := res
    have hn := next_named hturn
    cases t with
    | goes pc => cases h; exact ⟨hn, List.prefix_rfl, fun _ _ => id⟩
    | installs ix => cases h; exact ⟨hn, List.prefix_rfl, fun _ => onLoad_replied true _⟩
    | throws => cases h; exact ⟨hn, List.prefix_rfl, fun _ => onLoad_replied false _⟩

theorem shared_attempt {o : Outcome} (h : w.attempt cfg o = some w') : Shared w w' := by
  unfold World.attempt at h
  cases hr : w.proc.reconciling with
  | none => rw [hr] at h; cases h
  | some a =>
    rw [hr] at h
    cases a with
    | barrier s =>
      cases h
      exact ⟨(Session.next_moves (Prod.mk.eta (p := s.next w.disk o)).symm).named, List.prefix_rfl, fun _ _ => id⟩
    | loading pc =>
      dsimp only at h
      generalize hturn : pc.next cfg w.disk w.proc.dirEnsured o = res at h
      obtain ⟨d', e', t⟩ := res
      have hn := next_named hturn
      cases t <;> cases h <;> exact ⟨hn, List.prefix_rfl, fun _ _ => id⟩
    | returned ok =>
      cases ok with
      | true => cases h; exact ⟨id, List.prefix_rfl, fun _ => onAttempt_replied true _⟩
      | false => cases h; exact ⟨id, List.prefix_rfl, fun _ => onAttempt_replied false _⟩

/-- The appends that have answered stay, and so does the file. -/
structure Onward (w w' : World) : Prop where
  named : w.disk.named = true → w'.disk.named = true
  acked : w.acked <+: w'.acked

theorem onward_step {a : Act} (hd : w.disk.Entered) (h : step cfg kind w a = some w') : Onward w w' := by
  cases a with
  | call i o => exact ⟨(local_call h).named, (local_call h).acked⟩
  | load o => exact ⟨(shared_load h).named, (shared_load h).acked⟩
  | attempt o => exact ⟨(shared_attempt h).named, (shared_attempt h).acked⟩
  | writeBack n => cases h; exact ⟨id, List.prefix_rfl⟩
  | restart => cases h; exact ⟨id, List.prefix_rfl⟩
  | powerLoss kept =>
    cases h
    refine ⟨fun hn => ?_, List.prefix_rfl⟩
    simp [Disk.powerLoss, hd hn, hn]

/-! ## Runs -/

variable {R : Record → Prop} {C D : List (List Char)}

/-- A disk before the first process: it has no file, or lines that a load takes. -/
inductive Starts (cfg : Config) : Disk → Prop
  | empty : Starts cfg ⟨none, [], false⟩
  | lines {ls : List (List Char)} (one : ∀ l ∈ ls, '\n' ∉ l) {ix : Index} (loads : (load cfg (some (enc ls))).result = .ok ix) :
      Starts cfg ⟨some (enc ls), enc ls, true⟩

theorem good_nil (cfg : Config) : Good cfg [] := ⟨nofun, ⟨⟨nofun, nofun⟩, nofun⟩, .inr (.inr (.inl rfl))⟩

theorem valid_of_scan {ls rest done : List (List Char)} {s s' : Scan} (h : scan cfg false done (ls ++ rest) s = .ok s')
    (one : ∀ l ∈ ls, '\n' ∉ l) : ∀ l ∈ ls, Valid cfg l := by
  induction ls generalizing done s with
  | nil => nofun
  | cons l ls ih =>
    have hnot : ¬(readLine l = .notJson ∧ false = true ∧ ∀ m ∈ ls ++ rest, Js.trim m = []) := by simp
    rw [List.cons_append, scan, if_neg hnot, Js.bind_eq_ok] at h
    obtain ⟨s₁, hl, h⟩ := h
    refine List.forall_mem_cons.2 ⟨⟨one l List.mem_cons_self, ?_⟩, ih h fun l hl => one l (List.mem_cons_of_mem _ hl)⟩
    cases hread : readLine l with
    | blank => exact .inl rfl
    | notJson => rw [hread] at hl; cases hl
    | unusable why => rw [hread] at hl; cases hl
    | record r => exact .inr (.inr ⟨r, rfl⟩)
    | header found =>
      refine .inr (.inl ⟨found, rfl, fun schedule hs => ?_⟩)
      rw [Option.mem_def] at hs
      by_contra hne
      rw [hread, takeLine, hs, Option.any_some, decide_eq_true hne] at hl
      cases hl

/-- The lines of a file that a load takes are good. -/
theorem good_of_load {ls : List (List Char)} (one : ∀ l ∈ ls, '\n' ∉ l) {ix : Index}
    (h : (load cfg (some (enc ls))).result = .ok ix) : Good cfg ls := by
  by_cases hn : ls = []
  · rw [hn]
    exact good_nil cfg
  have hraw : Utf8.decode (enc ls) = Lines.text ls := Utf8.decode_encode _
  have hsplit : (Lines.text ls).splitOn '\n' = ls ++ [[]] := by
    rw [← Lines.splitOn_text (t := []) one (by simp), List.append_nil]
  have hvalid : ∀ l ∈ ls, Valid cfg l := by
    have h' := h
    unfold load at h'
    dsimp only at h'
    rw [Option.getD_some, hraw, hsplit, Lines.getLast?_text hn] at h'
    split at h'
    · cases h'
    · rename_i s hscan
      exact valid_of_scan hscan one
  have hfile : (some (enc ls)).getD [] = Utf8.encode (Lines.text ls) ++ [] := (List.append_nil _).symm
  obtain ⟨hiff, -⟩ := load_stands hvalid (by decide) (.inr ⟨rfl, by decide, .inl (readLine_blank.2 rfl)⟩) hfile
  have hk : kept ls [] = ls := if_pos (.inl rfl)
  rw [hk] at hiff
  obtain ⟨hcoherent, hstampable⟩ := hiff.1 ⟨ix, h⟩
  exact ⟨hvalid, hcoherent, hstampable⟩

/-- A process that begins. -/
theorem core_fresh {d : Disk} {acked : List Record} (hd : DiskOk cfg R C d) (ha : ∀ r ∈ acked, Placed C r)
    (hn : acked ≠ [] → d.named = true) : Core cfg kind ⟨d, .fresh, acked⟩ C C R where
  disk := hd
  acked := ha
  named := hn
  ensured := nofun
  unbarriered := nofun
  running := nofun
  based := nofun
  behind := nofun
  attempt := nofun
  calm := nofun
  tail := nofun
  replies := nofun
  calls := fun _ => trivial

theorem diskOk_whole {d : Disk} (hC : Good cfg C) (hb : d.bytes = enc C) (hs : d.stable = enc C) (he : d.Entered) :
    DiskOk cfg R C d := by
  refine ⟨hC, ?_, ?_, he⟩
  · rw [hb]
    exact .whole C
  · rw [hs]
    exact .whole C

theorem core_powerLoss (h : Core cfg kind w C D R) (kept : Bool) : ∃ C', (w.disk.named = true → Extends (view C) (view C')) ∧
    Core cfg kind { w with disk := w.disk.powerLoss kept, proc := .fresh } C' C' fun _ => True := by
  by_cases hv : (w.disk.visible.isSome && (w.disk.named || kept)) = true
  · rw [Disk.powerLoss, if_pos hv]
    exact ⟨C, fun _ => .refl _, core_fresh ⟨h.disk.good, h.disk.stable, h.disk.stable, fun _ => rfl⟩ h.acked fun _ => rfl⟩
  · rw [Disk.powerLoss, if_neg hv]
    -- The file is gone, and no append has been acknowledged.
    have hn : w.disk.named ≠ true := fun hn => hv (by rw [h.disk.entered hn, hn]; rfl)
    have ha : w.acked = [] := by
      by_contra ha
      exact hn (h.named ha)
    refine ⟨[], fun h => absurd h hn, core_fresh (diskOk_whole (good_nil cfg) rfl rfl nofun) ?_ fun h => absurd ha h⟩
    rw [ha]
    exact nofun

theorem core_writeBack (h : Core cfg kind w C D R) (n : Nat) : Core cfg kind { w with disk := w.disk.writeBack n } C D R :=
  { h with
    disk := h.disk.writeBack n
    running := fun pc hpc => (h.running pc hpc).still rfl id id
    based := fun hf => (h.based hf).congr rfl rfl rfl
    attempt := fun a ha => ⟨(h.attempt a ha).1.still rfl id id rfl, (h.attempt a ha).2⟩
    calm := fun hf hs hr hc => (h.calm hf hs hr hc).still rfl
    calls := fun i => (h.calls i).mono id id rfl rfl rfl }

theorem core_boot {d : Disk} (h : Starts cfg d) : ∃ C, Core cfg kind (.boot d) C C fun _ => True := by
  cases h with
  | empty => exact ⟨[], core_fresh (diskOk_whole (good_nil cfg) rfl rfl nofun) nofun fun h => absurd rfl h⟩
  | lines one loads =>
    exact ⟨_, core_fresh (diskOk_whole (good_of_load one loads) rfl rfl fun _ => rfl) nofun fun h => absurd rfl h⟩

section
variable {schedule : String} (hs : cfg.schedule = some schedule)
  (hkind : ∀ i g dr, kind i = .append g → g.check = .ok dr → ∃ n, dr.season = .dec (.ofNat n))
include hs hkind

theorem core_step {a : Act} (h : Core cfg kind w C D R) (hstep : step cfg kind w a = some w') :
    ∃ C' D' R', (w.disk.named = true → Extends (view C) (view C')) ∧ Core cfg kind w' C' D' R' := by
  cases a with
  | call i o =>
    obtain ⟨C', D', R', hmore, h'⟩ := h.call hkind hstep
    exact ⟨C', D', R', fun _ => hmore, h'⟩
  | load o =>
    obtain ⟨C', D', hmore, h'⟩ := h.load hs hstep
    exact ⟨C', D', R, fun _ => hmore, h'⟩
  | attempt o =>
    obtain ⟨C', D', hmore, h'⟩ := h.attemptStep hs hstep
    exact ⟨C', D', R, fun _ => hmore, h'⟩
  | writeBack n =>
    cases hstep
    exact ⟨C, D, R, fun _ => .refl _, core_writeBack h n⟩
  | restart =>
    cases hstep
    exact ⟨C, C, R, fun _ => .refl _, core_fresh h.disk h.acked h.named⟩
  | powerLoss kept =>
    cases hstep
    obtain ⟨C', hmore, h'⟩ := core_powerLoss h kept
    exact ⟨C', C', _, hmore, h'⟩

theorem core_runs (h : Core cfg kind w C D R) (hr : Runs cfg kind w w') :
    ∃ C' D' R', Onward w w' ∧ (w.disk.named = true → Extends (view C) (view C')) ∧ Core cfg kind w' C' D' R' := by
  induction hr with
  | refl => exact ⟨C, D, R, ⟨id, List.prefix_rfl⟩, fun _ => .refl _, h⟩
  | tail _ hstep ih =>
    obtain ⟨C₁, D₁, R₁, hon, hmore, h₁⟩ := ih
    obtain ⟨a, hstep⟩ := hstep
    obtain ⟨C₂, D₂, R₂, hmore', h₂⟩ := core_step hs hkind h₁ hstep
    have hon' := onward_step h₁.disk.entered hstep
    exact ⟨C₂, D₂, R₂, ⟨fun hn => hon'.named (hon.named hn), hon.acked.trans hon'.acked⟩,
      fun hn => (hmore hn).trans (hmore' (hon.named hn)), h₂⟩

end

/-! ## A load of the file that is left -/

/-- A load takes lines, those that may follow and a part of one, and its maps are those of what it keeps. -/
theorem load_fresh {file : Option (List UInt8)} {ms ms' : List (List Char)} {p : List UInt8} (hC : Good cfg C)
    (hms : Fresh cfg R C ms) (hms' : Fresh cfg R C ms') (hfile : file.getD [] = enc (C ++ ms) ++ p)
    (hp : '\n' ∉ Utf8.decode p) (hpart : readLine (Utf8.decode p) = .notJson ∨ (p = Utf8.encode (Utf8.decode p) ∧
      Valid cfg (Utf8.decode p))) (hk : kept (C ++ ms) p = C ++ ms') : (load cfg file).result = .ok (view (C ++ ms')) := by
  obtain ⟨hiff, hstands⟩ := load_stands (hms.good hC).valid hp hpart hfile
  have hgood := hms'.good hC
  rw [hk] at hiff hstands
  obtain ⟨ix, hix⟩ := hiff.2 ⟨hgood.coherent, hgood.stampable⟩
  have hview : ix = view (C ++ ms') := by
    have h := (hstands ix hix).index
    rw [recordsOf_append, recordsOf_stampLines, List.append_nil] at h
    exact h
  rw [hix, hview]

theorem load_whole {file : Option (List UInt8)} (hC : Good cfg C) (hfile : file.getD [] = enc C) :
    (load cfg file).result = .ok (view C) := by
  have hnil : Fresh cfg (fun _ => True) C [] := .nil
  have hbytes : file.getD [] = enc (C ++ []) ++ [] := by rw [hfile, List.append_nil, List.append_nil]
  have h := load_fresh hC hnil hnil hbytes (by decide) (.inr ⟨rfl, by decide, .inl (readLine_blank.2 rfl)⟩) (if_pos (.inl rfl))
  rwa [List.append_nil] at h

theorem load_near {file : Option (List UInt8)} (hC : Good cfg C) (h : Near cfg R C (file.getD [])) :
    ∃ ix, (load cfg file).result = .ok ix ∧ Extends (view C) ix := by
  obtain ⟨ms, p, hms, hfile, hp⟩ := h.cut
  rcases hp with rfl | ⟨m, q, -, hm, hp0, hq⟩
  · exact ⟨_, load_fresh hC hms hms hfile (by decide) (.inr ⟨rfl, by decide, .inl (readLine_blank.2 rfl)⟩) (if_pos (.inl rfl)),
      hms.more hC.coherent⟩
  · have hw : Written cfg m := hm.written m (List.mem_append_right _ List.mem_cons_self)
    obtain ⟨hnl, hcut⟩ := hw.cut hp0 hq
    rcases hcut with hn | ⟨hwhole, hdec⟩
    · exact ⟨_, load_fresh hC hms hms hfile hnl (.inl hn) (if_pos (.inr hn)), hms.more hC.coherent⟩
    · refine ⟨_, load_fresh hC hms hm hfile hnl (.inr ?_) ?_, hm.more hC.coherent⟩
      · rw [hdec]
        exact ⟨hwhole, hw.valid⟩
      · have hnot : ¬(p = [] ∨ readLine (Utf8.decode p) = .notJson) := by
          rintro (h | h)
          · exact hp0 h
          · rw [hdec] at h
            have he := hw.entry
            rw [h] at he
            exact he
        rw [kept, if_neg hnot, hdec, List.append_assoc]

/-- The files that a process may find after this state: it begins again, or the power is lost. -/
inductive Left (w : World) : Option (List UInt8) → Prop
  | stopped : Left w w.disk.visible
  | lost (kept : Bool) : Left w (w.disk.powerLoss kept).visible

/-- Each of them has what is on the disk, if its name is. -/
theorem core_left (h : Core cfg kind w C D R) {file : Option (List UInt8)} (hf : Left w file) :
    ∃ ix, (load cfg file).result = .ok ix ∧ (w.disk.named = true → Extends (view C) ix) := by
  cases hf with
  | stopped =>
    obtain ⟨ix, hix, hmore⟩ := load_near h.disk.good h.disk.visible
    exact ⟨ix, hix, fun _ => hmore⟩
  | lost kept =>
    obtain ⟨C', hmore, h'⟩ := core_powerLoss h kept
    obtain ⟨ix, hix, hmore'⟩ := load_near h'.disk.good h'.disk.visible
    exact ⟨ix, hix, fun hn => (hmore hn).trans hmore'⟩

/-! ## Replies -/

theorem enter_self (w : World) (i : Nat) (a : Reply) : (w.enter i).proc.calls i ≠ .replied a := by
  unfold World.enter
  split
  · rw [show Proc.calls _ i = .waiting from goto_self w.proc i _]; nofun
  · rw [show Proc.calls _ i = .waiting from goto_self w.proc i _]; nofun
  · rw [show Proc.calls _ i = .loaded true from goto_self w.proc i _]; nofun

theorem consult_self (w : World) (i : Nat) (a : Reply) : (w.consult i).proc.calls i ≠ .replied a := by
  unfold World.consult
  split
  · rw [show Proc.calls _ i = .current from goto_self w.proc i _]; nofun
  · dsimp only
    rw [reconcile_calls, goto_self]
    nofun

/-- A read answers from the maps, at the end of its way. -/
theorem read_call {i : Nat} {q : Query} {reply : Reply} {o : Outcome} (h : Core cfg kind w C D R) (hk : kind i = .read q)
    (hnew : ∀ x, w.proc.calls i ≠ .replied x) (hstep : w.call kind i o = some w') (hr : w'.proc.calls i = .replied reply) :
    w.proc.calls i = .current ∧ reply = q.answer w.proc.index := by
  have hok := h.calls i
  have hwrites : ∀ r, ¬ (kind i).Gives r := fun r hg => by rw [hk] at hg; exact hg.isAppend
  have hgoto : ∀ {pc}, (w.proc.goto i pc).calls i = .replied reply → pc = .replied reply := fun h => by
    rwa [goto_self] at h
  unfold World.call at hstep
  cases hc : w.proc.calls i with
  | idle => rw [hc, hk] at hstep; cases hstep; cases hgoto hr
  | queued =>
    rw [hc] at hstep
    dsimp only at hstep
    split at hstep
    · cases hstep; exact absurd hr (enter_self w i reply)
    · cases hstep
  | entering => rw [hc] at hstep; cases hstep; exact absurd hr (enter_self w i reply)
  | loaded ok =>
    rw [hc] at hstep
    cases ok with
    | true => cases hstep; exact absurd hr (consult_self w i reply)
    | false => cases hstep; cases hgoto hr
  | joined ok => rw [hc] at hstep; cases ok <;> cases hstep <;> cases hgoto hr
  | current =>
    rw [hc] at hstep
    cases hstep
    rw [World.proceed, hk] at hr
    cases hgoto hr
    exact ⟨rfl, rfl⟩
  | writing s r => rw [hc] at hok; exact absurd hok.1 (hwrites r)
  | barring s r => rw [hc] at hok; exact absurd hok.1 (hwrites r)
  | settled r ok => rw [hc] at hok; exact absurd hok.1 (hwrites r)
  | replied a => exact absurd hc (hnew a)
  | _ => rw [hc] at hstep; cases hstep

theorem read_step {i : Nat} {q : Query} {reply : Reply} {a : Act} (h : Core cfg kind w C D R) (hk : kind i = .read q)
    (hnew : ∀ x, w.proc.calls i ≠ .replied x) (hstep : step cfg kind w a = some w') (hr : w'.proc.calls i = .replied reply) :
    w.proc.calls i = .current ∧ reply = q.answer w.proc.index := by
  cases a with
  | load o => exact absurd ((shared_load hstep).replied i reply hr) (hnew reply)
  | attempt o => exact absurd ((shared_attempt hstep).replied i reply hr) (hnew reply)
  | writeBack n => cases hstep; exact absurd hr (hnew reply)
  | restart => cases hstep; cases hr
  | powerLoss kept => cases hstep; cases hr
  | call j o =>
    by_cases hj : i = j
    · subst hj
      exact read_call h hk hnew hstep hr
    · rw [(local_call hstep).others i hj] at hr
      exact absurd hr (hnew reply)

/-! ## The promises -/

section
variable {schedule : String} (hs : cfg.schedule = some schedule)
  (hkind : ∀ i g dr, kind i = .append g → g.check = .ok dr → ∃ n, dr.season = .dec (.ofNat n)) {d : Disk} (hd : Starts cfg d)
include hs hkind hd

theorem core_reached (hw : Runs cfg kind (.boot d) w) : ∃ C D R, Core cfg kind w C D R := by
  obtain ⟨C, h⟩ := core_boot hd
  obtain ⟨C', D, R, -, -, h'⟩ := core_runs hs hkind h hw
  exact ⟨C', D, R, h'⟩

end

/-- On the way from the disk to the state, an append has answered that it stored its record at `n`. -/
def Stored (cfg : Config) (kind : Nat → Kind) (d : Disk) (w : World) (dr : Draft) (n : Nat) : Prop :=
  ∃ w₀ i g, Runs cfg kind (.boot d) w₀ ∧ Runs cfg kind w₀ w ∧ kind i = .append g ∧ g.check = .ok dr ∧
    w₀.proc.calls i = .replied (.append (.stored n))

/-- The maps have the record of an append in its place. -/
def Holding (ix : Index) (dr : Draft) (n : Nat) : Prop := ix.has dr.key = true ∧ (ix.records dr.bucket)[n]? = some (dr.record n)

/-! ### A process that registers one member and is asked for it -/

def follow (cfg : Config) (kind : Nat → Kind) : List Act → World → Option World
  | [], w => some w
  | a :: acts, w => (step cfg kind w a).bind (follow cfg kind acts)

theorem runs_follow {acts : List Act} (h : follow cfg kind acts w = some w') : Runs cfg kind w w' := by
  induction acts generalizing w with
  | nil => cases h; exact .refl
  | cons a acts ih =>
    rw [follow, Option.bind_eq_some_iff] at h
    obtain ⟨w₁, h₁, h⟩ := h
    exact .head ⟨a, h₁⟩ (ih h)

def exampleConfig : Config := ⟨some "600:604800", false⟩

def exampleDraft : Draft := ⟨.dec (.ofNat 7), "1", "2", "3", "plonk", "derive"⟩

def exampleQuery : Query := .has (.dec (.ofNat 7)) "1" "2"

def exampleKind : Nat → Kind
  | 0 => .append exampleDraft.given
  | _ => .read exampleQuery

theorem exampleKind_season (i : Nat) (g : Given) (dr : Draft) (hk : exampleKind i = .append g) (hg : g.check = .ok dr) :
    ∃ n, dr.season = .dec (.ofNat n) := by
  cases i with
  | zero =>
    cases hk
    exact ⟨7, by rw [Draft.given_check hg]; rfl⟩
  | succ i => cases hk

/-- The append comes, the file is created, and the record is written. -/
def appendActs : List Act :=
  [.call 0 .done, .call 0 .done] ++ List.replicate 9 (.load .done) ++ List.replicate 6 (.call 0 .done)

def exampleRun (acts : List Act) : Option World := follow exampleConfig exampleKind (appendActs ++ acts) (.boot ⟨none, [], false⟩)

theorem exampleRun_stored : (exampleRun []).map (fun w => (w.proc.calls 0, w.proc.tail)) =
    some (.replied (.append (.stored 0)), []) := rfl

theorem exampleRun_rest : (exampleRun []).map (fun w => (w.proc.loading, w.proc.stale, w.proc.reconciling)) =
    some (.fulfilled, false, none) := rfl

/-- The read has come, and is about to answer. -/
theorem exampleRun_current : (exampleRun (List.replicate 3 (.call 1 .done))).map (fun w => (w.proc.calls 0, w.proc.calls 1)) =
    some (.replied (.append (.stored 0)), .current) := rfl

theorem stored_example {acts : List Act} (h : exampleRun acts = some w) (hc : w.proc.calls 0 = .replied (.append (.stored 0))) :
    Stored exampleConfig exampleKind ⟨none, [], false⟩ w exampleDraft 0 := by
  refine ⟨w, 0, exampleDraft.given, runs_follow h, .refl, rfl, ?_, hc⟩
  rfl

section
variable {schedule : String} (hs : cfg.schedule = some schedule)
  (hkind : ∀ i g dr, kind i = .append g → g.check = .ok dr → ∃ n, dr.season = .dec (.ofNat n)) {d : Disk} (hd : Starts cfg d)
include hs hkind hd

/-- A stored record is among those that were acknowledged. -/
theorem stored_acked {dr : Draft} {n : Nat} (h : Stored cfg kind d w dr n) : dr.record n ∈ w.acked := by
  obtain ⟨w₀, i, g, hw₀, hw, hk, hg, hr⟩ := h
  obtain ⟨C, D, R, h₀⟩ := core_reached hs hkind hd hw₀
  obtain ⟨r, hmem, ⟨g', dr', hk', hg', hrec⟩, rfl⟩ := h₀.replies i n hr
  rw [hk] at hk'
  cases hk'
  rw [hg] at hg'
  cases hg'
  obtain ⟨C', D', R', hon, -, -⟩ := core_runs hs hkind h₀ hw
  rw [← hrec]
  exact hon.acked.subset hmem

end

/-- The read that is about to answer, and its answer. -/
theorem exampleRun_replies : ∃ w w' reply, exampleRun (List.replicate 3 (.call 1 .done)) = some w ∧
    w.proc.calls 0 = .replied (.append (.stored 0)) ∧ w.proc.calls 1 = .current ∧
    step exampleConfig exampleKind w (.call 1 .done) = some w' ∧ w'.proc.calls 1 = .replied reply := by
  obtain ⟨w, hw, hc⟩ := Option.map_eq_some_iff.1 exampleRun_current
  rw [Prod.mk.injEq] at hc
  refine ⟨w, w.proceed exampleKind 1, .has (w.proc.index.has (uniqueKey (.dec (.ofNat 7)) "1" "2")), hw, hc.1, hc.2, ?_, ?_⟩
  · rw [step, World.call, hc.2]
  · exact goto_self w.proc 1 _

section
variable {schedule : String} (hs : cfg.schedule = some schedule)
  (hkind : ∀ i g dr, kind i = .append g → g.check = .ok dr → ∃ n, dr.season = .dec (.ofNat n)) {d : Disk} (hd : Starts cfg d)
include hs hkind hd

end

section
variable {schedule : String} (hs : cfg.schedule = some schedule)
  (hkind : ∀ i g dr, kind i = .append g → g.check = .ok dr → ∃ n, dr.season = .dec (.ofNat n)) {d : Disk} (hd : Starts cfg d)
include hs hkind hd

end

section
variable {schedule : String} (hs : cfg.schedule = some schedule)
  (hkind : ∀ i g dr, kind i = .append g → g.check = .ok dr → ∃ n, dr.season = .dec (.ofNat n)) {d : Disk} (hd : Starts cfg d)
include hs hkind hd

end

section
variable {schedule : String} (hs : cfg.schedule = some schedule)
  (hkind : ∀ i g dr, kind i = .append g → g.check = .ok dr → ∃ n, dr.season = .dec (.ofNat n)) {d : Disk} (hd : Starts cfg d)
include hs hkind hd

end

end RegistrationBackend
