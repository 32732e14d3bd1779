import Weenix.Vm.FlatRuns
/-!
# Syncing (`sys_sync`)

A `sync` shows nothing to the processes, and after it the disk holds what the
files hold: a system that is started from that disk finds the same files.
-/

namespace Weenix.Vm

open Lib Lib.Intervals

variable {C : Config} {E : Env} {s s' s₀ : State} {n : Nat} {pf : Pframe} {held : Nat → Int}

/-- The pages that a sync takes from the page tables are traced. -/
def State.TracedDirty (s : State) : Prop := ∀ pf ∈ s.pframes, pf.pf_addr ∈ s.dirtyPages → s.Traced pf

instance (s : State) : Decidable s.TracedDirty := inferInstanceAs (Decidable (∀ _ ∈ _, _ → _))

inductive SyncEvent
  | event (e : Event)
  | sync

/-- The system with `sync`. The disk works, so its loop starts over once for each dirty page. -/
def syncStep (C : Config) (E : Env) (s : State) : SyncEvent → Option (State × Outcome)
  | .event e => step C E s e
  | .sync => (pframe_clean_all E (s.dirtyPages.length + 1) s).map fun s' => (s', .done)

def SyncOrderly (s : State) : SyncEvent → Prop
  | .event e => Orderly s e
  | .sync => s.TracedDirty

instance (s : State) : DecidablePred (SyncOrderly s)
  | .event e => inferInstanceAs (Decidable (Orderly s e))
  | .sync => inferInstanceAs (Decidable s.TracedDirty)

/-- The flat machine, where a sync does nothing. -/
def flatSync (M : Flat) : SyncEvent → Outcome → Option Flat
  | .event e, w => flatStep M e w
  | .sync, .done => some M
  | .sync, _ => none

/-- Where there are fewer entries, what was traced is traced. -/
theorem traced_fewer (h : s.Traced pf) (hsp : s'.spaces = s.spaces) (hno : NoNewMapping s s') : s'.Traced pf := by
  intro p hp pr hpr a ha hhas ⟨pte, hpte, hpage⟩
  have e1 : s'.nprocs = s.nprocs := congrArg Spaces.nprocs hsp
  have e2 : s'.procs = s.procs := congrArg Spaces.procs hsp
  have e3 : s'.vmm_list = s.vmm_list := congrArg Spaces.vmm_list hsp
  have e4 : s'.vmm_proc = s.vmm_proc := congrArg Spaces.vmm_proc hsp
  rw [e1] at hp
  rw [e2] at hpr
  rw [e3] at ha
  rw [e4]
  exact h p hp pr hpr a ha hhas ⟨pte, hno _ _ _ hpte, hpage⟩

/-- By induction on the dirty pages. -/
theorem Mirrored.clean_all (hio : ∀ n, E.io n = true) : ∀ {n : Nat} {s : State}, Mirrored C held s → s.TracedDirty →
    s.dirtyPages.length ≤ n → ∃ s', pframe_clean_all E (n + 1) s = some s' ∧ Mirrored C held s' ∧ s'.flat = s.flat ∧
      s'.dirtyPages = [] := by
  intro n
  induction n with
  | zero =>
    intro s h ht hn
    have hnil := List.length_eq_zero_iff.1 (Nat.le_zero.1 hn)
    exact ⟨s, (h.backing.clean_all_turn 0).1 hnil, h, rfl, hnil⟩
  | succ n ih =>
    intro s h ht hn
    obtain ⟨h1, h2⟩ := h.backing.clean_all_turn (E := E) (n + 1)
    cases hl : s.dirtyPages with
    | nil => exact ⟨s, h1 hl, h, rfl, hl⟩
    | cons pg l =>
      obtain ⟨pf, hm, rfl, hfile, t, hc, e, htried⟩ := h2 pg l hl
      obtain ⟨vn, hvn⟩ := hfile.fileOf
      obtain ⟨hM, hflat⟩ := h.clean hio hm hvn (ht pf hm (hl ▸ List.mem_cons_self)) hc
      have hdirty := htried.dirty
      rw [hio, if_pos rfl] at hdirty
      obtain ⟨s', hrest, hM', hflat', hclean⟩ := ih hM (fun q hq hqd => by
        rw [htried.frames] at hq
        rw [hdirty] at hqd
        exact traced_fewer (ht q hq (hl ▸ List.mem_cons_of_mem _ hqd)) (pframe_clean_spaces hc) htried.entries) (by
          rw [hdirty]
          rw [hl] at hn
          exact Nat.le_of_succ_le_succ hn)
      exact ⟨s', e.trans hrest, hM', hflat'.trans hflat, hclean⟩

/-- With no dirty page, the disk holds the files. -/
theorem Mirrored.on_disk (h : Mirrored C held s) (hclean : s.dirtyPages = []) : (Flat.boot s).data = s.flat.data := by
  refine Flat.boot_data fun vn o pn hmap hpn => h.synced vn o pn hmap hpn fun pf hm ⟨hobj, _⟩ => ?_
  obtain ⟨ob, hob, hops⟩ := h.own vn o hmap
  have hlist := (h.backing.frames.file pf hm ob (hobj ▸ hob) (by simp [Mmobj.isFile, hops])).2
  by_contra hd
  exact List.not_mem_nil (hclean ▸ List.mem_filter.2 ⟨hlist, by simpa using hd⟩ : pf.pf_addr ∈ [])

theorem Mirrored.sync_step (h : Mirrored C held s) (hio : ∀ n, E.io n = true) (hbig : C.NFILES ≤ 2 ^ 8) {e : SyncEvent} {w : Outcome}
    (he : SyncOrderly s e) (hst : syncStep C E s e = some (s', w)) : Mirrored C held s' ∧ flatSync s.flat e w = some s'.flat := by
  cases e with
  | event e => exact h.step hio hbig he hst
  | sync =>
    obtain ⟨t, hc, hM, hflat, -⟩ := h.clean_all hio he (le_refl _)
    simp only [syncStep, hc, Option.map_some, Option.some.injEq, Prod.mk.injEq] at hst
    obtain ⟨rfl, rfl⟩ := hst
    exact ⟨hM, by rw [hflat]; rfl⟩

/-- In every such run with syncs, the outcomes are those of the flat machine. A sync returns, and a system that is
started from the disk that it leaves finds the files as they are. -/
theorem sync_saves {tr : List (SyncEvent × Outcome)} (h0 : Booted s₀) (hlinked : ∀ vn, (s₀.vnodes vn).query_vnode = true)
    (hclosed : ∀ f, s₀.files f = none) (hio : ∀ n, E.io n = true) (hbig : C.NFILES ≤ 2 ^ 8)
    (h : Run (syncStep C E) SyncOrderly s₀ s tr) :
    ∃ M, follow flatSync (Flat.boot s₀) tr = some M ∧
      (s.TracedDirty → ∃ s', syncStep C E s .sync = some (s', .done) ∧ (Flat.boot s').data = M.data) := by
  obtain ⟨held, hM₀⟩ := h0.mirrored (C := C) hlinked hclosed
  have hM : Mirrored C held s := h.inv (Mirrored C held) hM₀ fun _ _ _ _ hM he hst => (hM.sync_step hio hbig he hst).1
  have htrace := h.follows (Mirrored C held) State.flat flatSync hM₀ fun _ _ _ _ hM he hst => hM.sync_step hio hbig he hst
  rw [h0.flat] at htrace
  refine ⟨s.flat, htrace, fun ht => ?_⟩
  obtain ⟨s', hc, hM', hflat, hclean⟩ := hM.clean_all (E := E) hio ht (le_refl _)
  refine ⟨s', by simp only [syncStep, hc, Option.map_some], ?_⟩
  rw [hM'.on_disk hclean, hflat]

/-- The kernel writes to two pages, a sync saves them, and then the kernel writes to the first one again. -/
def syncedBetween : List SyncEvent :=
  [.event .spawn, .event (.opened 0 3 0 { read := true, write := true } 0),
    .event (.mmap 0 0 8192 { read := true, write := true } { shared := true } 3 0), .event (.copyout 0 0x400000 (fun _ => 7) 1),
    .event (.copyout 0 0x401000 (fun _ => 9) 1), .sync, .event (.load 0 0x401000), .event (.copyout 0 0x400000 (fun _ => 5) 1),
    .event (.load 0 0x400000)]

theorem synced_between : ∃ s tr M, Run (syncStep .stock .simple) SyncOrderly oneFile s tr ∧
    tr.map (·.2) = [.value 0, .done, .value 0x400000, .value 0, .value 0, .done, .byte 9, .value 0, .byte 5] ∧
    s.dirtyPages.length = 1 ∧ follow flatSync (Flat.boot oneFile) tr = some M ∧
    ∃ s', syncStep .stock .simple s .sync = some (s', .done) ∧ (Flat.boot s').data = M.data := by
  have hex : (exec (syncStep .stock .simple) (fun s e => decide (SyncOrderly s e)) oneFile syncedBetween).map
      (fun r => (r.2.map (·.2), r.1.dirtyPages.length, decide r.1.TracedDirty)) =
      some ([.value 0, .done, .value 0x400000, .value 0, .value 0, .done, .byte 9, .value 0, .byte 5], 1, true) := by decide +kernel
  simp only [Option.map_eq_some_iff, Prod.mk.injEq, Prod.exists, decide_eq_true_eq] at hex
  obtain ⟨s, tr, he, hw, hdirty, ht⟩ := hex
  have hrun : Run (syncStep .stock .simple) SyncOrderly oneFile s tr := Run.of_exec (fun _ _ => of_decide_eq_true) he
  obtain ⟨M, hM, hsync⟩ := sync_saves oneFile_booted (fun _ => rfl) (fun _ => rfl) (fun _ => rfl) (by decide) hrun
  exact ⟨s, tr, M, hrun, hw, hdirty, hM, hsync ht⟩

end Weenix.Vm
