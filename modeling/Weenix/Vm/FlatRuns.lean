import Weenix.Vm.FlatCopies
import Weenix.Vm.FlatPageout
import Weenix.Vm.Isolation
/-!
# Flat memory in every run

Page frames, shadow objects, page tables and the pageout daemon are how the
system makes flat memory. In every run in which the kernel finds what it takes
for granted (`Orderly`) the processes cannot tell them apart, and what is not
marked dirty is on the disk.
-/

namespace Weenix.Vm

open Lib Lib.Intervals

variable {C : Config} {E : Env} {s s' s₀ : State} {o p v vn pn : Nat} {pr : Proc} {held : Nat → Int}

/-- Stores to files find their pages dirty, copies are to pages whose entries are for the page itself and fit, pages
that are taken away are traced, and mappings that may be written may be read, and are not both shared and anonymous. -/
def Orderly (s : State) : Event → Prop
  | .store p vaddr b => MarkedStores s (.store p vaddr b)
  | .copyout p u k n => OwnCopies s (.copyout p u k n) ∧ CopyFits s p u n
  | .mmap p addr len prot flags fd off => Event.Sane (.mmap p addr len prot flags fd off) ∧ (prot.write = true → prot.read = true) ∧
      (flags.anon = true → flags.priv = true)
  | e => TracedTurn s e

instance (s : State) : DecidablePred (Orderly s)
  | .store p vaddr b => inferInstanceAs (Decidable (MarkedStores s (.store p vaddr b)))
  | .copyout p u k n => inferInstanceAs (Decidable (OwnCopies s (.copyout p u k n) ∧ CopyFits s p u n))
  | .mmap p addr len prot flags fd off => inferInstanceAs (Decidable (Event.Sane (.mmap p addr len prot flags fd off) ∧
      (prot.write = true → prot.read = true) ∧ (flags.anon = true → flags.priv = true)))
  | .spawn => inferInstanceAs (Decidable (TracedTurn s .spawn))
  | .opened p fd f mode vn => inferInstanceAs (Decidable (TracedTurn s (.opened p fd f mode vn)))
  | .munmap p addr len => inferInstanceAs (Decidable (TracedTurn s (.munmap p addr len)))
  | .remove p lo npages => inferInstanceAs (Decidable (TracedTurn s (.remove p lo npages)))
  | .fork p => inferInstanceAs (Decidable (TracedTurn s (.fork p)))
  | .load p vaddr => inferInstanceAs (Decidable (TracedTurn s (.load p vaddr)))
  | .pageout => inferInstanceAs (Decidable (TracedTurn s .pageout))
  | .exit p => inferInstanceAs (Decidable (TracedTurn s (.exit p)))

theorem Orderly.traced {e : Event} (h : Orderly s e) : TracedTurn s e := by
  cases e with
  | store => exact h.1
  | copyout => exact h.1.1
  | mmap => exact h.1
  | _ => exact h

/-- No process, and the files hold what is on the disk. -/
def Flat.boot (s : State) : Flat := ⟨fun _ => none, fun vn pn =>
  match (s.vnodes vn).vn_mmap with
  | some (.ok _) => if pn < 2 ^ 20 then s.disk vn (PN_TO_ADDR pn) else fun _ => 0
  | _ => fun _ => 0⟩

/-- A page of a file that has no dirty frame is on the disk as `data` says. -/
def Synced (s : State) (data : Nat → Nat → Page) : Prop :=
  ∀ vn o pn, (s.vnodes vn).vn_mmap = some (.ok o) → pn < 2 ^ 20 →
    (∀ pf ∈ s.pframes, pf.pf_obj = o ∧ pf.pf_pagenum = pn → s.pf_dirty pf.pf_addr = false) → s.disk vn (PN_TO_ADDR pn) = data vn pn

theorem Mirrored.synced (h : Mirrored C held s) : Synced s s.flat.data := by
  intro vn o pn hmap hpn hclean
  have hc := h.backing.chains
  have hvn := h.own vn o hmap
  show _ = s.fileData vn pn
  rw [fileData_of hmap, if_pos hpn]
  cases hf : s.frame? o pn with
  | some pf =>
    obtain ⟨hm, rfl, rfl⟩ := (frame?_eq_some h.backing.frames).1 hf
    rw [hc.page_own hf, h.saved pf hm vn hvn (hclean pf hm ⟨rfl, rfl⟩)]
  | none =>
    rw [hc.page_root hf (hc.file_root hvn.isFile)]
    obtain ⟨ob, hob, hops⟩ := hvn
    simp only [State.source, hob, Option.map_some, hops]

theorem Booted.mirrored (h : Booted s) (hlinked : ∀ vn, (s.vnodes vn).query_vnode = true) (hclosed : ∀ f, s.files f = none) :
    ∃ held, Mirrored C held s := by
  obtain ⟨held, hL⟩ := h.linked (C := C) (R := State.reads)
  refine ⟨held, hL, fun p v pte hpte => ?_, hlinked, fun vn o ho => ⟨_, h.vnodes vn o ho, rfl⟩, fun m v y hy => ?_, fun pf hpf => ?_,
    fun pf hpf => ?_, fun p v pte hpte => ?_, ⟨fun f fl hf => ?_, fun p pr fd f hpr => ?_⟩⟩
  · rw [h.pagedir] at hpte
    cases hpte
  · obtain ⟨a, ha, -⟩ := target_some hy
    rw [h.lists] at ha
    cases ha
  · rw [h.pframes] at hpf
    cases hpf
  · rw [h.pframes] at hpf
    cases hpf
  · rw [h.pagedir] at hpte
    cases hpte
  · rw [hclosed] at hf
    cases hf
  · rw [h.procs] at hpr
    cases hpr

/-- Where the files are as on the disk, a system that is started from it finds them so. -/
theorem Flat.boot_data (h : ∀ vn o pn, (s.vnodes vn).vn_mmap = some (.ok o) → pn < 2 ^ 20 → s.disk vn (PN_TO_ADDR pn) = s.fileData vn pn) :
    (Flat.boot s).data = s.fileData := by
  funext vn pn
  unfold Flat.boot
  cases hmap : (s.vnodes vn).vn_mmap with
  | none => simp only [State.fileData, hmap]
  | some r =>
    cases r with
    | error => simp only [State.fileData, hmap]
    | ok o =>
      by_cases hpn : pn < 2 ^ 20
      · simp only [hmap, if_pos hpn, h vn o pn hmap hpn]
      · simp only [State.fileData, hmap, if_neg hpn]

theorem Booted.flat (h : Booted s) : s.flat = Flat.boot s := by
  have hdata : (Flat.boot s).data = s.fileData := Flat.boot_data fun vn o pn hmap hpn => by
    have hc := (h.linked (C := .stock) (R := State.reads)).choose_spec.backing.chains
    have hnone : s.frame? o pn = none := frame?_eq_none.2 fun pf hpf => by
      rw [h.pframes] at hpf
      cases hpf
    have hob := h.vnodes vn o hmap
    rw [fileData_of hmap, if_pos hpn, hc.page_root hnone ((Chains.parent_eq hob).trans rfl)]
    simp only [State.source, hob, Option.map_some]
  have hprocs (p : Nat) : s.flat.procs p = none := by
    show (s.procs p).map _ = none
    rw [h.procs, Option.map_none]
  calc s.flat = ⟨s.flat.procs, s.fileData⟩ := rfl
    _ = ⟨fun _ => none, (Flat.boot s).data⟩ := by rw [hdata, funext hprocs]
    _ = Flat.boot s := rfl

/-- Every event does to the flat memory what it does to the flat machine, with the same outcome. -/
theorem Mirrored.step (h : Mirrored C held s) (hio : ∀ n, E.io n = true) (hbig : C.NFILES ≤ 2 ^ 8) {e : Event} {w : Outcome}
    (he : Orderly s e) (hst : Vm.step C E s e = some (s', w)) : Mirrored C held s' ∧ flatStep s.flat e w = some s'.flat := by
  cases e with
  | spawn =>
    cases hst
    obtain ⟨h', hnew, hflat⟩ := h.spawn
    refine ⟨h', ?_⟩
    simp only [flatStep, hnew, Option.isNone_none, if_true, hflat]
  | opened p fd f mode vn =>
    simp only [Vm.step, bind, Option.bind_eq_some_iff, Option.some.injEq, Prod.mk.injEq] at hst
    obtain ⟨pr, hpr, u, hnew, rfl, rfl⟩ := hst
    have hf : s.files f = none := by
      unfold KASSERT at hnew
      split at hnew
      next hf => simpa using hf
      next => cases hnew
    obtain ⟨h', hflat⟩ := h.openFile hpr fd mode vn hf
    refine ⟨h', ?_⟩
    simp only [flatStep, flat_procs hpr, bind, Option.bind_some, hflat]
    rfl
  | mmap p addr len prot flags fd off =>
    simp only [Vm.step, bind, Option.bind_eq_some_iff, Option.some.injEq, Prod.mk.injEq, Prod.exists] at hst
    obtain ⟨s₁, r, hm, rfl, rfl⟩ := hst
    obtain ⟨hsane, hread, hanon⟩ := he
    obtain ⟨h', pr, hpr, ⟨e, rfl, hflat⟩ | ⟨place, g, rfl, hg, hflat⟩⟩ := h.mmap hbig hsane.2.1 hread hanon hm
    · exact ⟨h', by rw [hflat]; rfl⟩
    · refine ⟨h', ?_⟩
      simp only [flatStep, sysret, flat_procs hpr, hg, bind, Option.bind_some, hflat]
      rfl
  | munmap p addr len =>
    simp only [Vm.step, bind, Option.bind_eq_some_iff, Option.some.injEq, Prod.mk.injEq, Prod.exists] at hst
    obtain ⟨s₁, r, hm, rfl, rfl⟩ := hst
    rcases do_munmap_cases hm with ⟨rfl, e, rfl⟩ | ⟨pr, hpr, hr, rfl⟩
    · exact ⟨h, rfl⟩
    · obtain ⟨h', hflat⟩ := h.remove hpr (munmap_bound he.1 he.2) hr
      refine ⟨h', ?_⟩
      simp only [flatStep, sysret, flat_procs hpr, bind, Option.bind_some, hflat]
      rfl
  | remove p lopage npages =>
    simp only [Vm.step, bind, Option.bind_eq_some_iff, Option.some.injEq, Prod.mk.injEq] at hst
    obtain ⟨pr, hpr, s₁, hr, rfl, rfl⟩ := hst
    obtain ⟨h1, h2⟩ := he
    obtain ⟨h', hflat⟩ := h.remove hpr (by omega) hr
    refine ⟨h', ?_⟩
    simp only [flatStep, flat_procs hpr, bind, Option.bind_some, hflat]
    rfl
  | fork p =>
    simp only [Vm.step, bind, Option.bind_eq_some_iff, Option.some.injEq, Prod.mk.injEq, Prod.exists] at hst
    obtain ⟨s₁, c, hf, rfl, rfl⟩ := hst
    obtain ⟨h', pr, hpr, hnew, hflat⟩ := h.fork hf
    refine ⟨h', ?_⟩
    simp only [flatStep, flat_procs hpr, bind, Option.bind_some, hnew, Option.isNone_none, if_true, hflat]
  | load p vaddr =>
    simp only [Vm.step, bind, Option.bind_eq_some_iff] at hst
    obtain ⟨-, -, hst⟩ := hst
    exact h.load hio hst
  | store p vaddr b =>
    simp only [Vm.step, bind, Option.bind_eq_some_iff] at hst
    obtain ⟨-, -, hst⟩ := hst
    exact h.store hio he.2 hst
  | copyout p u k n =>
    simp only [Vm.step, bind, Option.bind_eq_some_iff, Prod.exists] at hst
    obtain ⟨s₁, r, hc, hst⟩ := hst
    obtain ⟨h', ⟨rfl, hflat⟩ | ⟨rfl, hflat⟩⟩ := h.copy hio he.1.2 he.2 hc
    · cases hst
      exact ⟨h', by rw [hflat]; rfl⟩
    · cases hst
      exact ⟨h', by rw [hflat]; rfl⟩
  | pageout =>
    simp only [Vm.step, bind, Option.bind_eq_some_iff, Option.some.injEq, Prod.mk.injEq] at hst
    obtain ⟨s₁, hp, rfl, rfl⟩ := hst
    obtain ⟨h', hflat⟩ := h.pageout hio he hp
    exact ⟨h', by rw [hflat]; rfl⟩
  | exit p =>
    simp only [Vm.step, bind, Option.bind_eq_some_iff, Option.some.injEq, Prod.mk.injEq] at hst
    obtain ⟨s₁, hx, rfl, rfl⟩ := hst
    obtain ⟨h', hlive, hflat⟩ := h.exit hx
    have hproc : (s.flat.procs p).isSome = true := by
      show ((s.procs p).map _).isSome = true
      rwa [Option.isSome_map]
    refine ⟨h', ?_⟩
    simp only [flatStep, hproc, if_true, hflat]

/-- A process maps a page of a file shared and once more private, the kernel and the process write in the shared page,
it is paged out, and a child changes the private one. -/
def writtenAndForked : List Event :=
  [.spawn, .opened 0 3 0 { read := true, write := true } 0, .mmap 0 0 4096 { read := true, write := true } { shared := true } 3 0,
    .mmap 0 0 4096 { read := true, write := true } { priv := true } 3 0, .copyout 0 0x400000 (fun _ => 7) 1, .store 0 0x400001 5,
    .pageout, .pageout, .load 0 0x401001, .store 0 0x401001 9, .fork 0, .store 1 0x401001 8, .load 0 0x401001, .load 1 0x401001,
    .load 1 0x400001, .exit 1, .load 0 0x500000]

end Weenix.Vm
