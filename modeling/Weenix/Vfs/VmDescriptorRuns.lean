import Weenix.Vfs.VmDescriptors
/-!
# Runs on descriptors in vm-submit

Opening, closing, copying, fork and exit against the model of `VmDescriptors`,
and then every run of every process.
-/

namespace Weenix.Files.VmSubmit
open Lib Vfs
open VfsSubmit (behind behind_eq fput_still)

variable {σ : Type} {N : Nat} {L : Limits} {F : Io σ} {O : FileCalls σ} {root p f fd : Nat} {held : List Nat} {s s' : System σ}
  {r : Except Errno Int} {m : Nat → Nat} {a : Handles Desc} {i : Int}

/-! ## Calls on descriptors -/

/-- An open descriptor is closed, and its file put. -/
theorem do_close_cases (hO : Lawful O) (h : Match N held m s a) (hc : do_close N O s p i = some (s', r)) :
    ((∃ err, r = .error err) ∧ s' = s ∧ behind N s p i = none) ∨
      (r = .ok 0 ∧ (behind N s p i).isSome ∧ Match N held m s' (a.set p i.toNat none) ∧
        ∀ fd, fd ≠ i.toNat → s'.slot p fd = s.slot p fd) := by
  simp only [do_close] at hc
  split at hc
  next hneg =>
    cases hc
    exact .inl ⟨⟨_, rfl⟩, rfl, if_pos (.inl hneg)⟩
  next hneg =>
    split at hc
    next hbig =>
      cases hc
      exact .inl ⟨⟨_, rfl⟩, rfl, if_pos (.inr hbig)⟩
    next hbig =>
      have hb : behind N s p i = s.slot p i.toNat := if_neg (by omega)
      split at hc
      next hs =>
        cases hc
        exact .inl ⟨⟨_, rfl⟩, rfl, hb.trans hs⟩
      next f hs =>
        obtain ⟨s₁, hput, hc⟩ := Option.bind_eq_some_iff.1 hc
        cases hc
        obtain ⟨pr, hp, -⟩ := Accounted.slot_some hs
        have h1 : Match N (f :: held) m (s.setSlot p i.toNat none) (a.set p i.toNat none) :=
          h.setSlot (by simp [hp]) (by omega) (h.accounted.clear hs) (fun _ e => by cases e)
        obtain ⟨-, hprocs⟩ := h1.accounted.fput_keeps hO hput
        refine .inr ⟨rfl, by rw [hb, hs]; rfl, h1.fput hO hput, fun fd hfd => ?_⟩
        rw [Accounted.procs_slot hprocs]
        exact s.slot_setSlot_ne none (Ne.symm hfd)

theorem do_close_shown (hO : Lawful O) (h : Match N held m s a) (hc : do_close N O s p i = some (s', r)) :
    Shown N F a (p, .do_close i) r s' := by
  rcases do_close_cases hO h hc with ⟨⟨err, rfl⟩, rfl, -⟩ | ⟨rfl, hb, h', -⟩
  · exact h.failed err
  · exact ⟨held, m, _, .inr ⟨rfl, by rwa [h.descAt_eq, Option.isSome_map], rfl⟩, h'⟩

theorem do_dup_shown (hO : Lawful O) (h : Match N held m s a) (hp : (s.procs p).isSome)
    (hc : do_dup N O s p i = some (s', r)) : Shown N F a (p, .do_dup i) r s' := by
  simp only [do_dup] at hc
  split at hc
  next =>
    cases hc
    exact h.failed _
  next hneg =>
  split at hc
  next =>
    cases hc
    exact h.failed _
  next hbig =>
  iterate 2
    split at hc
    · cases hc
      exact h.failed _
  rcases fget_begin hO hneg hbig hc with ⟨rfl, rfl⟩ | ⟨f, hb, hc⟩
  · exact h.failed _
  have hs := (behind_eq hb).2.2
  have h1 := h.addRef hs
  split at hc
  next =>
    obtain ⟨s₁, hput, hc⟩ := Option.bind_eq_some_iff.1 hc
    cases hc
    obtain ⟨file, hf, hpos, -⟩ := h.behind_file hb
    cases hput.symm.trans (fput_still hO hf hpos)
    exact h.failed _
  next fdNew hfd =>
    cases hc
    obtain ⟨hlt, hempty⟩ := get_empty_fd_some hfd
    have hfill : Accounted N held ((s.addRef f).setSlot p fdNew (some f)) := h1.accounted.fill hp hlt hempty
    refine ⟨held, m, _, .inr ⟨m f, fdNew, ?_, h1.lowest hfd, rfl, rfl⟩, h1.setSlot hp hlt hfill ?_⟩
    · rw [h.descAt_eq, hb]
      rfl
    · rintro g ⟨⟩
      exact ⟨p, i.toNat, hs⟩

theorem do_dup2_shown (hO : Lawful O) (h : Match N held m s a) (hp : (s.procs p).isSome) {j : Int}
    (hc : do_dup2 N O s p i j = some (s', r)) : Shown N F a (p, .do_dup2 i j) r s' := by
  simp only [do_dup2] at hc
  split at hc
  next =>
    cases hc
    exact h.failed _
  next hneg =>
  split at hc
  next =>
    cases hc
    exact h.failed _
  next hneg' =>
  split at hc
  next =>
    cases hc
    exact h.failed _
  next hbig =>
  split at hc
  next =>
    cases hc
    exact h.failed _
  next =>
  split at hc
  next =>
    cases hc
    exact h.failed _
  next hbig' =>
  rcases fget_begin hO hneg hbig hc with ⟨rfl, rfl⟩ | ⟨f, hb, hc⟩
  · exact h.failed _
  have hs := (behind_eq hb).2.2
  have hname : descAt N a p i = some (m f) := by
    rw [h.descAt_eq, hb]
    rfl
  have hdone {held' : List Nat} (h' : Match N held' m s' (a.set p j.toNat (some (m f)))) : Shown N F a (p, .do_dup2 i j) (.ok j) s' :=
    ⟨held', m, _, .inr ⟨m f, hname, ⟨by omega, by omega⟩, rfl, rfl⟩, h'⟩
  have h1 := h.addRef hs
  split at hc
  next e =>
    subst e
    obtain ⟨s₁, hput, hc⟩ := Option.bind_eq_some_iff.1 hc
    cases hc
    obtain ⟨file, hf, hpos, -⟩ := h.behind_file hb
    cases hput.symm.trans (fput_still hO hf hpos)
    have hback : a.set p i.toNat (some (m f)) = a := by
      have htab : a.tab p i.toNat = some (m f) := (h.shows.tab p i.toNat).trans (by rw [hs]; rfl)
      simp [Handles.set, ← htab]
    exact hdone (hback.symm ▸ h)
  next hne =>
    -- the slot `j` is empty, perhaps after its file has been put
    have hfill {s₁ : System σ} {a₁ : Handles Desc} (h2 : Match N (f :: held) m s₁ a₁) (hp : (s₁.procs p).isSome)
        (hempty : s₁.slot p j.toNat = none) (hs : s₁.slot p i.toNat = some f) :
        Match N held m (s₁.setSlot p j.toNat (some f)) (a₁.set p j.toNat (some (m f))) := by
      refine h2.setSlot hp (by omega) (h2.accounted.fill hp (by omega) hempty) ?_
      rintro g ⟨⟩
      exact ⟨p, i.toNat, hs⟩
    split at hc
    next hopen =>
      obtain ⟨⟨s₂, r₂⟩, hclose, hc⟩ := Option.bind_eq_some_iff.1 hc
      cases hc
      obtain ⟨hempty, hp₂⟩ := do_close_empties hO h1.accounted hneg' hbig' hopen hclose
      rcases do_close_cases hO h1 hclose with ⟨-, -, hb'⟩ | ⟨-, -, h2, hsame⟩
      · have hb'' : behind N (s.addRef f) p j = s.slot p j.toNat := if_neg (by omega)
        exact absurd (hb''.symm.trans hb') hopen
      · have hset : (a.set p j.toNat none).set p j.toNat (some (m f)) = a.set p j.toNat (some (m f)) := by
          simp [Handles.set]
        have hs₂ : s₂.slot p i.toNat = some f := (hsame i.toNat (by omega)).trans hs
        exact hdone (hset ▸ hfill h2 hp₂ hempty hs₂)
    next hopen =>
      cases hc
      exact hdone (hfill h1 hp (by simpa using hopen) hs)

/-- A file that no slot points to comes, goes or changes. -/
theorem Match.unused (h : Match N held m s a) {held' : List Nat} (hacc : Accounted N held' s') (hf : s.files f = none)
    (hslot : s'.slot = s.slot) (hfiles : ∀ g, g ≠ f → s'.files g = s.files g) : Match N held' m s' a := by
  refine ⟨hacc, h.shows.congr hslot fun q fd' g hg => ?_⟩
  obtain ⟨file, hg', -⟩ := h.accounted.slot_file hg
  have hne : g ≠ f := by
    rintro rfl
    rw [hf] at hg'
    cases hg'
  rw [descs, descs, hfiles g hne]

/-- A slot that is filled and emptied again is as it was. -/
theorem slot_reset (h : Accounted N held s) (hp : (s.procs p).isSome) (hfd : fd < N) (hempty : s.slot p fd = none) (x : Option Nat)
    (hprocs : s'.procs = ((s.setSlot p fd x).setSlot p fd none).procs) : s'.slot = s.slot := by
  funext q fd'
  rw [Accounted.procs_slot hprocs]
  by_cases e : q = p
  · subst e
    by_cases e' : fd = fd'
    · subst e'
      obtain ⟨pr, hpr⟩ := Option.isSome_iff_exists.1 hp
      rw [hempty]
      simp [System.slot, System.setSlot, System.setProc, hpr, (h.rows q pr hpr).2, hfd]
    · rw [System.slot_setSlot_ne _ _ e', System.slot_setSlot_ne _ _ e']
  · rw [System.slot_setSlot_other _ _ e, System.slot_setSlot_other _ _ e]

theorem do_open_shown (hO : Lawful O) (h : Match N held m s a) (hp : (s.procs p).isSome) {filename : Name} {oflags : OFlags}
    (hc : do_open N L F O root s p filename oflags = some (s', r)) : Shown N F a (p, .do_open filename oflags) r s' := by
  have hc' := hc
  simp only [do_open] at hc
  split at hc
  next =>
    cases hc
    exact h.failed _
  next fd hfd =>
    obtain ⟨hlt, hempty⟩ := get_empty_fd_some hfd
    rcases hO.fget_new s p with hnew | ⟨f, file, hf, h1, hnew⟩
    · rw [hnew] at hc
      cases hc
      exact h.failed _
    rw [hnew] at hc
    dsimp only at hc
    split at hc
    next =>
      -- the new file is lost
      cases hc
      obtain ⟨hacc, -⟩ := h.accounted.fget_new hO hnew
      exact (h.unused hacc hf rfl fun g hg => Function.update_of_ne hg ..).failed _
    next hflags =>
      have hacc : Accounted N held s' := do_open_keeps hO h.accounted hp (by simpa using hflags) hc'
      have hfail (err : Errno) (hprocs : s'.procs = ((s.setSlot p fd (some f)).setSlot p fd none).procs)
          (hfiles : ∀ g, g ≠ f → s'.files g = s.files g) : Shown N F a (p, .do_open filename oflags) (.error err) s' :=
        (h.unused hacc hf (slot_reset h.accounted hp hlt hempty _ hprocs) hfiles).failed err
      obtain ⟨curproc, -, hc⟩ := Option.bind_eq_some_iff.1 hc
      obtain ⟨⟨vfs, res⟩, -, hc⟩ := Option.bind_eq_some_iff.1 hc
      -- the files while the vnode is looked up
      have hheld {t t' : System σ} (hput : O.fput t f = some t')
          (ht : t.files = Function.update s.files f (some { file with f_mode := openMode oflags })) :
          t'.procs = t.procs ∧ ∀ g, g ≠ f → t'.files g = s.files g := by
        obtain ⟨vfs', hput', -⟩ := hO.fput t f { file with f_mode := openMode oflags } (by rw [ht, Function.update_self]) (by
          rw [h1]
          exact Nat.one_pos)
        cases hput.symm.trans hput'
        refine ⟨rfl, fun g hg => ?_⟩
        simp only [System.setFile, Function.update_of_ne hg, ht]
      have hfiles : (((s.setFile f (some file)).setSlot p fd (some f)).modify f fun file =>
          { file with f_mode := openMode oflags }).files = Function.update s.files f (some { file with f_mode := openMode oflags }) := by
        simp [System.setSlot, System.setProc, System.modify, System.setFile]
      cases res with
      | error err =>
        obtain ⟨s₄, hput, hc⟩ := Option.bind_eq_some_iff.1 hc
        cases hc
        obtain ⟨hprocs, hfs⟩ := hheld hput hfiles
        refine hfail _ ?_ hfs
        simp only [System.setSlot, System.setProc, hprocs]
        rfl
      | ok vn =>
        dsimp only at hc
        split at hc
        next =>
          obtain ⟨vfs', -, hc⟩ := Option.bind_eq_some_iff.1 hc
          obtain ⟨s₄, hput, hc⟩ := Option.bind_eq_some_iff.1 hc
          cases hc
          obtain ⟨hprocs, hfs⟩ := hheld hput hfiles
          exact hfail _ hprocs hfs
        next =>
          split at hc
          next =>
            obtain ⟨vfs', -, hc⟩ := Option.bind_eq_some_iff.1 hc
            obtain ⟨s₄, hput, hc⟩ := Option.bind_eq_some_iff.1 hc
            cases hc
            obtain ⟨hprocs, hfs⟩ := hheld hput hfiles
            exact hfail _ hprocs hfs
          next =>
            cases hc
            have hfree : ∀ q fd', s.slot q fd' ≠ some f := by
              intro q fd' hs
              obtain ⟨file', hf', -⟩ := h.accounted.slot_file hs
              rw [hf] at hf'
              cases hf'
            refine ⟨held, Function.update m f a.next, a.opened p fd ⟨openMode oflags, file.f_pos, some vn⟩,
              .inr ⟨fd, _, rfl, h.lowest hfd, rfl, rfl, rfl⟩, hacc, h.shows.opened hfree ?_ (fun g hg => ?_) ?_⟩
            · simp [descs, descOf, System.modify, System.setFile, System.setSlot, System.setProc]
            · simp [descs, System.modify, System.setFile, System.setSlot, System.setProc, hg]
            · exact slot_setSlot_eq h.accounted hp hlt (some f)

/-! ## Fork and exit -/

theorem copyFiles_descs (hO : Lawful O) {newproc : Nat} (fds : List Nat) : descs (copyFiles O s p newproc fds) = descs s := by
  induction fds generalizing s with
  | nil => rfl
  | cons fd fds ih =>
    rw [copyFiles_cons hO]
    cases s.slot p fd with
    | none => exact ih
    | some f =>
      refine ih.trans (funext fun g => ?_)
      simp only [descs, System.addRef, System.modify, System.setFile, System.setSlot, System.setProc, Function.update_apply]
      split
      next e => cases hg : s.files f <;> simp [e, hg, descOf]
      next => rfl

theorem slot_setSlot_self {pr : Fproc} (hpr : s.procs p = some pr) (hfd : fd < pr.p_files.length) (x : Option Nat) :
    (s.setSlot p fd x).slot p fd = x := by
  simp [System.slot, System.setSlot, System.setProc, hpr, hfd]

/-- The loop of `do_fork` fills the slots of the child, and no others. -/
theorem copyFiles_slots (hO : Lawful O) {newproc : Nat} (hne : p ≠ newproc) {pr : Fproc} (hpr : s.procs newproc = some pr)
    {fds : List Nat} (hlt : ∀ fd ∈ fds, fd < pr.p_files.length) (q fd : Nat) : (copyFiles O s p newproc fds).slot q fd =
      if q = newproc ∧ fd ∈ fds then s.slot p fd else s.slot q fd := by
  induction fds generalizing s pr with
  | nil => simp [copyFiles]
  | cons fd₀ fds ih =>
    -- the state after one round
    have hround (s₁ : System σ) (hprocs : s₁.procs = s.procs) :
        (copyFiles O (s₁.setSlot newproc fd₀ (s.slot p fd₀)) p newproc fds).slot q fd =
          if q = newproc ∧ fd ∈ fd₀ :: fds then s.slot p fd else s.slot q fd := by
      have hpr₁ : (s₁.setSlot newproc fd₀ (s.slot p fd₀)).procs newproc =
          some { pr with p_files := pr.p_files.set fd₀ (s.slot p fd₀) } := by
        simp [System.setSlot, System.setProc, hprocs, hpr]
      rw [ih hpr₁ fun fd' hfd' => by
        rw [List.length_set]
        exact hlt fd' (List.mem_cons_of_mem _ hfd')]
      rw [System.slot_setSlot_other _ _ hne, Accounted.procs_slot hprocs]
      by_cases hq : q = newproc
      · subst hq
        by_cases hmem : fd ∈ fds
        · simp [hmem]
        · by_cases e : fd₀ = fd
          · subst e
            rw [slot_setSlot_self (hprocs.symm ▸ hpr) (hlt fd₀ List.mem_cons_self)]
            simp [hmem]
          · rw [System.slot_setSlot_ne _ _ e, Accounted.procs_slot hprocs]
            simp [hmem, Ne.symm e]
      · rw [System.slot_setSlot_other _ _ hq, Accounted.procs_slot hprocs]
        simp [hq]
    rw [copyFiles_cons hO]
    split
    next hs =>
      have hnone := hround s rfl
      rwa [hs] at hnone
    next f hs =>
      have hsome := hround (s.addRef f) rfl
      rwa [hs] at hsome

theorem do_fork_shown (hO : Lawful O) (h : Match N held m s a) {pid : Int} {curproc : Fproc} (hp : s.procs p = some curproc)
    (hc : do_fork N O root s p pid = some (s', r)) : Shown N F a (p, .do_fork pid) r s' := by
  obtain ⟨hforked, rfl⟩ := do_fork_forked hO h.accounted hp hc
  have hne : p ≠ s.nprocs := ne_of_lt (h.accounted.rows p curproc hp).1
  have hnone (fd : Nat) : s.slot s.nprocs fd = none := by
    cases hs : s.slot s.nprocs fd with
    | none => rfl
    | some f =>
      obtain ⟨pr, hpr, -⟩ := Accounted.slot_some hs
      exact absurd (h.accounted.rows _ pr hpr).1 (Nat.lt_irrefl _)
  obtain ⟨s₁, hcreate, hc⟩ := Option.bind_eq_some_iff.1 hc
  obtain ⟨vfs, pr, rfl, hfiles, -, -⟩ := proc_create_cases hp hcreate
  obtain ⟨cur, -, hc⟩ := Option.bind_eq_some_iff.1 hc
  obtain ⟨child, hchild, hc⟩ := Option.bind_eq_some_iff.1 hc
  have hs' : _ = s' := congrArg Prod.fst (Option.some.inj hc)
  have hlen : pr.p_files.length = N := by rw [hfiles, List.length_replicate]
  -- the loop has copied each slot
  have hslot : ((copyFiles O (withProc s vfs pid pr) p s.nprocs (List.range N)).slot) =
      Function.update s.slot s.nprocs (s.slot p) := by
    funext q fd
    have hold {q : Nat} (hq : q ≠ s.nprocs) (fd : Nat) : (withProc s vfs pid pr).slot q fd = s.slot q fd := by
      rw [System.slot, withProc_ne hq]
      rfl
    rw [copyFiles_slots hO hne withProc_self (fun fd hfd => by rw [hlen]; exact List.mem_range.1 hfd), hold hne,
      Function.update_apply]
    by_cases hq : q = s.nprocs
    · subst hq
      by_cases hfd : fd < N
      · simp [hfd]
      · have hout : s.slot p fd = none := by
          cases hs : s.slot p fd with
          | none => rfl
          | some f => exact absurd (behind_of_slot h.accounted hs) hfd
        simp [hfd, withProc_slot hfiles, hout]
    · simp [hq, hold hq]
  -- the child's working directory is set at last
  have hlast (x : System σ) (hx : x.procs s.nprocs = some child) (pr' : Fproc) (he : pr'.p_files = child.p_files) :
      (x.setProc s.nprocs (some pr')).slot = x.slot := by
    funext q fd
    by_cases hq : q = s.nprocs
    · subst hq
      simp [System.slot, System.setProc, hx, he]
    · simp [System.slot, System.setProc, hq]
  have hrow : s'.slot = Function.update s.slot s.nprocs (s.slot p) := by
    rw [← hs']
    exact (hlast _ hchild { child with p_cwd := cur.p_cwd } rfl).trans hslot
  have hdescs : descs s' = descs s := by
    rw [← hs']
    exact copyFiles_descs hO (List.range N)
  refine ⟨held, m, _, .inr ⟨s.nprocs, Ne.symm hne, fun fd => by rw [h.shows.tab, hnone]; rfl, rfl, rfl⟩, ?_⟩
  refine h.slots hforked.accounted (congrFun hdescs) (fun q fd => ?_) fun q fd f hs => ?_
  · rw [hrow, Function.update_apply, Function.update_apply]
    split
    · exact h.shows.tab p fd
    · exact h.shows.tab q fd
  · rw [hrow, Function.update_apply] at hs
    split at hs
    · exact ⟨p, fd, hs⟩
    · exact ⟨q, fd, hs⟩

/-- What an exit frees. -/
theorem putFiles_shrinks (hO : Lawful O) {procs : Nat → Option Fproc} {n : Nat} {fds : List Nat}
    (h : Counted N (fds.filterMap (s.slot p) ++ held) procs n s.files) (hc : putFiles O s p fds = some s') :
    Shrinks s s' ∧ s'.procs = s.procs := by
  induction fds generalizing s with
  | nil =>
    cases hc
    exact ⟨fun f file hf => ⟨file, hf, rfl⟩, rfl⟩
  | cons fd fds ih =>
    unfold putFiles at hc
    cases hs : s.slot p fd with
    | none =>
      rw [List.filterMap_cons_none hs] at h
      rw [hs] at hc
      exact ih h hc
    | some f =>
      rw [List.filterMap_cons_some hs] at h
      rw [hs] at hc
      obtain ⟨file, hf, hpos⟩ := h.exists_file
      obtain ⟨vfs, hput, -⟩ := hO.fput s f file hf hpos
      obtain ⟨s₁, hput', hc⟩ := Option.bind_eq_some_iff.1 hc
      cases hput.symm.trans hput'
      obtain ⟨h1, h2⟩ := ih (h.drop hf) hc
      refine ⟨fun g file' hg => ?_, h2⟩
      obtain ⟨file₁, hg₁, hd₁⟩ := h1 g file' hg
      obtain ⟨file₂, hg₂, hd₂⟩ := shrinks_put hf vfs g file₁ hg₁
      exact ⟨file₂, hg₂, hd₁.trans hd₂⟩

theorem exit_shown (hO : Lawful O) (h : Match N held m s a) {curproc : Fproc} (hp : s.procs p = some curproc)
    (hc : proc_cleanup N O s p = some s') : Shown N F a (p, .exit) (.ok 0) s' := by
  have hacc := proc_cleanup_keeps hO h.accounted hp hc
  simp only [proc_cleanup, hp, bind, Option.bind_some, Option.bind_eq_some_iff] at hc
  obtain ⟨-, -, -, -, s₁, hputs, vfs, -, hc⟩ := hc
  cases hc
  have h1 := h.accounted.remove hp
  rw [← slots_row hp (h.accounted.rows p curproc hp).2] at h1
  obtain ⟨hfiles, hprocs⟩ := putFiles_shrinks hO h1 hputs
  have hslot (q fd : Nat) : (({ s₁ with vfs := vfs } : System σ).setProc p none).slot q fd = if q = p then none else s.slot q fd := by
    simp only [System.slot, System.setProc, hprocs, Function.update_apply]
    split <;> rfl
  have hshows : Shows (({ s₁ with vfs := vfs } : System σ).setProc p none).slot (descs s) m (a.setRow p fun _ => none) := by
    refine h.shows.slots (fun q fd => ?_) fun q fd f hs => ?_
    · rw [hslot, Function.update_apply]
      split
      · rfl
      · exact h.shows.tab q fd
    · rw [hslot] at hs
      split at hs
      · cases hs
      · exact ⟨q, fd, hs⟩
  exact ⟨held, m, _, .inr ⟨rfl, rfl⟩, hacc, hshows.congr rfl fun q fd f hs => Shrinks.descs_eq hfiles hacc hs⟩

/-! ## Every run -/

theorem step_shown (hO : Lawful O) (h : Match N held m s a) {e : Nat × FileCall} (hst : step N L F O root s e = some (s', r)) :
    Shown N F a e r s' := by
  obtain ⟨p, c⟩ := e
  simp only [step] at hst
  split at hst
  case isFalse => cases hst
  next hp =>
    cases c with
    | do_open filename oflags => exact do_open_shown hO h hp hst
    | do_close fd => exact do_close_shown hO h hst
    | do_dup fd => exact do_dup_shown hO h hp hst
    | do_dup2 ofd nfd => exact do_dup2_shown hO h hp hst
    | do_read fd nbytes => exact do_read_shown hO h hst
    | do_write fd nbytes => exact do_write_shown hO h hst
    | do_getdent fd => exact do_getdent_shown hO h hst
    | do_lseek fd offset whence => exact do_lseek_shown h hst
    | do_fork pid =>
      obtain ⟨pr, hpr⟩ := Option.isSome_iff_exists.1 hp
      exact do_fork_shown hO h hpr hst
    | exit =>
      obtain ⟨pr, hpr⟩ := Option.isSome_iff_exists.1 hp
      obtain ⟨s₁, hc, he⟩ := Option.map_eq_some_iff.1 hst
      cases he
      exact exit_shown hO h hpr hc

end Weenix.Files.VmSubmit
