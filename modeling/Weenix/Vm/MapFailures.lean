import Weenix.Vm.MapObjects
/-!
# Mappings that fail

`vmmap_map` with a record of the areas it allocates and frees. A mapping that
cannot be made always leaves a trace (`failed_map_traced`): without room the
area allocated first is returned by nobody, and a file that gives no object is
noticed too late for an error.
-/

namespace Weenix.Vm

open Lib Lib.Intervals

variable (C : Config)

/-! ## The slab of areas -/

/-- The calls of `vmarea_alloc` and `vmarea_free`. -/
inductive Slab
  | alloc (id : Nat)
  | free (id : Nat)
  deriving DecidableEq

/-- The calls in one turn of `vmmap_remove`: a split allocates the second half, an area inside the range is freed. -/
def removeSlab (s : State) (lo fin : Nat) (a : VmArea) : List Slab :=
  if fin < a.vma_end ∧ a.vma_start < lo then [.alloc s.nareas]
  else if lo < a.vma_end ∧ a.vma_start < lo then []
  else if fin < a.vma_end ∧ a.vma_start < fin then []
  else if a.vma_end ≤ fin ∧ lo ≤ a.vma_start then [.free a.vma_id]
  else []

/-- The loop of `vmmap_remove`, with its calls. -/
def remove_from_log (p m lo fin : Nat) : State → List VmArea → Option (State × List Slab)
  | s, [] => some (s, [])
  | s, a :: l => do
    let (s', done) ← vmmap_remove_area C s p m lo fin a
    if done then some (s', removeSlab s lo fin a)
    else do
      let (s', calls) ← remove_from_log p m lo fin s' l
      some (s', removeSlab s lo fin a ++ calls)

def remove_log (s : State) (p m lopage npages : Nat) : Option (State × List Slab) :=
  remove_from_log C p m lopage (u32 (lopage + npages)) s (s.vmm_list m)

/-- `makeRoom`, with its calls. -/
def makeRoom_log (s : State) (p m lopage npages : Nat) (dir : Dir) : Option (State × Option Nat × List Slab) :=
  if lopage ≠ 0 then do
    if ← vmmap_is_range_empty C (s.vmm_list m) lopage npages then some (s, some lopage, [])
    else do
      let (s, calls) ← remove_log C s p m lopage npages
      let e ← vmmap_is_range_empty C (s.vmm_list m) lopage npages
      KASSERT (e = true)
      some (s, some lopage, calls)
  else do
    let r ← vmmap_find_range C (s.vmm_list m) npages dir
    some (s, if 0 < r then some r.toNat else none, [])

/-- `vmmap_map`, with its calls. -/
def map_log (s : State) (p m : Nat) (file : Option Nat) (lopage npages : Nat) (prot : Prot) (flags : MapFlags) (off : Nat)
    (dir : Dir) : Option (State × Except Errno Nat × List Slab) := do
  KASSERT (0 < npages)
  KASSERT (prot.other = false)
  KASSERT (flags.shared = true ∨ flags.priv = true)
  KASSERT (lopage = 0 ∨ C.low ≤ lopage)
  KASSERT (lopage = 0 ∨ u32 (lopage + npages) ≤ C.high)
  KASSERT (PAGE_ALIGNED off = true)
  let id := s.nareas
  let s := s.vmarea_alloc
  let (s, start, calls) ← makeRoom_log C s p m lopage npages dir
  match start with
  | none => some (s, .error .ENOMEM, .alloc id :: calls)
  | some start => do
    let area : VmArea :=
      { vma_id := id, vma_start := start, vma_end := u32 (npages + start), vma_off := off, vma_prot := prot,
        vma_flags := flags, vma_vmmap := none, vma_obj := none }
    let (s, area) ← attachObject s file flags area
    let s ← vmmap_insert C s m area
    some (s, .ok start, .alloc id :: calls)

section
variable {C} {s s' t : State} {p m lo fin lopage npages off : Nat} {l : List VmArea} {file : Option Nat} {prot : Prot}
  {flags : MapFlags} {dir : Dir}

theorem remove_from_log_states : (remove_from_log C p m lo fin s l).map (·.1) = vmmap_remove_from C p m lo fin s l := by
  induction l generalizing s with
  | nil => rfl
  | cons a l ih =>
    unfold remove_from_log vmmap_remove_from
    simp only [bind, Option.map_bind]
    apply congrArg
    apply funext
    rintro ⟨s', done⟩
    cases done with
    | true => rfl
    | false =>
      simp only [Function.comp_apply, Bool.false_eq_true, if_false, ← ih, Option.map_bind]
      cases remove_from_log C p m lo fin s' l <;> rfl

theorem makeRoom_log_states :
    (makeRoom_log C s p m lopage npages dir).map (fun r => (r.1, r.2.1)) = makeRoom C s p m lopage npages dir := by
  unfold makeRoom_log makeRoom
  split
  · simp only [bind, Option.map_bind]
    refine congrArg _ (funext fun b => ?_)
    cases b with
    | true => rfl
    | false =>
      simp only [Function.comp_apply, Bool.false_eq_true, if_false, vmmap_remove, remove_log, ← remove_from_log_states,
        Option.bind_map, Option.map_bind]
      rfl
  · simp only [bind, Option.map_bind]
    rfl

/-- The states and results without the record are those of the model. -/
theorem map_log_states : (map_log C s p m file lopage npages prot flags off dir).map (fun r => (r.1, r.2.1)) =
    vmmap_map C s p m file lopage npages prot flags off dir := by
  unfold map_log vmmap_map
  simp only [bind, Option.map_bind, ← makeRoom_log_states, Option.bind_map, Function.comp_def]
  refine congrArg _ (funext fun _ => congrArg _ (funext fun _ => congrArg _ (funext fun _ => congrArg _ (funext fun _ =>
    congrArg _ (funext fun _ => congrArg _ (funext fun _ => congrArg _ ?_))))))
  apply funext
  rintro ⟨s₁, start, calls⟩
  cases start with
  | none => rfl
  | some start => simp only [Option.map_bind, Function.comp_def, Option.map_some]

/-! ## No mapping -/

/-- There is nothing to map: the file's `mmap` operation fails, or no range is free. -/
def Unmappable (C : Config) (s : State) (m : Nat) (file : Option Nat) (lopage npages : Nat) : Prop :=
  (∃ vn e, file = some vn ∧ (s.vnodes vn).vn_mmap = some (.error e)) ∨
    lopage = 0 ∧ ∀ start, C.low ≤ start → start + npages ≤ C.high → ¬ RangeFree (s.vmm_list m) start (start + npages)

/-- An error that leaves every page mapped as it was, and no area or object that the call allocated. -/
structure Traceless (s s' : State) (r : Except Errno Nat) (calls : List Slab) : Prop where
  error : ∃ e, r = .error e
  pages : ∀ k v, (vmmap_lookup (s'.vmm_list k) v).map (VmArea.target v) = (vmmap_lookup (s.vmm_list k) v).map (VmArea.target v)
  areas : ∀ id, .alloc id ∈ calls → .free id ∈ calls
  objs : ∀ o, s.objs o = none → s'.objs o = none

/-- Without room nothing was done yet. -/
theorem makeRoom_log_none {calls : List Slab} (h : makeRoom_log C s p m lopage npages dir = some (s', none, calls)) :
    lopage = 0 ∧ s' = s ∧ calls = [] := by
  unfold makeRoom_log at h
  split at h
  · simp only [bind, Option.bind_eq_some_iff] at h
    obtain ⟨b, -, h⟩ := h
    split at h
    · cases h
    · simp only [Option.bind_eq_some_iff, Prod.exists] at h
      obtain ⟨s₁, calls', -, e, -, -, -, h⟩ := h
      cases h
  next h0 =>
    simp only [bind, Option.bind_eq_some_iff, Option.some.injEq, Prod.mk.injEq] at h
    obtain ⟨r, -, rfl, -, rfl⟩ := h
    exact ⟨by omega, rfl, rfl⟩

/-- The range of an area that is inserted does not wrap around. -/
theorem vmmap_insert_pages {a : VmArea} (start : Nat) (hn : npages < 2 ^ 32) (hs : a.vma_start = start)
    (he : a.vma_end = u32 (npages + start)) (h : vmmap_insert C s m a = some s') : npages ≤ 2 ^ 20 := by
  have hC := C.high_lt
  simp only [vmmap_insert, bind, Option.bind_eq_some_iff, KASSERT_eq_some] at h
  obtain ⟨-, -, -, hne, -, ⟨-, hhigh⟩, -⟩ := h
  rw [he] at hhigh
  rw [hs, he] at hne
  unfold u32 at *
  omega

/-- An area gets no object from a file whose `mmap` operation fails. -/
theorem attachObject_error {vn : Nat} {e : Errno} {area : VmArea} (hv : t.vnodes = s.vnodes)
    (h : (s.vnodes vn).vn_mmap = some (.error e)) : attachObject t (some vn) flags area = none := by
  rw [← hv] at h
  cases hat : attachObject t (some vn) flags area with
  | none => rfl
  | some r =>
    obtain ⟨t', area'⟩ := r
    cases attachObject_effect hat with
    | shared _ ho =>
      rw [h] at ho
      cases ho
    | file _ ho =>
      rw [h] at ho
      cases ho

/-- A mapping that cannot be made ends the run, or returns `-ENOMEM` and keeps the area it allocated. -/
theorem failed_map_traced (hL : Layout C s) (hn : npages < 2 ^ 32) (h : Unmappable C s m file lopage npages) :
    (map_log C s p m file lopage npages prot flags off dir = none ∨
      lopage = 0 ∧ map_log C s p m file lopage npages prot flags off dir = some (s.vmarea_alloc, .error .ENOMEM, [.alloc s.nareas])) ∧
    ¬ ∃ s' r calls, map_log C s p m file lopage npages prot flags off dir = some (s', r, calls) ∧ Traceless s s' r calls := by
  have hcases : ∀ s' r calls, map_log C s p m file lopage npages prot flags off dir = some (s', r, calls) →
      lopage = 0 ∧ s' = s.vmarea_alloc ∧ r = .error .ENOMEM ∧ calls = [.alloc s.nareas] := by
    intro s' r calls hlog
    simp only [map_log, bind, Option.bind_eq_some_iff, Prod.exists] at hlog
    obtain ⟨-, -, -, -, -, -, -, -, -, -, -, -, s₁, start, calls', hroom, hlog⟩ := hlog
    cases start with
    | none =>
      obtain ⟨h0, rfl, rfl⟩ := makeRoom_log_none hroom
      cases hlog
      exact ⟨h0, rfl, rfl, rfl⟩
    | some start =>
      exfalso
      simp only [Option.bind_eq_some_iff, Prod.exists] at hlog
      obtain ⟨s₂, area, hat, s₃, hins, -⟩ := hlog
      obtain ⟨-, o, rfl⟩ := attachObject_spaces hat
      have hpages := vmmap_insert_pages start hn rfl rfl hins
      have hroom' : makeRoom C s.vmarea_alloc p m lopage npages dir = some (s₁, some start) := by
        rw [← makeRoom_log_states, hroom]
        rfl
      rcases makeRoom_cases (hL.more (Nat.le_succ _)) hpages hroom' with ⟨h1, -⟩ | ⟨st, h1, rfl, hR, -⟩ | ⟨h0, -, hlt, hrem, -⟩
      · cases h1
      · cases h1
        rcases h with ⟨vn, e, rfl, he⟩ | ⟨-, hfull⟩
        · cases hat.symm.trans (attachObject_error rfl he)
        · exact hfull start hR.low hR.high hR.free
      · rcases h with ⟨vn, e, rfl, he⟩ | ⟨h0', -⟩
        · have hvn : s₁.vnodes = s.vnodes := (congrArg Spaces.vnodes (vmmap_remove_list hlt (hL.more (Nat.le_succ _)) hrem) :)
          cases hat.symm.trans (attachObject_error hvn he)
        · exact h0 h0'
  constructor
  · cases hlog : map_log C s p m file lopage npages prot flags off dir with
    | none => exact .inl rfl
    | some r =>
      obtain ⟨s', r, calls⟩ := r
      obtain ⟨h0, rfl, rfl, rfl⟩ := hcases s' r calls hlog
      exact .inr ⟨h0, rfl⟩
  · rintro ⟨s', r, calls, hlog, ht⟩
    obtain ⟨-, -, -, rfl⟩ := hcases s' r calls hlog
    have hfree := ht.areas s.nareas (by simp)
    simp at hfree

/-- The first process beside a device that cannot be mapped, which is vnode 1. -/
def withDevice : State :=
  { oneProcess with vnodes := Function.update oneProcess.vnodes 1 ⟨.chr, some (.error .ENODEV), true⟩ }

/-- Mapping the device leaves a trace. -/
theorem device_traced : ¬ ∃ s' r calls,
    map_log .stock withDevice 0 0 (some 1) 0x400 1 { read := true } { priv := true, fixed := true } 0 .lohi = some (s', r, calls) ∧
      Traceless withDevice s' r calls := by
  obtain ⟨held, h⟩ := oneFile_booted.spawned (C := .stock) fun _ => rfl
  have hL := h.backing.layout
  exact (failed_map_traced (s := withDevice) ⟨hL.areas, hL.ids, hL.fresh, hL.apart, hL.unused⟩ (by decide)
    (.inl ⟨1, .ENODEV, rfl, rfl⟩)).2

/-- More than user memory is refused, and the area is kept. A device mapped over an area takes the run down. -/
theorem failed_maps : (Unmappable .stock oneProcess 0 none 0 0xc0000 ∧
      ∃ s', map_log .stock oneProcess 0 0 none 0 0xc0000 { read := true } { priv := true, anon := true } 0 .lohi =
        some (s', .error .ENOMEM, [.alloc 0]) ∧ ¬ Traceless oneProcess s' (.error .ENOMEM) [.alloc 0]) ∧
    ∃ s₁ start, vmmap_map .stock withDevice 0 0 none 0x400 1 { read := true } { priv := true, anon := true } 0 .lohi =
        some (s₁, .ok start) ∧ Unmappable .stock s₁ 0 (some 1) 0x400 1 ∧
      vmmap_map .stock s₁ 0 0 (some 1) 0x400 1 { read := true } { priv := true, fixed := true } 0 .lohi = none := by
  have h1 : (map_log .stock oneProcess 0 0 none 0 0xc0000 { read := true } { priv := true, anon := true } 0 .lohi).map
      (fun r => (decide (r.2.1 = .error .ENOMEM), r.2.2)) = some (true, [.alloc 0]) := by decide +kernel
  have h2 : (vmmap_map .stock withDevice 0 0 none 0x400 1 { read := true } { priv := true, anon := true } 0 .lohi).map
      (fun r => (r.2.toOption, decide ((r.1.vnodes 1).vn_mmap = some (.error .ENODEV)),
        (vmmap_map .stock r.1 0 0 (some 1) 0x400 1 { read := true } { priv := true, fixed := true } 0 .lohi).isNone)) =
      some (some 0x400, true, true) := by decide +kernel
  obtain ⟨⟨s', r, calls⟩, hlog, hr⟩ := Option.map_eq_some_iff.1 h1
  obtain ⟨⟨s₁, r₁⟩, hmap, hr₁⟩ := Option.map_eq_some_iff.1 h2
  simp only [Prod.mk.injEq, Option.isNone_iff_eq_none, decide_eq_true_eq] at hr hr₁
  obtain ⟨rfl, rfl⟩ := hr
  obtain ⟨hr₁, hdev, hnone⟩ := hr₁
  constructor
  · refine ⟨.inr ⟨rfl, fun start hlow hhigh => ?_⟩, s', hlog, fun h => ?_⟩
    · simp only [Config.stock] at hlow hhigh
      omega
    · have hfree := h.areas 0 (by simp)
      simp at hfree
  · cases r₁ with
    | error e => cases hr₁
    | ok start =>
      cases hr₁
      exact ⟨s₁, _, hmap, .inl ⟨1, .ENODEV, rfl, hdev⟩, hnone⟩

end

end Weenix.Vm
