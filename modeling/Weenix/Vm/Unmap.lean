import Weenix.Vm.Refs
/-!
# Unmapping a range

After `vmmap_remove` nothing is mapped in the range, and every other page is
mapped as it was. The areas inside the range have put their objects, and a split
has taken a reference.
-/

namespace Weenix.Vm

open Lib Lib.Intervals

variable {C : Config} {s s' : State} {m id lo fin v : Nat} {l : List VmArea} {held : Nat → Int}

/-- What a page of an area is mapped to: the object, the page of it, and how. -/
def VmArea.target (v : Nat) (a : VmArea) : Option Nat × Nat × Prot × MapFlags :=
  (a.vma_obj, a.pagenum v, a.vma_prot, a.vma_flags)

/-- The area is in the range, and disappears. -/
def VmArea.Inside (lo fin : Nat) (a : VmArea) : Prop := lo ≤ a.vma_start ∧ a.vma_end ≤ fin

/-- The range is in the area, which is split. -/
def VmArea.Around (lo fin : Nat) (a : VmArea) : Prop := a.vma_start < lo ∧ fin < a.vma_end

instance (lo fin : Nat) : DecidablePred (VmArea.Inside lo fin) := fun _ => inferInstanceAs (Decidable (_ ∧ _))

instance (lo fin : Nat) : DecidablePred (VmArea.Around lo fin) := fun _ => inferInstanceAs (Decidable (_ ∧ _))

/-- The references to `o` besides those of its resident pages. -/
def State.taken (s : State) (o : Nat) : Int := s.mmo_refcount o - s.mmo_nrespages o

/-- The pages `[lo, fin)` of map `m` have been unmapped. -/
structure Unmapped (s s' : State) (m lo fin : Nat) : Prop where
  gone : ∀ v, lo ≤ v → v < fin → vmmap_lookup (s'.vmm_list m) v = none
  kept : ∀ v, v < lo ∨ fin ≤ v →
    (vmmap_lookup (s'.vmm_list m) v).map (VmArea.target v) = (vmmap_lookup (s.vmm_list m) v).map (VmArea.target v)
  others : ∀ m', m' ≠ m → s'.vmm_list m' = s.vmm_list m'
  /-- Each area that disappears puts its object, and each split takes a reference. -/
  refs : ∀ o ob, s.objs o = some ob →
    s'.taken o + (s.vmm_list m).countP (fun a => a.Inside lo fin ∧ a.vma_obj = some o) =
      s.taken o + (s.vmm_list m).countP (fun a => a.Around lo fin ∧ a.vma_obj = some o)
  hung : ∀ a ∈ s'.vmm_list m, ∃ o b, a.vma_obj = some o ∧ s'.bottomOf o = some b ∧ a.vma_id ∈ s'.mmo_vmas b

/-! ## Lookups -/

theorem lookup_gone (hok : AreasOk C m l) (hlf : lo ≤ fin) (h1 : lo ≤ v) (h2 : v < fin) :
    vmmap_lookup (l.flatMap (pieces m id lo fin)) v = none := by
  apply find_none_iff.2
  rintro b hb ⟨h3, h4⟩
  have := rangeFree_pieces hlf hok b hb
  omega

/-- A page outside the range is in a piece of the area it was in. -/
theorem lookup_kept (hok : AreasOk C m l) (hlf : lo ≤ fin) (hout : v < lo ∨ fin ≤ v) :
    (vmmap_lookup (l.flatMap (pieces m id lo fin)) v).map (VmArea.target v) = (vmmap_lookup l v).map (VmArea.target v) := by
  have hC := C.high_lt
  have hpiece {a b : VmArea} (ha : a ∈ l) (hb : b ∈ pieces m id lo fin a) : PieceOf lo fin b a :=
    pieceOf_mem hlf (hok.sorted.nonempty a ha) ((hok.high a ha).trans_lt (by omega)) hb
  cases hl : vmmap_lookup l v with
  | none =>
    have hnone := find_none_iff.1 hl
    have h : vmmap_lookup (l.flatMap (pieces m id lo fin)) v = none := by
      apply find_none_iff.2
      rintro b hb ⟨h1, h2⟩
      obtain ⟨a, ha, hb⟩ := List.mem_flatMap.1 hb
      exact hnone a ha ⟨(hpiece ha hb).start_le.trans h1, h2.trans_le (hpiece ha hb).le_end⟩
    rw [h]
  | some a =>
    obtain ⟨ha, hv⟩ := hok.sorted.find_iff.1 hl
    obtain ⟨b, hb, hbv⟩ : ∃ b ∈ pieces m id lo fin a, b.Has v := pieces_complete hv hout
    have h : vmmap_lookup (l.flatMap (pieces m id lo fin)) v = some b :=
      (hok.pieces hlf).sorted.find_iff.2 ⟨List.mem_flatMap.2 ⟨a, ha, hb⟩, hbv⟩
    have hp := hpiece ha hb
    rw [h]
    simp only [Option.map_some, VmArea.target, hp.obj, hp.prot, hp.flags, hp.pagenum v hbv]

/-! ## References -/

/-- One area has as many pieces as it stays, is split or disappears. -/
theorem pieces_count (m id : Nat) (hlf : lo ≤ fin) {a : VmArea} (hne : a.vma_start < a.vma_end) (hend : a.vma_end < 2 ^ 32) (o : Nat) :
    (pieces m id lo fin a).countP (fun a => decide (a.vma_obj = some o)) +
        (if a.Inside lo fin ∧ a.vma_obj = some o then 1 else 0) =
      (if a.vma_obj = some o then 1 else 0) + if a.Around lo fin ∧ a.vma_obj = some o then 1 else 0 := by
  have hobj : ∀ b ∈ pieces m id lo fin a, b.vma_obj = a.vma_obj := fun b hb => (pieceOf_mem hlf hne hend hb).obj
  have hlen : (pieces m id lo fin a).length + (if a.Inside lo fin then 1 else 0) = 1 + if a.Around lo fin then 1 else 0 := by
    have hids : (pieces m id lo fin a).map (·.vma_id) = _ := pieces_ids
    have hlen := congrArg List.length hids
    rw [List.length_map] at hlen
    have hin : a.Inside lo fin ↔ a.vma_end ≤ fin ∧ lo ≤ a.vma_start := and_comm
    have haround : a.Around lo fin ↔ fin < a.vma_end ∧ a.vma_start < lo := and_comm
    rw [hlen]
    simp only [hin, haround]
    split
    next h => rw [if_neg (by omega)]; rfl
    next h => split <;> rfl
  by_cases e : a.vma_obj = some o
  · have hcount : (pieces m id lo fin a).countP (fun a => decide (a.vma_obj = some o)) = (pieces m id lo fin a).length := by
      rw [List.countP_eq_length]
      exact fun b hb => decide_eq_true ((hobj b hb).trans e)
    simpa [hcount, e] using hlen
  · have hcount : (pieces m id lo fin a).countP (fun a => decide (a.vma_obj = some o)) = 0 := by
      rw [List.countP_eq_zero]
      exact fun b hb h => e ((hobj b hb).symm.trans (of_decide_eq_true h))
    simp [hcount, e]

theorem flatMap_count (m id : Nat) (hlf : lo ≤ fin) (o : Nat) : ∀ {l : List VmArea},
    (∀ a ∈ l, a.vma_start < a.vma_end ∧ a.vma_end < 2 ^ 32) →
      (l.flatMap (pieces m id lo fin)).countP (fun a => decide (a.vma_obj = some o)) +
          l.countP (fun a => a.Inside lo fin ∧ a.vma_obj = some o) =
        l.countP (fun a => decide (a.vma_obj = some o)) + l.countP (fun a => a.Around lo fin ∧ a.vma_obj = some o)
  | [], _ => rfl
  | a :: l, h => by
    obtain ⟨h1, h2⟩ := h a List.mem_cons_self
    have hone := pieces_count m id hlf h1 h2 o
    have hrest := flatMap_count m id hlf o fun b hb => h b (List.mem_cons_of_mem a hb)
    rw [List.flatMap_cons, List.countP_append, List.countP_cons, List.countP_cons, List.countP_cons]
    simp only [decide_eq_true_eq]
    omega

/-- The references that are not held for pages are those of areas, of shadow objects, and the held ones. -/
theorem Backing.taken (h : Backing C held s) {o : Nat} {ob : Mmobj} (ho : s.objs o = some ob) :
    s.taken o = s.areasOf o + s.shadowsOf o + held o := by
  have := h.counted o ob ho
  simp only [State.refsTo] at this
  unfold State.taken
  omega

/-- No object is made or freed. -/
theorem vmmap_remove_objs {p npages : Nat} (h : Backing C held s) (hheld : ∀ o, 0 ≤ held o) (hlt : lo + npages < 2 ^ 32)
    (hr : vmmap_remove C s p m lo npages = some s') : s'.objs = s.objs ∧ s'.nobjs = s.nobjs := by
  have hI := vmmap_remove_rule (I := fun t => Backing C held t ∧ t.objs = s.objs ∧ t.nobjs = s.nobjs) hlt
    (fun _ hlist heff ht => by
      obtain ⟨e1, e2⟩ := ht.1.turn_objs hheld hlist heff
      exact ⟨ht.1.turn hheld (Nat.le_add_right _ _) hlist heff, e1.trans ht.2.1, e2.trans ht.2.2⟩)
    h.layout ⟨h, rfl, rfl⟩ hr
  exact hI.2.2

/-- The areas with the object `o`, when only the list of map `m` changes. -/
theorem areasOf_setList (hL : Layout C s) {l : List VmArea} (h1 : s'.vmm_list = Function.update s.vmm_list m l)
    (h2 : s'.nmaps = s.nmaps) (hl : s.vmm_list m = [] → l = []) (o : Nat) :
    s'.areasOf o + (s.vmm_list m).countP (fun a => decide (a.vma_obj = some o)) =
      s.areasOf o + l.countP (fun a => decide (a.vma_obj = some o)) := by
  unfold State.areasOf
  rw [h1, h2]
  by_cases hm : m < s.nmaps
  · exact Tally.update l hm
  · rw [Tally.update_ge l (Nat.not_lt.1 hm), hl (hL.unused m (Nat.not_lt.1 hm)), hL.unused m (Nat.not_lt.1 hm)]

/-- `vmmap_remove` returns, and unmaps the range. -/
theorem vmmap_remove_unmaps (lopage npages : Nat) (h : Backing C held s) (hheld : ∀ o, 0 ≤ held o) (hs : Settled s)
    (hhigh : lopage + npages ≤ C.high) (p m : Nat) :
    ∃ s', vmmap_remove C s p m lopage npages = some s' ∧ Unmapped s s' m lopage (lopage + npages) := by
  have hC := C.high_lt
  have hlt : lopage + npages < 2 ^ 32 := by omega
  obtain ⟨s', hr, hK⟩ := vmmap_remove_total (p := p) (m := m) h hheld hs hlt
  refine ⟨s', hr, ?_⟩
  have hsp := vmmap_remove_list hlt h.layout hr
  have hlist : s'.vmm_list = Function.update s.vmm_list m ((s.vmm_list m).flatMap (pieces m s.nareas lopage (lopage + npages))) :=
    congrArg Spaces.vmm_list hsp
  have hself : s'.vmm_list m = (s.vmm_list m).flatMap (pieces m s.nareas lopage (lopage + npages)) := by
    rw [hlist, Function.update_self]
  have hok := h.layout.areas m
  constructor
  case gone =>
    intro v h1 h2
    rw [hself]
    exact lookup_gone hok (Nat.le_add_right _ _) h1 h2
  case kept =>
    intro v hv
    rw [hself]
    exact lookup_kept hok (Nat.le_add_right _ _) hv
  case others =>
    intro m' hm'
    rw [hlist, Function.update_of_ne hm']
  case refs =>
    intro o ob ho
    obtain ⟨hobjs, hnobjs⟩ := vmmap_remove_objs h hheld hlt hr
    have hnmaps : s'.nmaps = s.nmaps := congrArg Spaces.nmaps hsp
    have h1 := h.taken ho
    have h2 := hK.backing.taken (hK.objs o ob ho)
    have h3 := areasOf_setList h.layout hlist hnmaps (fun e => by rw [e]; rfl) o
    have h4 := flatMap_count m s.nareas (Nat.le_add_right lopage npages) o fun a ha =>
      ⟨hok.sorted.nonempty a ha, (hok.high a ha).trans_lt (by omega)⟩
    have h5 : s'.shadowsOf o = s.shadowsOf o := shadowsOf_congr hobjs hnobjs
    omega
  case hung =>
    intro a ha
    obtain ⟨o, ho⟩ := hK.settled m a ha
    obtain ⟨b, hb, hid⟩ := hK.backing.hung.linked m a ha o ho
    exact ⟨o, b, ho, hb, hid⟩

/-- Two pages inside an area of ten are unmapped. -/
theorem split_unmapped : ∃ s s', s.areasOf 2 = 1 ∧ vmmap_remove .stock s 0 0 0x403 2 = some s' ∧ Unmapped s s' 0 0x403 (0x403 + 2) := by
  have h : (exec (refStep .stock .simple) (fun s e => decide (RefOp.Called .stock s e)) oneFile
      [.proc_create, .vmmap_map 0 0 none 0 10 { read := true, write := true } { priv := true, anon := true } 0 .lohi,
        .vmmap_map 0 0 (some 0) 0 4 { read := true } { shared := true } 0 .lohi]).map (fun x => x.1.areasOf 2) = some 1 := by
    decide +kernel
  obtain ⟨⟨s, tr⟩, hex, hareas⟩ := Option.map_eq_some_iff.1 h
  have hrun : Run (refStep .stock .simple) (fun s e => RefOp.Called .stock s e) oneFile s tr :=
    Run.of_exec (fun _ _ => of_decide_eq_true) hex
  have hS := run_sound oneFile_booted hrun
  obtain ⟨held, hO, hB⟩ := hS.held
  obtain ⟨s', hr, hu⟩ := vmmap_remove_unmaps 0x403 2 hB hO.nonneg hS.settled (by decide) 0 0
  exact ⟨s, s', hareas, hr, hu⟩

end Weenix.Vm
