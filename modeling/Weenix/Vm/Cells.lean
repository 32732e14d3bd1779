import Weenix.Vm.FlatMemory
import Weenix.Vm.Memory
/-!
# The flat memory of a state

A chain of shadow objects leads to a page that one of them has, to zeros, or to
a page of a file (`State.cell`). With the areas and the descriptors of every
process this is the state of the flat machine (`State.flat`).
-/

namespace Weenix.Vm

open Lib Lib.Intervals

variable {C : Config} {E : Env} {s s' t : State} {o b x pn k m p v vn : Nat} {a c : VmArea} {pf : Pframe} {pr : Proc} {ob : Mmobj}
  {held : Nat → Int}

/-- Object `o` is the object of the vnode's file. -/
def State.FileOf (s : State) (o vn : Nat) : Prop := ∃ ob, s.objs o = some ob ∧ ob.mmo_ops = .vnode vn

theorem State.FileOf.isFile (h : s.FileOf o vn) : s.IsFile o := by
  obtain ⟨ob, hob, hops⟩ := h
  exact ⟨ob, hob, by simp [Mmobj.isFile, hops]⟩

theorem State.IsFile.fileOf (h : s.IsFile o) : ∃ vn, s.FileOf o vn := by
  obtain ⟨ob, hob, hfile⟩ := h
  unfold Mmobj.isFile at hfile
  split at hfile
  next vn hops => exact ⟨vn, ob, hob, hops⟩
  next => cases hfile

theorem State.FileOf.unique {vn' : Nat} (h : s.FileOf o vn) (h' : s.FileOf o vn') : vn' = vn := by
  obtain ⟨ob, hob, hops⟩ := h
  obtain ⟨ob', hob', hops'⟩ := h'
  rw [hob] at hob'
  cases hob'
  rw [hops] at hops'
  cases hops'
  rfl

theorem State.FileOf.more (h : s.FileOf o vn) (hobjs : ∀ y ob, s.objs y = some ob → s'.objs y = some ob) : s'.FileOf o vn := by
  obtain ⟨ob, hob, hops⟩ := h
  exact ⟨ob, hobjs o ob hob, hops⟩

namespace State

variable (s : State)

/-- What an object that shadows nothing starts with. -/
def origin (o pn : Nat) : Cell :=
  match (s.objs o).map Mmobj.mmo_ops with
  | some (.vnode vn) => .file vn pn
  | _ => .own fun _ => 0

/-- The page an object has for those above it alone. -/
def ownCell (o pn : Nat) : Option Cell := if s.IsFile o then none else (s.resident o pn).map .own

/-- What is behind page `pn` of `o`. -/
def cell (o pn : Nat) : Cell := Layers.read s.parent s.ownCell s.origin o pn

/-- Object, page of it, protection and flags of page `v` of map `m`. -/
def target (m v : Nat) : Option (Option Nat × Nat × Prot × MapFlags) := (vmmap_lookup (s.vmm_list m) v).map (VmArea.target v)

def slots (m v : Nat) : Option Slot :=
  (s.target m v).bind fun x => x.1.map fun o => ⟨s.cell o x.2.1, x.2.2.2.shared, x.2.2.1.write⟩

/-- The vnodes behind the descriptors. -/
def fdTable (pr : Proc) (fd : Nat) : Option Nat := ((pr.p_files fd).bind s.files).map File.f_vnode

/-- What the files hold that can be mapped. `PN_TO_ADDR` is right for page numbers below `2^20`. -/
def fileData (vn pn : Nat) : Page :=
  match (s.vnodes vn).vn_mmap with
  | some (.ok o) => if pn < 2 ^ 20 then s.page o pn else fun _ => 0
  | _ => fun _ => 0

def flatProc (pr : Proc) : FlatProc := ⟨s.slots pr.p_vmmap, s.fdTable pr⟩

def flat : Flat := ⟨fun p => (s.procs p).map s.flatProc, s.fileData⟩

end State

/-! ## Cells -/

theorem ownCell_file (h : s.IsFile o) : s.ownCell o pn = none := if_pos h

theorem ownCell_other (h : ¬ s.IsFile o) : s.ownCell o pn = (s.resident o pn).map .own := if_neg h

theorem Chains.file_root (hc : Chains s) (h : s.IsFile o) : s.parent o = none := by
  obtain ⟨ob, hob, hfile⟩ := h
  rw [Chains.parent_eq hob]
  refine hc.root o ob hob fun hops => ?_
  simp [Mmobj.isFile, hops] at hfile

theorem Chains.cell_file (hc : Chains s) (h : s.FileOf o vn) (pn : Nat) : s.cell o pn = .file vn pn := by
  obtain ⟨ob, hob, hops⟩ := h
  have hfile : s.IsFile o := State.FileOf.isFile ⟨ob, hob, hops⟩
  rw [State.cell, Layers.read_root hc.grounded (ownCell_file hfile) (hc.file_root hfile)]
  simp only [State.origin, hob, Option.map_some, hops]

theorem Chains.cell_own (hc : Chains s) (h : ¬ s.IsFile o) (hf : s.frame? o pn = some pf) : s.cell o pn = .own (s.mem pf.pf_addr) := by
  refine Layers.read_own hc.grounded ?_
  rw [ownCell_other h]
  simp only [State.resident, hf, Option.map_some]

theorem Chains.cell_below (hc : Chains s) (h : s.ownCell o pn = none) (hp : s.parent o = some x) : s.cell o pn = s.cell x pn :=
  Layers.read_parent hc.grounded h hp

/-- A page is its own page, or that of the file at the end of the chain. -/
theorem Chains.cell_cases (hc : Chains s) (o pn : Nat) : s.cell o pn = .own (s.page o pn) ∨
    ∃ b vn, Layers.Reaches s.parent o b ∧ s.FileOf b vn ∧ s.cell o pn = .file vn pn ∧ s.page o pn = s.page b pn := by
  induction o using hc.grounded.induct with
  | _ o ih =>
    by_cases hfile : s.IsFile o
    · obtain ⟨vn, hvn⟩ := hfile.fileOf
      exact .inr ⟨o, vn, .refl, hvn, hc.cell_file hvn pn, rfl⟩
    · cases hf : s.frame? o pn with
      | some pf => exact .inl (by rw [hc.cell_own hfile hf, hc.page_own hf])
      | none =>
        have hown : s.ownCell o pn = none := by
          rw [ownCell_other hfile]
          simp only [State.resident, hf, Option.map_none]
        cases hpar : s.parent o with
        | none =>
          refine .inl ?_
          rw [State.cell, Layers.read_root hc.grounded hown hpar, hc.page_root hf hpar]
          have hother (vn : Nat) : (s.objs o).map (·.mmo_ops) ≠ some (.vnode vn) := fun hops => by
            obtain ⟨ob, hob, hvn⟩ := Option.map_eq_some_iff.1 hops
            exact hfile ⟨ob, hob, by simp [Mmobj.isFile, hvn]⟩
          cases hops : (s.objs o).map (·.mmo_ops) with
          | none => simp only [State.origin, State.source, hops]
          | some ops =>
            cases ops with
            | vnode vn => exact absurd hops (hother vn)
            | anon => simp only [State.origin, State.source, hops]
            | shadow => simp only [State.origin, State.source, hops]
        | some o' =>
          rw [hc.cell_below hown hpar, hc.page_below hf hpar]
          rcases ih o' hpar with h | ⟨b, vn, hb, hvn, hcell, hpage⟩
          · exact .inl h
          · exact .inr ⟨b, vn, .head hpar hb, hvn, hcell, hpage⟩

/-- A chain with the same objects and the same pages of shadow and anonymous objects. -/
theorem cell_congr (hc : Chains s) (hc' : Chains s') (h : ∀ y, Layers.Reaches s.parent o y → s'.objs y = s.objs y ∧
    (¬ s.IsFile y → s'.resident y pn = s.resident y pn)) : s'.cell o pn = s.cell o pn := by
  refine Layers.read_congr hc.grounded hc'.grounded o fun y hy => ?_
  obtain ⟨hobj, hres⟩ := h y hy
  have hfile : s'.IsFile y ↔ s.IsFile y := by simp only [State.IsFile, hobj]
  refine ⟨by simp only [State.parent, hobj], ?_, by simp only [State.origin, hobj]⟩
  by_cases hy : s.IsFile y
  · rw [ownCell_file hy, ownCell_file (hfile.2 hy)]
  · rw [ownCell_other hy, ownCell_other fun h => hy (hfile.1 h), hres hy]

theorem resident_of_frame? {y : Nat} (hf : s'.frame? y pn = s.frame? y pn) (hmem : s'.mem = s.mem) :
    s'.resident y pn = s.resident y pn := by
  simp only [State.resident, hf, hmem]

/-- New frames at the ends of the chains, filled with what is there, change no cell. -/
theorem Grown.cell (h : Grown s s') (hfill : Filled s s') (hc : Chains s) (hf : Frames s) (hf' : Frames s')
    (hnew : ∀ q ∈ s'.pframes, q ∈ s.pframes ∨ s.parent q.pf_obj = none ∨
      ¬ (Layers.Reaches s.parent o q.pf_obj ∧ q.pf_pagenum = pn)) : s'.cell o pn = s.cell o pn := by
  have hfile (y : Nat) : s'.IsFile y ↔ s.IsFile y := by simp only [State.IsFile, h.objs]
  have horigin : s'.origin = s.origin := by
    funext y k
    simp only [State.origin, h.objs]
  unfold State.cell
  rw [parent_congr h.objs, horigin]
  refine Layers.read_extend hc.grounded fun y hy => ?_
  by_cases hyf : s.IsFile y
  · exact .inl (by rw [ownCell_file hyf, ownCell_file ((hfile y).2 hyf)])
  · rw [ownCell_other hyf, ownCell_other fun hy => hyf ((hfile y).1 hy)]
    rcases h.frame? hf hf' y pn with e | ⟨hnone, q, hq, hqs, rfl, rfl⟩
    · refine .inl ?_
      simp only [State.resident, e]
      cases hfr : s.frame? y pn with
      | none => rfl
      | some q => simp only [Option.map_some, h.mem q ((frame?_eq_some hf).1 hfr).1]
    · -- a new page of an anonymous object
      have hroot : s.parent q.pf_obj = none := by
        rcases hnew q hq with h1 | h1 | h1
        · exact absurd h1 hqs
        · exact h1
        · exact absurd ⟨hy, rfl⟩ h1
      refine .inr ⟨by simp only [State.resident, hnone, Option.map_none], ?_⟩
      rw [State.resident, (frame?_eq_some hf').2 ⟨hq, rfl, rfl⟩]
      simp only [Option.map_some, (hfill q hq).resolve_left hqs]
      congr 1
      rcases hc.cell_cases q.pf_obj q.pf_pagenum with e | ⟨b, vn, hb, hvn, -⟩
      · exact e.symm
      · rw [Layers.reaches_root hroot hb] at hvn
        exact absurd hvn.isFile hyf

/-- A frame of a shadow object has its page from then on. -/
theorem Got.cell (h : Got s o pn s' pf) (hfill : Filled s s') (hc : Chains s) (hf : Frames s) (ho : ¬ s.IsFile o) :
    s'.cell o pn = .own (s.page o pn) := by
  have hc' := h.grown.chains hc
  have ho' : ¬ s'.IsFile o := by simpa only [State.IsFile, h.grown.objs] using ho
  rw [hc'.cell_own ho' h.frame, ← hc'.page_own h.frame, h.grown.page_filled hfill hc hf h.frames]

/-- Writing in a frame of `o` changes the cells of its page alone, and those of no page where `o` is a file. -/
theorem setMem_cell (hc : Chains s) (hf : Frames s) (hm : pf ∈ s.pframes) (y : Page)
    (hout : s.IsFile pf.pf_obj ∨ ¬ (Layers.Reaches s.parent o pf.pf_obj ∧ pf.pf_pagenum = pn)) :
    (s.setMem pf.pf_addr y).cell o pn = s.cell o pn := by
  refine cell_congr (s := s) hc (hc.congr rfl rfl) fun z hz => ⟨rfl, fun hzf => ?_⟩
  show (s.frame? z pn).map _ = (s.frame? z pn).map _
  cases hfr : s.frame? z pn with
  | none => rfl
  | some q =>
    obtain ⟨hq, rfl, rfl⟩ := (frame?_eq_some hf).1 hfr
    have hne : q.pf_addr ≠ pf.pf_addr := fun e => by
      cases hf.addr_inj hq hm e
      rcases hout with h | h
      · exact hzf h
      · exact h ⟨hz, rfl⟩
    simp only [Option.map_some, State.setMem, Function.update_of_ne hne]

end Weenix.Vm
