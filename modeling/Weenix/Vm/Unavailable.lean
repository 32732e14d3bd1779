import Weenix.Vm.FileMap
import Weenix.Vm.Protect
import Weenix.Vm.Refs
/-!
# Pages that an object cannot supply (`vm/pagefault.c`, `fs/vnode.c`, `vm/anon.c`)

`vlookuppage` refuses a page behind the end of its file, and `pframe_get` tells
when a page could not be filled. `handle_pagefault` asks neither: it gets the
page of a shared file without `vlookuppage`, as `shadow_lookuppage` does, and
maps what it has whatever the calls return.
-/

namespace Weenix.Vm
open Lib

section
variable (E : Env) (vn_len : Nat → Nat)

/-- The result is `none` for an error. -/
def vlookuppage (s : State) (o vn pagenum : Nat) : Option (State × Option Pframe) :=
  if u32 (vn_len vn) ≤ u32 (pagenum * PAGE_SIZE) then some (s, none)
  else do
    let (s, pf, ok) ← pframe_get E s o pagenum
    some (s, if ok then some pf else none)

def anon_lookuppage (s : State) (o pagenum : Nat) : Option (State × Option Pframe) := do
  let (s, pf, ok) ← pframe_get E s o pagenum
  some (s, if ok then some pf else none)

/-- The `lookuppage` operation of an object that shadows nothing. -/
def lookupBottom (s : State) (o pagenum : Nat) : Option (State × Option Pframe) := do
  let ob ← s.objs o
  match ob.mmo_ops with
  | .anon => anon_lookuppage E s o pagenum
  | .vnode vn => vlookuppage E vn_len s o vn pagenum
  | .shadow => none

/-- The page comes from the object `b` at the end of the chain from `o`. -/
def FromBottom (s : State) (o pn b : Nat) : Prop := chainWalk s pn (chainFuel o) o = some (.inr b)

/-- A shadow object of the chain has the page, or the object at the end looks it up without an error. -/
def Supplies (s : State) (o pn : Nat) : Prop :=
  ∀ b, FromBottom s o pn b → ∃ s' pf, lookupBottom E vn_len s b pn = some (s', some pf)

/-- The path for an object that shadows nothing finds the page. -/
def DirectFinds (s : State) (b pn : Nat) : Prop := ∃ s' pf, pframe_get E s b pn = some (s', pf, true)

/-- The path for a shadow object finds it; an error is not returned. -/
def LookupFinds (s : State) (o pn : Nat) : Prop := ∃ s' pf, shadow_lookuppage E s o pn false = some (s', pf)

/-- A fault on a page that the object cannot supply ends the process and maps nothing, and where the fault is
allowed the two paths to the object at the end of the chain agree about the page. -/
structure FaultReports (C : Config) (s : State) (p vaddr : Nat) (cause : Cause) : Prop where
  killed : ∀ a o, faultArea s p vaddr = some a → a.vma_obj = some o → ¬ Supplies E vn_len s o (fault_pagenum a vaddr) →
    ∃ s' r, handle_pagefault C E s p vaddr cause = some (s', r) ∧ Terminated s p s' r
  agree : ∀ a o b x ob, faultArea s p vaddr = some a → a.vma_prot.grants (accessRight cause) = true → a.vma_obj = some o →
    FromBottom s o (fault_pagenum a vaddr) b → s.objs x = some ob → ob.mmo_bottom_obj = some b →
    FromBottom s x (fault_pagenum a vaddr) b →
    (DirectFinds E s b (fault_pagenum a vaddr) ↔ LookupFinds E s x (fault_pagenum a vaddr))

end

variable {C : Config} {E : Env} {vn_len : Nat → Nat} {s s₀ s' : State} {o b pn p vaddr : Nat} {cause : Cause}

/-- What is looked up without an error is got without one. -/
theorem lookupBottom_direct {pf : Pframe} (h : lookupBottom E vn_len s b pn = some (s', some pf)) : DirectFinds E s b pn := by
  have hget (h : ((pframe_get E s b pn).bind fun x => some (x.1, if x.2.2 then some x.2.1 else none)) = some (s', some pf)) :
      DirectFinds E s b pn := by
    obtain ⟨⟨s₁, pf₁, ok⟩, hg, hr⟩ := Option.bind_eq_some_iff.1 h
    cases ok with
    | false => simp at hr
    | true => exact ⟨s₁, pf₁, hg⟩
  simp only [lookupBottom, bind, Option.bind_eq_some_iff] at h
  obtain ⟨ob, -, h⟩ := h
  split at h
  · exact hget h
  · simp only [vlookuppage] at h
    split at h
    · cases h
    · exact hget h
  · cases h

/-- `shadow_lookuppage` finds what it can get from the end of the chain. -/
theorem DirectFinds.lookup {x : Nat} {ob : Mmobj} (h : DirectFinds E s b pn) (hx : s.objs x = some ob) (hb : ob.mmo_bottom_obj = some b)
    (hfrom : FromBottom s x pn b) : LookupFinds E s x pn := by
  obtain ⟨s', pf, hget⟩ := h
  refine ⟨s', pf, ?_⟩
  unfold FromBottom at hfrom
  simp [shadow_lookuppage, shadow_resolve, hx, hfrom, hb, hget]

/-- A fault is reported exactly when it is not allowed, or the object can supply the page. -/
theorem fault_reports_iff (h0 : Booted s₀) {tr : List (RefOp × Unit)}
    (h : Run (refStep C E) (fun s e => e.Called C s) s₀ s tr) (hp : (s.procs p).isSome = true) :
    FaultReports E vn_len C s p vaddr cause ↔ ∀ a o, faultArea s p vaddr = some a →
      a.vma_prot.grants (accessRight cause) = true → a.vma_obj = some o → Supplies E vn_len s o (fault_pagenum a vaddr) := by
  constructor
  · intro hr a o ha hgrant ho
    by_contra hno
    obtain ⟨s', r, hrun, hterm⟩ := hr.killed a o ha ho hno
    rcases handle_pagefault_cases hrun with ⟨-, hdeny⟩ | ⟨hmapped, -⟩
    · rw [hdeny a ha] at hgrant
      cases hgrant
    · have hkilled := hterm.killed
      rw [hmapped] at hkilled
      cases hkilled
  · intro hsup
    refine ⟨fun a o ha ho hno => ?_, fun a o b x ob ha hgrant ho hfrom hx hbot hfromx => ?_⟩
    · obtain ⟨⟨held, hO, hB⟩, hS, -⟩ : Sound C s := run_sound h0 h
      obtain ⟨pr, hpr⟩ := Option.isSome_iff_exists.1 hp
      obtain ⟨s', r, hrun, -⟩ := handle_pagefault_total (E := E) hB hO.nonneg hS hpr vaddr cause
      refine ⟨s', r, hrun, ?_⟩
      rcases handle_pagefault_cases hrun with ⟨hterm, -⟩ | ⟨-, a', ha', hgrant⟩
      · exact hterm
      · rw [ha] at ha'
        cases ha'
        exact absurd (hsup a o ha hgrant ho) hno
    · obtain ⟨s', pf, hlook⟩ := hsup a o ha hgrant ho b hfrom
      have hdirect := lookupBottom_direct hlook
      exact iff_of_true hdirect (hdirect.lookup hx hbot hfromx)

/-- The file is one page long, and four pages of it are mapped. -/
def mappedFile : List RefOp :=
  [.proc_create, .vmmap_map 0 0 (some 0) 0 4 { read := true } { shared := true } 0 .lohi]

/-- The first page is read, and there. -/
theorem first_page_reported : ∃ s tr, Run (refStep .stock .simple) (fun s e => e.Called .stock s) oneFile s tr ∧
    FaultReports .simple (fun _ => 4096) .stock s 0 0x400000 {} := by
  have hex : (exec (refStep .stock .simple) (fun s e => decide (RefOp.Called .stock s e)) oneFile mappedFile).map (fun r =>
      ((faultArea r.1 0 0x400000).map fun a => (a.vma_obj, fault_pagenum a 0x400000), chainWalk r.1 0 (chainFuel 0) 0,
        (lookupBottom .simple (fun _ => 4096) r.1 0 0).map (·.2.isSome), (r.1.procs 0).isSome)) =
      some (some (some 0, 0), some (.inr 0), some true, true) := by decide +kernel
  simp only [Option.map_eq_some_iff, Prod.mk.injEq, Prod.exists] at hex
  obtain ⟨s, tr, he, ⟨a, ha, hobj, hpage⟩, hwalk, ⟨s', r, hlook, hr⟩, hp⟩ := hex
  have hrun : Run (refStep .stock .simple) (fun s e => RefOp.Called .stock s e) oneFile s tr :=
    Run.of_exec (fun _ _ => of_decide_eq_true) he
  refine ⟨s, tr, hrun, (fault_reports_iff oneFile_booted hrun hp).2 fun a' o ha' _ ho b hfrom => ?_⟩
  rw [ha] at ha'
  cases ha'
  rw [hobj] at ho
  cases ho
  rw [hpage] at hfrom ⊢
  cases hwalk.symm.trans hfrom
  obtain ⟨pf, rfl⟩ := Option.isSome_iff_exists.1 hr
  exact ⟨s', pf, hlook⟩

/-- The second page is behind the end of the file, and is mapped. -/
theorem page_behind_end_mapped : ∃ s tr s', Run (refStep .stock .simple) (fun s e => e.Called .stock s) oneFile s tr ∧
    handle_pagefault .stock .simple s 0 0x401000 {} = some (s', .mapped) ∧
    ¬ FaultReports .simple (fun _ => 4096) .stock s 0 0x401000 {} := by
  have hex : (exec (refStep .stock .simple) (fun s e => decide (RefOp.Called .stock s e)) oneFile mappedFile).map (fun r =>
      ((faultArea r.1 0 0x401000).map fun a => (a.vma_obj, fault_pagenum a 0x401000), chainWalk r.1 1 (chainFuel 0) 0,
        (lookupBottom .simple (fun _ => 4096) r.1 0 1).map (·.2.isSome),
        (handle_pagefault .stock .simple r.1 0 0x401000 {}).map (·.2))) =
      some (some (some 0, 1), some (.inr 0), some false, some .mapped) := by decide +kernel
  simp only [Option.map_eq_some_iff, Prod.mk.injEq, Prod.exists] at hex
  obtain ⟨s, tr, he, ⟨a, ha, hobj, hpage⟩, hwalk, ⟨s₁, r, hlook, hr⟩, s', q, hfault, rfl⟩ := hex
  refine ⟨s, tr, s', Run.of_exec (fun _ _ => of_decide_eq_true) he, hfault, fun hreports => ?_⟩
  have hno : ¬ Supplies .simple (fun _ => 4096) s 0 (fault_pagenum a 0x401000) := by
    intro hsup
    rw [hpage] at hsup
    obtain ⟨s₂, pf, hlook'⟩ := hsup 0 hwalk
    cases hlook.symm.trans hlook'
    cases hr
  obtain ⟨s₂, r₂, hrun, hterm⟩ := hreports.killed a 0 ha hobj hno
  cases hfault.symm.trans hrun
  cases hterm.killed

end Weenix.Vm
