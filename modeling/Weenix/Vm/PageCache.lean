import Weenix.Basic
import Mathlib.Data.List.Nodup
import Mathlib.Logic.Function.Basic
/-!
# The bookkeeping of the page cache (`mm/pframe.c`)

The lists that page frames are on and the counters beside them, each a field of
its own: `alloc_list` and `pinned_list`, the hash chains, and the `mmo_respages`
of the objects. A frame and an object are named by their addresses. To remove a
link is to take the frame off the list it is on.

`Runs` are sequences of operations whose assertions hold. An operation of the
object that is called on the way (`fillpage`, `dirtypage`, `cleanpage`, `put`)
runs a sequence of its own.
-/

namespace Weenix.Vm.PageCache

structure Cache where
  /-- `none` is `NULL`. -/
  pf_obj : Nat → Option Nat
  pf_pagenum : Nat → Nat
  pf_busy : Nat → Bool
  pf_dirty : Nat → Bool
  pf_pincount : Nat → Nat
  alloc_list : List Nat
  nallocated : Int
  pinned_list : List Nat
  npinned : Int
  pframe_hash : Nat → List Nat
  mmo_respages : Nat → List Nat
  mmo_nrespages : Nat → Int

/-- After `pframe_init`. -/
def pframe_init : Cache where
  pf_obj _ := none
  pf_pagenum _ := 0
  pf_busy _ := false
  pf_dirty _ := false
  pf_pincount _ := 0
  alloc_list := []
  nallocated := 0
  pinned_list := []
  npinned := 0
  pframe_hash _ := []
  mmo_respages _ := []
  mmo_nrespages _ := 0

def hash_page (PF_HASH_SIZE o pagenum : Nat) : Nat := u32 (o + pagenum) % PF_HASH_SIZE

namespace Cache

variable (c : Cache) (pf : Nat)

/-- `list_remove(&pf->pf_link)`. -/
def removeLink : Cache := { c with alloc_list := c.alloc_list.erase pf, pinned_list := c.pinned_list.erase pf }

/-- `list_remove(&pf->pf_hlink)`. -/
def removeHlink : Cache := { c with pframe_hash := fun i => (c.pframe_hash i).erase pf }

/-- `list_remove(&pf->pf_olink)`. -/
def removeOlink : Cache := { c with mmo_respages := fun o => (c.mmo_respages o).erase pf }

def insertHlink (i : Nat) : Cache := { c with pframe_hash := Function.update c.pframe_hash i (pf :: c.pframe_hash i) }

def insertOlink (o : Nat) : Cache := { c with mmo_respages := Function.update c.mmo_respages o (pf :: c.mmo_respages o) }

def setObj (o : Option Nat) : Cache := { c with pf_obj := Function.update c.pf_obj pf o }

def setPagenum (pn : Nat) : Cache := { c with pf_pagenum := Function.update c.pf_pagenum pf pn }

def setBusy (b : Bool) : Cache := { c with pf_busy := Function.update c.pf_busy pf b }

def setDirty (b : Bool) : Cache := { c with pf_dirty := Function.update c.pf_dirty pf b }

def setPin (n : Nat) : Cache := { c with pf_pincount := Function.update c.pf_pincount pf n }

theorem setPin_self (n : Nat) : (c.setPin pf n).pf_pincount pf = n := Function.update_self ..

theorem setPin_ne {q : Nat} (n : Nat) (h : q ≠ pf) : (c.setPin pf n).pf_pincount q = c.pf_pincount q :=
  Function.update_of_ne h ..

/-- `mmo_nrespages` changes by `n`. -/
def addNres (o : Nat) (n : Int) : Cache := { c with mmo_nrespages := Function.update c.mmo_nrespages o (c.mmo_nrespages o + n) }

end Cache

section
variable (size : Nat) (c : Cache)

/-- The frame with this identity in its hash chain. -/
def inChain (o pagenum : Nat) : Option Nat :=
  (c.pframe_hash (hash_page size o pagenum)).find? fun pf => decide (c.pf_obj pf = some o ∧ c.pf_pagenum pf = pagenum)

def pframe_get_resident (o pagenum : Nat) : Cache × Option Nat :=
  match inChain size c o pagenum with
  | none => (c, none)
  | some pf =>
    if c.pf_pincount pf = 0 then
      let c := c.removeLink pf
      ({ c with alloc_list := c.alloc_list ++ [pf] }, some pf)
    else (c, some pf)

/-- The new frame has the address `pf`. -/
def pframe_alloc (o pagenum pf : Nat) : Cache :=
  let c := { c with nallocated := c.nallocated + 1, alloc_list := c.alloc_list ++ [pf] }
  let c := ((c.setObj pf (some o)).setPagenum pf pagenum)
  -- `pf_flags` is 0
  let c := ((c.setBusy pf false).setDirty pf false).setPin pf 0
  ((c.insertHlink pf (hash_page size o pagenum)).addNres o 1).insertOlink pf o

def pframe_pin (pf : Nat) : Cache :=
  if pf ∈ c.alloc_list then
    let c := { c with nallocated := c.nallocated - 1, npinned := c.npinned + 1 }.removeLink pf
    { c with pinned_list := c.pinned_list ++ [pf] }.setPin pf (c.pf_pincount pf + 1)
  else if pf ∈ c.pinned_list then c.setPin pf (c.pf_pincount pf + 1)
  else c

def pframe_unpin (pf : Nat) : Cache :=
  if pf ∈ c.pinned_list then
    let c := c.setPin pf (c.pf_pincount pf - 1)
    if c.pf_pincount pf = 0 then
      let c := c.removeLink pf
      { c with alloc_list := c.alloc_list ++ [pf], npinned := c.npinned - 1, nallocated := c.nallocated + 1 }
    else c
  else c

/-- `pframe_free` of a page of `o`, up to the `put` of `o`. -/
def pframe_release (o pf : Nat) : Cache :=
  let c := (c.removeHlink pf).setObj pf none
  let c := { c with nallocated := c.nallocated - 1 }.removeLink pf
  (c.addNres o (-1)).removeOlink pf

/-- `pframe_migrate` from `src` to `dest`, up to the `put` of `src`. -/
def migrate_out (pf src dest : Nat) : Cache :=
  (((c.setObj pf (some dest)).removeHlink pf).removeOlink pf).addNres src (-1)

/-- The rest of it. -/
def migrate_in (pf dest : Nat) : Cache :=
  ((c.insertHlink pf (hash_page size dest (c.pf_pagenum pf))).insertOlink pf dest).addNres dest 1

end

inductive Op
  | pframe_get (o pagenum : Nat)
  | pframe_pin (pf : Nat)
  | pframe_unpin (pf : Nat)
  | pframe_dirty (pf : Nat)
  | pframe_clean (pf : Nat)
  | pframe_free (pf : Nat)
  | pframe_migrate (pf dest : Nat)
  deriving DecidableEq

/-- The frame is allocated. -/
def Live (c : Cache) (pf : Nat) : Prop := pf ∈ c.alloc_list ∨ pf ∈ c.pinned_list

/-- The frame is a resident page of an object. -/
def Resident (c : Cache) (pf : Nat) : Prop := ∃ o, pf ∈ c.mmo_respages o

/-- None of the frames has this identity. -/
def Absent (c : Cache) (T : List Nat) (o pagenum : Nat) : Prop :=
  ∀ q ∈ T, ¬ (c.pf_obj q = some o ∧ c.pf_pagenum q = pagenum)

/-- Sequences of operations on resident pages. The frames `T` are on their way
from one object to another; no operation asks for these pages. -/
inductive Runs (size : Nat) : List Nat → List Op → Cache → Cache → Prop
  | nil {T c} : Runs size T [] c c
  | get_resident {T ops c c₁ c₂ o pn pf} : Runs size T ops c c₁ → Absent c₁ T o pn →
      pframe_get_resident size c₁ o pn = (c₂, some pf) → c₂.pf_busy pf = false → Runs size T (ops ++ [.pframe_get o pn]) c c₂
  /-- `fillpage` runs `fill`. -/
  | get_new {T ops fill c c₁ c₂ c₃ o pn pf} : Runs size T ops c c₁ → Absent c₁ T o pn →
      pframe_get_resident size c₁ o pn = (c₂, none) → ¬ Live c₂ pf →
      Runs size T fill ((pframe_alloc size c₂ o pn pf).setBusy pf true) c₃ →
      Runs size T (ops ++ [.pframe_get o pn]) c (c₃.setBusy pf false)
  | pin {T ops c c₁} (pf) : Runs size T ops c c₁ → Runs size T (ops ++ [.pframe_pin pf]) c (pframe_pin c₁ pf)
  | unpin {T ops c c₁} (pf) : Runs size T ops c c₁ → Runs size T (ops ++ [.pframe_unpin pf]) c (pframe_unpin c₁ pf)
  /-- `dirtypage` runs `sub`, and returns 0 or an error. -/
  | dirty {T ops sub c c₁ c₂ pf} (ok : Bool) : Runs size T ops c c₁ → Resident c₁ pf → c₁.pf_busy pf = false →
      Runs size T sub (c₁.setBusy pf true) c₂ →
      Runs size T (ops ++ [.pframe_dirty pf]) c ((if ok then c₂.setDirty pf true else c₂).setBusy pf false)
  /-- `cleanpage` runs `sub`. -/
  | clean {T ops sub c c₁ c₂ pf} (ok : Bool) : Runs size T ops c c₁ → Resident c₁ pf →
      c₁.pf_dirty pf = true → c₁.pf_pincount pf = 0 → Runs size T sub ((c₁.setDirty pf false).setBusy pf true) c₂ →
      Runs size T (ops ++ [.pframe_clean pf]) c ((if ok then c₂ else c₂.setDirty pf true).setBusy pf false)
  /-- `put` runs `sub`. -/
  | free {T ops sub c c₁ c₂ pf o} : Runs size T ops c c₁ → Resident c₁ pf →
      c₁.pf_pincount pf = 0 → c₁.pf_obj pf = some o → c₁.pf_busy pf = false → Runs size T sub (pframe_release c₁ o pf) c₂ →
      Runs size T (ops ++ [.pframe_free pf]) c c₂
  /-- `dest` has the page. -/
  | migrate_resident {T ops c c₁ c₂ c₃ pf dest q} : Runs size T ops c c₁ → Resident c₁ pf → c₁.pf_busy pf = false →
      Absent c₁ T dest (c₁.pf_pagenum pf) → pframe_get_resident size c₁ dest (c₁.pf_pagenum pf) = (c₂, some q) →
      Runs size T [.pframe_unpin pf, .pframe_clean pf, .pframe_free pf] c₂ c₃ →
      Runs size T (ops ++ [.pframe_migrate pf dest]) c c₃
  /-- The page is moved, and `put` runs `sub` meanwhile. -/
  | migrate_new {T ops sub c c₁ c₂ c₃ pf dest src} : Runs size T ops c c₁ → Resident c₁ pf → c₁.pf_busy pf = false →
      Absent c₁ T dest (c₁.pf_pagenum pf) → pframe_get_resident size c₁ dest (c₁.pf_pagenum pf) = (c₂, none) →
      c₂.pf_obj pf = some src → Runs size (pf :: T) sub (migrate_out c₂ pf src dest) c₃ →
      Runs size T (ops ++ [.pframe_migrate pf dest]) c (migrate_in size c₃ pf dest)

/-! ## The invariant -/

/-- The two paging lists. -/
structure Lists (c : Cache) : Prop where
  alloc : c.alloc_list.Nodup
  pinned : c.pinned_list.Nodup
  apart : ∀ pf ∈ c.alloc_list, pf ∉ c.pinned_list
  nallocated : c.nallocated = c.alloc_list.length
  npinned : c.npinned = c.pinned_list.length
  zero : ∀ pf ∈ c.alloc_list, c.pf_pincount pf = 0
  pos : ∀ pf ∈ c.pinned_list, 0 < c.pf_pincount pf

/-- The frames of the objects, apart from those on their way. -/
structure Tables (size : Nat) (T : List Nat) (c : Cache) : Prop where
  owned : ∀ pf, Live c pf → (c.pf_obj pf).isSome = true
  unique : ∀ pf q, Live c pf → Live c q → c.pf_obj pf = c.pf_obj q → c.pf_pagenum pf = c.pf_pagenum q → pf = q
  transit : ∀ pf ∈ T, Live c pf
  respages : ∀ o, (c.mmo_respages o).Nodup
  resident : ∀ o pf, pf ∈ c.mmo_respages o ↔ (Live c pf ∧ pf ∉ T) ∧ c.pf_obj pf = some o
  nrespages : ∀ o, c.mmo_nrespages o = (c.mmo_respages o).length
  chains : ∀ i, (c.pframe_hash i).Nodup
  hashed : ∀ i pf, pf ∈ c.pframe_hash i ↔
    (Live c pf ∧ pf ∉ T) ∧ ∃ o, c.pf_obj pf = some o ∧ hash_page size o (c.pf_pagenum pf) = i

variable {size o pn pf q src dest : Nat} {T : List Nat} {c c' : Cache}

/-! ### The paging lists -/

/-- The same frames are allocated, and nothing else has changed. -/
theorem Tables.congr (h : Tables size T c) (hlive : ∀ q, Live c' q ↔ Live c q) (hobj : c'.pf_obj = c.pf_obj)
    (hpn : c'.pf_pagenum = c.pf_pagenum) (hres : c'.mmo_respages = c.mmo_respages) (hn : c'.mmo_nrespages = c.mmo_nrespages)
    (hhash : c'.pframe_hash = c.pframe_hash) : Tables size T c' := by
  obtain ⟨h1, h2, h3, h4, h5, h6, h7, h8⟩ := h
  constructor
  · simpa only [hlive, hobj] using h1
  · simpa only [hlive, hobj, hpn] using h2
  · simpa only [hlive] using h3
  · simpa only [hres] using h4
  · simpa only [hlive, hobj, hres] using h5
  · simpa only [hres, hn] using h6
  · simpa only [hhash] using h7
  · simpa only [hlive, hobj, hpn, hhash] using h8

theorem Lists.alloc_of_zero (h : Lists c) (hlive : Live c pf) (h0 : c.pf_pincount pf = 0) : pf ∈ c.alloc_list := by
  rcases hlive with hm | hm
  · exact hm
  · have := h.pos pf hm
    omega

theorem Lists.not_pinned (h : Lists c) (hm : pf ∈ c.alloc_list) : c.pinned_list.erase pf = c.pinned_list :=
  List.erase_of_not_mem (h.apart pf hm)

/-- A frame goes to the back of `alloc_list`. -/
theorem Lists.touch (h : Lists c) (hm : pf ∈ c.alloc_list) :
    Lists { c.removeLink pf with alloc_list := (c.removeLink pf).alloc_list ++ [pf] } ∧
      ∀ q, Live { c.removeLink pf with alloc_list := (c.removeLink pf).alloc_list ++ [pf] } q ↔ Live c q := by
  have hperm : (c.alloc_list.erase pf ++ [pf]).Perm c.alloc_list :=
    (List.perm_append_singleton pf _).trans (List.perm_cons_erase hm).symm
  have hp := h.not_pinned hm
  constructor
  · constructor
    · exact hperm.nodup_iff.2 h.alloc
    · simpa only [Cache.removeLink, hp] using h.pinned
    · simpa only [Cache.removeLink, hp, hperm.mem_iff] using h.apart
    · simpa only [Cache.removeLink, hperm.length_eq] using h.nallocated
    · simpa only [Cache.removeLink, hp] using h.npinned
    · simpa only [Cache.removeLink, hperm.mem_iff] using h.zero
    · simpa only [Cache.removeLink, hp] using h.pos
  · intro q
    simp only [Live, Cache.removeLink, hp, hperm.mem_iff]

/-- The pin count of a pinned frame changes. -/
theorem Lists.repin (h : Lists c) (hm : pf ∈ c.pinned_list) {n : Nat} (hn : 0 < n) : Lists (c.setPin pf n) := by
  refine ⟨h.alloc, h.pinned, h.apart, h.nallocated, h.npinned, fun q hq => ?_, fun q hq => ?_⟩
  · have e : q ≠ pf := fun e => h.apart q hq (e ▸ hm)
    rw [Cache.setPin_ne _ _ _ e]
    exact h.zero q hq
  · by_cases e : q = pf
    · rwa [e, Cache.setPin_self]
    · rw [Cache.setPin_ne _ _ _ e]
      exact h.pos q hq

/-- A frame moves from `alloc_list` to the back of `pinned_list`. -/
theorem Lists.pin (h : Lists c) (pf : Nat) : Lists (pframe_pin c pf) ∧ ∀ q, Live (pframe_pin c pf) q ↔ Live c q := by
  unfold pframe_pin
  by_cases hm : pf ∈ c.alloc_list
  · rw [if_pos hm]
    have hp := h.not_pinned hm
    have hpos : 0 < c.alloc_list.length := List.length_pos_of_mem hm
    have hmem (q : Nat) : q ∈ c.alloc_list.erase pf ↔ q ≠ pf ∧ q ∈ c.alloc_list := h.alloc.mem_erase_iff
    constructor
    · constructor
      · exact h.alloc.erase pf
      · simp only [Cache.setPin, Cache.removeLink, hp]
        exact List.nodup_append.2 ⟨h.pinned, List.nodup_singleton pf, fun a ha b hb e => h.apart pf hm (by simp_all)⟩
      · simp only [Cache.setPin, Cache.removeLink, hp, hmem, List.mem_append, List.mem_singleton, not_or]
        exact fun q hq => ⟨h.apart q hq.2, hq.1⟩
      · simp only [Cache.setPin, Cache.removeLink, List.length_erase_of_mem hm, h.nallocated]
        omega
      · simp only [Cache.setPin, Cache.removeLink, hp, List.length_append, List.length_singleton, h.npinned]
        omega
      · simp only [Cache.setPin, Cache.removeLink, hmem]
        intro q hq
        rw [Function.update_of_ne hq.1]
        exact h.zero q hq.2
      · simp only [Cache.setPin, Cache.removeLink, hp, List.mem_append, List.mem_singleton]
        intro q hq
        by_cases e : q = pf
        · rw [e, Function.update_self]
          omega
        · rw [Function.update_of_ne e]
          exact h.pos q (hq.resolve_right e)
    · intro q
      simp only [Live, Cache.setPin, Cache.removeLink, hp, hmem, List.mem_append, List.mem_singleton]
      by_cases e : q = pf
      · simp [e, hm]
      · simp [e]
  · rw [if_neg hm]
    split
    next hpm => exact ⟨h.repin hpm (Nat.succ_pos _), fun q => Iff.rfl⟩
    next => exact ⟨h, fun q => Iff.rfl⟩

/-- A frame moves back when its last pin goes. -/
theorem Lists.unpin (h : Lists c) (pf : Nat) : Lists (pframe_unpin c pf) ∧ ∀ q, Live (pframe_unpin c pf) q ↔ Live c q := by
  unfold pframe_unpin
  by_cases hm : pf ∈ c.pinned_list
  case neg => rw [if_neg hm]; exact ⟨h, fun q => Iff.rfl⟩
  rw [if_pos hm]
  have hna : pf ∉ c.alloc_list := fun ha => h.apart pf ha hm
  have ha : c.alloc_list.erase pf = c.alloc_list := List.erase_of_not_mem hna
  have hpos : 0 < c.pinned_list.length := List.length_pos_of_mem hm
  have hmem (q : Nat) : q ∈ c.pinned_list.erase pf ↔ q ≠ pf ∧ q ∈ c.pinned_list := h.pinned.mem_erase_iff
  have hpin := h.pos pf hm
  by_cases h0 : c.pf_pincount pf - 1 = 0
  · simp only [Cache.setPin_self, h0, if_true]
    constructor
    · constructor
      · simp only [Cache.setPin, Cache.removeLink, ha]
        exact List.nodup_append.2 ⟨h.alloc, List.nodup_singleton pf, fun a ha b hb e => hna (by simp_all)⟩
      · exact h.pinned.erase pf
      · simp only [Cache.setPin, Cache.removeLink, ha, hmem, List.mem_append, List.mem_singleton]
        rintro q (hq | rfl) ⟨hne, hp⟩
        · exact h.apart q hq hp
        · exact hne rfl
      · simp only [Cache.setPin, Cache.removeLink, ha, List.length_append, List.length_singleton, h.nallocated]
        omega
      · simp only [Cache.setPin, Cache.removeLink, List.length_erase_of_mem hm, h.npinned]
        omega
      · simp only [Cache.setPin, Cache.removeLink, ha, List.mem_append, List.mem_singleton]
        intro q hq
        by_cases e : q = pf
        · rw [e, Function.update_self]
        · rw [Function.update_of_ne e]
          exact h.zero q (hq.resolve_right e)
      · simp only [Cache.setPin, Cache.removeLink, hmem]
        intro q hq
        rw [Function.update_of_ne hq.1]
        exact h.pos q hq.2
    · intro q
      simp only [Live, Cache.setPin, Cache.removeLink, ha, hmem, List.mem_append, List.mem_singleton]
      by_cases e : q = pf
      · simp [e, hm]
      · simp [e]
  · simp only [Cache.setPin_self, h0, if_false]
    exact ⟨h.repin hm (Nat.pos_of_ne_zero h0), fun q => Iff.rfl⟩

theorem Lists.alloc_frame (h : Lists c) (size o pn : Nat) (hnew : ¬ Live c pf) : Lists (pframe_alloc size c o pn pf) ∧
    ∀ q, Live (pframe_alloc size c o pn pf) q ↔ Live c q ∨ q = pf := by
  have hna : pf ∉ c.alloc_list := fun hm => hnew (.inl hm)
  have hnp : pf ∉ c.pinned_list := fun hm => hnew (.inr hm)
  constructor
  · constructor
    · exact List.nodup_append.2 ⟨h.alloc, List.nodup_singleton pf, fun a ha b hb e => hna (by simp_all)⟩
    · exact h.pinned
    · intro q hq
      rcases List.mem_append.1 hq with hq | hq
      · exact h.apart q hq
      · rw [List.mem_singleton.1 hq]
        exact hnp
    · change c.nallocated + 1 = ((c.alloc_list ++ [pf]).length : Int)
      rw [h.nallocated, List.length_append, List.length_singleton]
      omega
    · exact h.npinned
    · intro q hq
      change Function.update c.pf_pincount pf 0 q = 0
      by_cases e : q = pf
      · rw [e, Function.update_self]
      · rw [Function.update_of_ne e]
        exact h.zero q ((List.mem_append.1 hq).resolve_right fun hq => e (List.mem_singleton.1 hq))
    · intro q hq
      have e : q ≠ pf := fun e => hnp (e ▸ hq)
      change 0 < Function.update c.pf_pincount pf 0 q
      rw [Function.update_of_ne e]
      exact h.pos q hq
  · intro q
    change q ∈ c.alloc_list ++ [pf] ∨ q ∈ c.pinned_list ↔ _
    simp only [Live, List.mem_append, List.mem_singleton]
    tauto

theorem Lists.release (h : Lists c) (hlive : Live c pf) (h0 : c.pf_pincount pf = 0) : Lists (pframe_release c o pf) ∧
    ∀ q, Live (pframe_release c o pf) q ↔ Live c q ∧ q ≠ pf := by
  have hm := h.alloc_of_zero hlive h0
  have hp := h.not_pinned hm
  have hpos : 0 < c.alloc_list.length := List.length_pos_of_mem hm
  have hmem (q : Nat) : q ∈ c.alloc_list.erase pf ↔ q ≠ pf ∧ q ∈ c.alloc_list := h.alloc.mem_erase_iff
  constructor
  · constructor
    · exact h.alloc.erase pf
    · exact h.pinned.erase pf
    · intro q hq
      change q ∉ c.pinned_list.erase pf
      rw [hp]
      exact h.apart q ((hmem q).1 hq).2
    · change c.nallocated - 1 = ((c.alloc_list.erase pf).length : Int)
      rw [h.nallocated, List.length_erase_of_mem hm]
      omega
    · change c.npinned = ((c.pinned_list.erase pf).length : Int)
      rw [hp]
      exact h.npinned
    · exact fun q hq => h.zero q ((hmem q).1 hq).2
    · exact fun q hq => h.pos q (List.mem_of_mem_erase hq)
  · intro q
    change q ∈ c.alloc_list.erase pf ∨ q ∈ c.pinned_list.erase pf ↔ _
    rw [hp, hmem, Live]
    constructor
    · rintro (⟨hne, hq⟩ | hq)
      · exact ⟨.inl hq, hne⟩
      · exact ⟨.inr hq, fun e => h.apart pf hm (e ▸ hq)⟩
    · rintro ⟨hq | hq, hne⟩
      · exact .inl ⟨hne, hq⟩
      · exact .inr hq

/-! ### Chains and resident pages -/

theorem Tables.found (h : Tables size T c) (hf : inChain size c o pn = some pf) :
    Live c pf ∧ pf ∉ T ∧ c.pf_obj pf = some o ∧ c.pf_pagenum pf = pn := by
  have hid := List.find?_some hf
  simp only [decide_eq_true_eq] at hid
  have hm := ((h.hashed _ _).1 (List.mem_of_find?_eq_some hf)).1
  exact ⟨hm.1, hm.2, hid⟩

theorem Tables.missing (h : Tables size T c) (hf : inChain size c o pn = none) (habs : Absent c T o pn)
    (hq : Live c q) (ho : c.pf_obj q = some o) : c.pf_pagenum q ≠ pn := by
  intro hpn
  by_cases hT : q ∈ T
  · exact habs q hT ⟨ho, hpn⟩
  · have hm : q ∈ c.pframe_hash (hash_page size o pn) := (h.hashed _ q).2 ⟨⟨hq, hT⟩, o, ho, by rw [hpn]⟩
    have := List.find?_eq_none.1 hf q hm
    simp [ho, hpn] at this

theorem Tables.resident_live (h : Tables size T c) (hr : Resident c pf) : Live c pf ∧ pf ∉ T ∧ ∃ o, c.pf_obj pf = some o := by
  obtain ⟨o, hm⟩ := hr
  obtain ⟨⟨hl, hT⟩, ho⟩ := (h.resident o pf).1 hm
  exact ⟨hl, hT, o, ho⟩

theorem mem_cons_update {f : Nat → List Nat} {i j : Nat} : q ∈ Function.update f i (pf :: f i) j ↔ (j = i ∧ q = pf) ∨ q ∈ f j := by
  by_cases e : j = i
  · subst e
    simp
  · simp [e]

theorem nodup_cons_update {f : Nat → List Nat} {i : Nat} (hn : pf ∉ f i) (h : ∀ j, (f j).Nodup) (j : Nat) :
    (Function.update f i (pf :: f i) j).Nodup := by
  by_cases e : j = i
  · subst e
    rw [Function.update_self]
    exact List.nodup_cons.2 ⟨hn, h j⟩
  · rw [Function.update_of_ne e]
    exact h j

/-- With one frame more, whose identity is new. -/
theorem Tables.unique_with {r : Nat} (h : Tables size T c) (hf : inChain size c o pn = none) (habs : Absent c T o pn)
    (hq : Live c q ∨ q = pf) (hr : Live c r ∨ r = pf)
    (ho : Function.update c.pf_obj pf (some o) q = Function.update c.pf_obj pf (some o) r)
    (hp : Function.update c.pf_pagenum pf pn q = Function.update c.pf_pagenum pf pn r) : q = r := by
  by_cases e : q = pf
  · subst e
    by_contra e'
    have hr' : Live c r := hr.resolve_right (Ne.symm e')
    rw [Function.update_self, Function.update_of_ne (Ne.symm e')] at ho hp
    exact h.missing hf habs hr' ho.symm hp.symm
  · have hq' : Live c q := hq.resolve_right e
    rw [Function.update_of_ne e] at ho hp
    by_cases e' : r = pf
    · rw [e', Function.update_self] at ho hp
      exact absurd hp (h.missing hf habs hq' ho)
    · rw [Function.update_of_ne e'] at ho hp
      exact h.unique q r hq' (hr.resolve_right e') ho hp

/-- The counts when a resident page of `o` goes. -/
theorem Tables.count_erase (h : Tables size T c) (hlive : Live c pf) (hT : pf ∉ T) (ho : c.pf_obj pf = some o) (o' : Nat) :
    Function.update c.mmo_nrespages o (c.mmo_nrespages o + -1) o' = ((c.mmo_respages o').erase pf).length := by
  by_cases e : o' = o
  · subst e
    have hm : pf ∈ c.mmo_respages o' := (h.resident o' pf).2 ⟨⟨hlive, hT⟩, ho⟩
    have hpos := List.length_pos_of_mem hm
    rw [Function.update_self, h.nrespages, List.length_erase_of_mem hm]
    omega
  · have hm : pf ∉ c.mmo_respages o' := by
      intro hm
      have := ((h.resident o' pf).1 hm).2
      rw [ho] at this
      exact e (Option.some.inj this).symm
    rw [Function.update_of_ne e, List.erase_of_not_mem hm]
    exact h.nrespages o'

/-- A new frame of `o`, which has no frame of this identity. -/
theorem Tables.alloc_frame (h : Tables size T c) (hl : Lists c) (hf : inChain size c o pn = none) (habs : Absent c T o pn)
    (hnew : ¬ Live c pf) : Tables size T (pframe_alloc size c o pn pf) := by
  have hlive := (hl.alloc_frame size o pn hnew).2
  have hobj : (pframe_alloc size c o pn pf).pf_obj = Function.update c.pf_obj pf (some o) := rfl
  have hpn : (pframe_alloc size c o pn pf).pf_pagenum = Function.update c.pf_pagenum pf pn := rfl
  have hres : (pframe_alloc size c o pn pf).mmo_respages = Function.update c.mmo_respages o (pf :: c.mmo_respages o) := rfl
  have hn : (pframe_alloc size c o pn pf).mmo_nrespages = Function.update c.mmo_nrespages o (c.mmo_nrespages o + 1) := rfl
  have hhash : (pframe_alloc size c o pn pf).pframe_hash =
      Function.update c.pframe_hash (hash_page size o pn) (pf :: c.pframe_hash (hash_page size o pn)) := rfl
  generalize pframe_alloc size c o pn pf = c' at *
  have hold {q : Nat} (hq : Live c q) : q ≠ pf := fun e => hnew (e ▸ hq)
  have hTne : pf ∉ T := fun hT => hnew (h.transit pf hT)
  constructor
  · intro q hq
    rw [hobj]
    by_cases e : q = pf
    · rw [e, Function.update_self]
      rfl
    · rw [Function.update_of_ne e]
      exact h.owned q (((hlive q).1 hq).resolve_right e)
  · intro q r hq hr
    rw [hobj, hpn]
    exact h.unique_with hf habs ((hlive q).1 hq) ((hlive r).1 hr)
  · exact fun q hT => (hlive q).2 (.inl (h.transit q hT))
  · rw [hres]
    exact nodup_cons_update (fun hm => hnew ((h.resident o pf).1 hm).1.1) h.respages
  · intro o' q
    rw [hres, hobj, mem_cons_update, h.resident, hlive]
    by_cases e : q = pf
    · subst e
      simp only [hnew, Function.update_self, Option.some.injEq]
      tauto
    · simp only [Function.update_of_ne e, e, or_false, and_false, false_or]
  · intro o'
    rw [hn, hres]
    by_cases e : o' = o
    · rw [e, Function.update_self, Function.update_self, h.nrespages, List.length_cons]
      omega
    · rw [Function.update_of_ne e, Function.update_of_ne e]
      exact h.nrespages o'
  · rw [hhash]
    exact nodup_cons_update (fun hm => hnew ((h.hashed _ pf).1 hm).1.1) h.chains
  · intro i q
    rw [hhash, hobj, hpn, mem_cons_update, h.hashed, hlive]
    by_cases e : q = pf
    · subst e
      simp only [hnew, Function.update_self, Option.some.injEq]
      constructor
      · rintro (⟨rfl, -⟩ | ⟨⟨h, -⟩, -⟩)
        · exact ⟨⟨.inr trivial, hTne⟩, o, rfl, rfl⟩
        · exact absurd h id
      · rintro ⟨-, o', rfl, rfl⟩
        exact .inl ⟨rfl, trivial⟩
    · simp only [Function.update_of_ne e, e, or_false, and_false, false_or]

theorem Tables.release (h : Tables size T c) (hl : Lists c) (hlive : Live c pf) (hT : pf ∉ T) (h0 : c.pf_pincount pf = 0)
    (ho : c.pf_obj pf = some o) : Tables size T (pframe_release c o pf) := by
  have hlive' := (hl.release (o := o) hlive h0).2
  have hobj : (pframe_release c o pf).pf_obj = Function.update c.pf_obj pf none := rfl
  have hpn : (pframe_release c o pf).pf_pagenum = c.pf_pagenum := rfl
  have hres : (pframe_release c o pf).mmo_respages = fun o' => (c.mmo_respages o').erase pf := rfl
  have hn : (pframe_release c o pf).mmo_nrespages = Function.update c.mmo_nrespages o (c.mmo_nrespages o + -1) := rfl
  have hhash : (pframe_release c o pf).pframe_hash = fun i => (c.pframe_hash i).erase pf := rfl
  generalize pframe_release c o pf = c' at *
  constructor
  · intro q hq
    obtain ⟨hq, e⟩ := (hlive' q).1 hq
    rw [hobj, Function.update_of_ne e]
    exact h.owned q hq
  · intro q r hq hr
    obtain ⟨hq, e⟩ := (hlive' q).1 hq
    obtain ⟨hr, e'⟩ := (hlive' r).1 hr
    rw [hobj, hpn, Function.update_of_ne e, Function.update_of_ne e']
    exact h.unique q r hq hr
  · exact fun q hq => (hlive' q).2 ⟨h.transit q hq, fun e => hT (e ▸ hq)⟩
  · intro o'
    rw [hres]
    exact (h.respages o').erase pf
  · intro o' q
    rw [hres, hobj, (h.respages o').mem_erase_iff, h.resident, hlive']
    by_cases e : q = pf
    · simp [e]
    · simp [e]
  · rw [hn, hres]
    exact h.count_erase hlive hT ho
  · intro i
    rw [hhash]
    exact (h.chains i).erase pf
  · intro i q
    rw [hhash, hobj, hpn, (h.chains i).mem_erase_iff, h.hashed, hlive']
    by_cases e : q = pf
    · simp [e]
    · simp [e]

/-- A frame is taken from `src`, to be a page of `dest`, which does not have it. -/
theorem Tables.out (h : Tables size T c) (hlive : Live c pf) (hT : pf ∉ T) (ho : c.pf_obj pf = some src)
    (hf : inChain size c dest (c.pf_pagenum pf) = none) (habs : Absent c T dest (c.pf_pagenum pf)) :
    Tables size (pf :: T) (migrate_out c pf src dest) := by
  have hlive' (q : Nat) : Live (migrate_out c pf src dest) q ↔ Live c q := Iff.rfl
  have hobj : (migrate_out c pf src dest).pf_obj = Function.update c.pf_obj pf (some dest) := rfl
  have hpn : (migrate_out c pf src dest).pf_pagenum = Function.update c.pf_pagenum pf (c.pf_pagenum pf) :=
    (Function.update_eq_self pf c.pf_pagenum).symm
  have hres : (migrate_out c pf src dest).mmo_respages = fun o' => (c.mmo_respages o').erase pf := rfl
  have hn : (migrate_out c pf src dest).mmo_nrespages = Function.update c.mmo_nrespages src (c.mmo_nrespages src + -1) := rfl
  have hhash : (migrate_out c pf src dest).pframe_hash = fun i => (c.pframe_hash i).erase pf := rfl
  generalize migrate_out c pf src dest = c' at *
  constructor
  · intro q hq
    rw [hobj]
    by_cases e : q = pf
    · rw [e, Function.update_self]
      rfl
    · rw [Function.update_of_ne e]
      exact h.owned q ((hlive' q).1 hq)
  · intro q r hq hr
    rw [hobj, hpn]
    exact h.unique_with hf habs (.inl ((hlive' q).1 hq)) (.inl ((hlive' r).1 hr))
  · intro q hq
    rw [hlive']
    rcases List.mem_cons.1 hq with rfl | hq
    · exact hlive
    · exact h.transit q hq
  · intro o'
    rw [hres]
    exact (h.respages o').erase pf
  · intro o' q
    rw [hres, hobj, (h.respages o').mem_erase_iff, h.resident, hlive']
    by_cases e : q = pf
    · simp [e]
    · simp [e]
  · rw [hn, hres]
    exact h.count_erase hlive hT ho
  · intro i
    rw [hhash]
    exact (h.chains i).erase pf
  · intro i q
    rw [hhash, hobj, hpn, (h.chains i).mem_erase_iff, h.hashed, hlive']
    by_cases e : q = pf
    · simp [e]
    · simp [e]

/-- It arrives. -/
theorem Tables.into (h : Tables size (pf :: T) c) (hT : pf ∉ T) (ho : c.pf_obj pf = some dest) :
    Tables size T (migrate_in size c pf dest) := by
  have hlive' (q : Nat) : Live (migrate_in size c pf dest) q ↔ Live c q := Iff.rfl
  have hobj : (migrate_in size c pf dest).pf_obj = c.pf_obj := rfl
  have hpn : (migrate_in size c pf dest).pf_pagenum = c.pf_pagenum := rfl
  have hres : (migrate_in size c pf dest).mmo_respages =
      Function.update c.mmo_respages dest (pf :: c.mmo_respages dest) := rfl
  have hn : (migrate_in size c pf dest).mmo_nrespages = Function.update c.mmo_nrespages dest (c.mmo_nrespages dest + 1) := rfl
  have hhash : (migrate_in size c pf dest).pframe_hash = Function.update c.pframe_hash
      (hash_page size dest (c.pf_pagenum pf)) (pf :: c.pframe_hash (hash_page size dest (c.pf_pagenum pf))) := rfl
  generalize migrate_in size c pf dest = c' at *
  have hlive : Live c pf := h.transit pf List.mem_cons_self
  constructor
  · intro q hq
    rw [hobj]
    exact h.owned q ((hlive' q).1 hq)
  · intro q r hq hr
    rw [hobj, hpn]
    exact h.unique q r ((hlive' q).1 hq) ((hlive' r).1 hr)
  · exact fun q hq => (hlive' q).2 (h.transit q (List.mem_cons_of_mem _ hq))
  · rw [hres]
    exact nodup_cons_update (fun hm => ((h.resident dest pf).1 hm).1.2 List.mem_cons_self) h.respages
  · intro o' q
    rw [hres, hobj, mem_cons_update, h.resident, hlive']
    by_cases e : q = pf
    · subst e
      simp only [hlive, hT, ho, List.mem_cons, not_true_eq_false, and_false, false_and, or_false, and_true,
        not_false_eq_true, true_and, Option.some.injEq, eq_comm]
    · simp only [e, and_false, false_or, List.mem_cons]
  · intro o'
    rw [hn, hres]
    by_cases e : o' = dest
    · rw [e, Function.update_self, Function.update_self, h.nrespages, List.length_cons]
      omega
    · rw [Function.update_of_ne e, Function.update_of_ne e]
      exact h.nrespages o'
  · rw [hhash]
    exact nodup_cons_update (fun hm => ((h.hashed _ pf).1 hm).1.2 List.mem_cons_self) h.chains
  · intro i q
    rw [hhash, hobj, hpn, mem_cons_update, h.hashed, hlive']
    by_cases e : q = pf
    · subst e
      constructor
      · rintro (⟨rfl, -⟩ | ⟨⟨-, hq⟩, -⟩)
        · exact ⟨⟨hlive, hT⟩, dest, ho, rfl⟩
        · exact absurd List.mem_cons_self hq
      · rintro ⟨-, o', ho', rfl⟩
        rw [ho] at ho'
        cases ho'
        exact .inl ⟨rfl, rfl⟩
    · simp only [e, and_false, false_or, List.mem_cons]

/-! ### One operation -/

structure Sound (size : Nat) (T : List Nat) (c : Cache) : Prop where
  lists : Lists c
  tables : Tables size T c

theorem Sound.setBusy (h : Sound size T c) (pf : Nat) (b : Bool) : Sound size T (c.setBusy pf b) where
  lists := ⟨h.lists.alloc, h.lists.pinned, h.lists.apart, h.lists.nallocated, h.lists.npinned, h.lists.zero, h.lists.pos⟩
  tables := h.tables.congr (fun _ => Iff.rfl) rfl rfl rfl rfl rfl

theorem Sound.setDirty (h : Sound size T c) (pf : Nat) (b : Bool) : Sound size T (c.setDirty pf b) where
  lists := ⟨h.lists.alloc, h.lists.pinned, h.lists.apart, h.lists.nallocated, h.lists.npinned, h.lists.zero, h.lists.pos⟩
  tables := h.tables.congr (fun _ => Iff.rfl) rfl rfl rfl rfl rfl

theorem pin_obj (c : Cache) (pf : Nat) : (pframe_pin c pf).pf_obj = c.pf_obj ∧ (pframe_pin c pf).pf_pagenum = c.pf_pagenum ∧
    (pframe_pin c pf).mmo_respages = c.mmo_respages ∧ (pframe_pin c pf).mmo_nrespages = c.mmo_nrespages ∧
    (pframe_pin c pf).pframe_hash = c.pframe_hash := by
  unfold pframe_pin
  split_ifs <;> exact ⟨rfl, rfl, rfl, rfl, rfl⟩

theorem unpin_obj (c : Cache) (pf : Nat) : (pframe_unpin c pf).pf_obj = c.pf_obj ∧
    (pframe_unpin c pf).pf_pagenum = c.pf_pagenum ∧ (pframe_unpin c pf).mmo_respages = c.mmo_respages ∧
    (pframe_unpin c pf).mmo_nrespages = c.mmo_nrespages ∧ (pframe_unpin c pf).pframe_hash = c.pframe_hash := by
  unfold pframe_unpin
  by_cases hm : pf ∈ c.pinned_list
  · rw [if_pos hm]
    by_cases h0 : c.pf_pincount pf - 1 = 0
    · simp only [Cache.setPin_self, h0, if_true]
      exact ⟨rfl, rfl, rfl, rfl, rfl⟩
    · simp only [Cache.setPin_self, h0, if_false]
      exact ⟨rfl, rfl, rfl, rfl, rfl⟩
  · rw [if_neg hm]
    exact ⟨rfl, rfl, rfl, rfl, rfl⟩

theorem Sound.pin (h : Sound size T c) (pf : Nat) : Sound size T (pframe_pin c pf) := by
  obtain ⟨hl, hlive⟩ := h.lists.pin pf
  obtain ⟨ho, hp, hr, hn, hh⟩ := pin_obj c pf
  exact ⟨hl, h.tables.congr hlive ho hp hr hn hh⟩

theorem Sound.unpin (h : Sound size T c) (pf : Nat) : Sound size T (pframe_unpin c pf) := by
  obtain ⟨hl, hlive⟩ := h.lists.unpin pf
  obtain ⟨ho, hp, hr, hn, hh⟩ := unpin_obj c pf
  exact ⟨hl, h.tables.congr hlive ho hp hr hn hh⟩

theorem get_resident_none (h : pframe_get_resident size c o pn = (c', none)) : c' = c ∧ inChain size c o pn = none := by
  unfold pframe_get_resident at h
  cases hf : inChain size c o pn with
  | none =>
    rw [hf] at h
    exact ⟨(Prod.mk.inj h).1.symm, rfl⟩
  | some q =>
    rw [hf] at h
    dsimp only at h
    split_ifs at h <;> cases h

theorem Sound.get_resident (h : Sound size T c) (hg : pframe_get_resident size c o pn = (c', some pf)) :
    Sound size T c' ∧ c'.pf_obj = c.pf_obj := by
  unfold pframe_get_resident at hg
  cases hf : inChain size c o pn with
  | none =>
    rw [hf] at hg
    cases hg
  | some q =>
    rw [hf] at hg
    dsimp only at hg
    by_cases h0 : c.pf_pincount q = 0
    · rw [if_pos h0] at hg
      cases hg
      obtain ⟨hl, hlive⟩ := h.lists.touch (h.lists.alloc_of_zero (h.tables.found hf).1 h0)
      exact ⟨⟨hl, h.tables.congr hlive rfl rfl rfl rfl rfl⟩, rfl⟩
    · rw [if_neg h0] at hg
      cases hg
      exact ⟨h, rfl⟩

theorem Sound.alloc (h : Sound size T c) (hf : inChain size c o pn = none) (habs : Absent c T o pn) (hnew : ¬ Live c pf) :
    Sound size T (pframe_alloc size c o pn pf) :=
  ⟨(h.lists.alloc_frame _ _ _ hnew).1, h.tables.alloc_frame h.lists hf habs hnew⟩

theorem Sound.release (h : Sound size T c) (hr : Resident c pf) (h0 : c.pf_pincount pf = 0) (ho : c.pf_obj pf = some o) :
    Sound size T (pframe_release c o pf) := by
  obtain ⟨hlive, hT, -⟩ := h.tables.resident_live hr
  exact ⟨(h.lists.release hlive h0).1, h.tables.release h.lists hlive hT h0 ho⟩

theorem Sound.out (h : Sound size T c) (hr : Resident c pf) (ho : c.pf_obj pf = some src)
    (hf : inChain size c dest (c.pf_pagenum pf) = none) (habs : Absent c T dest (c.pf_pagenum pf)) :
    Sound size (pf :: T) (migrate_out c pf src dest) := by
  obtain ⟨hlive, hT, -⟩ := h.tables.resident_live hr
  exact ⟨⟨h.lists.alloc, h.lists.pinned, h.lists.apart, h.lists.nallocated, h.lists.npinned, h.lists.zero, h.lists.pos⟩,
    h.tables.out hlive hT ho hf habs⟩

theorem Sound.into (h : Sound size (pf :: T) c) (hT : pf ∉ T) (ho : c.pf_obj pf = some dest) :
    Sound size T (migrate_in size c pf dest) where
  lists := ⟨h.lists.alloc, h.lists.pinned, h.lists.apart, h.lists.nallocated, h.lists.npinned, h.lists.zero, h.lists.pos⟩
  tables := h.tables.into hT ho

/-! ### A whole run -/

theorem Sound.init (size : Nat) : Sound size [] pframe_init where
  lists := by constructor <;> simp [pframe_init]
  tables := by constructor <;> simp [pframe_init, Live]

/-- The frames on their way keep their object. -/
theorem Runs.keeps {ops : List Op} (h : Runs size T ops c c') :
    Sound size T c → Sound size T c' ∧ ∀ q ∈ T, c'.pf_obj q = c.pf_obj q := by
  induction h with
  | nil => exact fun hs => ⟨hs, fun q _ => rfl⟩
  | get_resident _ _ hg _ ih =>
    intro hs
    obtain ⟨h1, e1⟩ := ih hs
    obtain ⟨h2, e2⟩ := h1.get_resident hg
    exact ⟨h2, fun q hq => by rw [e2, e1 q hq]⟩
  | @get_new _ _ _ _ _ _ _ _ _ pf _ habs hg hnew _ ih ihfill =>
    intro hs
    obtain ⟨h1, e1⟩ := ih hs
    obtain ⟨rfl, hf⟩ := get_resident_none hg
    obtain ⟨h2, e2⟩ := ihfill ((h1.alloc hf habs hnew).setBusy _ true)
    refine ⟨h2.setBusy _ false, fun q hq => ?_⟩
    have hne : q ≠ pf := fun e => hnew (e ▸ h1.tables.transit q hq)
    calc _ = _ := e2 q hq
      _ = _ := Function.update_of_ne hne _ _
      _ = _ := e1 q hq
  | pin pf _ ih =>
    intro hs
    obtain ⟨h1, e1⟩ := ih hs
    exact ⟨h1.pin pf, fun q hq => by rw [(pin_obj _ pf).1, e1 q hq]⟩
  | unpin pf _ ih =>
    intro hs
    obtain ⟨h1, e1⟩ := ih hs
    exact ⟨h1.unpin pf, fun q hq => by rw [(unpin_obj _ pf).1, e1 q hq]⟩
  | @dirty _ _ _ _ _ _ pf ok _ _ _ _ ih ihsub =>
    intro hs
    obtain ⟨h1, e1⟩ := ih hs
    obtain ⟨h2, e2⟩ := ihsub (h1.setBusy pf true)
    cases ok
    · exact ⟨h2.setBusy pf false, fun q hq => (e2 q hq).trans (e1 q hq)⟩
    · exact ⟨(h2.setDirty pf true).setBusy pf false, fun q hq => (e2 q hq).trans (e1 q hq)⟩
  | @clean _ _ _ _ _ _ pf ok _ _ _ _ _ ih ihsub =>
    intro hs
    obtain ⟨h1, e1⟩ := ih hs
    obtain ⟨h2, e2⟩ := ihsub ((h1.setDirty pf false).setBusy pf true)
    cases ok
    · exact ⟨(h2.setDirty pf true).setBusy pf false, fun q hq => (e2 q hq).trans (e1 q hq)⟩
    · exact ⟨h2.setBusy pf false, fun q hq => (e2 q hq).trans (e1 q hq)⟩
  | @free _ _ _ _ _ _ pf _ _ hr h0 ho _ _ ih ihsub =>
    intro hs
    obtain ⟨h1, e1⟩ := ih hs
    obtain ⟨h2, e2⟩ := ihsub (h1.release hr h0 ho)
    refine ⟨h2, fun q hq => ?_⟩
    have hne : q ≠ pf := fun e => (h1.tables.resident_live hr).2.1 (e ▸ hq)
    calc _ = _ := e2 q hq
      _ = _ := Function.update_of_ne hne _ _
      _ = _ := e1 q hq
  | migrate_resident _ _ _ _ hg _ ih ihsub =>
    intro hs
    obtain ⟨h1, e1⟩ := ih hs
    obtain ⟨h2, e2⟩ := h1.get_resident hg
    obtain ⟨h3, e3⟩ := ihsub h2
    exact ⟨h3, fun q hq => by rw [e3 q hq, e2, e1 q hq]⟩
  | @migrate_new _ _ _ _ _ _ _ pf _ _ _ hr _ habs hg hsrc _ ih ihsub =>
    intro hs
    obtain ⟨h1, e1⟩ := ih hs
    obtain ⟨rfl, hf⟩ := get_resident_none hg
    have hT := (h1.tables.resident_live hr).2.1
    obtain ⟨h2, e2⟩ := ihsub (h1.out hr hsrc hf habs)
    refine ⟨h2.into hT ((e2 _ List.mem_cons_self).trans (Function.update_self ..)), fun q hq => ?_⟩
    have hne : q ≠ pf := fun e => hT (e ▸ hq)
    calc _ = _ := e2 q (List.mem_cons_of_mem _ hq)
      _ = _ := Function.update_of_ne hne _ _
      _ = _ := e1 q hq

/-- After any sequence of operations: one frame for each page, in its own chain; a
frame is on the list that its pin count says; the counters are the lengths of the
lists; and an object lists the frames that say they are its own. -/
theorem books_agree {ops : List Op} (h : Runs size [] ops pframe_init c) :
    (∀ o, ∀ pf ∈ c.mmo_respages o, ∀ q ∈ c.mmo_respages o, c.pf_pagenum pf = c.pf_pagenum q → pf = q) ∧
    (∀ i, (c.pframe_hash i).Nodup ∧
      ∀ pf, pf ∈ c.pframe_hash i ↔ ∃ o, pf ∈ c.mmo_respages o ∧ hash_page size o (c.pf_pagenum pf) = i) ∧
    (∀ pf, Live c pf → (0 < c.pf_pincount pf ↔ pf ∈ c.pinned_list) ∧ (c.pf_pincount pf = 0 ↔ pf ∈ c.alloc_list)) ∧
    (c.npinned = c.pinned_list.length ∧ c.pinned_list.Nodup) ∧ (c.nallocated = c.alloc_list.length ∧ c.alloc_list.Nodup) ∧
    ∀ o, c.mmo_nrespages o = (c.mmo_respages o).length ∧ (c.mmo_respages o).Nodup ∧
      ∀ pf, pf ∈ c.mmo_respages o ↔ Live c pf ∧ c.pf_obj pf = some o := by
  obtain ⟨⟨hl, ht⟩, -⟩ := h.keeps (Sound.init size)
  have hres (o pf : Nat) : pf ∈ c.mmo_respages o ↔ Live c pf ∧ c.pf_obj pf = some o := by
    rw [ht.resident]
    simp only [List.not_mem_nil, not_false_eq_true, and_true]
  refine ⟨fun o pf hpf q hq => ?_, fun i => ⟨ht.chains i, fun pf => ?_⟩, fun pf hlive => ⟨?_, ?_⟩, ⟨hl.npinned, hl.pinned⟩,
    ⟨hl.nallocated, hl.alloc⟩, fun o => ⟨ht.nrespages o, ht.respages o, hres o⟩⟩
  · obtain ⟨hpf, ho⟩ := (hres o pf).1 hpf
    obtain ⟨hq, ho'⟩ := (hres o q).1 hq
    exact ht.unique pf q hpf hq (ho.trans ho'.symm)
  · rw [ht.hashed]
    constructor
    · rintro ⟨⟨hlive, -⟩, o, ho, hi⟩
      exact ⟨o, (hres o pf).2 ⟨hlive, ho⟩, hi⟩
    · rintro ⟨o, hm, hi⟩
      obtain ⟨hlive, ho⟩ := (hres o pf).1 hm
      exact ⟨⟨hlive, List.not_mem_nil⟩, o, ho, hi⟩
  · refine ⟨fun hpos => hlive.resolve_left fun hm => ?_, hl.pos pf⟩
    rw [hl.zero pf hm] at hpos
    exact Nat.lt_irrefl 0 hpos
  · exact ⟨hl.alloc_of_zero hlive, hl.zero pf⟩

/-- A page of the object at `0x1000` is filled, and pinned. -/
theorem books_of_pinned_page :
    ∃ c, Runs 17 [] [.pframe_get 0x1000 2, .pframe_pin 7] pframe_init c ∧ c.pinned_list = [7] ∧
      c.npinned = c.pinned_list.length ∧ c.mmo_nrespages 0x1000 = (c.mmo_respages 0x1000).length := by
  have hfill : Runs 17 [] [.pframe_get 0x1000 2] pframe_init
      (((pframe_alloc 17 pframe_init 0x1000 2 7).setBusy 7 true).setBusy 7 false) :=
    .get_new .nil (fun q hq => absurd hq List.not_mem_nil) rfl (by simp [Live, pframe_init]) .nil
  refine ⟨_, hfill.pin 7, rfl, ?_⟩
  obtain ⟨-, -, -, ⟨hn, -⟩, -, hres⟩ := books_agree (hfill.pin 7)
  exact ⟨hn, (hres 0x1000).1⟩

end Weenix.Vm.PageCache
