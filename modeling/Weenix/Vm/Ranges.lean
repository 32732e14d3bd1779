import Weenix.Vm.Reach
/-!
# Permission checks (`api/access.c`)

`addr_perm` looks at the page of one address. `range_perm` goes once over the
areas that meet the pages from that of `avaddr` to that of `avaddr + len`. It
does not look at the gaps between them, and when the end of the range is page
aligned it looks at one page that is not in the range.
-/

namespace Weenix.Vm

open Lib Lib.Intervals

variable {C : Config} {l : List VmArea} {m avaddr len : Nat} {perm : Prot}

/-- No area has the page `vfn`. -/
def Absent (l : List VmArea) (vfn : Nat) : Prop := vmmap_lookup l vfn = none

/-- The page `vfn` is mapped without all of `perm`. -/
def Refuses (l : List VmArea) (perm : Prot) (vfn : Nat) : Prop :=
  ∃ a, vmmap_lookup l vfn = some a ∧ a.vma_prot.grants perm = false

theorem addr_perm_iff {vaddr : Nat} :
    addr_perm l vaddr perm = true ↔ ¬ Absent l (ADDR_TO_PN vaddr) ∧ ¬ Refuses l perm (ADDR_TO_PN vaddr) := by
  unfold addr_perm Absent Refuses
  cases h : vmmap_lookup l (ADDR_TO_PN vaddr) with
  | none => simp
  | some a => simp

/-! ## The loop -/

/-- The area has a page from `initial` up to `final`. -/
def Meets (initial final : Nat) (a : VmArea) : Prop := initial < a.vma_end ∧ a.vma_start < final

theorem range_perm_from_iff {initial final : Nat} (hs : Sorted VmArea.vma_start VmArea.vma_end l) : ∀ found : Bool,
    range_perm_from initial final perm found l = true ↔
      (found = true ∨ ∃ a ∈ l, Meets initial final a) ∧ ∀ a ∈ l, Meets initial final a → a.vma_prot.grants perm = true := by
  induction l with
  | nil => simp [range_perm_from]
  | cons a l ih =>
    intro found
    obtain ⟨h1, h2, h3⟩ := sorted_cons.1 hs
    simp only [range_perm_from, List.mem_cons, exists_eq_or_imp, forall_eq_or_imp]
    split
    next hbefore =>
      have hn : ¬ Meets initial final a := fun h => absurd h.1 (by omega)
      simp [ih h3, hn]
    next hbefore =>
      split
      next hafter =>
        -- The loop stops: no later area starts before `final` either.
        have hn : ¬ Meets initial final a := fun h => absurd h.2 (by omega)
        have hl : ∀ b ∈ l, ¬ Meets initial final b := fun b hb h => by
          have := h2 b hb
          have := h.2
          omega
        simp only [hn, false_or, false_imp_iff, true_and]
        constructor
        · exact fun h => ⟨.inl h, fun b hb hm => absurd hm (hl b hb)⟩
        · rintro ⟨h | ⟨b, hb, hm⟩, -⟩
          · exact h
          · exact absurd hm (hl b hb)
      next hafter =>
        have hm : Meets initial final a := ⟨by omega, by omega⟩
        split
        next hg => simp [ih h3, hm, hg]
        next hg => simp [hm, hg]

/-- `range_perm` asks that one page of those it looks at is mapped, and that none of them refuses. -/
theorem range_perm_iff (hs : Sorted VmArea.vma_start VmArea.vma_end l) (hlt : avaddr + len < 2 ^ 32) :
    range_perm l avaddr len perm = true ↔
      (∃ v, ADDR_TO_PN avaddr ≤ v ∧ v ≤ ADDR_TO_PN (avaddr + len) ∧ ¬ Absent l v) ∧
        ∀ v, ADDR_TO_PN avaddr ≤ v → v ≤ ADDR_TO_PN (avaddr + len) → ¬ Refuses l perm v := by
  have hle : ADDR_TO_PN avaddr ≤ ADDR_TO_PN (avaddr + len) := Nat.div_le_div_right (Nat.le_add_right _ _)
  have hpage {a : VmArea} (ha : a ∈ l) (hm : Meets (ADDR_TO_PN avaddr) (ADDR_TO_PN (avaddr + len) + 1) a) :
      ∃ v, ADDR_TO_PN avaddr ≤ v ∧ v ≤ ADDR_TO_PN (avaddr + len) ∧ vmmap_lookup l v = some a := by
    have := hs.nonempty a ha
    have := hm.1
    have := hm.2
    exact ⟨max (ADDR_TO_PN avaddr) a.vma_start, by omega, by omega, hs.find_iff.2 ⟨ha, by unfold Covers; omega⟩⟩
  have hmeets {a : VmArea} {v : Nat} (h1 : ADDR_TO_PN avaddr ≤ v) (h2 : v ≤ ADDR_TO_PN (avaddr + len))
      (h : vmmap_lookup l v = some a) : a ∈ l ∧ Meets (ADDR_TO_PN avaddr) (ADDR_TO_PN (avaddr + len) + 1) a := by
    obtain ⟨ha, h3, h4⟩ := hs.find_iff.1 h
    exact ⟨ha, by omega, by omega⟩
  simp only [range_perm, u32_of_lt hlt, range_perm_from_iff hs, Bool.false_eq_true, false_or]
  constructor
  · rintro ⟨⟨a, ha, hm⟩, hall⟩
    refine ⟨?_, fun v h1 h2 ⟨b, hb, hg⟩ => ?_⟩
    · obtain ⟨v, h1, h2, h3⟩ := hpage ha hm
      exact ⟨v, h1, h2, by simp [Absent, h3]⟩
    · obtain ⟨hb, hm⟩ := hmeets h1 h2 hb
      exact absurd (hall b hb hm) (by simp [hg])
  · rintro ⟨⟨v, h1, h2, h3⟩, hall⟩
    refine ⟨?_, fun a ha hm => ?_⟩
    · obtain ⟨a, ha⟩ := Option.ne_none_iff_exists'.1 h3
      exact ⟨a, hmeets h1 h2 ha⟩
    · obtain ⟨v, h1, h2, h3⟩ := hpage ha hm
      by_contra hg
      exact hall v h1 h2 ⟨a, h3, by simpa using hg⟩

/-! ## Where the two checks agree -/

/-- `range_perm` answers yes exactly when `addr_perm` does at every address of the range. -/
def PermAgrees (l : List VmArea) (avaddr len : Nat) (perm : Prot) : Prop :=
  range_perm l avaddr len perm = true ↔ ∀ x, avaddr ≤ x → x < avaddr + len → addr_perm l x perm = true

/-- A page of the range is unmapped; some page up to that of the end is mapped, and none of them refuses. -/
def GapUnseen (l : List VmArea) (avaddr len : Nat) (perm : Prot) : Prop :=
  (∃ x, avaddr ≤ x ∧ x < avaddr + len ∧ Absent l (ADDR_TO_PN x)) ∧
    (∃ v, ADDR_TO_PN avaddr ≤ v ∧ v ≤ ADDR_TO_PN (avaddr + len) ∧ ¬ Absent l v) ∧
    ∀ v, ADDR_TO_PN avaddr ≤ v → v ≤ ADDR_TO_PN (avaddr + len) → ¬ Refuses l perm v

/-- The end is page aligned and the page there refuses, while those before it are mapped and do not. -/
def EndRefused (l : List VmArea) (avaddr len : Nat) (perm : Prot) : Prop :=
  PAGE_ALIGNED (avaddr + len) = true ∧ Refuses l perm (ADDR_TO_PN (avaddr + len)) ∧
    ∀ v, ADDR_TO_PN avaddr ≤ v → v < ADDR_TO_PN (avaddr + len) → ¬ Absent l v ∧ ¬ Refuses l perm v

theorem page_of_range {v : Nat} (hlen : 1 ≤ len) (h1 : ADDR_TO_PN avaddr ≤ v) (h2 : v ≤ ADDR_TO_PN (avaddr + len - 1)) :
    ∃ x, avaddr ≤ x ∧ x < avaddr + len ∧ ADDR_TO_PN x = v := by
  simp only [ADDR_TO_PN, PAGE_SIZE] at *
  exact ⟨max avaddr (v * 4096), by omega, by omega, by omega⟩

/-- The two checks agree on every range but those of two kinds. -/
theorem range_perm_agrees_iff (hl : AreasOk C m l) (hlen : 1 ≤ len) (hhigh : avaddr + len ≤ C.USER_MEM_HIGH) :
    PermAgrees l avaddr len perm ↔ ¬ GapUnseen l avaddr len perm ∧ ¬ EndRefused l avaddr len perm := by
  have hC := C.high_lt
  have hlt : avaddr + len < 2 ^ 32 := by unfold Config.USER_MEM_HIGH PAGE_SIZE at hhigh; omega
  have hin {x : Nat} (h1 : avaddr ≤ x) (h2 : x < avaddr + len) :
      ADDR_TO_PN avaddr ≤ ADDR_TO_PN x ∧ ADDR_TO_PN x ≤ ADDR_TO_PN (avaddr + len) :=
    ⟨Nat.div_le_div_right h1, Nat.div_le_div_right h2.le⟩
  unfold PermAgrees
  rw [range_perm_iff hl.sorted hlt]
  simp only [addr_perm_iff]
  constructor
  · rintro h
    refine ⟨fun ⟨⟨x, h1, h2, h3⟩, hsome, hnone⟩ => (h.1 ⟨hsome, hnone⟩ x h1 h2).1 h3, fun ⟨hal, href, hpages⟩ => ?_⟩
    refine (h.2 fun x h1 h2 => hpages _ (hin h1 h2).1 ?_).2 _ (hin le_rfl (by omega)).2 le_rfl href
    simp only [PAGE_ALIGNED, ADDR_TO_PN, PAGE_SIZE, beq_iff_eq] at *
    omega
  · rintro ⟨hgap, hend⟩
    constructor
    · rintro ⟨hsome, hnone⟩ x h1 h2
      exact ⟨fun h3 => hgap ⟨⟨x, h1, h2, h3⟩, hsome, hnone⟩, hnone _ (hin h1 h2).1 (hin h1 h2).2⟩
    · intro h
      refine ⟨⟨_, le_rfl, (hin le_rfl (by omega)).2, (h avaddr le_rfl (by omega)).1⟩, fun v h1 h2 href => ?_⟩
      by_cases hv : v ≤ ADDR_TO_PN (avaddr + len - 1)
      · obtain ⟨x, hx1, hx2, rfl⟩ := page_of_range hlen h1 hv
        exact (h x hx1 hx2).2 href
      -- The page of the end, which the range does not reach.
      have hv : v = ADDR_TO_PN (avaddr + len) ∧ PAGE_ALIGNED (avaddr + len) = true ∧
          ADDR_TO_PN (avaddr + len) = ADDR_TO_PN (avaddr + len - 1) + 1 := by
        simp only [PAGE_ALIGNED, ADDR_TO_PN, PAGE_SIZE, beq_iff_eq] at *
        omega
      obtain ⟨rfl, hal, hlast⟩ := hv
      refine hend ⟨hal, href, fun v h3 h4 => ?_⟩
      obtain ⟨x, hx1, hx2, rfl⟩ := page_of_range hlen h3 (by omega)
      exact h x hx1 hx2

/-- A page of `prot` at `addr`. -/
def fixedPage (addr : Nat) (prot : Prot) : Event :=
  .mmap 0 addr 4096 prot { priv := true, fixed := true, anon := true } (-1) 0

/-- A readable page, a hole, and a readable page: all three pages pass for readable. -/
theorem hole_passes : ∃ s tr pr, Run (step .stock .simple) (fun _ e => e.Sane) .bare s tr ∧ s.procs 0 = some pr ∧
    ¬ PermAgrees (s.vmm_list pr.p_vmmap) 0x400000 0x3000 { read := true } := by
  have hex : (exec (step .stock .simple) (fun _ e => decide e.Sane) .bare
      [.spawn, fixedPage 0x400000 { read := true }, fixedPage 0x402000 { read := true }]).bind (fun r =>
        (r.1.procs 0).map fun pr => (range_perm (r.1.vmm_list pr.p_vmmap) 0x400000 0x3000 { read := true },
          addr_perm (r.1.vmm_list pr.p_vmmap) 0x401000 { read := true })) = some (true, false) := by decide +kernel
  simp only [Option.bind_eq_some_iff, Option.map_eq_some_iff, Prod.mk.injEq, Prod.exists] at hex
  obtain ⟨s, tr, he, pr, hpr, hrange, haddr⟩ := hex
  refine ⟨s, tr, pr, Run.of_exec (fun _ _ => of_decide_eq_true) he, hpr, fun h => ?_⟩
  rw [h.1 hrange 0x401000 (by decide) (by decide)] at haddr
  cases haddr

/-- A writable page before a read-only one: asked about alone, it does not pass for writable. -/
theorem whole_page_refused : ∃ l : List VmArea, ¬ PermAgrees l 0x400000 4096 { write := true } := by
  let area (id start : Nat) (prot : Prot) : VmArea := ⟨id, start, start + 1, 0, prot, { priv := true }, some 0, some id⟩
  refine ⟨[area 0 0x400 { read := true, write := true }, area 1 0x401 { read := true }], fun h => ?_⟩
  have hok : AreasOk .stock 0 [area 0 0x400 { read := true, write := true }, area 1 0x401 { read := true }] :=
    ⟨⟨by decide, by decide⟩, by decide, by decide, by decide⟩
  refine ((range_perm_agrees_iff hok (by decide) (by decide)).1 h).2
    ⟨by decide, ⟨area 1 0x401 { read := true }, by decide, by decide⟩, fun v h1 h2 => ?_⟩
  have hv : v = 0x400 := by
    simp only [ADDR_TO_PN, PAGE_SIZE] at h1 h2
    omega
  subst hv
  refine ⟨by unfold Absent; decide, ?_⟩
  rintro ⟨a, ha, hg⟩
  rw [show vmmap_lookup _ _ = some (area 0 0x400 { read := true, write := true }) by decide] at ha
  cases ha
  exact absurd hg (by decide)

end Weenix.Vm
