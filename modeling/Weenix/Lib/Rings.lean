import Mathlib.Data.List.Nodup
import Mathlib.Logic.Function.Basic
/-!
# Circular doubly linked lists

The nodes of a list are linked by two maps, `next` and `prev`, that lead from its
head through the nodes and back, both ways. Inserting a node before the head
appends it to the list, and lists that have no node in common do not see each
other's changes.
-/

namespace Weenix.Lib

structure Links (α : Type) where
  next : α → α
  prev : α → α

namespace Links

variable {α : Type} (L : Links α)

/-- The nodes `l` lead from `a` to `b`, both ways. -/
def Path : α → List α → α → Prop
  | a, [], b => L.next a = b ∧ L.prev b = a
  | a, c :: l, b => L.next a = c ∧ L.prev c = a ∧ Path c l b

/-- The list with the head `h` has the nodes `l`. -/
structure Ring (h : α) (l : List α) : Prop where
  path : L.Path h l h
  once : (h :: l).Nodup

/-- Following `next` from the head leads back to it, and `prev` is the inverse. -/
def WellFormed (h : α) : Prop := ∃ l, L.Ring h l

/-- Link `x` in between the last node and the head `h`. -/
def insertBefore [DecidableEq α] (h x : α) : Links α where
  next := Function.update (Function.update L.next (L.prev h) x) x h
  prev := Function.update (Function.update L.prev x (L.prev h)) h x

/-- Take `x` out. -/
def unlink [DecidableEq α] (x : α) : Links α where
  next := Function.update L.next (L.prev x) (L.next x)
  prev := Function.update L.prev (L.next x) (L.prev x)

/-- The same lists backwards. -/
def flip : Links α := ⟨L.prev, L.next⟩

variable {L} {L' : Links α} {a b h x y : α} {l : List α}

theorem Path.prev_mem : ∀ {a : α} {l : List α}, L.Path a l b → L.prev b ∈ a :: l
  | a, [], hp => by simp [hp.2]
  | a, c :: l, hp => List.mem_cons_of_mem a (Path.prev_mem hp.2.2)

/-- A set that `next` does not lead out of is not left. -/
theorem Path.end_mem {S : α → Prop} (hS : ∀ y, S y → S (L.next y)) : ∀ {a : α} {l : List α}, L.Path a l b → S a → S b
  | a, [], hp, ha => hp.1 ▸ hS a ha
  | a, _ :: _, hp, ha => Path.end_mem hS hp.2.2 (hp.1 ▸ hS a ha)

theorem Path.next_mem : ∀ {a : α} {l : List α}, L.Path a l b → y ∈ a :: l → L.next y = b ∨ L.next y ∈ l
  | a, [], hp, hy => by
    rw [List.mem_singleton] at hy
    exact .inl (hy ▸ hp.1)
  | a, c :: l, hp, hy => by
    rcases List.mem_cons.1 hy with rfl | hy
    · exact .inr (by simp [hp.1])
    · exact (Path.next_mem hp.2.2 hy).imp_right (List.mem_cons_of_mem c)

theorem Path.congr : ∀ {a : α} {l : List α}, L.Path a l b → (∀ y ∈ a :: l, L'.next y = L.next y) →
    (∀ y ∈ l, L'.prev y = L.prev y) → L'.prev b = L.prev b → L'.Path a l b
  | a, [], hp, hn, _, hb => ⟨(hn a (by simp)).trans hp.1, hb.trans hp.2⟩
  | a, c :: l, hp, hn, hv, hb => by
    refine ⟨(hn a (by simp)).trans hp.1, (hv c (by simp)).trans hp.2.1, ?_⟩
    exact Path.congr hp.2.2 (fun y hy => hn y (List.mem_cons_of_mem a hy)) (fun y hy => hv y (List.mem_cons_of_mem c hy)) hb

theorem Path.append {c : α} {l₂ : List α} : ∀ {a : α} {l₁ : List α}, L.Path a (l₁ ++ c :: l₂) b ↔ L.Path a l₁ c ∧ L.Path c l₂ b
  | a, [] => by simp only [List.nil_append, Path, and_assoc]
  | a, d :: l₁ => by simp only [List.cons_append, Path, Path.append, and_assoc]

theorem Path.next_eq : ∀ {a : α} {l : List α}, L.Path a l b → L.next a = l.headD b
  | _, [], hp => hp.1
  | _, _ :: _, hp => hp.1

theorem Path.prev_eq : ∀ {a : α} {l : List α}, L.Path a l b → L.prev (l.headD b) = a
  | _, [], hp => hp.2
  | _, _ :: _, hp => hp.2.1

/-- Backwards. -/
theorem Path.flip : ∀ {a : α} {l : List α}, L.Path a l b → L.flip.Path b l.reverse a
  | a, [], hp => ⟨hp.2, hp.1⟩
  | a, c :: l, hp => by
    rw [List.reverse_cons, Path.append]
    exact ⟨Path.flip hp.2.2, hp.2.1, hp.1⟩

theorem Ring.flip (hr : L.Ring h l) : L.flip.Ring h l.reverse := by
  refine ⟨hr.path.flip, ?_⟩
  have := hr.once
  simp only [List.nodup_cons, List.mem_reverse, List.nodup_reverse] at this ⊢
  exact this

theorem Ring.rotate {l₁ l₂ : List α} {c : α} (hr : L.Ring h (l₁ ++ c :: l₂)) : L.Ring c (l₂ ++ h :: l₁) := by
  obtain ⟨h1, h2⟩ := Path.append.1 hr.path
  refine ⟨Path.append.2 ⟨h2, h1⟩, ?_⟩
  have hperm : (c :: (l₂ ++ h :: l₁)).Perm (h :: (l₁ ++ c :: l₂)) := by
    rw [← List.cons_append, ← List.cons_append]
    exact List.perm_append_comm
  exact hperm.nodup_iff.2 hr.once

/-- Any node may be the head. -/
theorem Ring.head (hr : L.Ring h l) (hy : y ∈ h :: l) : ∃ l', L.Ring y l' ∧ ∀ x ∈ y :: l', x ∈ h :: l := by
  rcases List.mem_cons.1 hy with rfl | hy
  · exact ⟨l, hr, fun _ hx => hx⟩
  · obtain ⟨l₁, l₂, rfl⟩ := List.append_of_mem hy
    refine ⟨_, hr.rotate, fun x hx => ?_⟩
    simp only [List.mem_cons, List.mem_append] at hx ⊢
    tauto

theorem Ring.prev_next (hr : L.Ring h l) (hy : y ∈ h :: l) : L.prev (L.next y) = y := by
  obtain ⟨l', hr', -⟩ := hr.head hy
  rw [hr'.path.next_eq]
  exact hr'.path.prev_eq

/-- `next` does not lead out of a list. -/
theorem Ring.next_mem (hr : L.Ring h l) (hy : y ∈ h :: l) : L.next y ∈ h :: l := by
  rcases hr.path.next_mem hy with e | e
  · simp [e]
  · exact List.mem_cons_of_mem h e

theorem Ring.prev_mem (hr : L.Ring h l) : L.prev h ∈ h :: l := hr.path.prev_mem

theorem Ring.prev_mem_of (hr : L.Ring h l) (hy : y ∈ h :: l) : L.prev y ∈ h :: l := by
  obtain ⟨l', hr', hsub⟩ := hr.head hy
  exact hsub _ hr'.prev_mem

theorem Ring.prev_ne (hr : L.Ring h l) (hy : y ∈ l) : L.prev y ≠ y := by
  obtain ⟨l₁, l₂, rfl⟩ := List.append_of_mem hy
  have hmem := (Path.append.1 hr.path).1.prev_mem
  have hnd : (h :: l₁ ++ y :: l₂).Nodup := hr.once
  intro e
  exact (List.nodup_append.1 hnd).2.2 y (e ▸ hmem) y List.mem_cons_self rfl

/-- Changes elsewhere do not matter. -/
theorem Ring.congr (hr : L.Ring h l) (hn : ∀ y ∈ h :: l, L'.next y = L.next y) (hv : ∀ y ∈ h :: l, L'.prev y = L.prev y) :
    L'.Ring h l :=
  ⟨hr.path.congr hn (fun y hy => hv y (List.mem_cons_of_mem h hy)) (hv h (by simp)), hr.once⟩

/-- Who leads into another list never comes back. -/
theorem Ring.not_wellFormed {h' : α} (hr : L.Ring h l) (h1 : h' ∉ h :: l) (h2 : L.next h' ∈ h :: l) : ¬ L.WellFormed h' := by
  rintro ⟨l', hr'⟩
  have hS : ∀ y, y ∈ h :: l → L.next y ∈ h :: l := fun _ hy => hr.next_mem hy
  cases l' with
  | nil => exact h1 (hr'.path.1 ▸ h2)
  | cons c l' =>
    obtain ⟨h3, -, h4⟩ := hr'.path
    exact h1 (h4.end_mem hS (h3 ▸ h2))

section Insert

variable [DecidableEq α]

theorem insertBefore_next (h1 : y ≠ L.prev h) (h2 : y ≠ x) : (L.insertBefore h x).next y = L.next y := by
  simp [insertBefore, h1, h2]

theorem insertBefore_prev (h1 : y ≠ h) (h2 : y ≠ x) : (L.insertBefore h x).prev y = L.prev y := by
  simp [insertBefore, h1, h2]

/-- Along the way to the head everything stays as it is; the last node leads to `x`, and `x` to the head. -/
theorem Path.insert : ∀ {a : α} {l : List α}, L.Path a l h → x ≠ h → (a :: l).Nodup → x ∉ a :: l → h ∉ l →
    (L.insertBefore h x).Path a (l ++ [x]) h
  | a, [], hp, hxh, _, hx, _ => by
    have hxa : a ≠ x := fun e => hx (by simp [e])
    have hlast : L.prev h = a := hp.2
    refine ⟨?_, ?_, ?_, ?_⟩
    · simp [insertBefore, hlast, hxa]
    · simp [insertBefore, hlast, hxh]
    · simp [insertBefore]
    · simp [insertBefore]
  | a, c :: l, hp, hxh, hnd, hx, hh => by
    obtain ⟨hac, hnd'⟩ := List.nodup_cons.1 hnd
    rw [List.mem_cons, not_or] at hx hh
    have hlast : a ≠ L.prev h := fun e => hac (e ▸ hp.2.2.prev_mem)
    have hcx : c ≠ x := fun e => hx.2 (by simp [e])
    refine ⟨?_, ?_, Path.insert hp.2.2 hxh hnd' hx.2 hh.2⟩
    · exact (insertBefore_next hlast (Ne.symm hx.1)).trans hp.1
    · exact (insertBefore_prev (Ne.symm hh.1) hcx).trans hp.2.1

/-- A node that is inserted before the head is the last one. -/
theorem Ring.insert (hr : L.Ring h l) (hx : x ∉ h :: l) : (L.insertBefore h x).Ring h (l ++ [x]) := by
  have hxh : x ≠ h := fun e => hx (by simp [e])
  refine ⟨hr.path.insert hxh hr.once hx (List.nodup_cons.1 hr.once).1, ?_⟩
  rw [← List.cons_append]
  exact List.nodup_append.2 ⟨hr.once, by simp, fun a ha b hb e => hx (by
    rw [List.mem_singleton] at hb
    rwa [← hb, ← e])⟩

/-- A node that is inserted before another one comes right before it. -/
theorem Ring.insert_at {l₁ l₂ : List α} {c : α} (hr : L.Ring h (l₁ ++ c :: l₂)) (hx : x ∉ h :: (l₁ ++ c :: l₂)) :
    (L.insertBefore c x).Ring h (l₁ ++ x :: c :: l₂) := by
  have h1 := hr.rotate.insert (x := x) (by simp only [List.mem_cons, List.mem_append] at hx ⊢; tauto)
  rw [List.append_assoc, List.cons_append] at h1
  have h2 := h1.rotate
  rw [List.append_assoc] at h2
  exact h2

/-- The first node is taken out. -/
theorem Ring.unlink_first (hr : L.Ring h (x :: l)) : (L.unlink x).Ring h l := by
  obtain ⟨-, h2, hp⟩ := hr.path
  have hnd : (h :: l).Nodup := by
    obtain ⟨hh, hx⟩ := List.nodup_cons.1 hr.once
    exact List.nodup_cons.2 ⟨fun e => hh (List.mem_cons_of_mem x e), (List.nodup_cons.1 hx).2⟩
  refine ⟨?_, hnd⟩
  cases l with
  | nil => simp [Path, Links.unlink, h2, hp.1]
  | cons c l =>
    obtain ⟨hh, hc⟩ := List.nodup_cons.1 hnd
    obtain ⟨hcl, -⟩ := List.nodup_cons.1 hc
    rw [List.mem_cons, not_or] at hh
    refine ⟨by simp [Links.unlink, h2, hp.1], by simp [Links.unlink, h2, hp.1], ?_⟩
    -- the nodes behind do not see it
    refine hp.2.2.congr (fun y hy => ?_) (fun y hy => ?_) ?_
    · rw [Links.unlink, h2]
      apply Function.update_of_ne
      rintro rfl
      exact hh.1 (by simpa [hh.2] using hy)
    · rw [Links.unlink, hp.1]
      apply Function.update_of_ne
      rintro rfl
      exact hcl hy
    · rw [Links.unlink, hp.1]
      exact Function.update_of_ne hh.1 _ _

/-- A node is taken out. -/
theorem Ring.unlink {l₁ l₂ : List α} (hr : L.Ring h (l₁ ++ x :: l₂)) : (L.unlink x).Ring h (l₁ ++ l₂) := by
  rcases List.eq_nil_or_concat l₁ with rfl | ⟨l₁, a, rfl⟩
  · exact hr.unlink_first
  · rw [List.concat_eq_append, List.append_assoc, List.singleton_append] at hr ⊢
    exact hr.rotate.unlink_first.rotate

end Insert

end Links

end Weenix.Lib
