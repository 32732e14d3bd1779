import Mathlib.Data.List.Pairwise
import Mathlib.Data.List.Nodup
import Mathlib.Tactic.Common
/-!
# Sorted lists of disjoint intervals

A list whose elements carry a half-open interval `[lo a, hi a)`. `Sorted` says
that the intervals are non-empty and follow each other without overlap. A
lookup by point then has at most one answer, an interval that meets none of
the listed ones has exactly one place to go, and cutting every element into
pieces of itself keeps the order.
-/

namespace Weenix.Lib.Intervals

variable {α : Type} (lo hi : α → Nat)

/-- The point `x` lies in the interval of `a`. -/
def Covers (a : α) (x : Nat) : Prop := lo a ≤ x ∧ x < hi a

instance (a : α) (x : Nat) : Decidable (Covers lo hi a x) := inferInstanceAs (Decidable (_ ∧ _))

/-- Non-empty intervals, each ending before the next starts. -/
structure Sorted (l : List α) : Prop where
  apart : l.Pairwise (fun a b => hi a ≤ lo b)
  nonempty : ∀ a ∈ l, lo a < hi a

/-- No listed interval meets `[s, e)`. -/
def Free (l : List α) (s e : Nat) : Prop := ∀ a ∈ l, hi a ≤ s ∨ e ≤ lo a

/-- Put `x` before the first interval that starts at or after its end. -/
def insertBefore (x : α) : List α → List α
  | [] => [x]
  | a :: l => if hi x ≤ lo a then x :: a :: l else a :: insertBefore x l

variable {lo hi} {l : List α}

theorem Sorted.nil : Sorted lo hi ([] : List α) := ⟨.nil, by simp⟩

theorem sorted_cons {a : α} : Sorted lo hi (a :: l) ↔
    lo a < hi a ∧ (∀ b ∈ l, hi a ≤ lo b) ∧ Sorted lo hi l := by
  constructor
  · rintro ⟨hp, hn⟩
    rw [List.pairwise_cons] at hp
    exact ⟨hn a (by simp), hp.1, hp.2, fun b hb => hn b (by simp [hb])⟩
  · rintro ⟨h1, h2, h3⟩
    refine ⟨List.pairwise_cons.2 ⟨h2, h3.apart⟩, ?_⟩
    simp only [List.mem_cons, forall_eq_or_imp]
    exact ⟨h1, h3.nonempty⟩

theorem sorted_append {l₁ l₂ : List α} : Sorted lo hi (l₁ ++ l₂) ↔
    Sorted lo hi l₁ ∧ Sorted lo hi l₂ ∧ ∀ a ∈ l₁, ∀ b ∈ l₂, hi a ≤ lo b := by
  constructor
  · rintro ⟨hp, hn⟩
    obtain ⟨h1, h2, h3⟩ := List.pairwise_append.1 hp
    exact ⟨⟨h1, fun a ha => hn a (by simp [ha])⟩, ⟨h2, fun a ha => hn a (by simp [ha])⟩, h3⟩
  · rintro ⟨h1, h2, h3⟩
    refine ⟨List.pairwise_append.2 ⟨h1.apart, h2.apart, h3⟩, fun a ha => ?_⟩
    rcases List.mem_append.1 ha with h | h
    · exact h1.nonempty a h
    · exact h2.nonempty a h

/-! ## Lookups -/

/-- Two listed intervals that share a point are the same element. -/
theorem Sorted.unique (hs : Sorted lo hi l) {a b : α} {x : Nat} (ha : a ∈ l) (hb : b ∈ l)
    (hax : Covers lo hi a x) (hbx : Covers lo hi b x) : a = b := by
  induction l with
  | nil => cases ha
  | cons c l ih =>
    obtain ⟨-, h2, h3⟩ := sorted_cons.1 hs
    simp only [Covers] at hax hbx
    rcases List.mem_cons.1 ha with rfl | ha' <;> rcases List.mem_cons.1 hb with rfl | hb'
    · rfl
    · have := h2 b hb'; omega
    · have := h2 a ha'; omega
    · exact ih h3 ha' hb'

/-- The first interval that covers `x` is the only one. -/
theorem Sorted.find_iff (hs : Sorted lo hi l) {a : α} {x : Nat} :
    l.find? (fun a => decide (Covers lo hi a x)) = some a ↔ a ∈ l ∧ Covers lo hi a x := by
  constructor
  · intro h
    exact ⟨List.mem_of_find?_eq_some h, by simpa using List.find?_some h⟩
  · rintro ⟨ha, hx⟩
    cases h : l.find? (fun a => decide (Covers lo hi a x)) with
    | none => simp only [List.find?_eq_none, decide_eq_true_eq] at h; exact absurd hx (h a ha)
    | some b =>
      have hb : Covers lo hi b x := by simpa using List.find?_some h
      rw [hs.unique ha (List.mem_of_find?_eq_some h) hx hb]

theorem find_none_iff {x : Nat} :
    l.find? (fun a => decide (Covers lo hi a x)) = none ↔ ∀ a ∈ l, ¬ Covers lo hi a x := by
  simp [List.find?_eq_none]

/-- A range is free when no point of it is found. -/
theorem Sorted.free_iff (hs : Sorted lo hi l) {s e : Nat} (hse : s < e) :
    Free lo hi l s e ↔ ∀ x, s ≤ x → x < e → l.find? (fun a => decide (Covers lo hi a x)) = none := by
  constructor
  · intro hf x hsx hxe
    refine find_none_iff.2 fun a ha hcov => ?_
    obtain ⟨hlo, hhi⟩ := hcov
    rcases hf a ha with hbefore | hafter
    · omega
    · omega
  · intro hnone a ha
    by_contra hmeet
    have hne := hs.nonempty a ha
    -- the first point that both intervals have
    have hcov : Covers lo hi a (max s (lo a)) := ⟨by omega, by omega⟩
    exact find_none_iff.1 (hnone (max s (lo a)) (by omega) (by omega)) a ha hcov

/-! ## Inserting -/

theorem mem_insertBefore {x y : α} : y ∈ insertBefore lo hi x l ↔ y = x ∨ y ∈ l := by
  induction l with
  | nil => simp [insertBefore]
  | cons a l ih =>
    simp only [insertBefore]
    split
    · simp
    · simp only [List.mem_cons, ih]; tauto

theorem insertBefore_perm (x : α) : (insertBefore lo hi x l).Perm (x :: l) := by
  induction l with
  | nil => exact .refl _
  | cons a l ih =>
    simp only [insertBefore]
    split
    · exact .refl _
    · exact (ih.cons a).trans (.swap x a l)

/-- An interval that meets no listed one keeps the list sorted. -/
theorem Sorted.insertBefore (hs : Sorted lo hi l) {x : α} (hx : lo x < hi x) (hf : Free lo hi l (lo x) (hi x)) :
    Sorted lo hi (insertBefore lo hi x l) := by
  induction l with
  | nil => exact sorted_cons.2 ⟨hx, by simp, .nil⟩
  | cons a l ih =>
    obtain ⟨h1, h2, h3⟩ := sorted_cons.1 hs
    simp only [Intervals.insertBefore]
    split
    next hle =>
      refine sorted_cons.2 ⟨hx, ?_, hs⟩
      intro b hb
      rcases List.mem_cons.1 hb with rfl | hb
      · exact hle
      · have := h2 b hb; omega
    next hnle =>
      have hax : hi a ≤ lo x := by
        rcases hf a (by simp) with h | h
        · exact h
        · exact absurd h hnle
      refine sorted_cons.2 ⟨h1, ?_, ih h3 (fun b hb => hf b (by simp [hb]))⟩
      intro b hb
      rcases mem_insertBefore.1 hb with rfl | hb
      · exact hax
      · exact h2 b hb

/-- Past intervals that end before it, `x` goes right where the rest begins. -/
theorem insertBefore_append {x : α} {l₁ l₂ : List α} (h1 : ∀ a ∈ l₁, ¬ hi x ≤ lo a) (h2 : ∀ a ∈ l₂, hi x ≤ lo a) :
    Intervals.insertBefore lo hi x (l₁ ++ l₂) = l₁ ++ x :: l₂ := by
  induction l₁ with
  | nil =>
    cases l₂ with
    | nil => rfl
    | cons b l₂ => simp [Intervals.insertBefore, h2 b (by simp)]
  | cons a l₁ ih =>
    simp only [List.cons_append, Intervals.insertBefore, if_neg (h1 a (by simp))]
    rw [ih (fun b hb => h1 b (by simp [hb]))]

/-! ## Cutting into pieces -/

/-- Replacing every element by sorted pieces that lie inside it keeps the order. -/
theorem Sorted.flatMap (hs : Sorted lo hi l) (f : α → List α)
    (hf : ∀ a ∈ l, Sorted lo hi (f a) ∧ ∀ b ∈ f a, lo a ≤ lo b ∧ hi b ≤ hi a) :
    Sorted lo hi (l.flatMap f) := by
  induction l with
  | nil => exact .nil
  | cons a l ih =>
    obtain ⟨-, h2, h3⟩ := sorted_cons.1 hs
    rw [List.flatMap_cons]
    refine sorted_append.2 ⟨(hf a (by simp)).1, ih h3 (fun b hb => hf b (by simp [hb])), ?_⟩
    intro b hb c hc
    obtain ⟨d, hd, hcd⟩ := List.mem_flatMap.1 hc
    have := (hf a (by simp)).2 b hb
    have := (hf d (by simp [hd])).2 c hcd
    have := h2 d hd
    omega

end Weenix.Lib.Intervals
