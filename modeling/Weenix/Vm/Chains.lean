import Weenix.Vm.Reach
import Weenix.Lib.Tally
/-!
# Shadow chains

`Chains` says how memory objects stand on each other; `Chains.induct` is
induction up a chain.
-/

namespace Weenix.Vm

open Lib

variable {s s' : State} {o b : Nat}

/-- Shadow objects stand on older objects and know the end of their chain;
other objects shadow nothing. -/
structure Chains (s : State) : Prop where
  known : ∀ o ob, s.objs o = some ob → o < s.nobjs
  shadow : ∀ o ob, s.objs o = some ob → ob.mmo_ops = .shadow → ∃ below b, ob.mmo_shadowed = some below ∧ below < o ∧
    s.bottomOf below = some b ∧ ob.mmo_bottom_obj = some b
  root : ∀ o ob, s.objs o = some ob → ob.mmo_ops ≠ .shadow → ob.mmo_shadowed = none

theorem bottomOf_congr (h : s'.objs = s.objs) (o : Nat) : s'.bottomOf o = s.bottomOf o := by
  unfold State.bottomOf
  rw [h]

theorem Chains.congr (hc : Chains s) (h1 : s'.objs = s.objs) (h2 : s'.nobjs = s.nobjs) : Chains s' := by
  refine ⟨by rw [h1, h2]; exact hc.known, ?_, by rw [h1]; exact hc.root⟩
  intro o ob ho hs
  rw [h1] at ho
  obtain ⟨below, b, e1, e2, e3, e4⟩ := hc.shadow o ob ho hs
  exact ⟨below, b, e1, e2, by rw [bottomOf_congr h1]; exact e3, e4⟩

namespace Chains

theorem bottom_root (hc : Chains s) {ob : Mmobj} (ho : s.objs o = some ob) (hs : ob.mmo_ops ≠ .shadow) :
    s.bottomOf o = some o := by
  simp [State.bottomOf, ho, hc.root o ob ho hs]

theorem bottom_shadow {ob : Mmobj} {below : Nat} (ho : s.objs o = some ob) (hb : ob.mmo_shadowed = some below) :
    s.bottomOf o = ob.mmo_bottom_obj := by
  simp [State.bottomOf, ho, hb]

/-- Every object has a bottom object. -/
theorem bottom (hc : Chains s) {ob : Mmobj} (ho : s.objs o = some ob) : ∃ b, s.bottomOf o = some b := by
  by_cases hs : ob.mmo_ops = .shadow
  · obtain ⟨below, b, e1, -, -, e4⟩ := hc.shadow o ob ho hs
    exact ⟨b, (bottom_shadow ho e1).trans e4⟩
  · exact ⟨o, hc.bottom_root ho hs⟩

theorem of_bottom (h : s.bottomOf o = some b) : ∃ ob, s.objs o = some ob := by
  unfold State.bottomOf at h
  cases ho : s.objs o with
  | none => rw [ho] at h; cases h
  | some ob => exact ⟨ob, rfl⟩

/-- Induction up a chain with the bottom object `b`. -/
theorem induct (hc : Chains s) {P : Nat → Prop} (root : ∀ ob, s.objs b = some ob → ob.mmo_ops ≠ .shadow → P b)
    (step : ∀ o ob below, s.objs o = some ob → ob.mmo_ops = .shadow → ob.mmo_shadowed = some below →
      s.bottomOf below = some b → below < o → P below → P o) (h : s.bottomOf o = some b) : P o := by
  induction o using Nat.strongRecOn with
  | ind o ih =>
    obtain ⟨ob, ho⟩ := of_bottom h
    by_cases hs : ob.mmo_ops = .shadow
    · obtain ⟨below, b', e1, e2, e3, e4⟩ := hc.shadow o ob ho hs
      rw [bottom_shadow ho e1, e4] at h
      cases h
      exact step o ob below ho hs e1 e3 e2 (ih below e2 e3)
    · rw [hc.bottom_root ho hs] at h
      cases h
      exact root ob ho hs

/-- The bottom object exists and is no shadow object. -/
theorem bottom_obj (hc : Chains s) (h : s.bottomOf o = some b) : ∃ ob, s.objs b = some ob ∧ ob.mmo_ops ≠ .shadow :=
  hc.induct (P := fun _ => ∃ ob, s.objs b = some ob ∧ ob.mmo_ops ≠ .shadow) (fun ob h1 h2 => ⟨ob, h1, h2⟩)
    (fun _ _ _ _ _ _ _ _ ih => ih) h

theorem bottom_le (hc : Chains s) (h : s.bottomOf o = some b) : b ≤ o :=
  hc.induct (P := fun o => b ≤ o) (fun _ _ _ => le_rfl) (fun _ _ _ _ _ _ _ hlt ih => ih.trans hlt.le) h

theorem parent_eq {ob : Mmobj} (ho : s.objs o = some ob) : s.parent o = ob.mmo_shadowed := by
  simp [State.parent, ho]

theorem parent_lt (hc : Chains s) {below : Nat} (h : s.parent o = some below) : below < o := by
  unfold State.parent at h
  obtain ⟨ob, ho, hb⟩ := Option.bind_eq_some_iff.1 h
  by_cases hs : ob.mmo_ops = .shadow
  · obtain ⟨x, -, e1, e2, -⟩ := hc.shadow o ob ho hs
    rw [e1] at hb
    cases hb
    exact e2
  · rw [hc.root o ob ho hs] at hb
    cases hb

/-- The object at the end of a chain, if it is not the chain itself, has a
shadow object right on it. -/
theorem hidden (hc : Chains s) (h : s.bottomOf o = some b) :
    o = b ∨ ∃ x ob, s.objs x = some ob ∧ ob.mmo_ops = .shadow ∧ ob.mmo_shadowed = some b := by
  refine hc.induct (P := fun o => o = b ∨ ∃ x ob, s.objs x = some ob ∧ ob.mmo_ops = .shadow ∧ ob.mmo_shadowed = some b)
    (fun _ _ _ => .inl rfl) (fun o ob below ho hs hb _ _ ih => ?_) h
  rcases ih with rfl | ih
  · exact .inr ⟨o, ob, ho, hs, hb⟩
  · exact .inr ih

end Chains

end Weenix.Vm
