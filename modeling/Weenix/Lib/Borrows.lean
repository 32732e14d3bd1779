import Mathlib.Algebra.Ring.Int.Defs
import Mathlib.Data.List.Basic
import Mathlib.Data.Set.Insert
/-!
# Borrowed references

The history of a client of reference counts: it obtains references, puts them
back, and uses objects. `own` is how many references to an object it has itself.
A history is disciplined when each object is used while the client has a
reference, or while one of the objects in `held` that others hold for it.
-/

namespace Weenix.Lib

variable {α : Type} [DecidableEq α]

inductive Access (α : Type)
  | get (a : α)
  | put (a : α)
  | use (a : α)
  deriving DecidableEq

/-- What an access adds to the references to `a`. -/
def Access.delta (a : α) : Access α → Int
  | .get b => if a = b then 1 else 0
  | .put b => if a = b then -1 else 0
  | .use _ => 0

/-- The references to `a` that the client has after `tr`. -/
def own (tr : List (Access α)) (a : α) : Int := (tr.map (Access.delta a)).sum

def Disciplined (held : Set α) (tr : List (Access α)) : Prop :=
  ∀ pre a post, tr = pre ++ .use a :: post → a ∈ held ∨ 0 < own pre a

namespace Borrows

variable {held : Set α} {tr : List (Access α)} {a b : α} {x : Access α}

@[simp] theorem own_nil : own [] a = 0 := rfl

@[simp] theorem own_snoc : own (tr ++ [x]) a = own tr a + x.delta a := by simp [own]

@[simp] theorem disciplined_nil : Disciplined held ([] : List (Access α)) := by
  intro pre a post h
  simp at h

/-- The last access counts only when it is a use. -/
theorem disciplined_snoc : Disciplined held (tr ++ [x]) ↔
    Disciplined held tr ∧ ∀ a, x = .use a → a ∈ held ∨ 0 < own tr a := by
  constructor
  · intro h
    refine ⟨fun pre a post he => ?_, fun a hx => ?_⟩
    · exact h pre a (post ++ [x]) (by simp [he])
    · exact h tr a [] (by rw [hx])
  · rintro ⟨h, hx⟩ pre a post he
    -- the use is the last access, or comes before it
    rcases List.eq_nil_or_concat post with rfl | ⟨post', y, rfl⟩
    · obtain ⟨rfl, hxa⟩ := List.append_inj' he rfl
      exact hx a (List.singleton_inj.1 hxa)
    · rw [List.concat_eq_append, ← List.cons_append, ← List.append_assoc] at he
      exact h pre a post' (List.append_inj' he rfl).1

/-! ## Rules -/

/-- `tr'` goes on from `tr`: the objects `ds` are used, and the client has
obtained `δ`. Only its references at `tr` count for them. -/
structure Extends (held : Set α) (tr tr' : List (Access α)) (ds : List α) (δ : α → Int) : Prop where
  own : ∀ a, own tr' a = Lib.own tr a + δ a
  disciplined : Disciplined held tr' ↔ Disciplined held tr ∧ ∀ d ∈ ds, d ∈ held ∨ 0 < Lib.own tr d

namespace Extends
variable {tr' tr'' : List (Access α)} {ds ds' : List α} {δ δ' : α → Int}

theorem refl (held : Set α) (tr : List (Access α)) : Extends held tr tr [] fun _ => 0 := ⟨by simp, by simp⟩

theorem congr (h : Extends held tr tr' ds δ) (he : ∀ a, δ a = δ' a) : Extends held tr tr' ds δ' :=
  ⟨fun a => by rw [h.own, he], h.disciplined⟩

theorem congr_mem (h : Extends held tr tr' ds δ) (he : ∀ d, d ∈ ds ↔ d ∈ ds') : Extends held tr tr' ds' δ :=
  ⟨h.own, by simp only [h.disciplined, he]⟩

theorem get (h : Extends held tr tr' ds δ) (b : α) :
    Extends held tr (tr' ++ [.get b]) ds fun a => δ a + if a = b then 1 else 0 := by
  refine ⟨fun a => ?_, ?_⟩
  · rw [own_snoc, h.own, Int.add_assoc]
    rfl
  · simp [disciplined_snoc, h.disciplined]

theorem put (h : Extends held tr tr' ds δ) (b : α) :
    Extends held tr (tr' ++ [.put b]) ds fun a => δ a + if a = b then -1 else 0 := by
  refine ⟨fun a => ?_, ?_⟩
  · rw [own_snoc, h.own, Int.add_assoc]
    rfl
  · simp [disciplined_snoc, h.disciplined]

/-- An object of which no reference was obtained is used. -/
theorem use (h : Extends held tr tr' ds δ) (hb : δ b = 0) : Extends held tr (tr' ++ [.use b]) (ds ++ [b]) δ := by
  refine ⟨fun a => ?_, ?_⟩
  · rw [own_snoc, h.own]
    exact Int.add_zero _
  · simp [disciplined_snoc, h.disciplined, h.own, hb, and_assoc, or_imp, forall_and]

theorem trans (h : Extends held tr tr' ds δ) (h' : Extends held tr' tr'' ds' δ') (hd : ∀ d ∈ ds', δ d = 0) :
    Extends held tr tr'' (ds ++ ds') fun a => δ a + δ' a := by
  refine ⟨fun a => by rw [h'.own, h.own, Int.add_assoc], ?_⟩
  rw [h'.disciplined, h.disciplined, and_assoc]
  simp only [List.mem_append, or_imp, forall_and]
  apply and_congr_right
  intro _
  apply and_congr_right
  intro _
  constructor
  · intro hs d hmem
    have := hs d hmem
    rwa [h.own, hd d hmem, Int.add_zero] at this
  · intro hs d hmem
    rw [h.own, hd d hmem, Int.add_zero]
    exact hs d hmem

end Extends

end Borrows

end Weenix.Lib
