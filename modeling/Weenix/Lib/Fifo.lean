import Weenix.Lib.Runs
import Mathlib.Data.List.TakeDrop
/-!
# Waiting one's turn

A system with a queue, listed newest first. Some of its events take off the
oldest entry, and no other event takes anything off. Then an entry is taken off
when as many have been served as were before it, whatever happens in between.
-/

namespace Weenix.Lib

variable {σ ε ω α : Type}

/-- How many events of a trace serve the queue. -/
def servings (serves : ε → Bool) (tr : List (ε × ω)) : Nat := tr.countP fun x => serves x.1

/-- A step lets entries in, and lets the oldest out when it serves. -/
def InTurn (serves : Bool) (l l' : List α) : Prop := ∃ new, l' = new ++ if serves then l.dropLast else l

variable {step : σ → ε → Option (σ × ω)} {ok : σ → ε → Prop} {s s' : σ} {tr : List (ε × ω)} {serves : ε → Bool}

theorem servings_snoc (e : ε) (w : ω) :
    servings serves (tr ++ [(e, w)]) = servings serves tr + if serves e then 1 else 0 := by
  rw [servings, servings, List.countP_append, List.countP_singleton]

theorem dropLast_behind (newer older : List α) (x : α) (n : Nat) (hn : n < older.length) :
    (newer ++ x :: older.take (older.length - n)).dropLast = newer ++ x :: older.take (older.length - (n + 1)) := by
  have hlen : (older.take (older.length - n)).length = older.length - n := by
    rw [List.length_take]
    omega
  have hne : older.take (older.length - n) ≠ [] := by
    intro h
    rw [h, List.length_nil] at hlen
    omega
  rw [List.dropLast_append_of_ne_nil (List.cons_ne_nil _ _), List.dropLast_cons_of_ne_nil hne, List.dropLast_eq_take,
    List.take_take, hlen]
  congr 3
  omega

/-- The rule for one entry `x`: those before it are served one by one, and it stays until then. -/
theorem Run.turn (I : σ → Prop) (queue : σ → List α) (hs : I s)
    (hI : ∀ s e s' w, I s → ok s e → step s e = some (s', w) → I s')
    (hturn : ∀ s e s' w, I s → ok s e → step s e = some (s', w) → InTurn (serves e) (queue s) (queue s'))
    {newer older : List α} {x : α} (hq : queue s = newer ++ x :: older) (h : Run step ok s s' tr) :
    servings serves tr ≤ older.length →
      ∃ newer', queue s' = newer' ++ x :: older.take (older.length - servings serves tr) := by
  induction h with
  | nil => exact fun _ => ⟨newer, by simpa [servings] using hq⟩
  | @snoc s₁ s₂ tr e w hr hok hst ih =>
    rw [servings_snoc]
    intro hn
    obtain ⟨newer', h₁⟩ := ih (by omega)
    obtain ⟨new, h₂⟩ := hturn s₁ e s₂ w (hr.inv I hs hI) hok hst
    rw [h₁] at h₂
    refine ⟨new ++ newer', ?_⟩
    rw [h₂, List.append_assoc]
    cases he : serves e with
    | false => simp
    | true =>
      rw [he, if_pos rfl] at hn
      rw [if_pos rfl, if_pos rfl, dropLast_behind newer' older x _ (by omega)]

end Weenix.Lib
