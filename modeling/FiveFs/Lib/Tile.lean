import Mathlib.Data.List.Count

/-! Pieces of a range, each with its first cell and its length, that come one after the other
without a gap. -/

inductive Tiles : Nat → Nat → List (Nat × Nat) → Prop
  | nil (a : Nat) : Tiles a a []
  | cons {a b n : Nat} {ps : List (Nat × Nat)} : 0 < n → Tiles (a + n) b ps →
      Tiles a b ((a, n) :: ps)

namespace Tiles

variable {a b x : Nat} {ps : List (Nat × Nat)}

def Meets (x : Nat) (p : Nat × Nat) : Prop := p.1 ≤ x ∧ x < p.1 + p.2

instance (x : Nat) (p : Nat × Nat) : Decidable (Meets x p) := inferInstanceAs (Decidable (_ ∧ _))

theorem le (tiles : Tiles a b ps) : a ≤ b := by
  induction tiles with
  | nil => exact Nat.le_refl _
  | cons _ _ ih => omega

theorem first (tiles : Tiles a b ps) (some : a < b) : ∃ n rest, ps = (a, n) :: rest ∧ 0 < n := by
  cases tiles with
  | nil => exact absurd some (Nat.lt_irrefl _)
  | cons more rest => exact ⟨_, _, rfl, more⟩

theorem piece (tiles : Tiles a b ps) : ∀ p ∈ ps, a ≤ p.1 ∧ 0 < p.2 ∧ p.1 + p.2 ≤ b := by
  induction tiles with
  | nil => exact fun p member => absurd member List.not_mem_nil
  | cons some rest ih =>
      intro p member
      have bound := rest.le
      rcases List.mem_cons.mp member with rfl | later
      · exact ⟨Nat.le_refl _, some, bound⟩
      · have inner := ih p later
        omega

theorem countP_out (tiles : Tiles a b ps) (before : x < a) : ps.countP (Meets x) = 0 := by
  apply List.countP_eq_zero.mpr
  intro p member meets
  have bound := (tiles.piece p member).1
  have start : p.1 ≤ x := (of_decide_eq_true meets).1
  omega

theorem countP_eq_one (tiles : Tiles a b ps) (low : a ≤ x) (high : x < b) :
    ps.countP (Meets x) = 1 := by
  induction tiles with
  | nil => omega
  | @cons a b n ps some rest ih =>
      by_cases here : x < a + n
      · rw [List.countP_cons_of_pos (by exact decide_eq_true ⟨low, here⟩), rest.countP_out here]
      · rw [List.countP_cons_of_neg]
        · exact ih (by omega) high
        · intro meets
          exact here (of_decide_eq_true meets).2

theorem append {c : Nat} {qs : List (Nat × Nat)} (tiles : Tiles a b ps) (more : Tiles b c qs) :
    Tiles a c (ps ++ qs) := by
  induction tiles with
  | nil => exact more
  | cons some _ ih => exact .cons some (ih more)

end Tiles
