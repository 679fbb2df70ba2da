import FiveFs.Lib.Prog

/-! Loops whose rounds end with a value or go on. A run is given the number of rounds it may take.
-/

namespace Prog

variable {σ α : Type} {Q : α → σ → Prop} {E : Err → σ → Prop} {s : σ}

/-- `loop { .. }`: a round that returns a value leaves the loop. -/
def loop (round : Prog σ (Option α)) : Nat → Prog σ α
  | 0 => panicWith "out of fuel"
  | fuel + 1 => do
      match ← round with
      | some a => pure a
      | none => loop round fuel

/-- A round leaves with the postcondition, or keeps the invariant at a smaller measure. -/
def Round (Inv : Nat → σ → Prop) (Q : α → σ → Prop) (n : Nat) (r : Option α) (s : σ) : Prop :=
  (∀ a, r = some a → Q a s) ∧ (r = none → ∃ m < n, Inv m s)

variable {round : Prog σ (Option α)} {Inv : Nat → σ → Prop}

theorem loop_succ (fuel : Nat) (h : wp round (fun r s' => (∀ a, r = some a → Q a s') ∧
    (r = none → wp (loop round fuel) Q E s')) E s) : wp (loop round (fuel + 1)) Q E s := by
  rw [loop, wp_bind]
  refine wp_mono h (fun r s' post => ?_) fun _ _ => id
  cases r with
  | none => exact post.2 rfl
  | some a => exact post.1 a rfl

theorem wp_loop (step : ∀ n s, Inv n s → wp round (Round Inv Q n) E s) :
    ∀ fuel n s, n < fuel → Inv n s → wp (loop round fuel) Q E s := by
  intro fuel
  induction fuel with
  | zero => exact fun n _ short _ => absurd short (Nat.not_lt_zero n)
  | succ fuel ih =>
      intro n s enough inv
      apply loop_succ
      refine wp_mono (step n s inv) (fun r s' post => ⟨post.1, fun next => ?_⟩) fun _ _ => id
      obtain ⟨m, less, kept⟩ := post.2 next
      exact ih m s' (by omega) kept

theorem wp_loop_ends (step : ∀ n s, Inv n s → wp round (Round Inv Q n) (fun _ _ => True) s) :
    ∀ fuel n s, Inv n s → wp (loop round fuel) Q (fun _ _ => True) s := by
  intro fuel
  induction fuel with
  | zero => exact fun _ _ _ => trivial
  | succ fuel ih =>
      intro n s inv
      apply loop_succ
      refine wp_mono (step n s inv) (fun r s' post => ⟨post.1, fun next => ?_⟩) fun _ _ => id
      obtain ⟨m, _, kept⟩ := post.2 next
      exact ih m s' kept

end Prog
