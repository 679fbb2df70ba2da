import FiveFs.Lib.Prog

/-! Programs that do what others do, until they stop at a trap. -/

namespace Prog

variable {σ α β : Type} {trap : Err}

/-- `y` does what `x` does, unless `x` ends in the trap. -/
def Follows (trap : Err) (x y : Prog σ α) : Prop := ∀ s, (x s).1 = .error trap ∨ y s = x s

namespace Follows

variable {x x' y y' : Prog σ α} {f g : α → Prog σ β} {s : σ}

theorem refl (x : Prog σ α) : Follows trap x x := fun _ => Or.inr rfl

theorem bind (first : Follows trap x y) (rest : ∀ a, Follows trap (f a) (g a)) :
    Follows trap (x >>= f) (y >>= g) := by
  intro s
  cases run : x s with
  | mk r s' =>
      cases r with
      | error e =>
          have stops : (x >>= f) s = (.error e, s') := bind_error _ _ run
          rcases first s with trapped | same
          · rw [run] at trapped
            cases trapped
            exact Or.inl (congrArg Prod.fst stops)
          · rw [run] at same
            exact Or.inr ((bind_error _ _ same).trans stops.symm)
      | ok a =>
          have goes : (x >>= f) s = f a s' := bind_ok _ _ run
          rcases first s with trapped | same
          · rw [run] at trapped
            cases trapped
          · rw [run] at same
            rw [goes, show (y >>= g) s = g a s' from bind_ok _ _ same]
            exact rest a s'

theorem ite (c : Prop) [Decidable c] (pos : c → Follows trap x y) (neg : ¬ c → Follows trap x' y') :
    Follows trap (if c then x else x') (if c then y else y') := by
  split
  · exact pos ‹_›
  · exact neg ‹_›

theorem attempt {m : String} (h : Follows (.panic m) x y) :
    Follows (.panic m) (attempt x) (attempt y) := by
  intro s
  rcases h s with trapped | same
  · left
    rw [Prog.attempt]
    cases run : x s with
    | mk r s' =>
        rw [run] at trapped
        dsimp only at trapped
        rw [trapped]
  · right
    rw [Prog.attempt, Prog.attempt, same]

theorem wp {Q : α → σ → Prop} {E : Err → σ → Prop} (h : Follows trap x y)
    (clean : (x s).1 ≠ .error trap)
    (post : Prog.wp x Q E s) : Prog.wp y Q (fun e t => e ≠ trap ∧ E e t) s := by
  rw [Prog.wp, (h s).resolve_left clean]
  rw [Prog.wp] at post
  rcases run : x s with ⟨e | a, t⟩
  · rw [run] at clean post
    exact ⟨fun same => clean (congrArg Except.error same), post⟩
  · rw [run] at post
    exact post

end Follows

end Prog
