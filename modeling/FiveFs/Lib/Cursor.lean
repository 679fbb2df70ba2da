import Mathlib.Tactic.Common
import Mathlib.Data.List.Basic

/-! Reading a list in pieces by an index, while the list changes between the reads. -/

namespace Cursor

variable {α : Type} [DecidableEq α]

theorem count_piece (l : List α) {a : α} (once : l.count a = 1) (k n : Nat) :
    ((l.drop k).take n).count a = if k ≤ l.idxOf a ∧ l.idxOf a < k + n then 1 else 0 := by
  induction l generalizing k n with
  | nil => cases once
  | cons b rest ih =>
      by_cases here : b = a
      · subst here
        have absent : rest.count b = 0 := by
          rw [List.count_cons_self] at once
          omega
        have gone : ∀ k n, ((rest.drop k).take n).count b = 0 := by
          intro k n
          have sublist := (List.take_sublist n (rest.drop k)).trans (List.drop_sublist k rest)
          exact Nat.eq_zero_of_le_zero (absent ▸ sublist.count_le b)
        rw [List.idxOf_cons_self]
        cases k with
        | zero =>
            cases n with
            | zero => simp
            | succ n =>
                rw [List.drop_zero, List.take_succ_cons, List.count_cons_self]
                have zero := gone 0 n
                rw [List.drop_zero] at zero
                rw [zero, if_pos (by omega)]
        | succ k => rw [List.drop_succ_cons, gone, if_neg (by omega)]
      · have once' : rest.count a = 1 := by rwa [List.count_cons_of_ne here] at once
        rw [List.idxOf_cons_ne _ here]
        cases k with
        | zero =>
            cases n with
            | zero => simp
            | succ n =>
                have later := ih once' 0 n
                rw [List.drop_zero] at later ⊢
                rw [List.take_succ_cons, List.count_cons_of_ne here, later]
                exact if_congr (by omega) rfl rfl
        | succ k =>
            rw [List.drop_succ_cons, ih once' k n]
            exact if_congr (by omega) rfl rfl

/-- Reads from the cursor on, in any pieces, between changes of the list that keep `a` in it once:
the list, the cursor, what was read, and how often a change moved `a` from the unread to the read
side and back. -/
inductive Scan (a : α) : List α → Nat → List α → Nat → Nat → Prop
  | start {l : List α} : l.count a = 1 → Scan a l 0 [] 0 0
  | read {l out : List α} {k skips repeats : Nat} (n : Nat) : Scan a l k out skips repeats →
      Scan a l (k + ((l.drop k).take n).length) (out ++ (l.drop k).take n) skips repeats
  | change {l l' out : List α} {k skips repeats : Nat} : Scan a l k out skips repeats →
      l'.count a = 1 →
      Scan a l' k out (skips + if k ≤ l.idxOf a ∧ l'.idxOf a < k then 1 else 0)
        (repeats + if l.idxOf a < k ∧ k ≤ l'.idxOf a then 1 else 0)

namespace Scan

variable {a : α} {l out : List α} {k skips repeats : Nat}

theorem once (scan : Scan a l k out skips repeats) : l.count a = 1 := by
  induction scan with
  | start once => exact once
  | read _ _ ih => exact ih
  | change _ once => exact once

theorem balance (scan : Scan a l k out skips repeats) :
    out.count a + skips = (if l.idxOf a < k then 1 else 0) + repeats := by
  induction scan with
  | start => simp
  | @read l out k skips repeats n scan ih =>
      have inside := List.idxOf_lt_length_of_mem (List.count_pos_iff.mp (scan.once ▸ Nat.one_pos))
      rw [List.count_append, count_piece l scan.once, List.length_take, List.length_drop]
      split_ifs at ih ⊢ <;> omega
  | change scan once ih => split_ifs at ih ⊢ <;> omega

theorem finished (scan : Scan a l k out skips repeats) (done : l.length ≤ k) :
    out.count a + skips = 1 + repeats := by
  have inside := List.idxOf_lt_length_of_mem (List.count_pos_iff.mp (scan.once ▸ Nat.one_pos))
  rw [scan.balance, if_pos (Nat.lt_of_lt_of_le inside done)]

end Scan

end Cursor
