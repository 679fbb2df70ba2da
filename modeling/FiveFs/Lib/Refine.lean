import Mathlib.Algebra.BigOperators.Fin
import Mathlib.Order.Interval.Finset.Nat
import Mathlib.Algebra.Order.BigOperators.Group.Finset
import Mathlib.Tactic.Ring

/-! Refinement trees kept in a record store: a cell is a leaf or refers to a record of `k` cells.
A record is rewritten in place, so the trees rest on every record being referred to once. -/

namespace Refine

open Finset

variable {σ ρ : Type} {k : Nat}

/-- What is stored for a cell. -/
inductive Mark (σ ρ : Type)
  | leaf (s : σ)
  | refined (r : ρ)

inductive Cell (σ ρ : Type) (k : Nat)
  | leaf (s : σ)
  | refined (r : ρ) (kids : Fin k → Cell σ ρ k)

/-- What leaves and records count for, by depth. -/
structure Weight (σ ρ : Type) where
  leaf : Nat → σ → Nat
  node : Nat → ρ → Nat

namespace Cell

/-- The cell at the end of a path. -/
def sub : Cell σ ρ k → List (Fin k) → Option (Cell σ ρ k)
  | x, [] => some x
  | leaf _, _ :: _ => none
  | refined _ kids, i :: p => (kids i).sub p

/-- The tree with the cell at the end of a path replaced. -/
def set : Cell σ ρ k → List (Fin k) → Cell σ ρ k → Cell σ ρ k
  | _, [], y => y
  | leaf s, _ :: _, _ => leaf s
  | refined r kids, i :: p, y => refined r (Function.update kids i ((kids i).set p y))

/-- The leaf met on the way along a path, with its depth. -/
def look : Cell σ ρ k → Nat → List (Fin k) → Option (σ × Nat)
  | leaf s, d, _ => some (s, d)
  | refined _ _, _, [] => none
  | refined _ kids, d, i :: p => (kids i).look (d + 1) p

def weigh (w : Weight σ ρ) : Nat → Cell σ ρ k → Nat
  | d, leaf s => w.leaf d s
  | d, refined r kids => w.node d r + ∑ i, (kids i).weigh w (d + 1)

@[simp] theorem sub_nil (x : Cell σ ρ k) : x.sub [] = some x := by
  cases x <;> rfl

@[simp] theorem sub_leaf (s : σ) (i : Fin k) (p : List (Fin k)) :
    (leaf s : Cell σ ρ k).sub (i :: p) = none := rfl

@[simp] theorem sub_refined (r : ρ) (kids : Fin k → Cell σ ρ k) (i : Fin k) (p : List (Fin k)) :
    (refined r kids).sub (i :: p) = (kids i).sub p := rfl

@[simp] theorem set_nil (x y : Cell σ ρ k) : x.set [] y = y := by
  cases x <;> rfl

@[simp] theorem set_refined (r : ρ) (kids : Fin k → Cell σ ρ k) (i : Fin k) (p : List (Fin k))
    (y : Cell σ ρ k) :
    (refined r kids).set (i :: p) y =
      refined r (Function.update kids i ((kids i).set p y)) := rfl

@[simp] theorem look_leaf (s : σ) (d : Nat) (p : List (Fin k)) :
    (leaf s : Cell σ ρ k).look d p = some (s, d) := by
  cases p <;> rfl

@[simp] theorem look_refined (r : ρ) (kids : Fin k → Cell σ ρ k) (d : Nat) (i : Fin k)
    (p : List (Fin k)) : (refined r kids).look d (i :: p) = (kids i).look (d + 1) p := rfl

@[simp] theorem look_refined_nil (r : ρ) (kids : Fin k → Cell σ ρ k) (d : Nat) :
    (refined r kids).look d [] = none := rfl

@[simp] theorem weigh_leaf (w : Weight σ ρ) (d : Nat) (s : σ) :
    (leaf s : Cell σ ρ k).weigh w d = w.leaf d s := rfl

theorem weigh_refined (w : Weight σ ρ) (d : Nat) (r : ρ) (kids : Fin k → Cell σ ρ k) :
    (refined r kids).weigh w d = w.node d r + ∑ i, (kids i).weigh w (d + 1) := rfl

theorem sum_update (f : Cell σ ρ k → Nat) (kids : Fin k → Cell σ ρ k) (i : Fin k) (y : Cell σ ρ k) :
    ∑ j, f (Function.update kids i y j) + f (kids i) = ∑ j, f (kids j) + f y := by
  have rest : ∑ j ∈ univ.erase i, f (Function.update kids i y j) = ∑ j ∈ univ.erase i,
      f (kids j) := by
    apply Finset.sum_congr rfl
    intro j hj
    rw [Function.update_of_ne (Finset.ne_of_mem_erase hj)]
  rw [← Finset.add_sum_erase univ _ (mem_univ i), ← Finset.add_sum_erase univ (fun j => f (kids j))
    (mem_univ i), rest, Function.update_self]
  ring

theorem weigh_set (w : Weight σ ρ) {x y : Cell σ ρ k} {p : List (Fin k)}
    (at_path : x.sub p = some y)
    (z : Cell σ ρ k) (d : Nat) :
    (x.set p z).weigh w d + y.weigh w (d + p.length) =
      x.weigh w d + z.weigh w (d + p.length) := by
  induction p generalizing x d with
  | nil =>
      cases Option.some.inj ((sub_nil x).symm.trans at_path)
      simp [Nat.add_comm]
  | cons i p ih =>
      cases x with
      | leaf s => cases at_path
      | refined r kids =>
          have below := ih (x := kids i) at_path (d + 1)
          have moved := sum_update (fun y => y.weigh w (d + 1)) kids i ((kids i).set p z)
          have depth : d + 1 + p.length = d + (i :: p).length := by
            simp only [List.length_cons]
            omega
          rw [set_refined, weigh_refined, weigh_refined]
          rw [depth] at below
          omega

theorem weigh_sub_le (w : Weight σ ρ) {x y : Cell σ ρ k} {p : List (Fin k)} (d : Nat)
    (at_path : x.sub p = some y) : y.weigh w (d + p.length) ≤ x.weigh w d := by
  induction p generalizing x d with
  | nil =>
      cases Option.some.inj ((sub_nil x).symm.trans at_path)
      exact Nat.le_refl _
  | cons i p ih =>
      cases x with
      | leaf s => cases at_path
      | refined r kids =>
          calc
            _ = y.weigh w (d + 1 + p.length) := by
              congr 1
              simp only [List.length_cons]
              omega
            _ ≤ (kids i).weigh w (d + 1) := ih (d + 1) at_path
            _ ≤ ∑ j, (kids j).weigh w (d + 1) :=
              Finset.single_le_sum (f := fun j => (kids j).weigh w (d + 1))
                (fun _ _ => Nat.zero_le _) (mem_univ i)
            _ ≤ _ := Nat.le_add_left _ _

theorem set_sub {x y : Cell σ ρ k} {p : List (Fin k)} (at_path : x.sub p = some y)
    (z : Cell σ ρ k) :
    (x.set p z).sub p = some z := by
  induction p generalizing x with
  | nil => simp
  | cons i p ih =>
      cases x with
      | leaf s => cases at_path
      | refined r kids =>
          rw [set_refined, sub_refined, Function.update_self]
          exact ih (x := kids i) at_path

theorem ne_leaf_of_sub {x : Cell σ ρ k} {p : List (Fin k)} {r : ρ} {kids : Fin k → Cell σ ρ k}
    (at_path : x.sub p = some (refined r kids)) (s : σ) : x ≠ leaf s := by
  rintro rfl
  cases p <;> cases at_path

theorem look_set {x y : Cell σ ρ k} {p : List (Fin k)} (at_path : x.sub p = some y)
    (z : Cell σ ρ k) (d : Nat) (q : List (Fin k)) :
    (x.set p z).look d q =
      if p <+: q then z.look (d + p.length) (q.drop p.length) else x.look d q := by
  induction p generalizing x d q with
  | nil => simp
  | cons i p ih =>
      cases x with
      | leaf s => cases at_path
      | refined r kids =>
          cases q with
          | nil => simp
          | cons j q =>
              rw [set_refined, look_refined, look_refined]
              by_cases same : j = i
              · subst same
                have depth : d + 1 + p.length = d + (j :: p).length := by
                  simp only [List.length_cons]
                  omega
                rw [Function.update_self, ih (x := kids j) at_path, depth]
                simp [List.cons_prefix_cons]
              · rw [Function.update_of_ne same, if_neg]
                rintro ⟨rest, equal⟩
                exact same (List.cons.inj equal).1.symm

theorem sub_append {x y : Cell σ ρ k} {p : List (Fin k)} (at_path : x.sub p = some y)
    (q : List (Fin k)) : x.sub (p ++ q) = y.sub q := by
  induction p generalizing x with
  | nil =>
      cases Option.some.inj ((sub_nil x).symm.trans at_path)
      rfl
  | cons i p ih =>
      cases x with
      | leaf s => cases at_path
      | refined r kids => exact ih (x := kids i) at_path

theorem look_sub {x y : Cell σ ρ k} {p : List (Fin k)} (at_path : x.sub p = some y) (d : Nat)
    (q : List (Fin k)) : x.look d (p ++ q) = y.look (d + p.length) q := by
  induction p generalizing x d with
  | nil =>
      cases Option.some.inj ((sub_nil x).symm.trans at_path)
      rfl
  | cons i p ih =>
      cases x with
      | leaf s => cases at_path
      | refined r kids =>
          rw [List.cons_append, look_refined, ih (x := kids i) at_path, List.length_cons]
          congr 1
          omega

theorem sum_run {f g : Fin k → Nat} {start m a : Nat} (inside : start + m ≤ k)
    (run : ∀ i : Fin k, start ≤ i → i < start + m → g i = f i + a)
    (off : ∀ i : Fin k, ¬ (start ≤ i ∧ i < start + m) → g i = f i) : ∑ i, g i = ∑ i,
    f i + m * a := by
  have each : ∀ i, g i = f i + if start ≤ i.val ∧ i.val < start + m then a else 0 := by
    intro i
    split
    · exact run i (by omega) (by omega)
    · exact off i (by omega)
  have size : ∑ i : Fin k, (if start ≤ i.val ∧ i.val < start + m then a else 0) = m * a := by
    rw [Fin.sum_univ_eq_sum_range (fun i => if start ≤ i ∧ i < start + m then a else 0) k,
      ← Finset.sum_filter]
    have run : (range k).filter (fun i => start ≤ i ∧ i < start + m) = Finset.Ico start
        (start + m) := by
      ext i
      simp only [Finset.mem_filter, Finset.mem_range, Finset.mem_Ico]
      omega
    rw [run, Finset.sum_const, Nat.card_Ico, smul_eq_mul, Nat.add_sub_cancel_left]
  rw [Finset.sum_congr rfl fun i _ => each i, Finset.sum_add_distrib, size]

end Cell

open Cell

variable [DecidableEq ρ]

/-- The references to a record. -/
def refs (r : ρ) : Weight σ ρ where
  leaf _ _ := 0
  node _ r' := if r' = r then 1 else 0

@[simp] theorem refs_leaf (r : ρ) (d : Nat) (s : σ) : (refs r : Weight σ ρ).leaf d s = 0 := rfl

theorem refs_depth (r : ρ) (x : Cell σ ρ k) (d d' : Nat) :
    x.weigh (refs r) d = x.weigh (refs r) d' := by
  induction x generalizing d d' with
  | leaf s => rfl
  | refined r' kids ih =>
      rw [weigh_refined, weigh_refined]
      congr 1
      exact Finset.sum_congr rfl fun i _ => ih i (d + 1) (d' + 1)

def Cell.refCount (x : Cell σ ρ k) (r : ρ) : Nat := x.weigh (refs r) 0

@[simp] theorem refCount_leaf (s : σ) (r : ρ) : (leaf s : Cell σ ρ k).refCount r = 0 := rfl

theorem refCount_refined (r r' : ρ) (kids : Fin k → Cell σ ρ k) :
    (refined r kids).refCount r' = (if r = r' then 1 else 0) + ∑ i, (kids i).refCount r' := by
  rw [Cell.refCount, weigh_refined]
  congr 1
  exact Finset.sum_congr rfl fun i _ => refs_depth r' (kids i) 1 0

theorem refCount_self (r : ρ) (kids : Fin k → Cell σ ρ k) : 0 < (refined r kids).refCount r := by
  rw [refCount_refined, if_pos rfl]
  omega

theorem refCount_kid_le (r r' : ρ) (kids : Fin k → Cell σ ρ k) (i : Fin k) :
    (kids i).refCount r' ≤ (refined r kids).refCount r' := by
  calc
    _ ≤ ∑ j, (kids j).refCount r' :=
      Finset.single_le_sum (f := fun j => (kids j).refCount r') (fun _ _ => Nat.zero_le _)
        (mem_univ i)
    _ ≤ _ := by
      rw [refCount_refined]
      omega

theorem refCount_other {r r' : ρ} {kids : Fin k → Cell σ ρ k} {i j : Fin k} (other : j ≠ i)
    (once : (refined r kids).refCount r' ≤ 1) (here : 0 < (kids i).refCount r') :
    (kids j).refCount r' = 0 := by
  have pair : (kids i).refCount r' + (kids j).refCount r' ≤ ∑ l, (kids l).refCount r' := by
    rw [← Finset.add_sum_erase univ (fun l => (kids l).refCount r') (mem_univ i)]
    exact Nat.add_le_add_left (Finset.single_le_sum (f := fun l => (kids l).refCount r')
      (fun _ _ => Nat.zero_le _) (Finset.mem_erase.mpr ⟨other, mem_univ j⟩)) _
  rw [refCount_refined] at once
  omega

theorem ne_of_refCount_kid {r r' : ρ} {kids : Fin k → Cell σ ρ k} {i : Fin k}
    (once : (refined r kids).refCount r' ≤ 1) (here : 0 < (kids i).refCount r') : r ≠ r' := by
  intro equal
  have kid : (kids i).refCount r' ≤ ∑ j, (kids j).refCount r' :=
    Finset.single_le_sum (f := fun j => (kids j).refCount r') (fun _ _ => Nat.zero_le _)
      (mem_univ i)
  rw [refCount_refined, if_pos equal] at once
  omega

theorem refCount_sub_pos {x : Cell σ ρ k} {p : List (Fin k)} {r : ρ} {kids : Fin k → Cell σ ρ k}
    (at_path : x.sub p = some (refined r kids)) : 0 < x.refCount r := by
  have le := weigh_sub_le (refs r) 0 at_path
  rw [refs_depth r _ _ 0] at le
  exact Nat.lt_of_lt_of_le (refCount_self r kids) le

theorem refCount_set {x y : Cell σ ρ k} {p : List (Fin k)} (at_path : x.sub p = some y)
    (z : Cell σ ρ k) (r : ρ) :
    (x.set p z).refCount r + y.refCount r = x.refCount r + z.refCount r := by
  have moved := weigh_set (refs r) at_path z 0
  rwa [refs_depth r y _ 0, refs_depth r z _ 0] at moved

omit [DecidableEq ρ] in
/-- The store holds the tree below a mark. -/
def Models (kid : ρ → Fin k → Mark σ ρ) : Mark σ ρ → Cell σ ρ k → Prop
  | m, .leaf s => m = .leaf s
  | m, .refined r kids => m = .refined r ∧ ∀ i, Models kid (kid r i) (kids i)

variable {kid kid' : ρ → Fin k → Mark σ ρ} {m : Mark σ ρ}

omit [DecidableEq ρ] in
theorem Models.leaf_inv {s : σ} {x : Cell σ ρ k} (h : Models kid (.leaf s) x) : x = .leaf s := by
  cases x with
  | leaf s' => cases h; rfl
  | refined r kids => cases h.1

omit [DecidableEq ρ] in
theorem Models.refined_inv {r : ρ} {x : Cell σ ρ k} (h : Models kid (.refined r) x) :
    ∃ kids, x = .refined r kids ∧ ∀ i, Models kid (kid r i) (kids i) := by
  cases x with
  | leaf s => cases h
  | refined r' kids =>
      cases h.1
      exact ⟨kids, rfl, h.2⟩

omit [DecidableEq ρ] in
theorem Models.unique {x y : Cell σ ρ k} (hx : Models kid m x) (hy : Models kid m y) : x = y := by
  induction x generalizing m y with
  | leaf s =>
      cases hx
      exact hy.leaf_inv.symm
  | refined r kids ih =>
      cases hx.1
      obtain ⟨kids', rfl, below⟩ := hy.refined_inv
      congr 1
      funext i
      exact ih i (hx.2 i) (below i)

omit [DecidableEq ρ] in
theorem Models.sub {x : Cell σ ρ k} {p : List (Fin k)} {r : ρ} {kids : Fin k → Cell σ ρ k}
    (h : Models kid m x) (at_path : x.sub p = some (refined r kids)) (i : Fin k) :
    Models kid (kid r i) (kids i) := by
  induction p generalizing m x with
  | nil =>
      cases Option.some.inj ((sub_nil x).symm.trans at_path)
      exact h.2 i
  | cons j p ih =>
      cases x with
      | leaf s => cases at_path
      | refined r' kids' => exact ih (h.2 j) at_path

theorem Models.frame {x : Cell σ ρ k} (h : Models kid m x)
    (same : ∀ r, 0 < x.refCount r → kid' r = kid r) : Models kid' m x := by
  induction x generalizing m with
  | leaf s => exact h
  | refined r kids ih =>
      refine ⟨h.1, fun i => ?_⟩
      rw [same r (refCount_self r kids)]
      exact ih i (h.2 i) fun r' here =>
        same r' (Nat.lt_of_lt_of_le here (refCount_kid_le r r' kids i))

/-- The record at the end of a path is rewritten: each child keeps its tree or gets a new one. Only
the records of the new tree matter. -/
theorem Models.rewrite {x : Cell σ ρ k} {p : List (Fin k)} {r : ρ} {kids kids' : Fin k → Cell σ ρ k}
    (h : Models kid m x) (at_path : x.sub p = some (refined r kids)) (once : x.refCount r ≤ 1)
    (same : ∀ r', r' ≠ r → 0 < (x.set p (refined r kids')).refCount r' → kid' r' = kid r')
    (children : ∀ i, kid' r i = kid r i ∧ kids' i = kids i ∨ Models kid' (kid' r i) (kids' i)) :
    Models kid' m (x.set p (refined r kids')) := by
  induction p generalizing m x with
  | nil =>
      cases Option.some.inj ((sub_nil x).symm.trans at_path)
      rw [set_nil] at same ⊢
      refine ⟨h.1, fun i => ?_⟩
      rcases children i with ⟨kept, tree⟩ | new
      · rw [kept, tree]
        apply (h.2 i).frame
        intro r' here
        have other : r' ≠ r := by
          rintro rfl
          exact ne_of_refCount_kid once here rfl
        exact same r' other (Nat.lt_of_lt_of_le (tree ▸ here) (refCount_kid_le r r' kids' i))
      · exact new
  | cons i p ih =>
      cases x with
      | leaf s => cases at_path
      | refined r₀ kids₀ =>
          have here : 0 < (kids₀ i).refCount r := refCount_sub_pos at_path
          have parent : r₀ ≠ r := ne_of_refCount_kid once here
          rw [set_refined] at same ⊢
          refine ⟨h.1, fun j => ?_⟩
          rw [same r₀ parent (refCount_self r₀ _)]
          by_cases path : j = i
          · subst path
            rw [Function.update_self]
            apply ih (h.2 j) at_path (Nat.le_trans (refCount_kid_le r₀ r kids₀ j) once)
            intro r' other pos
            apply same r' other (Nat.lt_of_lt_of_le _ (refCount_kid_le r₀ r' _ j))
            rwa [Function.update_self]
          · rw [Function.update_of_ne path]
            apply (h.2 j).frame
            intro r' pos
            have other : r' ≠ r := by
              rintro rfl
              rw [refCount_other path once here] at pos
              exact Nat.lt_irrefl 0 pos
            apply same r' other (Nat.lt_of_lt_of_le _ (refCount_kid_le r₀ r' _ j))
            rwa [Function.update_of_ne path]

/-- A forest: the trees of the root cells `0..n`. -/
def total (n : Nat) (w : Nat → Weight σ ρ) (T : Nat → Cell σ ρ k) : Nat :=
  ∑ c ∈ range n, (T c).weigh (w c) 0

omit [DecidableEq ρ] in
theorem total_update (n : Nat) (w : Nat → Weight σ ρ) (T : Nat → Cell σ ρ k) {c : Nat} (hc : c < n)
    (x : Cell σ ρ k) :
    total n w (Function.update T c x) + (T c).weigh (w c) 0 = total n w T + x.weigh (w c) 0 := by
  have member : c ∈ range n := mem_range.mpr hc
  have rest : ∑ j ∈ (range n).erase c, (Function.update T c x j).weigh (w j) 0 =
      ∑ j ∈ (range n).erase c, (T j).weigh (w j) 0 := by
    apply Finset.sum_congr rfl
    intro j hj
    rw [Function.update_of_ne (Finset.ne_of_mem_erase hj)]
  rw [total, total, ← Finset.add_sum_erase _ _ member, ← Finset.add_sum_erase _ _ member, rest,
    Function.update_self]
  ring

omit [DecidableEq ρ] in
theorem le_total (n : Nat) (w : Nat → Weight σ ρ) (T : Nat → Cell σ ρ k) {c : Nat} (hc : c < n) :
    (T c).weigh (w c) 0 ≤ total n w T :=
  Finset.single_le_sum (f := fun c => (T c).weigh (w c) 0) (fun _ _ => Nat.zero_le _)
    (mem_range.mpr hc)

/-- References to a record in a forest. -/
def refTotal (n : Nat) (T : Nat → Cell σ ρ k) (r : ρ) : Nat := ∑ c ∈ range n, (T c).refCount r

theorem refTotal_update (n : Nat) (T : Nat → Cell σ ρ k) {c : Nat} (hc : c < n) (x : Cell σ ρ k)
    (r : ρ) :
    refTotal n (Function.update T c x) r + (T c).refCount r = refTotal n T r + x.refCount r :=
  total_update n (fun _ => refs r) T hc x

theorem refCount_le_refTotal {n c : Nat} (hc : c < n) (T : Nat → Cell σ ρ k) (r : ρ) :
    (T c).refCount r ≤ refTotal n T r :=
  le_total n (fun _ => refs r) T hc

theorem refCount_other_tree {n c c' : Nat} {T : Nat → Cell σ ρ k} {r : ρ} (hc : c < n)
    (hc' : c' < n)
    (other : c' ≠ c) (once : refTotal n T r ≤ 1) (here : 0 < (T c).refCount r) :
    (T c').refCount r = 0 := by
  have pair : (T c).refCount r + (T c').refCount r ≤ refTotal n T r := by
    rw [refTotal, ← Finset.add_sum_erase _ (fun l => (T l).refCount r) (mem_range.mpr hc)]
    exact Nat.add_le_add_left (Finset.single_le_sum (f := fun l => (T l).refCount r)
      (fun _ _ => Nat.zero_le _) (Finset.mem_erase.mpr ⟨other, mem_range.mpr hc'⟩)) _
  omega

/-- The forest with one cell of tree `c` replaced. -/
def setAt (T : Nat → Cell σ ρ k) (c : Nat) (p : List (Fin k)) (y : Cell σ ρ k) : Nat → Cell σ ρ k :=
  Function.update T c ((T c).set p y)

omit [DecidableEq ρ] in
theorem setAt_nil (T : Nat → Cell σ ρ k) (c : Nat) (y : Cell σ ρ k) :
    setAt T c [] y = Function.update T c y := by
  rw [setAt, set_nil]

omit [DecidableEq ρ] in
@[simp] theorem setAt_self (T : Nat → Cell σ ρ k) (c : Nat) (p : List (Fin k)) (y : Cell σ ρ k) :
    setAt T c p y c = (T c).set p y := Function.update_self ..

omit [DecidableEq ρ] in
theorem setAt_of_ne {T : Nat → Cell σ ρ k} {c c' : Nat} (other : c' ≠ c) (p : List (Fin k))
    (y : Cell σ ρ k) : setAt T c p y c' = T c' := Function.update_of_ne other ..

omit [DecidableEq ρ] in
theorem total_setAt {n c : Nat} (w : Nat → Weight σ ρ) {T : Nat → Cell σ ρ k} {p : List (Fin k)}
    {x : Cell σ ρ k} (hc : c < n) (at_path : (T c).sub p = some x) (y : Cell σ ρ k) :
    total n w (setAt T c p y) + x.weigh (w c) p.length = total n w T + y.weigh (w c) p.length := by
  have tree := weigh_set (w c) at_path y 0
  have forest := total_update n w T hc ((T c).set p y)
  rw [Nat.zero_add] at tree
  rw [setAt]
  omega

theorem refTotal_setAt {n c : Nat} {T : Nat → Cell σ ρ k} {p : List (Fin k)} {x : Cell σ ρ k}
    (hc : c < n) (at_path : (T c).sub p = some x) (y : Cell σ ρ k) (r : ρ) :
    refTotal n (setAt T c p y) r + x.refCount r = refTotal n T r + y.refCount r := by
  have tree := refCount_set at_path y r
  have forest := refTotal_update n T hc ((T c).set p y) r
  rw [setAt]
  omega

omit [DecidableEq ρ] in
theorem weigh_le_total {n c : Nat} (w : Nat → Weight σ ρ) {T : Nat → Cell σ ρ k} {p : List (Fin k)}
    {x : Cell σ ρ k} (hc : c < n) (at_path : (T c).sub p = some x) :
    x.weigh (w c) p.length ≤ total n w T := by
  have tree := weigh_sub_le (w c) 0 at_path
  rw [Nat.zero_add] at tree
  exact Nat.le_trans tree (le_total n w T hc)

omit [DecidableEq ρ] in
theorem total_setKid {n c : Nat} (w : Nat → Weight σ ρ) {T : Nat → Cell σ ρ k} {p : List (Fin k)}
    {r : ρ}
    {kids : Fin k → Cell σ ρ k} (hc : c < n) (at_path : (T c).sub p = some (refined r kids))
    (i : Fin k)
    (y : Cell σ ρ k) :
    total n w (setAt T c p (refined r (Function.update kids i y))) +
        (kids i).weigh (w c) (p.length + 1) =
      total n w T + y.weigh (w c) (p.length + 1) := by
  have moved := total_setAt w hc at_path (refined r (Function.update kids i y))
  have child := sum_update (fun y => y.weigh (w c) (p.length + 1)) kids i y
  rw [weigh_refined, weigh_refined] at moved
  omega

theorem refTotal_setKid {n c : Nat} {T : Nat → Cell σ ρ k} {p : List (Fin k)} {r : ρ}
    {kids : Fin k → Cell σ ρ k} (hc : c < n) (at_path : (T c).sub p = some (refined r kids))
    (i : Fin k)
    (y : Cell σ ρ k) (r' : ρ) :
    refTotal n (setAt T c p (refined r (Function.update kids i y))) r' + (kids i).refCount r' =
      refTotal n T r' + y.refCount r' := by
  have moved := refTotal_setAt hc at_path (refined r (Function.update kids i y)) r'
  have child := sum_update (fun y => y.refCount r') kids i y
  rw [refCount_refined, refCount_refined] at moved
  omega

end Refine
