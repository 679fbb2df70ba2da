import FiveFs.Lib.Refine

/-! Releasing a leaf of a refinement tree: a record whose children all become the released leaf is
given up. -/

namespace Refine.Cell

variable {σ ρ : Type} {k : Nat} [DecidableEq σ] {s : σ} {r : ρ} {x y : Cell σ ρ k}
    {kids : Fin k → Cell σ ρ k}

def isLeaf (s : σ) : Cell σ ρ k → Bool
  | leaf s' => decide (s' = s)
  | refined _ _ => false

@[simp] theorem isLeaf_iff : x.isLeaf s = true ↔ x = leaf s := by
  cases x with
  | leaf s' => simp [isLeaf]
  | refined r kids => simp [isLeaf]

/-- A record is kept unless its children are all the leaf `s`. -/
def coarsen (s : σ) (r : ρ) (kids : Fin k → Cell σ ρ k) : Cell σ ρ k :=
  if ∀ i, (kids i).isLeaf s = true then leaf s else refined r kids

/-- The cell at the end of a path becomes the leaf `s`, and the records above it coarsen. -/
def release (s : σ) : Cell σ ρ k → List (Fin k) → Cell σ ρ k
  | _, [] => leaf s
  | leaf s', _ :: _ => leaf s'
  | refined r kids, i :: p => coarsen s r (Function.update kids i ((kids i).release s p))

@[simp] theorem release_nil (x : Cell σ ρ k) : x.release s [] = leaf s := by
  cases x <;> rfl

@[simp] theorem release_refined (i : Fin k) (p : List (Fin k)) :
    (refined r kids).release s (i :: p) = coarsen s r
    (Function.update kids i ((kids i).release s p)) := rfl

theorem coarsen_all (all : ∀ i, kids i = leaf s) (r : ρ) : coarsen s r kids = leaf s :=
  if_pos fun i => isLeaf_iff.mpr (all i)

theorem coarsen_other {i : Fin k} (other : kids i ≠ leaf s) (r : ρ) :
    coarsen s r kids = refined r kids :=
  if_neg fun all => other (isLeaf_iff.mp (all i))

theorem coarsen_cases (s : σ) (r : ρ) (kids : Fin k → Cell σ ρ k) : (∀ i, kids i = leaf s) ∧
    coarsen s r kids = leaf s ∨
    (∃ i, kids i ≠ leaf s) ∧ coarsen s r kids = refined r kids := by
  by_cases all : ∀ i, kids i = leaf s
  · exact Or.inl ⟨all, coarsen_all all r⟩
  · obtain ⟨i, other⟩ := not_forall.mp all
    exact Or.inr ⟨⟨i, other⟩, coarsen_other other r⟩

theorem weigh_coarsen {w : Weight σ ρ} {d : Nat}
    (balanced : w.node d r + k * w.leaf (d + 1) s = w.leaf d s) :
    (coarsen s r kids).weigh w d = (refined r kids).weigh w d := by
  rcases coarsen_cases s r kids with ⟨all, gone⟩ | ⟨_, kept⟩
  · have sum : ∑ i, (kids i).weigh w (d + 1) = k * w.leaf (d + 1) s := by
      rw [Finset.sum_congr rfl fun i _ => by rw [all i, weigh_leaf], Finset.sum_const,
          Finset.card_univ, Fintype.card_fin,
        smul_eq_mul]
    rw [gone, weigh_refined, weigh_leaf, sum, balanced]
  · rw [kept]

theorem weigh_release {w : Weight σ ρ} {p : List (Fin k)} {d : Nat} (at_path : x.sub p = some y)
    (balanced : ∀ e r, d ≤ e → e < d + p.length → w.node e r + k * w.leaf (e + 1) s = w.leaf e s) :
    (x.release s p).weigh w d + y.weigh w (d + p.length) = x.weigh w d + w.leaf (d + p.length)
    s := by
  induction p generalizing x d with
  | nil =>
      cases Option.some.inj ((sub_nil x).symm.trans at_path)
      rw [release_nil, weigh_leaf]
      exact Nat.add_comm _ _
  | cons i p ih =>
      cases x with
      | leaf s' => cases at_path
      | refined r kids =>
          have depth : d + (i :: p).length = d + 1 + p.length := by
            rw [List.length_cons]
            omega
          rw [depth] at balanced ⊢
          have below := ih (x := kids i) at_path fun e r low high => balanced e r (by omega) high
          have moved := sum_update (fun x => x.weigh w (d + 1)) kids i ((kids i).release s p)
          rw [release_refined, weigh_coarsen (balanced d r (Nat.le_refl d) (by omega)),
              weigh_refined, weigh_refined]
          omega

omit [DecidableEq σ] in
theorem look_depth {q : List (Fin k)} {d e : Nat} {s : σ} (met : x.look d q = some (s, e)) :
    d ≤ e := by
  induction x generalizing d q with
  | leaf s' =>
      rw [look_leaf] at met
      exact Nat.le_of_eq (Prod.mk.inj (Option.some.inj met)).2
  | refined r kids ih =>
      cases q with
      | nil => cases met
      | cons i q => exact Nat.le_of_succ_le (ih i met)

omit [DecidableEq σ] in
theorem sub_of_look {q : List (Fin k)} {d n : Nat} {s : σ} (met : x.look d q = some (s, d + n)) :
    x.sub (q.take n) = some (leaf s) := by
  induction n generalizing x d q with
  | zero =>
      rw [List.take_zero, sub_nil]
      cases x with
      | leaf s' =>
          rw [look_leaf] at met
          cases met
          rfl
      | refined r kids =>
          cases q with
          | nil => cases met
          | cons i q =>
              have deeper := look_depth (x := kids i) met
              omega
  | succ n ih =>
      cases x with
      | leaf s' =>
          rw [look_leaf] at met
          have depth := (Prod.mk.inj (Option.some.inj met)).2
          omega
      | refined r kids =>
          cases q with
          | nil => cases met
          | cons i q =>
              rw [look_refined, show d + (n + 1) = d + 1 + n by omega] at met
              exact ih (x := kids i) met

theorem look_coarsen (s : σ) (r : ρ) (kids : Fin k → Cell σ ρ k) (d : Nat) (i : Fin k)
    (q : List (Fin k)) :
    (coarsen s r kids).look d (i :: q) = (kids i).look (d + 1) q ∨
      (kids i).look (d + 1) q = some (s, d + 1) ∧
      (coarsen s r kids).look d (i :: q) = some (s, d) := by
  rcases coarsen_cases s r kids with ⟨all, gone⟩ | ⟨_, kept⟩
  · right
    rw [gone, all i, look_leaf, look_leaf]
    exact ⟨rfl, rfl⟩
  · left
    rw [kept, look_refined]

theorem look_release {p q : List (Fin k)} (at_path : x.sub p = some y) (through : p <+: q)
    (d : Nat) :
    ∃ e, d ≤ e ∧ e ≤ d + p.length ∧ (x.release s p).look d q = some (s, e) := by
  induction p generalizing x d q with
  | nil => exact ⟨d, Nat.le_refl d, Nat.le_refl d, by rw [release_nil, look_leaf]⟩
  | cons i p ih =>
      cases x with
      | leaf s' => cases at_path
      | refined r kids =>
          obtain ⟨q, rfl⟩ := through
          obtain ⟨e, low, high, met⟩ := ih (x := kids i) at_path (List.prefix_append p q) (d + 1)
          rw [List.length_cons, release_refined, List.cons_append]
          rcases look_coarsen s r (Function.update kids i ((kids i).release s p)) d i
              (p ++ q) with same | ⟨_, up⟩
          · rw [same, Function.update_self, met]
            exact ⟨e, by omega, by omega, rfl⟩
          · exact ⟨d, Nat.le_refl d, by omega, up⟩

theorem look_release_other {p q : List (Fin k)} (at_path : x.sub p = some y) (off : ¬ p <+: q)
    (long : p.length ≤ q.length)
    (d : Nat) : (x.release s p).look d q = x.look d q ∨
      ∃ e e', e ≤ e' ∧ e' ≤ d + p.length ∧ x.look d q = some (s, e') ∧
      (x.release s p).look d q = some (s, e) := by
  induction p generalizing x d q with
  | nil => exact absurd List.nil_prefix off
  | cons i p ih =>
      cases x with
      | leaf s' => cases at_path
      | refined r kids =>
          cases q with
          | nil => simp at long
          | cons j q =>
              rw [List.length_cons, release_refined, look_refined]
              have child : (Function.update kids i ((kids i).release s p) j).look (d + 1)
                  q = (kids j).look (d + 1) q ∨
                  ∃ e e', e ≤ e' ∧ e' ≤ d + 1 + p.length ∧ (kids j).look (d + 1) q = some (s, e') ∧
                    (Function.update kids i ((kids i).release s p) j).look (d + 1) q = some
                    (s, e) := by
                by_cases path : j = i
                · subst path
                  rw [Function.update_self]
                  exact ih (x := kids j) at_path (fun inside =>
                      off (List.cons_prefix_cons.mpr ⟨rfl, inside⟩))
                    (by simpa using long) (d + 1)
                · rw [Function.update_of_ne path]
                  exact Or.inl rfl
              rcases look_coarsen s r (Function.update kids i ((kids i).release s p)) d j
                  q with same | ⟨met, up⟩
              · rw [same]
                rcases child with same' | ⟨e, e', le, high, was, now⟩
                · exact Or.inl same'
                · exact Or.inr ⟨e, e', le, by omega, was, now⟩
              · right
                rcases child with same' | ⟨e, e', le, high, was, now⟩
                · exact ⟨d, d + 1, by omega, by omega, same' ▸ met, up⟩
                · rw [now] at met
                  cases met
                  exact ⟨d, e', by omega, by omega, was, up⟩

/-- The same tree, but for the records it is kept in. -/
def SameShape : Cell σ ρ k → Cell σ ρ k → Prop
  | leaf s, leaf s' => s = s'
  | refined _ kids, refined _ kids' => ∀ i, SameShape (kids i) (kids' i)
  | _, _ => False

omit [DecidableEq σ] in
theorem SameShape.weigh {w : Weight σ ρ} (alike : ∀ d r r', w.node d r = w.node d r')
    {x y : Cell σ ρ k}
    (same : SameShape x y) (d : Nat) : x.weigh w d = y.weigh w d := by
  induction x generalizing y d with
  | leaf s =>
      cases y with
      | leaf s' => rw [show s = s' from same]
      | refined r' kids' => exact same.elim
  | refined r kids ih =>
      cases y with
      | leaf s' => exact same.elim
      | refined r' kids' =>
          rw [weigh_refined, weigh_refined, alike d r r',
              Finset.sum_congr rfl fun i _ => ih i (same i) (d + 1)]

end Refine.Cell
