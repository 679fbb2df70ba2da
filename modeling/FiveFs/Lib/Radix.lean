import Mathlib.Algebra.BigOperators.Intervals
import Mathlib.Algebra.Order.BigOperators.Group.Finset
import Mathlib.Tactic.Common

/-! Radix trees over ranges of numbers: a child of level `l` stands for `k ^ l` of them, and is a
hole, a run at its start, or a node with `k` children of the level below. Nodes and runs take their
places from one store. -/

namespace Radix

inductive Cover
  | hole
  | run (n a : Nat)
  | node (r : Nat) (kids : Nat → Cover)

variable (k : Nat)

namespace Cover

/-- `x`, of level `l` and for the numbers from `s` on, maps `f` to `b`. -/
def Maps : Cover → Nat → Nat → Nat → Nat → Prop
  | hole, _, _, _, _ => False
  | run n a, _, s, f, b => s ≤ f ∧ f < s + n ∧ b = a + (f - s)
  | node _ kids, l, s, f, b => ∃ i < k, (kids i).Maps (l - 1) (s + i * k ^ (l - 1)) f b

/-- How often `x` takes the place `b`. -/
def uses : Cover → Nat → Nat
  | hole, _ => 0
  | run n a, b => if a ≤ b ∧ b < a + n then 1 else 0
  | node r kids, b => (if r = b then 1 else 0) + ∑ i ∈ Finset.range k, (kids i).uses b

/-- How many numbers the runs of `x` are for. -/
def data : Cover → Nat
  | hole => 0
  | run n _ => n
  | node _ kids => ∑ i ∈ Finset.range k, (kids i).data

/-- One of the nodes of `x` is at `b`. -/
def HasNode : Cover → Nat → Prop
  | hole, _ => False
  | run _ _, _ => False
  | node r kids, b => r = b ∨ ∃ i < k, (kids i).HasNode b

/-- No run is empty or leaves its child, each lies as `P` has it, and nodes end at level 0. -/
def Fits (P : Nat → Nat → Prop) : Cover → Nat → Prop
  | hole, _ => True
  | run n a, l => 0 < n ∧ n ≤ k ^ l ∧ P n a
  | node _ kids, l => 0 < l ∧ ∀ i < k, (kids i).Fits P (l - 1)

end Cover

/-! The children of a node, or of a root, which may have another number of them. -/

/-- `n` children of level `l` map `f` to `b`. -/
def Maps (n : Nat) (kids : Nat → Cover) (l s f b : Nat) : Prop := ∃ i < n,
    (kids i).Maps k l (s + i * k ^ l) f b

def uses (n : Nat) (kids : Nat → Cover) (b : Nat) : Nat := ∑ i ∈ Finset.range n, (kids i).uses k b

/-- One of the nodes of the children is at `b`. -/
def Nodes (n : Nat) (kids : Nat → Cover) (b : Nat) : Prop := ∃ i < n, (kids i).HasNode k b

section Range

variable {k} {P : Nat → Nat → Prop} {x : Cover} {l s f b : Nat}

theorem pow_level (k : Nat) (some : 0 < l) : k ^ l = k * k ^ (l - 1) := by
  obtain ⟨m, rfl⟩ := Nat.exists_eq_succ_of_ne_zero (Nat.ne_of_gt some)
  exact Nat.pow_succ'

theorem Cover.Maps.range (maps : x.Maps k l s f b) (fits : x.Fits k P l) : s ≤ f ∧
    f < s + k ^ l := by
  induction x generalizing l s with
  | hole => exact maps.elim
  | run n a =>
      obtain ⟨low, high, _⟩ := maps
      obtain ⟨_, covered, _⟩ := fits
      omega
  | node r kids ih =>
      obtain ⟨i, hi, below⟩ := maps
      obtain ⟨some, all⟩ := fits
      obtain ⟨low, high⟩ := ih i below (all i hi)
      have whole := pow_level k some
      have next : (i + 1) * k ^ (l - 1) ≤ k * k ^ (l - 1) := Nat.mul_le_mul_right _ hi
      rw [Nat.succ_mul] at next
      omega

theorem index_unique {c i j : Nat} (low : s + i * c ≤ f) (high : f < s + i * c + c)
    (low' : s + j * c ≤ f)
    (high' : f < s + j * c + c) : i = j := by
  have below : ∀ {i j : Nat}, i < j → s + j * c ≤ f → ¬ f < s + i * c + c := by
    intro i j less start
    have next : (i + 1) * c ≤ j * c := Nat.mul_le_mul_right c less
    rw [Nat.succ_mul] at next
    omega
  rcases Nat.lt_trichotomy i j with less | same | more
  · exact absurd high (below less low')
  · exact same
  · exact absurd high' (below more low)

theorem index_of {c n : Nat} (inside : f < s + n * c) (start : s ≤ f) :
    (f - s) / c < n ∧ s + (f - s) / c * c ≤ f ∧ f < s + (f - s) / c * c + c := by
  have some : 0 < c := by
    rcases Nat.eq_zero_or_pos c with rfl | some
    · omega
    · exact some
  have split := Nat.div_add_mod' (f - s) c
  have rest := Nat.mod_lt (f - s) some
  refine ⟨Nat.div_lt_of_lt_mul ?_, by omega, by omega⟩
  rw [Nat.mul_comm]
  omega

theorem Cover.Maps.unique {b' : Nat} (fits : x.Fits k P l) (maps : x.Maps k l s f b)
    (maps' : x.Maps k l s f b') :
    b = b' := by
  induction x generalizing l s with
  | hole => exact maps.elim
  | run n a => exact maps.2.2.trans maps'.2.2.symm
  | node r kids ih =>
      obtain ⟨i, hi, below⟩ := maps
      obtain ⟨j, hj, below'⟩ := maps'
      obtain ⟨low, high⟩ := below.range (fits.2 i hi)
      obtain ⟨low', high'⟩ := below'.range (fits.2 j hj)
      obtain rfl := index_unique low high low' high'
      exact ih i (fits.2 i hi) below below'

theorem Cover.uses_pos (maps : x.Maps k l s f b) : 0 < x.uses k b := by
  induction x generalizing l s with
  | hole => exact maps.elim
  | run n a =>
      obtain ⟨low, high, rfl⟩ := maps
      rw [Cover.uses, if_pos (by omega)]
      exact Nat.one_pos
  | node r kids ih =>
      obtain ⟨i, hi, below⟩ := maps
      rw [Cover.uses]
      exact Nat.lt_of_lt_of_le (Nat.lt_of_lt_of_le (ih i below) (Finset.single_le_sum
        (f := fun i => (kids i).uses k b) (fun _ _ => Nat.zero_le _) (Finset.mem_range.mpr hi)))
        (Nat.le_add_left _ _)

end Range

section Kids

variable {k} {P : Nat → Nat → Prop} {n : Nat} {kids : Nat → Cover} {y : Cover} {i l s f b : Nat}

theorem uses_kid_le (hi : i < n) (b : Nat) : (kids i).uses k b ≤ uses k n kids b :=
  Finset.single_le_sum (f := fun i => (kids i).uses k b) (fun _ _ => Nat.zero_le _)
  (Finset.mem_range.mpr hi)

theorem uses_pair (kids : Nat → Cover) {j : Nat} (hi : i < n) (hj : j < n) (other : i ≠ j)
    (b : Nat) :
    (kids i).uses k b + (kids j).uses k b ≤ uses k n kids b := by
  rw [uses, ← Finset.add_sum_erase _ _ (Finset.mem_range.mpr hi)]
  exact Nat.add_le_add_left (Finset.single_le_sum (f := fun i => (kids i).uses k b)
      (fun _ _ => Nat.zero_le _)
    (Finset.mem_erase.mpr ⟨Ne.symm other, Finset.mem_range.mpr hj⟩)) _

theorem uses_apart {j : Nat} (once : uses k n kids b ≤ 1) (hi : i < n) (hj : j < n) (other : j ≠ i)
    (here : 0 < (kids i).uses k b) : (kids j).uses k b = 0 := by
  have pair := uses_pair (k := k) kids hi hj (Ne.symm other) b
  omega

theorem sum_update {g : Cover → Nat} (hi : i < n) :
    ∑ j ∈ Finset.range n, g (Function.update kids i y j) + g (kids i) = ∑ j ∈ Finset.range n,
    g (kids j) + g y := by
  have member := Finset.mem_range.mpr hi
  have rest : ∑ j ∈ (Finset.range n).erase i, g
      (Function.update kids i y j) = ∑ j ∈ (Finset.range n).erase i, g (kids j) := by
    apply Finset.sum_congr rfl
    intro j hj
    rw [Function.update_of_ne (Finset.ne_of_mem_erase hj)]
  rw [← Finset.add_sum_erase _ _ member, ← Finset.add_sum_erase _ (fun j => g (kids j)) member,
      rest,
    Function.update_self]
  omega

theorem uses_update (kids : Nat → Cover) (hi : i < n) (y : Cover) (b : Nat) :
    uses k n (Function.update kids i y) b + (kids i).uses k b = uses k n kids b + y.uses k b :=
  sum_update (g := fun x => x.uses k b) hi

theorem maps_update (hi : i < n) : Maps k n (Function.update kids i y) l s f b ↔
    y.Maps k l (s + i * k ^ l) f b ∨ ∃ j < n, j ≠ i ∧ (kids j).Maps k l (s + j * k ^ l) f b := by
  constructor
  · rintro ⟨j, hj, maps⟩
    by_cases here : j = i
    · rw [here, Function.update_self] at maps
      exact Or.inl maps
    · rw [Function.update_of_ne here] at maps
      exact Or.inr ⟨j, hj, here, maps⟩
  · rintro (maps | ⟨j, hj, other, maps⟩)
    · exact ⟨i, hi, by rwa [Function.update_self]⟩
    · exact ⟨j, hj, by rwa [Function.update_of_ne other]⟩

theorem maps_split (hi : i < n) : Maps k n kids l s f b ↔
    (kids i).Maps k l (s + i * k ^ l) f b ∨ ∃ j < n, j ≠ i ∧
    (kids j).Maps k l (s + j * k ^ l) f b := by
  rw [← maps_update hi, Function.update_eq_self]

theorem Maps.range (maps : Maps k n kids l s f b) (fits : ∀ i < n, (kids i).Fits k P l) :
    s ≤ f ∧ f < s + n * k ^ l := by
  obtain ⟨i, hi, below⟩ := maps
  obtain ⟨low, high⟩ := below.range (fits i hi)
  have next : (i + 1) * k ^ l ≤ n * k ^ l := Nat.mul_le_mul_right _ hi
  rw [Nat.succ_mul] at next
  omega

theorem Maps.unique {b' : Nat} (fits : ∀ i < n, (kids i).Fits k P l) (maps : Maps k n kids l s f b)
    (maps' : Maps k n kids l s f b') : b = b' := by
  obtain ⟨i, hi, below⟩ := maps
  obtain ⟨j, hj, below'⟩ := maps'
  obtain ⟨low, high⟩ := below.range (fits i hi)
  obtain ⟨low', high'⟩ := below'.range (fits j hj)
  obtain rfl := index_unique low high low' high'
  exact below.unique (fits i hi) below'

theorem uses_pos (maps : Maps k n kids l s f b) : 0 < uses k n kids b := by
  obtain ⟨i, hi, below⟩ := maps
  exact Nat.lt_of_lt_of_le (Cover.uses_pos below) (uses_kid_le hi b)

theorem Cover.HasNode.uses_pos {x : Cover} (node : x.HasNode k b) : 0 < x.uses k b := by
  induction x with
  | hole => exact node.elim
  | run n a => exact node.elim
  | node r kids ih =>
      rw [Cover.uses]
      rcases node with rfl | ⟨i, hi, below⟩
      · rw [if_pos rfl]
        omega
      · have kid : (kids i).uses k b ≤ Radix.uses k k kids b := uses_kid_le hi b
        have some := ih i below
        rw [Radix.uses] at kid
        omega

theorem Nodes.uses_pos (node : Nodes k n kids b) : 0 < uses k n kids b := by
  obtain ⟨i, hi, below⟩ := node
  exact Nat.lt_of_lt_of_le below.uses_pos (uses_kid_le hi b)

theorem Nodes.of_update {i : Nat} {y : Cover} (node : Nodes k n (Function.update kids i y) b) :
    i < n ∧ y.HasNode k b ∨ ∃ j < n, j ≠ i ∧ (kids j).HasNode k b := by
  obtain ⟨j, hj, below⟩ := node
  by_cases same : j = i
  · subst same
    rw [Function.update_self] at below
    exact .inl ⟨hj, below⟩
  · rw [Function.update_of_ne same] at below
    exact .inr ⟨j, hj, same, below⟩

theorem Cover.Maps.injective {x : Cover} {f' : Nat} (once : x.uses k b ≤ 1)
    (maps : x.Maps k l s f b)
    (maps' : x.Maps k l s f' b) : f = f' := by
  induction x generalizing l s with
  | hole => exact maps.elim
  | run n a =>
      obtain ⟨low, _, here⟩ := maps
      obtain ⟨low', _, here'⟩ := maps'
      omega
  | node r kids ih =>
      obtain ⟨i, hi, below⟩ := maps
      obtain ⟨j, hj, below'⟩ := maps'
      have whole : Radix.uses k k kids b ≤ 1 := Nat.le_trans (Nat.le_add_left _ _) once
      have some := Cover.uses_pos below
      have some' := Cover.uses_pos below'
      by_cases same : i = j
      · subst same
        exact ih i (Nat.le_trans (uses_kid_le hi b) whole) below below'
      · have pair := uses_pair (k := k) kids hi hj same b
        omega

theorem Maps.injective {f' : Nat} (once : uses k n kids b ≤ 1) (maps : Maps k n kids l s f b)
    (maps' : Maps k n kids l s f' b) : f = f' := by
  obtain ⟨i, hi, below⟩ := maps
  obtain ⟨j, hj, below'⟩ := maps'
  have some := Cover.uses_pos below
  have some' := Cover.uses_pos below'
  by_cases same : i = j
  · subst same
    exact below.injective (Nat.le_trans (uses_kid_le hi b) once) below'
  · have pair := uses_pair (k := k) kids hi hj same b
    omega

theorem Cover.Maps.not_node {x : Cover} (maps : x.Maps k l s f b) (once : x.uses k b ≤ 1) :
    ¬ x.HasNode k b := by
  induction x generalizing l s with
  | hole => exact maps.elim
  | run n a => exact id
  | node r kids ih =>
      obtain ⟨i, hi, below⟩ := maps
      have some := Cover.uses_pos below
      have kid : (kids i).uses k b ≤ Radix.uses k k kids b := uses_kid_le hi b
      have whole : (Cover.node r kids).uses k b = (if r = b then 1 else 0) + Radix.uses k k kids
          b := rfl
      rintro (here | ⟨j, hj, node⟩)
      · rw [whole, if_pos here] at once
        omega
      · by_cases same : i = j
        · subst same
          exact ih i below (by omega) node
        · have pair := uses_pair (k := k) kids hi hj same b
          have some' := node.uses_pos
          omega

theorem Maps.not_node (maps : Maps k n kids l s f b) (once : uses k n kids b ≤ 1) :
    ¬ Nodes k n kids b := by
  obtain ⟨i, hi, below⟩ := maps
  rintro ⟨j, hj, node⟩
  by_cases same : i = j
  · subst same
    exact below.not_node (Nat.le_trans (uses_kid_le hi b) once) node
  · have pair := uses_pair (k := k) kids hi hj same b
    have some := Cover.uses_pos below
    have some' := node.uses_pos
    omega

end Kids

/-- A tree that maps `M` and takes the places `u` becomes one of `M'` and `u'`, which maps the pairs
of `R` too. What it takes for them, and for nodes, was not in `taken`. -/
structure Adds (taken : Nat → Prop) (R M M' : Nat → Nat → Prop) (u u' : Nat → Nat) : Prop where
  maps : ∀ f b, M' f b ↔ M f b ∨ R f b
  same : ∀ b, taken b → u' b = u b
  once : ∀ b, ¬ taken b → u' b ≤ 1

section Adds

variable {taken : Nat → Prop} {R R' M M' M'' : Nat → Nat → Prop} {u u' u'' : Nat → Nat}

theorem Adds.refl (owned : ∀ b, 0 < u b → taken b) : Adds taken (fun _ _ => False) M M u u where
  maps f b := by rw [or_false]
  same _ _ := rfl
  once b free := by
    have none : ¬ 0 < u b := fun some => free (owned b some)
    omega

theorem Adds.trans (h : Adds taken R M M' u u')
    (h' : Adds (fun b => taken b ∨ 0 < u' b) R' M' M'' u' u'') :
    Adds taken (fun f b => R f b ∨ R' f b) M M'' u u'' where
  maps f b := by rw [h'.maps, h.maps, or_assoc]
  same b held := by rw [h'.same b (Or.inl held), h.same b held]
  once b free := by
    by_cases used : 0 < u' b
    · rw [h'.same b (Or.inr used)]
      exact h.once b free
    · exact h'.once b (not_or.mpr ⟨free, used⟩)

theorem Adds.congr {taken' : Nat → Prop} {S : Nat → Nat → Prop} (h : Adds taken R M M' u u')
    (held : ∀ b, taken' b ↔ taken b) (pairs : ∀ f b, S f b ↔ R f b) : Adds taken' S M M' u u' where
  maps f b := by rw [h.maps, pairs]
  same b inside := h.same b ((held b).mp inside)
  once b free := h.once b fun inside => free ((held b).mpr inside)

theorem Adds.of_run {a n : Nat} (maps : ∀ f b, M' f b ↔ M f b ∨ R f b)
    (more : ∀ b, u' b = u b + if a ≤ b ∧ b < a + n then 1 else 0)
    (fresh : ∀ b, a ≤ b → b < a + n → ¬ taken b)
    (owned : ∀ b, 0 < u b → taken b) : Adds taken R M M' u u' where
  maps := maps
  same b held := by rw [more, if_neg fun inside => fresh b inside.1 inside.2 held, Nat.add_zero]
  once b free := by
    have none : ¬ 0 < u b := fun some => free (owned b some)
    rw [more]
    split <;> omega

theorem Adds.uses_le (h : Adds taken R M M' u u') (once : ∀ b, u b ≤ 1) (b : Nat) : u' b ≤ 1 := by
  by_cases held : taken b
  · rw [h.same b held]
    exact once b
  · exact h.once b held

theorem Adds.grows (h : Adds taken R M M' u u') (owned : ∀ b, 0 < u b → taken b) {b : Nat}
    (used : 0 < u b) :
    0 < u' b := by
  rw [h.same b (owned b used)]
  exact used

variable {k} {n : Nat} {kids : Nat → Cover} {x y : Cover} {i l s : Nat}

theorem Adds.kid (hi : i < n) (owned : ∀ b, 0 < uses k n kids b → taken b)
    (h : Adds taken R ((kids i).Maps k l (s + i * k ^ l)) (y.Maps k l (s + i * k ^ l))
    ((kids i).uses k) (y.uses k)) :
    Adds taken R (Maps k n kids l s) (Maps k n (Function.update kids i y) l s) (uses k n kids)
      (uses k n (Function.update kids i y)) where
  maps f b := by rw [maps_update hi, maps_split hi, h.maps, or_right_comm]
  same b held := by
    have moved := uses_update (k := k) kids hi y b
    rw [h.same b held] at moved
    omega
  once b free := by
    have moved := uses_update (k := k) kids hi y b
    have none : ¬ 0 < uses k n kids b := fun some => free (owned b some)
    have new := h.once b free
    omega

theorem Adds.node {kids' : Nat → Cover} {r : Nat} (held : taken r)
    (h : Adds taken R (Maps k k kids (l - 1) s) (Maps k k kids' (l - 1) s) (uses k k kids)
    (uses k k kids')) :
    Adds taken R ((Cover.node r kids).Maps k l s) ((Cover.node r kids').Maps k l s)
    ((Cover.node r kids).uses k)
      ((Cover.node r kids').uses k) where
  maps := h.maps
  same b inside := by
    show (if r = b then 1 else 0) + uses k k kids' b = (if r = b then 1 else 0) + uses k k kids b
    rw [h.same b inside]
  once b free := by
    show (if r = b then 1 else 0) + uses k k kids' b ≤ 1
    have other : r ≠ b := fun here => free (here ▸ held)
    rw [if_neg other, Nat.zero_add]
    exact h.once b free

theorem Adds.run {n a : Nat} (fresh : ∀ b, a ≤ b → b < a + n → ¬ taken b) :
    Adds taken ((Cover.run n a).Maps k l s) (Cover.hole.Maps k l s) ((Cover.run n a).Maps k l s)
    (Cover.hole.uses k)
      ((Cover.run n a).uses k) where
  maps f b := by rw [Cover.Maps, false_or]
  same b held := by
    rw [Cover.uses, Cover.uses, if_neg fun inside => fresh b inside.1 inside.2 held]
  once b _ := by
    rw [Cover.uses]
    split <;> omega

theorem Adds.longer {n a m : Nat} (fresh : ∀ b, a + n ≤ b → b < a + n + m → ¬ taken b) :
    Adds taken (fun f b => s + n ≤ f ∧ f < s + n + m ∧ b = a + (f - s)) ((Cover.run n a).Maps k l s)
      ((Cover.run (n + m) a).Maps k l s) ((Cover.run n a).uses k) ((Cover.run (n + m) a).uses k)
      where
  maps f b := by
    simp only [Cover.Maps]
    omega
  same b held := by
    have none : ¬ (a + n ≤ b ∧ b < a + n + m) := fun inside => fresh b inside.1 inside.2 held
    simp only [Cover.uses]
    split <;> split <;> omega
  once b _ := by
    rw [Cover.uses]
    split <;> omega

end Adds

/-- The children of a node that takes the place of a run. -/
def spread (c n a i : Nat) : Cover := if i * c < n then .run (min c (n - i * c))
    (a + i * c) else .hole

section Spread

variable {k} {P : Nat → Nat → Prop} {c n a i l s f b : Nat}

theorem spread_uses (i b : Nat) : (spread c n a i).uses k b = if a + i * c ≤ b ∧ b < a + i * c + c ∧
    b < a + n then 1 else 0 := by
  rw [spread]
  split
  · rw [Cover.uses]
    refine if_congr ?_ rfl rfl
    omega
  · rw [Cover.uses, if_neg (by omega)]

theorem uses_spread (covered : n ≤ k * c) (b : Nat) :
    uses k k (spread c n a) b = (Cover.run n a).uses k b := by
  rw [uses, Cover.uses, Finset.sum_congr rfl fun i _ => spread_uses i b]
  by_cases inside : a ≤ b ∧ b < a + n
  · obtain ⟨index, low, high⟩ := index_of (s := a) (f := b) (c := c) (n := k) (by omega) inside.1
    rw [if_pos inside, Finset.sum_eq_single ((b - a) / c)]
    · rw [if_pos ⟨low, high, inside.2⟩]
    · intro j _ other
      rw [if_neg]
      rintro ⟨low', high', _⟩
      exact other (index_unique low' high' low high)
    · exact fun outside => absurd (Finset.mem_range.mpr index) outside
  · rw [if_neg inside]
    apply Finset.sum_eq_zero
    intro j _
    rw [if_neg]
    omega

theorem maps_spread (covered : n ≤ k * k ^ l) : Maps k k (spread (k ^ l) n a) l s f b ↔
    s ≤ f ∧ f < s + n ∧ b = a + (f - s) := by
  constructor
  · rintro ⟨i, hi, maps⟩
    rw [spread] at maps
    split at maps
    · obtain ⟨low, high, rfl⟩ := maps
      omega
    · exact maps.elim
  · rintro ⟨low, high, rfl⟩
    obtain ⟨index, start, stop⟩ := index_of (s := s) (f := f) (c := k ^ l) (n := k) (by omega) low
    refine ⟨_, index, ?_⟩
    rw [spread, if_pos (by omega)]
    refine ⟨start, by omega, by omega⟩

theorem fits_spread (whole : ∀ m o, 0 < m → o + m ≤ n → P n a → P m (a + o)) (place : P n a)
    (some : 0 < k ^ l) (i : Nat) :
    (spread (k ^ l) n a i).Fits k P l := by
  rw [spread]
  split
  · exact ⟨by omega, Nat.min_le_left _ _, whole _ _ (by omega) (by omega) place⟩
  · trivial

theorem not_node_spread (c n a i b : Nat) : ¬ (spread c n a i).HasNode k b := by
  rw [spread]
  split
  · exact id
  · exact id

theorem uses_refine_hole (r b : Nat) :
    (Cover.node r fun _ => .hole).uses k b = (if r = b then 1 else 0) + Cover.hole.uses k b := by
  simp [Cover.uses]

theorem uses_refine_run {r : Nat} (some : 0 < l) (covered : n ≤ k ^ l) (b : Nat) :
    (Cover.node r (spread (k ^ (l - 1)) n a)).uses k
    b = (if r = b then 1 else 0) + (Cover.run n a).uses k b := by
  rw [pow_level k some] at covered
  rw [← uses_spread covered]
  rfl

theorem Adds.refine_hole {taken : Nat → Prop} {r : Nat} (fresh : ¬ taken r) :
    Adds taken (fun _ _ => False) (Cover.hole.Maps k l s) ((Cover.node r fun _ => .hole).Maps k l s)
    (Cover.hole.uses k)
      ((Cover.node r fun _ => .hole).uses k) where
  maps f b := by
    simp [Cover.Maps]
  same b held := by
    have other : r ≠ b := fun here => fresh (here ▸ held)
    simp [Cover.uses, other]
  once b _ := by
    simp only [Cover.uses, Finset.sum_const_zero, Nat.add_zero]
    split <;> omega

theorem Adds.refine_run {taken : Nat → Prop} {r : Nat} (fresh : ¬ taken r) (some : 0 < l)
    (covered : n ≤ k ^ l)
    (owned : ∀ b, a ≤ b → b < a + n → taken b) :
    Adds taken (fun _ _ => False) ((Cover.run n a).Maps k l s)
    ((Cover.node r (spread (k ^ (l - 1)) n a)).Maps k l s)
      ((Cover.run n a).uses k) ((Cover.node r (spread (k ^ (l - 1)) n a)).uses k) := by
  refine ⟨fun f b => ?_, fun b held => ?_, fun b free => ?_⟩
  · rw [or_false]
    exact maps_spread (by rwa [← pow_level k some])
  · have other : r ≠ b := fun here => fresh (here ▸ held)
    rw [uses_refine_run some covered, if_neg other, Nat.zero_add]
  · have none : ¬ (a ≤ b ∧ b < a + n) := fun inside => free (owned b inside.1 inside.2)
    rw [uses_refine_run some covered, Cover.uses, if_neg none]
    split <;> omega

end Spread

section Raise

variable {k} {n m l s f b : Nat} {kids : Nat → Cover}

/-- The first `n` children, and holes behind them. -/
def widen (n : Nat) (kids : Nat → Cover) (i : Nat) : Cover := if i < n then kids i else .hole

theorem uses_holes (k n b : Nat) : uses k n (fun _ => .hole) b = 0 := by simp [uses, Cover.uses]

theorem not_nodes_holes : ¬ Nodes k n (fun _ => .hole) b := by
  rintro ⟨_, _, none⟩
  exact none.elim

theorem not_maps_holes : ¬ Maps k n (fun _ => .hole) l s f b := by
  rintro ⟨_, _, none⟩
  exact none

theorem uses_widen (room : n ≤ m) (b : Nat) : uses k m (widen n kids) b = uses k n kids b := by
  have inside : Finset.range n ⊆ Finset.range m :=
      fun i hi => Finset.mem_range.mpr (by have := Finset.mem_range.mp hi; omega)
  rw [uses, uses, ← Finset.sum_subset inside]
  · apply Finset.sum_congr rfl
    intro i hi
    rw [widen, if_pos (Finset.mem_range.mp hi)]
  · intro i _ outside
    rw [widen, if_neg fun hi => outside (Finset.mem_range.mpr hi)]
    rfl

theorem maps_widen (room : n ≤ m) : Maps k m (widen n kids) l s f b ↔ Maps k n kids l s f b := by
  constructor
  · rintro ⟨i, _, maps⟩
    rw [widen] at maps
    split at maps
    · exact ⟨i, ‹_›, maps⟩
    · exact maps.elim
  · rintro ⟨i, hi, maps⟩
    exact ⟨i, by omega, by rwa [widen, if_pos hi]⟩

/-- The children, as those of a node `r` that is the first child one level up. -/
def raised (n : Nat) (kids : Nat → Cover) (r : Nat) : Nat → Cover :=
  Function.update (fun _ => .hole) 0 (.node r (widen n kids))

theorem uses_raised (some : 0 < n) (room : n ≤ k) (r b : Nat) :
    uses k n (raised n kids r) b = (if r = b then 1 else 0) + uses k n kids b := by
  have moved := uses_update (k := k) (fun _ => .hole) some (.node r (widen n kids)) b
  rw [uses_holes] at moved
  have same : uses k k (widen n kids) b = uses k n kids b := uses_widen room b
  rw [← same]
  exact moved.trans (Nat.zero_add _)

theorem Nodes.of_raised {r : Nat} (node : Nodes k n (raised n kids r) b) :
    r = b ∨ Nodes k n kids b := by
  rcases node.of_update with ⟨_, fresh | ⟨j, _, below⟩⟩ | ⟨_, _, _, none⟩
  · exact .inl fresh
  · rw [widen] at below
    split at below
    · exact .inr ⟨j, ‹_›, below⟩
    · exact below.elim
  · exact none.elim

theorem Adds.raise {taken : Nat → Prop} {r : Nat} (fresh : ¬ taken r)
    (owned : ∀ b, 0 < uses k n kids b → taken b)
    (some : 0 < n) (room : n ≤ k) :
    Adds taken (fun _ _ => False) (Maps k n kids l s) (Maps k n (raised n kids r) (l + 1) s)
    (uses k n kids)
      (uses k n (raised n kids r)) := by
  refine ⟨fun f b => ?_, fun b held => ?_, fun b free => ?_⟩
  · rw [or_false, raised, maps_update some, ← maps_widen room, Nat.zero_mul, Nat.add_zero]
    refine ⟨Or.rec id ?_, Or.inl⟩
    rintro ⟨_, _, _, none⟩
    exact none.elim
  · rw [uses_raised some room, if_neg fun same : r = b => fresh (same ▸ held), Nat.zero_add]
  · have none : ¬ 0 < uses k n kids b := fun used => free (owned b used)
    rw [uses_raised some room]
    split <;> omega

end Raise

end Radix
