import Mathlib.Tactic.Ring
import Mathlib.Data.Finset.Card
import Mathlib.Order.Interval.Finset.Nat

/-! Extendible hashing. A table of `2 ^ d` slots refers to buckets, and a bucket of local depth `l`
has the slots of one `l`-bit prefix. -/

namespace ExtHash

/-- The first `l` of the `d` bits of `i`. -/
def pre (d l i : Nat) : Nat := i / 2 ^ (d - l)

section Prefix

variable {d l i : Nat}

@[simp] theorem pre_self (d i : Nat) : pre d d i = i := by
  rw [pre, Nat.sub_self, pow_zero, Nat.div_one]

theorem pre_lt (small : l ≤ d) (h : i < 2 ^ d) : pre d l i < 2 ^ l := by
  apply Nat.div_lt_of_lt_mul
  rwa [← pow_add, Nat.sub_add_cancel small]

theorem pre_succ (small : l < d) (i : Nat) : pre d l i = pre d (l + 1) i / 2 := by
  rw [pre, pre, Nat.div_div_eq_div_mul, ← pow_succ]
  congr 2
  omega

theorem pre_double (small : l ≤ d) (i : Nat) : pre (d + 1) l i = pre d l (i / 2) := by
  rw [pre, pre, Nat.div_div_eq_div_mul, ← pow_succ']
  congr 2
  omega

theorem pre_pre {w : Nat} (small : l ≤ d) (wide : d ≤ w) (h : Nat) :
    pre d l (pre w d h) = pre w l h := by
  rw [pre, pre, pre, Nat.div_div_eq_div_mul, ← pow_add]
  congr 2
  omega

theorem pre_double_index {w : Nat} (wide : d < w) (h : Nat) : pre w (d + 1) h / 2 = pre w d h :=
  (pre_succ wide h).symm

theorem pre_xor (d l i : Nat) : pre d l (i ^^^ 2 ^ (d - l)) = pre d l i ^^^ 1 := by
  rw [pre, pre, ← Nat.shiftRight_eq_div_pow, ← Nat.shiftRight_eq_div_pow,
      Nat.shiftRight_xor_distrib,
    Nat.shiftRight_eq_div_pow (2 ^ _), Nat.div_self (Nat.two_pow_pos _)]

theorem xor_lt (some : 0 < l) (h : i < 2 ^ d) (small : l ≤ d) : i ^^^ 2 ^ (d - l) < 2 ^ d :=
  Nat.xor_lt_two_pow h (Nat.pow_lt_pow_right (by decide) (by omega))

theorem xor_one_div_two (p : Nat) : (p ^^^ 1) / 2 = p / 2 := by
  have split := Nat.shiftRight_xor_distrib (a := p) (b := 1) (i := 1)
  simpa [Nat.shiftRight_eq_div_pow] using split

theorem xor_one_ne (p : Nat) : p ^^^ 1 ≠ p := by
  intro same
  have zero : p ^^^ (p ^^^ 1) = p ^^^ p := by rw [same]
  rw [← Nat.xor_assoc, Nat.xor_self, Nat.zero_xor] at zero
  exact Nat.one_ne_zero zero

end Prefix

variable {β : Type} {d : Nat} {slot : Nat → β} {ld : β → Nat}

/-- Two slots refer to one bucket exactly when they share the prefix of its local depth. -/
structure Owns (d : Nat) (slot : Nat → β) (ld : β → Nat) : Prop where
  depth : ∀ i < 2 ^ d, ld (slot i) ≤ d
  shares : ∀ i < 2 ^ d, ∀ j < 2 ^ d, slot j = slot i ↔ pre d (ld (slot i)) j = pre d (ld (slot i)) i

namespace Owns

theorem congr {slot' : Nat → β} {ld' : β → Nat} (owns : Owns d slot ld)
    (same : ∀ i < 2 ^ d, slot' i = slot i)
    (depths : ∀ i < 2 ^ d, ld' (slot i) = ld (slot i)) : Owns d slot' ld' := by
  refine ⟨fun i hi => ?_, fun i hi j hj => ?_⟩
  · rw [same i hi, depths i hi]
    exact owns.depth i hi
  · rw [same i hi, same j hj, depths i hi]
    exact owns.shares i hi j hj

theorem single (b : β) (zero : ld b = 0) : Owns 0 (fun _ => b) ld := by
  refine ⟨fun i _ => by rw [zero], fun i hi j hj => ?_⟩
  have same : j = i := by
    rw [pow_zero] at hi hj
    omega
  rw [same]
  exact ⟨fun _ => rfl, fun _ => rfl⟩

theorem card [DecidableEq β] (owns : Owns d slot ld) {i : Nat} (hi : i < 2 ^ d) :
    ((Finset.range (2 ^ d)).filter fun j => slot j = slot i).card = 2 ^ (d - ld (slot i)) := by
  have depth := owns.depth i hi
  have top : (pre d (ld (slot i)) i + 1) * 2 ^ (d - ld (slot i)) ≤ 2 ^ d := by
    calc
      _ ≤ 2 ^ ld (slot i) * 2 ^ (d - ld (slot i)) := Nat.mul_le_mul_right _ (pre_lt depth hi)
      _ = 2 ^ d := by rw [← pow_add, Nat.add_sub_cancel' depth]
  have interval : (Finset.range (2 ^ d)).filter (fun j => slot j = slot i) =
      Finset.Ico (pre d (ld (slot i)) i * 2 ^ (d - ld (slot i)))
      ((pre d (ld (slot i)) i + 1) * 2 ^ (d - ld (slot i))) := by
    ext j
    rw [Finset.mem_filter, Finset.mem_range, Finset.mem_Ico]
    have places : pre d (ld (slot i)) j = pre d (ld (slot i)) i ↔
        pre d (ld (slot i)) i * 2 ^ (d - ld (slot i)) ≤ j ∧
        j < (pre d (ld (slot i)) i + 1) * 2 ^ (d - ld (slot i)) := by
      rw [pre, Nat.div_eq_iff (Nat.two_pow_pos _), Nat.add_mul, Nat.one_mul]
      have some := Nat.two_pow_pos (d - ld (slot i))
      omega
    constructor
    · rintro ⟨hj, same⟩
      exact places.mp ((owns.shares i hi j hj).mp same)
    · intro inside
      have hj : j < 2 ^ d := Nat.lt_of_lt_of_le inside.2 top
      exact ⟨hj, (owns.shares i hi j hj).mpr (places.mpr inside)⟩
  rw [interval, Nat.card_Ico, Nat.add_mul, Nat.one_mul, Nat.add_sub_cancel_left]

theorem double (owns : Owns d slot ld) : Owns (d + 1) (fun i => slot (i / 2)) ld := by
  have half : ∀ i, i < 2 ^ (d + 1) → i / 2 < 2 ^ d := by
    intro i hi
    rw [pow_succ] at hi
    omega
  refine ⟨fun i hi => (owns.depth _ (half i hi)).trans (Nat.le_succ d), fun i hi j hj => ?_⟩
  have depth := owns.depth _ (half i hi)
  rw [pre_double depth, pre_double depth]
  exact owns.shares _ (half i hi) _ (half j hj)

theorem halve (owns : Owns (d + 1) slot ld) (pairs : ∀ i < 2 ^ d, slot (2 * i) = slot (2 * i + 1)) :
    Owns d (fun i => slot (2 * i)) ld := by
  have twice : ∀ i, i < 2 ^ d → 2 * i + 1 < 2 ^ (d + 1) := by
    intro i hi
    rw [pow_succ]
    omega
  have depth : ∀ i < 2 ^ d, ld (slot (2 * i)) ≤ d := by
    intro i hi
    by_contra deep
    have full : ld (slot (2 * i)) = d + 1 :=
      Nat.le_antisymm (owns.depth _ (Nat.lt_of_succ_lt (twice i hi))) (Nat.lt_of_not_le deep)
    have same := (owns.shares _ (Nat.lt_of_succ_lt (twice i hi)) _ (twice i hi)).mp
        (pairs i hi).symm
    rw [full, pre_self, pre_self] at same
    omega
  refine ⟨depth, fun i hi j hj => ?_⟩
  have rule := owns.shares _ (Nat.lt_of_succ_lt (twice i hi)) _ (Nat.lt_of_succ_lt (twice j hj))
  rwa [pre_double (depth i hi), pre_double (depth i hi), Nat.mul_div_cancel_left _ (by decide),
    Nat.mul_div_cancel_left _ (by decide)] at rule

theorem full (owns : Owns (d + 1) slot ld) {i : Nat} (hi : i < 2 ^ d)
    (apart : slot (2 * i) ≠ slot (2 * i + 1)) :
    ld (slot (2 * i)) = d + 1 := by
  have even : 2 * i < 2 ^ (d + 1) := by
    rw [pow_succ]
    omega
  have odd : 2 * i + 1 < 2 ^ (d + 1) := by
    rw [pow_succ]
    omega
  by_contra short
  have shallow : ld (slot (2 * i)) ≤ d := by
    have depth := owns.depth _ even
    omega
  apply apart
  refine ((owns.shares _ even _ odd).mpr ?_).symm
  rw [pre_double shallow, pre_double shallow]
  congr 1
  omega

end Owns

/-- The bucket of a hash of `w` bits. -/
def owner (w d : Nat) (slot : Nat → β) (h : Nat) : β := slot (pre w d h)

section Owner

variable {w : Nat}

@[simp] theorem owner_double (wide : d < w) (slot : Nat → β) (h : Nat) :
    owner w (d + 1) (fun i => slot (i / 2)) h = owner w d slot h := by
  rw [owner, owner, pre_double_index wide]

theorem owner_halve (wide : d < w) {h : Nat} (inside : h < 2 ^ w)
    (pairs : ∀ i < 2 ^ d, slot (2 * i) = slot (2 * i + 1)) :
    owner w d (fun i => slot (2 * i)) h = owner w (d + 1) slot h := by
  have half := pre_double_index wide h
  have pair := pairs _ (pre_lt (Nat.le_of_lt wide) inside)
  rw [owner, owner]
  rcases Nat.mod_two_eq_zero_or_one (pre w (d + 1) h) with even | odd
  · congr 1
    omega
  · rw [pair]
    congr 1
    omega

end Owner

variable [DecidableEq β]

/-- The buckets that some slot refers to. -/
def live (d : Nat) (slot : Nat → β) : Finset β := (Finset.range (2 ^ d)).image slot

theorem mem_live {b : β} : b ∈ live d slot ↔ ∃ i < 2 ^ d, slot i = b := by
  simp [live]

theorem slot_live (slot : Nat → β) {i : Nat} (hi : i < 2 ^ d) : slot i ∈ live d slot :=
  mem_live.mpr ⟨i, hi, rfl⟩

theorem live_card_le (d : Nat) (slot : Nat → β) : (live d slot).card ≤ 2 ^ d :=
  Finset.card_image_le.trans_eq (Finset.card_range _)

theorem live_double (d : Nat) (slot : Nat → β) :
    live (d + 1) (fun i => slot (i / 2)) = live d slot := by
  ext b
  rw [mem_live, mem_live]
  constructor
  · rintro ⟨i, hi, rfl⟩
    rw [pow_succ] at hi
    exact ⟨i / 2, by omega, rfl⟩
  · rintro ⟨i, hi, rfl⟩
    refine ⟨2 * i, ?_, ?_⟩
    · rw [pow_succ]
      omega
    · rw [Nat.mul_div_cancel_left _ (by decide)]

theorem live_halve (pairs : ∀ i < 2 ^ d, slot (2 * i) = slot (2 * i + 1)) :
    live d (fun i => slot (2 * i)) = live (d + 1) slot := by
  ext b
  rw [mem_live, mem_live]
  constructor
  · rintro ⟨i, hi, rfl⟩
    refine ⟨2 * i, ?_, rfl⟩
    rw [pow_succ]
    omega
  · rintro ⟨i, hi, rfl⟩
    rw [pow_succ] at hi
    refine ⟨i / 2, by omega, ?_⟩
    rcases Nat.mod_two_eq_zero_or_one i with even | odd
    · congr 1
      omega
    · rw [pairs _ (by omega)]
      congr 1
      omega

/-- The slots of `b` with the next bit set go to `new`. -/
def split (d l : Nat) (b new : β) (slot : Nat → β) (i : Nat) : β :=
  if slot i = b ∧ pre d (l + 1) i % 2 = 1 then new else slot i

section Split

variable {k : Nat} {new : β}

theorem Owns.split {ld' : β → Nat} (owns : Owns d slot ld) (hk : k < 2 ^ d) (room : ld (slot k) < d)
    (fresh : ∀ i < 2 ^ d, slot i ≠ new) (low : ld' (slot k) = ld (slot k) + 1)
    (high : ld' new = ld (slot k) + 1)
    (rest : ∀ c, c ≠ slot k → c ≠ new → ld' c = ld c) :
    Owns d (ExtHash.split d (ld (slot k)) (slot k) new slot) ld' := by
  have mine : ∀ i < 2 ^ d, slot i = slot k ↔
      pre d (ld (slot k) + 1) i / 2 = pre d (ld (slot k) + 1) k / 2 := by
    intro i hi
    rw [← pre_succ room, ← pre_succ room]
    exact owns.shares k hk i hi
  have target : ∀ i, ExtHash.split d (ld (slot k)) (slot k) new slot i =
      if slot i = slot k ∧ pre d (ld (slot k) + 1) i % 2 = 1 then new else slot i := fun _ => rfl
  generalize ld (slot k) = l at *
  refine ⟨fun i hi => ?_, fun i hi j hj => ?_⟩
  · rw [target]
    split
    · rw [high]
      exact room
    · by_cases here : slot i = slot k
      · rw [here, low]
        exact room
      · rw [rest _ here (fresh i hi)]
        exact owns.depth i hi
  · have other := mine j hj
    have unfresh := fresh j hj
    by_cases here : slot i = slot k
    · have place := (mine i hi).mp here
      have keep : slot k ≠ new := fresh k hk
      by_cases set : pre d (l + 1) i % 2 = 1
      · have value : ExtHash.split d l (slot k) new slot i = new := by
          rw [target, if_pos ⟨here, set⟩]
        rw [value, high, target]
        split
        · rename_i both
          have := other.mp both.1
          exact ⟨fun _ => by omega, fun _ => rfl⟩
        · rename_i neither
          refine ⟨fun same => absurd same unfresh, fun same => ?_⟩
          exact absurd ⟨other.mpr (by omega), by omega⟩ neither
      · have value : ExtHash.split d l (slot k) new slot i = slot k := by
          rw [target, if_neg fun both => set both.2, here]
        rw [value, low, target]
        split
        · rename_i both
          refine ⟨fun same => absurd same.symm keep, fun same => ?_⟩
          omega
        · rename_i neither
          constructor
          · intro same
            have := other.mp same
            have clear : ¬ pre d (l + 1) j % 2 = 1 := fun bit => neither ⟨same, bit⟩
            omega
          · intro same
            exact other.mpr (by omega)
    · have value : ExtHash.split d l (slot k) new slot i = slot i := by
        rw [target, if_neg fun both => here both.1]
      rw [value, rest _ here (fresh i hi), target]
      split
      · rename_i both
        refine ⟨fun same => absurd same.symm (fresh i hi), fun same => ?_⟩
        have := (owns.shares i hi j hj).mpr same
        exact absurd (this.symm.trans both.1) here
      · exact owns.shares i hi j hj

theorem owner_split {w : Nat} (wide : d ≤ w) {l : Nat} (room : l < d) (b new : β) (slot : Nat → β)
    (h : Nat) :
    owner w d (split d l b new slot) h =
      if owner w d slot h = b ∧ pre w (l + 1) h % 2 = 1 then new else owner w d slot h := by
  rw [owner, ExtHash.split, pre_pre room wide]
  rfl

theorem Owns.live_split (owns : Owns d slot ld) (hk : k < 2 ^ d) (room : ld (slot k) < d)
    (fresh : ∀ i < 2 ^ d, slot i ≠ new) :
    live d (ExtHash.split d (ld (slot k)) (slot k) new slot) = insert new (live d slot) := by
  have flip_lt : k ^^^ 2 ^ (d - (ld (slot k) + 1)) < 2 ^ d := xor_lt (Nat.succ_pos _) hk room
  have flip_pre := pre_xor d (ld (slot k) + 1) k
  have half := xor_one_div_two (pre d (ld (slot k) + 1) k)
  have distinct := xor_one_ne (pre d (ld (slot k) + 1) k)
  have flip_mine : slot (k ^^^ 2 ^ (d - (ld (slot k) + 1))) = slot k := by
    rw [owns.shares k hk _ flip_lt, pre_succ room, pre_succ room, flip_pre, half]
  have both : (∃ i < 2 ^ d, slot i = slot k ∧ pre d (ld (slot k) + 1) i % 2 = 1) ∧
      ∃ i < 2 ^ d, slot i = slot k ∧ ¬ pre d (ld (slot k) + 1) i % 2 = 1 := by
    by_cases set : pre d (ld (slot k) + 1) k % 2 = 1
    · exact ⟨⟨k, hk, rfl, set⟩, ⟨_, flip_lt, flip_mine, by omega⟩⟩
    · exact ⟨⟨_, flip_lt, flip_mine, by omega⟩, ⟨k, hk, rfl, set⟩⟩
  obtain ⟨goes, stays⟩ := both
  ext c
  rw [mem_live, Finset.mem_insert, mem_live]
  constructor
  · rintro ⟨i, hi, rfl⟩
    rw [ExtHash.split]
    split
    · exact Or.inl rfl
    · exact Or.inr ⟨i, hi, rfl⟩
  · rintro (rfl | ⟨i, hi, rfl⟩)
    · obtain ⟨i, hi, mine, set⟩ := goes
      exact ⟨i, hi, if_pos ⟨mine, set⟩⟩
    · by_cases mine : slot i = slot k
      · obtain ⟨j, hj, same, clear⟩ := stays
        refine ⟨j, hj, ?_⟩
        rw [ExtHash.split, if_neg fun both => clear both.2, same, mine]
      · exact ⟨i, hi, if_neg fun both => mine both.1⟩

end Split

/-- The slots of `b2` go to `b`. -/
def merge (b b2 : β) (slot : Nat → β) (i : Nat) : β := if slot i = b2 then b else slot i

section Merge

variable {k k2 : Nat}

theorem Owns.merge {ld' : β → Nat} (owns : Owns d slot ld) (hk : k < 2 ^ d) (hk2 : k2 < 2 ^ d)
    (some : 0 < ld (slot k)) (equal : ld (slot k2) = ld (slot k))
    (buddy : pre d (ld (slot k)) k2 = pre d (ld (slot k)) k ^^^ 1)
    (less : ld' (slot k) = ld (slot k) - 1)
    (rest : ∀ c, c ≠ slot k → c ≠ slot k2 → ld' c = ld c) :
    Owns d (ExtHash.merge (slot k) (slot k2) slot) ld' := by
  have small := owns.depth k hk
  have first : ∀ i < 2 ^ d, slot i = slot k ↔ pre d (ld (slot k)) i = pre d (ld (slot k)) k :=
    fun i hi => owns.shares k hk i hi
  have second : ∀ i < 2 ^ d, slot i = slot k2 ↔
      pre d (ld (slot k)) i = pre d (ld (slot k)) k ^^^ 1 := by
    intro i hi
    rw [← buddy, ← equal]
    exact owns.shares k2 hk2 i hi
  have shorter : ∀ i, pre d (ld (slot k) - 1) i = pre d (ld (slot k)) i / 2 := by
    intro i
    rw [pre_succ (show ld (slot k) - 1 < d by omega), Nat.sub_add_cancel some]
  have half := xor_one_div_two (pre d (ld (slot k)) k)
  have distinct := xor_one_ne (pre d (ld (slot k)) k)
  have target : ∀ i, ExtHash.merge (slot k) (slot k2) slot i = if slot i = slot k2 then slot
      k else slot i := fun _ => rfl
  have joined : ∀ i < 2 ^ d, ExtHash.merge (slot k) (slot k2) slot i = slot k ↔
      pre d (ld (slot k)) i / 2 = pre d (ld (slot k)) k / 2 := by
    intro i hi
    have one := first i hi
    have two := second i hi
    rw [target]
    split
    · rename_i here
      have place := two.mp here
      refine ⟨fun _ => by omega, fun _ => rfl⟩
    · rename_i away
      rw [one]
      have elsewhere : ¬ pre d (ld (slot k)) i = pre d (ld (slot k)) k ^^^ 1 :=
          fun same => away (two.mpr same)
      omega
  refine ⟨fun i hi => ?_, fun i hi j hj => ?_⟩
  · rw [target]
    split
    · rw [less]
      omega
    · rename_i away
      by_cases here : slot i = slot k
      · rw [here, less]
        omega
      · rw [rest _ here away]
        exact owns.depth i hi
  · by_cases here : ExtHash.merge (slot k) (slot k2) slot i = slot k
    · rw [here, less, shorter, shorter, (joined i hi).mp here]
      exact joined j hj
    · have apart : slot i ≠ slot k2 := fun same => here (by rw [target, if_pos same])
      have same : ExtHash.merge (slot k) (slot k2) slot i = slot i := by rw [target, if_neg apart]
      have away : slot i ≠ slot k := fun eq => here (same.trans eq)
      rw [same, rest _ away apart, ← owns.shares i hi j hj, target]
      split
      · rename_i gone
        exact ⟨fun eq => absurd eq.symm away, fun eq => absurd (eq.symm.trans gone) apart⟩
      · exact Iff.rfl

theorem owner_merge {w : Nat} (b b2 : β) (slot : Nat → β) (h : Nat) :
    owner w d (merge b b2 slot) h = if owner w d slot h = b2 then b else owner w d slot h := rfl

theorem live_merge (slot : Nat → β) (hk : k < 2 ^ d) (apart : slot k ≠ slot k2) :
    live d (merge (slot k) (slot k2) slot) = (live d slot).erase (slot k2) := by
  ext c
  rw [mem_live, Finset.mem_erase, mem_live]
  constructor
  · rintro ⟨i, hi, rfl⟩
    rw [merge]
    split
    · exact ⟨apart, k, hk, rfl⟩
    · exact ⟨‹_›, i, hi, rfl⟩
  · rintro ⟨other, i, hi, rfl⟩
    exact ⟨i, hi, if_neg other⟩

end Merge

end ExtHash
