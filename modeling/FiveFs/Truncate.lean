import FiveFs.Returns

/-! `map_truncate`: what is mapped below the cutoff stays, what is mapped beyond it goes but for the
rest of a granule, and the blocks that go are given back. -/

namespace FiveFs

open Buffer Prog Radix

/-- The pairs below the cutoff stay, and of the others at most the rest of a granule. -/
structure Cut (size : Nat → Nat) (cutoff : Nat) (M M' : Nat → Nat → Prop) : Prop where
  below : ∀ f b, f < cutoff → M f b → M' f b
  old : ∀ f b, M' f b → M f b
  beyond : ∀ f b, M' f b → f < cutoff + size b

section Cuts

variable {size : Nat → Nat} {cutoff : Nat} {M M' : Nat → Nat → Prop}

theorem Cut.refl (inside : ∀ f b, M f b → f < cutoff) : Cut size cutoff M M where
  below _ _ _ maps := maps
  old _ _ maps := maps
  beyond f b maps := Nat.lt_of_lt_of_le (inside f b maps) (Nat.le_add_right _ _)

theorem Cut.none (outside : ∀ f b, M f b → cutoff ≤ f) : Cut size cutoff M fun _ _ => False where
  below f b low maps := absurd (outside f b maps) (Nat.not_le.mpr low)
  old _ _ maps := maps.elim
  beyond _ _ maps := maps.elim

theorem Cut.congr {N N' : Nat → Nat → Prop} (cut : Cut size cutoff M M')
    (same : ∀ f b, N f b ↔ M f b) (same' : ∀ f b, N' f b ↔ M' f b) : Cut size cutoff N N' where
  below f b low maps := (same' f b).mpr (cut.below f b low ((same f b).mp maps))
  old f b maps := (same f b).mpr (cut.old f b ((same' f b).mp maps))
  beyond f b maps := cut.beyond f b ((same' f b).mp maps)

theorem Cut.exists {ι : Type} {I : ι → Prop} {N N' : ι → Nat → Nat → Prop}
    (cut : ∀ i, I i → Cut size cutoff (N i) (N' i)) :
    Cut size cutoff (fun f b => ∃ i, I i ∧ N i f b) fun f b => ∃ i, I i ∧ N' i f b where
  below f b low maps := by
    obtain ⟨i, hi, maps⟩ := maps
    exact ⟨i, hi, (cut i hi).below f b low maps⟩
  old f b maps := by
    obtain ⟨i, hi, maps⟩ := maps
    exact ⟨i, hi, (cut i hi).old f b maps⟩
  beyond f b maps := by
    obtain ⟨i, hi, maps⟩ := maps
    exact (cut i hi).beyond f b maps

theorem Cut.or {N N' : Nat → Nat → Prop} (cut : Cut size cutoff M M')
    (cut' : Cut size cutoff N N') :
    Cut size cutoff (fun f b => M f b ∨ N f b) fun f b => M' f b ∨ N' f b where
  below f b low := Or.imp (cut.below f b low) (cut'.below f b low)
  old f b := Or.imp (cut.old f b) (cut'.old f b)
  beyond f b maps := maps.elim (cut.beyond f b) (cut'.beyond f b)

/-- The run of `n` blocks at `a` for `s` and on, cut to the granules that begin below the cutoff. -/
theorem Cut.run {s n a kept : Nat} (low : s < cutoff) (some : 0 < size a)
    (even : ∀ b, a ≤ b → b < a + n → size b = size a)
    (length : kept = min (upTo (size a) (cutoff - s)) n) :
    Cut size cutoff (fun f b => s ≤ f ∧ f < s + n ∧ b = a + (f - s))
      fun f b => s ≤ f ∧ f < s + kept ∧ b = a + (f - s) where
  below f b low maps := by
    have reach := le_upTo some (cutoff - s)
    omega
  old f b maps := by omega
  beyond f b maps := by
    obtain ⟨first, last, rfl⟩ := maps
    rw [even _ (Nat.le_add_right _ _) (by omega)]
    have split := Nat.div_mul_le_self (cutoff - s + size a - 1) (size a)
    rw [← upTo] at split
    omega

end Cuts

/-- The blocks that `x'` has no more. -/
def Dropped (x x' : Cover) (b : Nat) : Prop :=
  0 < x.uses NODE_FANOUT b ∧ x'.uses NODE_FANOUT b = 0

section Trimming

variable [Crc32c] {A : Allocator} {Has : Work → (Nat → Prop) → (Nat → Prop) → Prop}
  {size : Nat → Nat} {taken idle gone mine : Nat → Prop} {w w₁ w₂ : Work} {x x' : Cover}
  {cutoff l s n a r depth : Nat} {m m' : Nat × Nat × Nat} {kids kids' : Nat → Cover}

theorem Back.widen {mine' : Nat → Prop} (h : Back A Has taken idle gone mine w w₁)
    (more : ∀ b, mine b → mine' b) : Back A Has taken idle gone mine' w w₁ where
  has := h.has
  frame := h.frame.mono fun b left => ⟨left.1, fun own => left.2 (more b own)⟩
  steady := h.steady
  less b out := more b (h.less b out)

theorem trimRun_wp (laws : Returns A Has) (has : Has w taken idle) (fits : RunFits n a)
    (own : ∀ b, a ≤ b → b < a + n → taken b) (grained : Grained A size taken w n a) {keep : Nat}
    (some_kept : 0 < keep) :
    wp (A.trimRun a n keep) (fun out w' => out.1 = min (upTo (size a) keep) n ∧ out.2 + out.1 = n ∧
      Back A Has taken idle (fun b => a + out.1 ≤ b ∧ b < a + n)
        (fun b => a + out.1 ≤ b ∧ b < a + n) w w' ∧
      Grained A size (fun b => taken b ∧ ¬ (a + out.1 ≤ b ∧ b < a + n)) w' out.1 a)
      (fun _ _ => False) w := by
  have whole : ∀ {kept}, kept = n → Back A Has taken idle (fun b => a + kept ≤ b ∧ b < a + n)
      (fun b => a + kept ≤ b ∧ b < a + n) w w ∧
      Grained A size (fun b => taken b ∧ ¬ (a + kept ≤ b ∧ b < a + n)) w kept a := by
    rintro kept rfl
    have none : ∀ b, (a + kept ≤ b ∧ b < a + kept) ↔ False := fun b =>
      ⟨fun both => by omega, False.elim⟩
    have back := (Back.refl laws has).congr laws none none
    exact ⟨back, grained.after back fun b low high => ⟨own b low high, by omega⟩⟩
  have reach := le_upTo grained.some keep
  rw [Allocator.trimRun, wp_ite]
  by_cases all : keep ≥ n
  · rw [if_pos all, wp_pure]
    exact ⟨by dsimp only; omega, Nat.zero_add n, whole rfl⟩
  · have run : A.granule a w = (.ok (size a), w) := grained.run a (Nat.le_refl _) (by omega)
    rw [if_neg all, wp_bind, wp_run run, ← upTo]
    dsimp only
    rw [wp_ite]
    by_cases less : min (upTo (size a) keep) n < n
    · -- the suffix starts a granule of its own
      rw [if_pos less]
      have kept : min (upTo (size a) keep) n = upTo (size a) keep := by omega
      rw [kept] at less ⊢
      have sum : upTo (size a) keep + upTo (size a) (n - upTo (size a) keep) = upTo (size a) n := by
        have split : n + size a - 1 = n - upTo (size a) keep + size a - 1 +
            (keep + size a - 1) / size a * size a := by
          rw [← upTo]
          have some := grained.some
          omega
        rw [upTo.eq_1 (size a) n, split, Nat.add_mul_div_right _ _ grained.some, Nat.add_mul,
          ← upTo, ← upTo, Nat.add_comm]
      have even : size (a + upTo (size a) keep) = size a :=
        grained.even _ (Nat.le_add_right _ _) (by omega)
      have suffix : Grained A size taken w (n - upTo (size a) keep) (a + upTo (size a) keep) := by
        refine ⟨by rw [even]; exact grained.some, ?_, fun b low high => ?_, fun b low high => ?_,
          fun b low high => ?_⟩
        · have room := fits.2
          rw [even, show (a + upTo (size a) keep) % 2 ^ 32 = a % 2 ^ 32 + upTo (size a)
              keep by omega,
            Nat.add_mod, grained.start, upTo_mod, Nat.zero_mod]
        · rw [even]
          exact grained.even b (by omega) (by omega)
        · exact grained.run b (by omega) (by omega)
        · rw [even] at high
          exact grained.rest b (by omega) (by omega)
      rw [wp_bind]
      refine wp_mono (laws.back has (by omega) (fun b low high => own b (by omega) (by omega))
        suffix) ?_ fun _ _ => id
      rintro _ w' back
      rw [wp_pure]
      have same : ∀ b, (a + upTo (size a) keep ≤ b ∧ b < a + n) ↔ (a + upTo (size a) keep ≤ b ∧
          b < a + upTo (size a) keep + (n - upTo (size a) keep)) := fun b => by omega
      have back' := back.congr laws same same
      refine ⟨rfl, by dsimp only; omega, back', ?_⟩
      have leading : Grained A size taken w (upTo (size a) keep) a := by
        refine ⟨grained.some, grained.start, fun b low high => grained.even b low (by omega),
          fun b low high => grained.run b low (by omega), fun b low high => ?_⟩
        have top := upTo_le grained.some (upTo_mod (size a) keep) (Nat.le_refl _)
        omega
      exact leading.after back' fun b low high => ⟨own b low (by omega), by omega⟩
    · rw [if_neg less, wp_pure]
      exact ⟨rfl, by dsimp only; omega, whole (by dsimp only; omega)⟩

/-- The child `x`, which was cut to `x'` and is stored with `m'` now, gave `freed` blocks of data
back. -/
structure Trimmed (A : Allocator) (Has : Work → (Nat → Prop) → (Nat → Prop) → Prop)
    (size : Nat → Nat) (cutoff : Nat) (taken idle : Nat → Prop) (x : Cover) (l s : Nat)
    (m' : Nat × Nat × Nat) (freed : Nat) (w w' : Work) (x' : Cover) : Prop where
  yields : Yields A size (fun b => taken b ∧ ¬ Dropped x x' b) w' x' l m'
  back : Back A Has taken idle (Dropped x x') (fun b => 0 < x.uses NODE_FANOUT b) w w'
  less : ∀ b, x'.uses NODE_FANOUT b ≤ x.uses NODE_FANOUT b
  cut : Cut size cutoff (x.Maps NODE_FANOUT l s) (x'.Maps NODE_FANOUT l s)
  data : freed + x'.data NODE_FANOUT = x.data NODE_FANOUT

/-- The blocks that the covers of `is` have no more. -/
def Lost (kids kids' : Nat → Cover) (is : List Nat) (b : Nat) : Prop :=
  ∃ i ∈ is, Dropped (kids i) (kids' i) b

/-- The same of the children of `is`, in slots `slot'` now. -/
structure Trims (A : Allocator) (Has : Work → (Nat → Prop) → (Nat → Prop) → Prop)
    (size : Nat → Nat) (cutoff : Nat) (taken idle : Nat → Prop) (kids : Nat → Cover) (l s : Nat)
    (is : List Nat) (slot' : Nat → Nat × Nat × Nat) (freed : Nat) (w w' : Work)
    (kids' : Nat → Cover) : Prop where
  yields : ∀ i ∈ is, Yields A size (fun b => taken b ∧ ¬ Lost kids kids' is b) w' (kids' i) l
    (slot' i)
  back : Back A Has taken idle (Lost kids kids' is) (UsedBy kids is) w w'
  less : ∀ i ∈ is, ∀ b, (kids' i).uses NODE_FANOUT b ≤ (kids i).uses NODE_FANOUT b
  cut : ∀ i ∈ is, Cut size cutoff ((kids i).Maps NODE_FANOUT l (s + i * NODE_FANOUT ^ l))
    ((kids' i).Maps NODE_FANOUT l (s + i * NODE_FANOUT ^ l))
  data : freed + (is.map fun i => (kids' i).data NODE_FANOUT).sum =
    (is.map fun i => (kids i).data NODE_FANOUT).sum

theorem Trims.nil (laws : Returns A Has) (has : Has w taken idle) (slot : Nat → Nat × Nat × Nat) :
    Trims A Has size cutoff taken idle kids l s [] slot 0 w w kids where
  yields _ member := absurd member List.not_mem_nil
  back := (Back.refl laws has).congr laws (fun b => by simp [Lost]) fun b => by simp [UsedBy]
  less _ member := absurd member List.not_mem_nil
  cut _ member := absurd member List.not_mem_nil
  data := rfl

theorem Trims.cons (laws : Returns A Has) {i freed more : Nat} {is : List Nat}
    {slot' : Nat → Nat × Nat × Nat} (unshared : Unshared kids (i :: is)) (new : i ∉ is)
    (first : Trimmed A Has size cutoff taken idle (kids i) l (s + i * NODE_FANOUT ^ l) (slot' i)
      freed w w₁ x')
    (rest : Trims A Has size cutoff (fun b => taken b ∧ ¬ Dropped (kids i) x' b)
      (fun b => idle b ∨ Dropped (kids i) x' b) kids l s is slot' more w₁ w₂ kids') :
    Trims A Has size cutoff taken idle kids l s (i :: is) slot' (freed + more) w w₂
      (Function.update kids' i x') := by
  have apart := (List.pairwise_cons.mp unshared).1
  have stay : ∀ j ∈ is, Function.update kids' i x' j = kids' j := fun j hj =>
    Function.update_of_ne (by rintro rfl; exact new hj) _ _
  have lost : ∀ b, Lost kids (Function.update kids' i x') (i :: is) b ↔
      Dropped (kids i) x' b ∨ Lost kids kids' is b := by
    intro b
    rw [Lost, List.exists_mem_cons_iff, Function.update_self]
    refine or_congr_right (exists_congr fun j => and_congr_right fun hj => ?_)
    rw [stay j hj]
  have left : (fun b => (taken b ∧ ¬ Dropped (kids i) x' b) ∧ ¬ Lost kids kids' is b) =
      fun b => taken b ∧ ¬ Lost kids (Function.update kids' i x') (i :: is) b := by
    funext b
    rw [lost, not_or, and_assoc]
  refine ⟨fun j member => ?_, (first.back.trans laws rest.back).congr laws lost
    (usedBy_cons kids i is), fun j member => ?_, fun j member => ?_, ?_⟩
  · rw [← left]
    rcases List.mem_cons.mp member with rfl | hj
    · rw [Function.update_self]
      refine first.yields.after rest.back fun b used used' => ?_
      obtain ⟨k, hk, other⟩ := used'
      exact apart k hk b (Nat.lt_of_lt_of_le used (first.less b)) other
    · rw [stay j hj]
      exact rest.yields j hj
  · rcases List.mem_cons.mp member with rfl | hj
    · rw [Function.update_self]
      exact first.less
    · rw [stay j hj]
      exact rest.less j hj
  · rcases List.mem_cons.mp member with rfl | hj
    · rw [Function.update_self]
      exact first.cut
    · rw [stay j hj]
      exact rest.cut j hj
  · have same : (is.map fun j => (Function.update kids' i x' j).data NODE_FANOUT) =
        is.map fun j => (kids' j).data NODE_FANOUT :=
      List.map_congr_left fun j hj => by rw [stay j hj]
    have data := rest.data
    have data₁ := first.data
    rw [List.map_cons, List.map_cons, List.sum_cons, List.sum_cons, same, Function.update_self]
    omega

/-- The values of a slot fit its fields. -/
def SlotFits (m : Nat × Nat × Nat) : Prop := m.1 < 4 ∧ m.2.1 < 2 ^ 32 ∧ m.2.2 < 2 ^ 64

/-- `trim` cuts the child `x`. -/
def Trimmer (A : Allocator) (Has : Work → (Nat → Prop) → (Nat → Prop) → Prop) (size : Nat → Nat)
    (cutoff : Nat) (trim : Prog Work (Option (Nat × Nat × Nat) × Nat)) (x : Cover) (l s : Nat)
    (m : Nat × Nat × Nat) : Prop :=
  ∀ {w : Work} {taken idle : Nat → Prop}, Has w taken idle → Yields A size taken w x l m →
    wp trim (fun out w' => (∀ m', out.1 = some m' → SlotFits m') ∧
      ∃ x', Trimmed A Has size cutoff taken idle x l s (out.1.getD m) out.2 w w' x')
      (fun _ _ => False) w

theorem trimKids_wp (laws : Returns A Has)
    {child : Nat → Nat → Nat → Nat → Prog Work (Option (Nat × Nat × Nat) × Nat)} :
    ∀ {is : List Nat} {w : Work} {taken idle : Nat → Prop} {buf : Bytes}, Has w taken idle →
      Unshared kids is → is.Nodup → (∀ i ∈ is, i < NODE_FANOUT) →
      (∀ i ∈ is, Yields A size taken w (kids i) l (nodeSlot buf i)) →
      (∀ i ∈ is, ∀ m, Trimmer A Has size cutoff
        (child m.1 m.2.1 m.2.2 (s + i * NODE_FANOUT ^ l)) (kids i) l (s + i * NODE_FANOUT ^ l) m) →
      wp (Allocator.trimKids child s (NODE_FANOUT ^ l) is buf) (fun out w' => ∃ kids',
        Trims A Has size cutoff taken idle kids l s is (nodeSlot out.1) out.2.2 w w' kids' ∧
        (∀ j < NODE_FANOUT, j ∉ is → nodeSlot out.1 j = nodeSlot buf j) ∧
        getU32 out.1 0 = getU32 buf 0 ∧ nodeLevel out.1 = nodeLevel buf ∧
        (out.2.1 = false → out.1 = buf)) (fun _ _ => False) w := by
  intro is
  induction is with
  | nil =>
      intro w taken idle buf has _ _ _ _ _
      rw [Allocator.trimKids, wp_pure]
      exact ⟨kids, .nil laws has _, fun _ _ _ => rfl, rfl, rfl, fun _ => rfl⟩
  | cons i is ih =>
      intro w taken idle buf has unshared nodup inside yields trims
      obtain ⟨apart, unshared'⟩ := List.pairwise_cons.mp unshared
      obtain ⟨new, nodup'⟩ := List.nodup_cons.mp nodup
      have hi := inside i List.mem_cons_self
      have states : NODE_STATES = 24 := rfl
      rw [Allocator.trimKids, wp_bind]
      refine wp_mono (trims i List.mem_cons_self (nodeSlot buf i) has
        (yields i List.mem_cons_self)) ?_ fun _ _ => id
      rintro ⟨change, freed⟩ w₁ ⟨fits, x', first⟩
      dsimp only at fits first ⊢
      -- where the slot of the child is rewritten, and no other
      have step : ∀ {buf₁ : Bytes} {changed : Bool},
          nodeSlot buf₁ i = change.getD (nodeSlot buf i) →
          (∀ j < NODE_FANOUT, j ≠ i → nodeSlot buf₁ j = nodeSlot buf j) →
          getU32 buf₁ 0 = getU32 buf 0 → nodeLevel buf₁ = nodeLevel buf →
          (changed = false → buf₁ = buf) →
          wp (Allocator.trimKids child s (NODE_FANOUT ^ l) is buf₁ >>= fun out =>
            pure (out.1, changed || out.2.1, freed + out.2.2)) (fun out w' => ∃ kids',
            Trims A Has size cutoff taken idle kids l s (i :: is) (nodeSlot out.1) out.2.2 w w'
                kids' ∧
            (∀ j < NODE_FANOUT, j ∉ i :: is → nodeSlot out.1 j = nodeSlot buf j) ∧
            getU32 out.1 0 = getU32 buf 0 ∧ nodeLevel out.1 = nodeLevel buf ∧
            (out.2.1 = false → out.1 = buf)) (fun _ _ => False) w₁ := by
        intro buf₁ changed here others magic level kept
        rw [wp_bind]
        refine wp_mono (ih first.back.has unshared' nodup' (fun j hj =>
          inside j (List.mem_cons_of_mem _ hj)) (fun j hj => ?_)
          fun j hj => trims j (List.mem_cons_of_mem _ hj)) ?_ fun _ _ => id
        · rw [others j (inside j (List.mem_cons_of_mem _ hj)) (by rintro rfl; exact new hj)]
          refine (yields j (List.mem_cons_of_mem _ hj)).after first.back fun b used used' => ?_
          exact apart j hj b used' used
        · rintro ⟨buf₂, later, more⟩ w₂ ⟨kids', rest, others₂, magic₂, level₂, kept₂⟩
          rw [wp_pure]
          dsimp only at rest others₂ magic₂ level₂ kept₂ ⊢
          have slot : nodeSlot buf₂ i = change.getD (nodeSlot buf i) :=
            (others₂ i hi new).trans here
          refine ⟨_, .cons laws unshared new (slot.symm ▸ first) rest, fun j hj outside => ?_,
            magic₂.trans magic, level₂.trans level, fun none => ?_⟩
          · obtain ⟨other, outside'⟩ := not_or.mp (List.mem_cons.not.mp outside)
            exact (others₂ j hj outside').trans (others j hj other)
          · obtain ⟨none₁, none₂⟩ := Bool.or_eq_false_iff.mp none
            exact (kept₂ none₂).trans (kept none₁)
      cases change with
      | none => exact step rfl (fun _ _ _ => rfl) rfl rfl fun _ => rfl
      | some m' =>
          obtain ⟨state, count, place⟩ := fits m' rfl
          refine step ?_ (fun j hj other => ?_) (node_set_head buf (by omega))
            (node_set_head buf (by omega)) fun same => by cases same
          · rw [nodeSlot_set buf hi hi state count place, if_pos rfl]
            rfl
          · rw [nodeSlot_set buf hi hj state count place, if_neg other]

theorem hole_of_stored (stored : Stored w x l m) : m.1 = CELL_FREE ↔ x = .hole := by
  cases x with
  | hole => exact iff_of_true stored rfl
  | run n a =>
      rw [Stored] at stored
      subst stored
      exact iff_of_false (fun free => absurd (show CELL_FULL = CELL_FREE from free) (by decide))
        (by rintro ⟨⟩)
  | node r kids =>
      refine iff_of_false (fun free => ?_) (by rintro ⟨⟩)
      rw [stored.1] at free
      exact absurd free (by decide)

theorem yields_hole (free : m.1 = CELL_FREE) : Yields A size taken w .hole l m :=
  ⟨free, trivial, fun _ => Nat.zero_le 1, fun _ used => absurd used (Nat.lt_irrefl 0), trivial⟩

omit [Crc32c] in
theorem dropped_self (x : Cover) (b : Nat) : Dropped x x b ↔ False :=
  ⟨fun both => by have used := both.1; have none := both.2; omega, False.elim⟩

/-- A child that stays as it is. -/
theorem Trimmed.refl (laws : Returns A Has) (has : Has w taken idle)
    (yields : Yields A size taken w x l m)
    (inside : ∀ f b, x.Maps NODE_FANOUT l s f b → f < cutoff) :
    Trimmed A Has size cutoff taken idle x l s m 0 w w x := by
  have back := (Back.refl laws has).congr laws (dropped_self x) fun _ => Iff.rfl
  refine ⟨?_, back.widen fun _ => False.elim, fun _ => Nat.le_refl _, .refl inside, Nat.zero_add _⟩
  exact yields.after back fun b _ => id

/-- A child that is given back as a whole. -/
theorem Trimmed.hole (outside : ∀ f b, x.Maps NODE_FANOUT l s f b → cutoff ≤ f) {b₀ e : Nat}
    (back : Back A Has taken idle (Dropped x .hole) (fun b => 0 < x.uses NODE_FANOUT b) w w₁) :
    Trimmed A Has size cutoff taken idle x l s (CELL_FREE, b₀, e) (x.data NODE_FANOUT) w w₁ .hole :=
  ⟨yields_hole rfl, back, fun _ => Nat.zero_le _, .none outside, rfl⟩

omit [Crc32c] in
theorem dropped_hole (x : Cover) (b : Nat) : Dropped x .hole b ↔ 0 < x.uses NODE_FANOUT b :=
  and_iff_left rfl

theorem trimChild_run (laws : Returns A Has) (has : Has w taken idle)
    (yields : Yields A size taken w (.run n a) l m) (low : s < cutoff) :
    wp (A.trimRun a n (cutoff - s)) (fun out w' => out.1 ≤ n ∧
      Trimmed A Has size cutoff taken idle (.run n a) l s (CELL_FULL, out.1, a) out.2 w w'
        (.run out.1 a)) (fun _ _ => False) w := by
  obtain ⟨some, covered, fits⟩ := yields.fits
  refine wp_mono (trimRun_wp laws has fits (fun b low high =>
    yields.owned b (uses_run_pos.mpr ⟨low, high⟩)) yields.grains (Nat.sub_pos_of_lt low)) ?_
    fun _ _ => id
  rintro ⟨kept, freed⟩ w' ⟨length, sum, back, grained⟩
  dsimp only at length sum back grained ⊢
  have reach := le_upTo yields.grains.some (cutoff - s)
  have less : kept ≤ n := by omega
  have dropped : ∀ b, Dropped (.run n a) (.run kept a) b ↔ a + kept ≤ b ∧ b < a + n := by
    intro b
    rw [Dropped, uses_run_pos, Cover.uses]
    split <;> omega
  have left : (fun b => taken b ∧ ¬ (a + kept ≤ b ∧ b < a + n)) =
      fun b => taken b ∧ ¬ Dropped (.run n a) (.run kept a) b := funext fun b => by rw [dropped]
  rw [left] at grained
  have part := RunFits.part (o := 0) (m := kept) (by omega) fits
  refine ⟨less, ⟨rfl, ⟨by omega, Nat.le_trans less covered, part⟩, fun b => ?_, fun b used => ?_,
    grained⟩, ?_, fun b => ?_, .run low yields.grains.some yields.grains.even length, sum⟩
  · rw [Cover.uses]
    split <;> omega
  · have here := uses_run_pos.mp used
    refine ⟨yields.owned b (uses_run_pos.mpr (by omega)), fun gone => ?_⟩
    have gone' := (dropped b).mp gone
    omega
  · refine (back.congr laws dropped fun _ => Iff.rfl).widen fun b inside => ?_
    exact uses_run_pos.mpr (by omega)
  · rw [Cover.uses, Cover.uses]
    split <;> split <;> omega

omit [Crc32c] in
theorem lost_range (once : ∀ b, uses NODE_FANOUT n kids b ≤ 1)
    (less : ∀ i < n, ∀ b, (kids' i).uses NODE_FANOUT b ≤ (kids i).uses NODE_FANOUT b) (b : Nat) :
    (0 < uses NODE_FANOUT n kids b ∧ uses NODE_FANOUT n kids' b = 0) ↔
      Lost kids kids' (List.range n) b := by
  constructor
  · rintro ⟨used, none⟩
    obtain ⟨i, hi, here⟩ := (usedBy_range kids n b).mpr used
    have le : (kids' i).uses NODE_FANOUT b ≤ uses NODE_FANOUT n kids' b :=
      uses_kid_le (List.mem_range.mp hi) b
    exact ⟨i, hi, here, by omega⟩
  · rintro ⟨i, hi, here, none⟩
    have inside := List.mem_range.mp hi
    refine ⟨(usedBy_range kids n b).mp ⟨i, hi, here⟩, Finset.sum_eq_zero fun j hj => ?_⟩
    have hj' := Finset.mem_range.mp hj
    by_cases same : j = i
    · rw [same, none]
    · have apart : (kids j).uses NODE_FANOUT b = 0 := uses_apart (once b) inside hj' same here
      have fewer := less j hj' b
      omega

omit [Crc32c] in
theorem dropped_node (once : ∀ b, (Cover.node r kids).uses NODE_FANOUT b ≤ 1)
    (less : ∀ i < NODE_FANOUT, ∀ b, (kids' i).uses NODE_FANOUT b ≤ (kids i).uses NODE_FANOUT b)
    (b : Nat) : Dropped (.node r kids) (.node r kids') b ↔
      Lost kids kids' (List.range NODE_FANOUT) b := by
  have total := once b
  rw [uses_node] at total
  rw [← lost_range (fun b => Nat.le_trans (Nat.le_add_left _ _) (once b)) less, Dropped, uses_node,
    uses_node]
  split at total <;> split <;> omega

/-- A node that stays, with other children. -/
theorem Trimmed.node (laws : Returns A Has) (yields : Yields A size taken w (.node r kids) l m)
    {buf : Bytes} {freed : Nat} (read : w₁.nodeRead r = .ok buf) (level : nodeLevel buf = l - 1)
    (kept : ∀ i < NODE_FANOUT, Yields A size
      (fun b => taken b ∧ ¬ Lost kids kids' (List.range NODE_FANOUT) b) w₁ (kids' i) (l - 1)
      (nodeSlot buf i))
    (back : Back A Has taken idle (Lost kids kids' (List.range NODE_FANOUT))
      (fun b => 0 < (Cover.node r kids).uses NODE_FANOUT b) w w₁)
    (less : ∀ i < NODE_FANOUT, ∀ b, (kids' i).uses NODE_FANOUT b ≤ (kids i).uses NODE_FANOUT b)
    (cut : ∀ i < NODE_FANOUT, Cut size cutoff
      ((kids i).Maps NODE_FANOUT (l - 1) (s + i * NODE_FANOUT ^ (l - 1)))
      ((kids' i).Maps NODE_FANOUT (l - 1) (s + i * NODE_FANOUT ^ (l - 1))))
    (data : freed + (Cover.node r kids').data NODE_FANOUT = (Cover.node r kids).data NODE_FANOUT) :
    Trimmed A Has size cutoff taken idle (.node r kids) l s m freed w w₁ (.node r kids') := by
  have dropped := dropped_node yields.once less
  have left : (fun b => taken b ∧ ¬ Lost kids kids' (List.range NODE_FANOUT) b) =
      fun b => taken b ∧ ¬ Dropped (.node r kids) (.node r kids') b :=
    funext fun b => by rw [dropped]
  have fewer : ∀ b, (Cover.node r kids').uses NODE_FANOUT b ≤
      (Cover.node r kids).uses NODE_FANOUT b := fun b =>
    Nat.add_le_add_left (Finset.sum_le_sum fun i hi => less i (Finset.mem_range.mp hi) b) _
  have own : ∀ b, r ≤ b → b < r + 1 → taken b ∧
      ¬ Lost kids kids' (List.range NODE_FANOUT) b := by
    intro b low high
    obtain rfl : b = r := by omega
    refine ⟨yields.root, fun gone => ?_⟩
    have none := ((dropped b).mpr gone).2
    rw [uses_node, if_pos rfl] at none
    omega
  obtain ⟨state, place, _⟩ := yields.stored
  refine ⟨⟨⟨state, place, buf, read, level, fun i hi => (kept i hi).stored⟩,
    ⟨yields.fits.1, fun i hi => (kept i hi).fits⟩,
    fun b => Nat.le_trans (fewer b) (yields.once b), fun b used => ⟨?_, fun gone => ?_⟩, ?_, ?_⟩,
    back.congr laws dropped fun _ => Iff.rfl, fewer, .exists cut, data⟩
  · exact yields.owned b (Nat.lt_of_lt_of_le used (fewer b))
  · have none := gone.2
    omega
  · rw [← left]
    exact yields.grains.1.after back own
  · intro i hi
    rw [← left]
    exact (kept i hi).grains

/-- A node whose children are all holes after the cut is given back. -/
theorem trimChild_coarsen (laws : Returns A Has)
    (yields : Yields A size taken w (.node r kids) l m) {slot' : Nat → Nat × Nat × Nat}
    {freed : Nat}
    (trims : Trims A Has size cutoff taken idle kids (l - 1) s (List.range NODE_FANOUT) slot' freed
      w w₁ kids') (holes : ∀ i < NODE_FANOUT, kids' i = .hole) :
    wp (A.free r 1) (fun _ w' => Trimmed A Has size cutoff taken idle (.node r kids) l s
      (CELL_FREE, 0, 0) freed w w' .hole) (fun _ _ => False) w₁ := by
  have own : ∀ b, r ≤ b → b < r + 1 → taken b ∧ ¬ UsedBy kids (List.range NODE_FANOUT) b := by
    intro b low high
    obtain rfl : b = r := by omega
    exact ⟨yields.root, yields.spared⟩
  have spared : ∀ b, r ≤ b → b < r + 1 → taken b ∧ ¬ Lost kids kids' (List.range NODE_FANOUT) b :=
    fun b low high => ⟨(own b low high).1, fun gone => (own b low high).2 (trims.back.less b gone)⟩
  have lost : ∀ b, Lost kids kids' (List.range NODE_FANOUT) b ↔
      UsedBy kids (List.range NODE_FANOUT) b := fun b =>
    exists_congr fun i => and_congr_right fun hi => by
      rw [holes i (List.mem_range.mp hi), dropped_hole]
  have all := uses_node_pos r kids
  refine wp_mono (laws.back trims.back.has Nat.one_pos spared
    (yields.grains.1.after trims.back spared)) ?_ fun _ _ => id
  rintro _ w' alone
  have back : Back A Has taken idle (Dropped (.node r kids) .hole)
      (fun b => 0 < (Cover.node r kids).uses NODE_FANOUT b) w w' :=
    (trims.back.trans laws alone).congr laws (fun b => by rw [dropped_hole, all, lost]) all
  have none : ((List.range NODE_FANOUT).map fun i => (kids' i).data NODE_FANOUT).sum = 0 := by
    refine List.sum_eq_zero fun n member => ?_
    obtain ⟨i, hi, rfl⟩ := List.mem_map.mp member
    rw [holes i (List.mem_range.mp hi)]
    rfl
  have data := trims.data
  rw [none, Nat.add_zero] at data
  have cut : Cut size cutoff ((Cover.node r kids).Maps NODE_FANOUT l s) fun f b =>
      ∃ i, i < NODE_FANOUT ∧ (kids' i).Maps NODE_FANOUT (l - 1) (s + i * NODE_FANOUT ^ (l - 1)) f
          b :=
    .exists fun i hi => trims.cut i (List.mem_range.mpr hi)
  refine ⟨yields_hole rfl, back, fun _ => Nat.zero_le _,
      cut.congr (fun _ _ => Iff.rfl) fun f b => ?_,
    ?_⟩
  · refine iff_of_false False.elim fun maps => ?_
    obtain ⟨i, hi, maps⟩ := maps
    rw [holes i hi] at maps
    exact maps
  · exact (Nat.add_zero freed).trans (data.trans (data_node r kids).symm)

theorem trimNode_wp (laws : Returns A Has) (has : Has w taken idle)
    (yields : Yields A size taken w (.node r kids) l m) (low : l ≤ 10)
    {child : Nat → Nat → Nat → Nat → Nat → Prog Work (Option (Nat × Nat × Nat) × Nat)}
    (trims : ∀ i < NODE_FANOUT, ∀ m, Trimmer A Has size cutoff
      (child (l - 1) m.1 m.2.1 m.2.2 (s + i * NODE_FANOUT ^ (l - 1))) (kids i) (l - 1)
      (s + i * NODE_FANOUT ^ (l - 1)) m) :
    wp (A.trimNode child r s) (fun out w' => (∀ m', out.1 = some m' → SlotFits m') ∧
      ∃ x', Trimmed A Has size cutoff taken idle (.node r kids) l s (out.1.getD m) out.2 w w' x')
      (fun _ _ => False) w := by
  obtain ⟨-, -, buf, read, level, -⟩ := yields.stored
  rw [Allocator.trimNode, wp_bind, wp_run (Work.nodeGet_run read), wp_bind, wp_ofExcept, level,
    cov_run (by omega)]
  dsimp only
  rw [wp_bind]
  refine wp_mono (trimKids_wp laws has (unshared_range yields.once_below) List.nodup_range
    (fun i hi => List.mem_range.mp hi) (fun i hi => yields.kid (List.mem_range.mp hi) read)
    fun i hi => trims i (List.mem_range.mp hi)) ?_ fun _ _ => id
  rintro ⟨buf₁, changed, freed⟩ w₁ ⟨kids', trims, -, magic, level₁, kept⟩
  dsimp only at trims magic level₁ kept ⊢
  have spared := yields.spared
  have mine : ∀ b, UsedBy kids (List.range NODE_FANOUT) b →
      0 < (Cover.node r kids).uses NODE_FANOUT b := fun b => uses_of_kids r
  have less : ∀ i < NODE_FANOUT, ∀ b, (kids' i).uses NODE_FANOUT b ≤
      (kids i).uses NODE_FANOUT b := fun i hi => trims.less i (List.mem_range.mpr hi)
  have cut := fun i (hi : i < NODE_FANOUT) => trims.cut i (List.mem_range.mpr hi)
  have count : freed + (Cover.node r kids').data NODE_FANOUT =
      (Cover.node r kids).data NODE_FANOUT := by
    rw [data_node, data_node]
    exact trims.data
  rw [wp_ite]
  by_cases empty : ((List.range NODE_FANOUT).all fun i => nodeState buf₁ i == CELL_FREE) = true
  · have holes : ∀ i < NODE_FANOUT, kids' i = .hole := fun i hi => by
      have member := List.mem_range.mpr hi
      exact (hole_of_stored (trims.yields i member).stored).mp
        (beq_iff_eq.mp (List.all_eq_true.mp empty i member))
    rw [if_pos empty, wp_bind]
    refine wp_mono (trimChild_coarsen laws yields trims holes) ?_ fun _ _ => id
    rintro _ w' trimmed
    rw [wp_pure]
    refine ⟨fun m' made => ?_, _, trimmed⟩
    cases made
    exact ⟨by decide, by decide, by decide⟩
  · rw [if_neg empty]
    cases changed with
    | false =>
        -- no child changed, and the node is as it was
        obtain rfl := kept rfl
        refine ⟨fun _ made => (by cases made), _, .node laws yields
          ((trims.back.frame.nodes r ⟨yields.root, spared⟩).trans read) level
          (fun i hi => trims.yields i (List.mem_range.mpr hi)) (trims.back.widen mine) less cut
          count⟩
    | true =>
        obtain ⟨data, run, magic', buf₂, read₂, alike⟩ :=
          Work.nodeWrite_run (laws.large trims.back.has) (magic.trans (magic_of_read read)) r
        have here : taken r ∧ ¬ Lost kids kids' (List.range NODE_FANOUT) r :=
          ⟨yields.root, fun gone => spared (trims.back.less r gone)⟩
        have written := laws.write trims.back.has here magic'
        have whole : Back A Has taken idle (Lost kids kids' (List.range NODE_FANOUT))
            (fun b => UsedBy kids (List.range NODE_FANOUT) b ∨ b = r) w (w₁.put r data) :=
          (trims.back.trans laws written).congr laws (fun b => (or_false _).to_iff.symm)
            fun _ => Iff.rfl
        have back : Back A Has taken idle (Lost kids kids' (List.range NODE_FANOUT))
            (fun b => 0 < (Cover.node r kids).uses NODE_FANOUT b) w (w₁.put r data) := by
          refine whole.widen fun b either => ?_
          rcases either with used | rfl
          · exact mine b used
          · exact (uses_node_pos b kids b).mpr (Or.inr ⟨Nat.le_refl b, Nat.lt_succ_self b⟩)
        have left : (fun b => (taken b ∧ ¬ Lost kids kids' (List.range NODE_FANOUT) b) ∧
            ¬ (fun _ => False) b) =
            fun b => taken b ∧ ¬ Lost kids kids' (List.range NODE_FANOUT) b :=
          funext fun b => propext (and_iff_left id)
        have stay : ∀ i < NODE_FANOUT, Yields A size
            (fun b => taken b ∧ ¬ Lost kids kids' (List.range NODE_FANOUT) b) (w₁.put r data)
            (kids' i) (l - 1) (nodeSlot buf₂ i) := by
          intro i hi
          have member := List.mem_range.mpr hi
          rw [← left, alike.slots i hi]
          refine (trims.yields i member).after written fun b used here => ?_
          rw [here] at used
          exact spared ⟨i, member, Nat.lt_of_lt_of_le used (less i hi r)⟩
        have level₂ := alike.level.trans (level₁.trans level)
        rw [if_pos rfl, wp_bind, wp_run run, wp_pure]
        exact ⟨fun _ made => (by cases made), _, .node laws yields read₂ level₂ stay back less
          cut count⟩

theorem trimChild_apart (laws : Returns A Has) (has : Has w taken idle)
    (yields : Yields A size taken w x l m) (deep : l < depth) (low : l ≤ 10)
    (apart : cutoff ≤ s ∨ s + NODE_FANOUT ^ l ≤ cutoff ∨ m.1 = CELL_FREE) :
    wp (A.trimChild cutoff (depth + 1) l m.1 m.2.1 m.2.2 s) (fun out w' =>
      (∀ m', out.1 = some m' → SlotFits m') ∧
      ∃ x', Trimmed A Has size cutoff taken idle x l s (out.1.getD m) out.2 w w' x')
      (fun _ _ => False) w := by
  have range : ∀ f b, x.Maps NODE_FANOUT l s f b → s ≤ f ∧ f < s + NODE_FANOUT ^ l :=
    fun f b maps => maps.range yields.fits
  have stays : (∀ f b, x.Maps NODE_FANOUT l s f b → f < cutoff) →
      wp (pure (none, 0) : Prog Work (Option (Nat × Nat × Nat) × Nat)) (fun out w' =>
        (∀ m', out.1 = some m' → SlotFits m') ∧
        ∃ x', Trimmed A Has size cutoff taken idle x l s (out.1.getD m) out.2 w w' x')
        (fun _ _ => False) w := by
    intro inside
    rw [wp_pure]
    exact ⟨fun _ made => (by cases made), x, .refl laws has yields inside⟩
  have bare : m.1 = CELL_FREE → ∀ f b, x.Maps NODE_FANOUT l s f b → f < cutoff := by
    intro free f b maps
    rw [(hole_of_stored yields.stored).mp free] at maps
    exact maps.elim
  rw [Allocator.trimChild, wp_bind, wp_ofExcept, cov_run low]
  dsimp only
  rw [wp_ite]
  by_cases beyond : s ≥ cutoff
  · rw [if_pos beyond, wp_ite]
    by_cases free : m.1 = CELL_FREE
    · rw [if_pos free]
      exact stays (bare free)
    · rw [if_neg free, wp_bind]
      refine wp_mono (freeChild_wp laws deep has yields) ?_ fun _ _ => id
      rintro freed w' ⟨rfl, back⟩
      rw [wp_pure]
      refine ⟨fun m' made => ?_, .hole, .hole (fun f b maps => ?_)
        (back.congr laws (dropped_hole x) fun _ => Iff.rfl)⟩
      · cases made
        exact ⟨by decide, by decide, by decide⟩
      · have first := (range f b maps).1
        omega
  · rw [if_neg beyond, wp_ite]
    by_cases below : s + NODE_FANOUT ^ l ≤ cutoff
    · rw [if_pos below]
      exact stays fun f b maps => Nat.lt_of_lt_of_le (range f b maps).2 below
    · have free : m.1 = CELL_FREE := (apart.resolve_left (by omega)).resolve_left below
      rw [if_neg below, wp_ite, if_pos free]
      exact stays (bare free)

theorem trimChild_wp (laws : Returns A Has) (deep : l + 1 < depth) (low : l ≤ 10) :
    Trimmer A Has size cutoff (A.trimChild cutoff depth l m.1 m.2.1 m.2.2 s) x l s m := by
  induction x generalizing l s m depth with
  | hole =>
      intro w taken idle has yields
      obtain ⟨d, rfl⟩ : ∃ d, depth = d + 1 := ⟨depth - 1, by omega⟩
      exact trimChild_apart laws has yields (by omega) low (Or.inr (Or.inr yields.stored))
  | run n a =>
      intro w taken idle has yields
      obtain ⟨d, rfl⟩ : ∃ d, depth = d + 1 := ⟨depth - 1, by omega⟩
      by_cases apart : cutoff ≤ s ∨ s + NODE_FANOUT ^ l ≤ cutoff
      · exact trimChild_apart laws has yields (by omega) low (apart.imp_right Or.inl)
      · obtain ⟨below, beyond⟩ := not_or.mp apart
        have slot : m = (CELL_FULL, n, a) := yields.stored
        obtain ⟨some, covered, place, room⟩ := yields.fits
        rw [Allocator.trimChild, wp_bind, wp_ofExcept, cov_run low]
        subst slot
        dsimp only
        rw [if_neg below, if_neg beyond, if_neg (by decide), if_pos rfl, wp_bind]
        refine wp_mono (trimChild_run laws has yields (Nat.lt_of_not_le below)) ?_ fun _ _ => id
        rintro ⟨kept, freed⟩ w' ⟨less, trimmed⟩
        dsimp only at less trimmed ⊢
        rw [wp_ite]
        by_cases same : kept ≠ n
        · rw [if_pos same, wp_pure]
          refine ⟨fun m' made => ?_, _, trimmed⟩
          cases made
          exact ⟨(by decide : CELL_FULL < 4), show kept < 2 ^ 32 by omega, place⟩
        · rw [if_neg same, wp_pure]
          obtain rfl : kept = n := by omega
          exact ⟨fun _ made => (by cases made), _, trimmed⟩
  | node r kids ih =>
      intro w taken idle has yields
      obtain ⟨d, rfl⟩ : ∃ d, depth = d + 1 := ⟨depth - 1, by omega⟩
      by_cases apart : cutoff ≤ s ∨ s + NODE_FANOUT ^ l ≤ cutoff
      · exact trimChild_apart laws has yields (by omega) low (apart.imp_right Or.inl)
      · obtain ⟨below, beyond⟩ := not_or.mp apart
        obtain ⟨state, place, -⟩ := yields.stored
        have some := yields.fits.1
        rw [Allocator.trimChild, wp_bind, wp_ofExcept, cov_run low]
        dsimp only
        rw [state, if_neg below, if_neg beyond, if_neg (by decide), if_neg (by decide), if_pos rfl,
          place]
        exact trimNode_wp laws has yields low fun i _ m => ih i (by omega) (by omega)

theorem trimRoot_wp (laws : Returns A Has) (deep : l + 1 < depth) (low : l ≤ 10) :
    ∀ {is : List Nat} {w : Work} {taken idle : Nat → Prop} {p : Bytes}, Has w taken idle →
      Unshared kids is → is.Nodup → (∀ i ∈ is, i < ROOT_FANOUT) →
      (∀ i ∈ is, Yields A size taken w (kids i) l (rootSlot p i)) →
      wp (A.trimRoot cutoff depth l (NODE_FANOUT ^ l) is p) (fun out w' => ∃ kids',
        Trims A Has size cutoff taken idle kids l 0 is (rootSlot out.1) out.2 w w' kids' ∧
        (∀ j < ROOT_FANOUT, j ∉ is → rootSlot out.1 j = rootSlot p j) ∧
        rootLevel out.1 = rootLevel p) (fun _ _ => False) w := by
  intro is
  induction is with
  | nil =>
      intro w taken idle p has _ _ _ _
      rw [Allocator.trimRoot, wp_pure]
      exact ⟨kids, .nil laws has _, fun _ _ _ => rfl, rfl⟩
  | cons i is ih =>
      intro w taken idle p has unshared nodup inside yields
      obtain ⟨apart, unshared'⟩ := List.pairwise_cons.mp unshared
      obtain ⟨new, nodup'⟩ := List.nodup_cons.mp nodup
      have hi := inside i List.mem_cons_self
      rw [Allocator.trimRoot, ← Nat.zero_add (i * NODE_FANOUT ^ l), wp_bind]
      refine wp_mono (trimChild_wp laws deep low (m := rootSlot p i) has
        (yields i List.mem_cons_self)) ?_ fun _ _ => id
      rintro ⟨change, freed⟩ w₁ ⟨fits, x', first⟩
      dsimp only at fits first ⊢
      have step : ∀ {p₁ : Bytes}, rootSlot p₁ i = change.getD (rootSlot p i) →
          (∀ j < ROOT_FANOUT, j ≠ i → rootSlot p₁ j = rootSlot p j) → rootLevel p₁ = rootLevel p →
          wp (A.trimRoot cutoff depth l (NODE_FANOUT ^ l) is p₁ >>= fun out =>
            pure (out.1, freed + out.2)) (fun out w' => ∃ kids',
            Trims A Has size cutoff taken idle kids l 0 (i :: is) (rootSlot out.1) out.2 w w'
                kids' ∧
            (∀ j < ROOT_FANOUT, j ∉ i :: is → rootSlot out.1 j = rootSlot p j) ∧
            rootLevel out.1 = rootLevel p) (fun _ _ => False) w₁ := by
        intro p₁ here others level
        rw [wp_bind]
        refine wp_mono (ih first.back.has unshared' nodup' (fun j hj =>
          inside j (List.mem_cons_of_mem _ hj)) fun j hj => ?_) ?_ fun _ _ => id
        · rw [others j (inside j (List.mem_cons_of_mem _ hj)) (by rintro rfl; exact new hj)]
          refine (yields j (List.mem_cons_of_mem _ hj)).after first.back fun b used used' => ?_
          exact apart j hj b used' used
        · rintro ⟨p₂, more⟩ w₂ ⟨kids', rest, others₂, level₂⟩
          rw [wp_pure]
          dsimp only at rest others₂ level₂ ⊢
          have slot : rootSlot p₂ i = change.getD (rootSlot p i) := (others₂ i hi new).trans here
          refine ⟨_, .cons laws unshared new (slot.symm ▸ first) rest, fun j hj outside => ?_,
            level₂.trans level⟩
          obtain ⟨other, outside'⟩ := not_or.mp (List.mem_cons.not.mp outside)
          exact (others₂ j hj outside').trans (others j hj other)
      cases change with
      | none => exact step rfl (fun _ _ _ => rfl) rfl
      | some m' =>
          obtain ⟨state, count, place⟩ := fits m' rfl
          refine step ?_ (fun j hj other => ?_) (rootLevel_set p)
          · rw [rootSlot_set p hi hi state count place, if_pos rfl]
            rfl
          · rw [rootSlot_set p hi hj state count place, if_neg other]

/-- What is left of an extent. -/
structure Shorter (e' e : Extent) : Prop where
  fileBlock : e'.fileBlock = e.fileBlock
  blk : e'.blk = e.blk
  some : 0 < e'.blocks
  less : e'.blocks ≤ e.blocks

omit [Crc32c] in
theorem Shorter.mem {es es' : List Extent} (shorter : List.SublistForall₂ Shorter es' es)
    {e' : Extent} (member : e' ∈ es') : ∃ e ∈ es, Shorter e' e := by
  induction shorter with
  | nil => exact absurd member List.not_mem_nil
  | cons head tail ih =>
      rcases List.mem_cons.mp member with rfl | later
      · exact ⟨_, List.mem_cons_self, head⟩
      · obtain ⟨e, inside, short⟩ := ih later
        exact ⟨e, List.mem_cons_of_mem _ inside, short⟩
  | cons_right tail ih =>
      obtain ⟨e, inside, short⟩ := ih member
      exact ⟨e, List.mem_cons_of_mem _ inside, short⟩

omit [Crc32c] in
theorem Shorter.pairwise {R : Extent → Extent → Prop} {es es' : List Extent}
    (keeps : ∀ {a a' b b' : Extent}, Shorter a' a → Shorter b' b → R a b → R a' b')
    (shorter : List.SublistForall₂ Shorter es' es) (pairs : es.Pairwise R) : es'.Pairwise R := by
  induction shorter with
  | nil => exact .nil
  | cons head tail ih =>
      obtain ⟨first, rest⟩ := List.pairwise_cons.mp pairs
      refine List.pairwise_cons.mpr ⟨fun b' member => ?_, ih rest⟩
      obtain ⟨b, inside, short⟩ := Shorter.mem tail member
      exact keeps head short (first b inside)
  | cons_right tail ih => exact ih (List.pairwise_cons.mp pairs).2

omit [Crc32c] in
theorem Shorter.length {es es' : List Extent} (shorter : List.SublistForall₂ Shorter es' es) :
    es'.length ≤ es.length := by
  induction shorter with
  | nil => exact Nat.zero_le _
  | cons head tail ih => exact Nat.succ_le_succ ih
  | cons_right tail ih => exact Nat.le_succ_of_le ih

/-- The blocks that the extents have no more. -/
def Shed (es es' : List Extent) (b : Nat) : Prop := 0 < usesInline es b ∧ usesInline es' b = 0

/-- The extents were cut to `es'`, and `freed` blocks given back. -/
structure Pruned (A : Allocator) (Has : Work → (Nat → Prop) → (Nat → Prop) → Prop)
    (size : Nat → Nat) (cutoff : Nat) (taken idle : Nat → Prop) (es : List Extent) (freed : Nat)
    (w w' : Work) (es' : List Extent) : Prop where
  shorter : List.SublistForall₂ Shorter es' es
  less : ∀ b, usesInline es' b ≤ usesInline es b
  back : Back A Has taken idle (Shed es es') (fun b => 0 < usesInline es b) w w'
  grained : ∀ e ∈ es', Grained A size (fun b => taken b ∧ ¬ Shed es es' b) w' e.blocks e.blk
  cut : Cut size cutoff (MapsInline es) (MapsInline es')
  data : freed + (es'.map Extent.blocks).sum = (es.map Extent.blocks).sum

/-- The extent as the one run of a child that has room for any. -/
def Extent.cover (e : Extent) : Cover := .run e.blocks e.blk

/-- What is left of one extent, in a list of one or none. -/
def leftOf : List Extent → Cover
  | [] => .hole
  | e :: _ => e.cover

theorem Pruned.cons (laws : Returns A Has) {e : Extent} {es es' kept : List Extent}
    {freed more : Nat} {m' : Nat × Nat × Nat} (once : ∀ b, usesInline (e :: es) b ≤ 1)
    (first : Trimmed A Has size cutoff taken idle e.cover l e.fileBlock m' freed w w₁ (leftOf kept))
    (form : kept = [] ∨ ∃ e', kept = [e'] ∧ Shorter e' e)
    (rest : Pruned A Has size cutoff (fun b => taken b ∧ ¬ Dropped e.cover (leftOf kept) b)
      (fun b => idle b ∨ Dropped e.cover (leftOf kept) b) es more w₁ w₂ es') :
    Pruned A Has size cutoff taken idle (e :: es) (freed + more) w w₂ (kept ++ es') := by
  have uses : ∀ b, usesInline (e :: es) b = usesInline es b + e.cover.uses NODE_FANOUT b := fun b =>
    usesInline_cons e es b
  have uses' : ∀ b, usesInline (kept ++ es') b =
      usesInline es' b + (leftOf kept).uses NODE_FANOUT b := by
    intro b
    rcases form with rfl | ⟨e', rfl, -⟩
    · rfl
    · exact usesInline_cons e' es' b
  have less : ∀ b, usesInline (kept ++ es') b ≤ usesInline (e :: es) b := fun b => by
    have head := first.less b
    have tail := rest.less b
    rw [uses, uses']
    omega
  have shed : ∀ b, Shed (e :: es) (kept ++ es') b ↔
      Dropped e.cover (leftOf kept) b ∨ Shed es es' b := by
    intro b
    have both := once b
    have head := first.less b
    have tail := rest.less b
    rw [uses] at both
    rw [Shed, Shed, Dropped, uses, uses']
    omega
  have left : (fun b => (taken b ∧ ¬ Dropped e.cover (leftOf kept) b) ∧ ¬ Shed es es' b) =
      fun b => taken b ∧ ¬ Shed (e :: es) (kept ++ es') b := by
    funext b
    rw [shed, not_or, and_assoc]
  have maps : ∀ f b, MapsInline (e :: es) f b ↔
      e.cover.Maps NODE_FANOUT l e.fileBlock f b ∨ MapsInline es f b := fun f b =>
    List.exists_mem_cons_iff _ _ _
  have maps' : ∀ f b, MapsInline (kept ++ es') f b ↔
      (leftOf kept).Maps NODE_FANOUT l e.fileBlock f b ∨ MapsInline es' f b := by
    intro f b
    rcases form with rfl | ⟨e', rfl, short⟩
    · exact (false_or _).to_iff.symm
    · rw [← short.fileBlock]
      exact List.exists_mem_cons_iff _ _ _
  refine ⟨?_, less, (first.back.trans laws rest.back).congr laws shed fun b => ?_, ?_,
    (first.cut.or rest.cut).congr maps maps', ?_⟩
  · rcases form with rfl | ⟨e', rfl, short⟩
    · exact .cons_right rest.shorter
    · exact .cons short rest.shorter
  · rw [uses]
    omega
  · rw [← left]
    intro e' member
    rcases List.mem_append.mp member with here | later
    · rcases form with rfl | ⟨e'', rfl, short⟩
      · exact absurd here List.not_mem_nil
      · obtain rfl := List.mem_singleton.mp here
        refine Yields.grains (first.yields.after rest.back fun b used used' => ?_)
        have both := once b
        have head := first.less b
        rw [uses] at both
        omega
    · exact rest.grained e' later
  · have head := first.data
    have tail := rest.data
    rw [List.map_cons, List.sum_cons, List.map_append, List.sum_append]
    rcases form with rfl | ⟨e', rfl, -⟩
    · have all : freed + 0 = e.blocks := head
      rw [List.map_nil, List.sum_nil]
      omega
    · have all : freed + e'.blocks = e.blocks := head
      rw [List.map_singleton, List.sum_singleton]
      omega

omit [Crc32c] in
theorem fits_wide {e : Extent} (some : 0 < e.blocks) (fits : RunFits e.blocks e.blk) :
    e.cover.Fits NODE_FANOUT RunFits 10 := by
  have room : 2 ^ 32 ≤ NODE_FANOUT ^ 10 := by decide
  have short := fits.2
  exact ⟨some, by omega, fits⟩

theorem trimExtents_wp (laws : Returns A Has) :
    ∀ {es : List Extent} {w : Work} {taken idle : Nat → Prop}, Has w taken idle →
      (∀ e ∈ es, 0 < e.blocks ∧ RunFits e.blocks e.blk) → (∀ b, usesInline es b ≤ 1) →
      (∀ b, 0 < usesInline es b → taken b) → (∀ e ∈ es, Grained A size taken w e.blocks e.blk) →
      wp (A.trimExtents cutoff es) (fun out w' =>
        Pruned A Has size cutoff taken idle es out.2 w w' out.1) (fun _ _ => False) w := by
  intro es
  induction es with
  | nil =>
      intro w taken idle has _ _ _ _
      rw [Allocator.trimExtents, wp_pure]
      have none : ∀ b, Shed [] [] b ↔ False := fun b => by simp [Shed, usesInline]
      have unused : ∀ b, 0 < usesInline [] b ↔ False := fun b => by simp [usesInline]
      exact ⟨.nil, fun _ => Nat.le_refl _, (Back.refl laws has).congr laws none unused,
        fun _ member => absurd member List.not_mem_nil,
        .refl fun _ _ maps => (by simp [MapsInline] at maps), rfl⟩
  | cons e es ih =>
      intro w taken idle has sound once owned grained
      obtain ⟨some, fits⟩ := sound e List.mem_cons_self
      have uses : ∀ b, usesInline (e :: es) b = usesInline es b + e.cover.uses NODE_FANOUT b :=
        fun b => usesInline_cons e es b
      have yields : Yields A size taken w e.cover 10 (CELL_FULL, e.blocks, e.blk) := by
        refine ⟨rfl, fits_wide some fits, fun b => ?_, fun b used => owned b ?_,
          grained e List.mem_cons_self⟩
        · have both := once b
          rw [uses] at both
          omega
        · rw [uses]
          omega
      have range : ∀ f b, e.cover.Maps NODE_FANOUT 10 e.fileBlock f b →
          e.fileBlock ≤ f ∧ f < e.fileBlock + e.blocks := fun f b maps => ⟨maps.1, maps.2.1⟩
      -- the extent itself, then the others
      have step : ∀ (kept : List Extent) {freed : Nat} {m' : Nat × Nat × Nat} {w₁ : Work},
          Trimmed A Has size cutoff taken idle e.cover 10 e.fileBlock m' freed w w₁ (leftOf kept) →
          (kept = [] ∨ ∃ e', kept = [e'] ∧ Shorter e' e) →
          wp (A.trimExtents cutoff es >>= fun out => pure (kept ++ out.1, freed + out.2))
            (fun out w' => Pruned A Has size cutoff taken idle (e :: es) out.2 w w' out.1)
            (fun _ _ => False) w₁ := by
        intro kept freed m' w₁ first form
        have apart : ∀ b, 0 < usesInline es b → ¬ 0 < e.cover.uses NODE_FANOUT b := fun b used => by
          have both := once b
          rw [uses] at both
          omega
        have own : ∀ b, 0 < usesInline es b → taken b ∧ ¬ Dropped e.cover (leftOf kept) b :=
          fun b used => ⟨owned b (by rw [uses]; omega), fun gone => apart b used gone.1⟩
        rw [wp_bind]
        refine wp_mono (ih first.back.has (fun e' member =>
            sound e' (List.mem_cons_of_mem _ member))
          (fun b => ?_) own fun e' member => ?_) ?_ fun _ _ => id
        · have both := once b
          rw [uses] at both
          omega
        · exact (grained e' (List.mem_cons_of_mem _ member)).after first.back fun b low high =>
            own b (usesInline_of_mem member low high)
        · rintro ⟨es', more⟩ w₂ rest
          exact Pruned.cons laws once first form rest
      rw [Allocator.trimExtents, wp_ite]
      by_cases beyond : e.fileBlock ≥ cutoff
      · rw [if_pos beyond, wp_bind]
        refine wp_mono (laws.back has some (fun b low high =>
          yields.owned b (uses_run_pos.mpr ⟨low, high⟩)) (grained e List.mem_cons_self)) ?_
          fun _ _ => id
        rintro _ w₁ back
        rw [wp_bind, wp_pure]
        have gone : Trimmed A Has size cutoff taken idle e.cover 10 e.fileBlock (CELL_FREE, 0, 0)
            e.blocks w w₁ (leftOf []) :=
          .hole (fun f b maps => Nat.le_trans beyond (range f b maps).1)
            (back.congr laws (fun b => (dropped_hole _ b).trans uses_run_pos) fun _ => uses_run_pos)
        exact step [] gone (Or.inl rfl)
      · rw [if_neg beyond, wp_ite]
        by_cases across : e.fileBlock + e.blocks > cutoff
        · rw [if_pos across, wp_bind]
          refine wp_mono (trimChild_run laws has yields (Nat.lt_of_not_le beyond)) ?_ fun _ _ => id
          rintro ⟨kept, freed⟩ w₁ ⟨less, trimmed⟩
          dsimp only at less trimmed ⊢
          rw [wp_bind, wp_pure]
          exact step [⟨e.fileBlock, e.blk, kept⟩] trimmed
            (Or.inr ⟨_, rfl, rfl, rfl, trimmed.yields.fits.1, less⟩)
        · rw [if_neg across, wp_bind, wp_pure]
          refine step [e] (.refl laws has yields fun f b maps => ?_)
            (Or.inr ⟨e, rfl, rfl, rfl, some, Nat.le_refl _⟩)
          have last := (range f b maps).2
          omega

omit [Crc32c] in
theorem length_extentsParseFrom (p : Bytes) : ∀ n off, (extentsParseFrom p n off).length ≤ n := by
  intro n
  induction n with
  | zero => exact fun _ => Nat.le_refl 0
  | succ n ih =>
      intro off
      rw [extentsParseFrom]
      split
      · exact Nat.zero_le _
      · exact Nat.succ_le_succ (ih _)

/-- The data blocks of a mapping. -/
def Filemap.data : Filemap → Nat
  | .empty => 0
  | .inline es => (es.map Extent.blocks).sum
  | .tree _ kids => ((List.range ROOT_FANOUT).map fun i => (kids i).data NODE_FANOUT).sum

/-- The mapping `y` was cut to `y'`, the rest of its blocks given back, `freed` of them data. -/
structure Truncated (A : Allocator) (Has : Work → (Nat → Prop) → (Nat → Prop) → Prop)
    (size : Nat → Nat) (cutoff : Nat) (taken idle : Nat → Prop) (y : Filemap) (freed : Nat)
    (w w' : Work) (inode' : Inode) (y' : Filemap) : Prop where
  filed : Filed (fun w taken => Has w taken fun b => idle b ∨ (0 < y.uses b ∧ y'.uses b = 0))
    (fun b => taken b ∧ ¬ (0 < y.uses b ∧ y'.uses b = 0)) w' inode' y'
  grains : y'.Grains A size (fun b => taken b ∧ ¬ (0 < y.uses b ∧ y'.uses b = 0)) w'
  back : Back A Has taken idle (fun b => 0 < y.uses b ∧ y'.uses b = 0) (fun b => 0 < y.uses b) w w'
  less : ∀ b, y'.uses b ≤ y.uses b
  cut : Cut size cutoff y.Maps y'.Maps
  data : freed + y'.data = y.data

variable {inode : Inode} {y : Filemap}

theorem truncated_inline {es es' : List Extent} {freed : Nat}
    (format : inode.format = FMT_EXTENT) (short : es.length ≤ MAX_INLINE_EXTENTS)
    (sorted : es.Pairwise fun e e' => e.fileBlock ≤ e'.fileBlock)
    (listed : Listed (fun w taken => Has w taken idle) taken w es)
    (pruned : Pruned A Has size cutoff taken idle es freed w w₁ es') :
    ∃ p, extentsStore es' = .ok p ∧ Truncated A Has size cutoff taken idle (.inline es) freed w w₁
      { inode with payload := p } (.inline es') := by
  have sound : ∀ e ∈ es', 0 < e.blocks ∧ RunFits e.blocks e.blk ∧
      e.fileBlock + e.blocks ≤ 2 ^ 53 := by
    intro e' member
    obtain ⟨e, inside, shorter⟩ := Shorter.mem pruned.shorter member
    obtain ⟨_, fits, reach⟩ := listed.sound e inside
    have less := shorter.less
    have part := RunFits.part (o := 0) (m := e'.blocks) (by omega) fits
    rw [shorter.blk, shorter.fileBlock]
    exact ⟨shorter.some, part, by omega⟩
  obtain ⟨p, run, parse⟩ := extentsParse_extentsStore
    (fun e member => ⟨by have := (sound e member).2.2; omega, (sound e member).2.1.1,
      by have := (sound e member).2.1.2; omega⟩)
    (fun e member => (sound e member).1) (Nat.le_trans (Shorter.length pruned.shorter) short)
  refine ⟨p, run, .inline format ((extentsParse_clip p).symm.trans parse) ?_
    ⟨sound, ?_, fun b => ?_, fun b used => ⟨?_, fun gone => ?_⟩, pruned.back.has⟩, pruned.grained,
    pruned.back, pruned.less, pruned.cut, pruned.data⟩
  · refine Shorter.pairwise (fun first second => ?_) pruned.shorter sorted
    rw [first.fileBlock, second.fileBlock]
    exact id
  · refine Shorter.pairwise (fun first second apart => ?_) pruned.shorter listed.apart
    have less := first.less
    have less' := second.less
    rw [Extent.Apart, first.fileBlock, second.fileBlock]
    rw [Extent.Apart] at apart
    omega
  · exact Nat.le_trans (pruned.less b) (listed.once b)
  · exact listed.owned b (Nat.lt_of_lt_of_le used (pruned.less b))
  · have none : usesInline es' b = 0 := gone.2
    omega

theorem truncated_tree (laws : Returns A Has) {p' : Bytes} {freed : Nat}
    (format : inode.format = FMT_TREE)
    (grove : Grove (fun w taken => Has w taken idle) taken w (.root inode.payload) ROOT_FANOUT l
    kids)
    (trims : Trims A Has size cutoff taken idle kids l 0 (List.range ROOT_FANOUT) (rootSlot p')
    freed
      w w₁ kids') (level : rootLevel p' = l) :
    Truncated A Has size cutoff taken idle (.tree l kids) freed w w₁ { inode with payload := p' }
      (.tree l kids') := by
  have less : ∀ i < ROOT_FANOUT, ∀ b, (kids' i).uses NODE_FANOUT b ≤ (kids i).uses NODE_FANOUT b :=
    fun i hi => trims.less i (List.mem_range.mpr hi)
  have fewer : ∀ b, uses NODE_FANOUT ROOT_FANOUT kids' b ≤ uses NODE_FANOUT ROOT_FANOUT kids b :=
    fun b => Finset.sum_le_sum fun i hi => less i (Finset.mem_range.mp hi) b
  have lost := lost_range grove.once less
  have left : (fun b => taken b ∧ ¬ Lost kids kids' (List.range ROOT_FANOUT) b) =
      fun b => taken b ∧ ¬ (0 < uses NODE_FANOUT ROOT_FANOUT kids b ∧
        uses NODE_FANOUT ROOT_FANOUT kids' b = 0) := funext fun b => by rw [lost]
  have back := trims.back.congr laws lost fun b => (usedBy_range kids ROOT_FANOUT b).symm
  have yields := trims.yields
  rw [left] at yields
  have kept := fun i (hi : i < ROOT_FANOUT) => yields i (List.mem_range.mpr hi)
  refine ⟨.tree format ⟨grove.low, ⟨rootSlot p', ⟨rfl, level, fun _ _ => rfl⟩,
    fun i hi => (kept i hi).stored⟩, fun i hi => (kept i hi).fits,
    fun b => Nat.le_trans (fewer b) (grove.once b), fun b used => ⟨?_, fun gone => ?_⟩,
    fun r here => (by cases here), back.has⟩, fun i hi => (kept i hi).grains, back, fewer,
    .exists fun i hi => trims.cut i (List.mem_range.mpr hi), trims.data⟩
  · exact grove.owned b (Nat.lt_of_lt_of_le used (fewer b))
  · have none : uses NODE_FANOUT ROOT_FANOUT kids' b = 0 := gone.2
    omega

/-- `map_truncate` keeps what is mapped below the cutoff, and beyond it at most the rest of a
granule; it gives back the blocks that this takes no more, and no others. -/
theorem mapTruncate_wp (laws : Returns A Has) (deep : 11 < depth)
    (filed : Filed (fun w taken => Has w taken idle) taken w inode y)
    (grains : y.Grains A size taken w) :
    wp (A.mapTruncate depth inode cutoff) (fun out w' =>
      out.2 = { inode with payload := out.2.payload } ∧
      ∃ y', Truncated A Has size cutoff taken idle y out.1 w w' out.2 y') (fun _ _ => False) w := by
  rw [Allocator.mapTruncate, wp_ite]
  cases filed with
  | empty format has =>
      rw [if_pos format, wp_pure]
      have none : ∀ b, (0 < Filemap.empty.uses b ∧ Filemap.empty.uses b = 0) ↔ False := fun b => by
        simp [Filemap.uses]
      have unused : ∀ b, 0 < Filemap.empty.uses b ↔ False := fun b => by simp [Filemap.uses]
      have back := (Back.refl laws has).congr laws none unused
      exact ⟨rfl, .empty, .empty format back.has, trivial, back, fun _ => Nat.le_refl _,
        .refl fun _ _ => False.elim, rfl⟩
  | inline format parse sorted listed =>
      have other : ¬ (inode.format = FMT_EMPTY ∨ inode.format = FMT_EMBED) := by
        rw [format]
        decide
      rw [if_neg other, wp_ite, if_pos format, parse, wp_bind]
      refine wp_mono (trimExtents_wp laws listed.held
        (fun e member => ⟨(listed.sound e member).1, (listed.sound e member).2.1⟩)
        listed.once listed.owned grains) ?_ fun _ _ => id
      rintro ⟨es', freed⟩ w₁ pruned
      have short := length_extentsParseFrom inode.payload MAX_INLINE_EXTENTS 0
      rw [← extentsParse, parse] at short
      obtain ⟨p, run, truncated⟩ := truncated_inline format short sorted listed pruned
      dsimp only
      rw [wp_bind, wp_ofResult, run]
      exact ⟨rfl, _, truncated⟩
  | tree format grove =>
      have other : ¬ (inode.format = FMT_EMPTY ∨ inode.format = FMT_EMBED) := by
        rw [format]
        decide
      have inline_ : ¬ inode.format = FMT_EXTENT := by
        rw [format]
        decide
      have low := grove.low
      obtain ⟨_, ⟨_, level, _⟩, _⟩ := grove.shown
      rw [if_neg other, wp_ite, if_neg inline_, wp_ite, if_pos format, level, wp_bind, wp_ofExcept,
        cov_run low]
      dsimp only
      rw [wp_bind]
      refine wp_mono (trimRoot_wp laws (by omega) low grove.held (unshared_range grove.once)
        List.nodup_range (fun i hi => List.mem_range.mp hi)
        fun i hi => yields_root grove grains (List.mem_range.mp hi)) ?_ fun _ _ => id
      rintro ⟨p', freed⟩ w₁ ⟨kids', trims, -, level'⟩
      rw [wp_pure]
      exact ⟨rfl, _, truncated_tree laws format grove trims (level'.trans level)⟩

end Trimming

/-- `map_truncate` over the allocator of the AG. -/
theorem map_truncate_allocated [Crc32c] {A : Ag} {stale taken idle : Nat → Prop} {w : Work}
    {size : Nat → Nat} {inode : Inode} {y : Filemap} {depth : Nat}
    (whole : ∀ c < A.cells, ¬ A.Split c) (deep : 11 < depth) (cutoff : Nat)
    (filed : Filed (fun w taken => Holding A stale w taken idle) taken w inode y)
    (grains : y.Grains (Work.allocator A.num) size taken w) :
    wp ((Work.allocator A.num).mapTruncate depth inode cutoff) (fun out w' =>
      out.2 = { inode with payload := out.2.payload } ∧
      ∃ y', Truncated (Work.allocator A.num) (Holding A stale) size cutoff taken idle y out.1 w w'
        out.2 y') (fun _ _ => False) w :=
  mapTruncate_wp (returns_holding whole) deep filed grains

end FiveFs
