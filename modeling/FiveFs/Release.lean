import FiveFs.Header
import FiveFs.Lib.Coarsen

/-! Freeing extents: a granule that is freed is FREE after it, empty records coarsen away, and
nothing else changes. -/

namespace FiveFs

open Buffer Prog Refine

/-- The child of a root cell that block `l` is in, and the block in that child. -/
def childOf (l : Nat) : Fin ALLOC_FANOUT := ⟨l1Index l, l1Index_lt l⟩
def blockOfChild (l : Nat) : Fin ALLOC_FANOUT := ⟨l2Index l, l2Index_lt l⟩

/-- The path to the cell of depth `d` that block `l` is in. -/
def route (l d : Nat) : List (Fin ALLOC_FANOUT) := [childOf l, blockOfChild l].take d

/-- Nothing but FREE space changed: records of it may have coarsened. -/
def Merges (T T' : Nat → Tree) (b s : Nat) : Prop :=
  spot T' b s = spot T b s ∨ ∃ e e', e ≤ e' ∧ e' ≤ 2 ∧ spot T b s = some (.free, e') ∧
  spot T' b s = some (.free, e)

/-- The run of `n` blocks at `l` was given back. -/
structure Returned (T T' : Nat → Tree) (l n : Nat) : Prop where
  now : ∀ b s, l ≤ b → b < l + n → ∃ e ≤ 2, spot T' b s = some (.free, e)
  others : ∀ b s, ¬ (l ≤ b ∧ b < l + n) → Merges T T' b s

section Forest

variable {T : Nat → Tree} {c : Nat} {r : Ref} {kids : Fin ALLOC_FANOUT → Tree} {x y : Tree}
  {p : List (Fin ALLOC_FANOUT)}

theorem route_eq {d : Nat} (depth : d ≤ 2) (l s : Nat) : route l d = (digits l s).take d := by
  have cases : d = 0 ∨ d = 1 ∨ d = 2 := by omega
  rcases cases with rfl | rfl | rfl <;> rfl

theorem length_route {d : Nat} (depth : d ≤ 2) (l : Nat) : (route l d).length = d := by
  rw [route, List.length_take]
  exact Nat.min_eq_left depth

theorem leaf_of_spot {l s d : Nat} {st : CellState} (depth : d ≤ 2)
    (met : spot T l s = some (st, d)) :
    (T (l / CELL_BLOCKS)).sub (route l d) = some (.leaf st) := by
  rw [route_eq depth l s]
  exact Cell.sub_of_look (d := 0) (by rw [Nat.zero_add]; exact met)

theorem route_before {l d : Nat} (depth : d ≤ 2) (start : l % granule d = 0) (b s : Nat) :
    b / CELL_BLOCKS = l / CELL_BLOCKS ∧ route l d <+: digits b s ↔ l ≤ b ∧ b < l + granule d := by
  have first : childOf l = (⟨l1Index b, l1Index_lt b⟩ : Fin ALLOC_FANOUT) ↔
      l1Index l = l1Index b := by
    rw [childOf, Fin.mk.injEq]
  have second : blockOfChild l = (⟨l2Index b, l2Index_lt b⟩ : Fin ALLOC_FANOUT) ↔
      l2Index l = l2Index b := by
    rw [blockOfChild, Fin.mk.injEq]
  have one : route l 1 <+: digits b s ↔ l1Index l = l1Index b := by
    show [childOf l] <+: digits b s ↔ _
    rw [digits_eq, List.cons_prefix_cons, first]
    exact and_iff_left List.nil_prefix
  have two : route l 2 <+: digits b s ↔ l1Index l = l1Index b ∧ l2Index l = l2Index b := by
    show [childOf l, blockOfChild l] <+: digits b s ↔ _
    rw [digits_eq, List.cons_prefix_cons, List.cons_prefix_cons, first, second]
    exact and_congr_right fun _ => and_iff_left List.nil_prefix
  have cases : d = 0 ∨ d = 1 ∨ d = 2 := by omega
  rcases cases with rfl | rfl | rfl
  · have zero : route l 0 <+: digits b s := List.nil_prefix
    have aligned : l % 256 = 0 := start
    rw [and_iff_left zero, granule, CELL_BLOCKS]
    omega
  · rw [one]
    simp only [granule, l1Index, CELL_BLOCKS, ALLOC_FANOUT] at *
    omega
  · rw [two]
    simp only [granule, l1Index, l2Index, CELL_BLOCKS, ALLOC_FANOUT] at *
    omega

theorem returned_release {l d : Nat} (depth : d ≤ 2) (start : l % granule d = 0)
    (leaf : (T (l / CELL_BLOCKS)).sub (route l d) = some y) :
    Returned T (Function.update T (l / CELL_BLOCKS)
    ((T (l / CELL_BLOCKS)).release .free (route l d))) l (granule d) where
  now b s low high := by
    obtain ⟨cell, inside⟩ := (route_before depth start b s).mpr ⟨low, high⟩
    obtain ⟨e, _, le, met⟩ := Cell.look_release (s := .free) leaf inside 0
    rw [length_route depth] at le
    rw [spot_update, if_pos cell]
    exact ⟨e, by omega, met⟩
  others b s outside := by
    by_cases cell : b / CELL_BLOCKS = l / CELL_BLOCKS
    · have off : ¬ route l d <+: digits b s := fun inside =>
          outside ((route_before depth start b s).mp ⟨cell, inside⟩)
      have long : (route l d).length ≤ (digits b s).length := by
        rw [length_route depth]
        exact Nat.le_succ_of_le depth
      rw [Merges, spot_update, if_pos cell, spot, cell]
      rcases Cell.look_release_other (s := .free) leaf off long
          0 with same | ⟨e, e', le, high, was, now⟩
      · exact Or.inl same
      · rw [length_route depth] at high
        exact Or.inr ⟨e, e', le, by omega, was, now⟩
    · left
      rw [spot_update, if_neg cell]

theorem Merges.trans {T' T'' : Nat → Tree} {b s : Nat} (h : Merges T T' b s)
    (h' : Merges T' T'' b s) : Merges T T'' b s := by
  rcases h with same | ⟨e, e', le, high, was, now⟩
  · rw [Merges, ← same]
    exact h'
  · rcases h' with same' | ⟨e₁, e₁', le', high', was', now'⟩
    · exact Or.inr ⟨e, e', le, high, was, same' ▸ now⟩
    · rw [now] at was'
      cases was'
      exact Or.inr ⟨e₁, e', by omega, high, was, now'⟩

theorem Merges.full {T' : Nat → Tree} {b s d : Nat} (h : Merges T T' b s)
    (full : spot T b s = some (.full, d)) :
    spot T' b s = some (.full, d) := by
  rcases h with same | ⟨e, e', _, _, was, _⟩
  · rw [same, full]
  · rw [full] at was
    cases was

theorem Merges.free {T' : Nat → Tree} {b s : Nat} (h : Merges T T' b s)
    (free : ∃ e ≤ 2, spot T b s = some (.free, e)) :
    ∃ e ≤ 2, spot T' b s = some (.free, e) := by
  rcases h with same | ⟨e, e', le, high, _, now⟩
  · rw [same]
    exact free
  · exact ⟨e, by omega, now⟩

theorem Returned.append {T' T'' : Nat → Tree} {l n m : Nat} (h : Returned T T' l n)
    (h' : Returned T' T'' (l + n) m) :
    Returned T T'' l (n + m) where
  now b s low high := by
    by_cases first : b < l + n
    · exact (h'.others b s (by omega)).free (h.now b s low first)
    · exact h'.now b s (by omega) (by omega)
  others b s outside := (h.others b s (by omega)).trans (h'.others b s (by omega))

/-- What a weight gives a FREE cell, it gives the FREE cells of a record above the inode slots. -/
def Balanced (w : Weight CellState Ref) : Prop :=
  ∀ e r, e < 2 → w.node e r + ALLOC_FANOUT * w.leaf (e + 1) .free = w.leaf e .free

theorem balanced_free : Balanced freeWeight := by
  intro e r low
  have depth : e = 0 ∨ e = 1 := by omega
  rcases depth with rfl | rfl <;> rfl

theorem balanced_full : Balanced fullWeight := by
  intro e r low
  have above : e ≠ 2 := by omega
  simp [fullWeight, above]

theorem balanced_rsvd (length c : Nat) : Balanced (rsvdWeight length c) := by
  intro e r low
  have open' : CellState.free ≠ .rsvd := by decide
  rw [rsvdWeight_node, rsvdWeight_open open', rsvdWeight_open open', Nat.mul_zero]

theorem tidy_coarsen (tidy : ∀ i, Tidy (kids i)) : Tidy (Cell.coarsen .free r kids) := by
  rcases Cell.coarsen_cases .free r kids with ⟨_, gone⟩ | ⟨some, kept⟩
  · rw [gone]
    trivial
  · rw [kept]
    exact ⟨some, tidy⟩

theorem tidy_release (tidy : Tidy x) (at_path : x.sub p = some y) : Tidy (x.release .free p) := by
  induction p generalizing x with
  | nil =>
      rw [Cell.release_nil]
      trivial
  | cons i p ih =>
      cases x with
      | leaf s => cases at_path
      | refined r kids =>
          rw [Cell.release_refined]
          refine tidy_coarsen fun j => ?_
          by_cases path : j = i
          · subst path
            rw [Function.update_self]
            exact ih (tidy.2 j) at_path
          · rw [Function.update_of_ne path]
            exact tidy.2 j

end Forest

namespace Ag

variable {A : Ag} {hdr : AgHeader} {T : Nat → Tree} {c : Nat} {p : List (Fin ALLOC_FANOUT)}
    {x : Tree}

theorem Tally.freed (h : A.Tally hdr T) (hc : c < A.cells) (leaf : (T c).sub p = some (.leaf .full))
    (short : p.length ≤ 2)
    (weighs : ∀ w, Balanced w → x.weigh w 0 = ((T c).release .free p).weigh w 0)
    (was : T c ≠ .leaf .rsvd)
    (open' : x ≠ .leaf .rsvd) :
    granule p.length ≤ hdr.fullBlocks ∧ A.Tally { hdr with
      freeBlocks := hdr.freeBlocks + granule p.length
      fullBlocks := hdr.fullBlocks - granule p.length } (Function.update T c x) := by
  have enough := h.full_le hc leaf
  have moved := fun w => total_update A.cells w T hc x
  have released : ∀ w, Balanced w → x.weigh w 0 + w.leaf p.length .full = (T c).weigh w 0 + w.leaf
      p.length .free := by
    intro w balanced
    have change := Cell.weigh_release (w := w) (d := 0) leaf fun e r _ high =>
        balanced e r (by omega)
    rw [Nat.zero_add, Cell.weigh_leaf] at change
    rw [weighs w balanced]
    exact change
  have free := released _ balanced_free
  have full := released _ balanced_full
  have rsvd := released _ (balanced_rsvd A.length c)
  have totalFree := moved fun _ => freeWeight
  have totalFull := moved fun _ => fullWeight
  have totalRsvd := moved (rsvdWeight A.length)
  rw [freeWeight_free, freeWeight_full] at free
  rw [fullWeight_free, fullWeight_full] at full
  rw [rsvdWeight_open (by decide), rsvdWeight_open (by decide)] at rsvd
  refine ⟨enough, ?_⟩
  have tally := h.change (f := 0) (g := granule p.length) (u := granule p.length) (v := 0)
      (by omega) (by omega) (by omega)
    (rsvd_grows was open')
  exact tally

theorem Tally.coarsen (h : A.Tally hdr T) (hc : c < A.cells) {r : Ref}
    {kids : Fin ALLOC_FANOUT → Tree}
    (was : T c = .refined r kids) : A.Tally hdr (Function.update T c
    (Cell.coarsen .free r kids)) := by
  have weighs : ∀ w, Balanced w → (Cell.coarsen .free r kids).weigh w 0 = (T c).weigh w 0 := by
    intro w balanced
    rw [was]
    exact Cell.weigh_coarsen (balanced 0 r (by decide))
  have moved := fun w => total_update A.cells w T hc (Cell.coarsen .free r kids)
  have totalFree := moved fun _ => freeWeight
  have totalFull := moved fun _ => fullWeight
  have totalRsvd := moved (rsvdWeight A.length)
  rw [weighs _ balanced_free] at totalFree
  rw [weighs _ balanced_full] at totalFull
  rw [weighs _ (balanced_rsvd A.length c)] at totalRsvd
  refine h.keep (by omega) (by omega) (by omega) (rsvd_grows ?_ ?_)
  · rw [was]
    exact fun h => by cases h
  · rcases Cell.coarsen_cases .free r kids with ⟨_, gone⟩ | ⟨_, kept⟩
    · rw [gone]
      exact fun h => by cases h
    · rw [kept]
      exact fun h => by cases h

end Ag

namespace Ag.Held

variable [Crc32c] {A : Ag} {stale : Nat → Prop} {w : Work} {T : Nat → Tree} {c : Nat} {r r' : Ref}
  {p : List (Fin ALLOC_FANOUT)} {kids kids' : Fin ALLOC_FANOUT → Tree} {i : Fin ALLOC_FANOUT}

theorem kidRef (h : A.Held stale w T none none) (hc : c < A.cells)
    (at_path : (T c).sub p = some (.refined r kids))
    (child : kids i = .refined r' kids') :
    recState (recAt (w.view (A.blk r.1)) r.2) i = CELL_REFINED ∧
    recRef (recAt (w.view (A.blk r.1)) r.2) i = r' := by
  have models := (h.models c hc (fun h => by cases h)).sub at_path i
  rw [child] at models
  exact cellMark_eq_refined.mp models.1

theorem freeWrite (h : A.Held stale w T none none) (hc : c < A.cells)
    (at_path : (T c).sub p = some (.refined r kids))
    (was : kids i = .leaf .full) :
    A.Held stale (w.put (A.blk r.1) (tblSeal w.blocksize (copyAt (w.view (A.blk r.1)) (recOff r.2)
      REC_SIZE (recStateSet (recAt (w.view (A.blk r.1)) r.2) i CELL_FREE))))
      (setAt T c p (.refined r (Function.update kids i (.leaf .free)))) none none := by
  have live := h.live r (known_of_tree hc (refCount_sub_pos at_path))
  have rewritten := rewritten_recWrite (A := A) (v := w.view)
      (recStateSet (recAt (w.view (A.blk r.1)) r.2) i CELL_FREE)
    h.on.blocksize live.recIn live.used.1
  rw [← Work.view_put] at rewritten
  refine h.rewrite ((Work.Kin.refl w).put _ _) hc at_path rewritten (fun r₀ => ?_) fun j => ?_
  · rw [Work.view_put]
    exact used_recWrite _ h.on.blocksize r r₀
  · rw [recMark_stateSet _ _ _ (by decide)]
    by_cases same : i = j
    · subst same
      right
      rw [if_pos rfl, Function.update_self]
      exact ⟨.full, .free, was, rfl, (fun h => by cases h), rfl⟩
    · left
      rw [if_neg same, Function.update_of_ne (Ne.symm same)]
      exact ⟨rfl, rfl⟩

theorem dropWrite (h : A.Held stale w T none none) (hc : c < A.cells)
    (at_path : (T c).sub p = some (.refined r kids))
    (was : kids i = .refined r' kids') (bare : ∀ j, ∃ s, kids' j = .leaf s) :
    ∃ w₁ w₂, Work.tblFreeRec A.num r' w = (.ok (), w₁) ∧
      Work.recWrite A.num r (recRefSet (recStateSet (recAt (w.view (A.blk r.1)) r.2) i CELL_FREE) i
      (0, 0)) w₁ =
        (.ok (), w₂) ∧
      A.Held stale w₂ (setAt T c p (.refined r (Function.update kids i (.leaf .free)))) none none ∧
          w.Kin w₂ ∧
      w₂.fs.sb = w.fs.sb ∧ ∀ b, b ≠ A.blk r.1 → b ≠ A.blk r'.1 → w₂.view b = w.view b := by
  have large := h.on.blocksize
  have child : (T c).sub (p ++ [i]) = some (.refined r' kids') := by
    rw [Cell.sub_append at_path, Cell.sub_refined, was, Cell.sub_nil]
  have known : A.Known T none r := known_of_tree hc (refCount_sub_pos at_path)
  have known' : A.Known T none r' := known_of_tree hc (refCount_sub_pos child)
  have live := h.live r known
  have live' := h.live r' known'
  -- first the record of the child
  have freed := rewritten_freeRec (A := A) (v := w.view) large live'.recIn live'.used.1
  have used := used_freeRec (A := A) (v := w.view) large r'
  rw [← Work.view_put] at freed used
  have ran := Work.tblFreeRec_run (h.mapped known') live'.sound live'.recIn live'.bit
  generalize put : w.put (A.blk r'.1) (freedBlock w.blocksize (w.view (A.blk r'.1)) r'.2) =
      w₁ at freed used
  have kin : w.Kin w₁ := put ▸ (Work.Kin.refl w).put _ _
  rw [← freedBlock, put] at ran
  -- then the record that it was a child of
  have magic := (freed.magic r.1).mpr live.used.1
  have inside : RecIn w₁.blocksize r.2 := kin.blocksize.symm ▸ live.recIn
  have written := rewritten_recWrite (A := A) (v := w₁.view)
    (recRefSet (recStateSet (recAt (w.view (A.blk r.1)) r.2) i CELL_FREE) i (0, 0))
    (kin.blocksize.symm ▸ large) inside magic
  have used' := used_recWrite (A := A) (v := w₁.view)
    (recRefSet (recStateSet (recAt (w.view (A.blk r.1)) r.2) i CELL_FREE) i (0, 0))
    (kin.blocksize.symm ▸ large) r
  rw [← Work.view_put] at written used'
  have ran' := Work.recWrite_run (w := w₁) (recRefSet
      (recStateSet (recAt (w.view (A.blk r.1)) r.2) i CELL_FREE) i (0, 0))
    (kin.mapped (h.mapped known)) (kin.blocksize.symm ▸ freed.sound r.1 live.sound) inside
  have kin' := kin.put (A.blk r.1) (tblSeal w₁.blocksize
      (copyAt (w₁.view (A.blk r.1)) (recOff r.2) REC_SIZE
    (recRefSet (recStateSet (recAt (w.view (A.blk r.1)) r.2) i CELL_FREE) i (0, 0))))
  refine ⟨w₁, _, ran, ran', ?_, kin', by rw [← put]; rfl, fun b here there => ?_⟩
  · refine h.unlink kin' hc at_path was (fun r₀ j => ?_) (s := .free) (fun h => by cases h)
        (fun c' hc' => ?_) (fun j => ?_)
      (fun r₀ other other' inside₀ => ?_) (fun r₀ => ?_) (fun l ok => ?_) fun l => ?_
    · obtain ⟨s, leaf⟩ := bare j
      rw [leaf, refCount_leaf]
    · rw [written.root live.ne_root hc', freed.root live'.ne_root hc']
    · rw [written.here, recMark_set _ _ _ (by decide) (by decide) (by decide)]
      rfl
    · rw [written.kid r₀ other (kin.blocksize.symm ▸ inside₀), freed.kid r₀ other' inside₀]
    · rw [used', used]
    · exact kin.blocksize ▸ written.sound l (kin.blocksize.symm ▸ freed.sound l ok)
    · rw [written.magic, freed.magic]
  · rw [written.frame b here, freed.frame b there]

theorem dropRoot (h : A.Held stale w T none none) {hdr : AgHeader} (of : A.Of hdr)
    (hc : c < A.cells)
    (was : T c = .refined r kids) (bare : ∀ j, ∃ s, kids j = .leaf s) :
    ∃ w₁ w₂ w₃, Work.tblFreeRec A.num r w = (.ok (), w₁) ∧
      Work.rtStateSet hdr c CELL_FREE w₁ = (.ok (), w₂) ∧
      Work.rtRefSet hdr c (0, 0) w₂ = (.ok (), w₃) ∧
      A.Held stale w₃ (Function.update T c (.leaf .free)) none none ∧
      Moved A w w₃ hdr hdr T (Function.update T c (.leaf .free)) := by
  have large := h.on.blocksize
  have known : A.Known T none r := known_of_tree hc (was ▸ refCount_self r kids)
  have live := h.live r known
  have freed := rewritten_freeRec (A := A) (v := w.view) large live.recIn live.used.1
  have used := used_freeRec (A := A) (v := w.view) large r
  rw [← Work.view_put] at freed used
  have ran := Work.tblFreeRec_run (h.mapped known) live.sound live.recIn live.bit
  generalize put : w.put (A.blk r.1) (freedBlock w.blocksize (w.view (A.blk r.1)) r.2) = w₁
    at freed used
  have kin : w.Kin w₁ := put ▸ (Work.Kin.refl w).put _ _
  have sb : w₁.fs.sb = w.fs.sb := by rw [← put]; rfl
  rw [← freedBlock, put] at ran
  obtain ⟨w₂, ran', state⟩ := Work.rtStateSet_run (h.on.kin kin) of hc CELL_FREE
  obtain ⟨w₃, ran'', ref⟩ := Work.rtRefSet_run (h.on.kin (kin.trans state.kin)) of hc (0, 0)
  have kin' := (kin.trans state.kin).trans ref.kin
  have other : ∀ l, ¬ A.Root l → w₃.view (A.blk l) = w₁.view (A.blk l) :=
    fun l apart => (ref.view apart).trans (state.view apart)
  have grows : ∀ c', T c' = .leaf .rsvd → Function.update T c (.leaf .free) c' = .leaf .rsvd :=
    rsvd_grows (by rw [was]; exact fun h => by cases h) (fun h => by cases h)
  refine ⟨w₁, w₂, w₃, ran, ran', ran'', ?_, .write kin' (by rw [ref.sb, state.sb, sb]) hdr
      (fun b root arena => ?_) grows⟩
  · refine h.unlinkRoot kin' hc was (fun r₀ j => ?_) (fun c' hc' => ?_)
        (fun r₀ apart root inside => ?_) (fun r₀ root => ?_)
      (fun l root ok => ?_) fun l root => ?_
    · obtain ⟨s, leaf⟩ := bare j
      rw [leaf, refCount_leaf]
    · rw [rootMark_refSet ref hc' (by decide) (by decide),
          rootMark_stateSet state hc hc' (by decide),
        rootState_stateSet state hc (by decide), if_pos rfl, freed.root live.ne_root hc']
      split <;> rfl
    · rw [kidMark_frame (other r₀.1 root), freed.kid r₀ apart inside]
    · rw [used_frame (other r₀.1 root), used]
    · rw [other l root]
      exact freed.sound l ok
    · rw [Magic, other l root, ← Magic, freed.magic]
  · rw [ref.frame b root, state.frame b root]
    refine freed.frame b (arena r.1 ⟨live.arena.1, grows _ live.arena.2.1, live.arena.2.2⟩)

end Ag.Held

namespace Work

variable [Crc32c] {A : Ag} {stale : Nat → Prop} {w : Work} {T : Nat → Tree} {hdr : AgHeader}
    {c l : Nat} {r r' : Ref}
  {kids kids' : Fin ALLOC_FANOUT → Tree}

/-- What a call that frees a granule at `l` ends with, the tree `x` in place of the cell. -/
def Freed (A : Ag) (stale : Nat → Prop) (w : Work) (hdr : AgHeader) (T : Nat → Tree) (c d : Nat)
    (x : Tree)
    (res : Nat × AgHeader) (w' : Work) : Prop :=
  res.1 = granule d ∧ res.2.fullBlocks + granule d = hdr.fullBlocks ∧
    A.Ready stale w' res.2 (Function.update T c x) none none ∧
    Moved A w w' hdr res.2 T (Function.update T c x)

omit [Crc32c] in
theorem recAll_states {data : Bytes} (states : ∀ j : Fin ALLOC_FANOUT,
    States (recState data j) (recRef data j) (kids j)) :
    recAll data CELL_FREE = true ↔ ∀ j, kids j = .leaf .free := by
  rw [recAll_iff]
  refine forall_congr' fun j => ?_
  rw [recMark, cellMark_eq_free, (states j).free]

omit [Crc32c] in
theorem states_stateSet {data : Bytes} (states : ∀ j : Fin ALLOC_FANOUT,
    States (recState data j) (recRef data j) (kids j))
    (i j : Fin ALLOC_FANOUT) : States (recState (recStateSet data i CELL_FREE) j)
    (recRef (recStateSet data i CELL_FREE) j)
      (Function.update kids i (.leaf .free) j) := by
  rw [recState_stateSet _ _ _ (by decide), recRef_stateSet _ _ _ i.isLt]
  by_cases same : i = j
  · subst same
    rw [if_pos rfl, Function.update_self]
    exact ⟨by simp, by simp [CELL_FREE, CELL_FULL], by simp [CELL_FREE, CELL_REFINED]⟩
  · rw [if_neg fun equal => same (Fin.ext equal), Function.update_of_ne (Ne.symm same)]
    exact states j

theorem freeWhole_wp (ready : A.Ready stale w hdr T none none) (hc : c < A.cells)
    (was : T c = .refined r kids)
    (aligned : l % ALLOC_FANOUT = 0) (full : kids (childOf l) = .leaf .full) :
    wp (freeChild A.num hdr r l) (Freed A stale w hdr T c 1
    (.refined r (Function.update kids (childOf l) (.leaf .free))))
      (fun _ _ => False) w := by
  have at_root : (T c).sub [] = some (.refined r kids) := by rw [Cell.sub_nil, was]
  have known : A.Known T none r := Ag.known_of_tree hc (was ▸ refCount_self r kids)
  have states := ready.held.kid hc (fun h => by cases h) at_root
  have apart : T c ≠ .leaf .rsvd := by rw [was]; exact fun h => by cases h
  have path : (T c).sub [childOf l] = some (.leaf .full) := by
    rw [was, Cell.sub_refined, full, Cell.sub_nil]
  have released : (T c).release .free [childOf l] =
      Cell.coarsen .free r (Function.update kids (childOf l) (.leaf .free)) := by
    rw [was, Cell.release_refined, Cell.release_nil]
  obtain ⟨enough, tally⟩ := ready.tally.freed (x := .refined r
      (Function.update kids (childOf l) (.leaf .free))) hc path
    (Nat.le_succ 1)
    (fun w balanced => by rw [released, Cell.weigh_coarsen (balanced 0 r (by decide))]) apart
    (fun h => by cases h)
  have size : granule [childOf l].length = ALLOC_FANOUT := rfl
  rw [size] at enough tally
  have inSb := Nat.le_trans enough ready.covered.full
  have grows := rsvd_grows (x := .refined r (Function.update kids (childOf l) (.leaf .free))) apart
      (fun h => by cases h)
  have node : A.Known (Function.update T c (.refined r
      (Function.update kids (childOf l) (.leaf .free)))) none r :=
    Ag.known_of_tree hc (by rw [Function.update_self]; exact refCount_self r _)
  have index : l % CELL_BLOCKS / ALLOC_FANOUT = (childOf l).val := rfl
  rw [freeChild, wp_bind, wp_run (ready.held.recRead_run known)]
  dsimp only
  rw [index]
  generalize childOf l = i at *
  have held := ready.held.freeWrite hc at_root full
  rw [setAt_nil] at held
  rw [if_pos ((states i).full.mpr full), if_neg (not_not_intro aligned), wp_bind,
    wp_run (ready.held.recWrite_run known _)]
  have arena := (held.live r node).arena
  have written := Moved.putArena (T := T) w hdr
      (tblSeal w.blocksize (copyAt (w.view (A.blk r.1)) (recOff r.2) REC_SIZE
    (recStateSet (recAt (w.view (A.blk r.1)) r.2) i CELL_FREE))) arena grows
  generalize w.put _ _ = w₁ at held written ⊢
  have inSb₁ : ALLOC_FANOUT ≤ w₁.fs.sb.fullBlocks :=
      Nat.le_trans enough (written.covered ready.covered).full
  have counted := Moved.accountFree (A := A) w₁ hdr
    (Function.update T c (.refined r (Function.update kids i (.leaf .free)))) enough inSb₁
  have moved := written.trans counted
  rw [wp_bind, wp_run (accountFree_run enough inSb₁), wp_pure]
  exact ⟨rfl, Nat.sub_add_cancel enough, ⟨held.same counted.kin rfl, tally,
      moved.covered ready.covered⟩, moved⟩

/-- A block of an L1 cell is freed, and the record of the cell goes with the last one. -/
theorem freeBlock_wp {r' : Ref} {kids' : Fin ALLOC_FANOUT → Tree}
    (ready : A.Ready stale w hdr T none none) (hc : c < A.cells)
    (was : T c = .refined r kids) (child : kids (childOf l) = .refined r' kids')
    (full : kids' (blockOfChild l) = .leaf .full) :
    wp (freeChild A.num hdr r l) (Freed A stale w hdr T c 2
    (.refined r (Function.update kids (childOf l)
      (Cell.coarsen .free r' (Function.update kids' (blockOfChild l) (.leaf .free))))))
      (fun _ _ => False) w := by
  have at_root : (T c).sub [] = some (.refined r kids) := by rw [Cell.sub_nil, was]
  have known : A.Known T none r := Ag.known_of_tree hc (was ▸ refCount_self r kids)
  have apart : T c ≠ .leaf .rsvd := by rw [was]; exact fun h => by cases h
  have path : (T c).sub [childOf l, blockOfChild l] = some (.leaf .full) := by
    rw [was, Cell.sub_refined, child, Cell.sub_refined, full, Cell.sub_nil]
  have released : (T c).release .free [childOf l, blockOfChild l] = Cell.coarsen .free r
      (Function.update kids (childOf l)
      (Cell.coarsen .free r' (Function.update kids' (blockOfChild l) (.leaf .free)))) := by
    rw [was, Cell.release_refined, child, Cell.release_refined, Cell.release_nil]
  obtain ⟨enough, tally⟩ := ready.tally.freed (x := .refined r (Function.update kids (childOf l)
      (Cell.coarsen .free r' (Function.update kids' (blockOfChild l) (.leaf .free))))) hc path
      (Nat.le_refl 2)
    (fun w balanced => by rw [released, Cell.weigh_coarsen (balanced 0 r (by decide))]) apart
        (fun h => by cases h)
  have one : granule [childOf l, blockOfChild l].length = 1 := rfl
  rw [one] at enough tally
  have inSb := Nat.le_trans enough ready.covered.full
  have grows := rsvd_grows (x := .refined r (Function.update kids (childOf l)
    (Cell.coarsen .free r' (Function.update kids' (blockOfChild l) (.leaf .free))))) apart
    (fun h => by cases h)
  have index : l % CELL_BLOCKS / ALLOC_FANOUT = (childOf l).val := rfl
  have index' : l % ALLOC_FANOUT = (blockOfChild l).val := rfl
  rw [freeChild, wp_bind, wp_run (ready.held.recRead_run known)]
  dsimp only
  rw [index, index']
  generalize childOf l = i at *
  generalize blockOfChild l = j at *
  have at_child : (T c).sub [i] = some (.refined r' kids') := by
    rw [was, Cell.sub_refined, child, Cell.sub_nil]
  have known' : A.Known T none r' := Ag.known_of_tree hc (refCount_sub_pos at_child)
  have states' := ready.held.kid hc (fun h => by cases h) at_child
  obtain ⟨state, ref⟩ := ready.held.kidRef hc at_root child
  have counted := Moved.accountFree (A := A) w hdr T enough inSb
  have covered := counted.covered ready.covered
  rw [state, if_neg (by decide), if_pos rfl, ref, wp_bind, wp_run (ready.held.recRead_run known')]
  rw [if_neg (not_not_intro ((states' j).full.mpr full)), wp_bind,
      wp_run (accountFree_run enough inSb)]
  have held := ready.held.same counted.kin rfl
  have all := recAll_states (states_stateSet states' j)
  have view := view_recount w (w.fs.sb.freeBlocks + 1) w.fs.sb.rsvdBlocks (w.fs.sb.fullBlocks - 1)
  generalize w.recount _ _ _ = w₁ at *
  rw [← view] at all ⊢
  have kept' : ∀ r₀, A.Known T none r₀ → A.Arena
      (Function.update T c (.refined r (Function.update kids i
      (Cell.coarsen .free r' (Function.update kids' j (.leaf .free)))))) r₀.1 := fun r₀ here =>
    ⟨(held.live r₀ here).arena.1, grows _ (held.live r₀ here).arena.2.1,
        (held.live r₀ here).arena.2.2⟩
  rcases Cell.coarsen_cases .free r' (Function.update kids' j (.leaf .free)) with ⟨every,
      gone⟩ | ⟨other, stays⟩
  · obtain ⟨w₂, w₃, ran, ran', held', kin, sb, frame⟩ := held.dropWrite hc at_root child fun q => by
      by_cases here : q = j
      · exact ⟨.full, here ▸ full⟩
      · exact ⟨.free, by simpa [Function.update_of_ne here] using every q⟩
    rw [if_pos (all.mpr every), wp_bind, wp_run ran, wp_bind, wp_run ran', wp_pure]
    rw [gone] at tally grows kept' ⊢
    rw [setAt_nil] at held'
    have written : Moved A w₁ w₃ _ _ T _ := .write kin sb { hdr with
      freeBlocks := hdr.freeBlocks + 1
      fullBlocks := hdr.fullBlocks - 1 } (fun b _ arena =>
      frame b (arena r.1 (kept' r known)) (arena r'.1 (kept' r' known')))
      grows
    have moved := counted.trans written
    exact ⟨rfl, Nat.sub_add_cancel enough, ⟨held', tally, moved.covered ready.covered⟩, moved⟩
  · rw [if_neg fun every => other.elim fun q busy => busy (all.mp every q), wp_bind,
        wp_run (held.recWrite_run known' _), wp_pure]
    rw [stays] at tally grows kept' ⊢
    have held' := held.freeWrite hc at_child full
    have here : (T c).set [i] (.refined r' (Function.update kids' j (.leaf .free))) =
        .refined r (Function.update kids i (.refined r'
        (Function.update kids' j (.leaf .free)))) := by
      rw [was, Cell.set_refined, Cell.set_nil]
    rw [setAt, here] at held'
    have arena : A.Arena (Function.update T c (.refined r (Function.update kids i
        (.refined r' (Function.update kids' j (.leaf .free)))))) r'.1 := kept' r' known'
    have moved := fun data => counted.trans (Moved.putArena w₁ _ data arena grows)
    exact ⟨rfl, Nat.sub_add_cancel enough, ⟨held', tally, (moved _).covered ready.covered⟩, moved _⟩

theorem freeChild_wp (ready : A.Ready stale w hdr T none none) (hc : c < A.cells)
    (was : T c = .refined r kids)
    {p : List (Fin ALLOC_FANOUT)} (place : p = [] ∧ l % ALLOC_FANOUT = 0 ∨ p = [blockOfChild l])
    (leaf : (kids (childOf l)).sub p = some (.leaf .full)) :
    wp (freeChild A.num hdr r l) (Freed A stale w hdr T c (p.length + 1)
      (.refined r (Function.update kids (childOf l) ((kids (childOf l)).release .free p))))
      (fun _ _ => False) w := by
  rcases place with ⟨rfl, aligned⟩ | rfl
  · rw [Cell.release_nil]
    exact freeWhole_wp ready hc was aligned (Option.some.inj ((Cell.sub_nil _).symm.trans leaf))
  · cases child : kids (childOf l) with
    | leaf s =>
        rw [child] at leaf
        cases leaf
    | refined r' kids' =>
        rw [child, Cell.sub_refined, Cell.sub_nil] at leaf
        rw [Cell.release_refined, Cell.release_nil]
        exact freeBlock_wp ready hc was child (Option.some.inj leaf)

/-- One granule is freed: its cell is FREE, and the records above it coarsen. -/
theorem freeGranule_wp (ready : A.Ready stale w hdr T none none) {d : Nat} (depth : d ≤ 2)
    (hc : l / CELL_BLOCKS < A.cells)
    (start : l % granule d = 0) (leaf : (T (l / CELL_BLOCKS)).sub (route l d) = some (.leaf .full))
    (whole : 0 < d → ¬ A.Split (l / CELL_BLOCKS)) :
    wp (freeGranule A.num hdr l) (Freed A stale w hdr T (l / CELL_BLOCKS) d
    ((T (l / CELL_BLOCKS)).release .free (route l d)))
      (fun _ _ => False) w := by
  rw [freeGranule]
  dsimp only
  rw [wp_bind, wp_run (rtState_run ready.held.on ready.tally.of hc)]
  have root := ready.held.root hc (fun h => by cases h)
  cases d with
  | zero =>
      have full : T (l / CELL_BLOCKS) = .leaf .full :=
          Option.some.inj ((Cell.sub_nil _).symm.trans leaf)
      obtain ⟨enough, tally⟩ := ready.tally.freed (x := .leaf .free) hc leaf (Nat.zero_le 2)
        (fun w _ => by rw [route, List.take_zero, Cell.release_nil])
        (by rw [full]; exact fun h => by cases h)
        (fun h => by cases h)
      change l % CELL_BLOCKS = 0 at start
      change CELL_BLOCKS ≤ hdr.fullBlocks at enough
      obtain ⟨w₁, ran, put⟩ := rtStateSet_run ready.held.on ready.tally.of hc CELL_FREE
      have held := ready.held.stateSet hc put full (fun h => by cases h) cellMark_free (by decide)
          (fun h => by cases h)
      have written := Moved.tabled put hdr
        (rsvd_grows (T := T) (c := l / CELL_BLOCKS) (x := .leaf .free)
        (by rw [full]; exact fun h => by cases h) (fun h => by cases h))
      have inSb := Nat.le_trans enough (written.covered ready.covered).full
      have counted := Moved.accountFree (A := A) w₁ hdr
          (Function.update T (l / CELL_BLOCKS) (.leaf .free)) enough inSb
      have moved := written.trans counted
      rw [if_pos (root.full.mpr full), if_neg (not_not_intro start), wp_bind, wp_run ran, wp_bind,
        wp_run (accountFree_run enough inSb), wp_pure, route, List.take_zero, Cell.release_nil]
      exact ⟨rfl, Nat.sub_add_cancel enough, ⟨held.same counted.kin rfl, tally,
          moved.covered ready.covered⟩, moved⟩
  | succ d =>
      have open' : ∃ r kids, T (l / CELL_BLOCKS) = .refined r kids ∧
          (kids (childOf l)).sub ([blockOfChild l].take d) =
          some (.leaf .full) := by
        cases cell : T (l / CELL_BLOCKS) with
        | leaf s =>
            rw [cell] at leaf
            cases leaf
        | refined r kids => exact ⟨r, kids, rfl, by rwa [cell] at leaf⟩
      obtain ⟨r, kids, was, below⟩ := open'
      obtain ⟨state, ref⟩ := cellMark_eq_refined.mp
          (was ▸ ready.held.models _ hc (fun h => by cases h) :
        Models (A.kidMark w.view) (A.rootMark w.view (l / CELL_BLOCKS)) (.refined r kids)).1
      have place : [blockOfChild l].take d = [] ∧ l % ALLOC_FANOUT = 0 ∨
          [blockOfChild l].take d = [blockOfChild l] := by
        have cases : d = 0 ∨ d = 1 := by omega
        rcases cases with rfl | rfl
        · exact Or.inl ⟨rfl, start⟩
        · exact Or.inr rfl
      have size : ([blockOfChild l].take d).length = d := by
        rw [List.length_take, List.length_singleton]
        omega
      have gone : (T (l / CELL_BLOCKS)).release .free (route l (d + 1)) = Cell.coarsen .free r
          (Function.update kids (childOf l) ((kids (childOf l)).release .free
          ([blockOfChild l].take d))) := by
        rw [was, route, List.take_succ_cons, Cell.release_refined]
      rw [state, if_neg (by decide), if_pos rfl, wp_bind]
      refine rtRef_wp ready.held.on ready.tally.of hc (fun _ => ?_) fun split =>
          absurd split (whole (Nat.succ_pos d))
      rw [ref, wp_bind, gone]
      refine wp_mono (freeChild_wp ready hc was place below) ?_ fun _ _ => id
      rintro ⟨freed, hdr₁⟩ w₁ ⟨rfl, counts, ready₁, moved₁⟩
      dsimp only at counts ready₁ moved₁ ⊢
      rw [size] at counts ⊢
      generalize Function.update kids (childOf l) _ = kids₁ at *
      have node : Function.update T (l / CELL_BLOCKS) (.refined r kids₁)
          (l / CELL_BLOCKS) = .refined r kids₁ :=
        Function.update_self ..
      have known : A.Known (Function.update T (l / CELL_BLOCKS) (.refined r kids₁)) none r :=
        Ag.known_of_tree hc (by rw [node]; exact refCount_self r kids₁)
      have at_root : (Function.update T (l / CELL_BLOCKS) (.refined r kids₁) (l / CELL_BLOCKS)).sub
          [] =
          some (.refined r kids₁) := by rw [Cell.sub_nil, node]
      have all := recAll_states (ready₁.held.kid hc (fun h => by cases h) at_root)
      rw [wp_bind, wp_run (ready₁.held.recRead_run known)]
      rcases Cell.coarsen_cases .free r kids₁ with ⟨every, gone⟩ | ⟨other, stays⟩
      · obtain ⟨w₂, w₃, w₄, ran, ran', ran'', held, moved⟩ :=
            ready₁.held.dropRoot ready₁.tally.of hc node
          fun j => ⟨.free, every j⟩
        have tally := ready₁.tally.coarsen hc node
        rw [Function.update_idem] at held moved tally
        rw [if_pos (all.mpr every), wp_bind, wp_run ran, wp_bind, wp_run ran', wp_bind,
            wp_run ran'', wp_pure, gone]
        rw [gone] at tally
        exact ⟨rfl, counts, ⟨held, tally, moved.covered ready₁.covered⟩, moved₁.trans moved⟩
      · rw [if_neg fun every => other.elim fun j busy => busy (all.mp every j), wp_pure, stays]
        exact ⟨rfl, counts, ready₁, moved₁⟩

/-- The granules of depth `d` that `n` blocks are rounded up to. -/
def wholes (d n : Nat) : Nat := (n + granule d - 1) / granule d * granule d

omit [Crc32c] in
theorem granule_pos {d : Nat} (depth : d ≤ 2) : 0 < granule d := by
  have cases : d = 0 ∨ d = 1 ∨ d = 2 := by omega
  rcases cases with rfl | rfl | rfl <;> decide

omit [Crc32c] in
theorem wholes_step {d m n : Nat} (depth : d ≤ 2) (whole : m % granule d = 0) :
    (m < n → m + granule d ≤ wholes d n) ∧ (n ≤ m → wholes d n ≤ m) := by
  have some := granule_pos depth
  obtain ⟨q, rfl⟩ := Nat.dvd_of_mod_eq_zero whole
  rw [wholes, Nat.mul_comm (granule d) q]
  constructor
  · intro more
    rw [← Nat.succ_mul]
    exact Nat.mul_le_mul_right _ ((Nat.le_div_iff_mul_le some).mpr (by rw [Nat.succ_mul]; omega))
  · intro done
    refine Nat.mul_le_mul_right _ (Nat.le_of_lt_succ ((Nat.div_lt_iff_lt_mul some).mpr ?_))
    rw [Nat.succ_mul]
    omega

theorem freeLoop_wp {d n : Nat} (depth : d ≤ 2) (start : l % granule d = 0)
    (inside : l + wholes d n ≤ A.length)
    (whole : 0 < d → ∀ c < A.cells, ¬ A.Split c) :
    ∀ fuel {w : Work} {T : Nat → Tree} {hdr : AgHeader} {cur : Nat}, A.Ready stale w hdr T none
    none → n - cur ≤ fuel →
      cur % granule d = 0 → cur ≤ wholes d n → (∀ b s, l + cur ≤ b → b < l + wholes d n →
      spot T b s = some (.full, d)) →
      wp (freeLoop A.num l n fuel cur hdr) (fun hdr' w' => ∃ T',
      A.Ready stale w' hdr' T' none none ∧
        Moved A w w' hdr hdr' T T' ∧ Returned T T' (l + cur) (wholes d n - cur) ∧
        (A.Tidied T → A.Tidied T') ∧
        hdr'.fullBlocks + (wholes d n - cur) = hdr.fullBlocks)
        (fun _ _ => False) w := by
  have some := granule_pos depth
  intro fuel
  induction fuel with
  | zero =>
      intro w T hdr cur ready enough aligned reach full
      have done := (wholes_step depth aligned).2 (show n ≤ cur by omega)
      refine ⟨T, ready, .refl A w hdr T, ⟨fun b s low high => ?_, fun b s _ => Or.inl rfl⟩,
          id, by omega⟩
      omega
  | succ fuel ih =>
      intro w T hdr cur ready enough aligned reach full
      rw [freeLoop]
      by_cases more : cur < n
      · have room := (wholes_step depth aligned).1 more
        have place : (l + cur) % granule d = 0 := by rw [Nat.add_mod, start, aligned, Nat.zero_mod]
        have hc : (l + cur) / CELL_BLOCKS < A.cells := A.lt_cells (by omega)
        have leaf := leaf_of_spot depth (full (l + cur) 0 (Nat.le_refl _) (by omega))
        rw [if_pos more, wp_bind]
        refine wp_mono (freeGranule_wp ready depth hc place leaf fun deep => whole deep _ hc) ?_
            fun _ _ => id
        rintro ⟨freed, hdr₁⟩ w₁ ⟨rfl, counts, ready₁, moved₁⟩
        have back := returned_release depth place leaf
        dsimp only at counts ready₁ moved₁ ⊢
        refine wp_mono (ih ready₁ (by omega) (by rw [Nat.add_mod_right, aligned]) room
            fun b s low high => ?_) ?_ fun _ _ => id
        · exact (back.others b s (by omega)).full (full b s (by omega) high)
        · rintro hdr' w' ⟨T', ready', moved', back', tidy, counts'⟩
          rw [← Nat.add_assoc] at back'
          have all := back.append back'
          rw [show granule d + (wholes d n - (cur + granule d)) = wholes d n - cur by omega] at all
          refine ⟨T', ready', moved₁.trans moved', all,
              fun before => tidy fun c hc' => ?_, by omega⟩
          by_cases same : c = (l + cur) / CELL_BLOCKS
          · subst same
            rw [Function.update_self]
            exact tidy_release (before _ hc) leaf
          · rw [Function.update_of_ne same]
            exact before c hc'
      · have done := (wholes_step depth aligned).2 (Nat.not_lt.mp more)
        rw [if_neg more, wp_pure]
        refine ⟨T, ready, .refl A w hdr T, ⟨fun b s low high => ?_, fun b s _ => Or.inl rfl⟩,
            id, by omega⟩
        omega

/-- A successful `free_extent(n)` of a run at `l` in granules of depth `d`. -/
structure GaveBack (A : Ag) (stale : Nat → Prop) (w : Work) (hdr : AgHeader) (T : Nat → Tree)
    (l d n : Nat) (w' : Work)
    (hdr' : AgHeader) (T' : Nat → Tree) : Prop where
  sound : A.Sound stale w' hdr' T'
  ran : Ran A w w' hdr hdr' T T' fun _ => False
  returned : Returned T T' l (wholes d n)
  tidy : A.Tidied T → A.Tidied T'
  full : hdr'.fullBlocks + wholes d n = hdr.fullBlocks

theorem freeExtent_wp (sound : A.Sound stale w hdr T) {d n : Nat} (depth : d ≤ 2)
    (start : l % granule d = 0)
    (inside : l + wholes d n ≤ A.length) (whole : 0 < d → ∀ c < A.cells, ¬ A.Split c)
    (some_block : l < A.length)
    (full : ∀ b s, l ≤ b → b < l + wholes d n → spot T b s = some (.full, d)) :
    wp (freeExtent (A.blk l) n) (fun _ w' => ∃ hdr' T', GaveBack A stale w hdr T l d n w' hdr' T')
    (fun _ _ => False) w := by
  have fits := sound.fits
  rw [freeExtent, Ag.blk, blkSplit_blkAddr _ (Nat.lt_trans some_block A.length_lt)]
  dsimp only
  rw [wp_bind, wp_run sound.read, wp_bind]
  refine wp_mono (freeLoop_wp depth start inside whole n sound.ready (Nat.sub_le n 0)
      (Nat.zero_mod _) (Nat.zero_le _)
    fun b s low high => full b s low high) ?_ fun _ _ => id
  rintro hdr' w' ⟨T', ready, moved, back, tidy, counts⟩
  have fixed := moved.fixed
  have fits' := ready.fits (by rw [fixed]; exact fits.gen) (by rw [fixed]; exact fits.inoHint)
      (by rw [fixed]; exact fits.dataHint)
  obtain ⟨w'', written, sound', ran⟩ := ready.put fits'
  show wp (putAgHeader hdr') _ _ w'
  rw [wp_run written]
  exact ⟨_, T', sound', (moved.ran.trans ran).mono fun l both => both.elim id id, back, tidy,
      counts⟩

end Work

end FiveFs
