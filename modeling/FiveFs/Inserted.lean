import FiveFs.Ensured

/-! `insert_run`: blocks that the file has already are recorded in a tree. -/

namespace FiveFs

open Buffer Prog Radix

/-- A run at `blk` for the `len` file blocks from `f` on. -/
def Pairs (f blk len f' b : Nat) : Prop := f ≤ f' ∧ f' < f + len ∧ b = blk + (f' - f)

theorem pairs_split {f blk len m f' b : Nat} (inside : m ≤ len) :
    Pairs f blk len f' b ↔ Pairs f blk m f' b ∨ Pairs (f + m) (blk + m) (len - m) f' b := by
  simp only [Pairs]
  omega

/-- The allocator keeps the blocks of `extra` besides. -/
def Besides (Held : Work → (Nat → Prop) → Prop) (extra : Nat → Prop) (w : Work)
    (taken : Nat → Prop) : Prop :=
  Held w fun b => taken b ∨ extra b

/-- The run's blocks are kept besides, for file blocks that are not mapped. -/
structure Spare (extra taken : Nat → Prop) (M : Nat → Nat → Prop) (f blk len : Nat) : Prop where
  fits : RunFits len blk
  free : ∀ b, blk ≤ b → b < blk + len → extra b ∧ ¬ taken b
  hole : ∀ f' b, f ≤ f' → f' < f + len → ¬ M f' b

theorem Spare.part {extra taken : Nat → Prop} {M : Nat → Nat → Prop} {f blk len o m : Nat}
    (spare : Spare extra taken M f blk len)
    (inside : o + m ≤ len) : Spare extra taken M (f + o) (blk + o) m :=
  ⟨spare.fits.part inside, fun b low high => spare.free b (by omega) (by omega),
    fun f' b low high => spare.hole f' b (by omega) (by omega)⟩

section Inserts

variable [Crc32c] {Held : Work → (Nat → Prop) → Prop} {A : Allocator} {Refuses : Err → Work → Prop}
    {extra : Nat → Prop}

theorem Grants.besides (grants : Grants A Refuses Held) (extra : Nat → Prop) :
    Grants A Refuses (Besides Held extra) where
  large held := grants.large held
  mono held less := grants.mono held fun b => Or.imp_left (less b)
  write held here magic := (grants.write held (Or.inl here) magic).imp id fun kept b inside =>
      kept b (Or.inl inside)
  alloc held some := by
    refine wp_mono (grants.alloc held some) ?_ ?_
    · rintro a w' ⟨fits, free, held', same, single⟩
      exact ⟨fits, fun b low high inside => free b low high (Or.inl inside),
        grants.mono held' fun b either => (or_right_comm.mp either).imp id id,
        same.mono fun b => Or.inl, single⟩
    · rintro e w' ⟨refuses, keeps⟩
      exact ⟨refuses, fun bails => (keeps bails).imp id fun same => same.mono fun b => Or.inl⟩

theorem besides_guard (grants : Grants A Refuses Held) {w : Work} {taken : Nat → Prop}
    (held : Besides Held extra w taken) : Besides Held extra w fun b => taken b ∨ extra b :=
  grants.mono held fun _ => Or.rec id Or.inr

/-- What recording a run in `kids` leaves: of the blocks kept besides, only the run's are used. -/
def Inserts (Held : Work → (Nat → Prop) → Prop) (extra taken : Nat → Prop) (w : Work)
    (parent : RootOrNode) (n l s : Nat)
    (kids : Nat → Cover) (f blk len : Nat) (out : RootOrNode) (w' : Work) : Prop :=
  ∃ kids', Changed (Besides Held extra) extra taken w parent n l s kids (Pairs f blk len) w' out
      kids' ∧
    ∀ b, extra b → ¬ taken b → 0 < uses NODE_FANOUT n kids' b → blk ≤ b ∧ b < blk + len

/-- One child at a time. -/
def InsertsChild (Held : Work → (Nat → Prop) → Prop) (Refuses : Err → Work → Prop)
    (extra : Nat → Prop) (n l s : Nat)
    (child : RootOrNode → Nat → Nat → Nat → Nat → Nat → Prog Work RootOrNode) : Prop :=
  ∀ {w : Work} {taken : Nat → Prop} {parent : RootOrNode} {kids : Nat → Cover} {i f blk len : Nat},
    Grove (Besides Held extra) taken w parent n l kids →
    Spare extra taken (Maps NODE_FANOUT n kids l s) f blk len → i < n →
    s + i * NODE_FANOUT ^ l ≤ f → 0 < len → f + len ≤ s + i * NODE_FANOUT ^ l + NODE_FANOUT ^ l →
    wp (child parent i (s + i * NODE_FANOUT ^ l) f blk len)
    (Inserts Held extra taken w parent n l s kids f blk len)
      Refuses w

theorem Spare.rest {taken : Nat → Prop} {w w' : Work} {parent parent' : RootOrNode}
    {n l s f blk len m : Nat}
    {kids kids' : Nat → Cover} (spare : Spare extra taken (Maps NODE_FANOUT n kids l s) f blk len)
    (inside : m ≤ len)
    (changed : Changed (Besides Held extra) extra taken w parent n l s kids (Pairs f blk m) w'
    parent' kids')
    (only : ∀ b, extra b → ¬ taken b → 0 < uses NODE_FANOUT n kids' b → blk ≤ b ∧ b < blk + m) :
    Spare extra (fun b => taken b ∨ 0 < uses NODE_FANOUT n kids' b) (Maps NODE_FANOUT n kids' l s)
    (f + m) (blk + m)
      (len - m) := by
  refine ⟨spare.fits.part (by omega), fun b low high => ?_, fun f' b low high maps => ?_⟩
  · obtain ⟨kept, free⟩ := spare.free b (by omega) (by omega)
    refine ⟨kept, not_or.mpr ⟨free, fun used => ?_⟩⟩
    obtain ⟨_, stop⟩ := only b kept free used
    omega
  · rcases (changed.adds.maps f' b).mp maps with old | new
    · exact spare.hole f' b (by omega) (by omega) old
    · obtain ⟨_, stop, _⟩ := new
      omega

theorem inserts_trans (grants : Grants A Refuses Held) {taken : Nat → Prop} {w w₁ w₂ : Work}
    {parent parent₁ parent₂ : RootOrNode} {n l s f blk len m : Nat} {kids kids₁ : Nat → Cover}
    (inside : m ≤ len)
    (grove : Grove (Besides Held extra) taken w parent n l kids)
    (changed : Changed (Besides Held extra) extra taken w parent n l s kids (Pairs f blk m) w₁
    parent₁ kids₁)
    (only : ∀ b, extra b → ¬ taken b → 0 < uses NODE_FANOUT n kids₁ b → blk ≤ b ∧ b < blk + m)
    (later : Inserts Held extra (fun b => taken b ∨ 0 < uses NODE_FANOUT n kids₁ b) w₁ parent₁ n l s
    kids₁ (f + m) (blk + m)
      (len - m) parent₂ w₂) : Inserts Held extra taken w parent n l s kids f blk len parent₂
      w₂ := by
  obtain ⟨kids₂, changed', only'⟩ := later
  refine ⟨kids₂, (changed.trans (grants.besides extra) grove changed').congr fun f' b =>
      pairs_split inside, ?_⟩
  intro b kept free used
  by_cases before : 0 < uses NODE_FANOUT n kids₁ b
  · obtain ⟨low, high⟩ := only b kept free before
    exact ⟨low, by omega⟩
  · obtain ⟨low, high⟩ := only' b kept (not_or.mpr ⟨free, before⟩) used
    omega

theorem insertLoop_wp (grants : Grants A Refuses Held) {n l s fblock blk len : Nat}
    {child : RootOrNode → Nat → Nat → Nat → Nat → Nat → Prog Work RootOrNode}
    (step : InsertsChild Held Refuses extra n l s child) (start : s ≤ fblock)
    (inside : fblock + len ≤ s + n * NODE_FANOUT ^ l) :
    ∀ fuel {pos w taken parent kids}, len - pos ≤ fuel → pos ≤ len →
    Grove (Besides Held extra) taken w parent n l kids →
      Spare extra taken (Maps NODE_FANOUT n kids l s) (fblock + pos) (blk + pos) (len - pos) →
      wp (Allocator.insertLoop child s (NODE_FANOUT ^ l) fblock blk len fuel pos parent)
        (Inserts Held extra taken w parent n l s kids (fblock + pos) (blk + pos) (len - pos))
        Refuses w := by
  have finished : ∀ {pos w taken parent kids}, pos = len →
      Grove (Besides Held extra) taken w parent n l kids →
      Inserts Held extra taken w parent n l s kids (fblock + pos) (blk + pos) (len - pos) parent
      w := by
    rintro pos w taken parent kids rfl grove
    refine ⟨kids, (Changed.refl (grants.besides extra) grove s).congr fun f b => ?_,
        fun b _ free used => ?_⟩
    · simp only [Pairs, iff_false]
      omega
    · exact absurd (grove.owned b used) free
  intro fuel
  induction fuel with
  | zero =>
      intro pos w taken parent kids enough high grove spare
      exact finished (by omega) grove
  | succ fuel ih =>
      intro pos w taken parent kids enough high grove spare
      rw [Allocator.insertLoop, wp_ite]
      by_cases more : pos < len
      · obtain ⟨index, first, last⟩ := index_of (s := s) (f := fblock + pos) (c := NODE_FANOUT ^ l)
            (n := n) (by omega) (by omega)
        rw [if_pos more]
        dsimp only
        obtain ⟨chunk, size⟩ : ∃ chunk, chunk = min len
            (s + (fblock + pos - s) / NODE_FANOUT ^ l * NODE_FANOUT ^ l +
          NODE_FANOUT ^ l - (fblock + pos) + pos) - pos := ⟨_, rfl⟩
        rw [← size, wp_bind]
        have part := spare.part (o := 0) (m := chunk) (by omega)
        refine wp_mono (step grove part index first (by omega) (by omega)) ?_ fun _ _ => id
        rintro parent₁ w₁ ⟨kids₁, changed, only⟩
        have rest := spare.rest (m := chunk) (by omega) changed only
        have advance : len - (pos + chunk) = len - pos - chunk := by omega
        rw [Nat.add_assoc, Nat.add_assoc, ← advance] at rest
        refine wp_mono (ih (by omega) (by omega) changed.grove rest) ?_ fun _ _ => id
        intro parent₂ w₂ later
        rw [← Nat.add_assoc, ← Nat.add_assoc, advance] at later
        exact inserts_trans grants (by omega) grove changed only later
      · rw [if_neg more]
        exact finished (by omega) grove

theorem insertBelow_wp (grants : Grants A Refuses Held) {n l s i r f blk len : Nat} {w : Work}
    {taken : Nat → Prop}
    {parent : RootOrNode} {kids sub : Nat → Cover}
    {child : Nat → RootOrNode → Nat → Nat → Nat → Nat → Nat → Prog Work RootOrNode}
    (step : InsertsChild Held Refuses extra NODE_FANOUT (l - 1) (s + i * NODE_FANOUT ^ l)
    (child (l - 1)))
    (grove : Grove (Besides Held extra) taken w parent n l kids)
    (spare : Spare extra taken (Maps NODE_FANOUT n kids l s) f blk len)
    (hi : i < n) (here : kids i = .node r sub) (low : s + i * NODE_FANOUT ^ l ≤ f)
    (high : f + len ≤ s + i * NODE_FANOUT ^ l + NODE_FANOUT ^ l) :
    wp (Allocator.insertBelow child r (s + i * NODE_FANOUT ^ l) f blk len)
      (fun _ w' => Inserts Held extra taken w parent n l s kids f blk len parent w') Refuses w := by
  obtain ⟨some, inner⟩ := grove.below hi here
  obtain ⟨slots, shows_, _⟩ := inner.shown
  obtain ⟨_, buf, read, level, _⟩ := shows_
  have covers : cov (nodeLevel buf) = .ok (NODE_FANOUT ^ (l - 1)) := by
    rw [level, cov_run inner.low]
  have whole : s + i * NODE_FANOUT ^ l + NODE_FANOUT ^ l =
      s + i * NODE_FANOUT ^ l + NODE_FANOUT * NODE_FANOUT ^ (l - 1) := by
    rw [← pow_level NODE_FANOUT some]
  have same : ∀ f', f ≤ f' → f' < f + len → ∀ b, Maps NODE_FANOUT n kids l s f' b ↔
      Maps NODE_FANOUT NODE_FANOUT sub (l - 1) (s + i * NODE_FANOUT ^ l) f' b := by
    intro f' start stop b
    rw [maps_child grove.fits hi (by omega) (by omega), here]
    rfl
  have spare' : Spare extra taken (Maps NODE_FANOUT NODE_FANOUT sub (l - 1)
      (s + i * NODE_FANOUT ^ l)) (f + 0) (blk + 0)
      (len - 0) :=
    ⟨spare.fits, spare.free, fun f' b start stop maps =>
        spare.hole f' b start stop ((same f' start stop b).mpr maps)⟩
  rw [Allocator.insertBelow, wp_bind, wp_run (Work.nodeGet_run read), wp_bind, wp_ofExcept, covers]
  dsimp only
  rw [wp_bind, level]
  refine wp_mono (insertLoop_wp grants step low (by omega) len (Nat.le_refl _) (Nat.zero_le _) inner
      spare') ?_ fun _ _ => id
  rintro parent₁ w₁ ⟨sub', changed, only⟩
  rw [wp_pure]
  refine ⟨_, changed.lift (grants.besides extra) grove hi here,
      fun b kept free used => only b kept free ?_⟩
  have moved := uses_update (k := NODE_FANOUT) kids hi (Cover.node r sub') b
  have none : ¬ 0 < uses NODE_FANOUT n kids b := fun old => free (grove.owned b old)
  have other : r ≠ b := fun eq => free (eq ▸ (inner.ours r rfl).1)
  have new : (Cover.node r sub').uses NODE_FANOUT b = (if r = b then 1 else 0) + uses NODE_FANOUT
      NODE_FANOUT sub' b := rfl
  rw [new, if_neg other, Nat.zero_add] at moved
  omega

theorem insert_refined_wp (grants : Grants A Refuses Held) {depth n l s i r f blk len : Nat}
    {w w₁ : Work} {taken : Nat → Prop}
    {parent parent₁ : RootOrNode} {kids sub : Nat → Cover}
    (step : InsertsChild Held Refuses extra NODE_FANOUT (l - 1) (s + i * NODE_FANOUT ^ l)
    (A.insertInChild depth (l - 1)))
    (grove : Grove (Besides Held extra) taken w parent n l kids)
    (spare : Spare extra taken (Maps NODE_FANOUT n kids l s) f blk len)
    (hi : i < n) (changed : Changed (Besides Held extra) extra taken w parent n l s kids
    (fun _ _ => False) w₁ parent₁
      (Function.update kids i (.node r sub)))
    (fresh : ¬ extra r)
    (grows : ∀ b, (Cover.node r sub).uses NODE_FANOUT b = (if r = b then 1 else 0) + (kids i).uses
        NODE_FANOUT b)
    (low : s + i * NODE_FANOUT ^ l ≤ f) (high : f + len ≤ s + i * NODE_FANOUT ^ l + NODE_FANOUT ^
        l) :
    wp (do
      Allocator.insertBelow (A.insertInChild depth) r (s + i * NODE_FANOUT ^ l) f blk len
      return parent₁) (Inserts Held extra taken w parent n l s kids f blk len) Refuses w₁ := by
  have unused : ∀ b, extra b → ¬ taken b → uses NODE_FANOUT n (Function.update kids i (.node r sub))
      b = 0 := by
    intro b kept free
    have moved := uses_update (k := NODE_FANOUT) kids hi (Cover.node r sub) b
    have none : ¬ 0 < uses NODE_FANOUT n kids b := fun old => free (grove.owned b old)
    have other : r ≠ b := fun eq => fresh (eq ▸ kept)
    rw [grows, if_neg other] at moved
    omega
  have spare' : Spare extra (fun b => taken b ∨
      0 < uses NODE_FANOUT n (Function.update kids i (.node r sub)) b)
      (Maps NODE_FANOUT n (Function.update kids i (.node r sub)) l s) f blk len := by
    refine ⟨spare.fits, fun b first last => ?_, fun f' b start stop maps => ?_⟩
    · obtain ⟨kept, free⟩ := spare.free b first last
      refine ⟨kept, not_or.mpr ⟨free, ?_⟩⟩
      rw [unused b kept free]
      exact Nat.lt_irrefl 0
    · exact spare.hole f' b start stop (((changed.adds.maps f' b).mp maps).resolve_right id)
  rw [wp_bind]
  refine wp_mono (insertBelow_wp grants step changed.grove spare' hi (Function.update_self ..) low
      high) ?_ fun _ _ => id
  rintro _ w₂ ⟨kids', changed', only⟩
  rw [wp_pure]
  refine ⟨kids', (changed.trans (grants.besides extra) grove changed').congr
      fun f' b => by rw [false_or], ?_⟩
  intro b kept free used
  refine only b kept (not_or.mpr ⟨free, ?_⟩) used
  rw [unused b kept free]
  exact Nat.lt_irrefl 0

theorem only_run {n l blk len : Nat} {w : Work} {taken : Nat → Prop} {parent : RootOrNode}
    {kids kids' : Nat → Cover}
    (grove : Grove (Besides Held extra) taken w parent n l kids)
    (grows : ∀ b, uses NODE_FANOUT n kids' b ≤ uses NODE_FANOUT n kids b + if blk ≤ b ∧
    b < blk + len then 1 else 0) (b : Nat)
    (free : ¬ taken b) (used : 0 < uses NODE_FANOUT n kids' b) : blk ≤ b ∧ b < blk + len := by
  have none : ¬ 0 < uses NODE_FANOUT n kids b := fun old => free (grove.owned b old)
  have bound := grows b
  by_contra outside
  rw [if_neg outside] at bound
  omega

theorem insert_start_run (grants : Grants A Refuses Held) {n l s i blk len : Nat} {w : Work}
    {taken : Nat → Prop}
    {parent : RootOrNode} {kids : Nat → Cover} (grove : Grove (Besides Held extra) taken w parent n
    l kids)
    (spare : Spare extra taken (Maps NODE_FANOUT n kids l s) (s + i * NODE_FANOUT ^ l) blk len)
    (hi : i < n)
    (here : kids i = .hole) (more : 0 < len) (high : len ≤ NODE_FANOUT ^ l) :
    ∃ parent' w', parent.set i CELL_FULL len blk w = (.ok parent', w') ∧
      Inserts Held extra taken w parent n l s kids (s + i * NODE_FANOUT ^ l) blk len parent'
      w' := by
  obtain ⟨place, room⟩ := spare.fits
  have kept : ∀ b, 0 < (Cover.run len blk).uses NODE_FANOUT b → extra b := by
    intro b used
    rw [Cover.uses] at used
    by_contra outside
    rw [if_neg fun inside => outside (spare.free b inside.1 inside.2).1] at used
    exact Nat.lt_irrefl 0 used
  have adds : Adds taken ((Cover.run len blk).Maps NODE_FANOUT l (s + i * NODE_FANOUT ^ l))
      ((kids i).Maps NODE_FANOUT l (s + i * NODE_FANOUT ^ l))
      ((Cover.run len blk).Maps NODE_FANOUT l (s + i * NODE_FANOUT ^ l)) ((kids i).uses NODE_FANOUT)
      ((Cover.run len blk).uses NODE_FANOUT) := by
    rw [here]
    exact Adds.run fun b first last => (spare.free b first last).2
  obtain ⟨parent', w', set, changed⟩ := grove.set_run (grants.besides extra) hi (y := .run len blk)
      (Untouched.refl _ w)
    (grants.mono grove.held fun b => Or.rec (Or.imp_right (kept b)) Or.inr)
    ⟨more, high, place, room⟩ adds (fun _ _ node => node.elim)
    (show CELL_FULL < 4 by decide) (by omega) place rfl
  refine ⟨parent', w', set, _, changed.congr fun f' b => Iff.rfl,
      fun b _ => only_run grove (fun b => ?_) b⟩
  have moved := uses_update (k := NODE_FANOUT) kids hi (Cover.run len blk) b
  rw [here] at moved
  simp only [Cover.uses] at moved
  omega

theorem insert_append_run (grants : Grants A Refuses Held) {n l s i blocks addr len : Nat}
    {w : Work} {taken : Nat → Prop}
    {parent : RootOrNode} {kids : Nat → Cover} (grove : Grove (Besides Held extra) taken w parent n
    l kids)
    (spare : Spare extra taken (Maps NODE_FANOUT n kids l s) (s + i * NODE_FANOUT ^ l + blocks)
    (addr + blocks) len) (hi : i < n)
    (here : kids i = .run blocks addr) (more : 0 < len) (high : blocks + len ≤ NODE_FANOUT ^ l)
    (fits : RunFits blocks addr) :
    blocks + len < 2 ^ 32 ∧ ∃ parent' w', parent.set i CELL_FULL (blocks + len) addr
    w = (.ok parent', w') ∧
      Inserts Held extra taken w parent n l s kids (s + i * NODE_FANOUT ^ l + blocks)
      (addr + blocks) len parent' w' := by
  obtain ⟨_, room⟩ := spare.fits
  obtain ⟨place, before⟩ := fits
  have short : blocks + len < 2 ^ 32 := by omega
  have adds : Adds taken (fun f' b => s + i * NODE_FANOUT ^ l + blocks ≤ f' ∧
      f' < s + i * NODE_FANOUT ^ l + blocks + len ∧ b = addr + (f' - (s + i * NODE_FANOUT ^ l)))
      ((kids i).Maps NODE_FANOUT l (s + i * NODE_FANOUT ^ l))
      ((Cover.run (blocks + len) addr).Maps NODE_FANOUT l (s + i * NODE_FANOUT ^ l))
      ((kids i).uses NODE_FANOUT)
      ((Cover.run (blocks + len) addr).uses NODE_FANOUT) := by
    rw [here]
    exact Adds.longer fun b first last => (spare.free b first last).2
  have longer : ∀ b, 0 < (Cover.run (blocks + len) addr).uses NODE_FANOUT b → taken b ∨
      extra b := by
    intro b used
    by_cases old : addr ≤ b ∧ b < addr + blocks
    · refine Or.inl (grove.owned b (Nat.lt_of_lt_of_le ?_ (uses_kid_le hi b)))
      rw [here, Cover.uses, if_pos old]
      exact Nat.one_pos
    · refine Or.inr ?_
      rw [Cover.uses] at used
      by_contra outside
      rw [if_neg fun inside => outside (spare.free b (by omega) (by omega)).1] at used
      exact Nat.lt_irrefl 0 used
  obtain ⟨parent', w', set, changed⟩ := grove.set_run (grants.besides extra) hi
    (y := .run (blocks + len) addr) (Untouched.refl _ w)
    (grants.mono grove.held fun b => Or.rec (Or.rec Or.inl (longer b)) Or.inr)
    ⟨by omega, high, place, by omega⟩ adds (fun _ _ node => node.elim)
    (show CELL_FULL < 4 by decide) short place rfl
  refine ⟨short, parent', w', set, _, changed.congr fun f' b => ?_,
      fun b _ => only_run grove (fun b => ?_) b⟩
  · simp only [Pairs]
    omega
  · have moved := uses_update (k := NODE_FANOUT) kids hi (Cover.run (blocks + len) addr) b
    rw [here] at moved
    simp only [Cover.uses] at moved
    split at moved <;> split at moved <;> split <;> omega

/-- `insert_in_child`, at any depth of the stack that the levels below need. -/
theorem insertInChild_wp (grants : Grants A Refuses Held) (depth : Nat) :
    ∀ {n l s}, l < depth → InsertsChild Held Refuses extra n l s (A.insertInChild depth l) := by
  induction depth with
  | zero => exact fun short => absurd short (Nat.not_lt_zero _)
  | succ depth ih =>
      intro n l s short w taken parent kids i f blk len grove spare hi low more high
      obtain ⟨slots, shows_, stored⟩ := grove.shown
      have fits := grove.fits i hi
      have child := stored i hi
      have below : 0 < l → InsertsChild Held Refuses extra NODE_FANOUT (l - 1)
          (s + i * NODE_FANOUT ^ l)
          (A.insertInChild depth (l - 1)) := fun some => ih (by omega)
      have level : l - 1 < 2 ^ 8 := by
        have deepest := grove.low
        omega
      rw [Allocator.insertInChild, wp_bind, wp_run (get_wp shows_ hi)]
      generalize slots i = m at child
      obtain ⟨state, blocks, addr⟩ := m
      dsimp only
      cases here : kids i with
      | hole =>
          rw [here] at child
          obtain rfl : state = CELL_FREE := child
          rw [wp_ite]
          by_cases starts : f = s + i * NODE_FANOUT ^ l
          · subst starts
            obtain ⟨parent', w', set, inserts⟩ := insert_start_run grants grove spare hi here more
                (by omega)
            rw [if_pos ⟨rfl, rfl⟩, wp_run set]
            exact inserts
          · have some : 0 < l := by
              by_contra zero
              obtain rfl : l = 0 := by omega
              rw [Nat.pow_zero] at high low starts
              omega
            rw [if_neg fun both => starts both.2, wp_ite,
                if_neg fun both => absurd both.1 (by decide), wp_ite,
              if_pos (Or.inl rfl), wp_ite, if_neg (by omega), wp_bind]
            refine wp_mono (wp_and
              (refine_hole (grants.besides extra) (besides_guard grants) grove hi here some s)
              (nodeAlloc_wp grants grove.held level)) ?_ fun _ _ => And.left
            rintro r w₁ ⟨⟨parent₁, w₂, set, changed⟩, _, free, _⟩
            rw [if_neg (by decide), wp_bind, wp_run set]
            exact insert_refined_wp grants (below some) grove spare hi changed
                (fun kept => free (Or.inr kept))
              (fun b => by rw [here]; exact uses_refine_hole r b) low high
      | run m a =>
          rw [here] at child fits
          obtain ⟨some, covered, run⟩ := fits
          obtain ⟨rfl, rfl, rfl⟩ : state = CELL_FULL ∧ blocks = m ∧ addr = a := by
            simpa [Stored] using child
          have past : s + i * NODE_FANOUT ^ l + blocks ≤ f := by
            by_contra inside
            refine spare.hole f (addr + (f - (s + i * NODE_FANOUT ^ l))) (Nat.le_refl f) (by omega)
                ⟨i, hi, ?_⟩
            rw [here]
            exact ⟨low, by omega, rfl⟩
          rw [wp_ite, if_neg fun both => absurd both.1 (by decide), wp_ite]
          by_cases follows : f = s + i * NODE_FANOUT ^ l + blocks ∧ blk = addr + blocks
          · obtain ⟨rfl, rfl⟩ := follows
            obtain ⟨short, parent', w', set, inserts⟩ :=
              insert_append_run grants grove spare hi here more (by omega) run
            have cut : len % 2 ^ 32 = len := Nat.mod_eq_of_lt (by omega)
            rw [if_pos ⟨rfl, rfl, rfl⟩, wp_ite, cut, if_pos short, wp_run set]
            exact inserts
          · have some' : 0 < l := by
              by_contra zero
              obtain rfl : l = 0 := by omega
              rw [Nat.pow_zero] at high covered past
              omega
            rw [if_neg fun both => follows both.2, wp_ite, if_pos (Or.inr rfl), wp_ite,
                if_neg (by omega), wp_bind]
            refine wp_mono (wp_and
              (refine_run (grants.besides extra) (besides_guard grants) grove hi here some' s)
              (nodeAlloc_wp grants grove.held level)) ?_ fun _ _ => And.left
            rintro r w₁ ⟨⟨w₂, parent₁, w₃, spread, set, changed⟩, _, free, _⟩
            rw [if_pos rfl, wp_bind, wp_run spread, wp_bind, wp_run set]
            exact insert_refined_wp grants (below some') grove spare hi changed
                (fun kept => free (Or.inr kept))
              (fun b => by rw [here]; exact uses_refine_run some' covered b) low high
      | node r sub =>
          have some := fits
          rw [here] at child some
          obtain ⟨rfl, rfl, _⟩ := child
          rw [wp_ite, if_neg fun both => absurd both.1 (by decide), wp_ite,
              if_neg fun both => absurd both.1 (by decide), wp_ite,
            if_neg (by decide), wp_ite, if_pos rfl, wp_bind]
          exact wp_mono (insertBelow_wp grants (below some.1) grove spare hi here low high)
              (fun _ _ => id) fun _ _ => id

end Inserts

end FiveFs
