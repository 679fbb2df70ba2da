import FiveFs.Grove

/-! `map_ensure` over the children of a root or node: holes of the range get blocks that nothing
holds, and what is mapped stays. -/

namespace FiveFs

open Buffer Prog Radix

/-- In one of the ranges. -/
def Within (fresh : List (Nat × Nat)) (f : Nat) : Prop := ∃ p ∈ fresh, p.1 ≤ f ∧ f < p.1 + p.2

/-- `[pos, limit)` is mapped, by the pairs `R` where there was a hole; these are the new ones of
`fresh'`. -/
structure Ensured (taken : Nat → Prop) (M M' R : Nat → Nat → Prop) (pos limit : Nat)
    (fresh fresh' : List (Nat × Nat)) :
    Prop where
  new : ∀ f b, R f b → pos ≤ f ∧ f < limit ∧ ¬ taken b ∧ ∀ b', ¬ M f b'
  full : ∀ f, pos ≤ f → f < limit → ∃ b, M' f b
  listed : ∀ f, Within fresh' f ↔ Within fresh f ∨ ∃ b, R f b

section Ranges

variable {taken taken' : Nat → Prop} {M M₁ M' R R' : Nat → Nat → Prop} {pos mid limit f : Nat}
  {fresh fresh₁ fresh' : List (Nat × Nat)} {l n s i : Nat} {kids : Nat → Cover}

theorem within_append (p : Nat × Nat) : Within (fresh ++ [p]) f ↔ Within fresh f ∨
    (p.1 ≤ f ∧ f < p.1 + p.2) := by
  simp [Within, or_and_right, exists_or]

theorem Ensured.start (taken : Nat → Prop) (M M₁ : Nat → Nat → Prop) (pos : Nat)
    (fresh : List (Nat × Nat)) :
    Ensured taken M M₁ (fun _ _ => False) pos pos fresh fresh where
  new _ _ none := none.elim
  full f low high := absurd high (Nat.not_lt.mpr low)
  listed _ := by simp

theorem Ensured.trans (adds : ∀ f b, M₁ f b ↔ M f b ∨ R f b)
    (adds' : ∀ f b, M' f b ↔ M₁ f b ∨ R' f b)
    (held : ∀ b, taken b → taken' b) (low : pos ≤ mid) (high : mid ≤ limit)
    (h : Ensured taken M M₁ R pos mid fresh fresh₁)
    (h' : Ensured taken' M₁ M' R' mid limit fresh₁ fresh') :
    Ensured taken M M' (fun f b => R f b ∨ R' f b) pos limit fresh fresh' where
  new f b either := by
    rcases either with first | second
    · obtain ⟨start, stop, free, hole⟩ := h.new f b first
      exact ⟨start, by omega, free, hole⟩
    · obtain ⟨start, stop, free, hole⟩ := h'.new f b second
      exact ⟨by omega, stop, fun inside => free (held b inside),
          fun b' old => hole b' ((adds f b').mpr (Or.inl old))⟩
  full f start stop := by
    by_cases before : f < mid
    · obtain ⟨b, maps⟩ := h.full f start before
      exact ⟨b, (adds' f b).mpr (Or.inl maps)⟩
    · exact h'.full f (by omega) stop
  listed f := by rw [h'.listed, h.listed, or_assoc, exists_or]

theorem maps_child (fits : ∀ j < n, (kids j).Fits NODE_FANOUT RunFits l) (hi : i < n)
    (low : s + i * NODE_FANOUT ^ l ≤ f)
    (high : f < s + i * NODE_FANOUT ^ l + NODE_FANOUT ^ l) (b : Nat) :
    Maps NODE_FANOUT n kids l s f b ↔ (kids i).Maps NODE_FANOUT l (s + i * NODE_FANOUT ^ l) f
    b := by
  constructor
  · rintro ⟨j, hj, below⟩
    obtain ⟨low', high'⟩ := below.range (fits j hj)
    obtain rfl := index_unique low high low' high'
    exact below
  · exact fun below => ⟨i, hi, below⟩

end Ranges

section Refining

variable [Crc32c] {Held : Work → (Nat → Prop) → Prop} {A : Allocator} {Refuses : Err → Work → Prop}
    {kept taken : Nat → Prop} {w : Work}
  {parent : RootOrNode} {n l i : Nat} {kids : Nat → Cover}

theorem stored_blank {r : Nat} {w : Work} (blank : Blank w r (l - 1)) :
    Stored w (.node r fun _ => .hole) l (CELL_REFINED, 0, r) := by
  obtain ⟨buf, read, level, clear⟩ := blank
  exact ⟨rfl, rfl, buf, read, level, fun j hj => by rw [clear j hj]; rfl⟩

theorem refine_hole (grants : Grants A Refuses Held)
    (guard : ∀ {w taken}, Held w taken → Held w fun b => taken b ∨ kept b)
    (grove : Grove Held taken w parent n l kids) (hi : i < n)
    (here : kids i = .hole) (some : 0 < l) (s : Nat) :
    wp (A.nodeAlloc (l - 1)) (fun r w₁ => ∃ parent' w',
    parent.set i CELL_REFINED 0 r w₁ = (.ok parent', w') ∧
      Changed Held kept taken w parent n l s kids (fun _ _ => False) w' parent'
      (Function.update kids i (.node r fun _ => .hole)))
      Refuses w := by
  have low := grove.low
  refine wp_mono (nodeAlloc_wp grants (guard grove.held) (by omega)) ?_ fun _ _ => id
  rintro r w₁ ⟨place, free, held, same, blank, _⟩
  have used : ∀ b, 0 < (Cover.node r fun _ => .hole).uses NODE_FANOUT b → r = b := by
    intro b some
    simp only [Cover.uses, Finset.sum_const_zero, Nat.add_zero] at some
    by_contra other
    rw [if_neg other] at some
    exact Nat.lt_irrefl 0 some
  refine grove.set_run grants hi same (grants.mono held fun b => Or.imp Or.inl (used b))
      ⟨some, fun _ _ => trivial⟩ ?_ ?_
    (by decide) (by decide) place (stored_blank blank)
  · rw [here]
    exact Adds.refine_hole fun old => free (.inl old)
  · rintro b old (fresh | ⟨j, hj, none⟩)
    · exact (free (fresh ▸ old)).elim
    · exact none.elim

theorem refine_run (grants : Grants A Refuses Held)
    (guard : ∀ {w taken}, Held w taken → Held w fun b => taken b ∨ kept b)
    (grove : Grove Held taken w parent n l kids) (hi : i < n) {m a : Nat}
    (here : kids i = .run m a) (some : 0 < l) (s : Nat) :
    wp (A.nodeAlloc (l - 1)) (fun r w₁ => ∃ w₂ parent' w',
    Allocator.redistribute r m a w₁ = (.ok (), w₂) ∧
      parent.set i CELL_REFINED 0 r w₂ = (.ok parent', w') ∧
      Changed Held kept taken w parent n l s kids (fun _ _ => False) w' parent'
        (Function.update kids i (.node r (spread (NODE_FANOUT ^ (l - 1)) m a)))) Refuses w := by
  have low := grove.low
  have fits := grove.fits i hi
  rw [here] at fits
  obtain ⟨_, covered, place⟩ := fits
  have whole := covered
  rw [pow_level NODE_FANOUT some] at whole
  have owned : ∀ b, a ≤ b → b < a + m → taken b := by
    intro b first last
    refine grove.owned b (Nat.lt_of_lt_of_le ?_ (uses_kid_le hi b))
    rw [here, Cover.uses, if_pos ⟨first, last⟩]
    exact Nat.one_pos
  refine wp_mono (nodeAlloc_wp grants (guard grove.held) (by omega)) ?_ fun _ _ => id
  rintro r w₁ ⟨address, free, held, same, blank, _⟩
  obtain ⟨data, run, magic, buf, read, level, slots⟩ :=
      redistribute_run (grants.large held) blank (by omega) place whole
  have held₂ := (grants.write held (Or.inr rfl) magic).1
  have same₂ := same.trans (untouched_put _ free w₁ data)
  have used : ∀ b, 0 < (Cover.node r (spread (NODE_FANOUT ^ (l - 1)) m a)).uses NODE_FANOUT b →
      taken b ∨ r = b := by
    intro b some'
    by_cases this : r = b
    · exact Or.inr this
    · rw [uses_refine_run some covered, if_neg this, Nat.zero_add, Cover.uses] at some'
      by_cases inside : a ≤ b ∧ b < a + m
      · exact Or.inl (owned b inside.1 inside.2)
      · rw [if_neg inside] at some'
        exact absurd some' (Nat.lt_irrefl 0)
  have nodes : ∀ b, taken b ∨ kept b → (Cover.node r (spread (NODE_FANOUT ^ (l - 1)) m a)).HasNode
      NODE_FANOUT b → (kids i).HasNode NODE_FANOUT b := by
    rintro b old (fresh | ⟨j, hj, node⟩)
    · exact (free (fresh ▸ old)).elim
    · exact (not_node_spread _ _ _ j b node).elim
  obtain ⟨parent', w', set, changed⟩ := grove.set_run grants (s := s) hi same₂
    (grants.mono held₂ fun b => Or.rec (Or.inl ∘ Or.inl) fun some => (used b some).imp_left Or.inl)
    (y := .node r (spread (NODE_FANOUT ^ (l - 1)) m a))
    ⟨some, fun j _ => fits_spread (fun _ _ _ inside => RunFits.part inside) place
    (Nat.pow_pos (by decide)) j⟩
    (R := fun _ _ => False)
    (by rw [here]; exact Adds.refine_run (fun old => free (.inl old)) some covered owned) nodes
    (show CELL_REFINED < 4 by decide)
    (show 0 < 2 ^ 32 by decide) address
    ⟨rfl, rfl, buf, read, level, fun j hj => by rw [slots j hj]; exact stored_spread _ _ _ _ _ _⟩
  exact ⟨_, parent', w', run, set, changed⟩

end Refining

section Loop

variable [Crc32c] {Held : Work → (Nat → Prop) → Prop} {A : Allocator} {Refuses : Err → Work → Prop}

/-- What a call that ensures `[pos, limit)` in `kids` leaves. -/
def Ensures (Held : Work → (Nat → Prop) → Prop) (taken : Nat → Prop) (w : Work)
    (parent : RootOrNode) (n l s : Nat)
    (kids : Nat → Cover) (pos limit : Nat) (fresh : List (Nat × Nat))
    (out : RootOrNode × List (Nat × Nat)) (w' : Work) :
    Prop :=
  ∃ kids' R, Changed Held (fun _ => False) taken w parent n l s kids R w' out.1 kids' ∧
    Ensured taken (Maps NODE_FANOUT n kids l s) (Maps NODE_FANOUT n kids' l s) R pos limit fresh
    out.2

/-- One child at a time. -/
def EnsuresChild (Held : Work → (Nat → Prop) → Prop) (Refuses : Err → Work → Prop) (n l s : Nat)
    (child : RootOrNode → Nat → Nat → Nat → Nat → List (Nat × Nat) →
    Prog Work (RootOrNode × List (Nat × Nat))) : Prop :=
  ∀ {w : Work} {taken : Nat → Prop} {parent : RootOrNode} {kids : Nat → Cover} {i pos limit : Nat}
      {fresh : List (Nat × Nat)},
    Grove Held taken w parent n l kids → i < n → s + i * NODE_FANOUT ^ l ≤ pos → pos < limit →
    limit ≤ s + i * NODE_FANOUT ^ l + NODE_FANOUT ^ l →
    wp (child parent i (s + i * NODE_FANOUT ^ l) pos limit fresh)
      (Ensures Held taken w parent n l s kids pos limit fresh) Refuses w

theorem ensureLoop_wp (grants : Grants A Refuses Held) {n l s limit : Nat}
    {child : RootOrNode → Nat → Nat → Nat → Nat → List (Nat × Nat) →
    Prog Work (RootOrNode × List (Nat × Nat))}
    (step : EnsuresChild Held Refuses n l s child) (inside : limit ≤ s + n * NODE_FANOUT ^ l) :
    ∀ fuel {pos w taken parent kids fresh}, limit - pos ≤ fuel → s ≤ pos → pos ≤ limit →
      Grove Held taken w parent n l kids →
      wp (Allocator.ensureLoop child s (NODE_FANOUT ^ l) limit fuel pos parent fresh)
        (Ensures Held taken w parent n l s kids pos limit fresh) Refuses w := by
  have some : 0 < NODE_FANOUT ^ l := Nat.pow_pos (by decide)
  intro fuel
  induction fuel with
  | zero =>
      intro pos w taken parent kids fresh enough low high grove
      obtain rfl : pos = limit := by omega
      exact ⟨kids, _, Changed.refl grants grove s, Ensured.start _ _ _ _ _⟩
  | succ fuel ih =>
      intro pos w taken parent kids fresh enough low high grove
      rw [Allocator.ensureLoop, wp_ite]
      by_cases more : pos < limit
      · obtain ⟨index, first, last⟩ := index_of (f := pos)
            (show pos < s + n * NODE_FANOUT ^ l by omega) low
        rw [if_pos more]
        dsimp only
        rw [wp_bind]
        refine wp_mono (step grove index first (Nat.lt_min.mpr ⟨more, last⟩)
          (Nat.min_le_right _ _)) ?_ fun _ _ => id
        rintro ⟨parent₁, fresh₁⟩ w₁ ⟨kids₁, R, changed, ensured⟩
        refine wp_mono (ih (by omega) (by omega) (by omega) changed.grove) ?_ fun _ _ => id
        rintro ⟨parent₂, fresh₂⟩ w₂ ⟨kids₂, R', changed', ensured'⟩
        exact ⟨kids₂, _, changed.trans grants grove changed',
          Ensured.trans changed.adds.maps changed'.adds.maps (fun _ => Or.inl) (by omega) (by omega)
          ensured ensured'⟩
      · obtain rfl : pos = limit := by omega
        rw [if_neg more]
        exact ⟨kids, _, Changed.refl grants grove s, Ensured.start _ _ _ _ _⟩

theorem descendEnsure_wp (grants : Grants A Refuses Held) {n l s i r pos limit : Nat} {w : Work}
    {taken : Nat → Prop}
    {parent : RootOrNode} {kids sub : Nat → Cover} {fresh : List (Nat × Nat)}
    {child : Nat → RootOrNode → Nat → Nat → Nat → Nat → List (Nat × Nat) →
    Prog Work (RootOrNode × List (Nat × Nat))}
    (step : EnsuresChild Held Refuses NODE_FANOUT (l - 1) (s + i * NODE_FANOUT ^ l) (child (l - 1)))
    (grove : Grove Held taken w parent n l kids) (hi : i < n) (here : kids i = .node r sub)
    (low : s + i * NODE_FANOUT ^ l ≤ pos) (more : pos < limit)
    (high : limit ≤ s + i * NODE_FANOUT ^ l + NODE_FANOUT ^ l) :
    wp (Allocator.descendEnsure child r (s + i * NODE_FANOUT ^ l) pos limit fresh)
      (fun fresh' w' => Ensures Held taken w parent n l s kids pos limit fresh (parent, fresh') w')
      Refuses w := by
  obtain ⟨some, inner⟩ := grove.below hi here
  obtain ⟨slots, shows_, _⟩ := inner.shown
  obtain ⟨_, buf, read, level, _⟩ := shows_
  have covers : cov (nodeLevel buf) = .ok (NODE_FANOUT ^ (l - 1)) := by
    rw [level, cov_run inner.low]
  have whole : s + i * NODE_FANOUT ^ l + NODE_FANOUT ^ l =
      s + i * NODE_FANOUT ^ l + NODE_FANOUT * NODE_FANOUT ^ (l - 1) := by
    rw [← pow_level NODE_FANOUT some]
  rw [Allocator.descendEnsure, wp_bind, wp_run (Work.nodeGet_run read), wp_bind, wp_ofExcept,
      covers]
  dsimp only
  rw [wp_bind, level]
  refine wp_mono (ensureLoop_wp grants step (by omega) (limit - pos) (Nat.le_refl _) low
      (Nat.le_of_lt more) inner) ?_
    fun _ _ => id
  rintro ⟨parent₁, fresh₁⟩ w₁ ⟨sub', R, changed, ensured⟩
  refine ⟨_, R, changed.lift grants grove hi here, ?_⟩
  have fits := (changed.lift grants grove hi here).grove.fits
  have same : ∀ f, pos ≤ f → f < limit → ∀ b, Maps NODE_FANOUT n kids l s f b ↔
      Maps NODE_FANOUT NODE_FANOUT sub (l - 1) (s + i * NODE_FANOUT ^ l) f b := by
    intro f start stop b
    rw [maps_child grove.fits hi (by omega) (by omega), here]
    rfl
  refine ⟨fun f b pair => ?_, fun f start stop => ?_, ensured.listed⟩
  · obtain ⟨start, stop, free, hole⟩ := ensured.new f b pair
    exact ⟨start, stop, free, fun b' maps => hole b' ((same f start stop b').mp maps)⟩
  · obtain ⟨b, maps⟩ := ensured.full f start stop
    refine ⟨b, (maps_child fits hi (by omega) (by omega) b).mpr ?_⟩
    rw [Function.update_self]
    exact maps

theorem refined_wp (grants : Grants A Refuses Held) {depth n l s i r pos limit : Nat} {w w₁ : Work}
    {taken : Nat → Prop}
    {parent parent₁ : RootOrNode} {kids sub : Nat → Cover} {fresh : List (Nat × Nat)}
    (step : EnsuresChild Held Refuses NODE_FANOUT (l - 1) (s + i * NODE_FANOUT ^ l)
    (A.childEnsure depth (l - 1)))
    (grove : Grove Held taken w parent n l kids) (hi : i < n)
    (changed : Changed Held (fun _ => False) taken w parent n l s kids (fun _ _ => False) w₁ parent₁
    (Function.update kids i (.node r sub)))
    (low : s + i * NODE_FANOUT ^ l ≤ pos) (more : pos < limit)
    (high : limit ≤ s + i * NODE_FANOUT ^ l + NODE_FANOUT ^ l) :
    wp (do
      let fresh ← Allocator.descendEnsure (A.childEnsure depth) r (s + i * NODE_FANOUT ^ l) pos
          limit fresh
      return (parent₁, fresh)) (Ensures Held taken w parent n l s kids pos limit fresh) Refuses
          w₁ := by
  rw [wp_bind]
  refine wp_mono (descendEnsure_wp grants step changed.grove hi (Function.update_self ..) low more
      high) ?_ fun _ _ => id
  rintro fresh' w₂ ⟨kids', R, changed', ensured⟩
  rw [wp_pure]
  refine ⟨kids', fun f b => False ∨ R f b, changed.trans grants grove changed', ?_⟩
  exact Ensured.trans changed.adds.maps changed'.adds.maps (fun _ => Or.inl) (Nat.le_refl _)
      (Nat.le_of_lt more)
    (Ensured.start _ _ _ _ _) ensured

theorem grant_wp (grants : Grants A Refuses Held) {n l s i start want blk : Nat} {w w₁ : Work}
    {taken : Nat → Prop}
    {parent : RootOrNode} {kids : Nat → Cover} {fresh : List (Nat × Nat)}
    (grove : Grove Held taken w parent n l kids)
    (hi : i < n) (here : kids i = .hole) (begins : start = s + i * NODE_FANOUT ^ l)
    (some : 0 < want)
    (covered : want ≤ NODE_FANOUT ^ l) (fits : RunFits want blk)
    (free : ∀ b, blk ≤ b → b < blk + want → ¬ taken b)
    (held : Held w₁ fun b => taken b ∨ (blk ≤ b ∧ b < blk + want)) (same : Untouched taken w w₁) :
    wp (do
      let parent ← parent.set i CELL_FULL want blk
      return (parent, fresh ++ [(start, want)]))
      (Ensures Held taken w parent n l s kids start (start + want) fresh) Refuses w₁ := by
  obtain ⟨place, room⟩ := fits
  subst begins
  have used : ∀ b, 0 < (Cover.run want blk).uses NODE_FANOUT b → blk ≤ b ∧ b < blk + want := by
    intro b some
    rw [Cover.uses] at some
    by_contra outside
    rw [if_neg outside] at some
    exact Nat.lt_irrefl 0 some
  have adds : Adds taken ((Cover.run want blk).Maps NODE_FANOUT l (s + i * NODE_FANOUT ^ l))
      ((kids i).Maps NODE_FANOUT l (s + i * NODE_FANOUT ^ l))
      ((Cover.run want blk).Maps NODE_FANOUT l (s + i * NODE_FANOUT ^ l))
      ((kids i).uses NODE_FANOUT)
      ((Cover.run want blk).uses NODE_FANOUT) := by
    rw [here]
    exact Adds.run free
  obtain ⟨parent', w', set, changed⟩ := grove.set_run grants hi same.or_false
      (grants.mono held fun b => Or.imp_right (used b))
    ⟨some, covered, place, room⟩ adds (fun _ _ node => node.elim)
    (show CELL_FULL < 4 by decide) (by omega) place rfl
  rw [wp_bind, wp_run set, wp_pure]
  refine ⟨_, _, changed, fun f b pair => ?_, fun f start stop => ?_, fun f => ?_⟩
  · obtain ⟨start, stop, rfl⟩ := pair
    refine ⟨start, stop, free _ (by omega) (by omega), fun b' maps => ?_⟩
    rw [maps_child grove.fits hi start (by omega), here] at maps
    exact maps
  · exact ⟨blk + (f - (s + i * NODE_FANOUT ^ l)),
        (changed.adds.maps f _).mpr (Or.inr ⟨start, stop, rfl⟩)⟩
  · rw [within_append]
    refine or_congr Iff.rfl ⟨fun range => ⟨_, range.1, range.2, rfl⟩, ?_⟩
    rintro ⟨b, start, stop, _⟩
    exact ⟨start, stop⟩

/-- `child_ensure`, at any depth of the stack that the levels below need. -/
theorem childEnsure_wp (grants : Grants A Refuses Held) (depth : Nat) :
    ∀ {n l s}, l < depth → EnsuresChild Held Refuses n l s (A.childEnsure depth l) := by
  induction depth with
  | zero => exact fun short => absurd short (Nat.not_lt_zero _)
  | succ depth ih =>
      intro n l s short w taken parent kids i pos limit fresh grove hi low more high
      obtain ⟨slots, shows_, stored⟩ := grove.shown
      have fits := grove.fits i hi
      have child := stored i hi
      have below : 0 < l → EnsuresChild Held Refuses NODE_FANOUT (l - 1) (s + i * NODE_FANOUT ^ l)
          (A.childEnsure depth (l - 1)) := fun some => ih (by omega)
      rw [Allocator.childEnsure, wp_bind, wp_run (get_wp shows_ hi)]
      generalize slots i = m at child
      obtain ⟨state, blocks, addr⟩ := m
      dsimp only
      cases here : kids i with
      | hole =>
          rw [here] at child
          obtain rfl : state = CELL_FREE := child
          have refine_free : ∀ w, Grove Held taken w parent n l kids → 0 < l → wp (do
              let node ← A.nodeAlloc (l - 1)
              let parent ← parent.set i CELL_REFINED 0 node
              let fresh ← Allocator.descendEnsure (A.childEnsure depth) node
                  (s + i * NODE_FANOUT ^ l) pos limit fresh
              return (parent, fresh)) (Ensures Held taken w parent n l s kids pos limit fresh)
                  Refuses w := by
            intro w grove some
            rw [wp_bind]
            refine wp_mono (refine_hole grants grants.or_false grove hi here some s) ?_
              fun _ _ => id
            rintro r w₁ ⟨parent₁, w₂, set, changed⟩
            rw [wp_bind, wp_run set]
            exact refined_wp grants (below some) grove hi changed low more high
          rw [wp_ite, if_neg fun both => absurd both.1 (by decide), wp_ite]
          by_cases starts : pos = s + i * NODE_FANOUT ^ l
          · obtain ⟨want, rfl⟩ : ∃ want, limit = pos + want := ⟨limit - pos, by omega⟩
            have width : pos + want - (s + i * NODE_FANOUT ^ l) = want := by omega
            rw [if_pos ⟨rfl, starts⟩, width, wp_bind, wp_attempt]
            refine wp_mono (grants.alloc grove.held (show 0 < want by omega)) ?_ ?_
            · rintro blk w₁ ⟨place, free, held, same, _⟩
              rw [starts]
              exact grant_wp grants grove hi here rfl (by omega) (by omega) place free held same
            · rintro e w₁ ⟨refuses, keeps⟩
              cases e with
              | panic m => exact refuses
              | bail m =>
                  obtain ⟨held, same⟩ := keeps ⟨m, rfl⟩
                  -- the call was refused, and what it keeps is refined instead
                  show wp (if l > 0 then _ else bail m) _ _ w₁
                  rw [wp_ite]
                  by_cases some : l > 0
                  · rw [if_pos some]
                    refine wp_mono (refine_free w₁ (grove.untouched same held) some) ?_ fun _ _ =>
                        id
                    rintro out w₂ ⟨kids', R, changed, ensured⟩
                    exact ⟨kids', R, changed.after same.or_false, ensured⟩
                  · rw [if_neg some]
                    exact refuses
          · have some : 0 < l := by
              by_contra zero
              obtain rfl : l = 0 := by omega
              rw [Nat.pow_zero] at high low starts
              omega
            rw [if_neg fun both => starts both.2, wp_ite, if_pos (Or.inl rfl), wp_ite,
                if_neg (by omega)]
            exact refine_free w grove some
      | run m a =>
          rw [here] at child fits
          obtain ⟨some, covered, _⟩ := fits
          obtain ⟨rfl, rfl, rfl⟩ : state = CELL_FULL ∧ blocks = m ∧ addr = a := by
            simpa [Stored] using child
          rw [wp_ite]
          by_cases mapped : limit - (s + i * NODE_FANOUT ^ l) ≤ blocks
          · rw [if_pos ⟨rfl, mapped⟩]
            refine ⟨kids, _, Changed.refl grants grove s, fun _ _ none => none.elim,
                fun f start stop => ?_, fun f => by simp⟩
            refine ⟨addr + (f - (s + i * NODE_FANOUT ^ l)),
                (maps_child grove.fits hi (by omega) (by omega) _).mpr ?_⟩
            rw [here]
            exact ⟨by omega, by omega, rfl⟩
          · have some' : 0 < l := by
              by_contra zero
              obtain rfl : l = 0 := by omega
              rw [Nat.pow_zero] at high covered low mapped
              omega
            rw [if_neg fun both => mapped both.2, wp_ite,
                if_neg fun both => absurd both.1 (by decide), wp_ite,
              if_pos (Or.inr rfl), wp_ite, if_neg (by omega), wp_bind]
            refine wp_mono (refine_run grants grants.or_false grove hi here some' s) ?_
              fun _ _ => id
            rintro r w₁ ⟨w₂, parent₁, w₃, spread, set, changed⟩
            rw [if_pos rfl, wp_bind, wp_run spread, wp_bind, wp_run set]
            exact refined_wp grants (below some') grove hi changed low more high
      | node r sub =>
          have some := fits
          rw [here] at child some
          obtain ⟨rfl, rfl, _⟩ := child
          rw [wp_ite, if_neg fun both => absurd both.1 (by decide), wp_ite,
              if_neg fun both => absurd both.1 (by decide), wp_ite,
            if_neg (by decide), wp_ite, if_pos rfl, wp_bind]
          refine wp_mono (descendEnsure_wp grants (below some.1) grove hi here low more high) ?_
              fun _ _ => id
          exact fun fresh' w' ensures => ensures

end Loop

end FiveFs
