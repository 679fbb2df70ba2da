import FiveFs.Filemap
import FiveFs.Lengths

/-! What a mapping that is filed for an inode is looked up as, and what `map_ensure` returns. -/

namespace FiveFs

open Buffer Prog Radix

theorem split_rel {n c rel s : Nat} (inside : rel < n * c) : rel / c < n ∧ rel % c < c ∧
    s + rel = s + rel / c * c + rel % c ∧
    s + rel / c * c ≤ s + rel ∧ s + rel < s + rel / c * c + c := by
  obtain ⟨index, low, high⟩ := index_of (f := s + rel) (s := s) (c := c) (n := n) (by omega)
      (Nat.le_add_right _ _)
  rw [Nat.add_sub_cancel_left] at index low high
  have split := Nat.div_add_mod' rel c
  exact ⟨index, Nat.mod_lt _ (by omega), by omega, low, high⟩

namespace Work

variable [Crc32c] {w : Work} {depth : Nat} {inode : Inode} {x : Cover} {l s f b rel : Nat}
    {m : Nat × Nat × Nat}

theorem blockOf_eq_some : w.blockOf depth inode f = some b ↔ ∃ n,
    w.mapLookup depth inode f = .ok (.run b n) := by
  constructor
  · intro maps
    rw [blockOf] at maps
    split at maps
    · rename_i blk n found
      cases maps
      exact ⟨n, found⟩
    · cases maps
  · rintro ⟨n, found⟩
    exact blockOf_run found

theorem stored_fits (stored : Stored w x l m) (fits : x.Fits NODE_FANOUT RunFits l) (low : l ≤ 10)
    (deep : l ≤ depth) :
    ChildFits m.1 m.2 (NODE_FANOUT ^ l) (w.Spans depth m.2.2 (NODE_FANOUT ^ l)) := by
  induction x generalizing l m depth with
  | hole => exact Or.inl stored
  | run n a =>
      obtain ⟨_, covered, place, room⟩ := fits
      rw [Stored] at stored
      subst stored
      exact Or.inr (Or.inl ⟨rfl, covered, by dsimp only; omega⟩)
  | node r kids ih =>
      obtain ⟨state, rfl, buf, read, level, below⟩ := stored
      obtain ⟨some, all⟩ := fits
      obtain ⟨d, rfl⟩ : ∃ d, depth = d + 1 := ⟨depth - 1, by omega⟩
      refine Or.inr (Or.inr ⟨state, buf, NODE_FANOUT ^ (l - 1), read, ?_, Nat.pow_pos (by decide),
          pow_level _ some, fun i hi => ?_⟩)
      · rw [level, cov_run (by omega)]
      · exact ih i (below i hi) (all i hi) (by omega) (by omega)

theorem stored_lookup (stored : Stored w x l m) (fits : x.Fits NODE_FANOUT RunFits l) (low : l ≤ 10)
    (deep : l ≤ depth)
    (inside : rel < NODE_FANOUT ^ l) (bad : String) :
    (∃ n, w.childLookup depth m.1 m.2 (NODE_FANOUT ^ l) bad rel = .ok (.run b n)) ↔
    x.Maps NODE_FANOUT l s (s + rel) b := by
  induction x generalizing l m depth s rel bad with
  | hole =>
      rw [Stored] at stored
      rw [childLookup, if_pos stored]
      exact ⟨fun some => (by obtain ⟨n, run⟩ := some; cases run), fun none => none.elim⟩
  | run n a =>
      obtain ⟨_, covered, place, room⟩ := fits
      rw [Stored] at stored
      obtain ⟨state, count, address⟩ := m
      obtain ⟨rfl, rfl, rfl⟩ : state = CELL_FULL ∧ count = n ∧ address = a := by simpa using stored
      dsimp only
      rw [childLookup, if_neg (by decide), if_pos rfl, runInChild]
      by_cases mapped : rel < count
      · rw [if_pos mapped, Coherent.addU64_ok (by omega)]
        constructor
        · rintro ⟨_, run⟩
          cases run
          exact ⟨by omega, by omega, by omega⟩
        · rintro ⟨_, _, rfl⟩
          exact ⟨count - rel, by rw [Nat.add_sub_cancel_left]; rfl⟩
      · rw [if_neg mapped]
        refine ⟨fun some => (by obtain ⟨n, run⟩ := some; cases run), fun maps => ?_⟩
        have high := maps.2.1
        omega
  | node r kids ih =>
      obtain ⟨state, rfl, buf, read, level, below⟩ := stored
      obtain ⟨some, all⟩ := fits
      obtain ⟨d, rfl⟩ : ∃ d, depth = d + 1 := ⟨depth - 1, by omega⟩
      rw [pow_level _ some] at inside
      obtain ⟨index, rest, sum, first, last⟩ := split_rel (s := s) inside
      have descends : w.childLookup (d + 1) m.1 m.2 (NODE_FANOUT ^ l) bad rel =
          w.childLookup d (nodeState buf (rel / NODE_FANOUT ^ (l - 1)))
          (nodeChild buf (rel / NODE_FANOUT ^ (l - 1)))
            (NODE_FANOUT ^ (l - 1))
            s!"bad node child state {nodeState buf (rel / NODE_FANOUT ^ (l - 1))}"
            (rel % NODE_FANOUT ^ (l - 1)) := by
        rw [childLookup, state, if_neg (by decide), if_neg (by decide), if_pos rfl, nodeLookup,
            read]
        show (cov (nodeLevel buf) >>= _) = _
        rw [level, cov_run (by omega)]
        exact if_neg (Nat.not_le.mpr index)
      rw [descends]
      refine (ih _ (s := s + rel / NODE_FANOUT ^ (l - 1) * NODE_FANOUT ^ (l - 1)) (below _ index)
          (all _ index) (by omega) (by omega)
        rest _).trans ?_
      rw [← sum]
      exact (maps_child all index first last b).symm

end Work

section Looking

variable [Crc32c] {Held : Work → (Nat → Prop) → Prop} {A : Allocator} {Refuses : Err → Work → Prop}
    {taken : Nat → Prop}
  {w w' : Work} {inode : Inode} {y : Filemap} {depth : Nat}

theorem Filed.wellFormed (filed : Filed Held taken w inode y) (deep : 10 < depth) :
    w.WellFormed depth inode := by
  cases filed with
  | empty format _ => exact format.elim Or.inl (Or.inr ∘ Or.inl)
  | inline format parse sorted listed =>
      refine Or.inr (Or.inr (Or.inl ⟨format, parse.symm ▸ listed.apart, fun e member => ?_⟩))
      obtain ⟨_, ⟨place, room⟩, _⟩ := listed.sound e (parse ▸ member)
      omega
  | tree format grove =>
      obtain ⟨slots, ⟨_, level, same⟩, stored⟩ := grove.shown
      have low := grove.low
      refine Or.inr (Or.inr (Or.inr ⟨format, _, by rw [level, cov_run low], fun i hi => ?_⟩))
      have child := stored i hi
      rw [← same i hi] at child
      exact Work.stored_fits child (grove.fits i hi) low (by omega)

theorem Filed.blockOf (filed : Filed Held taken w inode y) (deep : 10 < depth) (f b : Nat) :
    w.blockOf depth inode f = some b ↔ y.Maps f b := by
  rw [Work.blockOf_eq_some, Work.mapLookup]
  cases filed with
  | empty format _ =>
      rw [if_pos format]
      exact ⟨fun some => (by obtain ⟨n, run⟩ := some; cases run), fun none => none.elim⟩
  | @inline es format parse sorted listed =>
      rw [if_neg (by rw [format]; decide), if_pos format, parse]
      by_cases mapped : ∃ e ∈ extentsParse inode.payload, e.Maps f
      · rw [parse] at mapped
        obtain ⟨e, member, low, high⟩ := mapped
        obtain ⟨_, ⟨place, room⟩, _⟩ := listed.sound e member
        rw [extentLookup_in listed.apart member ⟨low, high⟩ (by omega)]
        constructor
        · rintro ⟨n, run⟩
          cases run
          exact ⟨e, member, low, high, rfl⟩
        · rintro ⟨e', member', low', high', rfl⟩
          have same : e' = e := by
            by_contra other
            have away := listed.apart.forall member member' (Ne.symm other)
            simp only [Extent.Apart] at away
            omega
          rw [same]
          exact ⟨_, rfl⟩
      · rw [parse] at mapped
        have hole : ∃ n, extentLookup f es U64_MAX = .ok (.hole (n - f)) ∧ ∀ e ∈ es,
            f < e.fileBlock → n ≤ e.fileBlock :=
          extentLookup_out fun e member maps => mapped ⟨e, member, maps⟩
        obtain ⟨n, hole, _⟩ := hole
        rw [hole]
        refine ⟨fun some => (by obtain ⟨n, run⟩ := some; cases run), ?_⟩
        rintro ⟨e, member, low, high, _⟩
        exact absurd ⟨e, member, low, high⟩ mapped
  | @tree l kids format grove =>
      obtain ⟨slots, ⟨_, level, same⟩, stored⟩ := grove.shown
      have low := grove.low
      rw [if_neg (by rw [format]; decide), if_neg (by rw [format]; decide), if_pos format, level,
          cov_run low]
      show (∃ n, (if f / NODE_FANOUT ^ l ≥ ROOT_FANOUT then _ else _) = _) ↔
          Maps NODE_FANOUT ROOT_FANOUT kids l 0 f b
      by_cases inside : f < ROOT_FANOUT * NODE_FANOUT ^ l
      · obtain ⟨index, rest, sum, first, last⟩ := split_rel (s := 0) inside
        rw [Nat.zero_add f] at sum first last
        have child := stored _ index
        rw [← same _ index] at child
        rw [if_neg (Nat.not_le.mpr index)]
        refine (Work.stored_lookup (s := 0 + f / NODE_FANOUT ^ l * NODE_FANOUT ^ l) (b := b) child
            (grove.fits _ index) low
          (by omega : l ≤ depth) rest
          s!"bad root child state {rootState inode.payload (f / NODE_FANOUT ^ l)}").trans ?_
        rw [← sum]
        exact (maps_child grove.fits index first last b).symm
      · have some : 0 < NODE_FANOUT ^ l := Nat.pow_pos (by decide)
        rw [if_pos ((Nat.le_div_iff_mul_le some).mpr (Nat.not_lt.mp inside))]
        refine ⟨fun some => (by obtain ⟨n, run⟩ := some; cases run), fun maps => ?_⟩
        have range := Radix.Maps.range maps grove.fits
        omega

theorem collectRuns_fresh {fresh : List (Nat × Nat)} {limit : Nat} : ∀ fuel {pos out},
    w.collectRuns depth inode fresh limit fuel pos = .ok out → ∀ r ∈ out, r.2.2.2 = true ↔
    Within fresh r.1 := by
  intro fuel
  induction fuel with
  | zero => exact fun run => by cases run
  | succ fuel ih =>
      intro pos out run r member
      rw [Work.collectRuns] at run
      split at run
      · obtain ⟨m, _, run⟩ := bind_inv run
        cases m with
        | hole n => cases run
        | run blk n =>
            obtain ⟨rest, later, run⟩ := bind_inv run
            cases run
            rcases List.mem_cons.mp member with rfl | behind
            · simp [Within]
            · exact ih later r behind
      · cases run
        exact absurd member List.not_mem_nil

/-- What `map_ensure` of `[fblock, fblock + n)` returns, and what the file maps then: its runs
follow each other, nothing that was mapped moved, and what is new is in the range, in blocks that
nothing had. A run is flagged fresh as its first block is new. -/
structure RangeMapped (taken : Nat → Prop) (w : Work) (depth : Nat) (inode : Inode) (fblock n : Nat)
    (runs : List (Nat × Nat × Nat × Bool)) (w' : Work) (inode' : Inode) : Prop where
  tiles : Tiles fblock (fblock + n) (runs.map fun r => (r.1, r.2.2.1))
  agree : ∀ r ∈ runs, ∀ k < r.2.2.1, w'.blockOf depth inode' (r.1 + k) = some (r.2.1 + k)
  fresh : ∀ r ∈ runs, r.2.2.2 = true ↔ w.blockOf depth inode r.1 = none
  kept : ∀ f b, w.blockOf depth inode f = some b → w'.blockOf depth inode' f = some b
  new : ∀ f b, w'.blockOf depth inode' f = some b → w.blockOf depth inode f = none → fblock ≤ f ∧
      f < fblock + n ∧ ¬ taken b
  rest : Remapped inode inode'

theorem Ranged.collected {fblock n : Nat} {out : Inode × List (Nat × Nat)} (deep : 10 < depth)
    (short : fblock + n ≤ 2 ^ 53)
    (filed : Filed Held taken w inode y) (ranged : Ranged Held taken w inode y fblock n out w') :
    ∃ runs, Allocator.runsOf depth out.1 fblock n out.2 w' = (.ok runs, w') ∧
      RangeMapped taken w depth inode fblock n runs w' out.1 ∧ ∃ y',
      Filed Held (fun b => taken b ∨ 0 < y'.uses b) w' out.1 y' ∧
        (∀ b, taken b → y'.uses b = y.uses b) ∧ Untouched (fun b => taken b ∧ ¬ y.HasNode b) w
        w' := by
  obtain ⟨inode', fresh⟩ := out
  obtain ⟨remapped, y', R, extended, ensured⟩ := ranged
  have filed' := extended.filed
  have before := filed.blockOf deep
  have after := filed'.blockOf deep
  dsimp only at filed' after ensured remapped ⊢
  have look : Allocator.runsOf depth inode' fblock n fresh w' =
      (w'.collectRuns depth inode' fresh (fblock + n) (n + 1) fblock, w') := rfl
  rcases Work.collectRuns_run (filed'.wellFormed deep).sound fresh short (Nat.le_add_right fblock n)
      (show fblock + n - fblock < n + 1 by omega) with ⟨out, run, tiles, agree⟩ | ⟨f, start, stop,
      hole, _⟩
  · have mapped : ∀ r ∈ out, fblock ≤ r.1 ∧ r.1 < fblock + n := by
      intro r member
      have piece := tiles.piece _ (List.mem_map_of_mem member)
      dsimp only at piece
      omega
    have unmapped : ∀ f, w.blockOf depth inode f = none ↔ ∀ b, ¬ y.Maps f b := by
      intro f
      rw [Option.eq_none_iff_forall_ne_some]
      exact forall_congr' fun b => not_congr (before f b)
    refine ⟨out, by rw [look, run], ⟨tiles, agree, fun r member => ?_, fun f b maps => ?_,
        fun f b maps hole => ?_, remapped⟩,
      y', filed', extended.adds.same, extended.frame⟩
    · obtain ⟨start, stop⟩ := mapped r member
      rw [collectRuns_fresh _ run r member, ensured.listed, unmapped]
      constructor
      · rintro (none | ⟨b, pair⟩)
        · exact absurd none (by simp [Within])
        · exact (ensured.new r.1 b pair).2.2.2
      · intro hole
        obtain ⟨b, maps⟩ := ensured.full r.1 start stop
        exact Or.inr ⟨b, ((extended.adds.maps r.1 b).mp maps).resolve_left (hole b)⟩
    · exact (after f b).mpr ((extended.adds.maps f b).mpr (Or.inl ((before f b).mp maps)))
    · have new := ((extended.adds.maps f b).mp ((after f b).mp maps)).resolve_left
          ((unmapped f).mp hole b)
      obtain ⟨start, stop, free, _⟩ := ensured.new f b new
      exact ⟨start, stop, free⟩
  · obtain ⟨b, maps⟩ := ensured.full f start stop
    rw [(after f b).mpr maps] at hole
    cases hole

/-- `map_ensure` maps the range, moves nothing, and fails only as the allocator does: no child is
refined below level 0, no state is bad, no hole is left. -/
theorem map_ensure_fills (ledger : Ledger A Refuses Held) {fblock n : Nat} (deep : 10 < depth)
    (short : fblock + n ≤ 2 ^ 53)
    (filed : Filed Held taken w inode y) :
    wp (A.mapEnsure depth inode fblock n) (fun out w' =>
    RangeMapped taken w depth inode fblock n out.1 w' out.2 ∧
      ∃ y', Filed Held (fun b => taken b ∨ 0 < y'.uses b) w' out.2 y' ∧
      (∀ b, taken b → y'.uses b = y.uses b) ∧
        Untouched (fun b => taken b ∧ ¬ y.HasNode b) w w') Refuses w := by
  rw [Allocator.mapEnsure, wp_bind]
  refine wp_mono (mapRange_wp ledger deep short filed) ?_ fun _ _ => id
  rintro out w' ranged
  obtain ⟨runs, run, mapped⟩ := ranged.collected deep short filed
  rw [wp_bind, wp_run run]
  exact mapped

end Looking

end FiveFs
