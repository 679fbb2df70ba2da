import FiveFs.Reading
import FiveFs.Layout
import FiveFs.Mkfs
import FiveFs.Lib.Tile
import Mathlib.Data.List.Basic

/-! What the lengths in lookup results promise, and the loops that skip ahead by them. -/

namespace FiveFs

open Buffer Prog

namespace Work

variable [Crc32c]

/-- The block that file block `fb` is mapped to. -/
def blockOf (w : Work) (depth : Nat) (inode : Inode) (fb : Nat) : Option Nat :=
  match w.mapLookup depth inode fb with
  | .ok (.run blk _) => some blk
  | _ => none

/-- The node at `addr` and the nodes below it. -/
def nodesBelow (w : Work) : Nat → Nat → List Nat
  | 0, _ => []
  | depth + 1, addr => addr ::
      match w.nodeRead addr with
      | .error _ => []
      | .ok buf => (List.range NODE_FANOUT).flatMap fun i =>
          if nodeState buf i = CELL_REFINED then w.nodesBelow depth (nodeChild buf i).2 else []

/-- The node blocks of a mapping. -/
def nodes (w : Work) (depth : Nat) (inode : Inode) : List Nat :=
  if inode.format = FMT_TREE then
    (List.range ROOT_FANOUT).flatMap fun i =>
      if rootState inode.payload i = CELL_REFINED then w.nodesBelow depth
          (rootChild inode.payload i).2 else []
  else []

/-- A well-formed mapping: inline extents map no block twice, and in a tree the runs stay within
their children and each node spans the child it refines. -/
def WellFormed (w : Work) (depth : Nat) (inode : Inode) : Prop :=
  inode.format = FMT_EMPTY ∨ inode.format = FMT_EMBED ∨
    (inode.format = FMT_EXTENT ∧ (extentsParse inode.payload).Pairwise Extent.Apart ∧
      ∀ e ∈ extentsParse inode.payload, e.blk + e.blocks ≤ 2 ^ 64) ∨
    (inode.format = FMT_TREE ∧ ∃ c, cov (rootLevel inode.payload) = .ok c ∧
      ∀ i < ROOT_FANOUT, ChildFits (rootState inode.payload i) (rootChild inode.payload i) c
        (w.Spans depth (rootChild inode.payload i).2 c))

/-- The mapped blocks are on the device, apart from the nodes of the mapping. -/
structure Placed (w : Work) (depth : Nat) (inode : Inode) : Prop where
  mapped : ∀ fb blk, w.blockOf depth inode fb = some blk → ∃ off,
      w.fs.map.resolve blk w.blocksize = some off ∧
    off + w.blocksize ≤ w.fs.dev.fileLen
  apart : ∀ fb blk off, w.blockOf depth inode fb = some blk →
      w.fs.map.resolve blk w.blocksize = some off →
    ∀ a ∈ w.nodes depth inode, ∀ o, w.fs.map.resolve a w.blocksize = some o →
    Apart off w.blocksize o w.blocksize

/-- What a lookup says of the blocks behind the one it is asked for is what looking them up says. -/
structure Sound (w : Work) (depth : Nat) (inode : Inode) : Prop where
  found : ∀ fb < 2 ^ 53, ∃ m, w.mapLookup depth inode fb = .ok m
  run : ∀ fb < 2 ^ 53, ∀ blk n, w.mapLookup depth inode fb = .ok (.run blk n) → 1 ≤ n ∧
    ∀ k < n, ∃ m, w.mapLookup depth inode (fb + k) = .ok (.run (blk + k) m)
  hole : ∀ fb < 2 ^ 53, ∀ n, w.mapLookup depth inode fb = .ok (.hole n) → 1 ≤ n ∧
    ∀ k < n, ∃ m, w.mapLookup depth inode (fb + k) = .ok (.hole m)

variable {w : Work} {depth : Nat} {inode : Inode}

theorem len_pos {fb : Nat} {m : Map} (short : fb < 2 ^ 53)
    (found : w.mapLookup depth inode fb = .ok m) : 1 ≤ m.len := by
  rcases mapLookup_len found with some | ⟨behind, -⟩
  · exact some
  · rw [U64_MAX] at behind
    omega

theorem sound_of_holes (n : Nat) (look : ∀ fb, w.mapLookup depth inode fb = .ok (.hole n)) :
    w.Sound depth inode where
  found fb _ := ⟨_, look fb⟩
  run fb _ blk n found := by
    rw [look] at found
    cases found
  hole fb short n found := ⟨len_pos short found, fun k _ => ⟨_, look (fb + k)⟩⟩

theorem sound_of_extents (format : inode.format = FMT_EXTENT)
    (apart : (extentsParse inode.payload).Pairwise Extent.Apart)
    (short : ∀ e ∈ extentsParse inode.payload, e.blk + e.blocks ≤ 2 ^ 64) :
    w.Sound depth inode := by
  have look : ∀ fb, w.mapLookup depth inode fb = extentLookup fb (extentsParse inode.payload)
      U64_MAX := by
    intro fb
    rw [mapLookup, if_neg (by rw [format]; decide), if_pos format]
  have inside : ∀ e ∈ extentsParse inode.payload, ∀ fb, e.Maps fb → w.mapLookup depth inode fb =
      .ok (.run (e.blk + (fb - e.fileBlock)) (e.blocks - (fb - e.fileBlock))) := by
    intro e member fb maps
    rw [look, extentLookup_in apart member maps (short e member)]
  have outside : ∀ fb, (∀ e ∈ extentsParse inode.payload, ¬ e.Maps fb) →
      ∃ n, w.mapLookup depth inode fb =
      .ok (.hole (n - fb)) ∧ ∀ e ∈ extentsParse inode.payload, fb < e.fileBlock →
      n ≤ e.fileBlock := by
    intro fb missed
    rw [look]
    exact extentLookup_out missed
  constructor
  · intro fb _
    by_cases some : ∃ e ∈ extentsParse inode.payload, e.Maps fb
    · obtain ⟨e, member, maps⟩ := some
      exact ⟨_, inside e member fb maps⟩
    · obtain ⟨n, found, -⟩ := outside fb fun e member maps => some ⟨e, member, maps⟩
      exact ⟨_, found⟩
  · intro fb low blk n found
    refine ⟨len_pos low found, fun k hk => ?_⟩
    by_cases some : ∃ e ∈ extentsParse inode.payload, e.Maps fb
    · obtain ⟨e, member, maps⟩ := some
      have first := inside e member fb maps
      rw [found] at first
      cases first
      obtain ⟨start, stop⟩ := maps
      have next := inside e member (fb + k) ⟨by omega, by omega⟩
      have place : e.blk + (fb + k - e.fileBlock) = e.blk + (fb - e.fileBlock) + k := by omega
      rw [place] at next
      exact ⟨_, next⟩
    · obtain ⟨n, hole, -⟩ := outside fb fun e member maps => some ⟨e, member, maps⟩
      rw [found] at hole
      cases hole
  · intro fb low n found
    refine ⟨len_pos low found, fun k hk => ?_⟩
    by_cases some : ∃ e ∈ extentsParse inode.payload, e.Maps fb
    · obtain ⟨e, member, maps⟩ := some
      have run := inside e member fb maps
      rw [found] at run
      cases run
    · have missed : ∀ e ∈ extentsParse inode.payload, ¬ e.Maps fb :=
          fun e member maps => some ⟨e, member, maps⟩
      obtain ⟨stop, hole, starts⟩ := outside fb missed
      rw [found] at hole
      cases hole
      obtain ⟨m, later, -⟩ := outside (fb + k) (by
        intro e member maps
        have away := missed e member
        have start := starts e member
        simp only [Extent.Maps] at maps away
        omega)
      exact ⟨_, later⟩

theorem sound_of_tree {c : Nat} (format : inode.format = FMT_TREE)
    (covers : cov (rootLevel inode.payload) = .ok c)
    (fits : ∀ i < ROOT_FANOUT, ChildFits (rootState inode.payload i) (rootChild inode.payload i) c
      (w.Spans depth (rootChild inode.payload i).2 c)) : w.Sound depth inode := by
  have tree := mapLookup_coherent format covers (cov_pos covers) fits
  have behind : ∀ fb, ROOT_FANOUT * c ≤ fb → w.mapLookup depth inode fb = .ok (.hole U64_MAX) :=
    fun fb => mapLookup_behind format covers (cov_pos covers)
  constructor
  · intro fb _
    by_cases inside : fb < ROOT_FANOUT * c
    · exact tree.found fb inside
    · exact ⟨_, behind fb (by omega)⟩
  · intro fb low blk n found
    refine ⟨len_pos low found, fun k hk => ?_⟩
    by_cases inside : fb < ROOT_FANOUT * c
    · exact ⟨_, (tree.run fb inside blk n found).2 k hk⟩
    · rw [behind fb (by omega)] at found
      cases found
  · intro fb low n found
    refine ⟨len_pos low found, fun k hk => ?_⟩
    by_cases inside : fb < ROOT_FANOUT * c
    · exact ⟨_, (tree.hole fb inside n found).2 k hk⟩
    · exact ⟨_, behind (fb + k) (by omega)⟩

theorem WellFormed.sound (shape : w.WellFormed depth inode) : w.Sound depth inode := by
  rcases shape with empty | embed | ⟨format, apart, short⟩ | ⟨format, c, covers, fits⟩
  · exact sound_of_holes U64_MAX fun fb => by rw [mapLookup, if_pos (Or.inl empty)]
  · exact sound_of_holes U64_MAX fun fb => by rw [mapLookup, if_pos (Or.inr embed)]
  · exact sound_of_extents format apart short
  · exact sound_of_tree format covers fits

theorem blockOf_run {fb blk n : Nat} (found : w.mapLookup depth inode fb = .ok (.run blk n)) :
    w.blockOf depth inode fb = some blk := by
  rw [blockOf, found]

theorem blockOf_hole {fb n : Nat} (found : w.mapLookup depth inode fb = .ok (.hole n)) :
    w.blockOf depth inode fb = none := by
  rw [blockOf, found]

theorem collectRuns_run (sound : w.Sound depth inode) (fresh : List (Nat × Nat))
    {limit pos fuel : Nat}
    (short : limit ≤ 2 ^ 53) (low : pos ≤ limit) (enough : limit - pos < fuel) :
    (∃ out, w.collectRuns depth inode fresh limit fuel pos = .ok out ∧
      Tiles pos limit (out.map fun r => (r.1, r.2.2.1)) ∧
      ∀ r ∈ out, ∀ k < r.2.2.1, w.blockOf depth inode (r.1 + k) = some (r.2.1 + k)) ∨
    ∃ fb, pos ≤ fb ∧ fb < limit ∧ w.blockOf depth inode fb = none ∧
      w.collectRuns depth inode fresh limit fuel pos = .error
      (.bail s!"collect_runs: hole at {fb} after ensure") := by
  induction fuel generalizing pos with
  | zero => omega
  | succ fuel ih =>
      rw [collectRuns]
      by_cases more : pos < limit
      · rw [if_pos more]
        obtain ⟨m, found⟩ := sound.found pos (by omega)
        cases m with
        | hole n =>
            refine Or.inr ⟨pos, Nat.le_refl _, more, blockOf_hole found, ?_⟩
            rw [found]
            rfl
        | run blk n =>
            obtain ⟨some, next⟩ := sound.run pos (by omega) blk n found
            have low' : pos + min n (limit - pos) ≤ limit := by omega
            have step : 0 < min n (limit - pos) := by omega
            have enough' : limit - (pos + min n (limit - pos)) < fuel := by omega
            rcases ih low' enough' with
              ⟨out, rest, tiles, maps⟩ | ⟨fb, after, before, hole, failed⟩
            · refine Or.inl ⟨(pos, blk, min n (limit - pos),
                  fresh.any fun f => decide (pos ≥ f.1) && decide (pos < f.1 + f.2)) :: out,
                ?_, .cons step tiles, ?_⟩
              · rw [found]
                show (w.collectRuns depth inode fresh limit fuel (pos + min n (limit - pos)) >>=
                _) = _
                rw [rest]
                rfl
              · intro r member k hk
                rcases List.mem_cons.mp member with rfl | later
                · dsimp only at hk ⊢
                  obtain ⟨m, found'⟩ := next k (by omega)
                  exact blockOf_run found'
                · exact maps r later k hk
            · refine Or.inr ⟨fb, by omega, before, hole, ?_⟩
              rw [found]
              show (w.collectRuns depth inode fresh limit fuel (pos + min n (limit - pos)) >>= _) =
                  _
              rw [failed]
              rfl
      · rw [if_neg more]
        obtain rfl : pos = limit := by omega
        exact Or.inl ⟨[], rfl, .nil _, fun r member => absurd member List.not_mem_nil⟩

section Steady

variable {w' : Work}

theorem nodeLookup_congr {addr rel : Nat} (same : ∀ a ∈ w.nodesBelow depth addr,
    w'.nodeRead a = w.nodeRead a) :
    w'.nodeLookup depth addr rel = w.nodeLookup depth addr rel := by
  induction depth generalizing addr rel with
  | zero => rfl
  | succ depth ih =>
      have here : w'.nodeRead addr = w.nodeRead addr := same addr List.mem_cons_self
      rw [nodeLookup, nodeLookup, here]
      cases read : w.nodeRead addr with
      | error e => rfl
      | ok buf =>
          show (cov (nodeLevel buf) >>= _) = (cov (nodeLevel buf) >>= _)
          cases cov (nodeLevel buf) with
          | error e => rfl
          | ok c =>
              show (if rel / c ≥ NODE_FANOUT then _ else _) =
                  (if rel / c ≥ NODE_FANOUT then _ else _)
              by_cases wide : rel / c ≥ NODE_FANOUT
              · rw [if_pos wide, if_pos wide]
              · rw [if_neg wide, if_neg wide]
                by_cases refined : nodeState buf (rel / c) = CELL_REFINED
                · rw [ih]
                  intro a member
                  apply same
                  rw [nodesBelow, read]
                  apply List.mem_cons_of_mem
                  exact List.mem_flatMap.mpr ⟨rel / c, List.mem_range.mpr
                      (by omega), by rwa [if_pos refined]⟩
                · rw [if_neg refined, if_neg refined]

theorem nodesBelow_congr {addr : Nat} (same : ∀ a ∈ w.nodesBelow depth addr,
    w'.nodeRead a = w.nodeRead a) :
    w'.nodesBelow depth addr = w.nodesBelow depth addr := by
  induction depth generalizing addr with
  | zero => rfl
  | succ depth ih =>
      have here : w'.nodeRead addr = w.nodeRead addr := same addr List.mem_cons_self
      rw [nodesBelow, nodesBelow, here]
      cases read : w.nodeRead addr with
      | error e => rfl
      | ok buf =>
          congr 1
          apply List.flatMap_congr
          intro i member
          by_cases refined : nodeState buf i = CELL_REFINED
          · rw [if_pos refined, if_pos refined, ih]
            intro a below
            apply same
            rw [nodesBelow, read]
            apply List.mem_cons_of_mem
            exact List.mem_flatMap.mpr ⟨i, member, by rwa [if_pos refined]⟩
          · rw [if_neg refined, if_neg refined]

theorem mem_nodes {i : Nat} (format : inode.format = FMT_TREE) (child : i < ROOT_FANOUT)
    (refined : rootState inode.payload i = CELL_REFINED) {a : Nat}
    (below : a ∈ w.nodesBelow depth (rootChild inode.payload i).2) : a ∈ w.nodes depth inode := by
  rw [nodes, if_pos format]
  exact List.mem_flatMap.mpr ⟨i, List.mem_range.mpr child, by rwa [if_pos refined]⟩

theorem mapLookup_congr (same : ∀ a ∈ w.nodes depth inode, w'.nodeRead a = w.nodeRead a)
    (fb : Nat) :
    w'.mapLookup depth inode fb = w.mapLookup depth inode fb := by
  rw [mapLookup, mapLookup]
  by_cases format : inode.format = FMT_TREE
  · rw [if_neg (by rw [format]; decide), if_neg (by rw [format]; decide), if_pos format,
      if_neg (by rw [format]; decide), if_neg (by rw [format]; decide), if_pos format]
    cases cov (rootLevel inode.payload) with
    | error e => rfl
    | ok c =>
        show (if fb / c ≥ ROOT_FANOUT then _ else _) = (if fb / c ≥ ROOT_FANOUT then _ else _)
        by_cases wide : fb / c ≥ ROOT_FANOUT
        · rw [if_pos wide, if_pos wide]
        · rw [if_neg wide, if_neg wide]
          by_cases refined : rootState inode.payload (fb / c) = CELL_REFINED
          · rw [nodeLookup_congr fun a below => same a (mem_nodes format (by omega) refined below)]
          · rw [if_neg refined, if_neg refined]
  · rw [if_neg format, if_neg format]

theorem nodes_congr (same : ∀ a ∈ w.nodes depth inode, w'.nodeRead a = w.nodeRead a) :
    w'.nodes depth inode = w.nodes depth inode := by
  by_cases format : inode.format = FMT_TREE
  · rw [nodes, nodes, if_pos format, if_pos format]
    apply List.flatMap_congr
    intro i member
    by_cases refined : rootState inode.payload i = CELL_REFINED
    · rw [if_pos refined, if_pos refined, nodesBelow_congr fun a below =>
        same a (mem_nodes format (List.mem_range.mp member) refined below)]
    · rw [if_neg refined, if_neg refined]
  · rw [nodes, nodes, if_neg format, if_neg format]

end Steady

/-- The work after a write to the device. -/
def poked (w : Work) (ws : List Write) : Work := { w with fs := w.fs.written ws }

omit [Crc32c] in
theorem readBlock_written {g : Gofs} {v : Write} (inside : v.off + v.len ≤ g.dev.fileLen) {a : Nat}
    (apart : ∀ o, g.map.resolve a g.sb.blocksize = some o → Apart v.off v.len o g.sb.blocksize) :
    (Gofs.readBlock a (g.written [v])).1 = (Gofs.readBlock a g).1 := by
  have file : (g.written [v]).dev.fileLen = g.dev.fileLen :=
    Device.pwriteAll_fileLen fun u member => by rw [List.mem_singleton.mp member]; exact inside
  simp only [Gofs.readBlock, Gofs.resolve, bind_run, get_run, Gofs.written_map, Gofs.written_sb]
  cases place : g.map.resolve a g.sb.blocksize with
  | none => rfl
  | some o =>
      have away := apart o place
      simp only [Apart] at away
      simp only [pure_run, Gofs.pread, Device.pread, file]
      by_cases fits : o + g.sb.blocksize ≤ g.dev.fileLen
      · rw [if_pos fits, if_pos fits]
        congr 2
        apply clip_congr
        intro i hi
        rw [drop, drop, Gofs.written_dev, Device.pwriteAll_bytes, Write.applyAll_of_not_covers]
        rintro ⟨u, member, range⟩
        rw [List.mem_singleton.mp member] at range
        omega
      · rw [if_neg fits, if_neg fits]

theorem nodeRead_poked {v : Write} (inside : v.off + v.len ≤ w.fs.dev.fileLen) {a : Nat}
    (apart : ∀ o, w.fs.map.resolve a w.blocksize = some o → Apart v.off v.len o w.blocksize) :
    (w.poked [v]).nodeRead a = w.nodeRead a := by
  have read : (txnRead a (w.poked [v])).1 = (txnRead a w).1 := by
    simp only [txnRead, bind_run, get_run, poked]
    cases w.t.find a with
    | some b => rfl
    | none => exact readBlock_written inside apart
  rw [nodeRead, nodeRead, read]
  rfl

/-- The blocks of the bytes from `pos` to `limit`. -/
def blocksFrom (bs pos limit : Nat) : List Nat :=
  if pos < limit then List.range' (pos / bs) (divCeil limit bs - pos / bs) else []

omit [Crc32c] in
theorem lt_divCeil {bs limit fb : Nat} (block : 0 < bs) : fb < divCeil limit bs ↔
    fb * bs < limit := by
  rw [divCeil, ← Nat.succ_le_iff, Nat.le_div_iff_mul_le block, Nat.succ_mul]
  omega

omit [Crc32c] in
theorem blocksFrom_step {bs pos limit : Nat} (m : Nat) (block : 0 < bs) (more : pos < limit) :
    blocksFrom bs pos limit =
      List.range' (pos / bs) (min m (divCeil limit bs - pos / bs)) ++ blocksFrom bs
      ((pos / bs + m) * bs) limit := by
  have first : pos / bs < divCeil limit bs := (lt_divCeil block).mpr
      (by have := Nat.div_mul_le_self pos bs; omega)
  rw [blocksFrom, if_pos more, blocksFrom, Nat.mul_div_cancel _ block]
  by_cases rest : (pos / bs + m) * bs < limit
  · have inside := (lt_divCeil block).mpr rest
    rw [if_pos rest, min_eq_left (by omega), List.range'_append_1]
    congr 1
    omega
  · have outside : ¬ pos / bs + m < divCeil limit bs :=
        fun inside => rest ((lt_divCeil block).mp inside)
    rw [if_neg rest, min_eq_right (by omega), List.append_nil]

/-- What `zero_tail` writes to one block. -/
def tailWrite (w : Work) (depth : Nat) (inode : Inode) (start limit fb : Nat) : Option Write :=
  (w.blockOf depth inode fb).bind fun blk => (w.fs.map.resolve blk w.blocksize).map fun off =>
    ⟨off + (max start (fb * w.blocksize) - fb * w.blocksize),
      min limit ((fb + 1) * w.blocksize) - max start (fb * w.blocksize), zeros⟩

theorem tail_step {start limit pos k : Nat} (block : 0 < w.blocksize)
    (low : start ≤ k * w.blocksize)
    (inside : k * w.blocksize < limit → pos = k * w.blocksize)
    (outside : limit ≤ k * w.blocksize → limit ≤ pos) :
    (blocksFrom w.blocksize pos limit).filterMap (w.tailWrite depth inode pos limit) =
      (blocksFrom w.blocksize (k * w.blocksize) limit).filterMap
      (w.tailWrite depth inode start limit) := by
  by_cases rest : k * w.blocksize < limit
  · rw [inside rest]
    apply List.filterMap_congr
    intro fb member
    rw [blocksFrom, if_pos rest, Nat.mul_div_cancel _ block] at member
    have behind : k * w.blocksize ≤ fb * w.blocksize :=
      Nat.mul_le_mul_right _ (List.mem_range'_1.mp member).1
    rw [tailWrite, tailWrite, max_eq_right behind, max_eq_right (low.trans behind)]
  · rw [blocksFrom, if_neg (Nat.not_lt.mpr (outside (Nat.not_lt.mp rest))), blocksFrom, if_neg rest]
    rfl

theorem Placed.lookup (placed : w.Placed depth inode) {fb blk off : Nat}
    (maps : w.blockOf depth inode fb = some blk)
    (place : w.fs.map.resolve blk w.blocksize = some off) {v : Write} (low : off ≤ v.off)
    (high : v.off + v.len ≤ off + w.blocksize) :
    (∀ fb, (w.poked [v]).mapLookup depth inode fb = w.mapLookup depth inode fb) ∧
      (w.poked [v]).nodes depth inode = w.nodes depth inode := by
  obtain ⟨off', place', inside⟩ := placed.mapped fb blk maps
  rw [place] at place'
  cases place'
  have same : ∀ a ∈ w.nodes depth inode, (w.poked [v]).nodeRead a = w.nodeRead a := by
    intro a member
    apply nodeRead_poked (by omega)
    intro o found
    have away := placed.apart fb blk off maps place a member o found
    simp only [Apart] at away ⊢
    omega
  exact ⟨mapLookup_congr same, nodes_congr same⟩

theorem blockOf_congr {w' : Work} (same : ∀ fb,
    w'.mapLookup depth inode fb = w.mapLookup depth inode fb) (fb : Nat) :
    w'.blockOf depth inode fb = w.blockOf depth inode fb := by
  rw [blockOf, blockOf, same]

theorem Sound.congr {w' : Work} (sound : w.Sound depth inode)
    (same : ∀ fb, w'.mapLookup depth inode fb = w.mapLookup depth inode fb) :
    w'.Sound depth inode := by
  constructor
  · intro fb low
    rw [same]
    exact sound.found fb low
  · intro fb low blk n found
    rw [same] at found
    simp only [same]
    exact sound.run fb low blk n found
  · intro fb low n found
    rw [same] at found
    simp only [same]
    exact sound.hole fb low n found

theorem Placed.poked (placed : w.Placed depth inode) {v : Write}
    (inside : v.off + v.len ≤ w.fs.dev.fileLen)
    (same : ∀ fb, (w.poked [v]).mapLookup depth inode fb = w.mapLookup depth inode fb)
    (nodes : (w.poked [v]).nodes depth inode = w.nodes depth inode) :
    (w.poked [v]).Placed depth inode := by
  have file : (w.poked [v]).fs.dev.fileLen = w.fs.dev.fileLen :=
    Device.pwriteAll_fileLen fun u member => by rw [List.mem_singleton.mp member]; exact inside
  constructor
  · intro fb blk maps
    rw [blockOf_congr same] at maps
    rw [file]
    exact placed.mapped fb blk maps
  · intro fb blk off maps place a member
    rw [blockOf_congr same] at maps
    rw [nodes] at member
    exact placed.apart fb blk off maps place a member

theorem tailWrite_hole (sound : w.Sound depth inode) {fb n k : Nat} (small : fb < 2 ^ 53)
    (found : w.mapLookup depth inode fb = .ok (.hole n)) (start limit : Nat) (short : k ≤ n) :
    (List.range' fb k).filterMap (w.tailWrite depth inode start limit) = [] := by
  apply List.filterMap_eq_nil_iff.mpr
  intro fb' member
  obtain ⟨first, last⟩ := List.mem_range'_1.mp member
  obtain ⟨m, hole⟩ := (sound.hole _ small n found).2 (fb' - fb) (by omega)
  rw [Nat.add_sub_cancel' first] at hole
  rw [tailWrite, blockOf_hole hole]
  rfl

theorem tailWrite_first {pos limit blk off : Nat} (block : 0 < w.blocksize)
    (maps : w.blockOf depth inode (pos / w.blocksize) = some blk)
    (place : w.fs.map.resolve blk w.blocksize = some off) :
    w.tailWrite depth inode pos limit (pos / w.blocksize) = some ⟨off + pos % w.blocksize,
      min (w.blocksize - pos % w.blocksize) (limit - pos), zeros⟩ := by
  have inBlk := Nat.mod_lt pos block
  have split := Nat.div_add_mod' pos w.blocksize
  have next : (pos / w.blocksize + 1) * w.blocksize = pos - pos % w.blocksize + w.blocksize := by
    rw [Nat.add_mul]
    omega
  have start : max pos (pos / w.blocksize * w.blocksize) = pos := by omega
  rw [tailWrite, maps, Option.bind_some, place, Option.map_some, start, next]
  congr 2
  · omega
  · omega

/-- Each mapped block of the range is written once, in its part of the range. -/
theorem zeroTail_run (sound : w.Sound depth inode) (placed : w.Placed depth inode)
    (block : 2048 ≤ w.blocksize)
    {limit pos fuel : Nat} (short : limit ≤ U64_MAX) (low : pos ≤ U64_MAX)
    (enough : limit - pos < fuel) :
    zeroTail depth inode limit fuel pos w = (.ok (), w.poked
      ((blocksFrom w.blocksize pos limit).filterMap (w.tailWrite depth inode pos limit))) := by
  induction fuel generalizing w pos with
  | zero => omega
  | succ fuel ih =>
      by_cases more : pos < limit
      · have inBlk := Nat.mod_lt pos (show 0 < w.blocksize by omega)
        have split := Nat.div_add_mod' pos w.blocksize
        have small : pos / w.blocksize < 2 ^ 53 := by
          have narrow : pos / w.blocksize ≤ pos / 2048 := Nat.div_le_div_left block (by decide)
          rw [U64_MAX] at low
          omega
        obtain ⟨m, found⟩ := sound.found _ small
        cases m with
        | hole n =>
            have some := (sound.hole _ small n found).1
            have run : zeroTail depth inode limit (fuel + 1) pos w = zeroTail depth inode limit fuel
                (min (pos + max (min (n * w.blocksize) U64_MAX - pos % w.blocksize) 1) U64_MAX)
                w := by
              simp only [zeroTail, if_pos more, bind_run, get_run, Prog.ofExcept, found]
            have size : 1 * w.blocksize ≤ n * w.blocksize := Nat.mul_le_mul_right _ some
            have place : (pos / w.blocksize + n) * w.blocksize = pos - pos %
                w.blocksize + n * w.blocksize := by
              rw [Nat.add_mul]
              omega
            have empty := tailWrite_hole sound small found pos limit
              (min_le_left n (divCeil limit w.blocksize - pos / w.blocksize))
            rw [run, ih sound placed block (min_le_right _ _) (by omega),
                blocksFrom_step n (by omega) more,
              List.filterMap_append, empty, List.nil_append]
            congr 2
            exact tail_step (by omega) (by omega) (by omega) (by omega)
        | run blk n =>
            have maps := blockOf_run found
            obtain ⟨off, place, inside⟩ := placed.mapped _ blk maps
            set v : Write := ⟨off + pos % w.blocksize,
                min (w.blocksize - pos % w.blocksize) (limit - pos), zeros⟩ with hv
            have low' : off ≤ v.off := Nat.le_add_right _ _
            have high : v.off + v.len ≤ off + w.blocksize := by
              simp only [hv]
              omega
            obtain ⟨same, nodes⟩ := placed.lookup maps place low' high
            have placed' := placed.poked (high.trans inside) same nodes
            have run : zeroTail depth inode limit (fuel + 1) pos w = zeroTail depth inode limit fuel
                (pos + min (w.blocksize - pos % w.blocksize) (limit - pos)) (w.poked [v]) := by
              have phys : onFs (Gofs.resolve blk) w = (.ok off, w) := by
                simp only [onFs, zoom, Gofs.resolve, bind_run, get_run]
                rw [show w.fs.sb.blocksize = w.blocksize from rfl, place]
                rfl
              simp only [zeroTail, if_pos more, bind_run, get_run, Prog.ofExcept, found, phys]
              rfl
            have next : (pos / w.blocksize + 1) * w.blocksize = pos - pos %
                w.blocksize + w.blocksize := by
              rw [Nat.add_mul]
              omega
            have tail : (w.poked [v]).tailWrite depth inode = w.tailWrite depth inode := by
              funext start limit fb
              rw [tailWrite, tailWrite, blockOf_congr same]
              rfl
            have first : w.tailWrite depth inode pos limit (pos / w.blocksize) = some v :=
              tailWrite_first (by omega) maps place
            have one : min 1 (divCeil limit w.blocksize - pos / w.blocksize) = 1 := by
              have here : pos / w.blocksize < divCeil limit w.blocksize :=
                  (lt_divCeil (by omega)).mpr (by omega)
              omega
            have rest := ih (sound.congr same) placed' block
              (show pos + min (w.blocksize - pos % w.blocksize) (limit - pos) ≤ U64_MAX by omega)
              (by omega)
            rw [run, rest, blocksFrom_step 1 (by omega) more, one, tail]
            have behind : (blocksFrom w.blocksize (pos + min (w.blocksize - pos % w.blocksize)
                (limit - pos)) limit).filterMap
                (w.tailWrite depth inode (pos + min (w.blocksize - pos % w.blocksize) (limit - pos))
                limit) =
                (blocksFrom w.blocksize ((pos / w.blocksize + 1) * w.blocksize) limit).filterMap
                  (w.tailWrite depth inode pos limit) :=
              tail_step (by omega) (by omega) (by omega) (by omega)
            show (_, ((w.poked [v]).poked ((blocksFrom w.blocksize _ limit).filterMap _))) = _
            rw [behind, poked, poked, Gofs.written_written, List.filterMap_append]
            simp only [List.range'_one, List.filterMap_cons, List.filterMap_nil, first]
            rfl
      · simp only [zeroTail, if_neg more, blocksFrom]
        rfl

end Work

namespace Gofs

variable [Crc32c]

/-- The work of a reader, which has no transaction. -/
def idle (g : Gofs) : Work := { fs := g }

/-- Reading the bytes of `[offset, limit)` that the blocks `[p.1, p.1 + p.2)` hold, of one run or of
one hole. -/
def readPiece (g : Gofs) (depth : Nat) (inode : Inode) (offset limit : Nat) (out : Bytes)
    (p : Nat × Nat) :
    Except Err Bytes := do
  let pos := max offset (p.1 * g.sb.blocksize)
  let n := min limit ((p.1 + p.2) * g.sb.blocksize) - pos
  match ← g.mapLookup depth inode p.1 with
  | .run blk _ =>
      let phys ← (resolve blk g).1
      let buf ← (pread (phys + (pos - p.1 * g.sb.blocksize)) n g).1
      .ok (copyAt out (pos - offset) n buf)
  | .hole _ => .ok out

variable {g : Gofs} {depth offset limit : Nat} {inode : Inode}

/-- What a lookup finds goes on over its length. -/
theorem blockOf_within (sound : g.idle.Sound depth inode) {fb k : Nat} {m : Map}
    (small : fb < 2 ^ 53)
    (found : g.idle.mapLookup depth inode fb = .ok m) (hk : k < m.len) :
    g.idle.blockOf depth inode (fb + k) = (g.idle.blockOf depth inode fb).map (· + k) := by
  cases m with
  | hole n =>
      obtain ⟨m', next⟩ := (sound.hole _ small n found).2 k hk
      rw [Work.blockOf_hole found, Work.blockOf_hole next]
      rfl
  | run blk n =>
      obtain ⟨m', next⟩ := (sound.run _ small blk n found).2 k hk
      rw [Work.blockOf_run found, Work.blockOf_run next]
      rfl

/-- One round of the loop reads one piece. -/
theorem readRuns_round {fuel pos nb step : Nat} {m : Map} (more : pos < limit) (some : 0 < m.len)
    (positive : 0 < g.sb.blocksize)
    (found : g.mapLookup depth inode (pos / g.sb.blocksize) = .ok m)
    (start : max offset (pos / g.sb.blocksize * g.sb.blocksize) = pos)
    (bytes : min limit ((pos / g.sb.blocksize + nb) * g.sb.blocksize) - pos =
      min (m.len * g.sb.blocksize - pos % g.sb.blocksize) (limit - pos))
    (advance : min (m.len * g.sb.blocksize - pos % g.sb.blocksize) (limit - pos) = step)
    (short : limit ≤ U64_MAX) (out : Bytes) :
    g.readRuns depth inode offset limit (fuel + 1) pos out =
      g.readPiece depth inode offset limit out (pos / g.sb.blocksize, nb) >>=
        g.readRuns depth inode offset limit fuel (pos + step) := by
  obtain ⟨bs, hbs⟩ : ∃ bs, g.sb.blocksize = bs := ⟨_, rfl⟩
  rw [hbs] at positive found start bytes advance ⊢
  have inBlk := Nat.mod_lt pos positive
  have split := Nat.div_add_mod' pos bs
  have size : 1 * bs ≤ m.len * bs := Nat.mul_le_mul_right _ some
  rw [readRuns, if_pos more, readPiece]
  simp only [hbs, found, start, bytes, advance]
  cases m with
  | hole n =>
      have skip : max (min (min (n * bs) U64_MAX - pos % bs) (limit - pos)) 1 = step := by
        rw [Map.len] at advance size
        omega
      show g.readRuns depth inode offset limit fuel (pos + max _ 1) out = _
      rw [skip]
      rfl
  | run blk n =>
      rw [Map.len] at advance
      have inside : pos - pos / bs * bs = pos % bs := by omega
      show ((resolve blk g).1 >>= _) = (((resolve blk g).1 >>= _) >>= _)
      rw [inside]
      cases (resolve blk g).1 with
      | error e => rfl
      | ok phys =>
          show ((pread (phys + pos % bs) (min (n * bs - pos % bs) (limit - pos)) g).1 >>= _) =
              _
          rw [advance]
          show _ = (((pread (phys + pos % bs) step g).1 >>= _) >>= _)
          cases (pread (phys + pos % bs) step g).1 with
          | error e => rfl
          | ok buf => rfl

/-- The read loop is a loop over pieces that take each block of the range once. -/
theorem readRuns_pieces (sound : g.idle.Sound depth inode) (block : 2048 ≤ g.sb.blocksize)
    (short : limit ≤ U64_MAX)
    {fuel pos : Nat} (low : offset ≤ pos) (aligned : pos = offset ∨ pos % g.sb.blocksize = 0)
    (more : pos < limit)
    (enough : limit - pos ≤ fuel) :
    ∃ ps, Tiles (pos / g.sb.blocksize) (divCeil limit g.sb.blocksize) ps ∧
      (∀ p ∈ ps, ∀ k < p.2, g.idle.blockOf depth inode
      (p.1 + k) = (g.idle.blockOf depth inode p.1).map (· + k)) ∧
      ∀ out, g.readRuns depth inode offset limit fuel pos out =
        ps.foldlM (g.readPiece depth inode offset limit) out := by
  induction fuel generalizing pos with
  | zero => omega
  | succ fuel ih =>
      obtain ⟨bs, hbs⟩ : ∃ bs, g.sb.blocksize = bs := ⟨_, rfl⟩
      rw [hbs] at block aligned ih ⊢
      have inBlk := Nat.mod_lt pos (show 0 < bs by omega)
      have split := Nat.div_add_mod' pos bs
      have small : pos / bs < 2 ^ 53 := by
        have narrow : pos / bs ≤ pos / 2048 := Nat.div_le_div_left block (by decide)
        rw [U64_MAX] at short
        omega
      have start : max offset (pos / bs * bs) = pos := by omega
      have first : pos / bs < divCeil limit bs := (Work.lt_divCeil (by omega)).mpr (by omega)
      obtain ⟨m, found⟩ := sound.found _ small
      have some : 0 < m.len := Work.len_pos small found
      have size : 1 * bs ≤ m.len * bs := Nat.mul_le_mul_right _ some
      have place : (pos / bs + m.len) * bs = pos - pos % bs + m.len * bs := by
        rw [Nat.add_mul]
        omega
      obtain ⟨nb, piece⟩ : ∃ nb, min m.len (divCeil limit bs - pos / bs) = nb := ⟨_, rfl⟩
      have maps : ∀ k < nb, g.idle.blockOf depth inode (pos / bs + k) =
          (g.idle.blockOf depth inode (pos / bs)).map (· + k) := by
        intro k hk
        exact blockOf_within sound small found (by omega)
      have bytes : min limit ((pos / bs + nb) * bs) - pos = min (m.len * bs - pos % bs)
          (limit - pos) := by
        by_cases rest : (pos / bs + m.len) * bs < limit
        · have inside : pos / bs + m.len < divCeil limit bs := (Work.lt_divCeil (by omega)).mpr rest
          obtain rfl : m.len = nb := by omega
          omega
        · have outside : ¬ pos / bs + m.len < divCeil limit bs :=
            fun inside => rest ((Work.lt_divCeil (by omega)).mp inside)
          have whole : pos / bs + nb = divCeil limit bs := by omega
          have last : ¬ divCeil limit bs * bs < limit :=
            fun inside => Nat.lt_irrefl _ ((Work.lt_divCeil (by omega)).mpr inside)
          rw [whole]
          omega
      obtain ⟨step, advance⟩ : ∃ step, min (m.len * bs - pos % bs) (limit - pos) = step := ⟨_, rfl⟩
      have round : ∀ out, g.readRuns depth inode offset limit (fuel + 1) pos out =
          g.readPiece depth inode offset limit out (pos / bs, nb) >>=
            g.readRuns depth inode offset limit fuel (pos + step) := by
        subst hbs
        exact readRuns_round more some (by omega) found start bytes advance short
      by_cases rest : pos + step < limit
      · have inside : pos / bs + m.len < divCeil limit bs :=
            (Work.lt_divCeil (by omega)).mpr (by omega)
        have next : pos + step = (pos / bs + m.len) * bs := by omega
        obtain ⟨ps, tiles, agree, loop⟩ := @ih (pos + step) (by omega)
          (Or.inr (by rw [next]; exact Nat.mul_mod_left _ _)) rest (by omega)
        obtain rfl : m.len = nb := by omega
        refine ⟨(pos / bs, m.len) :: ps, .cons some ?_, ?_, ?_⟩
        · rwa [next, Nat.mul_div_cancel _ (by omega)] at tiles
        · intro p member
          rcases List.mem_cons.mp member with rfl | later
          · exact maps
          · exact agree p later
        · intro out
          rw [round, List.foldlM_cons]
          congr 1
          funext out
          exact loop out
      · have whole : pos / bs + nb = divCeil limit bs := by
          have outside : ¬ pos / bs + m.len < divCeil limit bs := by
            intro inside
            have reached := (Work.lt_divCeil (by omega)).mp inside
            omega
          omega
        refine ⟨[(pos / bs, nb)], .cons (by omega) (whole ▸ .nil _), ?_, ?_⟩
        · intro p member
          rw [List.mem_singleton.mp member]
          exact maps
        · intro out
          rw [round, List.foldlM_cons]
          congr 1
          funext out
          exact readRuns_done (by omega)

theorem readInodeData_pieces (sound : g.idle.Sound depth inode) (block : 2048 ≤ g.sb.blocksize)
    (format : inode.format = FMT_EXTENT ∨ inode.format = FMT_TREE) (size : inode.size ≤ U64_MAX)
    {len : Nat}
    (more : offset < inode.size) (some : 0 < len) :
    ∃ n ps, n = min len (inode.size - offset) ∧
      Tiles (offset / g.sb.blocksize) (divCeil (offset + n) g.sb.blocksize) ps ∧
      (∀ p ∈ ps, ∀ k < p.2, g.idle.blockOf depth inode
      (p.1 + k) = (g.idle.blockOf depth inode p.1).map (· + k)) ∧
      g.readInodeData depth inode offset len =
        (ps.foldlM (g.readPiece depth inode offset (offset + n)) zeros).map fun out =>
        (n, out) := by
  obtain ⟨ps, tiles, agree, loop⟩ := readRuns_pieces sound block
    (show offset + min len (inode.size - offset) ≤ U64_MAX by omega) (Nat.le_refl offset)
    (Or.inl rfl) (by omega)
    (show offset + min len (inode.size - offset) - offset ≤ min len (inode.size - offset) by omega)
  refine ⟨_, ps, rfl, tiles, agree, ?_⟩
  have other : inode.format ≠ FMT_EMPTY ∧ inode.format ≠ FMT_EMBED := by
    rcases format with h | h <;> rw [h] <;> decide
  rw [readInodeData, if_neg (by omega)]
  simp only [if_neg other.1, if_neg other.2, if_pos format, loop]
  rfl

end Gofs

/-- In a well-formed mapping the lengths of lookups hold for every block they are about, and the
loops that skip by them end, having taken each block of their range once. -/
theorem Work.lookup_lengths [Crc32c] {w : Work} {depth : Nat} {inode : Inode}
    (shape : w.WellFormed depth inode)
    (block : 2048 ≤ w.blocksize) :
    (∀ fb < 2 ^ 53, ∃ m, w.mapLookup depth inode fb = .ok m) ∧
    (∀ fb < 2 ^ 53, ∀ blk n, w.mapLookup depth inode fb = .ok (.run blk n) → 1 ≤ n ∧
      ∀ k < n, ∃ m, w.mapLookup depth inode (fb + k) = .ok (.run (blk + k) m)) ∧
    (∀ fb < 2 ^ 53, ∀ n, w.mapLookup depth inode fb = .ok (.hole n) → 1 ≤ n ∧
      ∀ k < n, ∃ m, w.mapLookup depth inode (fb + k) = .ok (.hole m)) ∧
    (∀ offset len, w.t = {} → inode.format = FMT_EXTENT ∨ inode.format = FMT_TREE →
        inode.size ≤ U64_MAX →
      offset < inode.size → 0 < len → ∃ (n : Nat) (ps : List (Nat × Nat)),
      n = min len (inode.size - offset) ∧
        (∀ fb, offset / w.blocksize ≤ fb → fb < divCeil (offset + n) w.blocksize →
        ps.countP (Tiles.Meets fb) = 1) ∧
        (∀ p ∈ ps, ∀ k < p.2, w.blockOf depth inode (p.1 + k) = (w.blockOf depth inode p.1).map
        (· + k)) ∧
        w.fs.readInodeData depth inode offset len =
          (ps.foldlM (w.fs.readPiece depth inode offset (offset + n)) zeros).map fun out =>
          (n, out)) ∧
    (∀ start limit, w.Placed depth inode → start ≤ U64_MAX → limit ≤ U64_MAX →
      zeroTail depth inode limit (limit - start + 1) start w = (.ok (), w.poked
        ((blocksFrom w.blocksize start limit).filterMap (w.tailWrite depth inode start limit)))) ∧
    ∀ fresh fblock n, fblock + n ≤ 2 ^ 53 →
      (∃ out, w.collectRuns depth inode fresh (fblock + n) (n + 1) fblock = .ok out ∧
        (∀ fb, fblock ≤ fb → fb < fblock + n → out.countP
        (fun r => Tiles.Meets fb (r.1, r.2.2.1)) = 1) ∧
        ∀ r ∈ out, ∀ k < r.2.2.1, w.blockOf depth inode (r.1 + k) = some (r.2.1 + k)) ∨
      ∃ fb, fblock ≤ fb ∧ fb < fblock + n ∧ w.blockOf depth inode fb = none ∧
        w.collectRuns depth inode fresh (fblock + n) (n + 1) fblock =
          .error (.bail s!"collect_runs: hole at {fb} after ensure") := by
  have sound := shape.sound
  refine ⟨sound.found, sound.run, sound.hole, ?_, ?_, ?_⟩
  · intro offset len idle format size more some
    have reader : w.fs.idle = w := by
      cases w
      cases idle
      rfl
    have pieces := Gofs.readInodeData_pieces (g := w.fs) (by rw [reader]; exact sound) block format
        size more some
    rw [reader] at pieces
    obtain ⟨n, ps, rest, tiles, agree, read⟩ := pieces
    exact ⟨n, ps, rest, fun fb low high => tiles.countP_eq_one low high, agree, read⟩
  · intro start limit placed low short
    exact zeroTail_run sound placed block short low (Nat.lt_succ_self _)
  · intro fresh fblock n short
    rcases collectRuns_run sound fresh short (Nat.le_add_right fblock n)
      (show fblock + n - fblock < n + 1 by omega) with ⟨out, run, tiles, maps⟩ | failed
    · refine Or.inl ⟨out, run, fun fb low high => ?_, maps⟩
      have once := tiles.countP_eq_one low high
      rwa [List.countP_map] at once
    · exact Or.inr failed

/-- Zeroing the last 3000 bytes of a file of two blocks writes the end of the first and all of the
second. -/
theorem lookup_lengths_pair : @Work.zeroTail castagnoli 0 (pairInode (blkAddr 1 255)) 4096 3001 1096
    stripedVolume.idle =
    (.ok (), stripedVolume.idle.poked [⟨8388608 + 255 * 2048 + 1096, 952, zeros⟩,
    ⟨8388608 + 256 * 2048, 2048, zeros⟩]) := by
  let _crc := castagnoli
  have stored : extentsParse (pairInode (blkAddr 1 255)).payload = [⟨0, blkAddr 1 255, 2⟩] := by
    decide
  have first : stripedVolume.map.resolve (blkAddr 1 255) 2048 = some (8388608 + 255 * 2048) := by
    decide
  have second : stripedVolume.map.resolve (blkAddr 1 255 + 1) 2048 = some
      (8388608 + 256 * 2048) := by decide
  have look : ∀ fb, stripedVolume.idle.blockOf 0 (pairInode (blkAddr 1 255)) fb =
      if fb < 2 then some (blkAddr 1 255 + fb) else none := by
    intro fb
    have found := pair_lookup (g := stripedVolume) stored (by decide) fb
    split at found
    · rw [if_pos ‹_›]
      exact Work.blockOf_run found
    · rw [if_neg ‹_›]
      exact Work.blockOf_hole found
  have shape : stripedVolume.idle.WellFormed 0 (pairInode (blkAddr 1 255)) := by
    refine Or.inr (Or.inr (Or.inl ⟨rfl, ?_, ?_⟩))
    · rw [stored]
      exact List.pairwise_singleton _ _
    · rw [stored]
      intro e member
      rw [List.mem_singleton.mp member]
      decide
  have placed : stripedVolume.idle.Placed 0 (pairInode (blkAddr 1 255)) := by
    constructor
    · intro fb blk maps
      rw [look] at maps
      split at maps
      · cases maps
        have either : fb = 0 ∨ fb = 1 := by omega
        rcases either with rfl | rfl
        · exact ⟨_, first, by decide⟩
        · exact ⟨_, second, by decide⟩
      · cases maps
    · intro fb blk off _ _ a member
      cases member
  have run := (Work.lookup_lengths shape (by decide)).2.2.2.2.1 1096 4096 placed (by decide)
      (by decide)
  refine run.trans ?_
  have writes : (Work.blocksFrom 2048 1096 4096).filterMap
      (stripedVolume.idle.tailWrite 0 (pairInode (blkAddr 1 255)) 1096 4096) =
      [⟨8388608 + 255 * 2048 + 1096, 952, zeros⟩, ⟨8388608 + 256 * 2048, 2048, zeros⟩] := by
    have blocks : Work.blocksFrom 2048 1096 4096 = [0, 1] := by decide
    have zero : stripedVolume.idle.tailWrite 0 (pairInode (blkAddr 1 255)) 1096 4096 0 =
        some ⟨8388608 + 255 * 2048 + 1096, 952, zeros⟩ := by
      rw [Work.tailWrite, look, if_pos (by decide), Option.bind_some]
      show (stripedVolume.map.resolve (blkAddr 1 255) 2048).map _ = _
      rw [first]
      rfl
    have one : stripedVolume.idle.tailWrite 0 (pairInode (blkAddr 1 255)) 1096 4096 1 =
        some ⟨8388608 + 256 * 2048, 2048, zeros⟩ := by
      rw [Work.tailWrite, look, if_pos (by decide), Option.bind_some]
      show (stripedVolume.map.resolve (blkAddr 1 255 + 1) 2048).map _ = _
      rw [second]
      rfl
    rw [blocks, List.filterMap_cons, zero, List.filterMap_cons, one]
    rfl
  show (_, stripedVolume.idle.poked ((Work.blocksFrom 2048 1096 4096).filterMap _)) = _
  rw [writes]

end FiveFs
