import FiveFs.Layout
import FiveFs.Mapping

/-! Opening a volume whose journal is empty: what the superblock and the AG map copies say is what
the handle starts with. -/

namespace FiveFs

open Buffer Prog

namespace Gofs

theorem resolve_wp (blk : Nat) (g : Gofs) : wp (resolve blk) (fun _ g' => g' = g) Fails g := by
  rw [resolve, wp_bind, wp_get]
  split
  · rfl
  · trivial

theorem journalRead_wp (idx : Nat) (g : Gofs) :
    wp (journalRead idx) (fun _ g' => g' = g) Fails g := by
  simp only [journalRead, journalPhys, wp_bind, wp_get, wp_ite, wp_bail]
  split
  · trivial
  · apply wp_mono (resolve_wp _ g)
    · rintro off g' rfl
      exact pread_wp _ _ g'
    · exact fun _ _ _ => trivial

theorem journalReadData_wp (idx n : Nat) (g : Gofs) :
    wp (journalReadData idx n) (fun _ g' => g' = g) Fails g := by
  induction n generalizing idx with
  | zero => rfl
  | succ n ih =>
      rw [journalReadData, wp_bind]
      apply wp_mono (journalRead_wp idx g)
      · rintro data g' rfl
        rw [wp_bind]
        exact wp_mono (ih (idx + 1)) (fun _ g'' same => same) fun _ _ _ => trivial
      · exact fun _ _ _ => trivial

theorem applyBlocks_wp (blocks : List (Nat × Bytes)) (g : Gofs) :
    wp (applyBlocks blocks) (fun _ g' => g.Steady g') Fails g := by
  induction blocks generalizing g with
  | nil => exact .refl g
  | cons block rest ih =>
      rw [applyBlocks, wp_bind, writeBlock, wp_bind, wp_get, wp_bind]
      apply wp_mono (resolve_wp _ g)
      · rintro off g' rfl
        rw [pwrite, wp_modify]
        apply wp_mono (ih _)
        · exact fun _ g'' steady =>
            ⟨steady.entries, steady.size, steady.blocksize, steady.agmapLength, steady.inodesize⟩
        · exact fun _ _ _ => trivial
      · exact fun _ _ _ => trivial

variable [Crc32c]

theorem tryReadTxn_wp (pos seq : Nat) (g : Gofs) :
    wp (tryReadTxn pos seq) (fun _ g' => g' = g) Fails g := by
  simp only [tryReadTxn, wp_bind, wp_get, wp_ite]
  split
  · rfl
  · apply wp_mono (journalRead_wp pos g)
    · rintro desc g' rfl
      split
      · rfl
      · split
        · rfl
        · rw [wp_bind]
          apply wp_mono (journalRead_wp _ g')
          · rintro com g'' rfl
            split
            · rfl
            · rw [wp_bind]
              apply wp_mono (journalReadData_wp _ _ g'')
              · rintro blocks g''' rfl
                split
                · rfl
                · rfl
              · exact fun _ _ _ => trivial
          · exact fun _ _ _ => trivial
    · exact fun _ _ _ => trivial

theorem nextTxn_wp (head seq : Nat) (g : Gofs) :
    wp (nextTxn head seq) (fun _ g' => g' = g) Fails g := by
  rw [nextTxn, wp_bind]
  apply wp_mono (tryReadTxn_wp head seq g)
  · rintro first g' rfl
    split
    · rfl
    · rw [wp_ite]
      split
      · rw [wp_bind]
        exact wp_mono (tryReadTxn_wp 0 seq g') (fun _ g'' same => same) fun _ _ _ => trivial
      · rfl
  · exact fun _ _ _ => trivial

theorem replayLoop_wp (fuel head seq applied : Nat) (g : Gofs) :
    wp (replayLoop fuel head seq applied) (fun _ g' => g.Steady g') Fails g := by
  induction fuel generalizing head seq applied g with
  | zero => trivial
  | succ fuel ih =>
      rw [replayLoop, wp_bind]
      apply wp_mono (nextTxn_wp head seq g)
      · rintro next g' rfl
        split
        · exact .refl g'
        · rw [wp_bind]
          apply wp_mono (applyBlocks_wp _ g')
          · intro _ g₁ steady
            simp only [wp_bind, wp_get, wp_ite, wp_panicWith]
            split
            · trivial
            · exact wp_mono (ih _ _ _ g₁) (fun _ g₂ later => steady.trans later) fun _ _ _ =>
                  trivial
          · exact fun _ _ _ => trivial
      · exact fun _ _ _ => trivial

theorem replay_wp (g : Gofs) : wp replay (fun _ g' => g.Steady g') Fails g := by
  rw [replay, wp_bind, wp_get, wp_bind]
  apply wp_mono (replayLoop_wp _ _ _ _ g)
  · rintro ⟨head, seq, applied⟩ g₁ steady
    simp only [wp_bind, wp_ite, sync, wp_modify, wp_pure]
    split
    · apply wp_mono (writeSuperblock_wp _)
      · exact fun _ g₂ written => steady.trans
          ⟨written.entries, written.size, written.blocksize, written.agmapLength, written.inodesize⟩
      · exact fun _ _ _ => trivial
    · exact steady
  · exact fun _ _ _ => trivial

/-- A writable open finds the superblock and the AG map; neither the healed copies nor replay change
what the map says. -/
theorem openRw_steady {dev : Device} {g : Gofs} (opened : openRw dev = .ok g) :
    ∃ sb fromBackup map, findSuperblock dev = .ok (sb, fromBackup) ∧ loadAgmap dev sb = .ok map ∧
      Gofs.Steady { dev, sb, map } g := by
  rw [openRw] at opened
  split at opened
  · cases opened
  · rename_i sb fromBackup found
    split at opened
    · cases opened
    · rename_i map loaded
      refine ⟨sb, fromBackup, map, found, loaded, ?_⟩
      dsimp only at opened
      split at opened
      · rename_i n g' run
        cases opened
        refine wp_ok (Q := fun _ g' => Gofs.Steady { dev, sb, map } g') (E := Fails) ?_ run
        simp only [wp_bind, wp_get, wp_ite]
        split
        · apply wp_mono (writeSuperblock_wp _)
          · exact fun _ g₁ steady => wp_mono (replay_wp g₁) (fun _ g₂ later => steady.trans later)
              fun _ _ _ => trivial
          · exact fun _ _ _ => trivial
        · exact replay_wp _
      · cases opened

/-- A device from which the first open takes superblock `sb` and AG map `map`. -/
structure Stored (d : Device) (sb : Superblock) (map : AgMap) : Prop where
  found : findSuperblock d = .ok (sb, false)
  map : loadAgmap d sb = .ok map

theorem stored_of_holds {d : Device} {sb : Superblock} {map : AgMap} {b : Bytes} (fits : sb.Fits)
    (mapFits : map.Fits) (small : sb.agmapLength < 2 ^ 32) (room : AGMAP_HDR ≤ sb.agmapLength)
    (bytes : map.toBytes sb.agmapLength = .ok b) (primary : d.Holds 0 SB_SIZE sb.toBytes)
    (first : d.Holds sb.agmapOffset sb.agmapLength b)
    (second : d.Holds (sb.agmapOffset + sb.agmapLength) sb.agmapLength b) : Stored d sb map := by
  have parsed := AgMap.parse_toBytes mapFits small room bytes
  have copy0 : readAgmapCopy d sb 0 = .ok map := by
    rw [readAgmapCopy, Nat.zero_mul, Nat.add_zero, first.pread]
    exact parsed
  have copy1 : readAgmapCopy d sb 1 = .ok map := by
    rw [readAgmapCopy, Nat.one_mul, second.pread]
    exact parsed
  refine ⟨?_, ?_⟩
  · rw [findSuperblock, primary.pread]
    dsimp only
    rw [Superblock.parse_clip, Superblock.parse_toBytes fits]
  · rw [loadAgmap, copy0, copy1]
    simp

/-- No transaction starts at the head. -/
structure Idle (g : Gofs) : Prop where
  start : g.sb.journalHead = 0
  empty : 0 < g.sb.journalLength → g.dev.Holds (g.sb.journalStart * g.sb.blocksize) g.sb.blocksize
      zeros

omit [Crc32c] in
theorem resolve_journal {g : Gofs} (rooted : g.map.Rooted g.sb) {size : Nat}
    (laid : g.map.Laid g.sb.blocksize size) :
    g.map.resolve g.sb.journalStart g.sb.blocksize = some (g.sb.journalStart * g.sb.blocksize) := by
  obtain ⟨len, rest, entries, behind⟩ := rooted.first
  have block : 0 < g.sb.blocksize := Nat.lt_of_lt_of_le (by decide) rooted.block
  have inside : g.sb.journalStart < len := by
    by_contra past
    have rows : (len - 1) * g.sb.blocksize ≤ g.sb.journalStart * g.sb.blocksize :=
      Nat.mul_le_mul_right _ (by omega)
    omega
  have entry : g.map.entries[0]? = some ⟨AGF_PRESENT ||| AGF_IMMOVABLE, len, [⟨0, len, 0⟩]⟩ := by
    rw [entries]
    rfl
  have present : (AgEntry.mk (AGF_PRESENT ||| AGF_IMMOVABLE) len [⟨0, len, 0⟩]).present = true :=
    decide_eq_true (by decide : (AGF_PRESENT ||| AGF_IMMOVABLE) &&& AGF_PRESENT ≠ 0)
  obtain ⟨off, only, -, -, found⟩ := laid.resolve_entry entry present inside
  cases only
  rw [blkAddr, Nat.zero_mul, Nat.zero_add, Nat.zero_add] at found
  exact found

theorem tryReadTxn_idle {g : Gofs} (rooted : g.map.Rooted g.sb)
    {size : Nat} (laid : g.map.Laid g.sb.blocksize size) (idle : g.Idle) (seq : Nat) :
    tryReadTxn 0 seq g = (.ok none, g) := by
  simp only [tryReadTxn, bind_run, get_run, ite_run]
  by_cases short : 0 + 2 > g.sb.journalLength
  · rw [if_pos short]
    rfl
  · rw [if_neg short]
    have blank := (idle.empty (by omega)).pread
    have read : journalRead 0 g = (.ok (clip g.sb.blocksize zeros), g) := by
      simp only [journalRead, journalPhys, bind_run, get_run, ite_run]
      rw [if_neg (by omega), Nat.add_zero]
      simp only [Gofs.resolve, bind_run, get_run, resolve_journal rooted laid, pure_run, pread,
          blank]
      rfl
    simp only [read, clip_zeros]
    rw [if_pos (.inl (by rw [getU32, getBE_zeros]; decide))]
    rfl

theorem replay_idle {g : Gofs} (rooted : g.map.Rooted g.sb)
    {size : Nat} (laid : g.map.Laid g.sb.blocksize size) (idle : g.Idle) :
    replay g = (.ok 0, g) := by
  have none : nextTxn 0 g.sb.journalSeq g = (.ok none, g) := by
    simp only [nextTxn, bind_run, tryReadTxn_idle rooted laid idle]
    rfl
  have loop : replayLoop (g.sb.journalLength + 1) g.sb.journalHead g.sb.journalSeq 0 g =
      (.ok (0, g.sb.journalSeq, 0), g) := by
    rw [idle.start]
    simp only [replayLoop, bind_run, none, pure_run]
  simp only [replay, bind_run, get_run, loop]
  rfl

/-- The superblock with its generation bumped. -/
def bumped (sb : Superblock) : Superblock := { sb with gen := sb.gen + 1 }

theorem writeSuperblock_rooted {g : Gofs} {len : Nat} {rest : List AgEntry}
    (entries : g.map.entries = ⟨AGF_PRESENT ||| AGF_IMMOVABLE, len, [⟨0, len, 0⟩]⟩ :: rest)
    (gen : g.sb.gen + 1 < 2 ^ 64) : writeSuperblock g = (.ok (), { g with
      sb := bumped g.sb
      dev := (g.dev.pwrite 0 SB_SIZE (bumped g.sb).toBytes).pwrite ((len - 1) * g.sb.blocksize)
        SB_SIZE (bumped g.sb).toBytes }) := by
  have backup : backupOff g.map g.sb.blocksize = some ((len - 1) * g.sb.blocksize) := by
    rw [backupOff, entries]
    simp only [Nat.zero_add]
  simp only [writeSuperblock, bind_run, get_run, ite_run]
  rw [if_neg (by omega)]
  simp only [modify_run, pwrite, backup]
  rfl

theorem openRw_healthy {dev : Device} {sb : Superblock} {map : AgMap} (stored : Stored dev sb map)
    (rooted : map.Rooted sb) {size : Nat} (laid : map.Laid sb.blocksize size)
    (idle : Idle { dev, sb, map })
    (healthy : backupSuperblockOk { dev, sb, map } = true) : openRw dev = .ok { dev, sb, map } := by
  have run := replay_idle (g := { dev, sb, map }) rooted laid idle
  simp only [openRw, stored.found, stored.map, bind_run, get_run, ite_run, healthy]
  rw [if_neg (by decide)]
  split
  · rename_i healed
    cases run.symm.trans healed
    rfl
  · rename_i failed
    cases run.symm.trans failed

theorem backup_healthy {dev : Device} {sb : Superblock} {map : AgMap} {len : Nat}
    {rest : List AgEntry}
    (fits : sb.Fits) (entries : map.entries = ⟨AGF_PRESENT ||| AGF_IMMOVABLE, len,
    [⟨0, len, 0⟩]⟩ :: rest)
    (backup : dev.Holds ((len - 1) * sb.blocksize) SB_SIZE sb.toBytes) :
    backupSuperblockOk { dev, sb, map } = true := by
  have place : backupOff map sb.blocksize = some ((len - 1) * sb.blocksize) := by
    rw [backupOff, entries]
    simp only [Nat.zero_add]
  simp only [backupSuperblockOk, place, backup.pread, Superblock.parse_clip,
      Superblock.parse_toBytes fits,
    beq_self_eq_true, Bool.and_self]

theorem openRw_idle {dev : Device} {sb : Superblock} {map : AgMap} (stored : Stored dev sb map)
    (rooted : map.Rooted sb) (laid : map.Laid sb.blocksize dev.size)
    (idle : Idle { dev, sb, map }) (gen : sb.gen + 1 < 2 ^ 64) :
    ∃ g, openRw dev = .ok g := by
  obtain ⟨len, rest, entries, behind⟩ := rooted.first
  by_cases healthy : backupSuperblockOk { dev, sb, map } = true
  · exact ⟨_, openRw_healthy stored rooted laid idle healthy⟩
  · have write := writeSuperblock_rooted (g := { dev, sb, map }) entries gen
    set healed : Gofs := ⟨(dev.pwrite 0 SB_SIZE (bumped sb).toBytes).pwrite
      ((len - 1) * sb.blocksize) SB_SIZE (bumped sb).toBytes, bumped sb, map, fun _ => none⟩
      with same
    have blank : Idle healed := by
      have primary := rooted.primary
      have copies := rooted.copies
      have block := rooted.block
      refine ⟨idle.start, fun some_blocks => ?_⟩
      have apart : 0 + SB_SIZE ≤ sb.journalStart * sb.blocksize := by omega
      exact ((idle.empty some_blocks).pwrite (.inr apart) _).pwrite (.inl behind) _
    have run := replay_idle (g := healed) ⟨rooted.first, rooted.block, rooted.primary,
        rooted.copies⟩
      laid blank
    refine ⟨healed, ?_⟩
    simp only [openRw, stored.found, stored.map, bind_run, get_run, ite_run, healthy]
    rw [if_pos (by decide), write]
    split
    · rename_i replayed
      cases run.symm.trans replayed
      rfl
    · rename_i failed
      cases run.symm.trans failed

end Gofs

end FiveFs
