import FiveFs.Grant

/-! The address of an allocated block: what `alloc_extent` returns lies in the AG that the header
names. -/

namespace FiveFs

open Buffer Prog

namespace Work

/-- Any failure. -/
abbrev Fails (_ : Err) (_ : Work) : Prop := True

theorem wp_any {α : Type} (x : Prog Work α) (w : Work) : wp x (fun _ _ => True) Fails w := by
  unfold wp
  split
  · trivial
  · trivial

theorem wp_skip {α β : Type} {x : Prog Work α} {f : α → Prog Work β} {Q : β → Work → Prop}
    {w : Work}
    (rest : ∀ a w', wp (f a) Q Fails w') : wp (x >>= f) Q Fails w := by
  rw [wp_bind]
  exact wp_mono (wp_any x w) (fun a w' _ => rest a w') fun _ _ _ => trivial

/-- A block of AG `ag`, and a header of the same AG. -/
def In (ag : Nat) (r : Nat × AgHeader) : Prop := r.1 / 2 ^ 32 = ag ∧ r.2.agNum = ag

theorem in_ag {ag l : Nat} {hdr : AgHeader} (same : hdr.agNum = ag) (short : l < 2 ^ 32) :
    In ag (blkAddr hdr.agNum l, hdr) := by
  refine ⟨?_, same⟩
  show (hdr.agNum * 2 ^ 32 + l) / 2 ^ 32 = ag
  omega

theorem cell_lt {length bs c k : Nat} (short : length < 2 ^ 32)
    (cell : c < (rtGeometry length bs).1)
    (inside : k < CELL_BLOCKS) : c * CELL_BLOCKS + k < 2 ^ 32 := by
  rw [rtGeometry] at cell
  rw [CELL_BLOCKS] at *
  dsimp only at cell
  omega

theorem findRun_lt {r : Bytes} {m start : Nat} (found : findRun r m = some start) :
    start < ALLOC_FANOUT := by
  have each : ∀ is run, findRunFrom r m is run = some start → ∃ i ∈ is, start ≤ i := by
    intro is
    induction is with
    | nil =>
        intro run found
        cases found
    | cons i rest ih =>
        intro run found
        rw [findRunFrom] at found
        split at found
        · split at found
          · cases found
            exact ⟨i, List.mem_cons_self, by omega⟩
          · obtain ⟨j, member, low⟩ := ih _ found
            exact ⟨j, List.mem_cons_of_mem _ member, low⟩
        · obtain ⟨j, member, low⟩ := ih _ found
          exact ⟨j, List.mem_cons_of_mem _ member, low⟩
  obtain ⟨i, member, low⟩ := each _ 0 found
  exact Nat.lt_of_le_of_lt low (List.mem_range.mp member)

variable [Crc32c] {ag : Nat} {hdr : AgHeader} {w : Work}

omit [Crc32c] in
theorem accountAlloc_in (same : hdr.agNum = ag) (blocks : Nat) :
    wp (accountAlloc hdr blocks) (fun hdr' _ => hdr'.agNum = ag) Fails w := by
  rw [accountAlloc]
  refine wp_skip fun free w₁ => wp_skip fun _ w₂ => wp_skip fun sbFree w₃ => wp_skip fun _ w₄ => ?_
  exact same

theorem claimArena_in (same : hdr.agNum = ag) (short : hdr.length < 2 ^ 32) :
    wp (claimArena hdr) (fun r _ => r.2.agNum = ag ∧ r.2.length < 2 ^ 32) Fails w := by
  rw [claimArena]
  refine wp_skip fun _ w₁ => wp_skip fun free w₂ => ?_
  split
  · trivial
  · refine wp_skip fun _ w₃ => wp_skip fun _ w₄ => wp_skip fun _ w₅ => wp_skip fun _ w₆ =>
        wp_skip fun _ w₇ =>
      wp_skip fun _ w₈ => wp_skip fun _ w₉ => ?_
    exact ⟨same, short⟩

theorem tblAllocRec_in (same : hdr.agNum = ag) (short : hdr.length < 2 ^ 32) :
    wp (tblAllocRec hdr) (fun r _ => r.2.agNum = ag ∧ r.2.length < 2 ^ 32) Fails w := by
  rw [tblAllocRec]
  refine wp_skip fun _ w₁ => ?_
  dsimp only
  rw [wp_ite]
  split
  · refine wp_skip fun _ w₂ => wp_skip fun found w₃ => ?_
    split
    · exact ⟨same, short⟩
    · exact claimArena_in same short
  · exact claimArena_in same short

theorem refineL0_in (same : hdr.agNum = ag) (short : hdr.length < 2 ^ 32) (c : Nat) :
    wp (refineL0 hdr c) (fun r _ => r.2.agNum = ag ∧ r.2.length < 2 ^ 32) Fails w := by
  rw [refineL0]
  refine wp_skip fun _ w₁ => ?_
  rw [wp_bind]
  refine wp_mono (tblAllocRec_in same short) ?_ fun _ _ _ => trivial
  rintro ⟨r, hdr'⟩ w₂ kept
  exact wp_skip fun _ w₃ => kept

theorem refineL1_in (same : hdr.agNum = ag) (short : hdr.length < 2 ^ 32) (l0 : Ref) (i : Nat) :
    wp (refineL1 hdr l0 i) (fun r _ => r.2.agNum = ag ∧ r.2.length < 2 ^ 32) Fails w := by
  rw [refineL1, wp_bind]
  refine wp_mono (tblAllocRec_in same short) ?_ fun _ _ _ => trivial
  rintro ⟨r, hdr'⟩ w₁ kept
  exact wp_skip fun _ w₂ => wp_skip fun _ w₃ => kept

omit [Crc32c] in
theorem allocL0Scan_in (same : hdr.agNum = ag) (k : Nat) (is : List Nat) (run start : Nat)
    (cells : ∀ c ∈ is, c * CELL_BLOCKS < 2 ^ 32) (first : run ≠ 0 → start * CELL_BLOCKS < 2 ^ 32) :
    wp (allocL0Scan hdr k is run start) (fun r _ => In ag r) Fails w := by
  induction is generalizing run start w with
  | nil => trivial
  | cons c rest ih =>
      have later := fun d member => cells d (List.mem_cons_of_mem _ member)
      have here := cells c List.mem_cons_self
      rw [allocL0Scan]
      refine wp_skip fun st w₁ => ?_
      rw [wp_ite]
      split
      · dsimp only
        have low : (if run = 0 then c else start) * CELL_BLOCKS < 2 ^ 32 := by
          split
          · exact here
          · rename_i running
            exact first running
        rw [wp_ite]
        split
        · refine wp_skip fun _ w₂ => ?_
          rw [wp_bind]
          refine wp_mono (accountAlloc_in same _) ?_ fun _ _ _ => trivial
          exact fun hdr' w₃ same' => in_ag same' low
        · exact ih (run + 1) _ later fun _ => low
      · exact ih 0 start later fun running => absurd rfl running

theorem allocL1Scan_in (same : hdr.agNum = ag) (m : Nat) (is : List Nat)
    (cells : ∀ c ∈ is, ∀ k < CELL_BLOCKS, c * CELL_BLOCKS + k < 2 ^ 32) :
    wp (allocL1Scan hdr m is) (fun r _ => ∀ found ∈ r, In ag found) Fails w := by
  induction is generalizing w with
  | nil => exact fun found member => by cases member
  | cons c rest ih =>
      have later := fun d member => cells d (List.mem_cons_of_mem _ member)
      have here := cells c List.mem_cons_self
      rw [allocL1Scan]
      refine wp_skip fun st w₁ => ?_
      rw [wp_ite]
      split
      · exact ih later
      · refine wp_skip fun r w₂ => wp_skip fun data w₃ => ?_
        split
        · exact ih later
        · rename_i start found
          have bound : start * ALLOC_FANOUT < CELL_BLOCKS := by
            have small := findRun_lt found
            rw [ALLOC_FANOUT] at *
            rw [CELL_BLOCKS]
            omega
          refine wp_skip fun _ w₄ => ?_
          rw [wp_bind]
          refine wp_mono (accountAlloc_in same _) ?_ fun _ _ _ => trivial
          intro hdr' w₅ same'
          refine wp_skip fun _ w₆ => ?_
          rintro found' ⟨⟩
          exact in_ag same' (here _ bound)

theorem allocL2Children_in (same : hdr.agNum = ag) (n c : Nat) (l0rec : Bytes) (is : List Nat)
    (cell : ∀ k < CELL_BLOCKS, c * CELL_BLOCKS + k < 2 ^ 32)
    (children : ∀ i ∈ is, i < ALLOC_FANOUT) :
    wp (allocL2Children hdr n c l0rec is) (fun r _ => ∀ found ∈ r, In ag found) Fails w := by
  induction is generalizing w with
  | nil => exact fun found member => by cases member
  | cons i rest ih =>
      have later := fun j member => children j (List.mem_cons_of_mem _ member)
      have here := children i List.mem_cons_self
      rw [allocL2Children, wp_ite]
      split
      · exact ih later
      · refine wp_skip fun l1rec w₁ => ?_
        split
        · exact ih later
        · rename_i start found
          have bound : i * ALLOC_FANOUT + start < CELL_BLOCKS := by
            have small := findRun_lt found
            rw [ALLOC_FANOUT] at *
            rw [CELL_BLOCKS]
            omega
          refine wp_skip fun _ w₂ => ?_
          rw [wp_bind]
          refine wp_mono (accountAlloc_in same _) ?_ fun _ _ _ => trivial
          intro hdr' w₃ same'
          refine wp_skip fun _ w₄ => ?_
          rintro found' ⟨⟩
          have place := cell _ bound
          exact in_ag same' (by omega)

theorem allocL2Scan_in (same : hdr.agNum = ag) (n : Nat) (is : List Nat)
    (cells : ∀ c ∈ is, ∀ k < CELL_BLOCKS, c * CELL_BLOCKS + k < 2 ^ 32) :
    wp (allocL2Scan hdr n is) (fun r _ => ∀ found ∈ r, In ag found) Fails w := by
  induction is generalizing w with
  | nil => exact fun found member => by cases member
  | cons c rest ih =>
      have later := fun d member => cells d (List.mem_cons_of_mem _ member)
      have here := cells c List.mem_cons_self
      rw [allocL2Scan]
      refine wp_skip fun st w₁ => ?_
      rw [wp_ite]
      split
      · exact ih later
      · refine wp_skip fun l0 w₂ => wp_skip fun l0rec w₃ => ?_
        rw [wp_bind]
        refine wp_mono (allocL2Children_in same n c l0rec _ here fun i member =>
            List.mem_range.mp member) ?_
          fun _ _ _ => trivial
        intro r w₄ inside
        split
        · rename_i found
          rintro found' ⟨⟩
          exact inside found rfl
        · exact ih later

theorem allocL2Refine_in (same : hdr.agNum = ag) (short : hdr.length < 2 ^ 32) (n : Nat)
    (is : List Nat)
    (cells : ∀ c ∈ is, ∀ k < CELL_BLOCKS, c * CELL_BLOCKS + k < 2 ^ 32) :
    wp (allocL2Refine hdr n is) (fun r _ => ∀ found ∈ r, In ag found) Fails w := by
  induction is generalizing w with
  | nil => exact fun found member => by cases member
  | cons c rest ih =>
      have later := fun d member => cells d (List.mem_cons_of_mem _ member)
      have here := cells c List.mem_cons_self
      rw [allocL2Refine]
      refine wp_skip fun st w₁ => ?_
      rw [wp_ite]
      split
      · exact ih later
      · refine wp_skip fun l0 w₂ => wp_skip fun l0rec w₃ => ?_
        split
        · exact ih later
        · rename_i i found
          have bound : i * ALLOC_FANOUT < CELL_BLOCKS := by
            have small := List.mem_range.mp (List.mem_of_find?_eq_some found)
            rw [ALLOC_FANOUT] at *
            rw [CELL_BLOCKS]
            omega
          rw [wp_bind]
          refine wp_mono (refineL1_in same short l0 i) ?_ fun _ _ _ => trivial
          rintro ⟨l1, hdr'⟩ w₄ ⟨same', -⟩
          refine wp_skip fun l1rec w₅ => wp_skip fun _ w₆ => ?_
          rw [wp_bind]
          refine wp_mono (accountAlloc_in same' _) ?_ fun _ _ _ => trivial
          intro hdr'' w₇ same''
          refine wp_skip fun _ w₈ => ?_
          rintro found' ⟨⟩
          exact in_ag same'' (here _ bound)

omit [Crc32c] in
theorem findFree_mem (is : List Nat) : wp (findFree hdr is) (fun r _ => ∀ c ∈ r, c ∈ is) Fails
    w := by
  induction is generalizing w with
  | nil => exact fun c member => by cases member
  | cons c rest ih =>
      rw [findFree]
      refine wp_skip fun st w₁ => ?_
      split
      · rw [wp_ite]
        split
        · rintro d ⟨⟩
          exact List.mem_cons_self
        · exact wp_mono (ih) (fun r _ among d member => List.mem_cons_of_mem _ (among d member))
              fun _ _ _ => trivial
      · exact wp_mono (ih) (fun r _ among d member => List.mem_cons_of_mem _ (among d member))
            fun _ _ _ => trivial

theorem allocSized_in (same : hdr.agNum = ag) (short : hdr.length < 2 ^ 32) (n : Nat) :
    wp (allocSized hdr n) (fun r _ => In ag r) Fails w := by
  have whole : ∀ bs c, c < (rtGeometry hdr.length bs).1 → ∀ k < CELL_BLOCKS,
      c * CELL_BLOCKS + k < 2 ^ 32 :=
    fun bs c cell k inside => cell_lt short cell inside
  have base : ∀ bs c, c < (rtGeometry hdr.length bs).1 → c * CELL_BLOCKS < 2 ^ 32 := by
    intro bs c cell
    have first := whole bs c cell 0 (by decide)
    rwa [Nat.add_zero] at first
  rw [allocSized, wp_ite]
  split
  · rw [allocL0]
    refine wp_skip fun w' w₁ => ?_
    exact allocL0Scan_in same _ _ 0 0 (fun c member => base _ c (List.mem_range.mp member))
      fun running => absurd rfl running
  · rw [wp_ite]
    split
    · rw [allocL1]
      refine wp_skip fun w' w₁ => wp_skip fun hint w₂ => ?_
      rw [wp_bind]
      refine wp_mono (allocL1Scan_in same _ _ fun c member => whole _ c (mem_wrapRange.mp member))
          ?_
        fun _ _ _ => trivial
      intro r w₃ inside
      split
      · rename_i found
        exact inside found rfl
      · rw [wp_bind]
        refine wp_mono (findFree_mem _) ?_ fun _ _ _ => trivial
        intro r w₄ among
        split
        · trivial
        · rename_i c
          have cell := List.mem_range.mp (among c rfl)
          rw [wp_bind]
          refine wp_mono (refineL0_in same short c) ?_ fun _ _ _ => trivial
          rintro ⟨r, hdr'⟩ w₅ ⟨same', -⟩
          refine wp_skip fun data w₆ => wp_skip fun _ w₇ => ?_
          rw [wp_bind]
          refine wp_mono (accountAlloc_in same' _) ?_ fun _ _ _ => trivial
          exact fun hdr'' w₈ same'' => in_ag same'' (base _ c cell)
    · rw [allocL2]
      refine wp_skip fun w' w₁ => wp_skip fun hint w₂ => ?_
      rw [wp_bind]
      refine wp_mono (allocL2Scan_in same _ _ fun c member => whole _ c (mem_wrapRange.mp member))
          ?_
        fun _ _ _ => trivial
      intro r w₃ inside
      split
      · rename_i found
        exact inside found rfl
      · rw [wp_bind]
        refine wp_mono (allocL2Refine_in same short _ _ fun c member =>
            whole _ c (mem_wrapRange.mp member)) ?_
          fun _ _ _ => trivial
        intro r w₄ inside'
        split
        · rename_i found
          exact inside' found rfl
        · rw [wp_bind]
          refine wp_mono (findFree_mem _) ?_ fun _ _ _ => trivial
          intro r w₅ among
          split
          · trivial
          · rename_i c
            have cell := List.mem_range.mp (among c rfl)
            rw [wp_bind]
            refine wp_mono (refineL0_in same short c) ?_ fun _ _ _ => trivial
            rintro ⟨l0, hdr'⟩ w₆ ⟨same', short'⟩
            rw [wp_bind]
            refine wp_mono (refineL1_in same' short' l0 0) ?_ fun _ _ _ => trivial
            rintro ⟨l1, hdr''⟩ w₇ ⟨same'', -⟩
            refine wp_skip fun l1rec w₈ => wp_skip fun _ w₉ => ?_
            rw [wp_bind]
            refine wp_mono (accountAlloc_in same'' _) ?_ fun _ _ _ => trivial
            exact fun hdr''' w₁₀ same''' => in_ag same''' (base _ c cell)

theorem parse_length {b : Bytes} {hdr : AgHeader} (parsed : AgHeader.parse b = .ok hdr) :
    hdr.length < 2 ^ 32 := by
  rw [AgHeader.parse] at parsed
  split at parsed
  · cases parsed
  · split at parsed
    · cases parsed
    · cases parsed
      exact getBE_lt b 20 4

theorem allocExtent_in {n : Nat} (read : ∀ hdr w', readAgHeaderTxn ag w = (.ok hdr, w') →
    hdr.agNum = ag) :
    wp (allocExtent ag n) (fun blk _ => blk / 2 ^ 32 = ag) Fails w := by
  rw [allocExtent, wp_bind]
  have header : wp (readAgHeaderTxn ag) (fun hdr _ => hdr.agNum = ag ∧ hdr.length < 2 ^ 32) Fails
      w := by
    have length : wp (readAgHeaderTxn ag) (fun hdr _ => hdr.length < 2 ^ 32) Fails w := by
      rw [readAgHeaderTxn]
      refine wp_skip fun buf w₁ => ?_
      split
      · rename_i hdr parsed
        exact parse_length parsed
      · trivial
    have number : wp (readAgHeaderTxn ag) (fun hdr _ => hdr.agNum = ag) Fails w :=
      wp_of_run read
    exact wp_mono (wp_and number length) (fun _ _ both => both) fun _ _ _ => trivial
  refine wp_mono header ?_ fun _ _ _ => trivial
  rintro hdr w₁ ⟨same, short⟩
  rw [wp_bind]
  refine wp_mono (allocSized_in same short n) ?_ fun _ _ _ => trivial
  rintro ⟨blk, hdr'⟩ w₂ inside
  exact wp_skip fun _ w₃ => inside.1

end Work

end FiveFs
