import FiveFs.Table

/-! The accessors of the root table agree, but for a reference that straddles two blocks: it is
written byte by byte and read from one block. -/

namespace FiveFs

open Buffer Prog

instance (A : Ag) (c : Nat) : Decidable (A.Split c) := inferInstanceAs (Decidable (_ < _))

namespace Work

variable {A : Ag} {w w' : Work} {hdr : AgHeader} {c : Nat} {r : Ref} {st : Nat}

theorem rtRef_run (on : A.On w) (of : A.Of hdr) (hc : c < A.cells) : rtRef hdr c w =
    if A.Split c then (.error (.panic "range end index out of range for slice"), w)
    else (.ok (A.rootRef w.view c), w) := by
  split
  · rename_i straddles
    have post := rtRef_wp (Q := fun _ _ => False)
      (E := fun e w' => (e, w') = (.panic "range end index out of range for slice", w)) on of hc
      (fun whole => whole straddles) fun _ => rfl
    unfold wp at post
    rcases run : rtRef hdr c w with ⟨e | out, w'⟩
    · rw [run] at post
      cases post
      rfl
    · rw [run] at post
      cases post
  · rename_i whole
    have post := rtRef_wp (Q := fun out w' => (out, w') = (A.rootRef w.view c, w))
        (E := fun _ _ => False) on of hc
      (fun _ => rfl) fun straddles => whole straddles
    unfold wp at post
    rcases run : rtRef hdr c w with ⟨e | out, w'⟩
    · rw [run] at post
      cases post
    · rw [run] at post
      cases post
      rfl

/-- The accessors of the root table agree on cell `c`: what is set is read back, and nothing else
changes. -/
structure Agrees (A : Ag) (hdr : AgHeader) (c : Nat) (r : Ref) (st : Nat) (w : Work) : Prop where
  ref : ∃ w', rtRefSet hdr c r w = (.ok (), w') ∧ rtRef hdr c w' = (.ok r, w') ∧
    (∀ c' < A.cells, c' ≠ c → (rtRef hdr c' w').1 = (rtRef hdr c' w).1) ∧
    ∀ c' < A.cells, (rtState hdr c' w').1 = (rtState hdr c' w).1
  state : ∃ w', rtStateSet hdr c st w = (.ok (), w') ∧ rtState hdr c w' = (.ok st, w') ∧
    (∀ c' < A.cells, c' ≠ c → (rtState hdr c' w').1 = (rtState hdr c' w).1) ∧
    (∃ r', rtRef hdr c w' = (.ok r', w')) ∧ ∀ c' < A.cells, (rtRef hdr c' w').1 = (rtRef hdr c' w).1

theorem rtRef_congr (on : A.On w) (on' : A.On w') (of : A.Of hdr) {c' : Nat} (hc' : c' < A.cells)
    (same : A.rootRef w'.view c' = A.rootRef w.view c') :
    (rtRef hdr c' w').1 = (rtRef hdr c' w).1 := by
  rw [rtRef_run on of hc', rtRef_run on' of hc', same]
  split <;> rfl

/-- The accessors of the root table agree on exactly the cells whose reference lies in one block. -/
theorem root_accessors_agree_iff (on : A.On w) (of : A.Of hdr) (hc : c < A.cells)
    (block : r.1 < 2 ^ 32)
    (index : r.2 < 2 ^ 16) (small : st < 4) : Agrees A hdr c r st w ↔ ¬ A.Split c := by
  constructor
  · rintro ⟨⟨w', set, read, -⟩, -⟩ straddles
    obtain ⟨w'', run, put⟩ := rtRefSet_run on of hc r
    rw [run] at set
    cases set
    rw [rtRef_run (on.kin put.kin) of hc, if_pos straddles] at read
    cases read
  · intro whole
    obtain ⟨w₁, set, put⟩ := rtRefSet_run on of hc r
    obtain ⟨w₂, set', put'⟩ := rtStateSet_run on of hc st
    have on₁ := on.kin put.kin
    have on₂ := on.kin put'.kin
    refine ⟨⟨w₁, set, ?_, fun c' hc' other => ?_, fun c' hc' => ?_⟩, w₂, set', ?_,
        fun c' hc' other => ?_,
      ⟨A.rootRef w₂.view c, ?_⟩, fun c' hc' => ?_⟩
    · rw [rtRef_run on₁ of hc, if_neg whole, rootRef_refSet put hc block index, if_pos rfl]
    · exact rtRef_congr on on₁ of hc' ((rootRef_refSet put hc' block index).trans (if_neg other))
    · rw [rtState_run on of hc', rtState_run on₁ of hc', rootState_refSet put hc']
    · rw [rtState_run on₂ of hc, rootState_stateSet put' hc small, if_pos rfl]
    · rw [rtState_run on of hc', rtState_run on₂ of hc', rootState_stateSet put' hc' small,
          if_neg (Ne.symm other)]
    · rw [rtRef_run on₂ of hc, if_neg whole]
    · exact rtRef_congr on on₂ of hc' (rootRef_stateSet put' hc hc')

end Work

theorem wide_sized : Ag.Sized 0 102400 2 2048 (fun _ => True) where
  num_lt := by decide
  length_lt := by decide
  power := ⟨11, rfl⟩
  large := by decide
  root_le := by decide
  hdr_lt := by decide
  head _ _ := trivial
  tail _ _ _ := trivial

def wideAg : Ag := .ofSized wide_sized

def wideHeader : AgHeader := { length := 102400, allocRoot := 2 }

def wideWork : Work := {
  fs := {
    dev := ⟨zeros, 209715200, 209715200, []⟩
    sb := { blocksize := 2048, inodesize := 256, nextAg := 1 }
    map := ⟨1, [⟨AGF_PRESENT ||| AGF_IMMOVABLE, 102400, [⟨0, 102400, 0⟩]⟩]⟩ } }

theorem wide_on : wideAg.On wideWork where
  mapped l inside := by
    have bound : l < 102400 := inside
    have split : blkSplit (wideAg.blk l) = (0, l) := blkSplit_blkAddr 0 (by omega)
    have found : wideWork.fs.map.resolve (wideAg.blk l) 2048 = some (l * 2048) := by
      rw [AgMap.resolve, split]
      simp [wideWork, AGF_PRESENT, AGF_IMMOVABLE, bound]
    refine ⟨_, found, ?_⟩
    show l * 2048 + 2048 ≤ 209715200
    omega
  size := rfl

theorem wide_of : wideAg.Of wideHeader := ⟨rfl, rfl, rfl⟩

theorem wide_split : wideAg.Split 324 := by
  show 2048 < rtRefOff 400 324 % 2048 + 6
  decide

/-- A reference that was set panics when it is read. -/
theorem root_accessors_disagree : ¬ ∀ (A : Ag) (w : Work) (hdr : AgHeader) (c : Nat) (r : Ref)
    (st : Nat),
    1024 ≤ A.length → A.On w → A.Of hdr → c < A.cells → r.1 < 2 ^ 32 → r.2 < 2 ^ 16 → st < 4 →
      Work.Agrees A hdr c r st w := by
  intro claim
  obtain ⟨⟨w', set, read, -⟩, -⟩ := claim wideAg wideWork wideHeader 324 (0, 0) 0 (by decide)
      wide_on wide_of
    (by decide) (by decide) (by decide) (by decide)
  obtain ⟨w'', run, put⟩ := Work.rtRefSet_run wide_on wide_of (by decide : 324 < wideAg.cells)
      (0, 0)
  rw [run] at set
  cases set
  rw [Work.rtRef_run (wide_on.kin put.kin) wide_of (by decide), if_pos wide_split] at read
  cases read

/-- Cell 0 of the same AG. -/
theorem root_accessors_agree_wide : Work.Agrees wideAg wideHeader 0 (256, 1) CELL_REFINED wideWork ↔
    ¬ wideAg.Split 0 :=
  Work.root_accessors_agree_iff wide_on wide_of (by decide) (by decide) (by decide) (by decide)

end FiveFs
