import Mathlib.Data.List.Pairwise

/-! Copying in chunks within one memory: each chunk is read whole and then written, so a later chunk
may read what an earlier one has overwritten. -/

/-- `len` cells go from `src` to `dst`. -/
structure Chunk where
  src : Nat
  dst : Nat
  len : Nat
  deriving DecidableEq, Repr

namespace Chunk

variable {β : Type} {m : Nat → β} {c d : Chunk} {cs : List Chunk} {i k l : Nat}

def copy (m : Nat → β) (c : Chunk) : Nat → β := fun i =>
  if c.dst ≤ i ∧ i < c.dst + c.len then m (c.src + (i - c.dst)) else m i

def copyAll (m : Nat → β) (cs : List Chunk) : Nat → β := cs.foldl copy m

/-- The chunks write no common cell. -/
def Apart (c d : Chunk) : Prop := c.dst + c.len ≤ d.dst ∨ d.dst + d.len ≤ c.dst

/-- What the later chunk `d` reads where `c` has written is what was there at first. -/
def Agrees (m : Nat → β) (c d : Chunk) : Prop :=
  ∀ k < d.len, ∀ l < c.len, d.src + k = c.dst + l → m (d.src + k) = m (c.src + l)

@[simp] theorem copyAll_nil (m : Nat → β) : copyAll m [] = m := rfl

@[simp] theorem copyAll_cons (m : Nat → β) (c : Chunk) (cs : List Chunk) :
    copyAll m (c :: cs) = copyAll (copy m c) cs := rfl

theorem copyAll_append (m : Nat → β) (cs ds : List Chunk) :
    copyAll m (cs ++ ds) = copyAll (copyAll m cs) ds := List.foldl_append

theorem copy_at (hk : k < c.len) : copy m c (c.dst + k) = m (c.src + k) := by
  rw [copy, if_pos ⟨by omega, by omega⟩, Nat.add_sub_cancel_left]

theorem copy_of_not_mem (h : i < c.dst ∨ c.dst + c.len ≤ i) : copy m c i = m i :=
  if_neg (by omega)

theorem copyAll_of_not_mem (h : ∀ c ∈ cs, i < c.dst ∨ c.dst + c.len ≤ i) :
    copyAll m cs i = m i := by
  induction cs generalizing m with
  | nil => rfl
  | cons c rest ih =>
      rw [copyAll_cons, ih fun d hd => h d (List.mem_cons_of_mem _ hd)]
      exact copy_of_not_mem (h c List.mem_cons_self)

theorem Apart.not_mem (h : Apart c d) (hk : k < c.len) : c.dst + k < d.dst ∨
    d.dst + d.len ≤ c.dst + k := by
  unfold Apart at h
  omega

theorem copyAll_head (apart : ∀ d ∈ cs, Apart c d) (hk : k < c.len) :
    copyAll m (c :: cs) (c.dst + k) = m (c.src + k) := by
  rw [copyAll_cons, copyAll_of_not_mem fun d hd => (apart d hd).not_mem hk, copy_at hk]

theorem copyAll_read (apart : cs.Pairwise Apart) (hd : d ∈ cs) (hk : k < d.len)
    (kept : ∀ e ∈ cs, d.src + k < e.dst ∨ e.dst + e.len ≤ d.src + k) :
    copyAll m cs (d.dst + k) = m (d.src + k) := by
  induction cs generalizing m with
  | nil => cases hd
  | cons e rest ih =>
      obtain ⟨first, later⟩ := List.pairwise_cons.mp apart
      rcases List.mem_cons.mp hd with rfl | behind
      · exact copyAll_head first hk
      · rw [copyAll_cons, ih later behind fun e' he => kept e' (List.mem_cons_of_mem _ he)]
        exact copy_of_not_mem (kept e List.mem_cons_self)

theorem Agrees.copy_eq (h : Agrees m c d) (hk : k < d.len) :
    copy m c (d.src + k) = m (d.src + k) := by
  by_cases meets : c.dst ≤ d.src + k ∧ d.src + k < c.dst + c.len
  · obtain ⟨l, hl⟩ := Nat.exists_eq_add_of_le meets.1
    have short : l < c.len := by omega
    have written : copy m c (c.dst + l) = m (c.src + l) := copy_at short
    rw [hl, written, ← h k hk l short hl, hl]
  · exact copy_of_not_mem (by omega)

theorem Agrees.copy {e : Chunk} (hd : Agrees m c d) (he : Agrees m c e) (h : Agrees m d e) :
    Agrees (copy m c) d e := by
  intro k hk l hl meets
  rw [he.copy_eq hk, hd.copy_eq hl]
  exact h k hk l hl meets

theorem agrees_of_copy {e : Chunk} (hd : Agrees m c d) (he : Agrees m c e)
    (h : Agrees (Chunk.copy m c) d e) :
    Agrees m d e := by
  intro k hk l hl meets
  rw [← he.copy_eq hk, ← hd.copy_eq hl]
  exact h k hk l hl meets

theorem copyAll_of_agrees (apart : cs.Pairwise Apart) (agrees : cs.Pairwise (Agrees m)) :
    ∀ d ∈ cs, ∀ k < d.len, copyAll m cs (d.dst + k) = m (d.src + k) := by
  induction cs generalizing m with
  | nil => exact fun d hd => absurd hd List.not_mem_nil
  | cons c rest ih =>
      obtain ⟨first, later⟩ := List.pairwise_cons.mp apart
      obtain ⟨heads, tails⟩ := List.pairwise_cons.mp agrees
      intro d hd k hk
      rcases List.mem_cons.mp hd with rfl | behind
      · exact copyAll_head first hk
      · have moved : rest.Pairwise (Agrees (Chunk.copy m c)) :=
          tails.imp_of_mem fun hd he h => (heads _ hd).copy (heads _ he) h
        rw [copyAll_cons, ih later moved d behind k hk]
        exact (heads d behind).copy_eq hk

theorem agrees_of_copyAll (apart : cs.Pairwise Apart)
    (faithful : ∀ d ∈ cs, ∀ k < d.len, copyAll m cs (d.dst + k) = m (d.src + k)) :
    cs.Pairwise (Agrees m) := by
  induction cs generalizing m with
  | nil => exact List.Pairwise.nil
  | cons c rest ih =>
      obtain ⟨first, later⟩ := List.pairwise_cons.mp apart
      have heads : ∀ d ∈ rest, Agrees m c d := by
        intro d behind k hk l hl meets
        have kept : ∀ e ∈ rest, d.src + k < e.dst ∨ e.dst + e.len ≤ d.src + k := by
          intro e he
          rw [meets]
          exact (first e he).not_mem hl
        have read : copyAll m (c :: rest) (d.dst + k) = copy m c (d.src + k) :=
          copyAll_read later behind hk kept
        calc m (d.src + k) = copyAll m (c :: rest) (d.dst + k) :=
              (faithful d (List.mem_cons_of_mem _ behind) k hk).symm
          _ = copy m c (d.src + k) := read
          _ = copy m c (c.dst + l) := by rw [meets]
          _ = m (c.src + l) := copy_at hl
      have moved : ∀ d ∈ rest, ∀ k < d.len, copyAll (copy m c) rest (d.dst + k) = copy m c
          (d.src + k) := by
        intro d behind k hk
        rw [(heads d behind).copy_eq hk]
        exact faithful d (List.mem_cons_of_mem _ behind) k hk
      refine List.pairwise_cons.mpr ⟨heads, ?_⟩
      exact (ih later moved).imp_of_mem fun hd he h => agrees_of_copy (heads _ hd) (heads _ he) h

theorem copyAll_iff (apart : cs.Pairwise Apart) :
    (∀ d ∈ cs, ∀ k < d.len, copyAll m cs (d.dst + k) = m (d.src + k)) ↔ cs.Pairwise (Agrees m) :=
  ⟨agrees_of_copyAll apart, copyAll_of_agrees apart⟩

end Chunk
