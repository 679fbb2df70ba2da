import FiveFs.Ensure
import FiveFs.Lib.Follow

/-! The allocator that stops where a call fails and leaves something behind. The mapping cannot go
on from there, as the header on disk no longer counts what the AG holds. -/

namespace FiveFs

open Buffer Prog

namespace Allocator

/-- The end of a run at a failed call that has changed the store. -/
def spoiled : Err := .panic "spoiled"

open Classical in
noncomputable def strict (A : Allocator) : Allocator where
  alloc n := fun w =>
    match A.alloc n w with
    | (.ok a, w') => (.ok a, w')
    | (.error (.bail m), w') => if w' = w then (.error (.bail m), w') else (.error spoiled, w')
    | (.error (.panic m), w') => (.error (.panic m), w')
  free := A.free
  granule := A.granule

variable {A : Allocator}

theorem alloc_follows (n : Nat) : Follows spoiled (A.strict.alloc n) (A.alloc n) := by
  intro w
  rw [strict]
  dsimp only
  rcases run : A.alloc n w with ⟨(m | m) | a, w'⟩
  · dsimp only
    split
    · exact Or.inr rfl
    · exact Or.inl rfl
  · exact Or.inr rfl
  · exact Or.inr rfl

theorem of_strict_alloc {n a : Nat} {w w' : Work} (run : A.strict.alloc n w = (.ok a, w')) :
    A.alloc n w = (.ok a, w') := by
  have stopped : (A.strict.alloc n w).1 ≠ .error spoiled := by
    rw [run]
    rintro ⟨⟩
  rw [(alloc_follows n w).resolve_left stopped, run]

theorem strict_alloc {n : Nat} {w : Work} {Q : Nat → Work → Prop} {E : Err → Work → Prop}
    (h : wp (A.alloc n) Q E w) :
    wp (A.strict.alloc n) Q (fun e w' => (e = spoiled ∨ A.alloc n w = (.error e, w')) ∧
    ((∃ m, e = .bail m) → w' = w)) w := by
  rw [wp] at h
  rw [strict, wp]
  dsimp only
  rcases run : A.alloc n w with ⟨(m | m) | a, w'⟩
  · dsimp only
    by_cases same : w' = w
    · rw [if_pos same]
      exact ⟨Or.inr rfl, fun _ => same⟩
    · rw [if_neg same]
      exact ⟨Or.inl rfl, fun bails => by obtain ⟨_, bails⟩ := bails; cases bails⟩
  · exact ⟨Or.inr rfl, fun bails => by obtain ⟨_, bails⟩ := bails; cases bails⟩
  · rw [run] at h
    exact h

theorem ensureLoop_follows {child child' : RootOrNode → Nat → Nat → Nat → Nat → List (Nat × Nat) →
    Prog Work (RootOrNode × List (Nat × Nat))} (kid : ∀ p i s pos e fresh,
    Follows spoiled (child p i s pos e fresh) (child' p i s pos e fresh))
    (start c limit : Nat) : ∀ fuel pos parent fresh,
      Follows spoiled (ensureLoop child start c limit fuel pos parent fresh)
      (ensureLoop child' start c limit fuel pos parent fresh) := by
  intro fuel
  induction fuel with
  | zero => exact fun _ _ _ => .refl _
  | succ fuel ih =>
      intro pos parent fresh
      rw [ensureLoop, ensureLoop]
      exact .ite _ (fun _ => .bind (kid _ _ _ _ _ _) fun out => ih _ _ _) fun _ => .refl _

theorem insertLoop_follows {child child' : RootOrNode → Nat → Nat → Nat → Nat → Nat →
    Prog Work RootOrNode}
    (kid : ∀ p i s f blk len, Follows spoiled (child p i s f blk len) (child' p i s f blk len))
    (start c fblock blk len : Nat) :
    ∀ fuel pos parent, Follows spoiled (insertLoop child start c fblock blk len fuel pos parent)
      (insertLoop child' start c fblock blk len fuel pos parent) := by
  intro fuel
  induction fuel with
  | zero => exact fun _ _ => .refl _
  | succ fuel ih =>
      intro pos parent
      rw [insertLoop, insertLoop]
      exact .ite _ (fun _ => .bind (kid _ _ _ _ _ _) fun _ => ih _ _) fun _ => .refl _

theorem extentLoop_follows (limit : Nat) : ∀ fuel pos es fresh,
    Follows spoiled (A.strict.extentLoop limit fuel pos es fresh)
    (A.extentLoop limit fuel pos es fresh) := by
  intro fuel
  induction fuel with
  | zero => exact fun _ _ _ => .refl _
  | succ fuel ih =>
      intro pos es fresh
      rw [extentLoop, extentLoop]
      refine .ite _ (fun _ => ?_) fun _ => .refl _
      cases es.find? fun e => decide (pos ≥ e.fileBlock ∧ pos < e.fileBlock + e.blocks) with
      | some e => exact ih _ _ _
      | none =>
          refine .bind (.attempt (alloc_follows _)) fun out => ?_
          cases out with
          | ok blk => exact .bind (.refl _) fun found => ih _ _ _
          | error e => exact .refl _

variable [Crc32c]

theorem nodeAlloc_follows (level : Nat) : Follows spoiled (A.strict.nodeAlloc level)
    (A.nodeAlloc level) :=
  .bind (alloc_follows 1) fun _ => .refl _

theorem childEnsure_follows : ∀ depth level parent i s pos limit fresh,
    Follows spoiled (A.strict.childEnsure depth level parent i s pos limit fresh)
    (A.childEnsure depth level parent i s pos limit fresh) := by
  intro depth
  induction depth with
  | zero => exact fun _ _ _ _ _ _ _ => .refl _
  | succ depth ih =>
      intro level parent i s pos limit fresh
      have descends : ∀ node fresh, Follows spoiled
          (descendEnsure (A.strict.childEnsure depth) node s pos limit fresh)
          (descendEnsure (A.childEnsure depth) node s pos limit fresh) := fun node fresh =>
        .bind (.refl _) fun buf => .bind (.refl _) fun c =>
          .bind (ensureLoop_follows (ih _) _ _ _ _ _ _ _) fun _ => .refl _
      rw [childEnsure, childEnsure]
      refine .bind (.refl _) fun slot => ?_
      obtain ⟨state, blocks, addr⟩ := slot
      dsimp only
      refine .ite _ (fun _ => .refl _) fun _ => .ite _ (fun _ => ?_) fun _ =>
          .ite _ (fun _ => ?_) fun _ =>
        .ite _ (fun _ => .bind (descends _ _) fun _ => .refl _) fun _ => .refl _
      · refine .bind (.attempt (alloc_follows _)) fun out => ?_
        cases out with
        | ok blk => exact .refl _
        | error e =>
            exact .ite _ (fun _ => .bind (nodeAlloc_follows _) fun node =>
                .bind (.refl _) fun parent =>
              .bind (descends _ _) fun _ => .refl _) fun _ => .refl _
      · refine .ite _ (fun _ => .refl _) fun _ => .bind (nodeAlloc_follows _) fun node => ?_
        exact .ite _ (fun _ => .bind (.refl _) fun _ => .bind (.refl _) fun parent =>
            .bind (descends _ _) fun _ => .refl _)
          fun _ => .bind (.refl _) fun parent => .bind (descends _ _) fun _ => .refl _

theorem rootGrow_follows (inode : Inode) : Follows spoiled (A.strict.rootGrow inode)
    (A.rootGrow inode) :=
  .bind (nodeAlloc_follows _) fun _ => .refl _

theorem growLoop_follows (needed : Nat) : ∀ fuel inode,
    Follows spoiled (A.strict.growLoop needed fuel inode) (A.growLoop needed fuel inode) := by
  intro fuel
  induction fuel with
  | zero => exact fun _ => .refl _
  | succ fuel ih =>
      exact fun inode => .bind (.refl _) fun c =>
          .ite _ (fun _ => .bind (rootGrow_follows _) ih) fun _ => .refl _

theorem insertInChild_follows : ∀ depth level parent i s f blk len,
    Follows spoiled (A.strict.insertInChild depth level parent i s f blk len)
    (A.insertInChild depth level parent i s f blk len) := by
  intro depth
  induction depth with
  | zero => exact fun _ _ _ _ _ _ _ => .refl _
  | succ depth ih =>
      intro level parent i s f blk len
      have descends : ∀ node, Follows spoiled (insertBelow (A.strict.insertInChild depth) node s f
          blk len)
          (insertBelow (A.insertInChild depth) node s f blk len) := fun node =>
        .bind (.refl _) fun buf => .bind (.refl _) fun c =>
            .bind (insertLoop_follows (ih _) _ _ _ _ _ _ _ _) fun _ => .refl _
      rw [insertInChild, insertInChild]
      refine .bind (.refl _) fun slot => ?_
      obtain ⟨state, blocks, addr⟩ := slot
      dsimp only
      refine .ite _ (fun _ => .refl _) fun _ => .ite _ (fun _ => .refl _) fun _ =>
          .ite _ (fun _ => ?_) fun _ =>
        .ite _ (fun _ => .bind (descends _) fun _ => .refl _) fun _ => .refl _
      refine .ite _ (fun _ => .refl _) fun _ => .bind (nodeAlloc_follows _) fun node => ?_
      exact .ite _ (fun _ => .bind (.refl _) fun _ => .bind (.refl _) fun parent =>
          .bind (descends _) fun _ => .refl _)
        fun _ => .bind (.refl _) fun parent => .bind (descends _) fun _ => .refl _

theorem insertRuns_follows (depth : Nat) : ∀ es inode,
    Follows spoiled (A.strict.insertRuns depth es inode) (A.insertRuns depth es inode) := by
  intro es
  induction es with
  | nil => exact fun _ => .refl _
  | cons e rest ih =>
      intro inode
      refine .bind (.bind (.refl _) fun c => .bind
          (insertLoop_follows (insertInChild_follows _ _) _ _ _ _ _ _ _ _) fun out => ?_) ih
      cases out with
      | root payload => exact .refl _
      | node r => exact .refl _

theorem treeEnsure_follows (depth : Nat) (inode : Inode) (fblock n : Nat)
    (fresh : List (Nat × Nat)) :
    Follows spoiled (A.strict.treeEnsure depth inode fblock n fresh)
    (A.treeEnsure depth inode fblock n fresh) := by
  refine .bind (growLoop_follows _ _ _) fun inode => .bind (.refl _) fun c =>
    .bind (ensureLoop_follows (childEnsure_follows _ _) _ _ _ _ _ _ _) fun out => ?_
  obtain ⟨parent, fresh⟩ := out
  cases parent with
  | root payload => exact .refl _
  | node r => exact .refl _

theorem extentEnsure_follows (depth : Nat) (inode : Inode) (fblock n : Nat) :
    Follows spoiled (A.strict.extentEnsure depth inode fblock n)
    (A.extentEnsure depth inode fblock n) := by
  refine .bind (extentLoop_follows _ _ _ _ _) fun out => ?_
  obtain ⟨es, fresh, fragmented⟩ := out
  exact .ite _ (fun _ => .bind (.bind (.refl _) fun level => insertRuns_follows _ _ _) fun _ =>
      .refl _) fun _ => .refl _

theorem mapEnsure_follows (depth : Nat) (inode : Inode) (fblock n : Nat) :
    Follows spoiled (A.strict.mapEnsure depth inode fblock n)
    (A.mapEnsure depth inode fblock n) := by
  refine .bind (.ite _ (fun _ => treeEnsure_follows _ _ _ _ _) fun _ =>
      .bind (extentEnsure_follows _ _ _ _) fun out => ?_)
    fun _ => .refl _
  obtain ⟨inode, fresh⟩ := out
  exact .ite _ (fun _ => treeEnsure_follows _ _ _ _ _) fun _ => .refl _

end Allocator

end FiveFs
