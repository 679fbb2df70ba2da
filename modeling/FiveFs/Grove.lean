import FiveFs.Cover

/-! The children of a root or node, with what they own: what every change of one child keeps, and
how a change below a node is one of the node's parent. -/

namespace FiveFs

open Buffer Prog Radix

section Groves

variable [Crc32c] (Held : Work → (Nat → Prop) → Prop)

/-- The `n` children of level `l` that `parent` has in `w` are stored as `kids`, own their blocks
once, and the allocator keeps these with the rest of `taken`. -/
structure Grove (taken : Nat → Prop) (w : Work) (parent : RootOrNode) (n l : Nat)
    (kids : Nat → Cover) : Prop where
  low : l ≤ 10
  shown : ∃ slots, Shows w parent n l slots ∧ ∀ i < n, Stored w (kids i) l (slots i)
  fits : ∀ i < n, (kids i).Fits NODE_FANOUT RunFits l
  once : ∀ b, uses NODE_FANOUT n kids b ≤ 1
  owned : ∀ b, 0 < uses NODE_FANOUT n kids b → taken b
  ours : ∀ r, parent = .node r → taken r ∧ uses NODE_FANOUT n kids r = 0
  held : Held w taken

/-- What is no node of the children, nor their parent. -/
def Rest (kept taken : Nat → Prop) (parent : RootOrNode) (n : Nat) (kids : Nat → Cover) (b : Nat) :
    Prop :=
  (taken b ∨ kept b) ∧ ¬ Nodes NODE_FANOUT n kids b ∧ parent ≠ .node b

/-- `kids` become `kids'`, which map the pairs of `R` too; no new node is in `taken` or `kept`, and
nothing else of these is touched. -/
structure Changed (kept taken : Nat → Prop) (w : Work) (parent : RootOrNode) (n l s : Nat)
    (kids : Nat → Cover)
    (R : Nat → Nat → Prop) (w' : Work) (parent' : RootOrNode) (kids' : Nat → Cover) : Prop where
  grove : Grove Held (fun b => taken b ∨ 0 < uses NODE_FANOUT n kids' b) w' parent' n l kids'
  adds : Adds taken R (Maps NODE_FANOUT n kids l s) (Maps NODE_FANOUT n kids' l s)
      (uses NODE_FANOUT n kids)
    (uses NODE_FANOUT n kids')
  frame : Untouched (Rest kept taken parent n kids) w w'
  nodes : ∀ b, taken b ∨ kept b → Nodes NODE_FANOUT n kids' b → Nodes NODE_FANOUT n kids b
  kind : ∀ b, parent' = .node b ↔ parent = .node b

variable {Held} {A : Allocator} {Refuses : Err → Work → Prop} {kept taken : Nat → Prop}
  {w w' w'' : Work} {parent parent' parent'' : RootOrNode} {n l s : Nat}
  {kids kids' kids'' : Nat → Cover} {R R' : Nat → Nat → Prop}

theorem Grove.mono (grants : Grants A Refuses Held) (grove : Grove Held taken w parent n l kids)
    {taken' : Nat → Prop}
    (less : ∀ b, taken' b → taken b) (owned : ∀ b, 0 < uses NODE_FANOUT n kids b → taken' b)
    (ours : ∀ r, parent = .node r → taken' r) : Grove Held taken' w parent n l kids :=
  { grove with
    owned := owned
    ours := fun r here => ⟨ours r here, (grove.ours r here).2⟩
    held := grants.mono grove.held less }

theorem Grove.untouched (grove : Grove Held taken w parent n l kids) (same : Untouched taken w w')
    (held : Held w' taken) :
    Grove Held taken w' parent n l kids := by
  obtain ⟨slots, shows_, stored⟩ := grove.shown
  refine { grove with shown := ⟨slots, ?_, fun i hi => ?_⟩, held := held }
  · exact shows_.congr fun r here => same.nodes r (grove.ours r here).1
  · exact (stored i hi).congr fun b used =>
      same.nodes b (grove.owned b (Nat.lt_of_lt_of_le used (uses_kid_le hi b)))

theorem Changed.refl (grants : Grants A Refuses Held) (grove : Grove Held taken w parent n l kids)
    (s : Nat) :
    Changed Held kept taken w parent n l s kids (fun _ _ => False) w parent kids where
  grove := grove.mono grants (fun b either => either.elim id (grove.owned b)) (fun _ => Or.inr)
    fun r here => Or.inl (grove.ours r here).1
  adds := Adds.refl grove.owned
  frame := Untouched.refl _ w
  nodes _ _ := id
  kind _ := Iff.rfl

theorem Changed.trans (grants : Grants A Refuses Held) (grove : Grove Held taken w parent n l kids)
    (h : Changed Held kept taken w parent n l s kids R w' parent' kids')
    (h' : Changed Held kept (fun b => taken b ∨ 0 < uses NODE_FANOUT n kids' b) w' parent' n l s
      kids' R' w'' parent'' kids'') :
    Changed Held kept taken w parent n l s kids (fun f b => R f b ∨ R' f b) w'' parent''
      kids'' where
  grove := h'.grove.mono grants (fun b either =>
      either.elim (fun old => Or.inl (Or.inl old)) Or.inr) (fun _ => Or.inr)
    fun r here => Or.inl (grove.ours r ((h.kind r).mp ((h'.kind r).mp here))).1
  adds := h.adds.trans h'.adds
  frame := by
    refine h.frame.trans (h'.frame.mono ?_)
    rintro b ⟨old, other, away⟩
    exact ⟨old.imp_left Or.inl, fun node => other (h.nodes b old node),
      fun here => away ((h.kind b).mp here)⟩
  nodes b old node := h.nodes b old (h'.nodes b (old.imp_left Or.inl) node)
  kind b := (h'.kind b).trans (h.kind b)

theorem Changed.after (first : Untouched (fun b => taken b ∨ kept b) w w')
    (h : Changed Held kept taken w' parent n l s kids R w'' parent' kids') :
    Changed Held kept taken w parent n l s kids R w'' parent' kids' :=
  { h with frame := (first.mono fun _ rest => rest.1).trans h.frame }

theorem Changed.congr {S : Nat → Nat → Prop} (h : Changed Held kept taken w parent n l s kids R w'
    parent' kids')
    (pairs : ∀ f b, S f b ↔ R f b) :
    Changed Held kept taken w parent n l s kids S w' parent' kids' :=
  { h with adds := h.adds.congr (fun _ => Iff.rfl) pairs }

/-- Child `i` is replaced by `y`, whose blocks the allocator keeps, and set in its parent. -/
theorem Grove.set_run (grants : Grants A Refuses Held) (grove : Grove Held taken w parent n l kids)
    {i st blocks addr : Nat}
    (hi : i < n) {y : Cover} (same : Untouched (fun b => taken b ∨ kept b) w w')
    (held : Held w' fun b => taken b ∨ 0 < y.uses NODE_FANOUT b)
    (fits : y.Fits NODE_FANOUT RunFits l)
    (adds : Adds taken R ((kids i).Maps NODE_FANOUT l (s + i * NODE_FANOUT ^ l))
    (y.Maps NODE_FANOUT l (s + i * NODE_FANOUT ^ l))
      ((kids i).uses NODE_FANOUT) (y.uses NODE_FANOUT))
    (nodes : ∀ b, taken b ∨ kept b → y.HasNode NODE_FANOUT b → (kids i).HasNode NODE_FANOUT b)
    (state : st < 4) (count : blocks < 2 ^ 32) (place : addr < 2 ^ 64)
        (stored : Stored w' y l (st, blocks, addr)) :
    ∃ parent' w'', parent.set i st blocks addr w' = (.ok parent', w'') ∧
      Changed Held kept taken w parent n l s kids R w'' parent' (Function.update kids i y) := by
  obtain ⟨slots, shows_, all⟩ := grove.shown
  have shows' := shows_.congr fun r here => same.nodes r (.inl (grove.ours r here).1)
  obtain ⟨parent', w'', run, shows'', kind, written⟩ :=
      FiveFs.set_run (grants.large held) shows' hi state count place
  have whole := adds.kid hi grove.owned
  -- the parent is no node of the children
  have apart : ∀ r, parent = .node r → y.uses NODE_FANOUT r = 0 := by
    intro r here
    obtain ⟨inside, unused⟩ := grove.ours r here
    have kid : (kids i).uses NODE_FANOUT r ≤ uses NODE_FANOUT n kids r := uses_kid_le hi r
    rw [adds.same r inside]
    omega
  have once : Untouched (fun b => parent ≠ .node b) w' w'' := by
    rcases written with rfl | ⟨r, data, here, rfl, _⟩
    · exact .refl _ _
    · exact untouched_put _ (fun away => away here) w' data
  have reads := once.nodes
  have more : ∀ b, 0 < uses NODE_FANOUT n (Function.update kids i y) b → taken b ∨
      0 < y.uses NODE_FANOUT b := by
    intro b used
    have moved := uses_update (k := NODE_FANOUT) kids hi y b
    by_cases old : 0 < uses NODE_FANOUT n kids b
    · exact Or.inl (grove.owned b old)
    · exact Or.inr (by omega)
  have keeps : Held w'' fun b => taken b ∨ 0 < y.uses NODE_FANOUT b := by
    rcases written with rfl | ⟨r, data, here, rfl, magic⟩
    · exact held
    · exact (grants.write held (Or.inl (grove.ours r here).1) magic).1
  refine ⟨parent', w'', run, ⟨⟨grove.low, ⟨_, shows'', fun j hj => ?_⟩, fun j hj => ?_, ?_,
      fun _ => Or.inr, ?_, ?_⟩, whole,
    (same.mono fun _ => And.left).trans (once.mono fun _ rest => rest.2.2), ?_, kind⟩⟩
  · by_cases here : j = i
    · rw [here, Function.update_self, Function.update_self]
      refine stored.congr fun b used => reads b fun this => ?_
      rw [apart b this] at used
      exact Nat.lt_irrefl 0 used
    · rw [Function.update_of_ne here, Function.update_of_ne here]
      refine (all j hj).congr fun b used => ?_
      have used' := Nat.lt_of_lt_of_le used (uses_kid_le hj b)
      rw [reads b fun this => ?_, same.nodes b (.inl (grove.owned b used'))]
      rw [(grove.ours b this).2] at used'
      exact Nat.lt_irrefl 0 used'
  · by_cases here : j = i
    · rw [here, Function.update_self]
      exact fits
    · rw [Function.update_of_ne here]
      exact grove.fits j hj
  · exact fun b => whole.uses_le grove.once b
  · intro r here
    obtain ⟨inside, unused⟩ := grove.ours r ((kind r).mp here)
    refine ⟨Or.inl inside, ?_⟩
    rw [whole.same r inside, unused]
  · exact grants.mono keeps fun b either => either.elim Or.inl (more b)
  · intro b inside node
    rcases node.of_update with ⟨_, own⟩ | ⟨j, hj, _, below⟩
    · exact ⟨i, hi, nodes b inside own⟩
    · exact ⟨j, hj, below⟩

theorem Grove.below (grove : Grove Held taken w parent n l kids) {i r : Nat} (hi : i < n)
    {sub : Nat → Cover} (here : kids i = .node r sub) :
    0 < l ∧ Grove Held taken w (.node r) NODE_FANOUT (l - 1) sub := by
  obtain ⟨slots, _, all⟩ := grove.shown
  have stored := all i hi
  have fits := grove.fits i hi
  rw [here] at stored fits
  obtain ⟨_, _, buf, read, level, below⟩ := stored
  have whole : ∀ b, (kids i).uses NODE_FANOUT b = (if r = b then 1 else 0) + uses NODE_FANOUT
      NODE_FANOUT sub b :=
    fun b => by rw [here]; rfl
  have kid : ∀ b, (kids i).uses NODE_FANOUT b ≤ uses NODE_FANOUT n kids b :=
      fun b => uses_kid_le hi b
  refine ⟨fits.1, ⟨Nat.le_trans (Nat.sub_le l 1) grove.low,
      ⟨_, ⟨rfl, buf, read, level, fun _ _ => rfl⟩, below⟩, fits.2,
    fun b => ?_, fun b used => grove.owned b ?_, ?_, grove.held⟩⟩
  · have once := grove.once b
    have part := kid b
    rw [whole b] at part
    omega
  · have part := kid b
    rw [whole b] at part
    omega
  · rintro r' same
    cases same
    have once := grove.once r
    have part := kid r
    rw [whole r, if_pos rfl] at part
    exact ⟨grove.owned r (by omega), by omega⟩

/-- A change below child `i` is one of the children. -/
theorem Changed.lift (grants : Grants A Refuses Held) (grove : Grove Held taken w parent n l kids)
    {i r : Nat} (hi : i < n)
    {sub sub' : Nat → Cover} (here : kids i = .node r sub) {parent₁ : RootOrNode}
    (h : Changed Held kept taken w (.node r) NODE_FANOUT (l - 1) (s + i * NODE_FANOUT ^ l) sub R w'
    parent₁ sub') :
    Changed Held kept taken w parent n l s kids R w' parent
      (Function.update kids i (.node r sub')) := by
  obtain ⟨some, inner⟩ := grove.below hi here
  obtain ⟨slots, shows_, all⟩ := grove.shown
  have whole : ∀ b, (kids i).uses NODE_FANOUT b = (if r = b then 1 else 0) + uses NODE_FANOUT
      NODE_FANOUT sub b :=
    fun b => by rw [here]; rfl
  have whole' : ∀ b, (Cover.node r sub').uses NODE_FANOUT b =
      (if r = b then 1 else 0) + uses NODE_FANOUT NODE_FANOUT sub' b := fun b => rfl
  have kid : ∀ b, (kids i).uses NODE_FANOUT b ≤ uses NODE_FANOUT n kids b :=
      fun b => uses_kid_le hi b
  have node : taken r := (inner.ours r rfl).1
  have adds : Adds taken R ((kids i).Maps NODE_FANOUT l (s + i * NODE_FANOUT ^ l))
      ((Cover.node r sub').Maps NODE_FANOUT l (s + i * NODE_FANOUT ^ l)) ((kids i).uses NODE_FANOUT)
      ((Cover.node r sub').uses NODE_FANOUT) := by
    rw [here]
    exact h.adds.node node
  have total := adds.kid hi grove.owned
  have spared : Untouched (fun b => (taken b ∨ kept b) ∧ ¬ (kids i).HasNode NODE_FANOUT b)
      w w' := by
    refine h.frame.mono fun b both => ?_
    rw [here] at both
    refine ⟨both.1, fun node => both.2 (.inr node), fun same => both.2 (.inl ?_)⟩
    cases same
    rfl
  have unread : ∀ b, taken b → (kids i).uses NODE_FANOUT b = 0 → w'.nodeRead b = w.nodeRead b :=
    fun b inside unused => spared.nodes b ⟨.inl inside, fun node => by
      have some := node.uses_pos
      omega⟩
  have parent_unused : ∀ b, parent = .node b → (kids i).uses NODE_FANOUT b = 0 := by
    intro b this
    have part := kid b
    have none := (grove.ours b this).2
    omega
  obtain ⟨slots', shows', below'⟩ := h.grove.shown
  have level' : ∃ buf, w'.nodeRead r = .ok buf ∧ nodeLevel buf = l - 1 ∧
      ∀ j < NODE_FANOUT, Stored w' (sub' j) (l - 1) (nodeSlot buf j) := by
    have same : parent₁ = .node r := (h.kind r).mpr rfl
    rw [same] at shows'
    obtain ⟨_, buf, read, level, slots_⟩ := shows'
    exact ⟨buf, read, level, fun j hj => by rw [slots_ j hj]; exact below' j hj⟩
  have stored := all i hi
  rw [here] at stored
  refine ⟨⟨grove.low, ⟨slots, ?_, fun j hj => ?_⟩, fun j hj => ?_, ?_, fun _ => Or.inr, ?_, ?_⟩,
      total, spared.mono fun b rest => ⟨rest.1, fun node => rest.2.1 ⟨i, hi, node⟩⟩, ?_,
    fun _ => Iff.rfl⟩
  · exact shows_.congr fun b this => unread b (grove.ours b this).1 (parent_unused b this)
  · by_cases this : j = i
    · rw [this, Function.update_self]
      exact ⟨stored.1, stored.2.1, level'⟩
    · rw [Function.update_of_ne this]
      refine (all j hj).congr fun b used => ?_
      exact unread b (grove.owned b (Nat.lt_of_lt_of_le used (uses_kid_le hj b)))
        (uses_apart (grove.once b) hj hi (Ne.symm this) used)
  · by_cases this : j = i
    · rw [this, Function.update_self]
      exact ⟨some, h.grove.fits⟩
    · rw [Function.update_of_ne this]
      exact grove.fits j hj
  · exact fun b => total.uses_le grove.once b
  · intro b this
    obtain ⟨inside, unused⟩ := grove.ours b this
    exact ⟨Or.inl inside, by rw [total.same b inside, unused]⟩
  · refine grants.mono h.grove.held fun b either => ?_
    by_cases inside : taken b
    · exact Or.inl inside
    · have used := either.resolve_left inside
      have none : ¬ 0 < uses NODE_FANOUT n kids b := fun old => inside (grove.owned b old)
      have other : r ≠ b := fun same => inside (same ▸ node)
      have moved := uses_update (k := NODE_FANOUT) kids hi (Cover.node r sub') b
      rw [whole' b, if_neg other, Nat.zero_add] at moved
      exact Or.inr (by omega)
  · intro b inside node
    rcases node.of_update with ⟨_, rfl | below⟩ | ⟨j, hj, _, below⟩
    · exact ⟨i, hi, here ▸ .inl rfl⟩
    · exact ⟨i, hi, here ▸ .inr (h.nodes b inside below)⟩
    · exact ⟨j, hj, below⟩

end Groves

end FiveFs
