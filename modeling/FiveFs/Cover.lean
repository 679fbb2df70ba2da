import FiveFs.Nodes
import FiveFs.Descent
import FiveFs.Lib.Radix

/-! The mapping of a file as radix trees: what is stored for a tree, what the allocator promises,
and that a child is refined without moving what it maps. -/

namespace FiveFs

open Buffer Prog Radix

/-- A run of blocks lies in one AG, and its address in 64 bits. -/
def RunFits (n a : Nat) : Prop := a < 2 ^ 64 ∧ a % 2 ^ 32 + n < 2 ^ 32

theorem RunFits.part {n a m o : Nat} (inside : o + m ≤ n) (fits : RunFits n a) :
    RunFits m (a + o) := by
  obtain ⟨low, room⟩ := fits
  constructor <;> omega

section Laws

variable [Crc32c]

/-- The blocks of `taken` hold what they held, and read as nodes as before. -/
structure Untouched (taken : Nat → Prop) (w w' : Work) : Prop where
  size : w'.blocksize = w.blocksize
  nodes : ∀ b, taken b → w'.nodeRead b = w.nodeRead b
  views : ∀ b, taken b → w'.view b = w.view b

theorem Untouched.refl (taken : Nat → Prop) (w : Work) : Untouched taken w w :=
  ⟨rfl, fun _ _ => rfl, fun _ _ => rfl⟩

/-- What growing a mapping relies on: `Held w taken` is that the allocator of `w` keeps the blocks
of `taken`. Granted runs are not among them, and their contents stay. A call fails with an error of
`Refuses`; one that the caller can handle keeps everything. A block granted alone is a granule. -/
structure Grants (A : Allocator) (Refuses : Err → Work → Prop) (Held : Work → (Nat → Prop) → Prop) :
    Prop where
  large : ∀ {w : Work} {taken : Nat → Prop}, Held w taken → 2048 ≤ w.blocksize
  mono : ∀ {w : Work} {taken taken' : Nat → Prop}, Held w taken → (∀ b, taken' b → taken b) →
      Held w taken'
  write : ∀ {w : Work} {taken : Nat → Prop} {blk : Nat} {data : Bytes}, Held w taken → taken blk →
    getU32 data 0 = TREE_MAGIC → Held (w.put blk data) taken ∧
      ∀ b, taken b → A.granule b w = (.ok 1, w) →
      A.granule b (w.put blk data) = (.ok 1, w.put blk data)
  alloc : ∀ {w : Work} {taken : Nat → Prop} {n : Nat}, Held w taken → 0 < n →
    wp (A.alloc n) (fun a w' => RunFits n a ∧ (∀ b, a ≤ b → b < a + n → ¬ taken b) ∧
      Held w' (fun b => taken b ∨ (a ≤ b ∧ b < a + n)) ∧ Untouched taken w w' ∧
      (n = 1 → A.granule a w' = (.ok 1, w')))
      (fun e w' => Refuses e w' ∧ ((∃ m, e = .bail m) → Held w' taken ∧ Untouched taken w w')) w

/-- A granule of one block can be given back. -/
structure Ledger (A : Allocator) (Refuses : Err → Work → Prop) (Held : Work → (Nat → Prop) → Prop) :
    Prop extends
    Grants A Refuses Held where
  release : ∀ {w : Work} {taken : Nat → Prop} {r : Nat}, Held w taken → taken r →
      A.granule r w = (.ok 1, w) →
    wp (A.free r 1) (fun _ w' => Held w' (fun b => taken b ∧ b ≠ r) ∧
    Untouched (fun b => taken b ∧ b ≠ r) w w')
      Refuses w

/-- What is stored for a child of level `l` that has the state, the blocks and the address of `m`.
-/
def Stored (w : Work) : Cover → Nat → Nat × Nat × Nat → Prop
  | .hole, _, m => m.1 = CELL_FREE
  | .run n a, _, m => m = (CELL_FULL, n, a)
  | .node r kids, l, m =>
      m.1 = CELL_REFINED ∧ m.2.2 = r ∧ ∃ buf, w.nodeRead r = .ok buf ∧ nodeLevel buf = l - 1 ∧
      ∀ i < NODE_FANOUT, Stored w (kids i) (l - 1) (nodeSlot buf i)

/-- The `n` children of level `l` that `parent` has in `w`. -/
def Shows (w : Work) (parent : RootOrNode) (n l : Nat) (slots : Nat → Nat × Nat × Nat) : Prop :=
  match parent with
  | .root p => n = ROOT_FANOUT ∧ rootLevel p = l ∧ ∀ i < n, rootSlot p i = slots i
  | .node r =>
      n = NODE_FANOUT ∧ ∃ buf, w.nodeRead r = .ok buf ∧ nodeLevel buf = l ∧ ∀ i < n,
          nodeSlot buf i = slots i

variable {w w' : Work} {x : Cover} {l : Nat} {m : Nat × Nat × Nat}

theorem Stored.of_nodes (stored : Stored w x l m)
    (same : ∀ b, x.HasNode NODE_FANOUT b → w'.nodeRead b = w.nodeRead b) :
    Stored w' x l m := by
  induction x generalizing l m with
  | hole => exact stored
  | run n a => exact stored
  | node r kids ih =>
      obtain ⟨state, place, buf, read, level, below⟩ := stored
      exact ⟨state, place, buf, by rw [same r (Or.inl rfl), read], level, fun i hi =>
        ih i (below i hi) fun b node => same b (Or.inr ⟨i, hi, node⟩)⟩

theorem Stored.congr (stored : Stored w x l m)
    (same : ∀ b, 0 < x.uses NODE_FANOUT b → w'.nodeRead b = w.nodeRead b) :
    Stored w' x l m := stored.of_nodes fun b node => same b node.uses_pos

theorem Shows.congr {parent : RootOrNode} {n : Nat} {slots : Nat → Nat × Nat × Nat}
    (shows_ : Shows w parent n l slots)
    (same : ∀ r, parent = .node r → w'.nodeRead r = w.nodeRead r) : Shows w' parent n l slots := by
  cases parent with
  | root p => exact shows_
  | node r =>
      obtain ⟨size, buf, read, rest⟩ := shows_
      exact ⟨size, buf, by rw [same r rfl, read], rest⟩

theorem magic_of_read {b : Nat} {buf : Bytes} (read : w.nodeRead b = .ok buf) :
    getU32 buf 0 = TREE_MAGIC := by
  rw [Work.nodeRead] at read
  obtain ⟨data, _, checked⟩ := bind_inv read
  split at checked
  · cases checked
  · rename_i magic
    have here : getU32 data 0 = TREE_MAGIC := not_not.mp magic
    split at checked
    · cases checked
    · rwa [Except.ok.inj checked] at here

theorem get_wp {parent : RootOrNode} {n i : Nat} {slots : Nat → Nat × Nat × Nat}
    (shows_ : Shows w parent n l slots)
    (hi : i < n) : parent.get i w = (.ok (slots i), w) := by
  cases parent with
  | root p =>
      obtain ⟨_, _, same⟩ := shows_
      rw [RootOrNode.get, ← same i hi]
      rfl
  | node r =>
      obtain ⟨rfl, buf, read, _, same⟩ := shows_
      rw [RootOrNode.get, bind_ok _ _ (Work.nodeGet_run read),
          if_neg (Nat.not_le.mpr hi), ← same i hi]
      rfl

theorem set_run {parent : RootOrNode} {n i st blocks addr : Nat} {slots : Nat → Nat × Nat × Nat}
    (large : 2048 ≤ w.blocksize) (shows_ : Shows w parent n l slots) (hi : i < n) (state : st < 4)
    (count : blocks < 2 ^ 32) (place : addr < 2 ^ 64) :
    ∃ parent' w', parent.set i st blocks addr w = (.ok parent', w') ∧
      Shows w' parent' n l (Function.update slots i (st, blocks, addr)) ∧
      (∀ b, parent' = .node b ↔ parent = .node b) ∧
      (w' = w ∨ ∃ r data, parent = .node r ∧ w' = w.put r data ∧ getU32 data 0 = TREE_MAGIC) := by
  have changed : ∀ {slot slot' : Nat × Nat × Nat} {j : Nat},
      slot' = (if j = i then (st, blocks, addr) else slot) →
      slot = slots j → slot' = Function.update slots i (st, blocks, addr) j := by
    intro slot slot' j new old
    rw [new, old, Function.update_apply]
  cases parent with
  | root p =>
      obtain ⟨rfl, level, same⟩ := shows_
      refine ⟨_, w, rfl, ⟨rfl, (rootLevel_set p).trans level, fun j hj => ?_⟩, fun b => ?_,
          Or.inl rfl⟩
      · exact changed (rootSlot_set p hi hj state count place) (same j hj)
      · exact ⟨fun h => (by cases h), fun h => (by cases h)⟩
  | node r =>
      obtain ⟨rfl, buf, read, level, same⟩ := shows_
      have states : NODE_STATES = 24 := rfl
      have magic : getU32 (nodeChildSet (nodeStateSet buf i st) i blocks addr) 0 = TREE_MAGIC := by
        rw [getU32, node_set_head buf (by omega)]
        exact magic_of_read read
      obtain ⟨data, run, magic', buf', read', alike⟩ := Work.nodeWrite_run large magic r
      refine ⟨.node r, w.put r data, ?_, ⟨rfl, buf', read', ?_, fun j hj => ?_⟩, fun b => Iff.rfl,
        Or.inr ⟨r, data, rfl, rfl, magic'⟩⟩
      · rw [RootOrNode.set, bind_ok _ _ (Work.nodeGet_run read), if_neg (Nat.not_le.mpr hi),
            bind_ok _ _ run]
        rfl
      · rw [alike.level, nodeLevel, node_set_head buf (by omega)]
        exact level
      · exact changed ((alike.slots j hj).trans (nodeSlot_set buf hi hj state count place))
            (same j hj)

end Laws

section Images

theorem blank_image (level : Nat) (small : level < 2 ^ 8) :
    getU32 (putBE 1 (putU32 zeros 0 TREE_MAGIC) 16 level) 0 = TREE_MAGIC ∧
      nodeLevel (putBE 1 (putU32 zeros 0 TREE_MAGIC) 16 level) = level ∧
      ∀ i < NODE_FANOUT, nodeSlot (putBE 1 (putU32 zeros 0 TREE_MAGIC) 16 level)
      i = (CELL_FREE, 0, 0) := by
  refine ⟨?_, ?_, fun i hi => ?_⟩
  · rw [getU32, getBE_putBE_disjoint _ (by omega), putU32, getBE_putBE]
    decide
  · rw [nodeLevel, getBE_putBE]
    exact Nat.mod_eq_of_lt small
  · have fan : NODE_FANOUT = 64 := rfl
    have states : NODE_STATES = 24 := rfl
    have start : NODE_CHILDREN = 40 := rfl
    have state : nodeState (putBE 1 (putU32 zeros 0 TREE_MAGIC) 16 level) i = CELL_FREE := by
      have clear : nodeState (putBE 1 (putU32 zeros 0 TREE_MAGIC) 16 level) i = get2 zeros i := by
        refine get2_congr ?_
        rw [drop, putBE_of_not_mem (by omega), putU32, putBE_of_not_mem (by omega)]
        rfl
      rw [clear, get2_zeros]
      rfl
    rw [nodeSlot, state, nodeChild, getU32, getU64, getBE_putBE_disjoint _ (by omega), putU32,
      getBE_putBE_disjoint _ (by omega), getBE_putBE_disjoint _ (by omega),
      getBE_putBE_disjoint _ (by omega), getBE_zeros,
      getBE_zeros]

/-- How a child of a spread run is stored. -/
def slotOf : Cover → Nat × Nat × Nat
  | .hole => (CELL_FREE, 0, 0)
  | .run n a => (CELL_FULL, n, a)
  | .node r _ => (CELL_REFINED, 0, r)

theorem spreadRun_run {c n a : Nat} (fits : RunFits n a) (some : 0 < c)
    (covered : n ≤ NODE_FANOUT * c) :
    ∀ fuel i done buf, n - done ≤ fuel → done = min (i * c) n →
      (∀ j < NODE_FANOUT, i ≤ j → nodeSlot buf j = (CELL_FREE, 0, 0)) →
      ∃ buf', Allocator.spreadRun c n a fuel i done buf = .ok buf' ∧ getU32 buf' 0 = getU32 buf 0 ∧
        nodeLevel buf' = nodeLevel buf ∧
        ∀ j < NODE_FANOUT, nodeSlot buf' j = if j < i then nodeSlot buf j else slotOf
        (spread c n a j) := by
  have finished : ∀ i done buf, ¬ done < n → done = min (i * c) n →
      (∀ j < NODE_FANOUT, i ≤ j → nodeSlot buf j = (CELL_FREE, 0, 0)) →
      ∀ j < NODE_FANOUT, nodeSlot buf j = if j < i then nodeSlot buf j else slotOf
      (spread c n a j) := by
    intro i done buf past eq clear j hj
    split
    · rfl
    · have later : i * c ≤ j * c := Nat.mul_le_mul_right c (by omega)
      rw [clear j hj (by omega), spread, if_neg (by omega)]
      rfl
  intro fuel
  induction fuel with
  | zero =>
      intro i done buf enough eq clear
      exact ⟨buf, rfl, rfl, rfl, finished i done buf (by omega) eq clear⟩
  | succ fuel ih =>
      intro i done buf enough eq clear
      rw [Allocator.spreadRun]
      by_cases more : done < n
      · have inside : i < NODE_FANOUT := by
          by_contra past
          have whole : NODE_FANOUT * c ≤ i * c := Nat.mul_le_mul_right c (by omega)
          omega
        have here : done = i * c := by omega
        have next : (i + 1) * c = i * c + c := Nat.succ_mul i c
        obtain ⟨low, room⟩ := fits
        have set : ∀ j < NODE_FANOUT, nodeSlot (nodeChildSet (nodeStateSet buf i CELL_FULL) i
            (min c (n - done)) (a + done)) j =
            if j = i then (CELL_FULL, min c (n - done), a + done) else nodeSlot buf j := fun j hj =>
          nodeSlot_set buf inside hj (by decide) (by omega) (by omega)
        have states : NODE_STATES = 24 := rfl
        obtain ⟨buf', run, magic, level, slots⟩ := ih (i + 1) (done + min c (n - done))
          (nodeChildSet (nodeStateSet buf i CELL_FULL) i (min c (n - done)) (a + done)) (by omega)
          (by omega)
          (fun j hj later => by rw [set j hj, if_neg (by omega), clear j hj (by omega)])
        refine ⟨buf', ?_, ?_, ?_, fun j hj => ?_⟩
        · rw [if_pos more, if_neg (Nat.not_le.mpr inside)]
          exact run
        · rw [magic, getU32, getU32, node_set_head buf (by omega)]
        · rw [level, nodeLevel, nodeLevel, node_set_head buf (by omega)]
        · rw [slots j hj]
          by_cases this : j = i
          · rw [if_pos (by omega), if_neg (by omega), set j hj, if_pos this, this, spread,
                if_pos (by omega), here]
            rfl
          · by_cases before : j < i
            · rw [if_pos (by omega), if_pos before, set j hj, if_neg this]
            · rw [if_neg (by omega), if_neg before]
      · rw [if_neg more]
        exact ⟨buf, rfl, rfl, rfl, finished i done buf more eq clear⟩

theorem cov_run {level : Nat} (low : level ≤ 10) : cov level = .ok (NODE_FANOUT ^ level) := by
  have bound : NODE_FANOUT ^ level ≤ NODE_FANOUT ^ 10 := Nat.pow_le_pow_right (by decide) low
  have short : NODE_FANOUT ^ 10 ≤ U64_MAX := by decide
  rw [cov, if_pos (Nat.le_trans bound short)]

end Images

section Nodes

variable [Crc32c] {A : Allocator} {Refuses : Err → Work → Prop} {Held : Work → (Nat → Prop) → Prop}
    {taken : Nat → Prop} {w : Work}

theorem untouched_put (taken : Nat → Prop) {r : Nat} (free : ¬ taken r) (w : Work) (data : Bytes) :
    Untouched taken w (w.put r data) :=
  ⟨rfl, fun _ held => Work.nodeRead_put_of_ne fun same => free (same ▸ held),
    fun b held => by
      have other : b ≠ r := fun same => free (same ▸ held)
      rw [Work.view_put, Function.update_of_ne other]⟩

theorem Untouched.trans {w' w'' : Work} (h : Untouched taken w w') (h' : Untouched taken w' w'') :
    Untouched taken w w'' :=
  ⟨h'.size.trans h.size, fun b held => (h'.nodes b held).trans (h.nodes b held),
    fun b held => (h'.views b held).trans (h.views b held)⟩

theorem Untouched.mono {taken' : Nat → Prop} {w' : Work} (h : Untouched taken w w')
    (less : ∀ b, taken' b → taken b) :
    Untouched taken' w w' :=
  ⟨h.size, fun b held => h.nodes b (less b held), fun b held => h.views b (less b held)⟩

theorem Untouched.or_false {w' : Work} (h : Untouched taken w w') :
    Untouched (fun b => taken b ∨ False) w w' := h.mono fun _ => Or.rec id False.elim

theorem Grants.or_false (grants : Grants A Refuses Held) {w : Work} {taken : Nat → Prop}
    (held : Held w taken) : Held w fun b => taken b ∨ False :=
  grants.mono held fun _ => Or.rec id False.elim

/-- A node without children. -/
def Blank (w : Work) (r l : Nat) : Prop :=
  ∃ buf, w.nodeRead r = .ok buf ∧ nodeLevel buf = l ∧
  ∀ i < NODE_FANOUT, nodeSlot buf i = (CELL_FREE, 0, 0)

theorem nodeAlloc_wp (grants : Grants A Refuses Held) (held : Held w taken) {level : Nat}
    (small : level < 2 ^ 8) :
    wp (A.nodeAlloc level) (fun r w' => r < 2 ^ 64 ∧ ¬ taken r ∧
    Held w' (fun b => taken b ∨ r = b) ∧
      Untouched taken w w' ∧ Blank w' r level ∧ A.granule r w' = (.ok 1, w')) Refuses w := by
  rw [Allocator.nodeAlloc, wp_bind]
  refine wp_mono (grants.alloc held Nat.one_pos) ?_ fun e w' refused => refused.1
  rintro r w₁ ⟨fits, free, held₁, untouched, single⟩
  obtain ⟨magic, isLevel, slots⟩ := blank_image level small
  have held₂ : Held w₁ fun b => taken b ∨ r = b :=
      grants.mono held₁ fun b either => either.imp_right fun same => by omega
  obtain ⟨data, run, magic', buf, read, alike⟩ := Work.nodeWrite_run (grants.large held₁) magic r
  have fresh : ¬ taken r := free r (Nat.le_refl r) (by omega)
  obtain ⟨held', kept⟩ := grants.write held₂ (Or.inr rfl) magic'
  rw [wp_bind, wp_run run, wp_pure]
  exact ⟨fits.1, fresh, held', untouched.trans (untouched_put taken fresh w₁ data),
      ⟨buf, read, alike.level.trans isLevel,
    fun i hi => (alike.slots i hi).trans (slots i hi)⟩, kept r (Or.inr rfl) (single rfl)⟩

theorem stored_spread (w : Work) (c n a i l : Nat) :
    Stored w (spread c n a i) l (slotOf (spread c n a i)) := by
  rw [spread]
  split
  · rfl
  · rfl

theorem redistribute_run {r n a l : Nat} (large : 2048 ≤ w.blocksize) (blank : Blank w r l)
    (low : l ≤ 10)
    (fits : RunFits n a) (covered : n ≤ NODE_FANOUT * NODE_FANOUT ^ l) :
    ∃ data, Allocator.redistribute r n a w = (.ok (), w.put r data) ∧ getU32 data 0 = TREE_MAGIC ∧
      ∃ buf, (w.put r data).nodeRead r = .ok buf ∧ nodeLevel buf = l ∧
        ∀ i < NODE_FANOUT, nodeSlot buf i = slotOf (spread (NODE_FANOUT ^ l) n a i) := by
  obtain ⟨buf, read, level, clear⟩ := blank
  obtain ⟨buf', run, magic, level', slots⟩ := spreadRun_run fits (Nat.pow_pos (by decide)) covered n
      0 0 buf (Nat.sub_le n 0)
    (by omega) (fun j hj _ => clear j hj)
  have covers : cov (nodeLevel buf) = .ok (NODE_FANOUT ^ l) := by rw [level, cov_run low]
  obtain ⟨data, written, magic', buf'', read', alike⟩ :=
    Work.nodeWrite_run large (magic.trans (magic_of_read read)) r
  refine ⟨data, ?_, magic', buf'', read', ?_, fun i hi => ?_⟩
  · rw [Allocator.redistribute, bind_ok _ _ (Work.nodeGet_run read)]
    refine (bind_ok _ _ (show ofExcept (cov (nodeLevel buf))
        w = (.ok (NODE_FANOUT ^ l), w) by rw [covers]; rfl)).trans ?_
    refine (bind_ok _ _ (show ofExcept (Allocator.spreadRun (NODE_FANOUT ^ l) n a n 0 0 buf)
        w = (.ok buf', w) by
      rw [run]; rfl)).trans ?_
    exact written
  · rw [alike.level, level', level]
  · rw [alike.slots i hi, slots i hi, if_neg (Nat.not_lt_zero i)]

end Nodes

end FiveFs
