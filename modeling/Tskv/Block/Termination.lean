import Tskv.Block.Merge

/-!
# The merge loop ends on any blocks

The `loop` of `DataBlock::merge_blocks` has no bound of its own.  It ends because
of a count: the cells still *pending* (buffered in `buf`, or in a block at or past
its offset) never grow, and fall by at least one in every iteration that finds a
minimum.  `rebuild_vec` only moves a cell from its block into an empty slot, or
steps an offset past the end of an exhausted block, so it keeps the count; the
`for` loop over `buf` then empties every slot at the minimum, and one slot holds
the minimum since `rebuild_vec` read it there (`rebuildVec_min_mem`).

None of this needs sorted blocks or blocks of one type: on unsorted input the
output is out of order, and `insert` drops a taken cell of another type, but a
cell is taken all the same.  So on any blocks whose two vectors have equal
lengths the loop returns within one iteration more than the blocks have rows.
Each iteration calls `rebuild_vec` once, and the model's fuel counts
iterations, so fuel is the number of `rebuild_vec` calls; a run that returns a
block has hit no panic, and in particular no index out of bounds.

## Main results

* `DataBlock.countP_takeMin` — taking the minimum empties exactly the slots at it.
* `DataBlock.mergeLoop_isSome` — the loop returns with more fuel than there are
  pending cells.
* `DataBlock.mergeLoop_add` — more fuel gives the same block.
* `DataBlock.mergeBlocks_loop_ends` — **the merge loop ends on any blocks.**
-/

namespace Tskv

namespace DataBlock

/-! ### One iteration takes a cell -/

/-- The minimum `rebuild_vec` returns is the one it started from or the timestamp
of a buffered cell. -/
theorem rebuildVec_min_mem : ∀ {blocks : List DataBlock} {buf : List (Option DataType)}
    {offsets : List Nat} {acc : Option I64} {buf' : List (Option DataType)} {offsets' : List Nat}
    {m : I64}, rebuildVec blocks buf offsets acc = some (buf', offsets', some m) →
      acc = some m ∨ ∃ c, some c ∈ buf' ∧ c.timestamp = m
  | [], _, _, _, _, _, _, h => by cases h; exact .inl rfl
  | _ :: _, [], _, _, _, _, _, h => by cases h; exact .inl rfl
  | _ :: _, _ :: _, [], _, _, _, _, h => nomatch h
  | _ :: _, _ :: _, _ :: _, acc, _, _, _, h => by
    simp only [rebuildVec, Option.bind_eq_some, Option.map_eq_some'] at h
    obtain ⟨⟨d', o'⟩, -, ⟨bs, os, mm⟩, hs, heq⟩ := h
    simp only [Prod.mk.injEq] at heq
    obtain ⟨rfl, rfl, rfl⟩ := heq
    rcases rebuildVec_min_mem hs with h | ⟨c, hc, rfl⟩
    · cases d' with
      | none => exact .inl h
      | some c =>
        obtain ⟨x, hx, hxc | hxa, -⟩ := minTs_some_spec acc c
        · cases hx ▸ h
          exact .inr ⟨c, List.mem_cons_self _ _, hxc.symm⟩
        · cases hx ▸ h
          exact .inl hxa
    · exact .inr ⟨c, List.mem_cons_of_mem _ hc, rfl⟩

/-- Taking the minimum empties exactly the occupied slots at it. -/
theorem countP_takeMin (m : I64) (buf : List (Option DataType)) (data : Option DataType) :
    (takeMin m buf data).1.countP Option.isSome + buf.countP (·.map DataType.timestamp = some m) =
      buf.countP Option.isSome := by
  induction buf generalizing data with
  | nil => rfl
  | cons d buf ih =>
    cases d with
    | none => simpa [takeMin] using ih data
    | some c =>
      have h₁ := ih (some c)
      have h₂ := ih data
      by_cases h : c.timestamp = m <;> simp [takeMin, h, List.countP_cons] at h₁ h₂ ⊢ <;> omega

/-- A buffer holding a cell at the minimum has a cell to keep. -/
theorem takeMin_isSome {m : I64} {buf : List (Option DataType)} {c : DataType} (hc : some c ∈ buf)
    (hcm : c.timestamp = m) (data : Option DataType) : (takeMin m buf data).2.isSome := by
  rw [takeMin_eq, Option.isSome_iff_ne_none, Ne, foldl_or_eq_none]
  rintro ⟨-, h⟩
  simpa [Option.filter_some, hcm] using h _ hc

/-- **Every iteration that finds a minimum takes a cell**, whatever the buffer and
the offsets: the cell to keep is set, and fewer slots are occupied. -/
theorem takeMin_takes {blocks : List DataBlock} {buf buf' : List (Option DataType)}
    {offsets offsets' : List Nat} {m : I64}
    (h : rebuildVec blocks buf offsets none = some (buf', offsets', some m)) :
    (takeMin m buf' none).2.isSome ∧
      (takeMin m buf' none).1.countP Option.isSome < buf'.countP Option.isSome := by
  obtain ⟨c, hc, hcm⟩ := (rebuildVec_min_mem h).resolve_left nofun
  have hpos : 0 < buf'.countP (·.map DataType.timestamp = some m) :=
    List.countP_pos_iff.2 ⟨_, hc, by simp [hcm]⟩
  have := countP_takeMin m buf' none
  exact ⟨takeMin_isSome hc hcm none, by omega⟩

/-! ### Fuel -/

/-- One more unit of fuel gives the same block. -/
theorem mergeLoop_succ_of : ∀ {fuel : Nat} {blocks : List DataBlock}
    {buf : List (Option DataType)} {offsets : List Nat} {res res' : DataBlock},
    mergeLoop fuel blocks buf offsets res = some res' →
      mergeLoop (fuel + 1) blocks buf offsets res = some res'
  | 0, _, _, _, _, _, h => nomatch h
  | fuel + 1, blocks, buf, offsets, res, res', h => by
    rw [mergeLoop] at h ⊢
    obtain ⟨⟨b', o', min⟩, hs, h⟩ := Option.bind_eq_some.1 h
    rw [hs, Option.some_bind]
    cases min with
    | none => exact h
    | some min => exact mergeLoop_succ_of h

/-- More fuel gives the same block. -/
theorem mergeLoop_add {fuel : Nat} {blocks : List DataBlock} {buf : List (Option DataType)}
    {offsets : List Nat} {res res' : DataBlock} (h : mergeLoop fuel blocks buf offsets res = some res')
    (k : Nat) : mergeLoop (fuel + k) blocks buf offsets res = some res' := by
  induction k with
  | zero => exact h
  | succ k ih => exact mergeLoop_succ_of ih

/-- **Enough fuel**: on aligned vectors of well-formed blocks the loop returns
once it has more fuel than there are pending cells. -/
theorem mergeLoop_isSome {blocks : List DataBlock} (hwf : ∀ b ∈ blocks, b.WellFormed) :
    ∀ (fuel : Nat) {buf : List (Option DataType)} {offsets : List Nat} (res : DataBlock),
      blocks.length = buf.length → buf.length = offsets.length →
      total (pending blocks buf offsets) < fuel →
      ∃ res', mergeLoop fuel blocks buf offsets res = some res'
  | 0, _, _, _, _, _, hfuel => absurd hfuel (Nat.not_lt_zero _)
  | fuel + 1, buf, offsets, res, hb, ho, hfuel => by
    obtain ⟨buf', offsets', hr, -, hl1, hl2, hstep⟩ := loop_iteration hwf hb ho
    simp only [mergeLoop, hr, Option.some_bind]
    cases hm : minHead (pending blocks buf offsets) with
    | none => exact ⟨res, rfl⟩
    | some m =>
      obtain ⟨-, hclear, hlen⟩ := hstep m
      exact mergeLoop_isSome hwf fuel _ (hl1.trans hlen.symm) (hlen.trans hl2)
        (by rw [hclear]; have := total_dropMin_lt hm; omega)

/-- Started as `merge_blocks` starts it, the loop returns within one iteration
more than the blocks have rows, and more iterations change nothing. -/
theorem mergeLoop_start {blocks : List DataBlock} (hwf : ∀ b ∈ blocks, b.WellFormed)
    (res : DataBlock) : ∃ res', ∀ fuel, 1 + (blocks.map fun b => b.ts.length).sum ≤ fuel →
      mergeLoop fuel blocks (List.replicate blocks.length none) (List.replicate blocks.length 0)
        res = some res' := by
  obtain ⟨res', h⟩ : ∃ res', mergeLoop (1 + (blocks.map fun b => b.ts.length).sum) blocks
      (List.replicate blocks.length none) (List.replicate blocks.length 0) res = some res' :=
    mergeLoop_isSome hwf _ res (by simp) (by simp) (by rw [total_start hwf]; omega)
  refine ⟨res', fun fuel hfuel => ?_⟩
  obtain ⟨k, rfl⟩ := Nat.exists_eq_add_of_le hfuel
  exact mergeLoop_add h k

/-! ### The loop of `merge_blocks` -/

/-- **The merge loop ends on any blocks.**  For a non-empty list of blocks whose
`ts` and `val` have equal lengths, in any order and of any mix of types:
`merge_blocks` returns a block; its loop, started as `merge_blocks` starts it,
returns within one iteration (one `rebuild_vec` call) more than the blocks have
rows, without a panic, and more iterations change nothing; and every iteration in
which `rebuild_vec` finds a minimum takes at least one buffered cell. -/
theorem mergeBlocks_loop_ends {blocks : List DataBlock} (hne : blocks ≠ [])
    (hwf : ∀ b ∈ blocks, b.ts.length = b.valLen) :
    (∃ res, mergeBlocks blocks = some res) ∧
    (∀ res, ∃ res', ∀ fuel, 1 + (blocks.map fun b => b.ts.length).sum ≤ fuel →
      mergeLoop fuel blocks (List.replicate blocks.length none) (List.replicate blocks.length 0)
        res = some res') ∧
    ∀ (buf buf' : List (Option DataType)) (offsets offsets' : List Nat) (min : I64),
      rebuildVec blocks buf offsets none = some (buf', offsets', some min) →
      (takeMin min buf' none).2.isSome ∧
        (takeMin min buf' none).1.countP Option.isSome < buf'.countP Option.isSome := by
  refine ⟨?_, mergeLoop_start hwf, fun _ _ _ _ _ h => takeMin_takes h⟩
  match blocks, hne, hwf with
  | [b], _, _ => exact ⟨b, rfl⟩
  | b :: b' :: bs, _, hwf =>
    obtain ⟨res, hnew, -⟩ := new_eq_some b.fieldType_ne_unknown b.len
    obtain ⟨res', h⟩ := mergeLoop_start hwf res
    exact ⟨res', by simpa only [mergeBlocks, hnew, Option.some_bind] using h _ (Nat.add_comm _ _).le⟩

/-- Two blocks out of order and of two types: the unsorted `U64` block
`[3, 1]` and the `I64` block `[2]`. -/
theorem mergeBlocks_loop_ends_unsorted_mixed :
    ∃ blocks : List DataBlock,
      blocks = [u64 [I64.ofInt 3, I64.ofInt 1] [30, 10], i64 [I64.ofInt 2] [I64.ofInt 20]] ∧
      (blocks ≠ [] ∧ ∀ b ∈ blocks, b.ts.length = b.valLen) ∧
      (∃ res, mergeBlocks blocks = some res) ∧
      (∀ res, ∃ res', ∀ fuel, 1 + (blocks.map fun b => b.ts.length).sum ≤ fuel →
        mergeLoop fuel blocks (List.replicate blocks.length none) (List.replicate blocks.length 0)
          res = some res') ∧
      ∀ (buf buf' : List (Option DataType)) (offsets offsets' : List Nat) (min : I64),
        rebuildVec blocks buf offsets none = some (buf', offsets', some min) →
        (takeMin min buf' none).2.isSome ∧
          (takeMin min buf' none).1.countP Option.isSome < buf'.countP Option.isSome :=
  ⟨_, rfl, ⟨by decide, by decide⟩, mergeBlocks_loop_ends (by decide) (by decide)⟩

end DataBlock

end Tskv
