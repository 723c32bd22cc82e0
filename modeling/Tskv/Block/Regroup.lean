import Tskv.Block.Merge

/-!
# Merging in stages

A compaction may merge some blocks first and merge the result with the others
later.  On sorted blocks of one type that gives the block `merge_blocks` gives
in one pass: replacing any run of consecutive blocks by their merge changes
nothing (`mergeBlocks_regroup`).  Nor does merging the same blocks twice over
(`mergeBlocks_append_self`).

The proof compares last cells, not runs of the loop.  The last cell at a
timestamp over a list of lists is the last one over its tail, else over its
front (`lastAt_append`), and the merge of a run has the run's last cells
(`lastAt_single_of_isLastWins`).  Two strictly increasing lists with the same
cells are equal (`eq_of_strictTs_of_mem_iff`), and two well-formed blocks of one
type with the same cells are equal (`eq_of_cells_eq`).

## Main results

* `DataBlock.isLastWins_unique` — the last-writer-wins merge is determined by the
  last cells.
* `DataBlock.mergeBlocks_congr` — `merge_blocks` depends on the last cells alone.
* `DataBlock.mergeBlocks_regroup` — **merging a run of blocks first changes
  nothing.**
* `DataBlock.mergeBlocks_append_self` — merging the blocks twice over changes
  nothing.
-/

namespace Tskv

namespace DataBlock

/-! ### Last cells over concatenated lists -/

theorem foldl_or_eq_or {α β : Type} (f : α → Option β) :
    ∀ (l : List α) (a : Option β),
      l.foldl (fun acc x => (f x).or acc) a = (l.foldl (fun acc x => (f x).or acc) none).or a
  | [], _ => rfl
  | x :: l, a => by
    simp only [List.foldl_cons, Option.or_none]
    rw [foldl_or_eq_or f l, foldl_or_eq_or f l (f x), Option.or_assoc]

/-- Later lists win: the last cell over `P ++ Q` is the last one over `Q`, else
over `P`. -/
theorem lastAt_append (P Q : List (List DataType)) (t : I64) :
    lastAt (P ++ Q) t = (lastAt Q t).or (lastAt P t) := by
  rw [lastAt, List.foldl_append, foldl_or_eq_or]
  rfl

/-- A last-writer-wins merge has the last cells of what it merges. -/
theorem lastAt_single_of_isLastWins {L : List DataType} {P : List (List DataType)}
    (h : IsLastWins L P) (t : I64) : lastAt [L] t = lastAt P t := by
  have hfind : lastAt [L] t = L.find? (·.timestamp = t) := by simp [lastAt]
  rw [hfind]
  cases hc : L.find? (·.timestamp = t) with
  | some c =>
    have hct : c.timestamp = t := by simpa using List.find?_some hc
    exact (hct ▸ (h.2 c).1 (List.mem_of_find?_eq_some hc)).symm
  | none =>
    refine (lastAt_eq_none.2 fun L' hL' c hcL' hct => ?_).symm
    obtain ⟨c', hc'⟩ := exists_lastAt.2 ⟨L', hL', c, hcL', hct⟩
    have := List.find?_eq_none.1 hc c' ((h.2 c').2 ((lastAt_eq_some hc').1 ▸ hc'))
    simp [(lastAt_eq_some hc').1] at this

/-! ### Uniqueness -/

/-- Two strictly increasing lists with the same cells are equal. -/
theorem eq_of_strictTs_of_mem_iff : ∀ {a b : List DataType}, StrictTs a → StrictTs b →
    (∀ c, c ∈ a ↔ c ∈ b) → a = b
  | [], [], _, _, _ => rfl
  | [], c :: _, _, _, h => absurd ((h c).2 (List.mem_cons_self _ _)) (List.not_mem_nil _)
  | c :: _, [], _, _, h => absurd ((h c).1 (List.mem_cons_self _ _)) (List.not_mem_nil _)
  | x :: a, y :: b, ha, hb, h => by
    have tail : ∀ {x : DataType} {a b : List DataType}, StrictTs (x :: a) →
        (∀ c, c ∈ x :: a ↔ c ∈ x :: b) → ∀ c ∈ a, c ∈ b := by
      intro x a b ha h c hc
      have hlt := List.rel_of_pairwise_cons ha hc
      refine (List.mem_cons.1 ((h c).1 (List.mem_cons_of_mem _ hc))).resolve_left fun e => ?_
      subst e
      exact lt_irrefl _ (I64.lt_def.1 hlt)
    have hxy : x = y := by
      by_contra hne
      have hx := List.rel_of_pairwise_cons hb
        ((List.mem_cons.1 ((h x).1 (List.mem_cons_self _ _))).resolve_left hne)
      have hy := List.rel_of_pairwise_cons ha
        ((List.mem_cons.1 ((h y).2 (List.mem_cons_self _ _))).resolve_left (Ne.symm hne))
      simp only [I64.lt_def] at hx hy
      omega
    subst hxy
    exact congrArg _ (eq_of_strictTs_of_mem_iff ha.of_cons hb.of_cons fun c =>
      ⟨tail ha h c, tail hb (fun c => (h c).symm) c⟩)

/-- **The last-writer-wins merge is determined by the last cells.** -/
theorem isLastWins_unique {a b : List DataType} {P Q : List (List DataType)}
    (ha : IsLastWins a P) (hb : IsLastWins b Q) (h : ∀ t, lastAt P t = lastAt Q t) : a = b :=
  eq_of_strictTs_of_mem_iff ha.1 hb.1 fun c => by rw [ha.2, hb.2, h]

theorem zipWith_inj {α : Type} {mk : I64 → α → DataType}
    (hmk : ∀ t v t' v', mk t v = mk t' v' → t = t' ∧ v = v') :
    ∀ {ts ts' : List I64} {val val' : List α}, ts.length = val.length →
      ts'.length = val'.length → List.zipWith mk ts val = List.zipWith mk ts' val' →
      ts = ts' ∧ val = val'
  | [], [], [], [], _, _, _ => ⟨rfl, rfl⟩
  | t :: ts, t' :: ts', v :: val, v' :: val', h, h', he => by
    simp only [List.zipWith_cons_cons, List.cons.injEq] at he
    obtain ⟨rfl, rfl⟩ := hmk _ _ _ _ he.1
    obtain ⟨rfl, rfl⟩ := zipWith_inj hmk (Nat.succ.inj h) (Nat.succ.inj h') he.2
    exact ⟨rfl, rfl⟩
  | [], _ :: _, [], _ :: _, _, _, he | _ :: _, [], _ :: _, [], _, _, he => nomatch he
  | [], _, _ :: _, _, h, _, _ | _ :: _, _, [], _, h, _, _ | _, [], _, _ :: _, _, h, _
  | _, _ :: _, _, [], _, h, _ => by simp at h

/-- Two well-formed blocks of one type with the same cells are equal. -/
theorem eq_of_cells_eq {a b : DataBlock} (ha : a.WellFormed) (hb : b.WellFormed)
    (hft : a.fieldType = b.fieldType) (h : a.cells = b.cells) : a = b := by
  cases a <;> cases b <;> simp only [fieldType, reduceCtorEq] at hft <;>
    obtain ⟨rfl, rfl⟩ :=
      zipWith_inj (by intro _ _ _ _ e; cases e; exact ⟨rfl, rfl⟩) ha hb h <;> rfl

/-- `merge_blocks` on sorted blocks of one type depends on the last cells alone:
two lists of such blocks with the same last cell at every timestamp merge to the
same block. -/
theorem mergeBlocks_congr {bs bs' : List DataBlock} {ft : ValueType}
    (hne : bs ≠ []) (hft : ∀ b ∈ bs, b.fieldType = ft) (hwf : ∀ b ∈ bs, b.WellFormed)
    (hsorted : ∀ b ∈ bs, b.ts.Sorted (· < ·))
    (hne' : bs' ≠ []) (hft' : ∀ b ∈ bs', b.fieldType = ft) (hwf' : ∀ b ∈ bs', b.WellFormed)
    (hsorted' : ∀ b ∈ bs', b.ts.Sorted (· < ·))
    (h : ∀ t, lastAt (bs.map cells) t = lastAt (bs'.map cells) t) :
    mergeBlocks bs = mergeBlocks bs' := by
  obtain ⟨r, hr, hrft, hrwf, hrwins⟩ := mergeBlocks_isLastWins hne hft hwf hsorted
  obtain ⟨r', hr', hrft', hrwf', hrwins'⟩ := mergeBlocks_isLastWins hne' hft' hwf' hsorted'
  rw [hr, hr', eq_of_cells_eq hrwf hrwf' (hrft.trans hrft'.symm) (isLastWins_unique hrwins hrwins' h)]

/-! ### Merging a run first -/

/-- **Merging a run of blocks first changes nothing.**  For sorted blocks of one
type whose two vectors have equal lengths, and a non-empty run `bs₂` of them
between `bs₁` and `bs₃`: `merge_blocks` of the run returns a block, and
`merge_blocks` with that block in place of the run returns what `merge_blocks`
of all the blocks returns. -/
theorem mergeBlocks_regroup {bs₁ bs₂ bs₃ : List DataBlock} {ft : ValueType}
    (hne : bs₂ ≠ []) (hft : ∀ b ∈ bs₁ ++ bs₂ ++ bs₃, b.fieldType = ft)
    (hsorted : ∀ b ∈ bs₁ ++ bs₂ ++ bs₃, b.ts.Sorted (· < ·))
    (hwf : ∀ b ∈ bs₁ ++ bs₂ ++ bs₃, b.ts.length = b.valLen) :
    ∃ res, mergeBlocks bs₂ = some res ∧
      mergeBlocks (bs₁ ++ res :: bs₃) = mergeBlocks (bs₁ ++ bs₂ ++ bs₃) := by
  have h₂ : ∀ b ∈ bs₂, b ∈ bs₁ ++ bs₂ ++ bs₃ := fun b hb => by simp [hb]
  obtain ⟨res, hres, hrft, hrwf, hrwins⟩ := mergeBlocks_isLastWins hne
    (fun b hb => hft b (h₂ b hb)) (fun b hb => hwf b (h₂ b hb))
    (fun b hb => hsorted b (h₂ b hb))
  have hrs : res.ts.Sorted (· < ·) := by
    rw [ts_eq_map_cells hrwf, List.Sorted, List.pairwise_map]
    exact hrwins.1
  have hmem : ∀ b ∈ bs₁ ++ res :: bs₃, b = res ∨ b ∈ bs₁ ++ bs₂ ++ bs₃ := by
    intro b hb
    simp only [List.mem_append, List.mem_cons] at hb ⊢
    tauto
  have hall : ∀ {p : DataBlock → Prop}, p res → (∀ b ∈ bs₁ ++ bs₂ ++ bs₃, p b) →
      ∀ b ∈ bs₁ ++ res :: bs₃, p b := fun hr hp b hb => (hmem b hb).elim (· ▸ hr) (hp b)
  refine ⟨res, hres, mergeBlocks_congr (by simp) (hall hrft hft) (hall hrwf hwf)
    (hall hrs hsorted) (by simp [hne]) hft hwf hsorted fun t => ?_⟩
  rw [List.map_append, List.map_cons, List.append_cons]
  simp only [List.map_append, lastAt_append, lastAt_single_of_isLastWins hrwins]

/-- Four `U64` blocks, the middle two merged first. -/
theorem mergeBlocks_regroup_middle :
    ∃ bs₁ bs₂ bs₃ : List DataBlock, bs₁ = [u64 [I64.ofInt 1, I64.ofInt 2] [10, 20]] ∧
      bs₂ = [u64 [I64.ofInt 2] [12], u64 [I64.ofInt 3] [13]] ∧
      bs₃ = [u64 [I64.ofInt 1] [11]] ∧
      (bs₂ ≠ [] ∧ (∀ b ∈ bs₁ ++ bs₂ ++ bs₃, b.fieldType = .unsigned) ∧
        (∀ b ∈ bs₁ ++ bs₂ ++ bs₃, b.ts.Sorted (· < ·)) ∧
        ∀ b ∈ bs₁ ++ bs₂ ++ bs₃, b.ts.length = b.valLen) ∧
      ∃ res, mergeBlocks bs₂ = some res ∧
        mergeBlocks (bs₁ ++ res :: bs₃) = mergeBlocks (bs₁ ++ bs₂ ++ bs₃) :=
  ⟨_, _, _, rfl, rfl, rfl, ⟨by decide, by decide, by decide, by decide⟩,
    @mergeBlocks_regroup _ _ _ .unsigned (by decide) (by decide) (by decide) (by decide)⟩

/-- **Merging the blocks twice over changes nothing.**  For a non-empty list of
sorted blocks of one type whose two vectors have equal lengths, `merge_blocks` of
the list followed by itself returns what `merge_blocks` of the list returns. -/
theorem mergeBlocks_append_self {bs : List DataBlock} {ft : ValueType} (hne : bs ≠ [])
    (hft : ∀ b ∈ bs, b.fieldType = ft) (hsorted : ∀ b ∈ bs, b.ts.Sorted (· < ·))
    (hwf : ∀ b ∈ bs, b.ts.length = b.valLen) :
    mergeBlocks (bs ++ bs) = mergeBlocks bs := by
  have hself : ∀ {p : DataBlock → Prop}, (∀ b ∈ bs, p b) → ∀ b ∈ bs ++ bs, p b :=
    fun hp b hb => (List.mem_append.1 hb).elim (hp b) (hp b)
  refine mergeBlocks_congr (by simp [hne]) (hself hft) (hself hwf) (hself hsorted) hne hft hwf
    hsorted fun t => ?_
  rw [List.map_append, lastAt_append, Option.or_self]

/-- Two overlapping `U64` blocks, merged twice over. -/
theorem mergeBlocks_append_self_two_u64 :
    ∃ bs : List DataBlock, bs = [u64 [I64.ofInt 1, I64.ofInt 2] [10, 20],
        u64 [I64.ofInt 2, I64.ofInt 3] [21, 30]] ∧
      (bs ≠ [] ∧ (∀ b ∈ bs, b.fieldType = .unsigned) ∧ (∀ b ∈ bs, b.ts.Sorted (· < ·)) ∧
        ∀ b ∈ bs, b.ts.length = b.valLen) ∧
      mergeBlocks (bs ++ bs) = mergeBlocks bs :=
  ⟨_, rfl, ⟨by decide, by decide, by decide, by decide⟩,
    @mergeBlocks_append_self _ .unsigned (by decide) (by decide) (by decide) (by decide)⟩

end DataBlock

end Tskv
