import Cbfuse.Files
import Cbfuse.Tree

/-!
# The size in the stat

The size of a file is in its stat and its bytes are in its block, and the
two are written by separate requests, on conditions that differ by
operation: a write sets the size only where the block grew, a truncation
sets it always and stores a block only where there is one.

They agree wherever there is a block. A file without one is where they
part: truncating it leaves the block to the next write and sets the size
all the same, so its size is what it was last truncated to
(`sizes_after`).
-/

namespace Cbfuse

variable {Text : Type}

/-- **The sizes agree**: the size in every stat is the length of the block,
and zero where there is none. -/
def Store.SizesAgree (s : Store Text) : Prop :=
  ∀ p v, s.stats.val p = some v →
    ∃ stat, v = .packed stat ∧ stat.stSize = (s.bytesOf p).length

/-- The last call on `p` that changed it. -/
def lastChange (p : CString) (log : Log) : Option FileOp :=
  log.foldl (fun acc x => if x.1.path = p ∧ x.1.Succeeded x.2 then some x.1 else acc) none

theorem lastChange_append (p : CString) (log : Log) (x : FileOp × Option (ℤ × Bytes)) :
    lastChange p (log ++ [x])
      = if x.1.path = p ∧ x.1.Succeeded x.2 then some x.1 else lastChange p log := by
  unfold lastChange
  rw [List.foldl_append]
  rfl

/-- **Every size has its reason.** The size of a file with a block is the
length of the block. The size of a file without one is zero, or the last
call that changed the file truncated it to that size. -/
def SizesExplained (y : Store Text × Log) : Prop :=
  ∀ p v, y.1.stats.val p = some v → ∃ stat, v = .packed stat
    ∧ (∀ b, y.1.blocks.val p = some b → stat.stSize = b.length)
    ∧ (y.1.blocks.val p = none →
        stat.stSize = 0 ∨ lastChange p y.2 = some (.truncate p stat.stSize))

/-- The sizes have their reasons, and there is no block without a stat. -/
structure Sized (y : Store Text × Log) : Prop where
  /-- Every size has its reason. -/
  sizes : SizesExplained y
  /-- A path with a block has a stat. -/
  blocks : ∀ p, y.1.blocks.val p ≠ none → y.1.stats.val p ≠ none

namespace Sized

variable {y : Store Text × Log} {s' : Store Text} {x : FileOp × Option (ℤ × Bytes)}

/-- **One file at a time.** A call that leaves the stats and blocks of all
other paths alone has to be looked at for its own path only. -/
theorem of_path (h : Sized y) (p : CString) (hx : x.1.path = p)
    (hstats : ∀ q, q ≠ p → s'.stats.val q = y.1.stats.val q)
    (hblocks : ∀ q, q ≠ p → s'.blocks.val q = y.1.blocks.val q)
    (hsize : ∀ v, s'.stats.val p = some v → ∃ stat, v = .packed stat
      ∧ (∀ b, s'.blocks.val p = some b → stat.stSize = b.length)
      ∧ (s'.blocks.val p = none →
          stat.stSize = 0 ∨ lastChange p (y.2 ++ [x]) = some (.truncate p stat.stSize)))
    (hblock : s'.blocks.val p ≠ none → s'.stats.val p ≠ none) :
    Sized (s', y.2 ++ [x]) := by
  refine ⟨fun q v hv => ?_, fun q hq => ?_⟩
  · by_cases hqp : q = p
    · subst hqp
      exact hsize v hv
    · dsimp only at hv ⊢
      rw [hstats q hqp] at hv
      rw [hblocks q hqp, lastChange_append, if_neg (fun h => hqp (h.1.symm.trans hx))]
      exact h.sizes q v hv
  · by_cases hqp : q = p
    · subst hqp
      exact hblock hq
    · dsimp only at hq ⊢
      rw [hblocks q hqp] at hq
      rw [hstats q hqp]
      exact h.blocks q hq

/-- A call that fails and changes neither stats nor blocks. -/
theorem of_failed (h : Sized y) (hstats : s'.stats = y.1.stats) (hblocks : s'.blocks = y.1.blocks)
    (hx : ¬ x.1.Succeeded x.2) : Sized (s', y.2 ++ [x]) := by
  refine h.of_path _ rfl (fun q _ => by rw [hstats]) (fun q _ => by rw [hblocks])
    (fun v hv => ?_) (fun hb => ?_)
  · rw [hstats] at hv
    rw [hblocks, lastChange_append, if_neg (fun h => hx h.2)]
    exact h.sizes _ v hv
  · rw [hblocks] at hb
    rw [hstats]
    exact h.blocks _ hb

/-- The stat of a path that has one can be read. -/
theorem statOf (h : Sized y) {p : CString} (hp : y.1.stats.val p ≠ none) :
    ∃ stat cas, y.1.statOf p = .ok (stat, cas) ∧ y.1.stats.val p = some (.packed stat) := by
  obtain ⟨v, hv⟩ := Option.ne_none_iff_exists'.mp hp
  obtain ⟨stat, rfl, -⟩ := h.sizes p v hv
  obtain ⟨⟨w, cas⟩, hd, hw⟩ := Option.map_eq_some_iff.mp hv
  cases hw
  refine ⟨stat, cas, ?_, hv⟩
  unfold Store.statOf
  rw [hd]

/-- A path without a stat has no block. -/
theorem no_block (h : Sized y) {p : CString} (hp : y.1.stats.val p = none) :
    y.1.blocks.val p = none := by
  by_contra hb
  exact h.blocks p hb hp

end Sized

/-! ## Every call keeps them -/

section Calls

variable {y : Store Text × Log} {p : CString}

/-- An `off_t` can tell the length of every file. -/
theorem toOffT_size {n : ℕ} (h : n ≤ maxFileLen) : toOffT n = n := by
  have hlim : (maxFileLen : ℤ) < 2 ^ 63 := by decide
  exact toOffT_of_lt (by omega) (by omega)

/-- A write leaves every size with its reason. -/
theorem wp_write_sized [CJson Text] {buf : Bytes} {offset : ℤ} (h : Sized y)
    (hop : (FileOp.write p buf offset).Legal) (hp : y.1.stats.val p ≠ none) :
    (FileOp.write p buf offset).code.wp serve Choice.FaultFree (fun _ => True)
      (fun r s' => Sized (s', y.2 ++ [(.write p buf offset, some r)])) y.1 := by
  obtain ⟨hbuf, h0, -, hrep⟩ := hop
  have hpos : 0 < buf.length := List.length_pos_of_ne_nil hbuf
  obtain ⟨stat, cas, hst, hval⟩ := h.statOf hp
  show (writeData p buf offset >>= fun r => .ret (r, [])).wp serve _ _ _ y.1
  rw [Prog.wp_bind]
  refine wp_writeData trivial hbuf h0 hrep (fun _ => ?_) (fun hlim fresh => ⟨trivial,
    fun hle => ?_, fun hlt => ⟨fun e he => ?_, fun stat' cas' ts _ => ⟨trivial, ?_⟩⟩⟩)
  · refine h.of_failed rfl rfl (fun hs => ?_)
    have : (-1 : ℤ) = buf.length := Option.some.inj hs
    omega
  · -- the write fits: the block is as long as it was
    have hw := Buffer.overwrites_write (b := y.1.bytesOf p) fresh.2
    refine h.of_path p rfl (fun q _ => rfl) (fun q hq => by simp [hq]) (fun v hv => ?_)
      (fun _ => hp)
    have hv' : v = .packed stat := Option.some.inj (hv.symm.trans hval)
    refine ⟨stat, hv', fun b hb => ?_, fun hb => by simp at hb⟩
    obtain ⟨stat₁, hs₁, hsize, -⟩ := h.sizes p _ hval
    cases hs₁
    simp only [Store.blocks_putBlock, Kv.Collection.val_put, if_true, Option.some.injEq] at hb
    cases hblk : y.1.blocks.val p with
    | none =>
      rw [Store.bytesOf_eq_nil hblk, List.length_nil] at hle
      omega
    | some b₀ =>
      have hb₀ : y.1.bytesOf p = b₀ := Store.bytesOf_of_val hblk
      rw [hsize b₀ hblk, ← hb, hw.length, hb₀]
      rw [hb₀] at hle
      rw [Nat.max_eq_left hle]
  · rw [hst] at he
    cases he
  · -- the write grows the block: the size is its new length
    have hw := Buffer.overwrites_write (b := y.1.bytesOf p) fresh.2
    refine h.of_path p rfl (fun q hq => by simp [hq]) (fun q hq => by simp [hq])
      (fun v hv => ?_) (fun _ => by simp)
    simp only [Store.stats_putStat, Kv.Collection.val_put, if_true, Option.some.injEq] at hv
    refine ⟨_, hv.symm, fun b hb => ?_, fun hb => by simp at hb⟩
    simp only [Store.blocks_putStat, Store.blocks_putBlock, Kv.Collection.val_put, if_true,
      Option.some.injEq] at hb
    rw [CbfuseStat.stSize_resize, toOffT_size (by omega), ← hb, hw.length,
      Nat.max_eq_right (Nat.le_of_lt hlt)]

/-- A truncation leaves every size with its reason. -/
theorem wp_truncate_sized [CJson Text] {offset : ℤ} (h : Sized y)
    (hop : (FileOp.truncate p offset).Legal) (hp : y.1.stats.val p ≠ none) :
    (FileOp.truncate p offset).code.wp serve Choice.FaultFree (fun _ => True)
      (fun r s' => Sized (s', y.2 ++ [(.truncate p offset, some r)])) y.1 := by
  obtain ⟨h0, hrep⟩ := hop
  obtain ⟨stat, cas, hst, hval⟩ := h.statOf hp
  show (truncateData p offset >>= fun r => .ret (r, [])).wp serve _ _ _ y.1
  rw [Prog.wp_bind]
  refine wp_truncateData trivial h0 hrep (fun _ => ?_) (fun _ _ => ?_)
    (fun s₁ hlim hcut => ⟨trivial, fun e he => ?_, fun stat' cas' ts _ => ⟨trivial, ?_⟩⟩)
  · exact h.of_failed rfl rfl (fun hs => absurd (Option.some.inj hs) (by decide))
  · exact h.of_failed rfl rfl (fun hs => absurd (Option.some.inj hs) (by decide))
  · rw [hst] at he
    cases he
  · have hblocks : ∀ q, q ≠ p → s₁.blocks.val q = y.1.blocks.val q := by
      intro q hq
      cases hcut <;> simp [hq]
    refine h.of_path p rfl (fun q hq => by simp [hq, hcut.stats]) hblocks (fun v hv => ?_)
      (fun _ => by simp)
    simp only [Store.stats_putStat, Kv.Collection.val_put, if_true, Option.some.injEq] at hv
    have hsize : (stat'.resize offset.toNat ts).stSize = offset := by
      rw [CbfuseStat.stSize_resize, toOffT_size (by omega)]
      omega
    refine ⟨_, hv.symm, fun b hb => ?_, fun hb => ?_⟩
    · rw [hsize]
      cases hcut with
      | removed hz hb₀ => simp at hb
      | nothing hz hb₀ => simp [hb₀] at hb
      | cut hz b₀ past hb₀ hpast =>
        simp only [Store.blocks_putStat, Store.blocks_putBlock, Kv.Collection.val_put, if_true,
          Option.some.injEq] at hb
        rw [← hb, List.length_append, List.length_take]
        omega
    · rw [hsize]
      refine or_iff_not_imp_left.mpr (fun _ => ?_)
      rw [lastChange_append, if_pos ⟨rfl, rfl⟩]

/-- A creation makes a size of zero, and leaves the others with their reasons. -/
theorem wp_create_sized [CJson Text] {mode : ℕ} (h : Sized y) :
    (FileOp.create p mode).code.wp serve Choice.FaultFree (fun _ => True)
      (fun r s' => Sized (s', y.2 ++ [(.create p mode, some r)])) y.1 := by
  have hfail : ∀ r : ℤ, r ≠ 0 → Sized (y.1, y.2 ++ [(.create p mode, some (r, []))]) :=
    fun r hr => h.of_failed rfl rfl (fun hs => hr (Option.some.inj hs))
  show (cbfuseCreate p mode >>= fun r => .ret (r, [])).wp serve _ _ _ y.1
  rw [Prog.wp_bind]
  unfold cbfuseCreate
  split
  · exact hfail _ (by decide)
  · split
    · exact hfail _ (by decide)
    · rw [Prog.wp_bind]
      refine wp_insertStat trivial (fun hnew ts => ⟨trivial, ?_⟩) (fun _ => ?_)
      · rw [if_neg (by decide)]
        -- whatever becomes of the name, there is now a stat of size zero and no block
        have hnew' : ∀ (r : ℤ) (s' : Store Text),
            s'.stats = (y.1.putStat p (rootStat mode ts)).stats → s'.blocks = y.1.blocks →
              Sized (s', y.2 ++ [(.create p mode, some (r, []))]) := by
          intro r s' hs hb
          refine h.of_path p rfl (fun q hq => by simp [hs, hq]) (fun q _ => by rw [hb])
            (fun v hv => ?_) (fun _ => by simp [hs])
          simp only [hs, Store.stats_putStat, Kv.Collection.val_put, if_true,
            Option.some.injEq] at hv
          refine ⟨_, hv.symm, fun b hb' => ?_, fun _ => .inl rfl⟩
          rw [hb, h.no_block hnew] at hb'
          cases hb'
        exact wp_editDentry trivial (fun _ => hnew' _ _ rfl rfl) (fun _ _ _ => hnew' _ _ rfl rfl)
          (fun _ _ _ _ => ⟨trivial, hnew' _ _ rfl rfl⟩)
      · rw [if_pos (by decide)]
        exact hfail _ (by decide)

/-- An unlink leaves every size with its reason. -/
theorem wp_unlink_sized [CJson Text] (h : Sized y) :
    (FileOp.unlink p).code.wp serve Choice.FaultFree (fun _ => True)
      (fun r s' => Sized (s', y.2 ++ [(.unlink p, some r)])) y.1 := by
  -- in the end the path has neither a block nor a stat
  have hgone : ∀ (r : ℤ) (s' : Store Text), (∀ q, q ≠ p → s'.stats.val q = y.1.stats.val q) →
      (∀ q, q ≠ p → s'.blocks.val q = y.1.blocks.val q) → s'.stats.val p = none →
      s'.blocks.val p = none → Sized (s', y.2 ++ [(.unlink p, some (r, []))]) := by
    intro r s' hs hb hsp hbp
    exact h.of_path p rfl hs hb (fun v hv => by rw [hsp] at hv; cases hv)
      (fun hne => absurd hbp hne)
  have hstat : ∀ s₁ : Store Text, s₁.stats = y.1.stats →
      (∀ q, q ≠ p → s₁.blocks.val q = y.1.blocks.val q) → s₁.blocks.val p = none →
      (removeStat p).wp serve Choice.FaultFree (fun _ => True)
        (fun r s' => Sized (s', y.2 ++ [(.unlink p, some (r, []))])) s₁ := by
    intro s₁ hs hb hbp
    exact wp_removeStat trivial
      (fun _ => ⟨trivial, hgone _ _ (fun q hq => by simp [hs, hq]) hb (by simp) hbp⟩)
      (fun hnone => hgone _ _ (fun q _ => by rw [hs]) hb hnone hbp)
  have hrest : ∀ s₁ : Store Text, s₁.stats = y.1.stats →
      (∀ q, q ≠ p → s₁.blocks.val q = y.1.blocks.val q) → s₁.blocks.val p = none →
      (do let _ ← removeChildFromDentry p.dirname p.basename; removeStat p : Op Text ℤ).wp
        serve Choice.FaultFree (fun _ => True)
        (fun r s' => Sized (s', y.2 ++ [(.unlink p, some (r, []))])) s₁ := by
    intro s₁ hs hb hbp
    rw [Prog.wp_bind]
    exact wp_editDentry trivial (fun _ => hstat _ hs hb hbp) (fun _ _ _ => hstat _ hs hb hbp)
      (fun _ _ _ _ => ⟨trivial, hstat _ hs hb hbp⟩)
  show (cbfuseUnlink p >>= fun r => .ret (r, [])).wp serve _ _ _ y.1
  rw [Prog.wp_bind]
  unfold cbfuseUnlink
  rw [Prog.wp_bind]
  exact wp_removeData trivial
    (fun _ => ⟨trivial, hrest _ rfl (fun q hq => by simp [hq]) (by simp)⟩)
    (fun hb => hrest _ rfl (fun _ _ => rfl) hb)

/-- **A call that changes files**: it makes or removes one, or writes or
truncates one that is there. -/
def FileOp.Changes (op : FileOp) (s : Store Text) : Prop :=
  op.Legal ∧
    match op with
    | create _ _ => True
    | unlink _ => True
    | write p _ _ => s.stats.val p ≠ none
    | truncate p _ => s.stats.val p ≠ none
    | read _ _ _ => False

/-- **After every call the sizes have their reasons.** -/
theorem fileStep_sized [CJson Text] (x : FileOp × (ℕ → Choice)) (y : Store Text × Log)
    (h : Sized y) (hx : (∀ n, (x.2 n).FaultFree) ∧ x.1.Changes y.1) : Sized (fileStep x y) := by
  refine fileStep_of_wp hx.1 ?_
  obtain ⟨op, env⟩ := x
  obtain ⟨-, hlegal, hkind⟩ := hx
  cases op with
  | create p mode => exact wp_create_sized h
  | unlink p => exact wp_unlink_sized h
  | write p buf offset => exact wp_write_sized h hlegal hkind
  | truncate p offset => exact wp_truncate_sized h hlegal hkind
  | read p nbuf offset => exact hkind.elim

end Calls

/-! ## Runs -/

/-- A store in which no file has data: every stat can be read and says
zero, and there are no blocks. -/
def Store.Bare (s : Store Text) : Prop :=
  (∀ p v, s.stats.val p = some v → ∃ stat, v = .packed stat ∧ stat.stSize = 0)
    ∧ ∀ p, s.blocks.val p = none

theorem rootStore_bare [CJson Text] {env : ℕ → Choice} (henv : ∀ n, (env n).FaultFree) :
    (rootStore env : Store Text).Bare := by
  obtain ⟨ts, h⟩ := @rootStore_eq Text _ _ henv
  rw [h]
  refine ⟨fun p v hv => ?_, fun p => rfl⟩
  simp only [Store.stats_putDentry, Store.stats_putStat, Kv.Collection.val_put] at hv
  split at hv
  · cases hv
    exact ⟨_, rfl, rfl⟩
  · cases hv

variable [CJson Text]

/-- **Sizes after any run**: in every state between calls the size of a
file with a block is the length of the block, and the size of a file
without one is zero, or the last call that changed the file truncated it
to that size. -/
theorem sizes_after {s : Store Text} (hs : s.Bare) (calls : List (FileOp × (ℕ → Choice)))
    (hcalls : Machine.Meets fileStep
      (fun x y => (∀ n, (x.2 n).FaultFree) ∧ x.1.Changes y.1) calls (s, [])) :
    Machine.Along fileStep SizesExplained calls (s, []) := by
  have hstart : Sized (s, ([] : Log)) := by
    refine ⟨fun p v hv => ?_, fun p hp => absurd (hs.2 p) hp⟩
    obtain ⟨stat, hv', hsize⟩ := hs.1 p v hv
    refine ⟨stat, hv', fun b hb => ?_, fun _ => .inl hsize⟩
    rw [hs.2 p] at hb
    cases hb
  exact (Machine.along_of_meets fileStep fileStep_sized hstart hcalls).mono (fun _ h => h.sizes)

/-- A file is made, written and cut. -/
theorem sizes_after_cut :
    let calls : List (FileOp × (ℕ → Choice)) :=
      [(.create ['/', 'f'] (sIfreg ||| 0o644), fun _ => .good ⟨0, 0⟩),
        (.write ['/', 'f'] [1, 2, 3] 0, fun _ => .good ⟨0, 0⟩),
        (.truncate ['/', 'f'] 2, fun _ => .good ⟨0, 0⟩)]
    Machine.Along fileStep SizesExplained calls
      ((rootStore (fun _ => .good ⟨0, 0⟩) : Store (Option Json)), []) := by
  intro calls
  have hff : ∀ _ : ℕ, (Choice.good ⟨0, 0⟩).FaultFree := fun _ => Choice.faultFree_good _
  refine sizes_after (rootStore_bare hff) calls
    ⟨⟨hff, trivial, trivial⟩, ⟨hff, by decide, ?_⟩, ⟨hff, by decide, ?_⟩, trivial⟩
  · exact Option.some_ne_none _
  · exact Option.some_ne_none _

/-- A new file is truncated to a hundred bytes: it has that size, and no
block. -/
theorem sizes_disagree_truncate :
    let calls : List (FileOp × (ℕ → Choice)) :=
      [(.create ['/', 'f'] (sIfreg ||| 0o644), fun _ => .good ⟨0, 0⟩),
        (.truncate ['/', 'f'] 100, fun _ => .good ⟨0, 0⟩)]
    let s : Store (Option Json) := rootStore (fun _ => .good ⟨0, 0⟩)
    Machine.Meets fileStep (fun x y => (∀ n, (x.2 n).FaultFree) ∧ x.1.Changes y.1) calls (s, [])
      ∧ ¬ Machine.Along fileStep (fun y => y.1.SizesAgree) calls (s, []) := by
  intro calls s
  have hff : ∀ _ : ℕ, (Choice.good ⟨0, 0⟩).FaultFree := fun _ => Choice.faultFree_good _
  refine ⟨⟨⟨hff, trivial, trivial⟩, ⟨hff, by decide, ?_⟩, trivial⟩, fun h => ?_⟩
  · exact Option.some_ne_none _
  · obtain ⟨stat, hstat, hsize⟩ := h.final ['/', 'f'] _ rfl
    cases hstat
    exact absurd hsize (by decide)

end Cbfuse
