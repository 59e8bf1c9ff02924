import Cbfuse.Truncation

/-!
# The end of a file (`read_data`, `write_data`)

Where a file ends is told twice, by the size in its stat and by the length of
its block, and an earlier truncation may have left the two apart. A write sets
the size by the block, and only where the block grew; so one that starts past
the end of the block and ends before the size takes the rest away, and a write
of nothing cuts the block (`write_grows_iff`).

A read goes by the block. Where there is one the read returns what is there
from the offset on, and zero from the end on; where there is none it fails,
though a file without a block is an empty file (`read_available_iff`).
-/

namespace Cbfuse

variable {Text : Type} [CJson Text]

open World

/-! ## A write never shrinks a file -/

/-- Neither the size of `p` nor its block is smaller in the second store. -/
def Store.Grows (s : Store Text) (p : CString) (s' : Store Text) : Prop :=
  (∃ n n', s.sizeOf p = some n ∧ s'.sizeOf p = some n' ∧ n ≤ n')
    ∧ (s.bytesOf p).length ≤ (s'.bytesOf p).length

/-- **A write that takes nothing away**: it is refused; or it has no data, and
does not start inside the block; or it has, and ends inside the block or not
before the size. -/
def Store.TakesNothing (s : Store Text) (p : CString) (buf : Bytes) (offset : ℤ) : Prop :=
  maxFileLen < offset + buf.length
    ∨ (buf = [] ∧ (s.bytesOf p).length ≤ offset)
    ∨ (buf ≠ [] ∧ (offset + buf.length ≤ (s.bytesOf p).length
        ∨ ∀ n, s.sizeOf p = some n → n ≤ offset + buf.length))

section Write

variable {env₀ env : ℕ → Choice} {p : CString} {offset : ℤ} {buf : Bytes}
  {calls : List (FsOp × (ℕ → Choice))}

omit [CJson Text] in
/-- The length of a block after it was cut. -/
theorem length_of_recut {s s' : Store Text} (h : Recut offset (s.blocks.val p) (s'.blocks.val p)) :
    (s'.bytesOf p).length = if s.blocks.val p = none then 0 else offset.toNat := by
  cases hv : s.blocks.val p with
  | none =>
    rw [hv] at h
    rw [Store.bytesOf_eq_nil h]
    rfl
  | some b =>
    rw [hv] at h
    obtain ⟨past, hpast, hw⟩ := h
    rw [Store.bytesOf_of_val hw, List.length_append, List.length_take,
      if_neg (Option.some_ne_none b)]
    omega

section Grows

variable {s s' : Store Text} {stat stat' : CbfuseStat}

omit [CJson Text] in
/-- Where there is a stat before and after, the question is about its size and
the block. -/
theorem grows_iff (hstat : s.stats.val p = some (.packed stat))
    (hstat' : s'.stats.val p = some (.packed stat')) :
    s.Grows p s' ↔ stat.stSize ≤ stat'.stSize
      ∧ (s.bytesOf p).length ≤ (s'.bytesOf p).length := by
  unfold Store.Grows
  rw [Store.sizeOf_of_val hstat, Store.sizeOf_of_val hstat']
  simp

omit [CJson Text] in
/-- A write that leaves the block alone leaves the size. -/
theorem grows_of_same (hstat : s.stats.val p = some (.packed stat))
    (hstat' : s'.stats.val p = some (.packed stat))
    (hblock : s'.blocks.val p = s.blocks.val p) : s.Grows p s' := by
  rw [grows_iff hstat hstat']
  refine ⟨Int.le_refl _, ?_⟩
  unfold Store.bytesOf
  rw [hblock]

omit [CJson Text] in
/-- A write of nothing leaves the size, and cuts the block. -/
theorem grows_iff_of_recut (hstat : s.stats.val p = some (.packed stat))
    (hstat' : s'.stats.val p = some (.packed stat)) (h0 : 0 ≤ offset)
    (hblock : Recut offset (s.blocks.val p) (s'.blocks.val p)) :
    s.Grows p s' ↔ ((s.bytesOf p).length : ℤ) ≤ offset := by
  rw [grows_iff hstat hstat', length_of_recut hblock, and_iff_right (Int.le_refl _)]
  split
  · next hnone =>
    rw [Store.bytesOf_eq_nil hnone, List.length_nil]
    omega
  · omega

omit [CJson Text] in
/-- A write of data makes no block shorter. What becomes of the size depends
on whether the block grows. -/
theorem grows_iff_of_data {ts : Timespec} (h0 : 0 ≤ offset)
    (hmax : offset + buf.length ≤ maxFileLen) (hnil : buf ≠ [])
    (hstat : s.stats.val p = some (.packed stat))
    (hstat' : s'.stats.val p
      = some (.packed ((EntryOp.write p buf offset).restat (s.blocks.val p) ts stat)))
    (hblock : WritesBytes offset buf (s.blocks.val p) (s'.blocks.val p)) :
    s.Grows p s' ↔ offset + buf.length ≤ (s.bytesOf p).length
      ∨ stat.stSize ≤ offset + buf.length := by
  have hlim : (maxFileLen : ℤ) < 2 ^ 63 := by decide
  obtain ⟨b, hb, hw⟩ := hblock
  have hgrows : (s.bytesOf p).length ≤ (s'.bytesOf p).length := by
    rw [Store.bytesOf_of_val hb, hw.length]
    exact Nat.le_max_left _ _
  rw [grows_iff hstat hstat', and_iff_left hgrows]
  unfold EntryOp.restat
  split
  · next hre =>
    -- the block grew, and the size is the end of the write
    have hlt : (s.bytesOf p).length < offset.toNat + buf.length := hre.2.2
    rw [show ((EntryOp.write p buf offset).change ts stat).stSize
      = toOffT ((offset.toNat + buf.length : ℕ) : ℤ) from CbfuseStat.stSize_resize _ _ _,
      toOffT_of_lt (by omega) (by omega)]
    omega
  · next hre =>
    have hle : ¬ (s.bytesOf p).length < offset.toNat + buf.length :=
      fun hlt => hre ⟨hnil, hmax, hlt⟩
    exact iff_of_true (Int.le_refl _) (.inl (by omega))

omit [CJson Text] in
/-- A write, by what it makes of the stat and of the block. -/
theorem grows_iff_of_write {ts : Timespec} (h0 : 0 ≤ offset)
    (hstat : s.stats.val p = some (.packed stat))
    (hstat' : s'.stats.val p
      = some (.packed ((EntryOp.write p buf offset).restat (s.blocks.val p) ts stat)))
    (hblock : (EntryOp.write p buf offset).Reblocks (s.blocks.val p) (s'.blocks.val p)) :
    s.Grows p s' ↔ s.TakesNothing p buf offset := by
  -- without data, or over the limit, the stat is left alone
  have hsame : ¬ (EntryOp.write p buf offset).Restats (s.blocks.val p) →
      s'.stats.val p = some (.packed stat) := by
    intro hre
    rw [hstat', EntryOp.restat, if_neg hre]
  unfold Store.TakesNothing
  rw [Store.sizeOf_of_val hstat]
  simp only [EntryOp.Reblocks] at hblock
  by_cases hmax : (maxFileLen : ℤ) < offset + buf.length
  · rw [if_pos hmax] at hblock
    have hstat₁ := hsame (fun h => absurd h.2.1 (Int.not_le.mpr hmax))
    exact iff_of_true (grows_of_same hstat hstat₁ hblock) (.inl hmax)
  · rw [if_neg hmax] at hblock
    rw [or_iff_right hmax]
    by_cases hnil : buf = []
    · rw [if_pos hnil] at hblock
      rw [grows_iff_of_recut hstat (hsame (fun h => h.1 hnil)) h0 hblock]
      simp [hnil]
    · rw [if_neg hnil] at hblock
      rw [grows_iff_of_data h0 (Int.not_lt.mp hmax) hnil hstat hstat' hblock]
      simp [hnil]

end Grows

/-- **When a write shrinks nothing.** In every state that a client reaches with
nothing failing, for every entry with a stat and every write to it, of any
number of bytes: size and block are at least what they were exactly if the
write is one that takes nothing away. -/
theorem write_grows_iff (henv₀ : ∀ n, (env₀ n).FaultFree) (hcalls : ∀ x ∈ calls, Runs x)
    (henv : ∀ n, (env n).FaultFree) (hop : (EntryOp.write p buf offset).InRange)
    (hp : (Machine.final step calls (start env₀ : World Text)).store.stats.val p ≠ none) :
    let s := (Machine.final step calls (start env₀ : World Text)).store
    s.Grows p ((writeData p buf offset).run serve env s).2 ↔ s.TakesNothing p buf offset := by
  intro s
  have hs : s.Shapely := shapely_final henv₀ hcalls
  obtain ⟨stat, hstat⟩ := hs.exists_stat hp
  obtain ⟨ts, hrun, hval, hblock, -⟩ := run_entry hs hop henv rfl hstat
  rw [show (writeData p buf offset).run serve env s = _ from hrun]
  exact grows_iff_of_write hop.1 hstat hval hblock

end Write

/-- A byte is written behind a file of three. -/
theorem write_grows_iff_append :
    let g : ℕ → Choice := fun _ => .good ⟨0, 0⟩
    let s := (Machine.final step makeFile (start g : World (Option Json))).store
    s.Grows ['/', 'f'] ((writeData ['/', 'f'] [9] 3).run serve g s).2 := by
  intro g s
  have hff : ∀ n, (g n).FaultFree := fun _ => Choice.faultFree_good _
  have hp : s.stats.val ['/', 'f'] ≠ none := by decide
  have hsize : s.sizeOf ['/', 'f'] = some 3 := by decide
  refine (write_grows_iff hff runs_makeFile hff (by decide) hp).mpr
    (.inr (.inr ⟨by decide, .inr ?_⟩))
  intro n hn
  cases hsize.symm.trans hn
  decide

/-- A new file is truncated to a hundred bytes; a write of one byte makes it
eleven. A write of nothing takes the block of a file of three. -/
theorem write_shrinks :
    let g : ℕ → Choice := fun _ => .good ⟨0, 0⟩
    let calls := makeFile.take 1 ++ [(.entry (.truncate ['/', 'f'] 100), g)]
    let s := (Machine.final step calls (start g : World (Option Json))).store
    let s' := ((writeData ['/', 'f'] [9] 10).run serve g s).2
    let t := (Machine.final step makeFile (start g : World (Option Json))).store
    let t' := ((writeData ['/', 'f'] [] 0).run serve g t).2
    (s.sizeOf ['/', 'f'] = some 100 ∧ s'.sizeOf ['/', 'f'] = some 11
        ∧ ¬ s.Grows ['/', 'f'] s')
      ∧ t.bytesOf ['/', 'f'] = [1, 2, 3] ∧ t'.bytesOf ['/', 'f'] = []
        ∧ ¬ t.Grows ['/', 'f'] t' := by
  intro g calls s s' t t'
  have hs : s.sizeOf ['/', 'f'] = some 100 := by decide
  have hs' : s'.sizeOf ['/', 'f'] = some 11 := by decide
  have ht : t.bytesOf ['/', 'f'] = [1, 2, 3] := by decide
  have ht' : t'.bytesOf ['/', 'f'] = [] := by decide
  refine ⟨⟨hs, hs', fun h => ?_⟩, ht, ht', fun h => ?_⟩
  · obtain ⟨⟨n, n', hn, hn', hle⟩, -⟩ := h
    cases hs.symm.trans hn
    cases hs'.symm.trans hn'
    exact absurd hle (by decide)
  · have hlen := h.2
    rw [ht, ht'] at hlen
    exact absurd hlen (by decide)

/-! ## A read returns the bytes available -/

section Read

variable {env₀ env : ℕ → Choice} {p : CString} {offset : ℤ} {nbuf : ℕ}
  {calls : List (FsOp × (ℕ → Choice))}

/-- **A read of what is available**: of the bytes from the offset on, as many
as there are and were asked for, with their number. -/
def ReadsAvailable (b : Bytes) (nbuf offset : ℕ) (x : Option (ℤ × Bytes)) : Prop :=
  x = some (((min nbuf (b.length - offset) : ℕ) : ℤ), (b.drop offset).take nbuf)

/-- **When a read returns what is available.** In every state that a client
reaches with nothing failing, for every entry with a stat, every offset and
every length up to `MAX_DOC_LEN`: a read returns as many bytes as there are
from the offset on and were asked for, and those bytes, exactly if the entry
has a block. Without one it fails. -/
theorem read_available_iff (henv₀ : ∀ n, (env₀ n).FaultFree) (hcalls : ∀ x ∈ calls, Runs x)
    (henv : ∀ n, (env n).FaultFree) (h0 : 0 ≤ offset) (hoff : offset < 2 ^ 63)
    (hmax : nbuf ≤ maxDocLen)
    (hp : (Machine.final step calls (start env₀ : World Text)).store.stats.val p ≠ none) :
    let s := (Machine.final step calls (start env₀ : World Text)).store
    ReadsAvailable (s.bytesOf p) nbuf offset.toNat ((readData p nbuf offset).run serve env s).1
      ↔ s.blocks.val p ≠ none := by
  intro s
  have hlim : (maxDocLen : ℤ) < 2 ^ 63 := by decide
  have hs : s.Shapely := shapely_final henv₀ hcalls
  obtain ⟨stat, hstat⟩ := hs.exists_stat hp
  obtain ⟨⟨r, bytes⟩, s', hrun, hperf, hbytes⟩ :=
    @run_readData Text s p env hs nbuf offset ⟨h0, hoff, by omega⟩ henv
  obtain ⟨hr, -⟩ := hperf.stat stat hstat
  rw [hrun]
  cases hv : s.blocks.val p with
  | none =>
    have hfail : r = -1 := by
      rw [show EntryOp.path (.read p nbuf offset) = p from rfl, hv] at hr
      exact hr
    refine iff_of_false (fun h => ?_) (fun h => h rfl)
    have hcode : r = (min nbuf ((s.bytesOf p).length - offset.toNat) : ℕ) :=
      congrArg Prod.fst (Option.some.inj h)
    omega
  | some b =>
    have hb : s.bytesOf p = b := Store.bytesOf_of_val hv
    have hdoc := maxDocLen_lt
    refine iff_of_true ?_ (Option.some_ne_none b)
    rw [show EntryOp.path (.read p nbuf offset) = p from rfl, hv] at hr
    have hcode : r = dataDone (toInt ((b.drop offset.toNat).take nbuf).length) := hr
    have hcopy : bytes = ((s.bytesOf p).drop offset.toNat).take nbuf := hbytes hp
    unfold ReadsAvailable
    rw [hcode, hcopy, hb, dataDone_toInt (by rw [List.length_take]; omega), List.length_take,
      List.length_drop]

end Read

/-- Two of three bytes are read, from the second on. -/
theorem read_available_iff_two :
    let g : ℕ → Choice := fun _ => .good ⟨0, 0⟩
    let s := (Machine.final step makeFile (start g : World (Option Json))).store
    ReadsAvailable (s.bytesOf ['/', 'f']) 5 1 ((readData ['/', 'f'] 5 1).run serve g s).1 := by
  intro g s
  have hff : ∀ n, (g n).FaultFree := fun _ => Choice.faultFree_good _
  have hp : s.stats.val ['/', 'f'] ≠ none := by decide
  exact (@read_available_iff _ _ g g ['/', 'f'] 1 5 makeFile hff runs_makeFile hff (by decide)
    (by decide) (by decide) hp).mpr (by decide)

/-- A read of a new file fails. -/
theorem read_empty_fails :
    let g : ℕ → Choice := fun _ => .good ⟨0, 0⟩
    let s := (Machine.final step (makeFile.take 1) (start g : World (Option Json))).store
    let x := (readData ['/', 'f'] 5 0).run serve g s
    s.stats.val ['/', 'f'] ≠ none ∧ x.1 = some (-1, [])
      ∧ ¬ ReadsAvailable (s.bytesOf ['/', 'f']) 5 0 x.1 := by
  intro g s x
  have hx : x.1 = some (-1, []) := by decide
  refine ⟨by decide, hx, fun h => ?_⟩
  exact absurd (hx.symm.trans h) (by decide)

end Cbfuse
