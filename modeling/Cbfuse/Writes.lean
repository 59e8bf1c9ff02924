import Cbfuse.Data

/-!
# What a write leaves of a block

A write fetches the block, changes it in memory and stores it whole, so
what the block holds afterwards depends on the fate of three requests and
on what fresh memory held. Two things go wrong on the way.

A fetch that fails is taken for a file without a block, whatever the
failure was: the write then stores a new buffer over the block it could
not read (`block_writeData_iff`). And the new buffer is what `malloc`
returned, so the bytes between the old end of the block and the range of
the write are whatever memory held (`gap_writeData`).
-/

namespace Cbfuse

variable {Text : Type}

section Write

variable {s : Store Text} {p : CString} {data : Bytes} {offset : ℤ}

/-! ## The block after a write -/

/-- The store that ends a write takes effect if it is served. -/
theorem block_upsert {c : Choice} (hc : c.Clean) (s : Store Text) (p : CString) (b : Bytes) :
    (serve c (.blocks (.store .upsert p b 0)) s).2.blocks.val p
      = if c.Served then some b else s.blocks.val p := by
  obtain ⟨fate, alloc, junk, now⟩ := c
  cases fate with
  | served => simp [serve, Kv.Collection.answer, Kv.Collection.serve, Choice.Served]
  | refused e => rw [if_neg (by simp [Choice.Served])]; rfl
  | unsent e => rw [if_neg (by simp [Choice.Served])]; rfl
  | lost e => exact hc.elim

/-- **A write that fits into the block it read**: the block is the buffer
with the data in it if the store is served. -/
theorem block_fit {b : Bytes} (hd : data ≠ []) (h0 : 0 ≤ offset)
    (hfit : offset.toNat + data.length ≤ b.length) {env : ℕ → Choice}
    (henv : ∀ n, (env n).Clean) :
    ((modifyBlock p (some data) offset (offset.toNat + data.length) (some b) b.length 0
        : Op Text _).run serve env s).2.blocks.val p
      = if (env 0).Served then some (Buffer.splice b offset.toNat data)
        else s.blocks.val p := by
  rw [modifyBlock_write rfl hd h0, if_neg (by omega), Prog.run_call]
  exact block_upsert (henv 0) _ _ _

/-- **A write that has to make room first**: the block is the longer buffer
if there is memory for it and the store is served. -/
theorem block_grow {b : Bytes} (hd : data ≠ []) (h0 : 0 ≤ offset)
    (hgrow : b.length < offset.toNat + data.length) {env : ℕ → Choice}
    (henv : ∀ n, (env n).Clean) :
    ((modifyBlock p (some data) offset (offset.toNat + data.length) (some b) b.length 0
        : Op Text _).run serve env s).2.blocks.val p
      = if (env 0).alloc = true ∧ (env 1).Served then
          some (Buffer.write b ((env 0).buf (offset.toNat + data.length)).1 offset.toNat data)
        else s.blocks.val p := by
  rw [modifyBlock_write rfl hd h0, if_pos hgrow, Prog.run_call]
  unfold Buffer.write
  rw [if_pos hgrow]
  cases ha : (env 0).alloc with
  | false => simp [serve, ha]
  | true =>
    simp only [serve, ha, if_true, Prog.run_call, Prog.run_ret, true_and]
    exact block_upsert (henv 1) _ _ _

/-- **A write that starts a new block**: the block is the new buffer if
there is memory for it and the store is served. -/
theorem block_newBlock (s : Store Text) (p : CString) (data : Bytes) (offset : ℤ) (n : ℕ)
    {env : ℕ → Choice} (henv : ∀ n, (env n).Clean) :
    ((newBlock p data offset n).run serve env s).2.blocks.val p
      = if (env 0).alloc = true ∧ (env 1).Served then
          some (Buffer.splice ((env 0).buf n).1 offset.toNat data)
        else s.blocks.val p := by
  unfold newBlock
  rw [Prog.run_call]
  cases ha : (env 0).alloc with
  | false => simp [serve, ha]
  | true =>
    simp only [serve, ha, if_true, Prog.run_call, Prog.run_ret, true_and]
    exact block_upsert (henv 1) _ _ _

/-- What follows the update of the block in a write leaves the block
alone. -/
theorem blocks_writeData (hmax : toSizeT (offset + data.length) ≤ maxFileLen)
    (env : ℕ → Choice) :
    ((writeData p data offset).run serve env s).2.blocks
      = ((updateBlock p (some data) offset).run serve env s).2.blocks := by
  rw [writeData_eq hmax]
  exact Prog.Only.run_bind Req.LeavesBlocks.serve _ (finishWrite_leavesBlocks _ _) env s

/-! ## A fetch that fails -/

/-- **A write starts a new block over the one there is**: its fetch comes
back with a status that is a failure, there is memory for a new buffer,
and that buffer is stored. -/
def StartsAnew (env : ℕ → Choice) : Prop :=
  (∃ e, (env 0).fate = .refused e) ∧ (env 1).alloc = true ∧ (env 2).Served

/-- The fresh memory of a new block happens to hold every byte of the old
one that the write does not. -/
def HoldsTheRest (b : Bytes) (junk : ℕ → UInt8) (offset nbuf : ℕ) : Prop :=
  b.length ≤ offset + nbuf ∧ ∀ i < b.length, i < offset → b[i]? = some (junk i)

/-- The block survives the write: it is what it was, or it was
overwritten. -/
def Survives (b : Bytes) (offset : ℕ) (data : Bytes) (after : Option Bytes) : Prop :=
  after = some b ∨ ∃ b', after = some b' ∧ Buffer.Overwrites b offset data b'

theorem Choice.getElem?_buf (c : Choice) {n i : ℕ} (hi : i < n) :
    (c.buf n).1[i]? = some (c.junk i) := by
  unfold buf
  rw [List.getElem?_map, List.getElem?_range hi]
  rfl

/-- What becomes of the block once the write has gone through the new
buffer. -/
theorem survives_splice_iff (b : Bytes) (c : Choice) (offset : ℕ) (data : Bytes) :
    Survives b offset data
        (some (Buffer.splice (c.buf (offset + data.length)).1 offset data))
      ↔ HoldsTheRest b c.junk offset data.length := by
  unfold Survives HoldsTheRest
  have h := @Buffer.overwrites_anew_iff _ b _ _ _ (c.buf (offset + data.length)).2
  simp only [Option.some.injEq, exists_eq_left'] at h ⊢
  rw [h]
  refine and_congr_right (fun _ => forall_congr' (fun i => imp_congr_right (fun _ => ?_)))
  refine imp_congr_right (fun hi => ?_)
  rw [c.getElem?_buf (by omega)]

/-- A write to a block it read, or had no memory for, lets it survive. -/
theorem survives_modifyBlock {b : Bytes} (hb : s.blocks.val p = some b) (hd : data ≠ [])
    (h0 : 0 ≤ offset) {env : ℕ → Choice} (henv : ∀ n, (env n).Clean) (alloc : Bool) :
    Survives b offset.toNat data
      (((modifyBlock p (some data) offset (offset.toNat + data.length)
        (if alloc then some b else none) b.length 0 : Op Text _).run serve env s).2.blocks.val
          p) := by
  cases alloc with
  | false =>
    -- without memory for the copy of the block nothing is stored
    have hnull : (modifyBlock p (some data) offset (offset.toNat + data.length) none b.length 0
        : Op Text _).Only Req.LeavesBlocks :=
      modifyBlock_null_only (fun _ => trivial) hd
    refine .inl ?_
    rw [if_neg Bool.false_ne_true, hnull.run Req.LeavesBlocks.serve env s, hb]
  | true =>
    rw [if_pos rfl]
    by_cases hgrow : b.length < offset.toNat + data.length
    · rw [block_grow hd h0 hgrow henv]
      split
      · exact .inr ⟨_, rfl, Buffer.overwrites_write ((env 0).buf _).2⟩
      · exact .inl hb
    · rw [block_fit hd h0 (by omega) henv]
      split
      · exact .inr ⟨_, rfl, .of_splice (by omega)⟩
      · exact .inl hb

/-- **A write destroys nothing exactly if it does not take a failed fetch
for a file without a block** – or if, doing so, it happens to find the
lost bytes in fresh memory. The fates of its requests are arbitrary, as
long as a request that fails has had no effect. -/
theorem block_writeData_iff {b : Bytes} (hb : s.blocks.val p = some b) (hd : data ≠ [])
    (h0 : 0 ≤ offset) (hmax : offset + data.length ≤ maxFileLen) {env : ℕ → Choice}
    (henv : ∀ n, (env n).Clean) :
    Survives b offset.toNat data (((writeData p data offset).run serve env s).2.blocks.val p)
      ↔ (StartsAnew env → HoldsTheRest b (env 1).junk offset.toNat data.length) := by
  rw [blocks_writeData (by rw [toSizeT_range h0 hmax]; omega), updateBlock_write hd h0 hmax,
    Prog.run_call]
  have henv' : ∀ n, (env (n + 1)).Clean := fun n => henv (n + 1)
  have hanew : StartsAnew env → ∃ e, (env 0).fate = .refused e := fun h => h.1
  obtain ⟨d, hdoc, rfl⟩ := Option.map_eq_some_iff.mp hb
  cases hf : (env 0).fate with
  | served =>
    have hget : serve (env 0) (.blocks (.get p)) s
        = (⟨⟨none, none, some d⟩, (env 0).alloc⟩, s) := by
      simp [serve, Kv.Collection.answer, Kv.Collection.serve, hf, hdoc]
    rw [hget]
    refine iff_of_true (survives_modifyBlock hb hd h0 henv' _) (fun h => ?_)
    obtain ⟨e, he⟩ := hanew h
    rw [hf] at he
    cases he
  | refused e =>
    have hget : serve (env 0) (.blocks (.get p)) s
        = (⟨⟨none, some e, none⟩, (env 0).alloc⟩, s) := by
      simp [serve, Kv.Collection.answer, hf]
    rw [hget]
    unfold updateWrite
    rw [if_neg (by simp), if_pos (by simp), block_newBlock _ _ _ _ _ henv']
    by_cases hst : (env (0 + 1)).alloc = true ∧ (env (1 + 1)).Served
    · rw [if_pos hst, survives_splice_iff]
      exact ⟨fun h _ => h, fun h => h ⟨⟨e, hf⟩, hst⟩⟩
    · rw [if_neg hst]
      exact iff_of_true (.inl hb) (fun h => absurd h.2 hst)
  | unsent e =>
    have hget : serve (env 0) (.blocks (.get p)) s
        = (⟨⟨some e, none, none⟩, (env 0).alloc⟩, s) := by
      simp [serve, Kv.Collection.answer, hf]
    rw [hget]
    refine iff_of_true (.inl hb) (fun h => ?_)
    obtain ⟨e', he⟩ := hanew h
    rw [hf] at he
    cases he
  | lost e =>
    have hcl := henv 0
    unfold Choice.Clean at hcl
    rw [hf] at hcl
    exact hcl.elim

end Write

/-- A write within a block, with nothing failing. -/
theorem block_writeData_iff_good :
    Survives [1, 2] 1 [9]
      (((writeData ['/', 'f'] [9] 1).run serve (fun _ => .good ⟨0, 0⟩)
        ((Store.empty : Store (Option Json)).putBlock ['/', 'f'] [1, 2])).2.blocks.val
          ['/', 'f']) := by
  refine (@block_writeData_iff _ (Store.empty.putBlock ['/', 'f'] [1, 2]) ['/', 'f'] [9] 1 [1, 2]
    rfl (by decide) (by decide) (by decide) _
    (fun _ => (Choice.faultFree_good ⟨0, 0⟩).clean)).mpr (fun h => ?_)
  obtain ⟨⟨e, he⟩, -⟩ := h
  cases he

/-- The fetch times out, and the three bytes of the file are gone. -/
theorem block_lost_timeout :
    let env : ℕ → Choice := fun n =>
      if n = 0 then { Choice.good ⟨0, 0⟩ with fate := .refused .timeout } else .good ⟨0, 0⟩
    (∀ n, (env n).Clean)
      ∧ ¬ Survives [1, 2, 3] 0 [9]
          (((writeData ['/', 'f'] [9] 0).run serve env
            ((Store.empty : Store (Option Json)).putBlock ['/', 'f'] [1, 2, 3])).2.blocks.val
              ['/', 'f']) := by
  refine ⟨fun n => ?_, ?_⟩
  · dsimp only
    split <;> trivial
  · show ¬ Survives [1, 2, 3] 0 [9] (some [9])
    rintro (h | ⟨b', h, hw⟩)
    · cases h
    · cases h
      exact absurd hw.length (by decide)

/-! ## Fresh memory -/

section Gap

variable {s : Store Text} {p : CString} {data : Bytes} {offset : ℤ}

/-- **A write past the end stores the buffer its allocation returned**,
the old bytes and the new ones copied into it, whether there was a block
or not. -/
theorem block_writeData_grow (hd : data ≠ []) (h0 : 0 ≤ offset)
    (hmax : offset + data.length ≤ maxFileLen)
    (hgrow : (s.bytesOf p).length < offset.toNat + data.length) {env : ℕ → Choice}
    (henv : ∀ n, (env n).FaultFree) :
    ((writeData p data offset).run serve env s).2.blocks.val p
      = some (Buffer.write (s.bytesOf p) ((env 1).buf (offset.toNat + data.length)).1
          offset.toNat data) := by
  have hclean : ∀ n, (env (n + 1)).Clean := fun n => (henv (n + 1)).clean
  rw [blocks_writeData (by rw [toSizeT_range h0 hmax]; omega), updateBlock_write hd h0 hmax,
    Prog.run_call, (henv 0).serve_blocks]
  cases hb : s.blocks.docs p with
  | none =>
    rw [Store.bytesOf_of_none hb, Buffer.write_nil hd]
    simp only [Kv.Collection.serve, hb]
    exact (block_newBlock s p data offset _ hclean).trans
      (if_pos ⟨(henv 1).2.1, (henv 2).1⟩)
  | some d =>
    rw [Store.bytesOf_of_docs hb] at hgrow ⊢
    simp only [Kv.Collection.serve, hb]
    exact (block_grow hd h0 hgrow hclean).trans (if_pos ⟨(henv 1).2.1, (henv 2).1⟩)

/-- What a write returns does not depend on what fresh memory holds, or on
anything else that is not a fault. -/
theorem writeData_returns (s : Store Text) (p : CString) (hd : data ≠ []) (h0 : 0 ≤ offset)
    (hrep : offset + data.length < 2 ^ 64) :
    ∃ r, (maxFileLen < offset + data.length → r = -1)
      ∧ ∀ env : ℕ → Choice, (∀ n, (env n).FaultFree) →
        ((writeData p data offset).run serve env s).1 = some r := by
  have hrun : ∀ r, (writeData p data offset).wp serve Choice.FaultFree (fun _ => True)
      (fun r' _ => r' = r) s → ∀ env : ℕ → Choice, (∀ n, (env n).FaultFree) →
        ((writeData p data offset).run serve env s).1 = some r := by
    intro r hwp env henv
    obtain ⟨a, s', hr, rfl⟩ := Prog.wp_run hwp henv
    rw [hr]
  by_cases hmax : offset + data.length ≤ maxFileLen
  · by_cases herr : (s.bytesOf p).length < offset.toNat + data.length
        ∧ ∃ e, s.statOf p = .error e
    · obtain ⟨hgrow, e, he⟩ := herr
      refine ⟨-1, fun _ => rfl, hrun _ (wp_writeData trivial hd h0 hrep (fun _ => rfl)
        (fun _ fresh => ⟨trivial, fun hle => by omega, fun _ => ⟨fun _ _ => rfl,
          fun stat cas ts hs => ?_⟩⟩))⟩
      rw [he] at hs
      cases hs
    · refine ⟨_, fun h => by omega, hrun (dataDone (toInt data.length))
        (wp_writeData trivial hd h0 hrep (fun h => by omega) (fun _ fresh => ⟨trivial,
          fun _ => rfl, fun hlt => ⟨fun e he => absurd ⟨hlt, e, he⟩ herr,
            fun _ _ _ _ => ⟨trivial, rfl⟩⟩⟩))⟩
  · exact ⟨-1, fun _ => rfl, hrun _ (wp_writeData trivial hd h0 hrep (fun _ => rfl)
      (fun h => absurd h hmax))⟩

/-- The bytes from the old end of a block to the offset of a write are
there and zero. -/
def GapZero (oldLen offset : ℕ) (b : Bytes) : Prop :=
  ∀ i, oldLen ≤ i → i < offset → b[i]? = some 0

/-- **The hole a write leaves holds fresh memory.** In a run without
faults of a write past the end that returns its length, the hole is zero
exactly if the memory its allocation found was. So for no file and no such
write is the hole zero whatever memory holds. -/
theorem gap_writeData (hd : data ≠ []) (hgap : (s.bytesOf p).length < offset)
    (hrep : offset + data.length < 2 ^ 64) :
    (∀ env : ℕ → Choice, (∀ n, (env n).FaultFree) →
      ((writeData p data offset).run serve env s).1 = some (data.length : ℤ) →
      (GapZero (s.bytesOf p).length offset.toNat
          (((writeData p data offset).run serve env s).2.bytesOf p)
        ↔ ∀ i, (s.bytesOf p).length ≤ i → i < offset.toNat → (env 1).junk i = 0))
    ∧ ((∃ env : ℕ → Choice, (∀ n, (env n).FaultFree)
        ∧ ((writeData p data offset).run serve env s).1 = some (data.length : ℤ)) →
      ∃ env : ℕ → Choice, (∀ n, (env n).FaultFree)
        ∧ ((writeData p data offset).run serve env s).1 = some (data.length : ℤ)
        ∧ ¬ GapZero (s.bytesOf p).length offset.toNat
            (((writeData p data offset).run serve env s).2.bytesOf p)) := by
  have h0 : 0 ≤ offset := by omega
  have hpos : 0 < data.length := List.length_pos_of_ne_nil hd
  obtain ⟨r, hbig, hr⟩ := writeData_returns s p hd h0 hrep
  have hiff : ∀ env : ℕ → Choice, (∀ n, (env n).FaultFree) →
      ((writeData p data offset).run serve env s).1 = some (data.length : ℤ) →
      (GapZero (s.bytesOf p).length offset.toNat
          (((writeData p data offset).run serve env s).2.bytesOf p)
        ↔ ∀ i, (s.bytesOf p).length ≤ i → i < offset.toNat → (env 1).junk i = 0) := by
    intro env henv hret
    rw [hr env henv] at hret
    have hmax : offset + data.length ≤ maxFileLen := by
      by_contra hlt
      rw [hbig (by omega)] at hret
      cases hret
    have hgrow : (s.bytesOf p).length < offset.toNat + data.length := by omega
    have hb := block_writeData_grow hd h0 hmax hgrow henv
    unfold Store.bytesOf at hb ⊢
    rw [hb, Option.getD_some]
    refine forall_congr' (fun i => imp_congr_right (fun hi => imp_congr_right (fun hi' => ?_)))
    rw [Buffer.getElem?_write_gap ((env 1).buf _).2 hi hi', (env 1).getElem?_buf (by omega),
      Option.some.injEq]
  refine ⟨hiff, ?_⟩
  rintro ⟨env, henv, hret⟩
  -- the same run, with another byte in all of the memory nobody wrote
  have henv' : ∀ n, ({ env n with junk := fun _ => 1 } : Choice).FaultFree := henv
  have hret' := (hr _ henv').trans ((hr _ henv).symm.trans hret)
  refine ⟨_, henv', hret', fun hz => ?_⟩
  have hone := (hiff _ henv' hret').mp hz (s.bytesOf p).length (Nat.le_refl _) (by omega)
  cases hone

end Gap

/-- A file of no bytes, to be written from its second byte on. -/
def emptyFile : Store (Option Json) :=
  Store.empty.putStat ['/', 'f'] (rootStat (sIfreg ||| 0o644) ⟨0, 0⟩)

/-- Some fault-free run of the write leaves the first byte nonzero. -/
theorem gap_writeData_emptyFile :
    ∃ env : ℕ → Choice, (∀ n, (env n).FaultFree)
      ∧ ((writeData ['/', 'f'] [9] 1).run serve env emptyFile).1 = some 1
      ∧ ¬ GapZero 0 1 (((writeData ['/', 'f'] [9] 1).run serve env emptyFile).2.bytesOf
          ['/', 'f']) :=
  (@gap_writeData _ emptyFile ['/', 'f'] _ 1 (by decide) (by decide)
    (by decide)).2 ⟨fun _ => .good ⟨0, 0⟩, fun _ => Choice.faultFree_good _, by decide⟩

/-- Where fresh memory holds sevens, so does the hole. -/
theorem gap_writeData_junk :
    let env : ℕ → Choice := fun _ => { Choice.good ⟨0, 0⟩ with junk := fun _ => 7 }
    (∀ n, (env n).FaultFree)
      ∧ ((writeData ['/', 'f'] [9] 1).run serve env emptyFile).1 = some 1
      ∧ ¬ GapZero 0 1 (((writeData ['/', 'f'] [9] 1).run serve env emptyFile).2.bytesOf
          ['/', 'f']) := by
  refine ⟨fun _ => ⟨rfl, rfl, rfl, rfl⟩, by decide, fun h => ?_⟩
  exact absurd (h 0 (Nat.le_refl 0) Nat.zero_lt_one) (by decide)

end Cbfuse
