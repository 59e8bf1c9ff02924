import Cbfuse.Entries

/-!
# Truncation (`truncate_data`)

To truncate is to give a file a length, whatever it had. The code has two
ways of doing it. To nothing, it removes the block; to anything else, it
stores what it fetched under the new length, without a look at the old one.

Each has its flaw. A length past the end of what was fetched is taken from the
buffer all the same, and what is stored then is the memory behind it
(`truncate_in_buffer_iff`) – if there is any: the process may as well die of
it. And a block that is not there cannot be removed, so a file that is empty
already cannot be emptied, and a file that was cannot be emptied again
(`truncate_twice_iff`).
-/

namespace Cbfuse

variable {Text : Type}

/-! ## Truncation stays within the buffer -/

/-- The request does not look past the end of a buffer. -/
def Req.InBuffer : Req Text → Prop
  | .overread _ => False
  | _ => True

/-- **A run that stays within its buffers.** -/
def StaysInBuffers {α : Type} (p : Op Text α) (env : ℕ → Choice) (s : Store Text) : Prop :=
  ∀ e ∈ p.events serve env s, e.1.InBuffer

/-- **The bytes `b` cut or extended** to a length: the first of them, with
zeros up to the length – stored behind them, or left to be read. -/
def CutOrExtended (b : Bytes) (offset : ℕ) (stored : Option Bytes) : Prop :=
  ∃ pad, (pad = List.replicate (offset - b.length) 0 ∨ pad = [])
    ∧ stored = some (b.take offset ++ pad)

theorem Req.UpdatesStat.inBuffer {p : CString} {q : Req Text} (h : q.UpdatesStat p) :
    q.InBuffer := by
  cases q with
  | overread n => exact h.elim
  | _ => trivial

/-! ## With or without memory behind the buffer -/

/-- The same surroundings, with memory past the end of every buffer. -/
def Choice.mapping (c : Choice) : Choice := { c with mapped := true }

theorem Choice.Granting.faultFree_mapping {c : Choice} (h : c.Granting) : c.mapping.FaultFree :=
  ⟨h.1, h.2.1, h.2.2, rfl⟩

/-- A fetch of a block that is granted. -/
theorem Choice.Granting.serve_fetch {c : Choice} (hc : c.Granting) {s : Store Text} {p : CString}
    {d : Option (Kv.Doc Bytes)} (hd : s.blocks.docs p = d) :
    serve c (.blocks (.get p)) s
      = (⟨⟨none, if d.isSome then none else some .notFound, d⟩, true⟩, s) := by
  show serve c.mapping (.blocks (.get p)) s = _
  rw [hc.faultFree_mapping.serve_blocks]
  cases d <;> simp [Kv.Collection.serve, hd]

/-- The request does not notice whether there is memory past a buffer. -/
def Unnoticed (c : Choice) (q : Req Text) (_ : Store Text) : Prop :=
  q.InBuffer ∨ c.mapped = true

/-- A request that does not notice is answered the same with memory there. -/
theorem Unnoticed.serve {c : Choice} {q : Req Text} {s : Store Text} (h : Unnoticed c q s) :
    serve c q s = serve c.mapping q s := by
  cases q with
  | overread n =>
    unfold Cbfuse.serve
    rw [h.resolve_left id]
    rfl
  | _ => rfl

section Mapping

variable {α : Type} {prog : Op Text α} {env : ℕ → Choice} {s : Store Text}

/-- A run that stays within its buffers does not notice what is behind them. -/
theorem StaysInBuffers.mapping (h : StaysInBuffers prog env s) :
    prog.run serve env s = prog.run serve (fun n => (env n).mapping) s
      ∧ StaysInBuffers prog (fun n => (env n).mapping) s := by
  obtain ⟨hrun, hev⟩ := Prog.run_events_congr (fun _ _ _ hq => Unnoticed.serve (.inl hq)) h
  refine ⟨hrun, ?_⟩
  unfold StaysInBuffers
  rw [← hev]
  exact h

/-- A run that stays within its buffers with memory behind them stays there
without. -/
theorem StaysInBuffers.of_mapping (h : StaysInBuffers prog (fun n => (env n).mapping) s) :
    StaysInBuffers prog env s := by
  obtain ⟨-, hev⟩ := Prog.run_events_congr (fun _ _ _ hq => (Unnoticed.serve (.inl hq)).symm) h
  unfold StaysInBuffers
  rw [← hev]
  exact h

end Mapping

/-! ## Truncation of a block -/

section Buffers

variable {s : Store Text} {p : CString} {offset : ℤ} {env : ℕ → Choice} {d : Kv.Doc Bytes}

/-- A truncation of the block, after its fetch. -/
theorem run_updateBlock_fetched (hd : s.blocks.docs p = some d) (h0 : 0 ≤ offset)
    (hmax : offset ≤ maxFileLen) (henv : ∀ n, (env n).FaultFree) :
    let rest : Op Text (ℤ × ℕ) :=
      storeBlock p (some d.value) offset.toNat >>= fun fresult => .ret (fresult, 0)
    (updateBlock p none offset).run serve env s = rest.run serve (fun n => env (n + 1)) s
      ∧ ∃ r, (updateBlock p none offset).events serve env s
        = ⟨.blocks (.get p), r⟩ :: rest.events serve (fun n => env (n + 1)) s := by
  intro rest
  have hget : serve (env 0) (.blocks (.get p)) s = (⟨⟨none, none, some d⟩, true⟩, s) := by
    rw [(henv 0).serve_blocks]
    simp only [Kv.Collection.serve, hd]
  rw [updateBlock_truncate h0 hmax, Prog.run_call, Prog.events_call, hget]
  exact ⟨rfl, _, rfl⟩

/-- Within the block, its first bytes are stored, and nothing else is looked
at. -/
theorem run_updateBlock_cut (hd : s.blocks.docs p = some d) (h0 : 0 ≤ offset)
    (hle : offset ≤ d.value.length) (hmax : offset ≤ maxFileLen)
    (henv : ∀ n, (env n).FaultFree) :
    (updateBlock p none offset).run serve env s
        = (some (0, 0), s.putBlock p (d.value.take offset.toNat))
      ∧ StaysInBuffers (updateBlock p none offset) env s := by
  obtain ⟨hrun, r, hev⟩ := run_updateBlock_fetched hd h0 hmax henv
  have hstore : serve (env 1) (.blocks (.store .upsert p (d.value.take offset.toNat) 0)) s
      = (⟨⟨none, none, none⟩, true⟩, s.putBlock p (d.value.take offset.toNat)) := by
    rw [(henv 1).serve_blocks]
    simp only [Kv.Collection.serve, Kv.Collection.verdict_upsert_zero]
    rfl
  unfold StaysInBuffers
  rw [hrun, hev, storeBlock_le p (by omega), Prog.call_bind, Prog.run_call, Prog.events_call]
  simp only [Nat.zero_add, hstore]
  exact ⟨rfl, List.forall_mem_cons.mpr ⟨trivial, List.forall_mem_singleton.mpr trivial⟩⟩

/-- Past the end of the block, the memory behind the buffer is. -/
theorem updateBlock_overreads (hd : s.blocks.docs p = some d) (hlt : d.value.length < offset)
    (hmax : offset ≤ maxFileLen) (henv : ∀ n, (env n).FaultFree) :
    ¬ StaysInBuffers (updateBlock p none offset) env s := by
  obtain ⟨-, r, hev⟩ := run_updateBlock_fetched hd (by omega) hmax henv
  intro hstays
  have hload : (load (some d.value) 0 offset.toNat : Op Text Bytes) = _ :=
    load_past (by omega)
  unfold StaysInBuffers at hstays
  rw [hev, storeBlock, hload] at hstays
  exact (List.forall_mem_cons.mp (List.forall_mem_cons.mp hstays).2).1

/-- With memory behind every buffer, a truncation of a block cuts or extends it
and stays within the buffer exactly if the block is long enough. -/
theorem truncateData_inBuffer_iff {b : Bytes} (hb : s.blocks.val p = some b) (h1 : 1 ≤ offset)
    (hmax : offset ≤ maxDocLen) (henv : ∀ n, (env n).FaultFree) :
    (CutOrExtended b offset.toNat (((truncateData p offset).run serve env s).2.blocks.val p)
        ∧ StaysInBuffers (truncateData p offset) env s)
      ↔ offset ≤ b.length := by
  obtain ⟨d, hd, rfl⟩ := Option.map_eq_some_iff.mp hb
  have hlim : (maxDocLen : ℤ) ≤ maxFileLen := by decide
  have htruncate : (truncateData p offset : Op Text ℤ)
      = updateBlock p none offset >>= fun r =>
        if r.1 ≠ 0 then .ret r.1 else updateStatSize p (toSizeT offset) := by
    unfold truncateData
    rw [if_neg (by omega), map_eq_pure_bind, bind_assoc]
    rfl
  by_cases hle : offset ≤ d.value.length
  · refine iff_of_true ?_ hle
    obtain ⟨hrun, hstays⟩ := run_updateBlock_cut hd (by omega) hle (by omega) henv
    obtain ⟨n, hrun', hev'⟩ := Prog.run_bind hrun
      (fun r => if r.1 ≠ 0 then .ret r.1 else (updateStatSize p (toSizeT offset) : Op Text ℤ))
    rw [if_neg (not_not.mpr rfl)] at hrun' hev'
    refine ⟨⟨[], .inr rfl, ?_⟩, ?_⟩
    · -- the update of the stat leaves the block
      rw [htruncate, hrun', List.append_nil]
      have hblocks := (updateStat_leavesBlocks p true (CbfuseStat.resize (toSizeT offset))).run
        Req.LeavesBlocks.serve (fun k => env (k + n))
        (s.putBlock p (d.value.take offset.toNat))
      unfold updateStatSize
      rw [hblocks]
      simp
    · unfold StaysInBuffers
      rw [htruncate, hev']
      refine List.forall_mem_append.mpr ⟨hstays, ?_⟩
      exact ((updateStat_only p true _).mono (fun _ h => h.inBuffer)).events _ _
  · refine iff_of_false (fun h => ?_) hle
    obtain ⟨s₁, hrun, -, -⟩ := @run_recut Text s p env offset (by omega) (by omega) henv
    obtain ⟨n, -, hev⟩ := Prog.run_bind hrun
      (fun r => if r.1 ≠ 0 then .ret r.1 else (updateStatSize p (toSizeT offset) : Op Text ℤ))
    refine updateBlock_overreads hd (Int.not_le.mp hle) (by omega) henv (fun e he => h.2 e ?_)
    rw [htruncate, hev]
    exact List.mem_append_left _ he

/-- **When a truncation stays within its buffer.** With every request granted, a
truncation to at least one byte of a file with a block cuts or extends the
block, and looks at nothing past the buffer that it fetched, exactly if the
block is at least as long – whether or not there is memory behind it. -/
theorem truncate_in_buffer_iff {b : Bytes} (hb : s.blocks.val p = some b) (h1 : 1 ≤ offset)
    (hmax : offset ≤ maxDocLen) (henv : ∀ n, (env n).Granting) :
    (CutOrExtended b offset.toNat (((truncateData p offset).run serve env s).2.blocks.val p)
        ∧ StaysInBuffers (truncateData p offset) env s)
      ↔ offset ≤ b.length := by
  rw [← truncateData_inBuffer_iff hb h1 hmax (fun n => (henv n).faultFree_mapping)]
  constructor
  · rintro ⟨hcut, hstays⟩
    obtain ⟨hrun, hmapped⟩ := hstays.mapping
    rw [hrun] at hcut
    exact ⟨hcut, hmapped⟩
  · rintro ⟨hcut, hmapped⟩
    have hstays := hmapped.of_mapping
    rw [← hstays.mapping.1] at hcut
    exact ⟨hcut, hstays⟩

end Buffers

/-- A file of three bytes is cut to two. -/
theorem truncate_in_buffer_iff_two :
    CutOrExtended [1, 2, 3] 2
        (((truncateData ['/', 'f'] 2).run serve (fun _ => .good ⟨0, 0⟩) threeBytes).2.blocks.val
          ['/', 'f'])
      ∧ StaysInBuffers (truncateData ['/', 'f'] 2) (fun _ => .good ⟨0, 0⟩) threeBytes :=
  (@truncate_in_buffer_iff _ threeBytes ['/', 'f'] 2 (fun _ => .good ⟨0, 0⟩) [1, 2, 3] rfl
    (by decide) (by decide) (fun _ => (Choice.faultFree_good _).granting)).mpr (by decide)

/-- A file of three bytes is extended to five: the call returns zero, and the
last two bytes are what was in memory behind the buffer. -/
theorem truncate_overreads :
    let env : ℕ → Choice := fun _ => { Choice.good ⟨0, 0⟩ with junk := fun _ => 0xAA }
    let x := (truncateData ['/', 'f'] 5).run serve env threeBytes
    (∀ n, (env n).FaultFree)
      ∧ threeBytes.blocks.val ['/', 'f'] = some [1, 2, 3]
      ∧ x.1 = some 0
      ∧ x.2.blocks.val ['/', 'f'] = some [1, 2, 3, 0xAA, 0xAA]
      ∧ ¬ (CutOrExtended [1, 2, 3] 5 (x.2.blocks.val ['/', 'f'])
        ∧ StaysInBuffers (truncateData ['/', 'f'] 5) env threeBytes) := by
  intro env x
  have hblock : x.2.blocks.val ['/', 'f'] = some [1, 2, 3, 0xAA, 0xAA] := by decide
  refine ⟨fun _ => ⟨rfl, rfl, rfl, rfl⟩, by decide, by decide, hblock, fun h => ?_⟩
  obtain ⟨pad, hpad, hstored⟩ := h.1
  rw [hblock] at hstored
  rcases hpad with rfl | rfl
  · exact absurd hstored (by decide)
  · exact absurd hstored (by decide)

/-! ## Truncation with or without memory behind the buffer -/

section Unmapped

variable {s : Store Text} {p : CString} {offset : ℤ} {env : ℕ → Choice}

theorem storeBlock_unnoticed {b : Bytes} {n : ℕ} (h : b.length < n → (env 0).mapped = true) :
    (storeBlock p (some b) n : Op Text ℤ).Meets serve Unnoticed env s := by
  by_cases hle : n ≤ b.length
  · rw [storeBlock_le p hle]
    exact ⟨.inl trivial, trivial⟩
  · rw [storeBlock_past p (Nat.lt_of_not_le hle)]
    refine ⟨.inr (h (Nat.lt_of_not_le hle)), ?_⟩
    cases (Cbfuse.serve (env 0) (.overread (n - b.length)) s).1 with
    | none => trivial
    | some past => exact ⟨.inl trivial, trivial⟩

/-- A truncation of a block that is long enough, or that has memory behind
it. -/
theorem truncateData_unnoticed (h0 : 0 ≤ offset) (hmax : offset ≤ maxFileLen)
    (henv : ∀ n, (env n).Granting)
    (h : ∀ b, s.blocks.val p = some b → b.length < offset → (env 1).mapped = true) :
    (truncateData p offset : Op Text ℤ).Meets serve Unnoticed env s := by
  have hstat : ∀ fresult : ℤ, (if fresult ≠ 0 then .ret fresult
      else updateStatSize p (toSizeT offset) : Op Text ℤ).Only Req.InBuffer := by
    intro fresult
    split
    · trivial
    · exact (updateStat_only p true _).mono (fun _ hq => hq.inBuffer)
  unfold truncateData
  refine Prog.meets_bind ?_ (fun fresult env s =>
    Prog.meets_of_only (hstat fresult) (fun _ _ _ hq => .inl hq) env s)
  split
  · exact ⟨.inl trivial, trivial⟩
  · rw [map_eq_pure_bind, updateBlock_truncate h0 hmax, Prog.call_bind]
    refine ⟨.inl trivial, Prog.meets_bind ?_ (fun _ _ _ => trivial)⟩
    cases hd : s.blocks.docs p with
    | none =>
      rw [(henv 0).serve_fetch hd]
      trivial
    | some d =>
      rw [(henv 0).serve_fetch hd]
      refine Prog.meets_bind (storeBlock_unnoticed (fun hlt => ?_)) (fun _ _ _ => trivial)
      exact h d.value (Kv.Collection.val_of_docs hd) (by omega)

/-- A truncation of a block that is long enough, or that has memory behind it, runs
as it does with memory past every buffer. -/
theorem run_truncate_mapping (h0 : 0 ≤ offset) (hmax : offset ≤ maxFileLen)
    (henv : ∀ n, (env n).Granting)
    (h : ∀ b, s.blocks.val p = some b → b.length < offset → (env 1).mapped = true) :
    (truncateData p offset).run serve env s
      = (truncateData p offset).run serve (fun n => (env n).mapping) s :=
  Prog.run_congr (fun _ _ _ hq => hq.serve) (truncateData_unnoticed h0 hmax henv h)

/-- Past the end of the block, with nothing behind it, the process dies. -/
theorem truncateData_unmapped {b : Bytes} (hb : s.blocks.val p = some b)
    (hlt : b.length < offset) (hmax : offset ≤ maxFileLen) (henv : ∀ n, (env n).Granting)
    (hunmapped : (env 1).mapped = false) : ((truncateData p offset).run serve env s).1 = none := by
  obtain ⟨d, hd, rfl⟩ := Option.map_eq_some_iff.mp hb
  unfold truncateData
  rw [if_neg (by omega), map_eq_pure_bind, updateBlock_truncate (by omega) hmax, Prog.call_bind,
    Prog.call_bind, Prog.run_call, (henv 0).serve_fetch hd]
  have hread := serve_overread_none s (offset.toNat - d.value.length) hunmapped
  show (Prog.run serve (((storeBlock p (some d.value) offset.toNat >>= _) >>= _) >>= _) _ s).1
    = none
  rw [storeBlock_past p (by omega), Prog.call_bind, Prog.call_bind, Prog.call_bind, Prog.run_call,
    hread]
  rfl

end Unmapped

/-! ## Truncation succeeds, and again -/

/-- The size of an entry, where it has a stat to tell it. -/
def Store.sizeOf (s : Store Text) (p : CString) : Option ℤ := (s.statAt p).map CbfuseStat.stSize

theorem Store.sizeOf_of_val {s : Store Text} {p : CString} {stat : CbfuseStat}
    (h : s.stats.val p = some (.packed stat)) : s.sizeOf p = some stat.stSize := by
  unfold sizeOf
  rw [statAt_of_val h]
  rfl

/-- **A truncation that succeeds and is idempotent**: it returns zero and sets
the size, and a second one returns zero and changes neither block nor size. -/
structure TruncatesTwice (p : CString) (offset : ℤ) (x₁ x₂ : Option ℤ × Store Text) : Prop where
  /-- The first call returns zero. -/
  first : x₁.1 = some 0
  /-- It sets the size. -/
  size : x₁.2.sizeOf p = some offset
  /-- The second call returns zero. -/
  second : x₂.1 = some 0
  /-- It leaves the block. -/
  block : x₂.2.blocks.val p = x₁.2.blocks.val p
  /-- It leaves the size. -/
  size_eq : x₂.2.sizeOf p = x₁.2.sizeOf p

/-- What is cut to a length is not changed by cutting it to that length. -/
theorem Recut.idem {offset : ℤ} {v w w' : Option Bytes} (h : Recut offset v w)
    (h' : Recut offset w w') : w' = w := by
  cases v with
  | none =>
    cases (show w = none from h)
    exact h'
  | some b =>
    obtain ⟨past, hpast, rfl⟩ := h
    have hlen : (b.take offset.toNat ++ past).length = offset.toNat := by
      rw [List.length_append, List.length_take]
      omega
    obtain ⟨past', hpast', rfl⟩ := h'
    rw [hlen, Nat.sub_self] at hpast'
    rw [List.eq_nil_of_length_eq_zero hpast', List.append_nil, List.take_of_length_le hlen.le]

section Twice

variable [CJson Text] {env₀ env env' : ℕ → Choice} {p : CString} {offset : ℤ}

open World

theorem toOffT_offset (h0 : 0 ≤ offset) (hmax : offset ≤ maxDocLen) :
    toOffT offset.toNat = offset := by
  have hlim : (maxDocLen : ℤ) < 2 ^ 63 := by decide
  rw [toOffT_of_lt (by omega) (by omega)]
  omega

/-- A truncation of an entry that has a stat. -/
theorem truncate_performs {w : World Text} (h : w.store.Shapely) (h0 : 0 ≤ offset)
    (hmax : offset ≤ maxDocLen) (henv : ∀ n, (env n).FaultFree)
    (hp : w.store.stats.val p ≠ none) :
    let op := EntryOp.truncate p offset
    ∃ w' : World Text, (truncateData p offset).run serve env w.store
        = (some (op.result (w.store.blocks.val p)), w'.store)
      ∧ w'.store.Shapely ∧ w'.store.stats.val p ≠ none
      ∧ op.Reblocks (w.store.blocks.val p) (w'.store.blocks.val p)
      ∧ (op.Restats (w.store.blocks.val p) → w'.store.sizeOf p = some offset) := by
  intro op
  have hlim : (maxDocLen : ℤ) < 2 ^ 63 := by decide
  have hop : op.InRange := ⟨h0, by omega⟩
  obtain ⟨stat, hs⟩ := h.exists_stat hp
  obtain ⟨ts, hrun, hval, hblock, -⟩ :=
    @run_entry _ _ w env p op stat h hop henv rfl hs
  refine ⟨step (.entry op, env) w, hrun, shapely_step (.entry op, env) w h ⟨henv, hop⟩, ?_,
    hblock, fun hre => ?_⟩
  · rw [hval]
    exact Option.some_ne_none _
  · rw [Store.sizeOf_of_val hval, EntryOp.restat, if_pos hre]
    exact congrArg some ((CbfuseStat.stSize_resize _ _ _).trans (toOffT_offset h0 hmax))

/-- What was cut to a length has that length. -/
theorem Recut.length {v w : Option Bytes} (h : Recut offset v w) {b : Bytes} (hw : w = some b) :
    b.length = offset.toNat := by
  cases v with
  | none =>
    obtain rfl : w = none := h
    cases hw
  | some b₀ =>
    obtain ⟨past, hpast, rfl⟩ := h
    obtain rfl := Option.some.inj hw
    rw [List.length_append, List.length_take]
    omega

/-- **When truncation succeeds and is idempotent.** In every state that a
client reaches with nothing failing, for every entry with a stat and every
offset up to `MAX_DOC_LEN`: a truncation to the offset that is granted all it
asks for returns zero and sets the size, and a second one returns zero and
changes neither block nor size, exactly if the offset is not zero and, where it
is past the end of the block, there is memory behind the buffer the block was
fetched into. -/
theorem truncate_twice_iff (henv₀ : ∀ n, (env₀ n).FaultFree)
    {calls : List (FsOp × (ℕ → Choice))} (hcalls : ∀ x ∈ calls, Runs x)
    (henv : ∀ n, (env n).Granting) (henv' : ∀ n, (env' n).Granting) (h0 : 0 ≤ offset)
    (hmax : offset ≤ maxDocLen)
    (hp : (Machine.final step calls (start env₀ : World Text)).store.stats.val p ≠ none) :
    let s := (Machine.final step calls (start env₀ : World Text)).store
    let x := (truncateData p offset).run serve env s
    TruncatesTwice p offset x ((truncateData p offset).run serve env' x.2)
      ↔ offset ≠ 0
        ∧ ∀ b, s.blocks.val p = some b → b.length < offset → (env 1).mapped = true := by
  intro s x
  have hlim : (maxDocLen : ℤ) ≤ maxFileLen := by decide
  have hfits : ¬ (maxFileLen : ℤ) < offset := by omega
  by_cases hmapped : ∀ b, s.blocks.val p = some b → b.length < offset → (env 1).mapped = true
  · have hff := fun n => (henv n).faultFree_mapping
    have hff' := fun n => (henv' n).faultFree_mapping
    obtain ⟨w₁, hrun₁, hw₁, hp₁, hblock₁, hsize₁⟩ :=
      truncate_performs (shapely_final henv₀ hcalls) h0 hmax hff hp
    obtain ⟨w₂, hrun₂, -, -, hblock₂, hsize₂⟩ := truncate_performs hw₁ h0 hmax hff' hp₁
    have hx : x = _ := (run_truncate_mapping h0 (by omega) henv hmapped).trans hrun₁
    by_cases hz : offset = 0
    · -- after the first call there is no block, and the second finds none to remove
      subst hz
      have hnone : w₁.store.blocks.val p = none := by
        simpa only [EntryOp.Reblocks, hfits, if_false, if_true] using hblock₁
      have hshort : ∀ b, w₁.store.blocks.val p = some b → (b.length : ℤ) < 0 →
          (env' 1).mapped = true := by
        intro b hb
        rw [hnone] at hb
        cases hb
      rw [hx, run_truncate_mapping h0 (by omega) henv' hshort, hrun₂]
      refine iff_of_false (fun h => ?_) (fun h => h.1 rfl)
      have hret := h.second
      simp only [EntryOp.result, hfits, hnone, if_false, and_self, if_true] at hret
      exact absurd hret (by decide)
    · have hresult : ∀ v, (EntryOp.truncate p offset).result v = 0 := by
        intro v
        simp only [EntryOp.result, hfits, hz, if_false, false_and]
      have hre : ∀ v, (EntryOp.truncate p offset).Restats v :=
        fun v => ⟨by omega, fun h => absurd h hz⟩
      simp only [EntryOp.Reblocks, hfits, hz, if_false] at hblock₁ hblock₂
      -- the block is as long as the offset now, and the second call looks no further
      have hlong : ∀ b, w₁.store.blocks.val p = some b → b.length < offset →
          (env' 1).mapped = true := by
        intro b hb hlt
        have hlen := hblock₁.length hb
        omega
      rw [hx, run_truncate_mapping h0 (by omega) henv' hlong, hrun₂]
      refine iff_of_true ⟨?_, hsize₁ (hre _), ?_, hblock₁.idem hblock₂, ?_⟩ ⟨hz, hmapped⟩
      · rw [hresult]
      · rw [hresult]
      · exact (hsize₂ (hre _)).trans (hsize₁ (hre _)).symm
  · refine iff_of_false (fun h => ?_) (fun h => hmapped h.2)
    simp only [not_forall, Bool.not_eq_true] at hmapped
    obtain ⟨b, hb, hlt, hnot⟩ := hmapped
    have hdead := truncateData_unmapped hb hlt (by omega) henv hnot
    cases h.first.symm.trans hdead

end Twice

/-- The calls that make a file of three bytes. -/
def makeFile : List (FsOp × (ℕ → Choice)) :=
  [(.tree (.create ['/', 'f'] (sIfreg ||| 0o644)), fun _ => .good ⟨0, 0⟩),
    (.entry (.write ['/', 'f'] [1, 2, 3] 0), fun _ => .good ⟨0, 0⟩)]

theorem runs_makeFile : ∀ x ∈ makeFile, World.Runs x := by
  have hops : ∀ op ∈ [FsOp.tree (.create ['/', 'f'] (sIfreg ||| 0o644)),
      .entry (.write ['/', 'f'] [1, 2, 3] 0)], op.InRange := by decide
  exact World.runs_callsUnder (Choice.faultFree_good ⟨0, 0⟩) hops

/-- A file of three bytes is cut to two, twice. -/
theorem truncate_twice_iff_two :
    let g : ℕ → Choice := fun _ => .good ⟨0, 0⟩
    let s := (Machine.final World.step makeFile (World.start g : World (Option Json))).store
    let x := (truncateData ['/', 'f'] 2).run serve g s
    TruncatesTwice ['/', 'f'] 2 x ((truncateData ['/', 'f'] 2).run serve g x.2) := by
  intro g s x
  have hff : ∀ n, (g n).FaultFree := fun _ => Choice.faultFree_good _
  have hp : s.stats.val ['/', 'f'] ≠ none := by decide
  have hgr : ∀ n, (g n).Granting := fun n => (hff n).granting
  refine (truncate_twice_iff hff runs_makeFile hgr hgr (by decide) (by decide) hp).mpr
    ⟨by decide, fun _ _ _ => rfl⟩

/-- A file of three bytes is cut to nothing: the second time that fails. A new file
cannot be cut to nothing at all. -/
theorem truncate_nothing_fails :
    let g : ℕ → Choice := fun _ => .good ⟨0, 0⟩
    let s := (Machine.final World.step makeFile (World.start g : World (Option Json))).store
    let x := (truncateData ['/', 'f'] 0).run serve g s
    let y := (truncateData ['/', 'f'] 0).run serve g x.2
    let s₁ := (Machine.final World.step (makeFile.take 1)
      (World.start g : World (Option Json))).store
    (∀ x ∈ makeFile, World.Runs x)
      ∧ s.stats.val ['/', 'f'] ≠ none ∧ x.1 = some 0 ∧ y.1 = some (-enoent)
      ∧ ¬ TruncatesTwice ['/', 'f'] 0 x y
      ∧ s₁.stats.val ['/', 'f'] ≠ none
      ∧ ((truncateData ['/', 'f'] 0).run serve g s₁).1 = some (-enoent) := by
  intro g s x y s₁
  have hy : y.1 = some (-enoent) := by decide
  refine ⟨runs_makeFile, by decide, by decide, hy, fun h => ?_, by decide, by decide⟩
  exact absurd (hy.symm.trans h.second) (by decide)

end Cbfuse
