import Cbfuse.Offsets

/-!
# Running out of memory

Reads and writes ask for memory in three places: the callback of a fetch for
its copy of the value, `update_block` for the buffer of a new block, and
`memdupm` for a longer one. The callback records the length of a value whether
or not it has a copy of it, and nobody tests the copy; the test after
`memdupm` is of the old buffer and not of the new one.

A call that runs out of memory is to return `-1` and leave the block. It does
where there is no memory for a new block, and hardly anywhere else: otherwise
it copies to or from `NULL`, or returns zero where there is nothing to copy, or
fails with the block already stored. `EntryOp.Harmed` lists the cases, and they are
all of them (`EntryOp.withstands_iff`).
-/

namespace Cbfuse

variable {Text : Type}

/-! ## What is not there -/

/-- The block that the fetch of a call finds. -/
def foundBlock (env : ℕ → Choice) (s : Store Text) (p : CString) : Option Bytes :=
  if (env 0).Served then s.blocks.val p else none

theorem foundBlock_of_docs {env : ℕ → Choice} {s : Store Text} {p : CString}
    {d : Kv.Doc Bytes} (hs : (env 0).Served) (hd : s.blocks.docs p = some d) :
    foundBlock env s p = some d.value := by
  rw [foundBlock, if_pos hs, Kv.Collection.val_of_docs hd]

theorem foundBlock_eq_none {env : ℕ → Choice} {s : Store Text} {p : CString}
    (h : (env 0).Served → s.blocks.docs p = none) : foundBlock env s p = none := by
  unfold foundBlock
  split
  · next hs => exact (Kv.Collection.val_eq_none _ _).mpr (h hs)
  · rfl

/-- A fetch of the stat finds it and has no memory for the copy of it. -/
def StatUncopied (c : Choice) (s : Store Text) (p : CString) : Prop :=
  c.Served ∧ s.stats.val p ≠ none ∧ c.alloc = false

/-- **Where running out of memory does harm**, by what becomes of the requests
of a call, the first of which is the fetch of the block. -/
inductive EntryOp.Harmed (env : ℕ → Choice) (s : Store Text) : EntryOp → Prop
  /-- The data goes into a block that there is no copy of. -/
  | overwrite {p : CString} {buf : Bytes} {offset : ℤ} {b : Bytes}
      (hmax : offset + buf.length ≤ maxFileLen) (hfound : foundBlock env s p = some b)
      (hcopy : (env 0).alloc = false) (hfits : offset + buf.length ≤ b.length) :
      Harmed env s (.write p buf offset)
  /-- The longer buffer is there, and no copy of the bytes that go into it. -/
  | lengthen {p : CString} {buf : Bytes} {offset : ℤ} {b : Bytes}
      (hmax : offset + buf.length ≤ maxFileLen) (hfound : foundBlock env s p = some b)
      (hcopy : (env 0).alloc = false) (hb : b ≠ []) (hgrow : b.length < offset + buf.length)
      (hmem : (env 1).alloc = true) : Harmed env s (.write p buf offset)
  /-- The data goes into a longer buffer that is not there. -/
  | grow {p : CString} {buf : Bytes} {offset : ℤ} {b : Bytes}
      (hmax : offset + buf.length ≤ maxFileLen) (hfound : foundBlock env s p = some b)
      (hcopy : (env 0).alloc = true) (hgrow : b.length < offset + buf.length)
      (hmem : (env 1).alloc = false) : Harmed env s (.write p buf offset)
  /-- The block is made or lengthened and stored, and there is no copy of the
  stat that is to tell its length. -/
  | writeStat {p : CString} {buf : Bytes} {offset : ℤ}
      (hmax : offset + buf.length ≤ maxFileLen) (hsent : ∀ e, (env 0).fate ≠ .unsent e)
      (hgrow : ∀ b, foundBlock env s p = some b →
        b.length < offset + buf.length ∧ (env 0).alloc = true)
      (hmem : (env 1).alloc = true) (hstored : (env 2).Served)
      (hstat : StatUncopied (env 3) s p) : Harmed env s (.write p buf offset)
  /-- There is no copy of the block, and past its end nobody asks for one: the
  read returns zero. -/
  | readEnd {p : CString} {nbuf : ℕ} {offset : ℤ} {b : Bytes}
      (hfound : foundBlock env s p = some b) (hcopy : (env 0).alloc = false)
      (hend : toOffT b.length ≤ offset) : Harmed env s (.read p nbuf offset)
  /-- The bytes come from a block that there is no copy of. -/
  | readNull {p : CString} {nbuf : ℕ} {offset : ℤ} {b : Bytes}
      (hfound : foundBlock env s p = some b) (hcopy : (env 0).alloc = false)
      (hend : offset < toOffT b.length) (hn : nbuf ≠ 0) : Harmed env s (.read p nbuf offset)
  /-- A read of nothing has no use for the copy of the block, and the update of
  the stat does not fail, or dies in its turn. -/
  | readNothing {p : CString} {offset : ℤ} {b : Bytes} {stat : CbfuseStat}
      (hfound : foundBlock env s p = some b) (hcopy : (env 0).alloc = false)
      (hend : offset < toOffT b.length) (hfetch : (env 1).Served)
      (hstat : s.stats.val p = some (.packed stat))
      (hupdate : (env 1).alloc = true → (env 2).now ≠ none ∧ (env 3).Served) :
      Harmed env s (.read p 0 offset)
  /-- The bytes are read, and there is no copy of the stat that is to tell the
  time. -/
  | readStat {p : CString} {nbuf : ℕ} {offset : ℤ} {b : Bytes} {stat : CbfuseStat}
      (hfound : foundBlock env s p = some b) (hcopy : (env 0).alloc = true)
      (hend : offset < toOffT b.length) (hstat : s.stats.val p = some (.packed stat))
      (hnull : StatUncopied (env 1) s p) : Harmed env s (.read p nbuf offset)

/-! ## The update of the stat -/

/-- The call returns `-1`, and the block is the document it was. -/
def FailsCleanly (p : CString) (d : Option (Kv.Doc Bytes)) (r : ℤ) (s : Store Text) : Prop :=
  r = -1 ∧ s.blocks.docs p = d

section Stat

variable {K V : Type} [DecidableEq K]

/-- A fetch is without its copy where there is a document, and no memory. -/
theorem uncopied_answer_iff (b : Kv.Collection K V) (c : Choice) (k : K) :
    (⟨(b.answer c.fate (.get k)).1, c.alloc⟩ : Response V).Uncopied
      ↔ c.Served ∧ b.val k ≠ none ∧ c.alloc = false := by
  obtain ⟨d, hf, hd, hr⟩ | ⟨e, hf, hr⟩ | ⟨-, hnone, e, hr⟩ :=
    Kv.Collection.answer_get_cases c.fate b k
  · have hv : b.val k ≠ none := Kv.Collection.val_ne_none_of_docs hd
    rw [hr]
    exact ⟨fun h => ⟨hf, hv, h.2.2⟩, fun h => ⟨rfl, Option.some_ne_none d, h.2.2⟩⟩
  · rw [hr]
    refine iff_of_false (fun h => h.2.1 rfl) (fun h => ?_)
    cases hf.symm.trans h.1
  · rw [hr]
    refine iff_of_false (fun h => h.2.1 rfl) (fun h => h.2.1 ?_)
    exact (Kv.Collection.val_eq_none _ _).mpr (hnone h.1)

variable {p : CString} {s : Store Text} {env : ℕ → Choice} {α : Type}
  {post : α → Store Text → Prop}

/-- The end of an update asks for no memory. -/
theorem replaceStat_noAlloc (clock : Bool) (change : Timespec → CbfuseStat → CbfuseStat)
    (stat : CbfuseStat) (cas : ℕ) :
    (replaceStat p clock change stat cas : Op Text ℤ).Only (fun q => ∀ r, ¬ q.AllocFails r) := by
  unfold replaceStat
  split
  · refine ⟨fun _ h => h, fun now => ?_⟩
    cases now with
    | none => trivial
    | some ts => exact ⟨fun _ h => h, fun _ => trivial⟩
  · exact ⟨fun _ h => h, fun _ => trivial⟩

/-- **An update of the stat as the end of a call**: without a copy the process
dies of a packed stat, and takes any other for the error it is. -/
theorem withstands_updateStat (clock : Bool) (change : Timespec → CbfuseStat → CbfuseStat)
    (g : ℤ → α) :
    (updateStat p clock change >>= fun fr => .ret (g fr)).Withstands serve Req.AllocFails post env s
      ↔ (StatUncopied (env 0) s p →
        (∀ stat, s.stats.val p ≠ some (.packed stat)) ∧ post (g (-ebadf)) s) := by
  have hbad : Req.AllocFails (.stats (.get p)) (serve (env 0) (.stats (.get p)) s).1
      ↔ StatUncopied (env 0) s p := uncopied_answer_iff s.stats (env 0) p
  rw [updateStat_eq, Prog.call_bind]
  by_cases h : StatUncopied (env 0) s p
  · obtain ⟨hs, hv, halloc⟩ := h
    obtain ⟨⟨v, cas⟩, hd, hval⟩ : ∃ d, s.stats.docs p = some d ∧ s.stats.val p = some d.value := by
      cases hd : s.stats.docs p with
      | none => exact absurd ((Kv.Collection.val_eq_none _ _).mpr hd) hv
      | some d => exact ⟨d, rfl, Kv.Collection.val_of_docs hd⟩
    have hserve : serve (env 0) (.stats (.get p)) s
        = (⟨⟨none, none, some ⟨v, cas⟩⟩, false⟩, s) := by
      simp only [serve, hs.answer, Kv.Collection.serve, hd, halloc]
    rw [Prog.withstands_call_of_bad (hbad.mpr ⟨hs, hv, halloc⟩), hserve, hval]
    cases v with
    | packed stat =>
      refine iff_of_false ?_ (fun h => (h ⟨hs, hv, halloc⟩).1 stat rfl)
      rintro ⟨a, s', hrun, -⟩
      cases hrun
    | malformed n hn =>
      constructor
      · rintro ⟨a, s', hrun, hpost⟩ -
        cases hrun
        refine ⟨fun stat hstat => ?_, hpost⟩
        cases hstat
      · exact fun h => ⟨_, _, rfl, (h ⟨hs, hv, halloc⟩).2⟩
  · refine iff_of_true ?_ (fun h' => absurd h' h)
    rw [Prog.withstands_call (mt hbad.mp h)]
    refine Prog.withstands_of_only (Prog.only_bind ?_ (fun _ => trivial))
      (Prog.diesOnly_bind ?_ (fun _ => trivial))
    · split
      · trivial
      · trivial
      · exact replaceStat_noAlloc _ _ _ _
    · have hdies := @updateStat_diesOnly Text p clock change
      rw [updateStat_eq] at hdies
      exact hdies _ (mt hbad.mp h)

end Stat

/-! ## The block -/

section Block

variable {p : CString} {s : Store Text} {env : ℕ → Choice} {len n : ℕ} {b data : Bytes}
  {offset : ℤ}

/-- A write that fails before its store fails cleanly. -/
theorem failsCleanly_neg (len n : ℕ) {r : ℤ} (hr : r < 0) :
    ∃ a s', (finishWrite p len (r, n)).run serve env s = (some a, s')
      ∧ FailsCleanly p (s.blocks.docs p) a s' := by
  refine ⟨dataDone r, s, ?_, ?_, rfl⟩
  · unfold finishWrite
    rw [if_pos (by omega)]
    rfl
  · exact dataDone_of_neg hr

/-- **From the store on**, what there is to run out of is memory for the copy
of the stat; and by then the block is stored. -/
theorem withstands_store :
    (Prog.call (.blocks (.store .upsert p b 0)) (fun resp => .ret (upsertReply resp, n))
        >>= finishWrite p len).Withstands serve Req.AllocFails
        (FailsCleanly p (s.blocks.docs p)) env s
      ↔ (n ≠ 0 → (env 0).Served → ¬ StatUncopied (env 1) s p) := by
  rw [Prog.call_bind, Prog.withstands_call (fun h => h)]
  dsimp only [Prog.ret_bind]
  set resp := (serve (env 0) (.blocks (.store .upsert p b 0)) s).1 with hresp
  obtain ⟨hzero, hrc, hst⟩ | ⟨hneg, hng⟩ := upsertReply_cases resp
  · obtain ⟨hf, -⟩ := Kv.Collection.serve_of_granted hrc hst
    have hserved : (env 0).Served := hf
    have hs : (serve (env 0) (.blocks (.store .upsert p b 0)) s).2 = s.putBlock p b := by
      simp only [serve, hserved.answer, Kv.Collection.serve, Kv.Collection.verdict_upsert_zero]
      rfl
    rw [hzero, hs]
    by_cases hn : n = 0
    · subst hn
      refine iff_of_true ?_ (fun h => absurd rfl h)
      unfold finishWrite
      exact Prog.withstands_ret _
    · rw [finishWrite_grown hn]
      unfold updateStatSize
      rw [withstands_updateStat]
      have hne : (s.putBlock p b).blocks.docs p ≠ s.blocks.docs p :=
        Kv.Collection.docs_put_ne _ _ _
      exact ⟨fun h _ _ hstat => hne (h hstat).2.2,
        fun h hstat => absurd hstat (h hn hserved)⟩
  · refine iff_of_true ?_ (fun _ hs => absurd ?_ hng)
    · unfold finishWrite
      rw [if_pos (by omega)]
      exact Prog.withstands_ret _
    · rw [hresp]
      simp only [serve, hs.answer, Kv.Collection.serve, Kv.Collection.verdict_upsert_zero,
        and_self]

/-- **An allocation**: with the buffer the rest of the call has to withstand
what follows, and without it to fail cleanly. -/
theorem withstands_malloc {α : Type} {post : α → Store Text → Prop}
    {k : Option (Buf n) → Op Text α} :
    (Prog.call (.malloc n) k).Withstands serve Req.AllocFails post env s
      ↔ if (env 0).alloc = true then
          (k (some ((env 0).buf n))).Withstands serve Req.AllocFails post (fun m => env (m + 1)) s
        else ∃ a s', (k none).run serve (fun m => env (m + 1)) s = (some a, s') ∧ post a s' := by
  cases halloc : (env 0).alloc with
  | true =>
    have hserve := serve_malloc_some s n halloc
    rw [Prog.withstands_call (by rw [hserve]; exact Option.some_ne_none _), hserve, if_pos rfl]
  | false =>
    have hserve := serve_malloc_none s n halloc
    rw [Prog.withstands_call_of_bad (by rw [hserve]; rfl), hserve, if_neg Bool.false_ne_true]

/-- A new block that there is no memory for is an error, and the test is
right. -/
theorem withstands_newBlock (hn : n ≠ 0) :
    (newBlock p data offset n >>= finishWrite p len).Withstands serve Req.AllocFails
        (FailsCleanly p (s.blocks.docs p)) env s
      ↔ ((env 0).alloc = true → (env 1).Served → ¬ StatUncopied (env 2) s p) := by
  unfold newBlock
  rw [Prog.call_bind, withstands_malloc]
  split
  · next halloc => exact withstands_store.trans ⟨fun h _ => h hn, fun h _ => h halloc⟩
  · next halloc =>
    exact iff_of_true (failsCleanly_neg len 0 (r := -enomem) (by decide))
      (fun h => absurd h halloc)

/-- **A write to a block there is a copy of**: it dies where there is no memory
for a longer one, since the test is of the wrong buffer. -/
theorem withstands_modifyBlock (hd : data ≠ []) (h0 : 0 ≤ offset) :
    (modifyBlock p (some data) offset (offset.toNat + data.length) (some b) b.length 0
        >>= finishWrite p len).Withstands serve Req.AllocFails
        (FailsCleanly p (s.blocks.docs p)) env s
      ↔ (b.length < offset.toNat + data.length →
        (env 0).alloc = true ∧ ((env 1).Served → ¬ StatUncopied (env 2) s p)) := by
  rw [modifyBlock_write rfl hd h0]
  by_cases hlt : b.length < offset.toNat + data.length
  · rw [if_pos hlt, Prog.call_bind, withstands_malloc]
    split
    · next halloc =>
      exact withstands_store.trans
        ⟨fun h _ => ⟨halloc, h (by omega)⟩, fun h _ => (h hlt).2⟩
    · next halloc =>
      refine iff_of_false ?_ (fun h => halloc (h hlt).1)
      rintro ⟨a, s', hrun, -⟩
      cases hrun
  · rw [if_neg hlt]
    exact withstands_store.trans
      (iff_of_true (fun h => absurd rfl h) (fun h => absurd h hlt))

/-- **A write to a block there is no copy of**: it fails cleanly where the
block has to grow and there is no memory for that either, or nothing to copy;
and dies anywhere else. -/
theorem runs_modifyBlock_null (hd : data ≠ []) {nupdate nvalue : ℕ} :
    (∃ a s', (modifyBlock p (some data) offset nupdate none nvalue 0
        >>= finishWrite p len).run serve env s = (some a, s')
        ∧ FailsCleanly p (s.blocks.docs p) a s')
      ↔ nvalue < nupdate ∧ (nvalue = 0 ∨ (env 0).alloc = false) := by
  rw [modifyBlock_null hd]
  by_cases hlt : nvalue < nupdate
  · rw [if_pos hlt, Prog.call_bind, Prog.run_call]
    cases halloc : (env 0).alloc with
    | false =>
      have hserve := serve_malloc_none s nupdate halloc
      rw [hserve]
      exact iff_of_true (failsCleanly_neg len 0 (r := -enomem) (by decide)) ⟨hlt, .inr rfl⟩
    | true =>
      have hserve := serve_malloc_some s nupdate halloc
      rw [hserve]
      dsimp only
      by_cases hz : nvalue = 0
      · rw [if_pos hz]
        exact iff_of_true (failsCleanly_neg len 0 (r := -enomem) (by decide)) ⟨hlt, .inl hz⟩
      · rw [if_neg hz]
        refine iff_of_false ?_ (fun h => h.2.elim hz (fun h => absurd h.symm Bool.false_ne_true))
        rintro ⟨a, s', hrun, -⟩
        cases hrun
  · rw [if_neg hlt]
    refine iff_of_false ?_ (fun h => hlt h.1)
    rintro ⟨a, s', hrun, -⟩
    cases hrun

end Block

/-! ## A write -/

section Write

variable {p : CString} {s : Store Text} {env : ℕ → Choice} {b buf : Bytes} {offset : ℤ}

/-- What does no harm to a write that finds a block. -/
theorem not_harmed_write_some (h0 : 0 ≤ offset) (hmax : offset + buf.length ≤ maxFileLen)
    (hs : (env 0).Served) (hfound : foundBlock env s p = some b) :
    ¬ EntryOp.Harmed env s (.write p buf offset)
      ↔ if (env 0).alloc = true then
          b.length < offset.toNat + buf.length →
            (env 1).alloc = true ∧ ((env 2).Served → ¬ StatUncopied (env 3) s p)
        else b.length < offset.toNat + buf.length ∧ (b.length = 0 ∨ (env 1).alloc = false) := by
  have hlt : (b.length : ℤ) < offset + buf.length ↔ b.length < offset.toNat + buf.length := by
    omega
  constructor
  · intro h
    cases hcopy : (env 0).alloc with
    | true =>
      rw [if_pos rfl]
      intro hgrow
      have hmem : (env 1).alloc = true := by
        by_contra hmem
        exact h (.grow hmax hfound hcopy (hlt.mpr hgrow) (Bool.eq_false_iff.mpr hmem))
      refine ⟨hmem, fun hstored hstat =>
        h (.writeStat hmax (fun e he => ?_) (fun b' hb' => ?_) hmem hstored hstat)⟩
      · cases he.symm.trans hs
      · cases hfound.symm.trans hb'
        exact ⟨hlt.mpr hgrow, hcopy⟩
    | false =>
      rw [if_neg Bool.false_ne_true]
      have hgrow : b.length < offset.toNat + buf.length := by
        by_contra hle
        exact h (.overwrite hmax hfound hcopy (by omega))
      refine ⟨hgrow, ?_⟩
      by_cases hb : b = []
      · exact .inl (List.length_eq_zero_iff.mpr hb)
      · exact .inr (Bool.eq_false_iff.mpr (fun hmem =>
          h (.lengthen hmax hfound hcopy hb (hlt.mpr hgrow) hmem)))
  · intro h hharmed
    cases hharmed with
    | overwrite hmax hb hcopy hfits =>
      cases hfound.symm.trans hb
      rw [hcopy, if_neg Bool.false_ne_true] at h
      exact absurd h.1 (by omega)
    | lengthen hmax hb hcopy hne hgrow hmem =>
      cases hfound.symm.trans hb
      rw [hcopy, if_neg Bool.false_ne_true] at h
      rcases h.2 with hz | hmem'
      · exact hne (List.length_eq_zero_iff.mp hz)
      · cases hmem.symm.trans hmem'
    | grow hmax hb hcopy hgrow hmem =>
      cases hfound.symm.trans hb
      rw [if_pos hcopy] at h
      cases hmem.symm.trans (h (hlt.mp hgrow)).1
    | writeStat hmax hsent hgrow hmem hstored hstat =>
      obtain ⟨hgrow, hcopy⟩ := hgrow b hfound
      rw [if_pos hcopy] at h
      exact (h (hlt.mp hgrow)).2 hstored hstat

/-- What does no harm to a write that finds none. -/
theorem not_harmed_write_none (hmax : offset + buf.length ≤ maxFileLen)
    (hfound : foundBlock env s p = none) :
    ¬ EntryOp.Harmed env s (.write p buf offset)
      ↔ ((∀ e, (env 0).fate ≠ .unsent e) → (env 1).alloc = true → (env 2).Served →
        ¬ StatUncopied (env 3) s p) := by
  constructor
  · intro h hsent hmem hstored hstat
    refine h (.writeStat hmax hsent (fun b' hb' => ?_) hmem hstored hstat)
    cases hfound.symm.trans hb'
  · intro h hharmed
    cases hharmed with
    | overwrite hmax hb => cases hfound.symm.trans hb
    | lengthen hmax hb => cases hfound.symm.trans hb
    | grow hmax hb => cases hfound.symm.trans hb
    | writeStat hmax hsent hgrow hmem hstored hstat => exact h hsent hmem hstored hstat

/-- **A write withstands what does it no harm.** -/
theorem withstands_writeData (hd : buf ≠ []) (h0 : 0 ≤ offset)
    (hrep : offset + buf.length < 2 ^ 64) :
    (writeData p buf offset).Withstands serve Req.AllocFails
        (FailsCleanly p (s.blocks.docs p)) env s
      ↔ ¬ EntryOp.Harmed env s (.write p buf offset) := by
  by_cases hmax : offset + buf.length ≤ maxFileLen
  · have hget := serve_blocks_get (env 0) s p
    have hbad : Req.AllocFails (.blocks (.get p)) (serve (env 0) (.blocks (.get p)) s).1
        ↔ (env 0).Served ∧ s.blocks.val p ≠ none ∧ (env 0).alloc = false :=
      uncopied_answer_iff s.blocks (env 0) p
    have hpos : 0 < buf.length := List.length_pos_of_ne_nil hd
    rw [writeData_eq (by rw [toSizeT_range h0 hmax]; omega), updateBlock_write hd h0 hmax,
      Prog.call_bind]
    obtain ⟨d, hs, hdoc, hr⟩ | ⟨e, hf, hr⟩ | ⟨hsent, hnone, e, hr⟩ :=
      Kv.Collection.answer_get_cases (env 0).fate s.blocks p
    · have hv : s.blocks.val p ≠ none := Kv.Collection.val_ne_none_of_docs hdoc
      rw [hr] at hget
      rw [not_harmed_write_some h0 hmax hs (foundBlock_of_docs hs hdoc)]
      cases hcopy : (env 0).alloc with
      | true =>
        rw [hcopy] at hget
        rw [Prog.withstands_call (fun h => by cases hcopy.symm.trans (hbad.mp h).2.2), hget,
          if_pos rfl]
        exact withstands_modifyBlock hd h0
      | false =>
        rw [hcopy] at hget
        rw [Prog.withstands_call_of_bad (hbad.mpr ⟨hs, hv, hcopy⟩), hget,
          if_neg Bool.false_ne_true]
        exact runs_modifyBlock_null hd
    · rw [not_harmed_write_none hmax (foundBlock_eq_none (fun hs => by cases hf.symm.trans hs)),
        Prog.withstands_call (fun h => by cases hf.symm.trans (hbad.mp h).1), hget, hr]
      exact iff_of_true (Prog.withstands_ret _) (fun hsent => absurd hf (hsent e))
    · rw [not_harmed_write_none hmax (foundBlock_eq_none hnone),
        Prog.withstands_call (fun h => (hbad.mp h).2.1
          ((Kv.Collection.val_eq_none _ _).mpr (hnone (hbad.mp h).1))), hget, hr]
      exact (withstands_newBlock (by omega)).trans ⟨fun h _ => h, fun h => h hsent⟩
  · rw [writeData_refused hrep (Int.not_le.mp hmax)]
    refine iff_of_true (Prog.withstands_ret _) (fun h => ?_)
    cases h <;> contradiction

end Write

/-! ## A read -/

section Read

variable {p : CString} {s : Store Text} {env : ℕ → Choice} {nbuf : ℕ} {offset : ℤ}

/-- The end of an update sets the stat where it can read the clock and its
request is served, and is an error otherwise. -/
theorem run_replaceStat {change : Timespec → CbfuseStat → CbfuseStat} {stat : CbfuseStat}
    {cas : ℕ} (hd : s.stats.docs p = some ⟨.packed stat, cas⟩) :
    ∃ r, ((replaceStat p true change stat cas).run serve env s).1 = some r
      ∧ (r < 0 ↔ ¬ ((env 0).now ≠ none ∧ (env 1).Served)) := by
  unfold replaceStat
  rw [if_pos rfl, Prog.run_call]
  cases hnow : (env 0).now with
  | none =>
    refine ⟨-eio, ?_, iff_of_true (by decide) (fun h => h.1 rfl)⟩
    simp only [serve, hnow]
    rfl
  | some ts =>
    have hserve : serve (env 0) .clockGettime s = (some ts, s) := by simp only [serve, hnow]
    rw [hserve]
    dsimp only
    rw [Prog.run_call, Prog.run_ret]
    refine ⟨_, rfl, ?_⟩
    set resp := (serve (env 1) (.stats (.store .replace p (.packed (change ts stat)) cas)) s).1
      with hresp
    have hzero := @checkResult_eq_zero StatDoc (-enoent) (by decide) resp
    have hle : checkResult (-enoent) resp ≤ 0 := isCode_checkResult resp
    have hgranted : resp.rc = none ∧ resp.status = none ↔ (env 1).Served := by
      refine ⟨fun h => (Kv.Collection.serve_of_granted h.1 h.2).1, fun h => ?_⟩
      have hv : s.stats.verdict .replace p cas = none := Kv.Collection.verdict_replace_cas hd
      simp only [hresp, serve, h.answer, Kv.Collection.serve, hv, and_self]
    rw [← hgranted, ← hzero]
    refine ⟨fun hneg h => absurd h.2 (Int.ne_of_lt hneg), fun h => ?_⟩
    exact Int.lt_iff_le_and_ne.mpr ⟨hle, fun h0 => h ⟨Option.some_ne_none ts, h0⟩⟩

/-- **An update of the stat fails**, and does not die, unless there is a packed
stat to fetch, and no copy of it or nothing else that fails. -/
theorem updateStat_fails_iff {change : Timespec → CbfuseStat → CbfuseStat} :
    (∃ r, ((updateStat p true change).run serve env s).1 = some r ∧ r < 0)
      ↔ ¬ ((env 0).Served ∧ (∃ stat, s.stats.val p = some (.packed stat))
        ∧ ((env 0).alloc = true → (env 1).now ≠ none ∧ (env 2).Served)) := by
  rw [updateStat_eq, Prog.run_call, serve_stats_get]
  obtain ⟨⟨v, cas⟩, hs, hd, hr⟩ | ⟨e, hf, hr⟩ | ⟨-, hnone, e, hr⟩ :=
    Kv.Collection.answer_get_cases (env 0).fate s.stats p
  · rw [hr, Kv.Collection.val_of_docs hd]
    cases v with
    | malformed n hn =>
      refine iff_of_true ⟨-ebadf, rfl, by decide⟩ ?_
      rintro ⟨-, ⟨stat, hstat⟩, -⟩
      cases hstat
    | packed stat =>
      cases hcopy : (env 0).alloc with
      | false =>
        refine iff_of_false ?_ (fun h => h ⟨hs, ⟨stat, rfl⟩, fun h => absurd h Bool.false_ne_true⟩)
        rintro ⟨r, hrun, -⟩
        cases hrun
      | true =>
        obtain ⟨r, hrun, hneg⟩ := @run_replaceStat Text p s (fun n => env (n + 1)) change _ _ hd
        constructor
        · rintro ⟨r', hrun', hlt⟩ h
          cases hrun.symm.trans hrun'
          exact hneg.mp hlt (h.2.2 rfl)
        · intro h
          exact ⟨r, hrun, hneg.mpr (fun hok => h ⟨hs, ⟨stat, rfl⟩, fun _ => hok⟩)⟩
  · rw [hr]
    refine iff_of_true ⟨-eio, rfl, by decide⟩ (fun h => ?_)
    cases hf.symm.trans h.1
  · rw [hr]
    refine iff_of_true ⟨-enoent, rfl, by decide⟩ ?_
    rintro ⟨hs, ⟨stat, hstat⟩, -⟩
    cases ((Kv.Collection.val_eq_none _ _).mpr (hnone hs)).symm.trans hstat

/-- The end of a read without a copy of the block: it is clean where the update
of the stat fails. -/
theorem runs_updateStat {change : Timespec → CbfuseStat → CbfuseStat} {g : ℤ → ℤ}
    (hg : ∀ r, g r = -1 ↔ r < 0) :
    (∃ a s', (updateStat p true change >>= fun fr => .ret (g fr)).run serve env s = (some a, s')
        ∧ FailsCleanly p (s.blocks.docs p) a s')
      ↔ ∃ r, ((updateStat p true change).run serve env s).1 = some r ∧ r < 0 := by
  have hblocks : ((updateStat p true change).run serve env s).2.blocks = s.blocks :=
    (updateStat_leavesBlocks p true change).run Req.LeavesBlocks.serve env s
  rw [Prog.run_bind_ret]
  constructor
  · rintro ⟨a, s', hrun, ha, -⟩
    obtain ⟨r, hr, hgr⟩ := Option.map_eq_some_iff.mp (congrArg Prod.fst hrun)
    exact ⟨r, hr, (hg r).mp (hgr.trans ha)⟩
  · rintro ⟨r, hr, hneg⟩
    refine ⟨-1, _, Prod.ext ?_ rfl, rfl, by rw [hblocks]⟩
    rw [hr]
    exact congrArg some ((hg r).mpr hneg)

/-- What does harm to a read that finds a block. -/
theorem harmed_read_some {b : Bytes} (hfound : foundBlock env s p = some b) :
    EntryOp.Harmed env s (.read p nbuf offset)
      ↔ if (env 0).alloc = true then
          offset < toOffT b.length ∧ StatUncopied (env 1) s p
            ∧ ∃ stat, s.stats.val p = some (.packed stat)
        else offset < toOffT b.length → nbuf = 0 →
          (env 1).Served ∧ (∃ stat, s.stats.val p = some (.packed stat))
            ∧ ((env 1).alloc = true → (env 2).now ≠ none ∧ (env 3).Served) := by
  constructor
  · intro h
    cases h with
    | readEnd hb hcopy hend =>
      cases hfound.symm.trans hb
      rw [hcopy, if_neg Bool.false_ne_true]
      exact fun hlt => absurd hend (Int.not_le.mpr hlt)
    | readNull hb hcopy hend hn =>
      rw [hcopy, if_neg Bool.false_ne_true]
      exact fun _ h => absurd h hn
    | readNothing hb hcopy hend hfetch hstat hupdate =>
      rw [hcopy, if_neg Bool.false_ne_true]
      exact fun _ _ => ⟨hfetch, ⟨_, hstat⟩, hupdate⟩
    | readStat hb hcopy hend hstat hnull =>
      cases hfound.symm.trans hb
      rw [if_pos hcopy]
      exact ⟨hend, hnull, _, hstat⟩
  · intro h
    cases hcopy : (env 0).alloc with
    | true =>
      rw [if_pos hcopy] at h
      obtain ⟨hend, hnull, stat, hstat⟩ := h
      exact .readStat hfound hcopy hend hstat hnull
    | false =>
      rw [hcopy, if_neg Bool.false_ne_true] at h
      by_cases hend : offset < toOffT b.length
      · by_cases hn : nbuf = 0
        · obtain ⟨hfetch, ⟨stat, hstat⟩, hupdate⟩ := h hend hn
          subst hn
          exact .readNothing hfound hcopy hend hfetch hstat hupdate
        · exact .readNull hfound hcopy hend hn
      · exact .readEnd hfound hcopy (Int.not_lt.mp hend)

/-- A read that finds no block has nothing to lose. -/
theorem not_harmed_read_none (hfound : foundBlock env s p = none) :
    ¬ EntryOp.Harmed env s (.read p nbuf offset) := by
  intro h
  cases h with
  | readEnd hb => cases hfound.symm.trans hb
  | readNull hb => cases hfound.symm.trans hb
  | readNothing hb => cases hfound.symm.trans hb
  | readStat hb => cases hfound.symm.trans hb

/-- The rest of a read that has found a block. -/
theorem readReply_found (d : Kv.Doc Bytes) (alloc : Bool) :
    (readReply p nbuf offset ⟨⟨none, none, some d⟩, alloc⟩ >>= fun r => .ret r.1 : Op Text ℤ)
      = if offset ≥ toOffT d.value.length then .ret 0
        else
          load (if alloc then some d.value else none) offset (trimmed d.value.length nbuf offset)
            >>= fun _ => updateStatAtime p >>= fun fr =>
              .ret (dataDone (if fr ≠ 0 then fr
                else toInt (trimmed d.value.length nbuf offset))) := by
  have hcode : ¬ (blockReply ⟨⟨none, none, some d⟩, alloc⟩).1 ≠ 0 := fun h => h rfl
  unfold readReply
  dsimp only
  rw [if_neg hcode,
    show (blockReply ⟨⟨none, none, some d⟩, alloc⟩).2.nvalue = d.value.length from rfl,
    show (blockReply ⟨⟨none, none, some d⟩, alloc⟩).2.value
      = if alloc then some d.value else none from rfl]
  split
  · rfl
  · rw [Prog.bind_assoc]
    refine congrArg (load _ _ _ >>= ·) (funext fun bytes => ?_)
    rw [Prog.bind_assoc]
    rfl

/-- **A read of a block there is a copy of**: what there is to run out of is
memory for the copy of the stat. -/
theorem withstands_readReply (h0 : 0 ≤ offset) (hrep : offset + nbuf < 2 ^ 64)
    (d : Kv.Doc Bytes) :
    (readReply p nbuf offset ⟨⟨none, none, some d⟩, true⟩ >>= fun r => .ret r.1).Withstands
        serve Req.AllocFails (FailsCleanly p (s.blocks.docs p)) env s
      ↔ ¬ (offset < toOffT d.value.length ∧ StatUncopied (env 0) s p
        ∧ ∃ stat, s.stats.val p = some (.packed stat)) := by
  rw [readReply_found]
  by_cases hend : offset < toOffT d.value.length
  · have hle := trimmed_le h0 hrep hend
    rw [if_neg (Int.not_le.mpr hend), if_pos rfl, load_of_le h0 (by omega), Prog.ret_bind]
    refine (withstands_updateStat true CbfuseStat.touchAtime _).trans ⟨?_, fun h hnull => ?_⟩
    · rintro h ⟨-, hnull, stat, hstat⟩
      exact (h hnull).1 stat hstat
    · exact ⟨fun stat hstat => h ⟨hend, hnull, stat, hstat⟩, rfl, rfl⟩
  · rw [if_pos (Int.not_lt.mp hend)]
    exact iff_of_true (Prog.withstands_ret _) (fun h => hend h.1)

/-- **A read of a block there is no copy of**: past the end it is a success,
before it the process dies; only a read of nothing can fail, by its update of
the stat. -/
theorem runs_readReply_null (h0 : 0 ≤ offset) (hrep : offset + nbuf < 2 ^ 64)
    (d : Kv.Doc Bytes) :
    (∃ a s', (readReply p nbuf offset ⟨⟨none, none, some d⟩, false⟩
          >>= fun r => .ret r.1).run serve env s = (some a, s')
        ∧ FailsCleanly p (s.blocks.docs p) a s')
      ↔ ¬ (offset < toOffT d.value.length → nbuf = 0 →
        (env 0).Served ∧ (∃ stat, s.stats.val p = some (.packed stat))
          ∧ ((env 0).alloc = true → (env 1).now ≠ none ∧ (env 2).Served)) := by
  rw [readReply_found, if_neg Bool.false_ne_true]
  by_cases hend : offset < toOffT d.value.length
  · have hzero := trimmed_eq_zero h0 hrep hend
    rw [if_neg (Int.not_le.mpr hend)]
    by_cases hn : nbuf = 0
    · rw [hzero.mpr hn, load_nothing, Prog.ret_bind]
      refine (runs_updateStat (fun fr => ?_)).trans (updateStat_fails_iff.trans ?_)
      · rw [dataDone_eq_neg_one]
        by_cases hfr : fr = 0
        · subst hfr
          exact Iff.rfl
        · rw [if_pos hfr]
      · exact not_congr ⟨fun h _ _ => h, fun h => h hend hn⟩
    · rw [load_null (mt hzero.mp hn), Prog.crash_bind]
      refine iff_of_false ?_ (fun h => h (fun _ hn' => absurd hn' hn))
      rintro ⟨a, s', hrun, -⟩
      cases hrun
  · rw [if_pos (Int.not_lt.mp hend)]
    refine iff_of_false ?_ (fun h => h (fun hlt => absurd hlt hend))
    rintro ⟨a, s', hrun, hminus, -⟩
    cases hrun
    cases hminus

/-- **A read withstands what does it no harm.** -/
theorem withstands_readData (h0 : 0 ≤ offset) (hrep : offset + nbuf < 2 ^ 64) :
    (readData p nbuf offset >>= fun r => .ret r.1).Withstands serve Req.AllocFails
        (FailsCleanly p (s.blocks.docs p)) env s
      ↔ ¬ EntryOp.Harmed env s (.read p nbuf offset) := by
  have hget := serve_blocks_get (env 0) s p
  have hbad : Req.AllocFails (.blocks (.get p)) (serve (env 0) (.blocks (.get p)) s).1
      ↔ (env 0).Served ∧ s.blocks.val p ≠ none ∧ (env 0).alloc = false :=
    uncopied_answer_iff s.blocks (env 0) p
  rw [readData_call, Prog.call_bind]
  obtain ⟨d, hs, hdoc, hr⟩ | ⟨e, hf, hr⟩ | ⟨-, hnone, e, hr⟩ :=
    Kv.Collection.answer_get_cases (env 0).fate s.blocks p
  · have hv : s.blocks.val p ≠ none := Kv.Collection.val_ne_none_of_docs hdoc
    rw [hr] at hget
    rw [harmed_read_some (foundBlock_of_docs hs hdoc)]
    cases hcopy : (env 0).alloc with
    | true =>
      rw [hcopy] at hget
      rw [Prog.withstands_call (fun h => by cases hcopy.symm.trans (hbad.mp h).2.2), hget,
        if_pos rfl]
      exact withstands_readReply h0 hrep d
    | false =>
      rw [hcopy] at hget
      rw [Prog.withstands_call_of_bad (hbad.mpr ⟨hs, hv, hcopy⟩), hget,
        if_neg Bool.false_ne_true]
      exact runs_readReply_null h0 hrep d
  · rw [Prog.withstands_call (fun h => by cases hf.symm.trans (hbad.mp h).1), hget, hr]
    exact iff_of_true (Prog.withstands_ret _)
      (not_harmed_read_none (foundBlock_eq_none (fun hs => by cases hf.symm.trans hs)))
  · rw [Prog.withstands_call (fun h => (hbad.mp h).2.1
      ((Kv.Collection.val_eq_none _ _).mpr (hnone (hbad.mp h).1))), hget, hr]
    exact iff_of_true (Prog.withstands_ret _) (not_harmed_read_none (foundBlock_eq_none hnone))

end Read

/-! ## Running out of memory -/

/-- The call moves bytes: it is a read, or a write of at least one. -/
def EntryOp.MovesBytes : EntryOp → Prop
  | write _ buf _ => 1 ≤ buf.length
  | read _ _ _ => True
  | _ => False

/-- **Reads and writes withstand every failed allocation but the harmful
ones.** Whatever the store holds and whatever becomes of the requests and the
allocations of a call: unless one of the cases above is met, the call comes to
its end, and where an allocation failed it returns `-1` and has left the
block; and in each of them it does not. -/
theorem EntryOp.withstands_iff {op : EntryOp} (hmoves : op.MovesBytes) (hop : op.InRange)
    (env : ℕ → Choice) (s : Store Text) :
    op.code.Withstands serve Req.AllocFails (FailsCleanly op.path (s.blocks.docs op.path)) env s
      ↔ ¬ op.Harmed env s := by
  cases op with
  | write p buf offset =>
    exact withstands_writeData (List.ne_nil_of_length_pos hmoves) hop.1 hop.2.2
  | read p nbuf offset =>
    show (Prod.fst <$> readData p nbuf offset).Withstands _ _ _ _ _ ↔ _
    rw [map_eq_pure_bind]
    exact withstands_readData hop.1 hop.2.2
  | truncate p offset => exact hmoves.elim
  | chmod p mode => exact hmoves.elim
  | utimens p tv => exact hmoves.elim

/-- A first write to a file withstands that there is no memory at all. -/
theorem EntryOp.withstands_new :
    let env : ℕ → Choice := fun _ => { Choice.good ⟨0, 0⟩ with alloc := false }
    (EntryOp.write ['/', 'g'] [9] 0).code.Withstands serve Req.AllocFails
      (FailsCleanly ['/', 'g'] none) env threeBytes := by
  intro env
  refine (@EntryOp.withstands_iff _ (.write ['/', 'g'] [9] 0) (Nat.le_refl 1) (by decide)
    env threeBytes).mpr ((not_harmed_write_none (by decide) ?_).mpr ?_)
  · exact foundBlock_eq_none (fun _ => rfl)
  · exact fun _ hmem => absurd hmem Bool.false_ne_true

/-- A write past the end of a file of three bytes dies of the one allocation
that fails, the longer buffer; and a read of it of the copy it does not have. -/
theorem write_dies_of_no_memory :
    let env (k : ℕ) : ℕ → Choice := fun n => { Choice.good ⟨0, 0⟩ with alloc := n != k }
    (∀ k n, (env k n).Served)
      ∧ ((writeData ['/', 'f'] [9] 3).run serve (env 1) threeBytes).1 = none
      ∧ ((readData ['/', 'f'] 1 0).run serve (env 0) threeBytes).1 = none
      ∧ ¬ (EntryOp.write ['/', 'f'] [9] 3).code.Withstands serve Req.AllocFails
          (FailsCleanly ['/', 'f'] (threeBytes.blocks.docs ['/', 'f'])) (env 1) threeBytes := by
  intro env
  have hdies : ((writeData ['/', 'f'] [9] 3).run serve (env 1) threeBytes).1 = none := by decide
  refine ⟨fun _ _ => rfl, hdies, by decide, ?_⟩
  rintro ⟨a, s', hrun, -⟩
  cases hdies.symm.trans (congrArg Prod.fst hrun)

end Cbfuse
