import Cbfuse.Documents

/-!
# Whole runs of one client

One client makes calls of any kind, one after the other, with nothing
failing. What is remembered of a run besides the store is who made each
entry: by `cbfuse_create` or by `cbfuse_mkdir`, that is by whose insertion its
stat is there. Nothing in the store says so for sure – the mode is whatever
the caller passed – and the kernel goes by it, as it lets only files be
unlinked and only directories be removed.

The calls fall into two kinds. Those on the tree change the documents under
one path and edit that of its directory (`run_treeOp`). Those on an entry
touch its stat and its block only, can make no stat and remove none, and that
is so whatever becomes of their requests (`run_entryOp`).
-/

namespace Cbfuse

open CString (rootDirString)

variable {Text : Type}

/-! ## The calls -/

/-- A call on an entry that is there. -/
inductive EntryOp where
  /-- `write_data(path, buf, nbuf, offset)`, which is all `cbfuse_write`
  does. -/
  | write (path : CString) (buf : Bytes) (offset : ℤ)
  /-- `truncate_data(path, offset)`, which is all `cbfuse_truncate` does. -/
  | truncate (path : CString) (offset : ℤ)
  /-- `read_data(path, buf, nbuf, offset)`, which is all `cbfuse_read`
  does. -/
  | read (path : CString) (nbuf : ℕ) (offset : ℤ)
  /-- `cbfuse_chmod(path, mode)` -/
  | chmod (path : CString) (mode : ℕ)
  /-- `cbfuse_utimens(path, tv)` -/
  | utimens (path : CString) (tv : Option (Timespec × Timespec))

namespace EntryOp

/-- The entry a call is about. -/
def path : EntryOp → CString
  | write p _ _ => p
  | truncate p _ => p
  | read p _ _ => p
  | chmod p _ => p
  | utimens p _ => p

/-- The program of a call. -/
def code : EntryOp → Op Text ℤ
  | write p buf offset => writeData p buf offset
  | truncate p offset => truncateData p offset
  | read p nbuf offset => Prod.fst <$> readData p nbuf offset
  | chmod p mode => cbfuseChmod p mode
  | utimens p tv => cbfuseUtimens p tv

/-- The call is about the bytes of a file. -/
def OnData : EntryOp → Prop
  | write _ _ _ => True
  | truncate _ _ => True
  | read _ _ _ => True
  | _ => False

end EntryOp

/-- A call. -/
inductive FsOp where
  /-- A call that changes the tree. -/
  | tree (op : TreeOp)
  /-- A call on an entry. -/
  | entry (op : EntryOp)

namespace FsOp

/-- The path a call is about. -/
def path : FsOp → CString
  | tree op => op.path
  | entry op => op.path

/-- The program of a call. -/
def code [CJson Text] : FsOp → Op Text ℤ
  | tree op => op.code
  | entry op => op.code

end FsOp

/-! ## What a call on an entry can touch -/

/-- The request is about the stat or the block of `p`, and neither makes nor
removes a stat. -/
def Req.OnEntry (p : CString) : Req Text → Prop
  | .stats (.get k) => k = p
  | .stats (.store op k _ _) => op = .replace ∧ k = p
  | .stats (.remove _) => False
  | .dentries _ => False
  | .blocks r => r.key = p
  | _ => True

theorem Req.UpdatesStat.onEntry {p : CString} {q : Req Text} (h : q.UpdatesStat p) :
    q.OnEntry p := by
  cases q with
  | stats r =>
    cases r with
    | get k => exact h
    | store op k v cas => exact h
    | remove k => exact h.elim
  | dentries r => exact h.elim
  | blocks r => exact h.elim
  | _ => trivial

/-- The request is about the block of `p`, or for memory. -/
def Req.OnBlock (p : CString) : Req Text → Prop
  | .blocks r => r.key = p
  | q => q.OnMemory

theorem Req.OnBlock.onEntry {p : CString} {q : Req Text} (h : q.OnBlock p) : q.OnEntry p := by
  cases q with
  | stats r => exact h.elim
  | dentries r => exact h.elim
  | blocks r => exact h
  | _ => trivial

theorem Req.StoresBlock.onBlock {p : CString} {q : Req Text} (h : q.StoresBlock p) :
    q.OnBlock p := by
  cases q with
  | stats r => exact h.elim
  | dentries r => exact h.elim
  | blocks r =>
    cases r with
    | get k => exact h.elim
    | store op k v cas => exact h
    | remove k => exact h.elim
  | clockGettime => exact h.elim
  | _ => trivial

theorem Req.OnMemory.onBlock {q : Req Text} (h : q.OnMemory) (p : CString) : q.OnBlock p :=
  (h.storesBlock p).onBlock

theorem getBlock_only (pkey : CString) :
    (getBlock pkey : Op Text _).Only (Req.OnBlock pkey) := by
  rw [getBlock_eq]
  exact ⟨rfl, fun _ => trivial⟩

theorem updateBlock_only (pkey : CString) (buf : Option Bytes) (offset : ℤ) :
    (updateBlock pkey buf offset : Op Text _).Only (Req.OnBlock pkey) := by
  have hmodify : ∀ value nvalue nupdate n₀,
      (modifyBlock pkey buf offset nupdate value nvalue n₀ : Op Text _).Only
        (Req.OnBlock pkey) :=
    fun _ _ _ _ => (modifyBlock_only _ _ _ _ _ _ _).mono (fun _ h => h.onBlock)
  unfold updateBlock
  dsimp only
  split
  · trivial
  · refine Prog.only_bind (getBlock_only pkey) (fun r => ?_)
    split
    · split
      · refine Prog.only_bind ⟨trivial, fun _ => trivial⟩ (fun value => ?_)
        cases value with
        | none => trivial
        | some value => exact hmodify _ _ _ _
      · trivial
    · split
      · trivial
      · exact hmodify _ _ _ _

theorem EntryOp.code_only (op : EntryOp) : (op.code : Op Text ℤ).Only (Req.OnEntry op.path) := by
  have hstat : ∀ p clock change,
      (updateStat p clock change : Op Text ℤ).Only (Req.OnEntry p) :=
    fun p _ _ => (updateStat_only p _ _).mono (fun _ h => h.onEntry)
  have hblock : ∀ p buf offset,
      (updateBlock p buf offset : Op Text _).Only (Req.OnEntry p) :=
    fun p _ _ => (updateBlock_only p _ _).mono (fun _ h => h.onEntry)
  cases op with
  | write p buf offset =>
    show (writeData p buf offset : Op Text ℤ).Only (Req.OnEntry p)
    unfold writeData
    split
    · trivial
    · refine Prog.only_bind (hblock p _ _) (fun r => ?_)
      dsimp only
      split
      · trivial
      · split
        · refine Prog.only_bind (hstat p _ _) (fun fresult => ?_)
          split <;> trivial
        · trivial
  | truncate p offset =>
    refine Prog.only_bind ?_ (fun fresult => ?_)
    · split
      · exact ⟨rfl, fun _ => trivial⟩
      · exact Prog.only_bind (hblock p _ _) (fun _ => trivial)
    · split
      · trivial
      · exact hstat p _ _
  | read p nbuf offset =>
    have hget : (Req.blocks (.get p) : Req Text).OnEntry p := rfl
    exact Prog.only_bind (readData_only hget (fun _ h => (h.onBlock p).onEntry) (hstat p _ _) _ _)
      (fun _ => trivial)
  | chmod p mode => exact hstat p _ _
  | utimens p tv => exact hstat p _ _

/-- Setting a mode or the times has nothing to do with blocks. -/
theorem EntryOp.code_leavesBlocks {op : EntryOp} (h : ¬ op.OnData) :
    (op.code : Op Text ℤ).Only Req.LeavesBlocks := by
  cases op with
  | write p buf offset => exact absurd trivial h
  | truncate p offset => exact absurd trivial h
  | read p nbuf offset => exact absurd trivial h
  | chmod p mode => exact updateStat_leavesBlocks p _ _
  | utimens p tv => exact updateStat_leavesBlocks p _ _

/-- The documents but for the stat and the block of `p`. -/
def Docs.others (d : Docs Text) (p : CString) : Docs Text := (d.setStat p none).setBlock p none

theorem Docs.others_eq_iff {d d' : Docs Text} {p : CString} :
    d'.others p = d.others p ↔ (∀ k, k ≠ p → d'.stats k = d.stats k)
      ∧ d'.dentries = d.dentries ∧ ∀ k, k ≠ p → d'.blocks k = d.blocks k := by
  refine ⟨fun h => ⟨fun k hk => ?_, ?_, fun k hk => ?_⟩,
    fun ⟨hstats, hdentries, hblocks⟩ => ?_⟩
  · simpa [others, hk] using congrFun (congrArg Docs.stats h) k
  · simpa [others] using congrArg Docs.dentries h
  · simpa [others, hk] using congrFun (congrArg Docs.blocks h) k
  · ext1
    · funext k
      by_cases hk : k = p
      · simp [others, hk]
      · simp [others, hk, hstats k hk]
    · exact hdentries
    · funext k
      by_cases hk : k = p
      · simp [others, hk]
      · simp [others, hk, hblocks k hk]

/-- What a call on `p` leaves alone: the other documents, and whether there
is a stat. -/
def Store.aside (p : CString) (s : Store Text) : Docs Text × Bool :=
  (s.docs.others p, (s.stats.val p).isSome)

theorem Req.OnEntry.serve {p : CString} (c : Choice) (q : Req Text) (s : Store Text)
    (hq : q.OnEntry p) : (serve c q s).2.aside p = s.aside p := by
  unfold Store.aside
  cases q with
  | stats r =>
    obtain he | ⟨op, k, v, cas, rfl, hv, he⟩ | ⟨k, d, rfl, -, -⟩ :=
      Kv.Collection.answer_cases c.fate s.stats r
    · simp only [Cbfuse.serve, he]
    · obtain ⟨rfl, rfl⟩ := hq
      have hsome : (s.stats.val k).isSome := by
        rw [Option.isSome_iff_ne_none, ne_eq, Kv.Collection.val_eq_none]
        intro hnone
        simp [Kv.Collection.verdict, hnone] at hv
      simp only [Cbfuse.serve, he, Kv.Collection.val_put, if_pos, hsome, Option.isSome_some]
      exact congrArg (·, true)
        (Docs.others_eq_iff.mpr ⟨fun k' hk => by simp [Store.docs, hk], rfl, fun _ _ => rfl⟩)
    · exact hq.elim
  | dentries r => exact hq.elim
  | blocks r =>
    obtain he | ⟨op, k, v, cas, rfl, hv, he⟩ | ⟨k, d, rfl, -, he⟩ :=
      Kv.Collection.answer_cases c.fate s.blocks r
    · simp only [Cbfuse.serve, he]
    · obtain rfl : k = p := hq
      simp only [Cbfuse.serve, he]
      exact congrArg (·, _)
        (Docs.others_eq_iff.mpr ⟨fun _ _ => rfl, rfl, fun k' hk => by simp [Store.docs, hk]⟩)
    · obtain rfl : k = p := hq
      simp only [Cbfuse.serve, he]
      exact congrArg (·, _)
        (Docs.others_eq_iff.mpr ⟨fun _ _ => rfl, rfl, fun k' hk => by simp [Store.docs, hk]⟩)
  | _ => rfl

/-- **A call on an entry leaves everything else alone**, whatever becomes of
its requests: the documents but for its stat and its block, and whether it
has a stat. -/
theorem run_entryOp [CJson Text] (op : EntryOp) (env : ℕ → Choice) (s : Store Text) :
    (op.code.run serve env s).2.docs.others op.path = s.docs.others op.path
      ∧ ((op.code.run serve env s).2.stats.val op.path).isSome
        = (s.stats.val op.path).isSome :=
  Prod.ext_iff.mp (op.code_only.run Req.OnEntry.serve env s)

/-- **What a call on the tree leaves, path by path**: under `p` the documents
`own`, and under every other path what there was. Of directory documents it
says only whether there is one. -/
structure Store.Becomes (s : Store Text) (p : CString) (own : Own Text) (s' : Store Text) :
    Prop where
  /-- The stat of `p`. -/
  stat : s'.stats.val p = own.stat
  /-- Whether `p` has a directory document. -/
  dentry : s'.dentries.val p = none ↔ own.dentry = none
  /-- The block of `p`. -/
  block : s'.blocks.val p = own.block
  /-- The other stats. -/
  stats_ne : ∀ k, k ≠ p → s'.stats.val k = s.stats.val k
  /-- Which other paths have a directory document. -/
  dentries_ne : ∀ k, k ≠ p → (s'.dentries.val k = none ↔ s.dentries.val k = none)
  /-- The other blocks. -/
  blocks_ne : ∀ k, k ≠ p → s'.blocks.val k = s.blocks.val k

theorem Store.Becomes.of_apply [CJson Text] {s s' : Store Text} {p : CString}
    {c : Own Text → Change Text} (h : s'.docs = (s.docs.apply p c).2) :
    s.Becomes p (c (s.docs.own p)).own s' := by
  have hstats : ∀ k, s'.docs.stats k = _ := fun k => by rw [h, Docs.stats_apply]
  have hblocks : ∀ k, s'.docs.blocks k = _ := fun k => by rw [h, Docs.blocks_apply]
  have hdentries := fun k => @Docs.dentries_apply_eq_none _ _ p s.docs c k
  rw [← h] at hdentries
  exact {
    stat := (hstats p).trans (if_pos rfl)
    dentry := by rw [show s'.dentries.val p = none ↔ _ from hdentries p, if_pos rfl]
    block := (hblocks p).trans (if_pos rfl)
    stats_ne := fun k hk => (hstats k).trans (if_neg hk)
    dentries_ne := fun k hk => by
      rw [show s'.dentries.val k = none ↔ _ from hdentries k, if_neg hk]
      exact Iff.rfl
    blocks_ne := fun k hk => (hblocks k).trans (if_neg hk) }

/-! ## Runs -/

/-- Which of the two calls made an entry. -/
inductive Maker where
  /-- `cbfuse_create` -/
  | create
  /-- `cbfuse_mkdir` -/
  | mkdir
  deriving DecidableEq

/-- What a call makes, where it makes anything. -/
def FsOp.maker : FsOp → Option Maker
  | tree (.create _ _) => some .create
  | tree (.mkdir _ _) => some .mkdir
  | _ => none

/-- **The state of a run**: the store, and who made each entry. Nobody made
the root. -/
structure World (Text : Type) where
  /-- The store. -/
  store : Store Text
  /-- The call that inserted the stat that is there. -/
  maker : CString → Option Maker

namespace World

variable [CJson Text]

/-- The state a run starts in. -/
def start (env : ℕ → Choice) : World Text := ⟨rootStore env, fun _ => none⟩

/-- **A call**, its requests served under the choices given with it. A stat
that is there after the call and was not before is one the call made. -/
def step (x : FsOp × (ℕ → Choice)) (w : World Text) : World Text :=
  let s := (x.1.code.run serve x.2 w.store).2
  { store := s
    maker := fun k =>
      if s.stats.val k = none then none
      else if w.store.stats.val k = none then x.1.maker
      else w.maker k }

variable {w : World Text} {env : ℕ → Choice} {p : CString}

/-- A stat that was there has the maker it had. -/
theorem maker_step {x : FsOp × (ℕ → Choice)} (hs' : (step x w).store.stats.val p ≠ none)
    (hs : w.store.stats.val p ≠ none) : (step x w).maker p = w.maker p :=
  (if_neg hs').trans (if_neg hs)

/-- A stat that was not there was made by the call. -/
theorem maker_step_new {x : FsOp × (ℕ → Choice)} (hs' : (step x w).store.stats.val p ≠ none)
    (hs : w.store.stats.val p = none) : (step x w).maker p = x.1.maker :=
  (if_neg hs').trans (if_pos hs)

/-- **A call on the tree, with nothing failing**, path by path. -/
theorem step_tree (op : TreeOp) (w : World Text) (henv : ∀ n, (env n).FaultFree) :
    ∃ ts, w.store.Becomes op.path (op.change ts (w.store.docs.own op.path)).own
      (step (.tree op, env) w).store := by
  obtain ⟨ts, hts⟩ := (henv 0).exists_now
  obtain ⟨s', hrun, hs'⟩ := run_treeOp op w.store henv hts
  have hstep : (step (.tree op, env) w).store = s' := congrArg Prod.snd hrun
  rw [hstep]
  exact ⟨ts, Store.Becomes.of_apply hs'⟩

/-- A call on the tree that is refused leaves the documents. -/
theorem step_tree_refused {op : TreeOp} (henv : ∀ n, (env n).FaultFree)
    (hop : ∀ ts, ∃ r, op.change ts (w.store.docs.own op.path)
      = .refused (w.store.docs.own op.path) r) :
    (step (.tree op, env) w).store.docs = w.store.docs := by
  obtain ⟨ts, hts⟩ := (henv 0).exists_now
  obtain ⟨s', hrun, hs'⟩ := run_treeOp op w.store henv hts
  obtain ⟨r, hr⟩ := hop ts
  rw [Docs.apply_refused hr, Docs.setOwn_own] at hs'
  rwa [show (step (.tree op, env) w).store = s' from congrArg Prod.snd hrun]

/-- **A call on an entry**, path by path, whatever becomes of its requests. -/
theorem step_entry (op : EntryOp) (env : ℕ → Choice) (w : World Text) :
    let s := (step (.entry op, env) w).store
    (∀ k, s.stats.val k = none ↔ w.store.stats.val k = none)
      ∧ s.dentries.val = w.store.dentries.val
      ∧ ∀ k, k ≠ op.path ∨ ¬ op.OnData → s.blocks.val k = w.store.blocks.val k := by
  obtain ⟨hothers, hsome⟩ := run_entryOp op env w.store
  obtain ⟨hstats, hdentries, hblocks⟩ := Docs.others_eq_iff.mp hothers
  refine ⟨fun k => ?_, hdentries, fun k hk => ?_⟩
  · by_cases hk : k = op.path
    · subst hk
      rw [← Option.not_isSome_iff_eq_none, ← Option.not_isSome_iff_eq_none]
      exact not_congr (iff_of_eq (congrArg (· = true) hsome))
    · exact iff_of_eq (congrArg (· = none) (hstats k hk))
  · by_cases hkp : k = op.path
    · have hleaves := @EntryOp.code_leavesBlocks Text op (hk.resolve_left (not_not.mpr hkp))
      exact congrArg (fun b => Kv.Collection.val b k)
        (hleaves.run Req.LeavesBlocks.serve env w.store)
    · exact hblocks k hkp

end World

end Cbfuse
