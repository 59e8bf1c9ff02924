import Mathlib.Data.List.Induction
import Cbfuse.Files
import Cbfuse.Interleave

/-!
# A new file has no block

A block belongs to the file whose stat is there, but the two are removed by
separate requests and stored by separate calls. An unlink goes on when the
removal of the block fails, and a write or a truncation stores the block
whether or not the file it fetched it for still exists; in either case a
block is left without a file, and the next file of the name finds it
(`newFile_stale`).

Where the removal of the block is answered in every unlink, no block is stored
between the two removals of one, and every store of the block finds the file
there that the call fetched it for, a file that has just been made has no block
(`newFile_of_run`). What carries the proof is that an unlink asks for the block
first, so that a block is only there while its stat is, and that after an
insertion of the stat a block can only come from a write that has been issued
since.
-/

namespace Cbfuse

variable {Text ι : Type}

/-! ## What a trace tells -/

/-- A request inserted the stat of `p`. -/
def Inserts (p : CString) : (q : Req Text) → q.Reply → Prop
  | .stats (.store .insert k _ _), resp => k = p ∧ resp.Granted
  | _, _ => False

/-- A request fetched the block of `p` and found one. -/
def FindsBlock (p : CString) : (q : Req Text) → q.Reply → Prop
  | .blocks (.get k), resp => k = p ∧ resp.Granted
  | _, _ => False

/-- A request stored the block of `p`. -/
def Stores (p : CString) : (q : Req Text) → q.Reply → Prop
  | .blocks (.store _ k _ _), resp => k = p ∧ resp.Granted
  | _, _ => False

instance (p : CString) : (q : Req Text) → (r : q.Reply) → Decidable (Stores p q r)
  | .blocks (.store _ k _ _), resp => inferInstanceAs (Decidable (k = p ∧ resp.Granted))
  | .blocks (.get _), _ => isFalse id
  | .blocks (.remove _), _ => isFalse id
  | .stats _, _ => isFalse id
  | .dentries _, _ => isFalse id
  | .clockGettime, _ => isFalse id
  | .malloc _, _ => isFalse id
  | .overread _, _ => isFalse id

/-- The requests served after some insertion of the stat of `p`. -/
def AfterInsert (p : CString) (tr l : List (Pool.Event ι (Req Text) Req.Reply)) : Prop :=
  ∃ tr₁ e, tr = tr₁ ++ e :: l ∧ Inserts p e.req e.reply

theorem not_afterInsert_nil {p : CString} {l : List (Pool.Event ι (Req Text) Req.Reply)} :
    ¬ AfterInsert p [] l := by
  rintro ⟨tr₁, e, htr, -⟩
  exact List.append_ne_nil_of_right_ne_nil tr₁ (List.cons_ne_nil e l) htr.symm

/-- One more request comes after every insertion before it, and may be one
itself. -/
theorem afterInsert_append {p : CString} {tr l : List (Pool.Event ι (Req Text) Req.Reply)}
    {e : Pool.Event ι (Req Text) Req.Reply} (h : AfterInsert p (tr ++ [e]) l) :
    (l = [] ∧ Inserts p e.req e.reply) ∨ ∃ l', l = l' ++ [e] ∧ AfterInsert p tr l' := by
  obtain ⟨tr₁, e₁, htr, he⟩ := h
  rcases List.eq_nil_or_concat l with rfl | ⟨l', e', rfl⟩
  · have h := (List.append_inj' htr rfl).2
    cases h
    exact .inl ⟨rfl, he⟩
  · right
    rw [List.concat_eq_append, ← List.cons_append, ← List.append_assoc] at htr
    obtain ⟨h, he'⟩ := List.append_inj' htr rfl
    cases he'
    exact ⟨l', List.concat_eq_append .., tr₁, e₁, h, he⟩

/-! ## The calls as a protocol -/

/-- The call is a write. -/
def FileOp.IsWrite : FileOp → Prop
  | write _ _ _ => True
  | _ => False

/-- **A write to `p` is issued**: its first request, the fetch of the
block. -/
def Issues (calls : ι → FileOp) (p : CString) (e : Pool.Event ι (Req Text) Req.Reply) : Prop :=
  (calls e.who).IsWrite ∧ e.req = .blocks (.get p)

/-- What a call has done that matters to the block of `p`. -/
inductive FilePhase where
  /-- Nothing, or it fetched the block and found none. -/
  | idle
  /-- It fetched the block and found one. -/
  | found
  /-- It inserted the stat. -/
  | inserted
  /-- It is an unlink, and asked for the removal of the block. -/
  | cleared

/-- **What a call does about the file `p`**: it stores the block only if it
found one, or is a write, and it makes a stat only by an insertion. It removes
the stat only if it is an unlink, and asked for the removal of the block before.
A creation returns zero only if it inserted the stat. -/
def fileProtocol (p : CString) (op : FileOp) :
    Protocol (Req Text) Req.Reply (ℤ × Bytes) FilePhase where
  start := .idle
  allow g q :=
    match q with
    | .stats (.store o k _ _) => k = p → o = .insert ∨ o = .replace
    | .stats (.remove k) => k = p → op = .unlink p ∧ g = .cleared
    | .blocks (.store _ k _ _) => k = p → op.IsWrite ∨ g = .found
    | _ => True
  next g q r :=
    match q, r with
    | .blocks (.get k), resp => if k = p then if resp.Granted then .found else .idle else g
    | .blocks (.remove k), _ => if k = p ∧ op = .unlink p then .cleared else g
    | .stats (.store .insert k _ _), resp => if k = p ∧ resp.Granted then .inserted else g
    | _, _ => g
  final g r := ∀ mode, op = .create p mode → r.1 = 0 → g = .inserted

/-- What a request does to a phase. -/
theorem next_cases {p : CString} {op : FileOp} {g : FilePhase} {q : Req Text} {r : q.Reply} :
    ((fileProtocol p op).next g q r = g ∧ q ≠ .blocks (.get p))
      ∨ ((fileProtocol p op).next g q r = .idle ∧ q = .blocks (.get p))
      ∨ ((fileProtocol p op).next g q r = .found ∧ FindsBlock p q r)
      ∨ ((fileProtocol p op).next g q r = .inserted ∧ Inserts p q r)
      ∨ ((fileProtocol p op).next g q r = .cleared ∧ q = .blocks (.remove p) ∧ op = .unlink p) := by
  cases q with
  | stats req =>
    cases req with
    | store o k v cas =>
      cases o with
      | insert =>
        simp only [fileProtocol]
        split
        · next hins => exact .inr (.inr (.inr (.inl ⟨rfl, hins⟩)))
        · exact .inl ⟨rfl, fun e => by cases e⟩
      | _ => exact .inl ⟨rfl, fun e => by cases e⟩
    | _ => exact .inl ⟨rfl, fun e => by cases e⟩
  | blocks req =>
    cases req with
    | get k =>
      simp only [fileProtocol]
      by_cases hk : k = p
      · rw [if_pos hk]
        split
        · next hgr => exact .inr (.inr (.inl ⟨rfl, hk, hgr⟩))
        · exact .inr (.inl ⟨rfl, by rw [hk]⟩)
      · rw [if_neg hk]
        exact .inl ⟨rfl, fun e => by cases e; exact hk rfl⟩
    | remove k =>
      simp only [fileProtocol]
      split
      · next h => exact .inr (.inr (.inr (.inr ⟨rfl, by rw [h.1], h.2⟩)))
      · exact .inl ⟨rfl, fun e => by cases e⟩
    | _ => exact .inl ⟨rfl, fun e => by cases e⟩
  | _ => exact .inl ⟨rfl, fun e => by cases e⟩

/-- A call has found the block if its request just did, or had before. -/
theorem next_eq_found {p : CString} {op : FileOp} {g : FilePhase} {q : Req Text} {r : q.Reply}
    (h : (fileProtocol p op).next g q r = .found) :
    FindsBlock p q r ∨ (g = .found ∧ q ≠ .blocks (.get p)) := by
  obtain ⟨hg, hne⟩ | ⟨hg, -⟩ | ⟨-, hfind⟩ | ⟨hg, -⟩ | ⟨hg, -⟩ :=
    @next_cases _ p op g q r
  · exact .inr ⟨hg.symm.trans h, hne⟩
  · cases hg.symm.trans h
  · exact .inl hfind
  · cases hg.symm.trans h
  · cases hg.symm.trans h

/-- A call has inserted the stat if its request just did, or had before. -/
theorem next_eq_inserted {p : CString} {op : FileOp} {g : FilePhase} {q : Req Text} {r : q.Reply}
    (h : (fileProtocol p op).next g q r = .inserted) : Inserts p q r ∨ g = .inserted := by
  obtain ⟨hg, -⟩ | ⟨hg, -⟩ | ⟨hg, -⟩ | ⟨-, hins⟩ | ⟨hg, -⟩ :=
    @next_cases _ p op g q r
  · exact .inr (hg.symm.trans h)
  · cases hg.symm.trans h
  · cases hg.symm.trans h
  · exact .inl hins
  · cases hg.symm.trans h

/-- A call is past the removal of the block if its request just asked for it, or
one had before. -/
theorem next_eq_cleared {p : CString} {op : FileOp} {g : FilePhase} {q : Req Text} {r : q.Reply}
    (h : (fileProtocol p op).next g q r = .cleared) :
    (q = .blocks (.remove p) ∧ op = .unlink p) ∨ g = .cleared := by
  obtain ⟨hg, -⟩ | ⟨hg, -⟩ | ⟨hg, -⟩ | ⟨hg, -⟩ | ⟨-, hclear⟩ :=
    @next_cases _ p op g q r
  · exact .inr (hg.symm.trans h)
  · cases hg.symm.trans h
  · cases hg.symm.trans h
  · cases hg.symm.trans h
  · exact .inl hclear

/-- The request is not about a block, and neither makes nor removes a stat. -/
def Req.Plain : Req Text → Prop
  | .stats (.store o _ _ _) => o = .replace
  | .stats (.remove _) => False
  | .blocks _ => False
  | _ => True

theorem Req.UpdatesStat.plain {pkey : CString} {q : Req Text} (h : q.UpdatesStat pkey) :
    q.Plain := by
  cases q with
  | stats r =>
    cases r with
    | store o k v cas => exact h.1
    | get k => trivial
    | remove k => exact h.elim
  | blocks r => exact h.elim
  | _ => trivial

theorem Req.OnDentries.plain {q : Req Text} (h : q.OnDentries) : q.Plain := by
  cases q with
  | dentries r => trivial
  | _ => exact h.elim

theorem Req.OnMemory.plain {q : Req Text} (h : q.OnMemory) : q.Plain := by
  cases q with
  | malloc n => trivial
  | overread n => trivial
  | _ => exact h.elim

section Follows

variable {p : CString} {op : FileOp}

/-- Plain requests are allowed, and change nothing about the call. -/
theorem Req.Plain.allow {q : Req Text} (h : q.Plain) (g : FilePhase) :
    (fileProtocol p op).allow g q := by
  cases q with
  | stats r =>
    cases r with
    | store o k v cas => exact fun _ => .inr h
    | get k => trivial
    | remove k => exact h.elim
  | blocks r => exact h.elim
  | _ => trivial

theorem Req.Plain.next {q : Req Text} (h : q.Plain) (g : FilePhase) (r : q.Reply) :
    (fileProtocol p op).next g q r = g := by
  cases q with
  | stats req =>
    cases req with
    | store o k v cas => cases h; rfl
    | _ => rfl
  | blocks req => exact h.elim
  | _ => rfl

/-- A program of plain requests keeps to the protocol, in whichever phase
it may return. -/
theorem plain_follows {g : FilePhase} (hfinal : ∀ r, (@fileProtocol Text p op).final g r)
    {prog : Op Text (ℤ × Bytes)} (h : prog.Only Req.Plain) :
    (fileProtocol p op).Follows g prog :=
  Protocol.follows_of_only _ (fun _ hq => hq.allow g) (fun _ r hq => hq.next g r) hfinal h

/-- A program of plain requests may come before what keeps to the protocol. -/
theorem plain_bind_follows {β : Type} {f : β → Op Text (ℤ × Bytes)} {g : FilePhase}
    (hf : ∀ r, (fileProtocol p op).Follows g (f r)) {prog : Op Text β} (h : prog.Only Req.Plain) :
    (fileProtocol p op).Follows g (prog >>= f) :=
  Protocol.follows_bind _
    (Protocol.follows_of_only _ (fun _ hq => hq.allow g) (fun _ r hq => hq.next g r) hf h)

/-- Only a creation is asked about what it returns. -/
theorem final_of_ne (hop : ∀ mode, op ≠ .create p mode) (g : FilePhase) (r : ℤ × Bytes) :
    (@fileProtocol Text p op).final g r := fun mode h => absurd h (hop mode)

/-- A call that stores the block of `k` may do so if it is a write, or has
found one. -/
theorem stores_follows {β : Type} {f : β → Op Text (ℤ × Bytes)} {g : FilePhase} {k : CString}
    (hg : k = p → op.IsWrite ∨ g = .found) (hf : ∀ r, (fileProtocol p op).Follows g (f r))
    {prog : Op Text β} (h : prog.Only (Req.StoresBlock k)) :
    (fileProtocol p op).Follows g (prog >>= f) := by
  refine Protocol.follows_bind _ (Protocol.follows_of_only _ (fun q hq => ?_) (fun q r hq => ?_)
    hf h)
  · cases q with
    | blocks r =>
      cases r with
      | store o k' v cas => exact fun hk => hg (hq ▸ hk)
      | _ => exact hq.elim
    | malloc n => trivial
    | overread n => trivial
    | _ => exact hq.elim
  · cases q with
    | blocks req =>
      cases req with
      | store o k' v cas => rfl
      | _ => exact hq.elim
    | malloc n => rfl
    | overread n => rfl
    | _ => exact hq.elim

/-- An update of a block stores one only if it found one, or has data for
it. -/
theorem updateBlock_follows {f : ℤ × ℕ → Op Text (ℤ × Bytes)} {k : CString}
    {buf : Option Bytes} {offset : ℤ} (hop : op.IsWrite ∨ isNotTruncate buf = false)
    (hf : ∀ g r, (fileProtocol p op).Follows g (f r)) (g : FilePhase) :
    (fileProtocol p op).Follows g (updateBlock k buf offset >>= f) := by
  unfold updateBlock
  dsimp only
  split
  · exact hf _ _
  · rw [getBlock_eq, Prog.call_bind, Prog.call_bind]
    refine ⟨trivial, fun resp => ?_⟩
    beta_reduce
    rw [Prog.ret_bind]
    unfold blockReply
    dsimp only
    split
    · split
      · next hbuf =>
        -- a new block: only a write has the data for one
        have hw : op.IsWrite := hop.resolve_right (by rw [hbuf]; decide)
        unfold malloc
        rw [Prog.call_bind, Prog.call_bind]
        refine ⟨trivial, fun dest => ?_⟩
        beta_reduce
        rw [Prog.ret_bind]
        cases dest with
        | none => exact hf _ _
        | some value =>
          exact stores_follows (fun _ => .inl hw) (hf _) (modifyBlock_only _ _ _ _ _ _ _)
      · exact hf _ _
    · split
      · exact hf _ _
      · next hne hres =>
        -- the block was found, and may be stored again
        have hg : checkResult (-enoent) resp = 0 := not_not.mp hres
        have hgr : resp.Granted := (checkResult_eq_zero (by decide) resp).mp hg
        refine stores_follows (fun hk => .inr ?_) (hf _) (modifyBlock_only _ _ _ _ _ _ _)
        simp only [fileProtocol, if_pos hk, if_pos hgr]

variable [CJson Text]

/-- A creation returns zero only if it inserted the stat. -/
theorem create_follows (k : CString) (mode : ℕ) :
    (fileProtocol p (.create k mode)).Follows .idle
      ((FileOp.create k mode).code : Op Text (ℤ × Bytes)) := by
  have hfail : ∀ (g : FilePhase) (r : ℤ), r ≠ 0 →
      (fileProtocol p (.create k mode)).Follows g (.ret (r, []) : Op Text (ℤ × Bytes)) :=
    fun g r hr mode' _ h0 => absurd h0 hr
  show (fileProtocol p (.create k mode)).Follows .idle
    (cbfuseCreate k mode >>= fun r => .ret (r, []))
  unfold cbfuseCreate
  split
  · exact hfail _ _ (by decide)
  · split
    · exact hfail _ _ (by decide)
    · unfold insertStat clockGettime askStats
      simp only [Prog.call_bind, Prog.ret_bind, Prog.pure_eq_ret]
      refine ⟨trivial, fun now => ?_⟩
      cases now with
      | none => exact hfail _ _ (by decide)
      | some ts =>
        refine ⟨fun _ => .inl rfl, fun resp => ?_⟩
        show (fileProtocol p (.create k mode)).Follows _
          ((if checkResult (-enoent) resp ≠ 0 then .ret (checkResult (-enoent) resp)
            else addChildToDentry k.dirname k.basename) >>= fun r => .ret (r, []))
        split
        · next hne => exact hfail _ _ hne
        · next h0 =>
          have hgr : resp.Granted := (checkResult_eq_zero (by decide) resp).mp (not_not.mp h0)
          refine plain_follows (fun r mode' hop _ => ?_)
            (Prog.only_bind ((editDentry_only _ _).mono (fun _ h => h.plain)) (fun _ => trivial))
          cases hop
          simp only [fileProtocol, hgr, and_self, if_true]

omit [CJson Text] in
theorem updateStat_plain (k : CString) (clock : Bool)
    (change : Timespec → CbfuseStat → CbfuseStat) :
    (updateStat k clock change : Op Text ℤ).Only Req.Plain :=
  (updateStat_only k clock change).mono (fun _ h => h.plain)

/-- An unlink asks for the removal of the block before it asks for that of the
stat. -/
theorem unlink_follows (k : CString) :
    (fileProtocol p (.unlink k)).Follows .idle
      ((FileOp.unlink k).code : Op Text (ℤ × Bytes)) := by
  have hfin := @final_of_ne Text p (.unlink k) (fun _ h => by cases h)
  show (fileProtocol p (.unlink k)).Follows .idle (cbfuseUnlink k >>= fun r => .ret (r, []))
  unfold cbfuseUnlink removeData removeStat askBlocks askStats
  simp only [Prog.call_bind, Prog.ret_bind, Prog.pure_eq_ret, bind_assoc]
  refine ⟨trivial, fun resp => plain_bind_follows (fun _ => ?_)
    ((editDentry_only _ _).mono (fun _ h => h.plain))⟩
  refine ⟨fun hk => ⟨by rw [hk], ?_⟩, fun _ => hfin _ _⟩
  simp only [fileProtocol, hk, and_self, if_true]

omit [CJson Text] in
theorem finishWrite_plain (k : CString) (nbuf : ℕ) (r : ℤ × ℕ) :
    (finishWrite k nbuf r : Op Text ℤ).Only Req.Plain := by
  unfold finishWrite
  split
  · trivial
  · split
    · refine Prog.only_bind (updateStat_plain _ _ _) (fun fresult => ?_)
      split <;> trivial
    · trivial

theorem fileWrite_follows (k : CString) (buf : Bytes) (offset : ℤ) :
    (fileProtocol p (.write k buf offset)).Follows .idle
      ((FileOp.write k buf offset).code : Op Text (ℤ × Bytes)) := by
  have hfin := @final_of_ne Text p (.write k buf offset) (fun _ h => by cases h)
  show (fileProtocol p (.write k buf offset)).Follows .idle
    (writeData k buf offset >>= fun r => .ret (r, []))
  by_cases hmax : toSizeT (offset + buf.length) ≤ maxFileLen
  · rw [writeData_eq hmax, bind_assoc]
    have hw : (FileOp.write k buf offset).IsWrite := trivial
    refine updateBlock_follows (.inl hw) (fun g r => plain_follows (hfin g) ?_) _
    exact Prog.only_bind (finishWrite_plain _ _ _) (fun _ => trivial)
  · unfold writeData
    rw [if_pos (Nat.lt_of_not_le hmax)]
    exact hfin _ _

theorem fileTruncate_follows (k : CString) (offset : ℤ) :
    (fileProtocol p (.truncate k offset)).Follows .idle
      ((FileOp.truncate k offset).code : Op Text (ℤ × Bytes)) := by
  have hfin := @final_of_ne Text p (.truncate k offset) (fun _ h => by cases h)
  have hrest : ∀ fresult : ℤ,
      ((if fresult ≠ 0 then .ret fresult else updateStatSize k (toSizeT offset))
        >>= fun r => .ret (r, []) : Op Text (ℤ × Bytes)).Only Req.Plain := by
    intro fresult
    refine Prog.only_bind ?_ (fun _ => trivial)
    split
    · trivial
    · exact updateStat_plain _ _ _
  show (fileProtocol p (.truncate k offset)).Follows .idle
    (truncateData k offset >>= fun r => .ret (r, []))
  unfold truncateData
  rw [bind_assoc]
  split
  · -- a truncation that removes the block is in no other phase after it
    unfold removeData askBlocks
    simp only [Prog.call_bind, Prog.ret_bind, Prog.pure_eq_ret]
    refine ⟨trivial, fun resp => ?_⟩
    have hop : FileOp.truncate k offset ≠ .unlink p := nofun
    rw [show (fileProtocol p (.truncate k offset)).next .idle (.blocks (.remove k)) resp = .idle
      from if_neg (fun h => hop h.2)]
    exact plain_follows (hfin _) (hrest _)
  · rw [map_eq_pure_bind, bind_assoc]
    exact updateBlock_follows (.inr rfl) (fun g r => plain_follows (hfin g) (hrest r.1)) _

theorem fileRead_follows (k : CString) (nbuf : ℕ) (offset : ℤ) :
    (fileProtocol p (.read k nbuf offset)).Follows .idle
      ((FileOp.read k nbuf offset).code : Op Text (ℤ × Bytes)) := by
  have hfin := @final_of_ne Text p (.read k nbuf offset) (fun _ h => by cases h)
  show (fileProtocol p (.read k nbuf offset)).Follows .idle (readData k nbuf offset)
  rw [readData_call]
  refine ⟨trivial, fun resp => plain_follows (hfin _) ?_⟩
  unfold readReply
  dsimp only
  split
  · trivial
  · split
    · trivial
    · exact Prog.only_bind ((load_only _ _ _).mono (fun _ h => h.plain))
        (fun bytes => Prog.only_bind (updateStat_plain _ _ _) (fun fresult => trivial))

/-- **Every call keeps to the protocol.** -/
theorem fileOp_follows (p : CString) (op : FileOp) :
    (fileProtocol p op).Follows .idle (op.code : Op Text (ℤ × Bytes)) := by
  cases op with
  | create k mode => exact create_follows k mode
  | unlink k => exact unlink_follows k
  | write k buf offset => exact fileWrite_follows k buf offset
  | truncate k offset => exact fileTruncate_follows k offset
  | read k nbuf offset => exact fileRead_follows k nbuf offset

end Follows

/-! ## What one request does to a file -/

section Serve

variable {p : CString} {c : Choice} {q : Req Text} {s : Store Text}

/-- An insertion that is granted finds no stat. -/
theorem stat_of_inserts (h : Inserts p q (serve c q s).1) : s.stats.val p = none := by
  cases q with
  | stats r =>
    cases r with
    | store o k v cas =>
      cases o with
      | insert =>
        obtain ⟨rfl, hrc, hst⟩ := h
        obtain ⟨-, hv⟩ := Kv.Collection.serve_of_granted hrc hst
        rw [Kv.Collection.val_eq_none]
        cases hd : s.stats.docs k with
        | none => rfl
        | some d => simp [Kv.Collection.serve, Kv.Collection.verdict, hd] at hv
      | _ => exact h.elim
    | _ => exact h.elim
  | _ => exact h.elim

/-- A fetch that is granted finds a block. -/
theorem block_of_findsBlock (h : FindsBlock p q (serve c q s).1) : s.blocks.val p ≠ none := by
  cases q with
  | blocks r =>
    cases r with
    | get k =>
      obtain ⟨rfl, hrc, hst⟩ := h
      obtain ⟨-, hv⟩ := Kv.Collection.serve_of_granted hrc hst
      intro hnone
      have hd := (Kv.Collection.val_eq_none _ _).mp hnone
      simp [Kv.Collection.serve, hd] at hv
    | _ => exact h.elim
  | _ => exact h.elim

/-- A block is there after a request if it was there before, or the request
stored it. -/
theorem block_of_serve (hc : c.Clean) (h : (serve c q s).2.blocks.val p ≠ none) :
    s.blocks.val p ≠ none ∨ (c.Served ∧ ∃ o v cas, q = .blocks (.store o p v cas)) := by
  refine or_iff_not_imp_left.mpr (fun hnone => ?_)
  rw [not_not] at hnone
  cases q with
  | blocks r =>
    have hs : c.Served := by
      by_contra hs
      rw [show (serve c (.blocks r) s).2.blocks = s.blocks from
        Kv.Collection.answer_of_not_served hc hs _ _] at h
      exact h hnone
    obtain he | ⟨o, k, v, cas, rfl, -, he⟩ | ⟨k, d, rfl, -, he⟩ :=
      Kv.Collection.answer_cases c.fate s.blocks r
    · simp only [serve, he] at h
      exact absurd hnone h
    · simp only [serve, he, Kv.Collection.val_put] at h
      by_cases hk : p = k
      · exact ⟨hs, o, v, cas, by rw [hk]⟩
      · rw [if_neg hk] at h
        exact absurd hnone h
    · simp only [serve, he, Kv.Collection.val_erase] at h
      split at h
      · exact absurd rfl h
      · exact absurd hnone h
  | _ => exact absurd hnone h

/-- A block that is there after a request, and was not before, was stored by
it. -/
theorem stores_of_serve (hc : c.Clean) (hold : s.blocks.val p = none)
    (h : (serve c q s).2.blocks.val p ≠ none) : Stores p q (serve c q s).1 := by
  obtain hsame | ⟨-, o, v, cas, rfl⟩ := block_of_serve hc h
  · exact absurd hold hsame
  · refine ⟨rfl, ?_⟩
    by_contra hgr
    have hsame : (serve c (.blocks (.store o p v cas)) s).2.blocks = s.blocks :=
      Kv.Collection.answer_of_not_granted hc hgr
    rw [hsame] at h
    exact h hold

/-- A removal of a block that is answered leaves none. -/
theorem block_of_removal (hc : c.Served) :
    (serve c (.blocks (.remove p)) s).2.blocks.val p = none := by
  show (s.blocks.answer c.fate (.remove p)).2.val p = none
  rw [hc.answer]
  cases hd : s.blocks.docs p with
  | none => simpa [Kv.Collection.serve, hd] using (Kv.Collection.val_eq_none _ _).mpr hd
  | some d => simp [Kv.Collection.serve, hd]

/-- A stat is there after a request if it was there before, unless the
request removed it. -/
theorem stat_of_serve (hc : c.Clean) (h : s.stats.val p ≠ none) :
    (serve c q s).2.stats.val p ≠ none ∨ (c.Served ∧ q = .stats (.remove p)) := by
  refine or_iff_not_imp_left.mpr (fun hnone => ?_)
  rw [not_not] at hnone
  cases q with
  | stats r =>
    have hs : c.Served := by
      by_contra hs
      rw [show (serve c (.stats r) s).2.stats = s.stats from
        Kv.Collection.answer_of_not_served hc hs _ _] at hnone
      exact h hnone
    obtain he | ⟨o, k, v, cas, rfl, -, he⟩ | ⟨k, d, rfl, -, he⟩ :=
      Kv.Collection.answer_cases c.fate s.stats r
    · simp only [serve, he] at hnone
      exact absurd hnone h
    · simp only [serve, he, Kv.Collection.val_put] at hnone
      split at hnone
      · cases hnone
      · exact absurd hnone h
    · simp only [serve, he, Kv.Collection.val_erase] at hnone
      by_cases hk : p = k
      · exact ⟨hs, by rw [hk]⟩
      · rw [if_neg hk] at hnone
        exact absurd hnone h
  | _ => exact absurd hnone h

end Serve

/-! ## Any number of clients -/

section Clients

variable [DecidableEq ι] {calls : ι → FileOp} {p : CString}

/-- **What the unlinks and the stores of a run keep to**, as its requests tell:
the removal of the block is answered in every unlink; a removal of the stat that
is answered comes with no block having been stored since the same call asked for
the removal of the block; and a store of the block that is answered finds the
stat, which has not been inserted since the same call fetched the block. -/
def KeepsTogether (calls : ι → FileOp) (p : CString)
    (tr : List (Pool.Event ι (Req Text) Req.Reply)) (s : Store Text) (i : ι) (c : Choice)
    (q : Req Text) : Prop :=
  match q with
  | .blocks (.remove k) => k = p → calls i = .unlink p → c.Served
  | .stats (.remove k) => k = p → c.Served → ∀ tr₁ e tr₂, tr = tr₁ ++ e :: tr₂ →
    e.who = i → e.req = .blocks (.remove p) → ∀ e' ∈ tr₂, ¬ Stores p e'.req e'.reply
  | .blocks (.store _ k _ _) => k = p → c.Served →
    s.stats.val p ≠ none
      ∧ ∀ l, AfterInsert p tr l → ∃ e ∈ l, e.who = i ∧ e.req = .blocks (.get p)
  | _ => True

/-- How far a call has got, by the trace. -/
abbrev filePhase (calls : ι → FileOp) (p : CString)
    (tr : List (Pool.Event ι (Req Text) Req.Reply)) (i : ι) : FilePhase :=
  (fileProtocol p (calls i)).phase i tr

/-- **What holds between any two requests**: a block is only there while its
stat is; after an unlink has asked for its removal it is only there if it has
been stored since; after an insertion of the stat it is only there if a write
has been issued since; and a call that has fetched the block since, and found
it, means that too. -/
structure Together (calls : ι → FileOp) (p : CString)
    (tr : List (Pool.Event ι (Req Text) Req.Reply)) (s : Store Text) : Prop where
  /-- A block has a stat. -/
  stat : s.blocks.val p ≠ none → s.stats.val p ≠ none
  /-- A block that an unlink asked to remove was stored since. -/
  cleared : ∀ i, filePhase calls p tr i = .cleared →
    ∃ tr₁ e tr₂, tr = tr₁ ++ e :: tr₂ ∧ e.who = i ∧ e.req = .blocks (.remove p)
      ∧ (s.blocks.val p ≠ none → ∃ e' ∈ tr₂, Stores p e'.req e'.reply)
  /-- A block of a new file comes from a write to it. -/
  issued : ∀ l, AfterInsert p tr l → s.blocks.val p ≠ none → ∃ e ∈ l, Issues calls p e
  /-- A block that a call has found since comes from one, too. -/
  found : ∀ l, AfterInsert p tr l → ∀ i, filePhase calls p tr i = .found →
    (∃ e ∈ l, e.who = i ∧ e.req = .blocks (.get p)) → ∃ e ∈ l, Issues calls p e

section Request

variable {tr : List (Pool.Event ι (Req Text) Req.Reply)} {s : Store Text} {i : ι} {q : Req Text}
  {c : Choice}

/-- A request keeps the stat of a block. -/
theorem Together.step_stat (hc : c.Clean) (hkeeps : KeepsTogether calls p tr s i c q)
    (hallow : (fileProtocol p (calls i)).allow (filePhase calls p tr i) q)
    (h : Together calls p tr s) (hb : (serve c q s).2.blocks.val p ≠ none) :
    (serve c q s).2.stats.val p ≠ none := by
  have hstat : s.stats.val p ≠ none := by
    obtain hold | ⟨hs, o, v, cas, rfl⟩ := block_of_serve hc hb
    · exact h.stat hold
    · exact (hkeeps rfl hs).1
  obtain hkept | ⟨hs, rfl⟩ := stat_of_serve (q := q) hc hstat
  · exact hkept
  · -- an unlink removes the stat: it asked for the block before, and none was stored since
    have hold := (block_of_serve hc hb).resolve_right (fun hq => by
      obtain ⟨-, o, v, cas, hq⟩ := hq
      cases hq)
    obtain ⟨tr₁, e, tr₂, htr, hwho, hreq, hstored⟩ := h.cleared i (hallow rfl).2
    obtain ⟨e', he', hst⟩ := hstored hold
    exact absurd hst (hkeeps rfl hs tr₁ e tr₂ htr hwho hreq e' he')

/-- A request keeps what is known of an unlink that asked for the removal of the
block. -/
theorem Together.step_cleared (hc : c.Clean) (hkeeps : KeepsTogether calls p tr s i c q)
    (h : Together calls p tr s) (j : ι)
    (hj : filePhase calls p (tr ++ [⟨i, q, (serve c q s).1⟩]) j = .cleared) :
    ∃ tr₁ e tr₂, tr ++ [⟨i, q, (serve c q s).1⟩] = tr₁ ++ e :: tr₂ ∧ e.who = j
      ∧ e.req = .blocks (.remove p)
      ∧ ((serve c q s).2.blocks.val p ≠ none → ∃ e' ∈ tr₂, Stores p e'.req e'.reply) := by
  have hold : filePhase calls p tr j = .cleared →
      ∃ tr₁ e tr₂, tr ++ [⟨i, q, (serve c q s).1⟩] = tr₁ ++ e :: tr₂ ∧ e.who = j
        ∧ e.req = .blocks (.remove p)
        ∧ ((serve c q s).2.blocks.val p ≠ none → ∃ e' ∈ tr₂, Stores p e'.req e'.reply) := by
    intro hj
    obtain ⟨tr₁, e, tr₂, rfl, hwho, hreq, hstored⟩ := h.cleared j hj
    refine ⟨tr₁, e, tr₂ ++ [⟨i, q, (serve c q s).1⟩], by simp, hwho, hreq, fun hb => ?_⟩
    by_cases hbefore : s.blocks.val p = none
    · -- this request stored it
      exact ⟨_, List.mem_append_right _ (List.mem_singleton.mpr rfl),
        stores_of_serve hc hbefore hb⟩
    · obtain ⟨e', he', hst⟩ := hstored hbefore
      exact ⟨e', List.mem_append_left _ he', hst⟩
  unfold filePhase at hj
  rw [Protocol.phase_append] at hj
  split at hj
  · next hij =>
    obtain ⟨hq, hop⟩ | hg := next_eq_cleared hj
    · obtain rfl : q = .blocks (.remove p) := hq
      obtain rfl : i = j := hij
      exact ⟨tr, _, [], rfl, rfl, rfl, fun hb => absurd (block_of_removal (hkeeps rfl hop)) hb⟩
    · obtain rfl : i = j := hij
      exact hold hg
  · exact hold hj

/-- A store of the block comes after a write that was issued after every
insertion. -/
theorem Together.issued_of_store {o : Kv.StoreOp} {v : Bytes} {cas : ℕ} (hs : c.Served)
    (hq : q = .blocks (.store o p v cas)) (hkeeps : KeepsTogether calls p tr s i c q)
    (hallow : (fileProtocol p (calls i)).allow (filePhase calls p tr i) q)
    (h : Together calls p tr s) {l : List (Pool.Event ι (Req Text) Req.Reply)}
    (hl : AfterInsert p tr l) : ∃ e ∈ l, Issues calls p e := by
  subst hq
  obtain ⟨e, he, hi, hreq⟩ := (hkeeps rfl hs).2 l hl
  rcases hallow rfl with hw | hf
  · exact ⟨e, he, hi ▸ hw, hreq⟩
  · exact h.found l hl i hf ⟨e, he, hi, hreq⟩

/-- After a request, a block of a new file comes from a write to it. -/
theorem Together.step_issued (hc : c.Clean) (hkeeps : KeepsTogether calls p tr s i c q)
    (hallow : (fileProtocol p (calls i)).allow (filePhase calls p tr i) q)
    (h : Together calls p tr s) {l : List (Pool.Event ι (Req Text) Req.Reply)}
    (hl : AfterInsert p (tr ++ [⟨i, q, (serve c q s).1⟩]) l)
    (hb : (serve c q s).2.blocks.val p ≠ none) : ∃ e ∈ l, Issues calls p e := by
  obtain ⟨rfl, hins⟩ | ⟨l', rfl, hl'⟩ := afterInsert_append hl
  · -- the stat was not there, so neither was a block
    obtain hold | ⟨-, o, v, cas, rfl⟩ := block_of_serve hc hb
    · exact absurd (stat_of_inserts hins) (h.stat hold)
    · exact hins.elim
  · have hmem : ∃ e ∈ l', Issues calls p e := by
      obtain hold | ⟨hs, o, v, cas, hq⟩ := block_of_serve hc hb
      · exact h.issued l' hl' hold
      · exact h.issued_of_store hs hq hkeeps hallow hl'
    obtain ⟨e, he, hiss⟩ := hmem
    exact ⟨e, List.mem_append_left _ he, hiss⟩

/-- A block that a call has found since the insertion comes from a write, after
every step. -/
theorem Together.step_found (h : Together calls p tr s)
    {l : List (Pool.Event ι (Req Text) Req.Reply)}
    (hl : AfterInsert p (tr ++ [⟨i, q, (serve c q s).1⟩]) l) {j : ι}
    (hj : filePhase calls p (tr ++ [⟨i, q, (serve c q s).1⟩]) j = .found)
    (hget : ∃ e ∈ l, e.who = j ∧ e.req = .blocks (.get p)) : ∃ e ∈ l, Issues calls p e := by
  obtain ⟨e, he, hej, hreq⟩ := hget
  obtain ⟨rfl, -⟩ | ⟨l', rfl, hl'⟩ := afterInsert_append hl
  · exact absurd he List.not_mem_nil
  · have hmem : ∃ e ∈ l', Issues calls p e := by
      unfold filePhase at hj
      rw [Protocol.phase_append] at hj
      -- the fetch is an old one, unless this request is it
      have hold : ⟨i, q, (serve c q s).1⟩ ≠ e → e ∈ l' := fun hne =>
        (List.mem_append.mp he).resolve_right (fun hnew => hne (List.mem_singleton.mp hnew).symm)
      by_cases hji : i = j
      · subst hji
        rw [if_pos rfl] at hj
        obtain hfind | ⟨hf, hne⟩ := next_eq_found hj
        · exact h.issued l' hl' (block_of_findsBlock hfind)
        · exact h.found l' hl' i hf ⟨e, hold (fun heq => hne (heq ▸ hreq)), hej, hreq⟩
      · rw [if_neg hji] at hj
        exact h.found l' hl' j hj ⟨e, hold (fun heq => hji (by rw [← hej, ← heq])), hej, hreq⟩
    obtain ⟨e, he, hiss⟩ := hmem
    exact ⟨e, List.mem_append_left _ he, hiss⟩

/-- **One request.** -/
theorem Together.step (hc : c.Clean) (hkeeps : KeepsTogether calls p tr s i c q)
    (hallow : (fileProtocol p (calls i)).allow (filePhase calls p tr i) q)
    (h : Together calls p tr s) :
    Together calls p (tr ++ [⟨i, q, (serve c q s).1⟩]) (serve c q s).2 where
  stat := h.step_stat hc hkeeps hallow
  cleared := h.step_cleared hc hkeeps
  issued _ hl := h.step_issued hc hkeeps hallow hl
  found _ hl _ hj := h.step_found hl hj

end Request

/-- A call that has inserted the stat has done so somewhere in the
trace. -/
theorem exists_inserts {i : ι} {tr : List (Pool.Event ι (Req Text) Req.Reply)}
    (h : filePhase calls p tr i = .inserted) :
    ∃ tr₁ e tr₂, tr = tr₁ ++ e :: tr₂ ∧ e.who = i ∧ Inserts p e.req e.reply := by
  induction tr using List.reverseRecOn with
  | nil => cases h
  | append_singleton tr e ih =>
    have hold : filePhase calls p tr i = .inserted →
        ∃ tr₁ e₁ tr₂, tr ++ [e] = tr₁ ++ e₁ :: tr₂ ∧ e₁.who = i ∧ Inserts p e₁.req e₁.reply := by
      intro hi
      obtain ⟨tr₁, e₁, tr₂, rfl, he₁⟩ := ih hi
      exact ⟨tr₁, e₁, tr₂ ++ [e], by simp, he₁⟩
    unfold filePhase at h
    rw [Protocol.phase_append] at h
    split at h
    · next hi =>
      obtain hins | hg := next_eq_inserted h
      · exact ⟨tr, e, [], rfl, hi, hins⟩
      · exact hold hg
    · exact hold h

variable [CJson Text]

/-- A creation that has returned zero has inserted the stat, whatever else
happened. -/
theorem inserts_of_create {i : ι} {mode : ℕ} (hcreate : calls i = .create p mode)
    {s : Store Text} (sched : List (ι × Choice)) {bytes : Bytes}
    (hret : (Pool.run serve sched (Pool.start (fun i => (calls i).code) s)).returned i
      = some (0, bytes)) :
    ∃ tr₁ e tr₂, (Pool.run serve sched (Pool.start (fun i => (calls i).code) s)).trace
        = tr₁ ++ e :: tr₂ ∧ e.who = i ∧ Inserts p e.req e.reply := by
  have hcode : (Pool.start (fun i => ((calls i).code : Op Text _)) s).Conforms
      (fun i => fileProtocol p (calls i)) := fun i => fileOp_follows p (calls i)
  have hi := hcode.run serve sched i
  rw [Pool.Config.returned_eq_some.mp hret] at hi
  exact exists_inserts (hi mode hcreate rfl)

/-- **A new file has no block.** Any number of calls on files, interleaved
in any way, with any request failing as long as it then has no effect, from
a store in which a block has its stat. In every run in which the unlinks of the
file get their answer for the block, with no store of it before they remove the
stat, and the stores of the block find the file it was fetched for
(`KeepsTogether`), at any moment after a creation has returned zero: it
inserted the stat, and if no write to the file has been issued since, the
file has no block. -/
theorem newFile_of_run {s : Store Text} (hs : s.blocks.val p ≠ none → s.stats.val p ≠ none)
    {sched : List (ι × Choice)} (hA : ∀ ic ∈ sched, ic.2.Clean)
    (hkeeps : Pool.Meets serve (KeepsTogether calls p) sched
      (Pool.start (fun i => (calls i).code) s)) {i : ι} {mode : ℕ}
    (hcreate : calls i = .create p mode) {bytes : Bytes}
    (hret : (Pool.run serve sched (Pool.start (fun i => (calls i).code) s)).returned i
      = some (0, bytes)) :
    let x := Pool.run serve sched (Pool.start (fun i => (calls i).code) s)
    ∃ tr₁ e tr₂, x.trace = tr₁ ++ e :: tr₂ ∧ e.who = i ∧ Inserts p e.req e.reply
      ∧ ((∀ e' ∈ tr₂, ¬ Issues calls p e') → x.store.blocks.val p = none) := by
  intro x
  have hstart : Together calls p ([] : List (Pool.Event ι (Req Text) Req.Reply)) s :=
    ⟨hs, nofun, fun l hl => absurd hl not_afterInsert_nil,
      fun l hl => absurd hl not_afterInsert_nil⟩
  have hcode : (Pool.start (fun i => ((calls i).code : Op Text _)) s).Conforms
      (fun i => fileProtocol p (calls i)) := fun i => fileOp_follows p (calls i)
  have hstep : ∀ tr (s : Store Text) i q (c : Choice), c.Clean → KeepsTogether calls p tr s i c q →
      (fileProtocol p (calls i)).allow (filePhase calls p tr i) q → Together calls p tr s →
      Together calls p (tr ++ [⟨i, q, (serve c q s).1⟩]) (serve c q s).2 :=
    fun tr s i q c hc hk ha h => h.step hc hk ha
  obtain ⟨-, hinv⟩ := Pool.run_invariant hstep hA hkeeps hcode hstart
  obtain ⟨tr₁, e, tr₂, htr, he, hins⟩ := inserts_of_create hcreate sched hret
  refine ⟨tr₁, e, tr₂, htr, he, hins, fun hno => ?_⟩
  by_contra hb
  obtain ⟨e', he', hiss⟩ := hinv.issued tr₂ ⟨tr₁, e, htr, hins⟩ hb
  exact hno e' he' hiss

end Clients

/-- A file of one byte in the root directory. -/
def oneByte : Store (Option Json) :=
  ((Store.empty.putDentry ['/'] (some (createDentry ['/'] none [['f']]))).putStat ['/', 'f']
    (rootStat (sIfreg ||| 0o644) ⟨0, 0⟩)).putBlock ['/', 'f'] [1]

/-- The file is removed, and made anew. -/
def removeAndMake : Bool → FileOp
  | false => .unlink ['/', 'f']
  | true => .create ['/', 'f'] (sIfreg ||| 0o644)

/-- Nothing fails: the unlink removes the block, and the new file has
none. -/
theorem newFile_of_run_good :
    let g := Choice.good ⟨0, 0⟩
    let x := Pool.run serve (Pool.turns g [false, false, false, false, true, true, true, true])
      (Pool.start (fun i => (removeAndMake i).code) oneByte)
    ∃ tr₁ e tr₂, x.trace = tr₁ ++ e :: tr₂ ∧ e.who = true ∧ Inserts ['/', 'f'] e.req e.reply
      ∧ ((∀ e' ∈ tr₂, ¬ Issues removeAndMake ['/', 'f'] e')
        → x.store.blocks.val ['/', 'f'] = none) := by
  intro g x
  refine @newFile_of_run _ _ _ removeAndMake ['/', 'f'] _ oneByte (fun _ => by decide) _
    (Pool.forall_turns (Choice.faultFree_good _).clean _) ?_ true _ rfl [] (by decide +kernel)
  refine ⟨fun q k hq => ?_, fun q k hq => ?_, fun q k hq => ?_, fun q k hq => ?_,
    fun q k hq => ?_, fun q k hq => ?_, fun q k hq => ?_, fun q k hq => ?_, trivial⟩ <;> cases hq
  · exact fun _ _ => rfl
  · trivial
  · trivial
  · -- nothing was stored at all
    intro _ _ tr₁ e tr₂ htr _ _ e' he'
    have hno : ∀ e' ∈ tr₁ ++ e :: tr₂, ¬ Stores ['/', 'f'] e'.req e'.reply := by
      rw [← htr]
      decide
    exact hno e' (List.mem_append_right _ (List.mem_cons_of_mem _ he'))
  · trivial
  · trivial
  · trivial
  · trivial

/-- The removal of the block times out and the unlink goes on: the new file
has the byte of the old one. -/
theorem newFile_stale :
    let g := Choice.good ⟨0, 0⟩
    let x := Pool.run serve ((false, { g with fate := .refused .timeout })
      :: Pool.turns g [false, false, false, true, true, true, true])
      (Pool.start (fun i => (removeAndMake i).code) oneByte)
    x.returned true = some (0, [])
      ∧ (∃ tr₁ e tr₂, x.trace = tr₁ ++ e :: tr₂ ∧ e.who = true ∧ Inserts ['/', 'f'] e.req e.reply
        ∧ ∀ e' ∈ tr₂, ¬ Issues removeAndMake ['/', 'f'] e')
      ∧ x.store.blocks.val ['/', 'f'] = some [1] := by
  intro g x
  have hno : ∀ e, ¬ @Issues (Option Json) _ removeAndMake ['/', 'f'] e := by
    rintro ⟨who, q, r⟩ ⟨hw, -⟩
    cases who <;> exact hw
  have hret : x.returned true = some (0, []) := by decide +kernel
  refine ⟨hret, ?_, by decide +kernel⟩
  obtain ⟨tr₁, e, tr₂, htr, he, hins⟩ :=
    @inserts_of_create _ _ _ removeAndMake _ _ true _ rfl _ _ _ hret
  exact ⟨tr₁, e, tr₂, htr, he, hins, fun e' _ => hno e'⟩

end Cbfuse
