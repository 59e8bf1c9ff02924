import Cbfuse.Origins
import Cbfuse.Progress

/-!
# Every call comes to its end

There is no loop around a request anywhere, and no retry: a call that loses a
race, or whose request fails, gives up. So no client can keep another from its
end. Within a handful of requests, known from the arguments (`Call.turns`), a
call has returned – in every interleaving and whatever becomes of the requests,
if there is memory for what it fetches and where it reads past it, and its range
is one that FUSE asks for (`every_call_returns`).
-/

namespace Cbfuse

open CString (rootDirString)

variable {Text β ι : Type}

/-! ## How many requests a call makes -/

/-- The most requests a call on an entry makes. -/
def EntryOp.turns : EntryOp → ℕ
  | write _ _ _ => 6
  | truncate _ _ => 6
  | read _ _ _ => 4
  | chmod _ _ => 2
  | utimens _ tv => if utimensNeedsClock tv then 3 else 2

/-- The most requests a call on the tree makes. -/
def TreeOp.turns : TreeOp → ℕ
  | create _ _ => 4
  | mkdir _ _ => 5
  | unlink _ => 4
  | rmdir _ => 4

/-- A call in range. -/
def Call.InRange : Call β → Prop
  | fuse (.fs (.entry op)) => op.InRange
  | _ => True

/-- **The most requests a call makes.** -/
def Call.turns : Call β → ℕ
  | startUp _ => 4
  | fuse (.fs (.tree op)) => op.turns
  | fuse (.fs (.entry op)) => op.turns
  | fuse _ => 1

/-! ## The calls on the tree -/

section Tree

variable {bad : (q : Req Text) → q.Reply → Prop}

/-- A program that returns whatever is replied to its one request. -/
theorem completes_one {α : Type} {q : Req Text} {f : q.Reply → α} :
    (Prog.call q (fun r => .ret (f r)) : Op Text α).Completes bad 1 :=
  Prog.completes_call (fun _ _ => Prog.completes_ret _)

/-- An insertion of a stat reads the clock and makes one request. -/
theorem insertStat_completes (p : CString) (mode : ℕ) :
    (insertStat p mode : Op Text ℤ).Completes bad 2 := by
  rw [insertStat_eq]
  refine Prog.completes_call (fun now _ => ?_)
  cases now with
  | none => trivial
  | some ts => exact completes_one

/-- A first part that fails is the end. -/
theorem completes_orElse {prog rest : Op Text ℤ} {n m : ℕ} (h : prog.Completes bad n)
    (hrest : rest.Completes bad m) :
    (prog >>= fun fresult => if fresult ≠ 0 then .ret fresult else rest).Completes bad
      (n + m) := by
  refine Prog.completes_bind h (fun fresult => ?_)
  split
  · trivial
  · exact hrest

/-- An edit of a directory document is a fetch and a store. -/
theorem editDentry_completes [CJson Text] (k : CString) (edit : List Json → List Json) :
    (editDentry k edit : Op Text ℤ).Completes bad 2 := by
  rw [editDentry_eq]
  refine Prog.completes_call (fun resp _ => ?_)
  cases editReply edit resp with
  | error e => trivial
  | ok t => exact completes_one

/-- **A call on the tree** works on no bytes, and needs nothing of its replies
to come to its end. -/
theorem treeOp_completes [CJson Text] (op : TreeOp) :
    (op.code : Op Text ℤ).Completes bad op.turns := by
  cases op with
  | create p mode =>
    show (cbfuseCreate p mode : Op Text ℤ).Completes bad 4
    unfold cbfuseCreate
    split
    · trivial
    · split
      · trivial
      · exact completes_orElse (insertStat_completes p mode) (editDentry_completes _ _)
  | mkdir p mode =>
    show (cbfuseMkdir p mode : Op Text ℤ).Completes bad 5
    unfold cbfuseMkdir
    rw [if_neg (or_sIfdir_ne_zero mode)]
    exact completes_orElse (n := 2) (insertStat_completes p mode)
      (completes_orElse (n := 1) completes_one (editDentry_completes _ _))
  | unlink p =>
    exact Prog.completes_bind (n := 1) completes_one (fun _ =>
      Prog.completes_bind (n := 2) (editDentry_completes _ _) (fun _ => completes_one))
  | rmdir p =>
    exact Prog.completes_bind (n := 1) completes_one (fun _ =>
      Prog.completes_bind (n := 2) (editDentry_completes _ _) (fun _ => completes_one))

end Tree

/-! ## The parts -/

/-- **There is nothing to go on with**: an allocation fails, a fetch that is
granted comes without a copy of the document, or there is no memory behind a
buffer that is read past its end. -/
def Req.NoCopy : (q : Req Text) → q.Reply → Prop
  | .stats (.get _), resp =>
    resp.rc = none ∧ resp.status = none ∧ (resp.doc = none ∨ resp.alloc = false)
  | .blocks (.get _), resp =>
    resp.rc = none ∧ resp.status = none ∧ (resp.doc = none ∨ resp.alloc = false)
  | .malloc _, dest => dest = none
  | .overread _, past => past = none
  | _, _ => False

/-- **There is memory**: for what is allocated, and behind every buffer. -/
def Choice.HasMemory (c : Choice) : Prop := c.alloc = true ∧ c.mapped = true

instance : DecidablePred Choice.HasMemory := fun _ => inferInstanceAs (Decidable (_ ∧ _))

/-- A server that is up hands out what it has, and memory is there to be had. -/
theorem not_noCopy {c : Choice} (hc : c.HasMemory) (q : Req Text) (s : Store Text) :
    ¬ q.NoCopy (serve c q s).1 := by
  cases q with
  | stats r =>
    cases r with
    | get k =>
      rintro ⟨hrc, hst, hdoc | halloc⟩
      · exact Kv.Collection.doc_of_granted_get hrc hst hdoc
      · exact absurd (hc.1.symm.trans halloc) (by decide)
    | _ => exact id
  | blocks r =>
    cases r with
    | get k =>
      rintro ⟨hrc, hst, hdoc | halloc⟩
      · exact Kv.Collection.doc_of_granted_get hrc hst hdoc
      · exact absurd (hc.1.symm.trans halloc) (by decide)
    | _ => exact id
  | malloc n =>
    intro h
    have hsome : (serve c (.malloc n) s).1 = some (c.buf n) := if_pos hc.1
    cases hsome.symm.trans h
  | overread n =>
    intro h
    have hsome : (serve c (.overread n) s).1 = some (c.buf n) := if_pos hc.2
    cases hsome.symm.trans h
  | _ => exact id

/-- **Within `n` requests the program returns**, as long as there is something to
go on with. -/
def Op.CompletesIn {α : Type} (prog : Op Text α) (n : ℕ) : Prop := prog.Completes Req.NoCopy n

section Parts

variable {p : CString}

/-- A stat that is fetched is there. -/
theorem statReply_of_copied {resp : Response StatDoc}
    (h : ¬ (Req.stats (.get p) : Req Text).NoCopy resp) : ∃ r, statReply resp = some r := by
  obtain ⟨⟨rc, status, doc⟩, alloc⟩ := resp
  cases rc with
  | some e => exact ⟨_, rfl⟩
  | none =>
    cases status with
    | some e => exact ⟨_, rfl⟩
    | none =>
      cases doc with
      | none => exact absurd ⟨rfl, rfl, .inl rfl⟩ h
      | some d =>
        cases alloc with
        | false => exact absurd ⟨rfl, rfl, .inr rfl⟩ h
        | true =>
          obtain ⟨v, cas⟩ := d
          cases v with
          | packed stat => exact ⟨_, rfl⟩
          | malformed n hn => exact ⟨_, rfl⟩

/-- A block that is fetched is there. -/
theorem block_of_copied {resp : Response Bytes}
    (h : ¬ (Req.blocks (.get p) : Req Text).NoCopy resp) (hrc : resp.rc = none)
    (hst : resp.status = none) :
    ∃ b, (syncGetCallback List.length resp).value = some b
      ∧ (syncGetCallback List.length resp).nvalue = b.length := by
  obtain ⟨⟨rc, status, doc⟩, alloc⟩ := resp
  obtain rfl : rc = none := hrc
  obtain rfl : status = none := hst
  cases doc with
  | none => exact absurd ⟨rfl, rfl, .inl rfl⟩ h
  | some d =>
    cases alloc with
    | false => exact absurd ⟨rfl, rfl, .inr rfl⟩ h
    | true => exact ⟨d.value, rfl, rfl⟩

/-- A fetch of a stat returns where there is a copy of it. -/
theorem getStat_completes (p : CString) : (getStat p : Op Text _).CompletesIn 1 := by
  rw [getStat_eq]
  refine Prog.completes_call (fun resp hresp => ?_)
  obtain ⟨r, hr⟩ := @statReply_of_copied Text p resp hresp
  rw [hr]
  trivial

/-- The end of an update is a store, after the clock where it is read. -/
theorem replaceStat_completes (clock : Bool) (change : Timespec → CbfuseStat → CbfuseStat)
    (stat : CbfuseStat) (cas : ℕ) :
    (replaceStat p clock change stat cas : Op Text ℤ).CompletesIn (if clock then 2 else 1) := by
  unfold replaceStat
  cases clock with
  | false => exact completes_one
  | true =>
    refine Prog.completes_call (fun now _ => ?_)
    cases now with
    | none => trivial
    | some ts => exact completes_one

/-- An update of a stat is a fetch and its end. -/
theorem updateStat_completes (p : CString) (clock : Bool)
    (change : Timespec → CbfuseStat → CbfuseStat) :
    (updateStat p clock change : Op Text ℤ).CompletesIn (if clock then 3 else 2) := by
  have hsum : (if clock then 3 else 2) = (if clock then 2 else 1) + 1 := by
    cases clock <;> rfl
  rw [updateStat_eq, hsum]
  refine Prog.completes_call (fun resp hresp => ?_)
  obtain ⟨r, hr⟩ := @statReply_of_copied Text p resp hresp
  rw [hr]
  cases r with
  | error e => trivial
  | ok r => exact replaceStat_completes _ _ _ _

/-- The store of a block may have to look past the end of a buffer first. -/
theorem storeBlock_completes (b : Bytes) (n : ℕ) :
    (storeBlock p (some b) n : Op Text ℤ).CompletesIn 2 := by
  by_cases hle : n ≤ b.length
  · rw [storeBlock_le p hle]
    exact completes_one.mono (by decide)
  · rw [storeBlock_past p (Nat.lt_of_not_le hle)]
    refine Prog.completes_call (fun past hpast => ?_)
    cases past with
    | none => exact absurd rfl hpast
    | some past => exact completes_one

/-- The end of a write, where the block grew. -/
theorem finishWrite_completes (nbuf : ℕ) (r : ℤ × ℕ) :
    (finishWrite p nbuf r : Op Text ℤ).CompletesIn 3 := by
  unfold finishWrite
  split
  · trivial
  · split
    · refine Prog.completes_bind (m := 0) (updateStat_completes _ _ _) (fun fresult => ?_)
      split <;> trivial
    · trivial

/-- A write to a block there is a copy of may have to ask for a longer buffer,
and stores one. -/
theorem modifyBlock_completes {data b : Bytes} {offset : ℤ} {n₀ : ℕ} (hd : data ≠ [])
    (h0 : 0 ≤ offset) :
    (modifyBlock p (some data) offset (offset.toNat + data.length) (some b) b.length n₀
      : Op Text _).CompletesIn 2 := by
  rw [modifyBlock_write rfl hd h0]
  split
  · refine Prog.completes_call (fun dest hdest => ?_)
    cases dest with
    | none => exact absurd rfl hdest
    | some fresh => exact completes_one
  · exact completes_one.mono (by decide)

/-- An update that cuts a block, or leaves it. -/
theorem updateBlock_completes {offset : ℤ} (h0 : 0 ≤ offset) (hoff : offset < 2 ^ 63) :
    (updateBlock p none offset : Op Text _).CompletesIn 3 := by
  by_cases hmax : offset ≤ maxFileLen
  · rw [updateBlock_truncate h0 hmax]
    refine Prog.completes_call (fun resp hresp => ?_)
    unfold updateTruncate
    split
    · trivial
    · next hrc =>
      split
      · trivial
      · next hst =>
        obtain ⟨b, hb, -⟩ := @block_of_copied Text p resp hresp (not_not.mp hrc) (not_not.mp hst)
        rw [hb]
        exact Prog.completes_bind (m := 0) (storeBlock_completes b _) (fun _ => trivial)
  · have hsize := toSizeT_of_lt h0 (show offset < 2 ^ 64 by omega)
    unfold updateBlock
    simp only [Option.getD_none, List.length_nil, Int.ofNat_zero, Int.add_zero]
    rw [if_pos (by omega)]
    trivial

/-- A write updates the block, with two requests after its fetch, and then the
stat. -/
theorem writeData_completes {data : Bytes} {offset : ℤ} (h0 : 0 ≤ offset) (hoff : offset < 2 ^ 63)
    (hrep : offset + data.length < 2 ^ 64) :
    (writeData p data offset : Op Text ℤ).CompletesIn 6 := by
  by_cases hmax : offset + data.length ≤ maxFileLen
  · rw [writeData_eq (by rw [toSizeT_range h0 hmax]; omega)]
    refine Prog.completes_bind (n := 3) ?_ (fun r => finishWrite_completes _ r)
    by_cases hd : data = []
    · subst hd
      rw [updateBlock_nil]
      exact updateBlock_completes h0 hoff
    · rw [updateBlock_write hd h0 hmax]
      refine Prog.completes_call (fun resp hresp => ?_)
      unfold updateWrite
      dsimp only
      split
      · trivial
      · next hrc =>
        split
        · refine Prog.completes_call (fun dest _ => ?_)
          cases dest with
          | none => trivial
          | some fresh => exact completes_one
        · next hst =>
          obtain ⟨b, hb, hn⟩ :=
            @block_of_copied Text p resp hresp (not_not.mp hrc) (not_not.mp hst)
          rw [hb, hn]
          exact modifyBlock_completes hd h0
  · rw [writeData_refused hrep (Int.not_le.mp hmax)]
    trivial

/-- A read fetches the block and updates the stat, and a trimmed range needs no
more. -/
theorem readData_completes {nbuf : ℕ} {offset : ℤ} (h0 : 0 ≤ offset)
    (hrep : offset + nbuf < 2 ^ 64) : (readData p nbuf offset : Op Text _).CompletesIn 4 := by
  rw [readData_call]
  refine Prog.completes_call (fun resp hresp => ?_)
  unfold readReply blockReply
  dsimp only
  split
  · trivial
  · next hcode =>
    obtain ⟨hrc, hst⟩ := (checkResult_eq_zero (by decide) resp).mp (not_not.mp hcode)
    obtain ⟨b, hb, hn⟩ := @block_of_copied Text p resp hresp hrc hst
    split
    · trivial
    · next hend =>
      have hle := trimmed_le h0 hrep (Int.not_le.mp hend)
      rw [hn] at hle
      rw [hb, hn, load_of_le h0 (by omega), Prog.ret_bind]
      exact Prog.completes_bind (m := 0) (updateStat_completes _ _ _) (fun _ => trivial)

/-- A truncation updates the block or removes it, and then updates the stat. -/
theorem truncateData_completes {offset : ℤ} (h0 : 0 ≤ offset) (hoff : offset < 2 ^ 63) :
    (truncateData p offset : Op Text ℤ).CompletesIn 6 := by
  unfold truncateData
  refine Prog.completes_bind (n := 3) (m := 3) ?_ (fun fresult => ?_)
  · split
    · exact completes_one.mono (by decide)
    · exact Prog.completes_map _ (updateBlock_completes h0 hoff)
  · split
    · trivial
    · exact updateStat_completes _ _ _

/-- A lookup of attributes is one fetch, or none where the path is too long. -/
theorem cbfuseGetattr_completes (fc : FuseContext) (p : CString) :
    (cbfuseGetattr fc p : Op Text _).CompletesIn 1 := by
  by_cases hlen : p.length > maxPathLen
  · unfold cbfuseGetattr
    rw [if_pos hlen]
    trivial
  · rw [cbfuseGetattr_eq fc hlen]
    refine Prog.completes_call (fun resp hresp => ?_)
    obtain ⟨r, hr⟩ := @statReply_of_copied Text p resp hresp
    rw [hr]
    cases r with
    | error e => trivial
    | ok r => trivial

/-- An open is one fetch, or none where the path is too long. -/
theorem cbfuseOpen_completes (p : CString) : (cbfuseOpen p : Op Text ℤ).CompletesIn 1 := by
  unfold cbfuseOpen
  split
  · trivial
  · refine Prog.completes_bind (m := 0) (getStat_completes p) (fun r => ?_)
    cases r with
    | error e => trivial
    | ok r => trivial

end Parts

/-! ## The calls -/

section Calls

variable [CJson Text]

/-- A listing is one fetch, however many names there are. -/
theorem cbfuseReaddir_completes (p : CString) (filler : β → CString → ℕ → ℤ × β) (offset : ℤ)
    (buf : β) : (cbfuseReaddir p filler offset buf : Op Text _).CompletesIn 1 := by
  rw [cbfuseReaddir_eq]
  refine Prog.completes_call (fun resp _ => ?_)
  cases dentryReply resp with
  | error e => trivial
  | ok dentry =>
    dsimp only
    split <;> trivial

/-- **A call on an entry** returns within its turns where its range is one FUSE
asks for. -/
theorem entryOp_completes {op : EntryOp} (h : op.InRange) :
    ((FuseOp.fs (.entry op) : FuseOp β).full : Op Text _).CompletesIn op.turns := by
  cases op with
  | write p buf offset => exact Prog.completes_map _ (writeData_completes h.1 h.2.1 h.2.2)
  | truncate p offset => exact Prog.completes_map _ (truncateData_completes h.1 h.2)
  | read p nbuf offset => exact Prog.completes_map _ (readData_completes h.1 h.2.2)
  | chmod p mode => exact Prog.completes_map _ (updateStat_completes p false _)
  | utimens p tv => exact Prog.completes_map _ (updateStat_completes p _ _)

/-- The check of the root is a fetch, and where there is none the insertion of
two documents. -/
theorem rootCheck_completes (fc : FuseContext) : (rootCheck fc : Op Text Bool).CompletesIn 4 := by
  refine Prog.completes_bind (n := 1) (m := 3) (cbfuseGetattr_completes fc _) (fun r => ?_)
  cases r with
  | ok rootStat => trivial
  | error e =>
    dsimp only
    split
    · exact Prog.completes_bind (n := 3) (m := 0)
        (completes_orElse (n := 2) (m := 1) (insertStat_completes _ _) completes_one)
        (fun _ => trivial)
    · trivial

/-- **Every call makes a bounded number of requests.** -/
theorem call_completes {call : Call β} (h : call.InRange) :
    (call.code : Op Text _).CompletesIn call.turns := by
  cases call with
  | startUp fc => exact Prog.completes_map _ (rootCheck_completes fc)
  | fuse op =>
    cases op with
    | getattr fc p => exact Prog.completes_map _ (cbfuseGetattr_completes fc p)
    | openFile p => exact Prog.completes_map _ (cbfuseOpen_completes p)
    | readdir p filler offset buf => exact Prog.completes_map _ (cbfuseReaddir_completes _ _ _ _)
    | fs op =>
      cases op with
      | tree op => exact Prog.completes_map _ (treeOp_completes op)
      | entry op => exact entryOp_completes h

variable [DecidableEq ι]

/-- **No client can keep another from its end.** A call whose range is one FUSE
asks for, and that gets its memory – for what it allocates, and behind a buffer
where it reads past it – has returned once it has had its few turns: in every
interleaving with any number of other calls, whatever those do, and whatever
becomes of its own requests. -/
theorem every_call_returns (calls : ι → Call β) (s : Store Text) {sched : List (ι × Choice)} {i : ι}
    (hrange : (calls i).InRange) (hmem : ∀ ic ∈ sched, ic.1 = i → ic.2.HasMemory)
    (hturns : (calls i).turns ≤ sched.countP (fun ic => ic.1 = i)) :
    ∃ a, (runCalls calls s sched).returned i = some a :=
  Pool.returns_of_turns (fun _ q s hc => not_noCopy hc q s) (call_completes hrange) hmem hturns

end Calls

/-- A write is under way while another client removes the file, and half of the
requests time out. -/
theorem every_call_returns_race :
    let calls : Bool → Call Unit := fun writes =>
      .fuse (.fs (if writes then .entry (.write ['/', 'f'] [1, 2] 1)
        else .tree (.unlink ['/', 'f'])))
    let s : Store (Option Json) := Store.empty.putStat ['/', 'f'] (rootStat sIfreg ⟨0, 0⟩)
    let late : Choice := ⟨.lost .timeout, true, fun _ => 0, true, none⟩
    let sched :=
      (List.replicate 3 [(true, Choice.good ⟨7, 0⟩), (false, late), (true, late)]).flatten
    ∃ a, (runCalls calls s sched).returned true = some a := by
  intro calls s late sched
  have hrange : (0 : ℤ) ≤ 1 ∧ (1 : ℤ) < 2 ^ 63 ∧ (1 : ℤ) + 2 < 2 ^ 64 := by decide
  exact every_call_returns calls s hrange
    (by decide) (by decide)

end Cbfuse
