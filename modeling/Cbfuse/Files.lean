import Cbfuse.Handlers
import Cbfuse.Machine

/-!
# Files over whole runs

One client, nothing failing, any sequence of calls on files. What is asked
of such a run here is that a read returns the last byte written
(`read_lastWritten`). Every update of a block rebuilds it whole – in place,
grown, cut, or anew – and what it takes is that no update loses a byte it
was not about.

The run keeps a log of the calls and their results, since what was written
last is a matter of what was asked for and of whether it succeeded, and
nothing in the store says so.
-/

namespace Cbfuse

variable {Text : Type}

/-! ## Calls and runs -/

/-- A call on a file. -/
inductive FileOp where
  /-- `cbfuse_create(path, mode)` -/
  | create (path : CString) (mode : ℕ)
  /-- `cbfuse_unlink(path)` -/
  | unlink (path : CString)
  /-- `write_data(path, buf, nbuf, offset)`, which is all `cbfuse_write`
  does. -/
  | write (path : CString) (buf : Bytes) (offset : ℤ)
  /-- `truncate_data(path, offset)`, which is all `cbfuse_truncate` does. -/
  | truncate (path : CString) (offset : ℤ)
  /-- `read_data(path, buf, nbuf, offset)`, which is all `cbfuse_read`
  does. -/
  | read (path : CString) (nbuf : ℕ) (offset : ℤ)
  deriving DecidableEq

namespace FileOp

/-- The file a call is about. -/
def path : FileOp → CString
  | create p _ => p
  | unlink p => p
  | write p _ _ => p
  | truncate p _ => p
  | read p _ _ => p

/-- The program of a call: its result, and the bytes it copied to the
caller. -/
def code [CJson Text] : FileOp → Op Text (ℤ × Bytes)
  | create p mode => do return (← cbfuseCreate p mode, [])
  | unlink p => do return (← cbfuseUnlink p, [])
  | write p buf offset => do return (← writeData p buf offset, [])
  | truncate p offset => do return (← truncateData p offset, [])
  | read p nbuf offset => readData p nbuf offset

/-- Arguments a call can have: an offset is an `off_t` and not negative,
a range ends where a `size_t` can say, and a write has data. -/
def Legal : FileOp → Prop
  | write _ buf offset =>
    buf ≠ [] ∧ 0 ≤ offset ∧ offset < 2 ^ 63 ∧ offset + buf.length < 2 ^ 64
  | truncate _ offset => 0 ≤ offset ∧ offset < 2 ^ 63
  | read _ nbuf offset => 0 ≤ offset ∧ offset < 2 ^ 63 ∧ offset + nbuf < 2 ^ 64
  | _ => True

/-- The call made the change it was asked for: a write returned its
length, a creation, removal or truncation zero. A read makes none. -/
def Succeeded (op : FileOp) (result : Option (ℤ × Bytes)) : Prop :=
  match op with
  | write _ buf _ => result.map Prod.fst = some (buf.length : ℤ)
  | read _ _ _ => False
  | _ => result.map Prod.fst = some 0

instance (op : FileOp) (result : Option (ℤ × Bytes)) : Decidable (op.Succeeded result) :=
  match op with
  | create _ _ => inferInstanceAs (Decidable (_ = _))
  | unlink _ => inferInstanceAs (Decidable (_ = _))
  | write _ _ _ => inferInstanceAs (Decidable (_ = _))
  | truncate _ _ => inferInstanceAs (Decidable (_ = _))
  | read _ _ _ => inferInstanceAs (Decidable False)

instance : DecidablePred Legal := fun op =>
  match op with
  | create _ _ => inferInstanceAs (Decidable True)
  | unlink _ => inferInstanceAs (Decidable True)
  | write _ _ _ => inferInstanceAs (Decidable (_ ≠ _ ∧ _ ≤ _ ∧ _ < _ ∧ _ < _))
  | truncate _ _ => inferInstanceAs (Decidable (_ ≤ _ ∧ _ < _))
  | read _ _ _ => inferInstanceAs (Decidable (_ ≤ _ ∧ _ < _ ∧ _ < _))

end FileOp

/-- The calls made so far with their results, oldest first. -/
abbrev Log := List (FileOp × Option (ℤ × Bytes))

/-- **A call**, its requests served under the choices given with it: it
changes the store, and its result is logged. -/
def fileStep [CJson Text] (x : FileOp × (ℕ → Choice)) (y : Store Text × Log) : Store Text × Log :=
  let r := x.1.code.run serve x.2 y.1
  (r.2, y.2 ++ [(x.1, r.1)])

/-- What every call preserves, every run does. -/
theorem fileStep_of_wp [CJson Text] {x : FileOp × (ℕ → Choice)} {y : Store Text × Log}
    {P : Store Text × Log → Prop} (hx : ∀ n, (x.2 n).FaultFree)
    (h : x.1.code.wp serve Choice.FaultFree (fun _ => True)
      (fun r s' => P (s', y.2 ++ [(x.1, some r)])) y.1) : P (fileStep x y) := by
  obtain ⟨a, s', hrun, hp⟩ := Prog.wp_run h hx
  unfold fileStep
  rw [hrun]
  exact hp

/-! ## Reads return the last byte written -/

/-- What a call makes of the byte last written at position `i`: a write
that returned its length and covers `i` gives it its own byte, and a
truncation at or below `i` takes it away, whatever it returned. -/
def writtenBy (i : ℕ) (acc : Option UInt8) (x : FileOp × Option (ℤ × Bytes)) : Option UInt8 :=
  match x.1 with
  | .write _ buf offset =>
    if x.1.Succeeded x.2 ∧ offset ≤ i ∧ i < offset + buf.length then buf[i - offset.toNat]?
    else acc
  | .truncate _ offset => if offset ≤ i then none else acc
  | _ => acc

/-- **The byte last written at position `i`**, where some write covered it
and no truncation has taken it away since. -/
def lastWritten (i : ℕ) (log : Log) : Option UInt8 := log.foldl (writtenBy i) none

theorem lastWritten_append (i : ℕ) (log : Log) (x : FileOp × Option (ℤ × Bytes)) :
    lastWritten i (log ++ [x]) = writtenBy i (lastWritten i log) x := by
  unfold lastWritten
  rw [List.foldl_append]
  rfl

/-- A call that reads or changes the bytes of the file `p`, of at most
`MAX_DOC_LEN` bytes at a time, which is the limit `cbfuse_init` sets. -/
def FileOp.OnBytesOf (p : CString) (op : FileOp) : Prop :=
  op.path = p ∧ op.Legal ∧
    match op with
    | write _ buf _ => buf.length ≤ maxDocLen
    | read _ nbuf _ => 1 ≤ nbuf ∧ nbuf ≤ maxDocLen
    | truncate _ _ => True
    | _ => False

/-- **The block of `p` holds what was written**: its stat can be read, its
length fits an `off_t`, and every byte last written is there. -/
structure Holds (p : CString) (y : Store Text × Log) : Prop where
  /-- The stat of the file can be read. -/
  stat : ∃ stat cas, y.1.statOf p = .ok (stat, cas)
  /-- The length of the block is an `off_t`. -/
  length : (y.1.bytesOf p).length < 2 ^ 63
  /-- Every byte last written is in the block. -/
  bytes : ∀ i v, lastWritten i y.2 = some v → (y.1.bytesOf p)[i]? = some v

section Holds

variable {s : Store Text} {p : CString} {log : Log}

theorem Store.statOf_putStat (s : Store Text) (p : CString) (stat : CbfuseStat) :
    ∃ stat' cas, (s.putStat p stat).statOf p = .ok (stat', cas) := by
  refine ⟨stat, s.stats.lastCas + 1, ?_⟩
  unfold statOf
  simp

@[simp] theorem Store.bytesOf_putStat (s : Store Text) (p q : CString) (stat : CbfuseStat) :
    (s.putStat p stat).bytesOf q = s.bytesOf q := rfl

@[simp] theorem Store.bytesOf_putBlock (s : Store Text) (p : CString) (b : Bytes) :
    (s.putBlock p b).bytesOf p = b := by
  unfold bytesOf
  simp

/-- A write keeps every byte last written, its own included. -/
theorem Holds.write {y : Store Text × Log} {s' : Store Text} {buf : Bytes} {offset : ℤ} {r : ℤ}
    (h : Holds p y) (h0 : 0 ≤ offset) (hmax : offset + buf.length ≤ maxFileLen)
    (hstat : ∃ stat cas, s'.statOf p = .ok (stat, cas))
    (hw : Buffer.Overwrites (y.1.bytesOf p) offset.toNat buf (s'.bytesOf p))
    (hr : r = buf.length) :
    Holds p (s', y.2 ++ [(.write p buf offset, some (r, []))]) := by
  have hlim : (maxFileLen : ℤ) < 2 ^ 63 := by decide
  refine ⟨hstat, ?_, fun i v hv => ?_⟩
  · show (s'.bytesOf p).length < 2 ^ 63
    rw [hw.length]
    have := h.length
    omega
  · show (s'.bytesOf p)[i]? = some v
    rw [lastWritten_append] at hv
    unfold writtenBy at hv
    dsimp only at hv
    split at hv
    · next hin =>
      have hi := hw.inside (i - offset.toNat) (by omega)
      rwa [show offset.toNat + (i - offset.toNat) = i by omega, hv] at hi
    · next hout =>
      have hv' := h.bytes i v hv
      have hlt : i < (y.1.bytesOf p).length := (List.getElem?_eq_some_iff.mp hv').1
      rw [hw.outside i hlt ?_, hv']
      -- the write returned its length, so it did not cover this position
      have hs : (FileOp.write p buf offset).Succeeded (some (r, [])) := congrArg some hr
      have hnot : ¬ (offset ≤ i ∧ i < offset + buf.length) := fun h => hout ⟨hs, h⟩
      omega

/-- A truncation that keeps the bytes below its offset keeps every byte
last written that it does not take away. -/
theorem Holds.truncate {y : Store Text × Log} {s' : Store Text} {offset : ℤ}
    {r : ℤ × Bytes} (h : Holds p y) (hstat : ∃ stat cas, s'.statOf p = .ok (stat, cas))
    (hlen : (s'.bytesOf p).length < 2 ^ 63)
    (hkeep : ∀ (i : ℕ) v, (i : ℤ) < offset → (y.1.bytesOf p)[i]? = some v →
      (s'.bytesOf p)[i]? = some v) :
    Holds p (s', y.2 ++ [(.truncate p offset, some r)]) := by
  refine ⟨hstat, hlen, fun i v hv => ?_⟩
  rw [lastWritten_append] at hv
  unfold writtenBy at hv
  dsimp only at hv
  split at hv
  · cases hv
  · exact hkeep i v (by omega) (h.bytes i v hv)

/-- What leaves the bytes alone and writes none keeps them. -/
theorem Holds.same {y : Store Text × Log} {s' : Store Text} (h : Holds p y)
    (hstat : ∃ stat cas, s'.statOf p = .ok (stat, cas))
    (hbytes : s'.bytesOf p = y.1.bytesOf p) {x : FileOp × Option (ℤ × Bytes)}
    (hx : ∀ i acc, writtenBy i acc x = acc ∨ writtenBy i acc x = none) :
    Holds p (s', y.2 ++ [x]) := by
  refine ⟨hstat, ?_, fun i v hv => ?_⟩
  · show (s'.bytesOf p).length < 2 ^ 63
    rw [hbytes]
    exact h.length
  · show (s'.bytesOf p)[i]? = some v
    rw [lastWritten_append] at hv
    rw [hbytes]
    rcases hx i (lastWritten i y.2) with hi | hi
    · exact h.bytes i v (hi ▸ hv)
    · rw [hi] at hv
      cases hv

/-- A truncation keeps the bytes below its offset. -/
theorem Store.CutTo.bytes {s s₁ : Store Text} {offset : ℤ} (hcut : s.CutTo p offset s₁)
    {i : ℕ} {v : UInt8} (hi : (i : ℤ) < offset) (hv : (s.bytesOf p)[i]? = some v) :
    (s₁.bytesOf p)[i]? = some v := by
  cases hcut with
  | removed hz hb => omega
  | nothing hz hb => exact hv
  | cut hz b past hb hpast =>
    have hlt : i < (s.bytesOf p).length := (List.getElem?_eq_some_iff.mp hv).1
    rw [Store.bytesOf_of_val hb] at hv hlt
    rw [Store.bytesOf_putBlock, List.getElem?_append_left (by rw [List.length_take]; omega),
      List.getElem?_take_of_lt (by omega), hv]

theorem Store.CutTo.length_lt {s s₁ : Store Text} {offset : ℤ} (hcut : s.CutTo p offset s₁)
    (hlim : offset < 2 ^ 63) (hlen : (s.bytesOf p).length < 2 ^ 63) :
    (s₁.bytesOf p).length < 2 ^ 63 := by
  cases hcut with
  | removed hz hb => simp [Store.bytesOf]
  | nothing hz hb => exact hlen
  | cut hz b past hb hpast =>
    rw [Store.bytesOf_of_val hb] at hlen
    rw [Store.bytesOf_putBlock, List.length_append, List.length_take]
    omega

/-- A read that covers a byte of the block returns it. -/
theorem readData_byte {nbuf : ℕ} {offset : ℤ} (hn : nbuf ≤ maxDocLen) (h0 : 0 ≤ offset)
    (hoff : offset < 2 ^ 63) (hstat : ∃ stat cas, s.statOf p = .ok (stat, cas))
    (hlen : (s.bytesOf p).length < 2 ^ 63) {env : ℕ → Choice} (henv : ∀ n, (env n).FaultFree)
    {i : ℕ} {v : UInt8} (hv : (s.bytesOf p)[i]? = some v) (hi : offset ≤ i)
    (hi' : i < offset + nbuf) :
    ∃ r bytes, ((readData p nbuf offset).run serve env s).1 = some (r, bytes)
      ∧ i - offset < r ∧ bytes[i - offset.toNat]? = some v := by
  have hlim : (maxDocLen : ℤ) < 2 ^ 31 := by decide
  obtain ⟨stat, cas, hst⟩ := hstat
  have hlt : i < (s.bytesOf p).length := (List.getElem?_eq_some_iff.mp hv).1
  have hwp : (readData p nbuf offset).wp serve Choice.FaultFree (fun _ => True)
      (fun r _ => i - offset < r.1 ∧ r.2[i - offset.toNat]? = some v) s := by
    have hdoc := maxDocLen_lt
    refine wp_readData trivial h0 hoff (by omega) hlen (fun hnone => ?_) (fun b hb hle => ?_)
      (fun b hb _ => ⟨fun e he => ?_, fun _ _ _ _ => ⟨trivial, ?_⟩⟩)
    · rw [Store.bytesOf_eq_nil hnone] at hlt
      exact absurd hlt (Nat.not_lt_zero i)
    · rw [Store.bytesOf_of_val hb] at hlt
      omega
    · rw [hst] at he
      cases he
    · rw [Store.bytesOf_of_val hb] at hv hlt
      refine ⟨?_, ?_⟩
      · rw [dataDone_toInt (by rw [List.length_take]; omega), List.length_take,
          List.length_drop]
        omega
      · rw [List.getElem?_take_of_lt (by omega), List.getElem?_drop,
          show offset.toNat + (i - offset.toNat) = i by omega, hv]
  obtain ⟨⟨r, bytes⟩, s', hrun, hr⟩ := Prog.wp_run hwp henv
  exact ⟨r, bytes, by rw [hrun], hr⟩

/-! ## Every call keeps them -/

variable [CJson Text]

theorem wp_write_holds {y : Store Text × Log} {buf : Bytes} {offset : ℤ} (h : Holds p y)
    (hop : (FileOp.write p buf offset).OnBytesOf p) :
    (FileOp.write p buf offset).code.wp serve Choice.FaultFree (fun _ => True)
      (fun r s' => Holds p (s', y.2 ++ [(.write p buf offset, some r)])) y.1 := by
  obtain ⟨-, ⟨hbuf, h0, -, hrep⟩, hmax⟩ := hop
  have hdone := dataDone_toInt (Nat.lt_of_le_of_lt hmax maxDocLen_lt)
  have hpos : 0 < buf.length := List.length_pos_of_ne_nil hbuf
  obtain ⟨stat, cas, hst⟩ := h.stat
  show (writeData p buf offset >>= fun r => .ret (r, [])).wp serve _ _ _ y.1
  rw [Prog.wp_bind]
  refine wp_writeData trivial hbuf h0 hrep (fun _ => ?_) (fun hlim fresh => ⟨trivial, ?_, ?_⟩)
  · refine h.same h.stat rfl (fun i acc => .inl ?_)
    -- a write past the limit returns `-1`, which is no length
    have hfail : ¬ (FileOp.write p buf offset).Succeeded (some (-1, [])) := by
      intro hs
      have : (-1 : ℤ) = buf.length := Option.some.inj hs
      omega
    unfold writtenBy
    exact if_neg (fun hin => hfail hin.1)
  · intro _
    rw [hdone]
    exact h.write h0 hlim h.stat (by simpa using Buffer.overwrites_write fresh.2) rfl
  · refine fun _ => ⟨fun e he => ?_, fun stat' cas' ts _ => ⟨trivial, ?_⟩⟩
    · rw [hst] at he
      cases he
    · rw [hdone]
      exact h.write h0 hlim (Store.statOf_putStat _ _ _)
        (by simpa using Buffer.overwrites_write fresh.2) rfl

theorem wp_truncate_holds {y : Store Text × Log} {offset : ℤ} (h : Holds p y)
    (hop : (FileOp.truncate p offset).OnBytesOf p) :
    (FileOp.truncate p offset).code.wp serve Choice.FaultFree (fun _ => True)
      (fun r s' => Holds p (s', y.2 ++ [(.truncate p offset, some r)])) y.1 := by
  obtain ⟨-, ⟨h0, hrep⟩, -⟩ := hop
  obtain ⟨stat, cas, hst⟩ := h.stat
  -- a truncation that fails changes nothing, and takes bytes away only on paper
  have hfail : ∀ r : ℤ × Bytes, Holds p (y.1, y.2 ++ [(.truncate p offset, some r)]) :=
    fun r => h.truncate h.stat h.length (fun i v _ hv => hv)
  show (truncateData p offset >>= fun r => .ret (r, [])).wp serve _ _ _ y.1
  rw [Prog.wp_bind]
  refine wp_truncateData trivial h0 hrep (fun _ => hfail _) (fun _ _ => hfail _)
    (fun s₁ hlim hcut => ⟨trivial, fun e he => ?_, fun stat' cas' ts _ => ⟨trivial, ?_⟩⟩)
  · rw [hst] at he
    cases he
  · exact h.truncate (Store.statOf_putStat _ _ _) (hcut.length_lt hrep h.length)
      (fun i v hi hv => hcut.bytes hi hv)

theorem wp_read_holds {y : Store Text × Log} {nbuf : ℕ} {offset : ℤ} (h : Holds p y)
    (hop : (FileOp.read p nbuf offset).OnBytesOf p) :
    (FileOp.read p nbuf offset).code.wp serve Choice.FaultFree (fun _ => True)
      (fun r s' => Holds p (s', y.2 ++ [(.read p nbuf offset, some r)])) y.1 := by
  obtain ⟨-, ⟨h0, hoff, hrep⟩, -⟩ := hop
  have hx : ∀ r i acc, writtenBy i acc (.read p nbuf offset, r) = acc
      ∨ writtenBy i acc (.read p nbuf offset, r) = none := fun _ _ _ => .inl rfl
  exact wp_readData trivial h0 hoff hrep h.length (fun _ => h.same h.stat rfl (hx _))
    (fun _ _ _ => h.same h.stat rfl (hx _))
    (fun _ _ _ => ⟨fun _ _ => h.same h.stat rfl (hx _),
      fun _ _ _ _ => ⟨trivial, h.same (Store.statOf_putStat _ _ _) rfl (hx _)⟩⟩)

/-- Every call on the bytes of the file keeps what was written. -/
theorem fileStep_holds {x : FileOp × (ℕ → Choice)} {y : Store Text × Log} (h : Holds p y)
    (hop : x.1.OnBytesOf p) (hx : ∀ n, (x.2 n).FaultFree) : Holds p (fileStep x y) := by
  refine fileStep_of_wp hx ?_
  obtain ⟨op, env⟩ := x
  obtain ⟨hp, hlegal, hkind⟩ := id hop
  cases op with
  | create q mode => exact hkind.elim
  | unlink q => exact hkind.elim
  | write q buf offset => cases hp; exact wp_write_holds h hop
  | truncate q offset => cases hp; exact wp_truncate_holds h hop
  | read q nbuf offset => cases hp; exact wp_read_holds h hop

theorem holds_of_run {calls : List (FileOp × (ℕ → Choice))}
    (hcalls : ∀ x ∈ calls, x.1.OnBytesOf p ∧ ∀ n, (x.2 n).FaultFree) {y : Store Text × Log}
    (h : Holds p y) : Holds p (Machine.final fileStep calls y) := by
  induction calls generalizing y with
  | nil => exact h
  | cons x calls ih =>
    obtain ⟨hop, hx⟩ := hcalls x (List.mem_cons_self ..)
    exact ih (fun z hz => hcalls z (List.mem_cons_of_mem x hz)) (fileStep_holds h hop hx)

/-- **Reads return the last byte written.** After any writes, truncations
and reads of a file, nothing failing, a read that covers a position some
write covered, and no truncation took away since, returns enough bytes to
reach it, and the byte there is the one last written. -/
theorem read_lastWritten (hstat : ∃ stat cas, s.statOf p = .ok (stat, cas))
    (hlen : (s.bytesOf p).length < 2 ^ 63) (calls : List (FileOp × (ℕ → Choice)))
    (hcalls : ∀ x ∈ calls, x.1.OnBytesOf p ∧ ∀ n, (x.2 n).FaultFree) {i : ℕ} {v : UInt8}
    (hv : lastWritten i (Machine.final fileStep calls (s, [])).2 = some v) {nbuf : ℕ}
    {offset : ℤ} (hread : (FileOp.read p nbuf offset).OnBytesOf p) (hi : offset ≤ i)
    (hi' : i < offset + nbuf) {env : ℕ → Choice} (henv : ∀ n, (env n).FaultFree) :
    ∃ r bytes,
      ((readData p nbuf offset).run serve env (Machine.final fileStep calls (s, [])).1).1
        = some (r, bytes)
      ∧ i - offset < r ∧ bytes[i - offset.toNat]? = some v := by
  obtain ⟨-, ⟨h0, hoff, -⟩, -, hn⟩ := hread
  have hstart : Holds p (s, ([] : Log)) := ⟨hstat, hlen, fun i v hv => by cases hv⟩
  have h := holds_of_run hcalls hstart
  exact readData_byte hn h0 hoff h.stat h.length henv (h.bytes i v hv) hi hi'

end Holds

/-- Three bytes are written and the last cut off; the second is still
read. -/
theorem read_lastWritten_cut :
    let s : Store (Option Json) :=
      Store.empty.putStat ['/', 'f'] (rootStat (sIfreg ||| 0o644) ⟨0, 0⟩)
    let calls : List (FileOp × (ℕ → Choice)) :=
      [(.write ['/', 'f'] [1, 2, 3] 0, fun _ => .good ⟨0, 0⟩),
        (.truncate ['/', 'f'] 2, fun _ => .good ⟨0, 0⟩)]
    ∃ r bytes,
      ((readData ['/', 'f'] 10 0).run serve (fun _ => .good ⟨0, 0⟩)
        (Machine.final fileStep calls (s, [])).1).1 = some (r, bytes)
      ∧ 1 - 0 < r ∧ bytes[1]? = some (2 : UInt8) := by
  intro s calls
  have hff : ∀ _ : ℕ, (Choice.good ⟨0, 0⟩).FaultFree := fun _ => Choice.faultFree_good _
  refine read_lastWritten (s := s) ⟨_, _, rfl⟩ (by decide) calls (fun x hx => ?_) (i := 1) (v := 2)
    (by decide) ⟨rfl, by decide, by decide⟩ (by decide) (by decide) hff
  rcases List.mem_pair.mp hx with rfl | rfl
  · exact ⟨⟨rfl, by decide, by decide⟩, hff⟩
  · exact ⟨⟨rfl, by decide, trivial⟩, hff⟩

end Cbfuse
