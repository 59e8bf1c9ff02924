import Cbfuse.FuseOps
import Cbfuse.Truncation

/-!
# Offsets and lengths

An offset is a signed number and a length an unsigned one, both of 64 bits;
their sum is computed as an unsigned one, a read subtracts one from the other,
and what a call returns is an `int`. The limit of a file, `MAX_FILE_LEN`, is
far above what an `int` can tell and far below where a sum of 64 bits wraps.

So nothing wraps. Which sums exceed the limit is decided as over the integers,
and every copy of a read or a write ends within the buffer it is from and the
buffer it is to, whichever of the three a write ends in. That is said here of
every run, whatever becomes of its requests: none of them looks past the end
of a buffer, and what it dies of is a buffer there was no memory for
(`offsets_exact`).
-/

namespace Cbfuse

variable {Text : Type}

/-! ## Allocations that fail -/

/-- The callback of a fetch found a value, and `memdup` had no memory for the
copy of it. -/
def Response.Uncopied {V : Type} (resp : Response V) : Prop :=
  resp.status = none ∧ resp.doc ≠ none ∧ resp.alloc = false

/-- **The reply is a failed allocation**: the one the program asked for, or the
one `sync_get_callback` makes for the value of a fetch. -/
def Req.AllocFails : (q : Req Text) → q.Reply → Prop
  | .malloc _, dest => dest = none
  | .stats (.get _), resp => Response.Uncopied resp
  | .dentries (.get _), resp => Response.Uncopied resp
  | .blocks (.get _), resp => Response.Uncopied resp
  | _, _ => False

/-- **A run that runs out of memory**: some allocation fails in the course of
it. -/
def OutOfMemory {α : Type} (p : Op Text α) (env : ℕ → Choice) (s : Store Text) : Prop :=
  ∃ e ∈ p.events serve env s, e.1.AllocFails e.2

/-- `get_stat` dies of a stat it could not copy. -/
theorem uncopied_of_statReply {resp : Response StatDoc} (h : statReply resp = none) :
    resp.Uncopied ∧ ∃ stat cas, resp.doc = some ⟨.packed stat, cas⟩ := by
  unfold statReply at h
  split at h
  · cases h
  · split at h
    · cases h
    · next hst =>
      split at h
      · cases h
      · cases h
      · next stat cas hd =>
        split at h
        · cases h
        · next halloc =>
          refine ⟨⟨not_not.mp hst, ?_, Bool.eq_false_iff.mpr halloc⟩, stat, cas, hd⟩
          rw [hd]
          exact Option.some_ne_none _

theorem updateStat_diesOnly (pkey : CString) (clock : Bool)
    (change : Timespec → CbfuseStat → CbfuseStat) :
    (updateStat pkey clock change : Op Text ℤ).DiesOnly Req.AllocFails := by
  rw [updateStat_eq]
  intro resp hresp
  dsimp only
  cases h : statReply resp with
  | none => exact absurd (uncopied_of_statReply h).1 hresp
  | some r =>
    cases r with
    | error e => trivial
    | ok r =>
      show (replaceStat pkey clock change r.1 r.2 : Op Text ℤ).DiesOnly Req.AllocFails
      unfold replaceStat
      split
      · intro now _
        cases now with
        | none => trivial
        | some ts => exact fun _ _ => trivial
      · exact fun _ _ => trivial

theorem updateStat_inBuffer (pkey : CString) (clock : Bool)
    (change : Timespec → CbfuseStat → CbfuseStat) :
    (updateStat pkey clock change : Op Text ℤ).Only Req.InBuffer :=
  (updateStat_only pkey clock change).mono (fun _ h => h.inBuffer)

/-- What a fetch of a block leaves: a copy with its length, or nothing – of a
recorded length only if there was no memory for the copy. -/
theorem syncGetCallback_value (resp : Response Bytes) :
    let result := syncGetCallback List.length resp
    (∃ b, result.value = some b ∧ result.nvalue = b.length)
      ∨ result.value = none ∧ (result.nvalue = 0 ∨ resp.Uncopied) := by
  obtain ⟨⟨rc, status, doc⟩, alloc⟩ := resp
  cases status with
  | some e => exact .inr ⟨rfl, .inl rfl⟩
  | none =>
    cases doc with
    | none => exact .inr ⟨rfl, .inl rfl⟩
    | some d =>
      cases alloc with
      | false => exact .inr ⟨rfl, .inr ⟨rfl, Option.some_ne_none d, rfl⟩⟩
      | true => exact .inl ⟨d.value, rfl, rfl⟩

/-! ## The copies of a write

The buffer a write ends in is a new one of the length of its range, a longer
one that the old bytes fit into, or the one it fetched. -/

section Write

variable {pkey : CString} {data : Bytes} {offset : ℤ}

theorem newBlock_diesOnly (nupdate : ℕ) :
    (newBlock pkey data offset nupdate : Op Text _).DiesOnly Req.AllocFails := by
  intro dest _
  cases dest with
  | none => trivial
  | some fresh => exact fun _ _ => trivial

theorem newBlock_inBuffer (nupdate : ℕ) :
    (newBlock pkey data offset nupdate : Op Text _).Only Req.InBuffer := by
  refine ⟨trivial, fun dest => ?_⟩
  cases dest with
  | none => trivial
  | some fresh => exact ⟨trivial, fun _ => trivial⟩

theorem modifyBlock_diesOnly {value : Option Bytes} {nvalue n₀ : ℕ} (hd : data ≠ [])
    (h0 : 0 ≤ offset)
    (hv : (∃ b, value = some b ∧ nvalue = b.length) ∨ value = none ∧ nvalue = 0) :
    (modifyBlock pkey (some data) offset (offset.toNat + data.length) value nvalue n₀
      : Op Text _).DiesOnly Req.AllocFails := by
  obtain ⟨b, rfl, rfl⟩ | ⟨rfl, rfl⟩ := hv
  · rw [modifyBlock_write rfl hd h0]
    split
    · intro dest hdest
      cases dest with
      | none => exact absurd rfl hdest
      | some fresh => exact fun _ _ => trivial
    · exact fun _ _ => trivial
  · have hpos : 0 < data.length := List.length_pos_of_ne_nil hd
    rw [modifyBlock_null hd, if_pos (by omega)]
    intro dest _
    cases dest with
    | none => trivial
    | some fresh => trivial

theorem modifyBlock_inBuffer {value : Option Bytes} {nvalue n₀ : ℕ} (hd : data ≠ [])
    (h0 : 0 ≤ offset) (hv : (∃ b, value = some b ∧ nvalue = b.length) ∨ value = none) :
    (modifyBlock pkey (some data) offset (offset.toNat + data.length) value nvalue n₀
      : Op Text _).Only Req.InBuffer := by
  obtain ⟨b, rfl, rfl⟩ | rfl := hv
  · rw [modifyBlock_write rfl hd h0]
    split
    · refine ⟨trivial, fun dest => ?_⟩
      cases dest with
      | none => trivial
      | some fresh => exact ⟨trivial, fun _ => trivial⟩
    · exact ⟨trivial, fun _ => trivial⟩
  · exact modifyBlock_null_only (fun _ => trivial) hd

theorem finishWrite_diesOnly (nbuf : ℕ) (r : ℤ × ℕ) :
    (finishWrite pkey nbuf r : Op Text ℤ).DiesOnly Req.AllocFails := by
  unfold finishWrite
  split
  · trivial
  · split
    · refine Prog.diesOnly_bind (updateStat_diesOnly _ _ _) (fun fresult => ?_)
      split <;> trivial
    · trivial

theorem finishWrite_inBuffer (nbuf : ℕ) (r : ℤ × ℕ) :
    (finishWrite pkey nbuf r : Op Text ℤ).Only Req.InBuffer := by
  unfold finishWrite
  split
  · trivial
  · split
    · refine Prog.only_bind (updateStat_inBuffer _ _ _) (fun fresult => ?_)
      split <;> trivial
    · trivial

variable (hd : data ≠ []) (h0 : 0 ≤ offset) (hrep : offset + data.length < 2 ^ 64)
include hd h0 hrep

/-- **A write dies of nothing but a failed allocation.** -/
theorem writeData_diesOnly : (writeData pkey data offset : Op Text ℤ).DiesOnly Req.AllocFails := by
  by_cases hmax : offset + data.length ≤ maxFileLen
  · rw [writeData_eq (by rw [toSizeT_range h0 hmax]; omega), updateBlock_write hd h0 hmax,
      Prog.call_bind]
    intro resp hresp
    refine Prog.diesOnly_bind ?_ (fun r => finishWrite_diesOnly _ r)
    unfold updateWrite
    dsimp only
    split
    · trivial
    · split
      · exact newBlock_diesOnly _
      · refine modifyBlock_diesOnly hd h0 ((syncGetCallback_value resp).imp_right ?_)
        exact fun ⟨hnull, hn⟩ => ⟨hnull, hn.resolve_right hresp⟩
  · rw [writeData_refused hrep (Int.not_le.mp hmax)]
    trivial

/-- **A write never looks past the end of a buffer.** -/
theorem writeData_inBuffer : (writeData pkey data offset : Op Text ℤ).Only Req.InBuffer := by
  by_cases hmax : offset + data.length ≤ maxFileLen
  · rw [writeData_eq (by rw [toSizeT_range h0 hmax]; omega), updateBlock_write hd h0 hmax,
      Prog.call_bind]
    refine ⟨trivial, fun resp => Prog.only_bind ?_ (fun r => finishWrite_inBuffer _ r)⟩
    unfold updateWrite
    dsimp only
    split
    · trivial
    · split
      · exact newBlock_inBuffer _
      · exact modifyBlock_inBuffer hd h0 ((syncGetCallback_value resp).imp_right And.left)
  · rw [writeData_refused hrep (Int.not_le.mp hmax)]
    trivial

end Write

/-! ## The copy of a read -/

section Read

variable {pkey : CString} {nbuf : ℕ} {offset : ℤ} (h0 : 0 ≤ offset)
  (hrep : offset + nbuf < 2 ^ 64)
include h0 hrep

/-- **A read dies of nothing but a failed allocation.** -/
theorem readData_diesOnly :
    (readData pkey nbuf offset : Op Text _).DiesOnly Req.AllocFails := by
  rw [readData_call]
  intro resp hresp
  unfold readReply blockReply
  dsimp only
  split
  · trivial
  · split
    · trivial
    · next hend =>
      refine Prog.diesOnly_bind ?_ (fun bytes =>
        Prog.diesOnly_bind (updateStat_diesOnly _ _ _) (fun _ => trivial))
      obtain ⟨b, hb, hn⟩ | ⟨-, hn⟩ := syncGetCallback_value resp
      · have hle := trimmed_le h0 hrep (Int.not_le.mp hend)
        rw [hn] at hle
        rw [hb, hn, load_of_le h0 (by omega)]
        trivial
      · rw [hn.resolve_right hresp] at hend
        exact absurd h0 hend

/-- **A read never looks past the end of a buffer.** -/
theorem readData_inBuffer : (readData pkey nbuf offset : Op Text _).Only Req.InBuffer := by
  rw [readData_call]
  refine ⟨trivial, fun resp => ?_⟩
  unfold readReply blockReply
  dsimp only
  split
  · trivial
  · split
    · trivial
    · next hend =>
      refine Prog.only_bind ?_ (fun bytes =>
        Prog.only_bind (updateStat_inBuffer _ _ _) (fun _ => trivial))
      obtain ⟨b, hb, hn⟩ | ⟨hb, -⟩ := syncGetCallback_value resp
      · have hle := trimmed_le h0 hrep (Int.not_le.mp hend)
        rw [hn] at hle
        rw [hb, hn, load_of_le h0 (by omega)]
        trivial
      · rw [hb]
        unfold load
        dsimp only
        split <;> trivial

end Read

/-! ## The results -/

/-- At the end of a read or a write there are no errors but `-1`. -/
theorem dataDone_cases (r : ℤ) : dataDone r = -1 ∨ 0 ≤ dataDone r := by
  unfold dataDone
  split
  · exact .inl rfl
  · next h => exact .inr (Int.not_lt.mp h)

theorem dataDone_of_isCode {r : ℤ} (h : IsCode r) (hne : r ≠ 0) : dataDone r = -1 :=
  dataDone_of_neg (Int.lt_iff_le_and_ne.mpr ⟨h, hne⟩)

/-- A write returns its length or an error. -/
theorem writeData_returns_length (p : CString) {buf : Bytes} {offset : ℤ}
    (hlen : buf.length < 2 ^ 31) :
    (writeData p buf offset : Op Text ℤ).Returns (fun r => r = (buf.length : ℤ) ∨ r = -1) := by
  have hdone := dataDone_toInt hlen
  unfold writeData
  split
  · exact .inr rfl
  · refine Prog.returns_bind (updateBlock_isCode _ _ _) (fun r h => ?_)
    dsimp only
    split
    · next hne => exact .inr (dataDone_of_isCode h hne)
    · split
      · refine Prog.returns_bind (updateStat_isCode _ _ _) (fun fresult h => ?_)
        split
        · next hne => exact .inr (dataDone_of_isCode h hne)
        · exact .inl hdone
      · exact .inl hdone

/-- A read returns `-1`, or nothing negative. -/
theorem readData_returns_nonneg (p : CString) (nbuf : ℕ) (offset : ℤ) :
    (readData p nbuf offset : Op Text _).Returns (fun r => r.1 = -1 ∨ 0 ≤ r.1) := by
  rw [readData_call]
  intro resp
  unfold readReply
  dsimp only
  split
  · exact dataDone_cases _
  · split
    · exact .inr (Int.le_refl 0)
    · exact Prog.returns_bind (Prog.returns_true _) (fun bytes _ =>
        Prog.returns_bind (Prog.returns_true _) (fun fresult _ => dataDone_cases _))

/-! ## Exact arithmetic -/

/-- **What the offsets and the lengths of a write come to**, in one run. -/
structure WritesExactly (p : CString) (buf : Bytes) (offset : ℤ) (env : ℕ → Choice)
    (s : Store Text) : Prop where
  /-- The sum does not wrap. -/
  sum : (toSizeT (offset + buf.length) : ℤ) = offset + buf.length
  /-- `update_block` answers `-EFBIG` past the limit, and for nothing else. -/
  efbig : (∃ n, ((updateBlock p (some buf) offset).run serve env s).1 = some (-efbig, n))
    ↔ (maxFileLen : ℤ) < offset + buf.length
  /-- `write_data` answers `-1` past the limit, and without a request for
  nothing else. -/
  refused : ((writeData p buf offset).run serve env s).1 = some (-1)
      ∧ (writeData p buf offset).events serve env s = []
    ↔ (maxFileLen : ℤ) < offset + buf.length
  /-- No copy is from past the end of a buffer. -/
  inBuffers : StaysInBuffers (writeData p buf offset) env s
  /-- No copy is to a place outside a buffer: the process dies only where there
  was no memory for one. -/
  dies : ((writeData p buf offset).run serve env s).1 = none →
    OutOfMemory (writeData p buf offset) env s
  /-- The result is the length, or an error. -/
  result : ∀ r, ((writeData p buf offset).run serve env s).1 = some r →
    r = buf.length ∨ r = -1
  /-- Within the limit it is the length where nothing fails and there is a stat
  to update. -/
  succeeds : offset + buf.length ≤ maxFileLen → (∀ n, (env n).FaultFree) →
    (∃ stat, s.stats.val p = some (.packed stat)) →
    ((writeData p buf offset).run serve env s).1 = some (buf.length : ℤ)

/-- **What the offset and the length of a read come to**, in one run. -/
structure ReadsExactly (p : CString) (nbuf : ℕ) (offset : ℤ) (env : ℕ → Choice)
    (s : Store Text) : Prop where
  /-- The sum does not wrap. -/
  sum : (toSizeT (offset + nbuf) : ℤ) = offset + nbuf
  /-- Before the end of the block the difference does not wrap either, and the
  read is trimmed to it. -/
  trim : ∀ b, s.blocks.val p = some b → offset < b.length →
    (toSizeT (b.length - offset) : ℤ) = b.length - offset
      ∧ (trimmed b.length nbuf offset : ℤ) = min (nbuf : ℤ) (b.length - offset)
      ∧ offset + trimmed b.length nbuf offset ≤ b.length
  /-- The copy is from nowhere but the block. -/
  inBuffers : StaysInBuffers (readData p nbuf offset) env s
  /-- The process dies only where there was no memory for a buffer. -/
  dies : ((readData p nbuf offset).run serve env s).1 = none →
    OutOfMemory (readData p nbuf offset) env s
  /-- The result is at most the size that was asked for, or an error. -/
  result : ∀ r, ((readData p nbuf offset).run serve env s).1 = some r →
    r.1 = -1 ∨ 0 ≤ r.1 ∧ r.1 ≤ nbuf
  /-- It is the number of bytes that there are where nothing fails and there
  are a block to read and a stat to update. -/
  succeeds : ∀ b, s.blocks.val p = some b → (∀ n, (env n).FaultFree) →
    (∃ stat, s.stats.val p = some (.packed stat)) →
    let bytes := (b.drop offset.toNat).take nbuf
    ((readData p nbuf offset).run serve env s).1 = some ((bytes.length : ℤ), bytes)

section Exact

variable {s : Store Text} {p : CString} {offset : ℤ} {env : ℕ → Choice}

/-- `update_block` refuses what does not fit a file, whatever is replied to
it. -/
theorem run_updateBlock_efbig {buf : Bytes} (h0 : 0 ≤ offset)
    (hrep : offset + buf.length < 2 ^ 64) :
    (∃ n, ((updateBlock p (some buf) offset).run serve env s).1 = some (-efbig, n))
      ↔ (maxFileLen : ℤ) < offset + buf.length := by
  have hsum := toSizeT_of_lt (i := offset + buf.length) (by omega) hrep
  constructor
  · rintro ⟨n, hn⟩
    by_contra hle
    refine (updateBlock_returns (P := fun r => r ≠ -efbig) (by decide) (by decide) (by decide)
      (by decide) p (fun hbig => ?_)).run hn rfl
    rw [Option.getD_some] at hbig
    omega
  · intro hbig
    refine ⟨0, ?_⟩
    unfold updateBlock
    rw [Option.getD_some, if_pos (by omega)]
    rfl

/-- A write that does not fit a file is refused by `write_data` before it asks for
anything. -/
theorem writeData_refused_iff {buf : Bytes} (hd : buf ≠ []) (h0 : 0 ≤ offset)
    (hrep : offset + buf.length < 2 ^ 64) :
    ((writeData p buf offset).run serve env s).1 = some (-1)
        ∧ (writeData p buf offset).events serve env s = []
      ↔ (maxFileLen : ℤ) < offset + buf.length := by
  have hsum := toSizeT_of_lt (i := offset + buf.length) (by omega) hrep
  constructor
  · rintro ⟨-, hev⟩
    by_contra hle
    rw [writeData_eq (by omega), updateBlock_write hd h0 (Int.not_lt.mp hle)] at hev
    cases hev
  · intro hbig
    rw [writeData_refused hrep hbig]
    exact ⟨rfl, rfl⟩

/-- Where nothing fails, a write returns its length. -/
theorem run_writeData_length {buf : Bytes} (hd : buf ≠ []) (h0 : 0 ≤ offset)
    (hlen : buf.length < 2 ^ 31) (hmax : offset + buf.length ≤ maxFileLen)
    (henv : ∀ n, (env n).FaultFree) {stat : CbfuseStat}
    (hstat : s.stats.val p = some (.packed stat)) :
    ((writeData p buf offset).run serve env s).1 = some (buf.length : ℤ) := by
  have hlim : (maxFileLen : ℤ) < 2 ^ 64 := by decide
  obtain ⟨cas, hs⟩ := Store.statOf_of_val hstat
  have hwp : (writeData p buf offset).wp serve Choice.FaultFree (fun _ => True)
      (fun r _ => r = dataDone (toInt buf.length)) s := by
    refine wp_writeData trivial hd h0 (by omega) (fun hbig => absurd hmax (by omega))
      (fun _ fresh => ⟨trivial, fun _ => rfl, fun _ => ⟨fun e he => ?_,
        fun _ _ _ _ => ⟨trivial, rfl⟩⟩⟩)
    cases hs.symm.trans he
  obtain ⟨r, s', hrun, hr⟩ := Prog.wp_run hwp henv
  rw [hrun, hr, dataDone_toInt hlen]

/-- Where nothing fails, a read returns the number of the bytes it has. -/
theorem run_readData_length {b : Bytes} {nbuf : ℕ} (h0 : 0 ≤ offset) (hoff : offset < 2 ^ 63)
    (hlen : nbuf < 2 ^ 31) (hb : s.blocks.val p = some b) (hblock : b.length < 2 ^ 63)
    (henv : ∀ n, (env n).FaultFree) {stat : CbfuseStat}
    (hstat : s.stats.val p = some (.packed stat)) :
    let bytes := (b.drop offset.toNat).take nbuf
    ((readData p nbuf offset).run serve env s).1 = some ((bytes.length : ℤ), bytes) := by
  intro bytes
  obtain ⟨cas, hst⟩ := Store.statOf_of_val hstat
  have hle : bytes.length ≤ nbuf := List.length_take_le _ _
  have hwp : (readData p nbuf offset).wp serve Choice.FaultFree (fun _ => True)
      (fun r _ => r = ((bytes.length : ℤ), bytes)) s := by
    refine wp_readData trivial h0 hoff (by omega) (by rw [Store.bytesOf_of_val hb]; omega)
      (fun hnone => ?_) (fun b' hb' hend => ?_)
      (fun b' hb' _ => ⟨fun e he => ?_, fun _ _ _ _ => ⟨trivial, ?_⟩⟩)
    · cases hb.symm.trans hnone
    · cases hb.symm.trans hb'
      have hnil : bytes = [] := by
        show (b.drop offset.toNat).take nbuf = []
        rw [List.drop_of_length_le hend, List.take_nil]
      rw [hnil]
      rfl
    · cases hst.symm.trans he
    · cases hb.symm.trans hb'
      show (dataDone (toInt bytes.length), bytes) = _
      rw [dataDone_toInt (by omega)]
  obtain ⟨r, s', hrun, hr⟩ := Prog.wp_run hwp henv
  rw [hrun, hr]

variable (h0 : 0 ≤ offset) (hoff : offset < 2 ^ 63)
include h0 hoff

theorem writesExactly {buf : Bytes} (h1 : 1 ≤ buf.length) (hmax : buf.length ≤ maxDocLen)
    (env : ℕ → Choice) : WritesExactly p buf offset env s := by
  have hdoc := maxDocLen_lt
  have hd : buf ≠ [] := List.ne_nil_of_length_pos h1
  have hrep : offset + buf.length < 2 ^ 64 := by omega
  exact {
    sum := toSizeT_of_lt (by omega) hrep
    efbig := run_updateBlock_efbig h0 hrep
    refused := writeData_refused_iff hd h0 hrep
    inBuffers := (writeData_inBuffer hd h0 hrep).events env s
    dies := (writeData_diesOnly hd h0 hrep).run
    result := fun r hr => (writeData_returns_length p (by omega)).run hr
    succeeds := fun hle henv ⟨_, hstat⟩ =>
      run_writeData_length hd h0 (by omega) hle henv hstat }

theorem readsExactly (hs : ∀ b, s.blocks.val p = some b → b.length ≤ maxDocLen) {nbuf : ℕ}
    (hmax : nbuf ≤ maxDocLen) (env : ℕ → Choice) : ReadsExactly p nbuf offset env s := by
  have hdoc := maxDocLen_lt
  have hrep : offset + nbuf < 2 ^ 64 := by omega
  refine ⟨toSizeT_of_lt (by omega) hrep, fun b hb hlt => ?_, ?_, ?_, fun r hr => ?_, ?_⟩
  · have hlen := hs b hb
    have hrest := toSizeT_of_lt (i := b.length - offset) (by omega) (by omega)
    have htrim := @trimmed_eq b.length nbuf offset h0 hrep hlt (by omega)
    exact ⟨hrest, by omega, by omega⟩
  · exact (readData_inBuffer h0 hrep).events env s
  · exact (readData_diesOnly h0 hrep).run
  · refine ((readData_returns_nonneg p nbuf offset).run hr).imp_right (fun hnonneg => ?_)
    refine ⟨hnonneg, ?_⟩
    rcases (readData_isCount p nbuf offset).run hr with hcode | hcount
    · exact Int.le_trans hcode (Int.natCast_nonneg _)
    · exact hcount.2
  · rintro b hb henv ⟨stat, hstat⟩
    have hlen := hs b hb
    exact run_readData_length h0 hoff (by omega) hb (by omega) henv hstat

/-- **The arithmetic of reads and writes is exact**, for every offset an
`off_t` can hold, every length a call is given, every block that one of them
can have made and whatever becomes of the requests. -/
theorem offsets_exact (hs : ∀ b, s.blocks.val p = some b → b.length ≤ maxDocLen) {nbuf : ℕ}
    (h1 : 1 ≤ nbuf) (hmax : nbuf ≤ maxDocLen) (env : ℕ → Choice) :
    (∀ buf : Buf nbuf, WritesExactly p buf.1 offset env s) ∧ ReadsExactly p nbuf offset env s := by
  refine ⟨fun buf => ?_, readsExactly h0 hoff hs hmax env⟩
  exact writesExactly h0 hoff (by rw [buf.2]; exact h1) (by rw [buf.2]; exact hmax) env

end Exact

/-- Two bytes of a file of three are written and read, from the second on. -/
theorem offsets_exact_two :
    let env : ℕ → Choice := fun _ => .good ⟨0, 0⟩
    (∀ buf : Buf 2, WritesExactly ['/', 'f'] buf.1 1 env threeBytes)
      ∧ ReadsExactly ['/', 'f'] 2 1 env threeBytes := by
  intro env
  refine @offsets_exact _ threeBytes ['/', 'f'] 1 (by decide) (by decide) (fun b hb => ?_) 2
    (by decide) (by decide) env
  cases (show some [1, 2, 3] = some b from hb)
  decide

/-- Past the limit `write_data` answers `-1` and not `-EFBIG`. Within it, a
write and a read return `-1` where there is no stat, though nothing fails. -/
theorem write_answers_neg_one :
    let env : ℕ → Choice := fun _ => .good ⟨0, 0⟩
    let s : Store (Option Json) := Store.empty.putBlock ['/', 'f'] [1, 2, 3]
    (∀ n, (env n).FaultFree)
      ∧ ((writeData ['/', 'f'] [9] maxFileLen).run serve env s).1 = some (-1)
      ∧ ¬ (((writeData ['/', 'f'] [9] maxFileLen).run serve env s).1 = some (-efbig)
        ↔ (maxFileLen : ℤ) < maxFileLen + 1)
      ∧ ((writeData ['/', 'f'] [9] 3).run serve env s).1 = some (-1)
      ∧ ((readData ['/', 'f'] 1 0).run serve env s).1 = some (-1, [1]) := by
  intro env s
  have hbig : ((writeData ['/', 'f'] [9] maxFileLen).run serve env s).1 = some (-1) := by
    rw [writeData_refused (by decide) (by decide)]
    rfl
  refine ⟨fun _ => Choice.faultFree_good _, hbig, fun h => ?_, by decide, by decide⟩
  have hanswer := h.mpr (by decide)
  rw [hbig] at hanswer
  exact absurd hanswer (by decide)

end Cbfuse
