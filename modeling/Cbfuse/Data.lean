import Cbfuse.Buffer
import Cbfuse.Interleave
import Cbfuse.Stats

/-!
# The bytes of a file (`data.c`)

A file has at most one block, the document of the blocks collection under
its path, and a write is a read of the whole block, a change in memory and
a store of the whole block. `updateBlock` does this for writes and for
truncation alike, and what it does to memory on the way is part of it: the
buffer a write ends in is fresh memory wherever nothing was copied, and
the length that is stored with a buffer is recorded apart from it.

So a buffer is here what `malloc` returned – nothing, or its bytes – and
its recorded length is a number of its own. Copying to or from `NULL`, or
writing outside a buffer, kills the process. Reading past the end of a
buffer may kill it or not (`Req.overread`): if there is memory behind the
buffer, the program goes on with whatever is there.
-/

namespace Cbfuse

variable {Text : Type}

/-! ## Memory -/

/-- A read of `n` bytes from position `off` of a buffer. -/
def load (src : Option Bytes) (off : ℤ) (n : ℕ) : Op Text Bytes :=
  if n = 0 then return []
  else
    match src with
    | none => Prog.crash
    | some b =>
      if off < 0 then Prog.crash
      else
        let got := (b.drop off.toNat).take n
        if got.length = n then return got
        else do
          match ← overread (n - got.length) with
          | none => Prog.crash
          | some past => return got ++ past.1

/-- `memcpy` of the bytes `src` to position `off` of a buffer: the
contents of the buffer afterwards. -/
def memcpy (dst : Option Bytes) (off : ℤ) (src : Bytes) : Op Text Bytes :=
  match dst with
  | none => Prog.crash
  | some b =>
    if 0 ≤ off ∧ off.toNat + src.length ≤ b.length then
      return Buffer.splice b off.toNat src
    else Prog.crash

/-- `memdupm`: a buffer of `m` bytes, the first `n` copied from `src`. -/
def memdupm (src : Option Bytes) (n m : ℕ) : Op Text (Option Bytes) := do
  match ← malloc m with
  | none => return none
  | some dest =>
    let bytes ← load src 0 n
    let copy ← memcpy (some dest.1) 0 bytes
    return some copy

/-! ## The block -/

/-- `get_block`: the result code, and the result it leaves. Every failing
status is reported as `-ENOENT`. -/
def getBlock (pkey : CString) : Op Text (ℤ × SyncGetResult Bytes) := do
  let resp ← askBlocks (.get pkey)
  let result := syncGetCallback List.length resp
  if resp.rc ≠ none then
    return (-eio, result)
  if result.status ≠ none then
    return (-enoent, result)
  return (0, result)

/-- The store at the end of `update_block`: the command takes the recorded
number of bytes from the buffer. -/
def storeBlock (pkey : CString) (value : Option Bytes) (nvalue : ℕ) : Op Text ℤ := do
  let bytes ← load value 0 nvalue
  let resp ← askBlocks (.store .upsert pkey bytes 0)
  if resp.rc ≠ none then
    return -eio
  if resp.status = none then
    return 0
  if resp.status = some .notFound then
    return -enoent
  return -eio

/-- `isNotTruncate`: there is a buffer, and it is not empty. -/
def isNotTruncate : Option Bytes → Bool
  | some (_ :: _) => true
  | _ => false

/-- The copy of the data into the buffer, and the store. -/
def copyAndStore (pkey : CString) (data : Bytes) (offset : ℤ) (value : Option Bytes)
    (nvalue newBlockSize : ℕ) : Op Text (ℤ × ℕ) := do
  let bytes ← memcpy value offset data
  let fresult ← storeBlock pkey (some bytes) nvalue
  return (fresult, newBlockSize)

/-- The second half of `update_block`, from the point where there is a
buffer: a write makes room if it has to and copies its data, a truncation
only changes the recorded length. The test after `memdupm` is on the old
buffer, not on the new one. -/
def modifyBlock (pkey : CString) (buf : Option Bytes) (offset : ℤ) (nupdate : ℕ)
    (value : Option Bytes) (nvalue newBlockSize : ℕ) : Op Text (ℤ × ℕ) :=
  if isNotTruncate buf then
    if nupdate > nvalue then do
      let newData ← memdupm value nvalue nupdate
      if value = none then
        return (-enomem, newBlockSize)
      copyAndStore pkey (buf.getD []) offset newData nupdate nupdate
    else
      copyAndStore pkey (buf.getD []) offset value nvalue newBlockSize
  else do
    let fresult ← storeBlock pkey value (toSizeT offset)
    return (fresult, newBlockSize)

/-- `update_block`: the result code, and the new length of the block where
it changed – what `*new_block_size` holds afterwards, having been zero.
The buffer comes with its length `nbuf`, and `NULL` with zero. -/
def updateBlock (pkey : CString) (buf : Option Bytes) (offset : ℤ) : Op Text (ℤ × ℕ) := do
  let nbuf := (buf.getD []).length
  let nupdate := toSizeT (offset + nbuf)
  if nupdate > maxFileLen then
    return (-efbig, 0)
  let (fresult, getResult) ← getBlock pkey
  if fresult = -enoent then
    -- no block was found: nothing to truncate, or a new one to fill
    if isNotTruncate buf then
      match ← malloc nupdate with
      | none => return (-enomem, 0)
      | some value => modifyBlock pkey buf offset nupdate (some value.1) nupdate nupdate
    else
      return (0, 0)
  else if fresult ≠ 0 then
    return (fresult, 0)
  else
    modifyBlock pkey buf offset nupdate getResult.value getResult.nvalue 0

/-! ## The four calls -/

/-- The end of `read_data` and `write_data`: every error is `-1`. -/
def dataDone (fresult : ℤ) : ℤ := if fresult < 0 then -1 else fresult

/-- `read_data`: the result, and the bytes copied into the caller's
buffer. -/
def readData (pkey : CString) (nbuf : ℕ) (offset : ℤ) : Op Text (ℤ × Bytes) := do
  let (fresult, getResult) ← getBlock pkey
  if fresult ≠ 0 then
    return (dataDone fresult, [])
  let maxSize := getResult.nvalue
  if offset ≥ toOffT maxSize then
    return (dataDone 0, [])
  let nbuf := if toSizeT (offset + nbuf) > maxSize then toSizeT (maxSize - offset) else nbuf
  let bytes ← load getResult.value offset nbuf
  let fresult ← updateStatAtime pkey
  if fresult ≠ 0 then
    return (dataDone fresult, bytes)
  return (dataDone (toInt nbuf), bytes)

/-- `write_data` -/
def writeData (pkey : CString) (buf : Bytes) (offset : ℤ) : Op Text ℤ := do
  if toSizeT (offset + buf.length) > maxFileLen then
    return dataDone (-efbig)
  let (fresult, newBlockSize) ← updateBlock pkey (some buf) offset
  if fresult ≠ 0 then
    return dataDone fresult
  if newBlockSize ≠ 0 then
    let fresult ← updateStatSize pkey newBlockSize
    if fresult ≠ 0 then
      return dataDone fresult
    return dataDone (toInt buf.length)
  else
    return dataDone (toInt buf.length)

/-- `remove_data` -/
def removeData (pkey : CString) : Op Text ℤ := do
  let resp ← askBlocks (.remove pkey)
  return checkResult (-enoent) resp

/-- `truncate_data`: truncating to nothing removes the block, anything
else is an update without data. -/
def truncateData (pkey : CString) (offset : ℤ) : Op Text ℤ := do
  let fresult ← (if offset = 0 then removeData pkey
    else Prod.fst <$> updateBlock pkey none offset)
  if fresult ≠ 0 then
    return fresult
  updateStatSize pkey (toSizeT offset)

/-! ## Copies that stay within their buffers -/

theorem load_of_le {b : Bytes} {off : ℤ} {n : ℕ} (h0 : 0 ≤ off)
    (h : off.toNat + n ≤ b.length) :
    (load (some b) off n : Op Text Bytes) = .ret ((b.drop off.toNat).take n) := by
  have hlen : ((b.drop off.toNat).take n).length = n := by
    rw [List.length_take, List.length_drop]
    omega
  unfold load
  by_cases hn : n = 0
  · rw [if_pos hn, hn, List.take_zero]
    rfl
  · rw [if_neg hn]
    dsimp only
    rw [if_neg (by omega), if_pos hlen]
    rfl

theorem load_nothing (src : Option Bytes) (off : ℤ) :
    (load src off 0 : Op Text Bytes) = .ret [] := rfl

theorem load_null {off : ℤ} {n : ℕ} (hn : n ≠ 0) :
    (load none off n : Op Text Bytes) = .crash := by
  unfold load
  rw [if_neg hn]

theorem load_all (b : Bytes) : (load (some b) 0 b.length : Op Text Bytes) = .ret b := by
  rw [load_of_le (Int.le_refl 0) (by simp)]
  simp

theorem memcpy_of_le {b src : Bytes} {off : ℤ} (h0 : 0 ≤ off)
    (h : off.toNat + src.length ≤ b.length) :
    (memcpy (some b) off src : Op Text Bytes) = .ret (Buffer.splice b off.toNat src) := by
  unfold memcpy
  dsimp only
  rw [if_pos ⟨h0, h⟩]
  rfl

/-- A buffer grown by `memdupm` starts with the old bytes. -/
theorem memdupm_eq {b : Bytes} {m : ℕ} (h : b.length ≤ m) :
    (memdupm (some b) b.length m : Op Text (Option Bytes))
      = .call (.malloc m) (fun dest =>
          .ret (dest.map (fun dest => Buffer.splice dest.1 0 b))) := by
  unfold memdupm malloc
  rw [Prog.call_bind]
  congr 1
  funext dest
  rw [Prog.ret_bind]
  cases dest with
  | none => rfl
  | some dest =>
    dsimp only
    rw [load_all, Prog.ret_bind, memcpy_of_le (Int.le_refl 0) (by rw [dest.2]; simpa using h)]
    rfl

/-- What `get_block` returns on a reply. -/
def blockReply (resp : Response Bytes) : ℤ × SyncGetResult Bytes :=
  (checkResult (-enoent) resp, syncGetCallback List.length resp)

theorem syncGetCallback_status {V : Type} (length : V → ℕ) (resp : Response V) :
    (syncGetCallback length resp).status = resp.status := by
  unfold syncGetCallback
  split <;> simp_all

/-- `get_block` makes one request and decides on its reply. -/
theorem getBlock_eq (pkey : CString) :
    (getBlock pkey : Op Text _)
      = .call (.blocks (.get pkey)) (fun resp => .ret (blockReply resp)) := by
  unfold getBlock askBlocks
  rw [Prog.call_bind]
  congr 1
  funext resp
  rw [Prog.ret_bind]
  unfold blockReply checkResult
  dsimp only
  rw [syncGetCallback_status]
  split
  · rfl
  · split <;> rfl

/-- A read from the start of a buffer that goes past its end gets the
buffer and what lies behind it. -/
theorem load_past {b : Bytes} {n : ℕ} (h : b.length < n) :
    (load (some b) 0 n : Op Text Bytes)
      = .call (.overread (n - b.length)) (fun past =>
          match past with
          | none => .crash
          | some past => .ret (b ++ past.1)) := by
  have htake : (b.drop (0 : ℤ).toNat).take n = b := by
    rw [Int.toNat_zero, List.drop_zero, List.take_of_length_le (Nat.le_of_lt h)]
  unfold load
  rw [if_neg (by omega)]
  dsimp only
  rw [if_neg (by omega), htake, if_neg (by omega)]
  unfold overread
  rw [Prog.call_bind]
  congr 1
  funext past
  cases past <;> rfl

/-- The result of the final store of `update_block`. -/
def upsertReply (resp : Response Bytes) : ℤ :=
  if resp.rc ≠ none then -eio
  else if resp.status = none then 0
  else if resp.status = some .notFound then -enoent
  else -eio

/-- The store succeeded, or the result is an error. -/
theorem upsertReply_cases (resp : Response Bytes) :
    (upsertReply resp = 0 ∧ resp.rc = none ∧ resp.status = none)
      ∨ (upsertReply resp < 0 ∧ ¬ (resp.rc = none ∧ resp.status = none)) := by
  unfold upsertReply
  split
  · next hrc => exact .inr ⟨by decide, fun h => hrc h.1⟩
  · next hrc =>
    split
    · next hst => exact .inl ⟨rfl, not_not.mp hrc, hst⟩
    · next hst =>
      split
      · exact .inr ⟨by decide, fun h => hst h.2⟩
      · exact .inr ⟨by decide, fun h => hst h.2⟩

/-- What is loaded is stored with one request. -/
theorem storeBlock_eq (pkey : CString) (value : Option Bytes) (n : ℕ) :
    (storeBlock pkey value n : Op Text ℤ)
      = load value 0 n >>= fun bytes =>
        .call (.blocks (.store .upsert pkey bytes 0)) (fun resp => .ret (upsertReply resp)) := by
  unfold storeBlock askBlocks
  congr 1
  funext bytes
  rw [Prog.call_bind]
  congr 1
  funext resp
  rw [Prog.ret_bind]
  unfold upsertReply
  split
  · rfl
  · split
    · rfl
    · split <;> rfl

/-- Storing the first bytes of a buffer is one request. -/
theorem storeBlock_le (pkey : CString) {b : Bytes} {n : ℕ} (h : n ≤ b.length) :
    (storeBlock pkey (some b) n : Op Text ℤ)
      = .call (.blocks (.store .upsert pkey (b.take n) 0))
          (fun resp => .ret (upsertReply resp)) := by
  rw [storeBlock_eq, load_of_le (Int.le_refl 0) (by omega), Int.toNat_zero, List.drop_zero,
    Prog.ret_bind]

/-- Storing more than a buffer holds looks at what lies behind it first. -/
theorem storeBlock_past (pkey : CString) {b : Bytes} {n : ℕ} (h : b.length < n) :
    (storeBlock pkey (some b) n : Op Text ℤ)
      = .call (.overread (n - b.length)) (fun past =>
          match past with
          | none => .crash
          | some past => .call (.blocks (.store .upsert pkey (b ++ past.1) 0))
              (fun resp => .ret (upsertReply resp))) := by
  rw [storeBlock_eq, load_past h, Prog.call_bind]
  congr 1
  funext past
  cases past <;> rfl

/-- Storing a whole buffer is one request. -/
theorem storeBlock_all (pkey : CString) (b : Bytes) :
    (storeBlock pkey (some b) b.length : Op Text ℤ)
      = .call (.blocks (.store .upsert pkey b 0)) (fun resp => .ret (upsertReply resp)) := by
  rw [storeBlock_le pkey (Nat.le_refl _), List.take_length]

/-- Copying into a buffer with room and storing it is one request. -/
theorem copyAndStore_eq {pkey : CString} {data b : Bytes} {offset : ℤ} {nvalue n : ℕ}
    (hn : b.length = nvalue) (h0 : 0 ≤ offset) (h : offset.toNat + data.length ≤ nvalue) :
    (copyAndStore pkey data offset (some b) nvalue n : Op Text _)
      = .call (.blocks (.store .upsert pkey (Buffer.splice b offset.toNat data) 0))
          (fun resp => .ret (upsertReply resp, n)) := by
  subst hn
  have hlen : (Buffer.splice b offset.toNat data).length = b.length := Buffer.length_splice h
  unfold copyAndStore
  rw [memcpy_of_le h0 h, Prog.ret_bind, ← hlen, storeBlock_all]
  rfl

/-- Every error is `-1` to the caller. -/
theorem dataDone_of_neg {r : ℤ} (h : r < 0) : dataDone r = -1 := by
  rw [dataDone, if_pos h]

/-- The caller sees `-1` for errors only. -/
theorem dataDone_eq_neg_one {r : ℤ} : dataDone r = -1 ↔ r < 0 := by
  refine ⟨fun h => ?_, dataDone_of_neg⟩
  by_contra hle
  rw [dataDone, if_neg hle] at h
  omega

/-- A length that an `int` can tell is returned as it is. -/
theorem dataDone_toInt {n : ℕ} (h : n < 2 ^ 31) : dataDone (toInt n) = n := by
  rw [toInt_of_lt (by omega) (by omega), dataDone, if_neg (by omega)]

/-- An `int` can tell the length of every document. -/
theorem maxDocLen_lt : maxDocLen < 2 ^ 31 := by decide

/-! ## A write, request by request

Within the limit of the file length a write is a fetch of the block, an
allocation where the block has to be made or grown, and a store of the
whole buffer. -/

section Write

variable {pkey : CString} {data : Bytes} {offset : ℤ}

theorem isNotTruncate_some (hd : data ≠ []) : isNotTruncate (some data) = true := by
  cases data with
  | nil => exact absurd rfl hd
  | cons a l => rfl

/-- The end of the range as the code computes it. -/
theorem toSizeT_range (h0 : 0 ≤ offset) (hmax : offset + data.length ≤ maxFileLen) :
    toSizeT (offset + data.length) = offset.toNat + data.length := by
  have hlim : (maxFileLen : ℤ) < 2 ^ 64 := by decide
  have h := toSizeT_of_lt (i := offset + data.length) (by omega) (by omega)
  omega

/-- **The second half of a write to a buffer there is**: where the range
fits it is copied and the buffer stored, and otherwise a longer buffer is
allocated first. Without that buffer the copy goes to `NULL`. -/
theorem modifyBlock_write {b : Bytes} {nvalue n₀ : ℕ} (hn : b.length = nvalue)
    (hd : data ≠ []) (h0 : 0 ≤ offset) :
    (modifyBlock pkey (some data) offset (offset.toNat + data.length) (some b) nvalue n₀
        : Op Text _)
      = if b.length < offset.toNat + data.length then
          .call (.malloc (offset.toNat + data.length)) (fun dest =>
            match dest with
            | none => .crash
            | some fresh =>
              .call (.blocks (.store .upsert pkey
                  (Buffer.splice (Buffer.splice fresh.1 0 b) offset.toNat data) 0))
                (fun resp => .ret (upsertReply resp, offset.toNat + data.length)))
        else
          .call (.blocks (.store .upsert pkey (Buffer.splice b offset.toNat data) 0))
            (fun resp => .ret (upsertReply resp, n₀)) := by
  subst hn
  unfold modifyBlock
  rw [if_pos (isNotTruncate_some hd)]
  split
  · next hlt =>
    rw [memdupm_eq (Nat.le_of_lt hlt), Prog.call_bind]
    congr 1
    funext dest
    rw [Prog.ret_bind, if_neg (Option.some_ne_none b)]
    cases dest with
    | none => rfl
    | some fresh =>
      have hlen : (Buffer.splice fresh.1 0 b).length = offset.toNat + data.length := by
        rw [Buffer.length_splice (by rw [fresh.2]; omega), fresh.2]
      exact copyAndStore_eq hlen h0 (Nat.le_refl _)
  · next hle =>
    rw [Option.getD_some]
    exact copyAndStore_eq rfl h0 (Nat.le_of_not_lt hle)

/-- **The second half of a write without a buffer to start from.** Where the
range fits the length recorded for it, the data is copied to `NULL`. Otherwise
the bytes to keep are copied from there, unless there are none or there is no
memory for the longer buffer either; and then the test is right. -/
theorem modifyBlock_null (hd : data ≠ []) {nupdate nvalue n₀ : ℕ} :
    (modifyBlock pkey (some data) offset nupdate none nvalue n₀ : Op Text _)
      = if nvalue < nupdate then
          .call (.malloc nupdate) (fun dest =>
            match dest with
            | none => .ret (-enomem, n₀)
            | some _ => if nvalue = 0 then .ret (-enomem, n₀) else .crash)
        else .crash := by
  unfold modifyBlock
  rw [if_pos (isNotTruncate_some hd)]
  refine ite_congr rfl (fun _ => ?_) (fun _ => rfl)
  unfold memdupm malloc
  rw [Prog.call_bind, Prog.call_bind]
  congr 1
  funext dest
  rw [Prog.ret_bind]
  cases dest with
  | none => rfl
  | some dest =>
    dsimp only
    by_cases hz : nvalue = 0
    · subst hz
      rw [load_nothing, Prog.ret_bind, memcpy_of_le (Int.le_refl 0) (Nat.zero_le _)]
      rfl
    · rw [load_null hz, if_neg hz]
      rfl

/-- Without a buffer to start from nothing is stored: the write returns or dies
first. -/
theorem modifyBlock_null_only {P : Req Text → Prop} (hP : ∀ n, P (.malloc n)) (hd : data ≠ [])
    {nupdate nvalue n₀ : ℕ} :
    (modifyBlock pkey (some data) offset nupdate none nvalue n₀ : Op Text _).Only P := by
  rw [modifyBlock_null hd]
  split
  · refine ⟨hP _, fun dest => ?_⟩
    cases dest with
    | none => trivial
    | some dest =>
      dsimp only
      split <;> trivial
  · trivial

/-- The request is for memory. -/
def Req.OnMemory : Req Text → Prop
  | .malloc _ => True
  | .overread _ => True
  | _ => False

/-- The request is for memory, or stores the block of `pkey`. -/
def Req.StoresBlock (pkey : CString) : Req Text → Prop
  | .blocks (.store _ k _ _) => k = pkey
  | q => q.OnMemory

theorem Req.OnMemory.storesBlock {q : Req Text} (h : q.OnMemory) (pkey : CString) :
    q.StoresBlock pkey := by
  cases q with
  | malloc n => trivial
  | overread n => trivial
  | _ => exact h.elim

theorem load_only (src : Option Bytes) (off : ℤ) (n : ℕ) :
    (load src off n : Op Text Bytes).Only Req.OnMemory := by
  unfold load
  split
  · trivial
  · split
    · trivial
    · split
      · trivial
      · dsimp only
        split
        · trivial
        · refine ⟨trivial, fun past => ?_⟩
          cases past <;> trivial

theorem memcpy_only (dst : Option Bytes) (off : ℤ) (src : Bytes) :
    (memcpy dst off src : Op Text Bytes).Only Req.OnMemory := by
  unfold memcpy
  split
  · trivial
  · split <;> trivial

theorem memdupm_only (src : Option Bytes) (n m : ℕ) :
    (memdupm src n m : Op Text (Option Bytes)).Only Req.OnMemory := by
  refine Prog.only_bind ⟨trivial, fun _ => trivial⟩ (fun dest => ?_)
  cases dest with
  | none => trivial
  | some dest =>
    exact Prog.only_bind (load_only _ _ _)
      (fun _ => Prog.only_bind (memcpy_only _ _ _) (fun _ => trivial))

theorem storeBlock_only (pkey : CString) (value : Option Bytes) (nvalue : ℕ) :
    (storeBlock pkey value nvalue : Op Text ℤ).Only (Req.StoresBlock pkey) := by
  refine Prog.only_bind ((load_only _ _ _).mono (fun _ h => h.storesBlock pkey))
    (fun bytes => Prog.only_bind ⟨rfl, fun _ => trivial⟩ (fun resp => ?_))
  split
  · trivial
  · split
    · trivial
    · split <;> trivial

theorem copyAndStore_only (pkey : CString) (data : Bytes) (offset : ℤ) (value : Option Bytes)
    (nvalue n : ℕ) :
    (copyAndStore pkey data offset value nvalue n : Op Text _).Only (Req.StoresBlock pkey) :=
  Prog.only_bind ((memcpy_only _ _ _).mono (fun _ h => h.storesBlock pkey))
    (fun _ => Prog.only_bind (storeBlock_only _ _ _) (fun _ => trivial))

/-- The second half of `update_block` fetches nothing. -/
theorem modifyBlock_only (pkey : CString) (buf : Option Bytes) (offset : ℤ) (nupdate : ℕ)
    (value : Option Bytes) (nvalue n₀ : ℕ) :
    (modifyBlock pkey buf offset nupdate value nvalue n₀ : Op Text _).Only
      (Req.StoresBlock pkey) := by
  unfold modifyBlock
  split
  · split
    · refine Prog.only_bind ((memdupm_only _ _ _).mono (fun _ h => h.storesBlock pkey))
        (fun newData => ?_)
      split
      · trivial
      · exact copyAndStore_only _ _ _ _ _ _
    · exact copyAndStore_only _ _ _ _ _ _
  · exact Prog.only_bind (storeBlock_only _ _ _) (fun _ => trivial)

/-- The end of a write that starts a new block: a buffer is allocated, the
data copied into it, and the buffer stored. -/
def newBlock (pkey : CString) (data : Bytes) (offset : ℤ) (nupdate : ℕ) : Op Text (ℤ × ℕ) :=
  .call (.malloc nupdate) (fun dest =>
    match dest with
    | none => .ret (-enomem, 0)
    | some fresh =>
      .call (.blocks (.store .upsert pkey (Buffer.splice fresh.1 offset.toNat data) 0))
        (fun resp => .ret (upsertReply resp, nupdate)))

/-- **A write's block update, after the reply to its fetch.** A failing
status, whichever it is, starts a new block. -/
def updateWrite (pkey : CString) (data : Bytes) (offset : ℤ) (resp : Response Bytes) :
    Op Text (ℤ × ℕ) :=
  let nupdate := offset.toNat + data.length
  if resp.rc ≠ none then .ret (-eio, 0)
  else if resp.status ≠ none then newBlock pkey data offset nupdate
  else
    let result := syncGetCallback List.length resp
    modifyBlock pkey (some data) offset nupdate result.value result.nvalue 0

theorem updateBlock_write (hd : data ≠ []) (h0 : 0 ≤ offset)
    (hmax : offset + data.length ≤ maxFileLen) :
    (updateBlock pkey (some data) offset : Op Text _)
      = .call (.blocks (.get pkey)) (updateWrite pkey data offset) := by
  have hn := toSizeT_range h0 hmax
  unfold updateBlock
  simp only [Option.getD_some]
  rw [hn, if_neg (by omega), getBlock_eq, Prog.call_bind]
  congr 1
  funext resp
  rw [Prog.ret_bind]
  unfold updateWrite blockReply checkResult
  dsimp only
  split
  · rfl
  · split
    · rw [if_pos rfl, if_pos (isNotTruncate_some hd)]
      unfold malloc newBlock
      rw [Prog.call_bind]
      congr 1
      funext dest
      rw [Prog.ret_bind]
      cases dest with
      | none => rfl
      | some fresh =>
        dsimp only
        rw [modifyBlock_write fresh.2 hd h0, if_neg (by rw [fresh.2]; omega)]
    · rfl

/-- Without a buffer to start from an update fails or dies, whatever its
allocation finds. -/
theorem modifyBlock_null_follows {β γ : Type} {P : Protocol (Req Text) Req.Reply β γ}
    {f : ℤ × ℕ → Op Text β} {g : γ} (hd : data ≠ []) {nupdate nvalue n₀ : ℕ}
    (hallow : ∀ n, P.allow g (.malloc n)) (hnext : ∀ n r, P.next g (.malloc n) r = g)
    (hfail : ∀ n, P.Follows g (f (-enomem, n))) :
    (P.before f).Follows g (modifyBlock pkey (some data) offset nupdate none nvalue n₀) := by
  rw [modifyBlock_null hd]
  split
  · refine ⟨hallow _, fun dest => ?_⟩
    rw [show (P.before f).next g (.malloc nupdate) dest = g from hnext _ _]
    cases dest with
    | none => exact hfail _
    | some dest =>
      dsimp only
      split
      · exact hfail _
      · trivial
  · trivial

/-- **The end of a write**: the size of the stat follows the block where it
grew. -/
def finishWrite (pkey : CString) (nbuf : ℕ) (r : ℤ × ℕ) : Op Text ℤ :=
  if r.1 ≠ 0 then .ret (dataDone r.1)
  else if r.2 ≠ 0 then
    updateStatSize pkey r.2 >>= fun fresult =>
      if fresult ≠ 0 then .ret (dataDone fresult) else .ret (dataDone (toInt nbuf))
  else .ret (dataDone (toInt nbuf))

theorem writeData_eq (hmax : toSizeT (offset + data.length) ≤ maxFileLen) :
    (writeData pkey data offset : Op Text ℤ)
      = updateBlock pkey (some data) offset >>= finishWrite pkey data.length := by
  unfold writeData
  rw [if_neg (Nat.not_lt.mpr hmax)]
  rfl

/-- Past the limit a write does nothing. -/
theorem writeData_refused (hrep : offset + data.length < 2 ^ 64)
    (hbig : (maxFileLen : ℤ) < offset + data.length) :
    (writeData pkey data offset : Op Text ℤ) = .ret (-1) := by
  have hsum := toSizeT_of_lt (i := offset + data.length) (by omega) hrep
  unfold writeData
  rw [if_pos (by omega)]
  rfl

theorem finishWrite_leavesBlocks (pkey : CString) (nbuf : ℕ) (r : ℤ × ℕ) :
    (finishWrite pkey nbuf r : Op Text ℤ).Only Req.LeavesBlocks := by
  unfold finishWrite
  split
  · trivial
  · split
    · refine Prog.only_bind (updateStat_leavesBlocks _ _ _) (fun fresult => ?_)
      split <;> trivial
    · trivial

end Write

/-! ## What an update of a block returns

Its result codes are zero and four errors, one of them for the length alone. -/

section Codes

variable {P : ℤ → Prop} (h0 : P 0) (hio : P (-eio)) (hent : P (-enoent))
include h0 hio hent

theorem checkResult_returns {V : Type} (resp : Response V) : P (checkResult (-enoent) resp) := by
  unfold checkResult
  split
  · exact hio
  · split
    · exact hent
    · exact h0

theorem storeBlock_returns (pkey : CString) (value : Option Bytes) (nvalue : ℕ) :
    (storeBlock pkey value nvalue : Op Text ℤ).Returns P := by
  unfold storeBlock
  refine Prog.returns_bind (Prog.returns_true _) (fun bytes _ resp => ?_)
  show Prog.Returns P (if resp.rc ≠ none then _ else _)
  split
  · exact hio
  · split
    · exact h0
    · split
      · exact hent
      · exact hio

theorem copyAndStore_returns (pkey : CString) (data : Bytes) (offset : ℤ) (value : Option Bytes)
    (nvalue n : ℕ) :
    (copyAndStore pkey data offset value nvalue n : Op Text _).Returns (fun r => P r.1) := by
  unfold copyAndStore
  exact Prog.returns_bind (Prog.returns_true _) (fun bytes _ =>
    Prog.returns_bind (storeBlock_returns h0 hio hent _ _ _) (fun fresult h => h))

theorem modifyBlock_returns (hmem : P (-enomem)) (pkey : CString) (buf : Option Bytes)
    (offset : ℤ) (nupdate : ℕ) (value : Option Bytes) (nvalue n₀ : ℕ) :
    (modifyBlock pkey buf offset nupdate value nvalue n₀ : Op Text _).Returns
      (fun r => P r.1) := by
  unfold modifyBlock
  split
  · split
    · refine Prog.returns_bind (Prog.returns_true _) (fun newData _ => ?_)
      split
      · exact hmem
      · exact copyAndStore_returns h0 hio hent _ _ _ _ _ _
    · exact copyAndStore_returns h0 hio hent _ _ _ _ _ _
  · exact Prog.returns_bind (storeBlock_returns h0 hio hent _ _ _) (fun fresult h => h)

theorem getBlock_returns (pkey : CString) :
    (getBlock pkey : Op Text _).Returns (fun r => P r.1) := by
  rw [getBlock_eq]
  exact fun resp => checkResult_returns h0 hio hent resp

/-- **The result codes of `update_block`.** -/
theorem updateBlock_returns (hmem : P (-enomem)) (pkey : CString) {buf : Option Bytes}
    {offset : ℤ} (hbig : maxFileLen < toSizeT (offset + (buf.getD []).length) → P (-efbig)) :
    (updateBlock pkey buf offset : Op Text _).Returns (fun r => P r.1) := by
  unfold updateBlock
  dsimp only
  split
  · next h => exact hbig h
  · refine Prog.returns_bind (getBlock_returns h0 hio hent pkey) (fun r h => ?_)
    split
    · split
      · intro value
        cases value with
        | none => exact hmem
        | some value => exact modifyBlock_returns h0 hio hent hmem _ _ _ _ _ _ _
      · exact h0
    · split
      · exact h
      · exact modifyBlock_returns h0 hio hent hmem _ _ _ _ _ _ _

end Codes

/-! ## A read, request by request -/

/-- What is left of a read that has copied its bytes: the access time is set,
and decides the result. -/
def finishRead (pkey : CString) (bytes : Bytes) : Op Text (ℤ × Bytes) :=
  updateStatAtime pkey >>= fun fresult =>
    .ret (dataDone (if fresult ≠ 0 then fresult else toInt bytes.length), bytes)

/-- The length of a read, trimmed to the `maxSize` bytes there are. -/
def trimmed (maxSize nbuf : ℕ) (offset : ℤ) : ℕ :=
  if toSizeT (offset + nbuf) > maxSize then toSizeT (maxSize - offset) else nbuf

section Trimmed

variable {maxSize nbuf : ℕ} {offset : ℤ}

/-- Before the end of the buffer there is something left of it, and no more
than the difference says. -/
theorem toSizeT_rest (h0 : 0 ≤ offset) (hoff : offset < toOffT maxSize) :
    0 < toSizeT (maxSize - offset) ∧ offset + toSizeT (maxSize - offset) ≤ maxSize := by
  unfold toSizeT
  unfold toOffT at hoff
  rw [Int.bmod_def] at hoff
  split at hoff <;> omega

/-- **A trimmed read ends within the buffer.** -/
theorem trimmed_le (h0 : 0 ≤ offset) (hrep : offset + nbuf < 2 ^ 64)
    (hoff : offset < toOffT maxSize) : offset + trimmed maxSize nbuf offset ≤ maxSize := by
  have hsum := toSizeT_of_lt (i := offset + nbuf) (by omega) hrep
  unfold trimmed
  split
  · exact (toSizeT_rest h0 hoff).2
  · omega

/-- Only a read of nothing is trimmed to nothing. -/
theorem trimmed_eq_zero (h0 : 0 ≤ offset) (hrep : offset + nbuf < 2 ^ 64)
    (hoff : offset < toOffT maxSize) : trimmed maxSize nbuf offset = 0 ↔ nbuf = 0 := by
  have hsum := toSizeT_of_lt (i := offset + nbuf) (by omega) hrep
  obtain ⟨hpos, hrest⟩ := toSizeT_rest h0 hoff
  unfold trimmed
  split <;> omega

/-- **A read is trimmed to what is left of the buffer.** -/
theorem trimmed_eq (h0 : 0 ≤ offset) (hrep : offset + nbuf < 2 ^ 64) (hlt : offset < maxSize)
    (hmax : maxSize < 2 ^ 63) :
    trimmed maxSize nbuf offset = min nbuf (maxSize - offset.toNat) := by
  have hsum := toSizeT_of_lt (i := offset + nbuf) (by omega) hrep
  have hrest := toSizeT_of_lt (i := maxSize - offset) (by omega) (by omega)
  unfold trimmed
  split <;> omega

end Trimmed

/-- **A read, after the reply to its fetch.** -/
def readReply (pkey : CString) (nbuf : ℕ) (offset : ℤ) (resp : Response Bytes) :
    Op Text (ℤ × Bytes) :=
  let r := blockReply resp
  if r.1 ≠ 0 then .ret (dataDone r.1, [])
  else if offset ≥ toOffT r.2.nvalue then .ret (0, [])
  else
    let n := trimmed r.2.nvalue nbuf offset
    load r.2.value offset n >>= fun bytes =>
      updateStatAtime pkey >>= fun fresult =>
        .ret (dataDone (if fresult ≠ 0 then fresult else toInt n), bytes)

theorem readData_call (pkey : CString) (nbuf : ℕ) (offset : ℤ) :
    (readData pkey nbuf offset : Op Text _)
      = .call (.blocks (.get pkey)) (readReply pkey nbuf offset) := by
  unfold readData
  rw [getBlock_eq, Prog.call_bind]
  congr 1
  funext resp
  rw [Prog.ret_bind]
  unfold readReply
  dsimp only
  split
  · rfl
  · split
    · rfl
    · refine congrArg (load _ _ _ >>= ·) (funext fun bytes => ?_)
      refine congrArg (updateStatAtime pkey >>= ·) (funext fun fresult => ?_)
      split <;> rfl

/-- **A read fetches the block.** It fails where there is none, is done where
it starts at or past the end, and otherwise has as many bytes as there are. -/
theorem readData_eq (pkey : CString) (nbuf : ℕ) (offset : ℤ) :
    ∃ k, (readData pkey nbuf offset : Op Text _) = .call (.blocks (.get pkey)) k
      ∧ k ⟨⟨none, some .notFound, none⟩, true⟩ = .ret (-1, [])
      ∧ ∀ d : Kv.Doc Bytes, 0 ≤ offset → offset + nbuf < 2 ^ 64 → d.value.length < 2 ^ 63 →
        k ⟨⟨none, none, some d⟩, true⟩
          = if (d.value.length : ℤ) ≤ offset then .ret (0, [])
            else finishRead pkey ((d.value.drop offset.toNat).take nbuf) := by
  refine ⟨_, readData_call pkey nbuf offset, rfl, fun d h0 hrep hlen => ?_⟩
  have hmax : toOffT d.value.length = d.value.length := toOffT_of_lt (by omega) (by omega)
  show (if offset ≥ toOffT d.value.length then _ else _) = _
  rw [hmax]
  by_cases hend : (d.value.length : ℤ) ≤ offset
  · rw [if_pos hend, if_pos hend]
  · rw [if_neg hend, if_neg hend]
    -- the length of the read is what is left of the block from the offset on
    have hnbuf : trimmed d.value.length nbuf offset
        = ((d.value.drop offset.toNat).take nbuf).length := by
      rw [trimmed_eq h0 hrep (by omega) hlen, List.length_take, List.length_drop]
    have hbytes : (d.value.drop offset.toNat).take ((d.value.drop offset.toNat).take nbuf).length
        = (d.value.drop offset.toNat).take nbuf := by
      rw [List.length_take, ← List.take_eq_take_min]
    show load (some d.value) offset (trimmed d.value.length nbuf offset) >>= _ = _
    rw [show (blockReply ⟨⟨none, none, some d⟩, true⟩).2.nvalue = d.value.length from rfl,
      hnbuf, load_of_le h0 (by rw [List.length_take, List.length_drop]; omega), hbytes,
      Prog.ret_bind]
    rfl

/-- A read fetches the block, reads memory and updates the stat. -/
theorem readData_only {P : Req Text → Prop} {pkey : CString} (hget : P (.blocks (.get pkey)))
    (hmemory : ∀ q : Req Text, q.OnMemory → P q)
    (hstat : (updateStatAtime pkey : Op Text ℤ).Only P) (nbuf : ℕ) (offset : ℤ) :
    (readData pkey nbuf offset : Op Text _).Only P := by
  rw [readData_call]
  refine ⟨hget, fun resp => ?_⟩
  unfold readReply
  dsimp only
  split
  · trivial
  · split
    · trivial
    · exact Prog.only_bind ((load_only _ _ _).mono hmemory)
        (fun bytes => Prog.only_bind hstat (fun fresult => trivial))

/-! ## What the programs do when nothing fails -/

section FaultFree

variable {I : Store Text → Prop} {s : Store Text} {p : CString} {offset : ℤ}

/-- The bytes of a file: none where it has no block. -/
def Store.bytesOf (s : Store Text) (p : CString) : Bytes := (s.blocks.val p).getD []

theorem Store.bytesOf_eq_nil {s : Store Text} {p : CString} (h : s.blocks.val p = none) :
    s.bytesOf p = [] := by
  rw [bytesOf, h]
  rfl

theorem Store.bytesOf_of_val {s : Store Text} {p : CString} {b : Bytes}
    (h : s.blocks.val p = some b) : s.bytesOf p = b := by
  rw [bytesOf, h]
  rfl

theorem Store.bytesOf_of_none {s : Store Text} {p : CString} (h : s.blocks.docs p = none) :
    s.bytesOf p = [] :=
  bytesOf_eq_nil ((Kv.Collection.val_eq_none _ _).mpr h)

theorem Store.bytesOf_of_docs {s : Store Text} {p : CString} {d : Kv.Doc Bytes}
    (h : s.blocks.docs p = some d) : s.bytesOf p = d.value :=
  bytesOf_of_val (Kv.Collection.val_of_docs h)

/-- The length a write reports: the new one where the block grew, and zero
where it did not. -/
def grownTo (b : Bytes) (nupdate : ℕ) : ℕ := if b.length < nupdate then nupdate else 0

theorem wp_upsert {b : Bytes} {n : ℕ} {post : ℤ × ℕ → Store Text → Prop}
    (h : I (s.putBlock p b) ∧ post (0, n) (s.putBlock p b)) :
    (Prog.call (.blocks (.store .upsert p b 0)) (fun resp => .ret (upsertReply resp, n))
      : Op Text _).wp serve Choice.FaultFree I post s := by
  intro c hc
  rw [hc.serve_blocks]
  simp only [Kv.Collection.serve, Kv.Collection.verdict_upsert_zero]
  exact h

/-- **A write within the limit stores the written buffer**, fresh memory
filling whatever neither the old block nor the data does. -/
theorem wp_updateBlock_write {data : Bytes} {post : ℤ × ℕ → Store Text → Prop} (hI : I s)
    (hd : data ≠ []) (h0 : 0 ≤ offset) (hmax : offset + data.length ≤ maxFileLen)
    (h : ∀ fresh : Buf (offset.toNat + data.length),
      let b := Buffer.write (s.bytesOf p) fresh.1 offset.toNat data
      I (s.putBlock p b)
        ∧ post (0, grownTo (s.bytesOf p) (offset.toNat + data.length)) (s.putBlock p b)) :
    (updateBlock p (some data) offset).wp serve Choice.FaultFree I post s := by
  have hpos : 0 < data.length := List.length_pos_of_ne_nil hd
  rw [updateBlock_write hd h0 hmax]
  unfold Store.bytesOf Kv.Collection.val Buffer.write grownTo at h
  intro c hc
  rw [hc.serve_blocks]
  cases hb : s.blocks.docs p with
  | none =>
    simp only [hb, Option.map_none, Option.getD_none, List.length_nil] at h
    simp only [Kv.Collection.serve, hb]
    refine ⟨hI, fun c' hc' => ?_⟩
    rw [hc'.serve_malloc]
    refine ⟨hI, wp_upsert ?_⟩
    have hf := h (c'.buf _)
    rw [if_pos (by omega), if_pos (by omega)] at hf
    simpa [Buffer.splice] using hf
  | some d =>
    simp only [hb, Option.map_some, Option.getD_some] at h
    simp only [Kv.Collection.serve, hb]
    refine ⟨hI, ?_⟩
    show (modifyBlock p (some data) offset _ (some d.value) d.value.length 0).wp
      serve Choice.FaultFree I post s
    rw [modifyBlock_write rfl hd h0]
    split
    · next hlt =>
      intro c' hc'
      rw [hc'.serve_malloc]
      refine ⟨hI, wp_upsert ?_⟩
      have hf := h (c'.buf _)
      rwa [if_pos hlt, if_pos hlt] at hf
    · next hle =>
      have hf := h (c.buf _)
      rw [if_neg hle, if_neg hle] at hf
      exact wp_upsert hf

/-- A write past the limit changes nothing. -/
theorem wp_updateBlock_efbig {buf : Option Bytes} {post : ℤ × ℕ → Store Text → Prop}
    (hbig : maxFileLen < toSizeT (offset + (buf.getD []).length)) (h : post (-efbig, 0) s) :
    (updateBlock p buf offset).wp serve Choice.FaultFree I post s := by
  unfold updateBlock
  rw [if_pos hbig]
  exact h

/-- **A truncation's block update, after the reply to its fetch.** A failing
status, whichever it is, is nothing to truncate. -/
def updateTruncate (pkey : CString) (offset : ℤ) (resp : Response Bytes) : Op Text (ℤ × ℕ) :=
  if resp.rc ≠ none then .ret (-eio, 0)
  else if resp.status ≠ none then .ret (0, 0)
  else storeBlock pkey (syncGetCallback List.length resp).value offset.toNat >>= fun fresult =>
    .ret (fresult, 0)

theorem updateBlock_truncate (h0 : 0 ≤ offset) (hmax : offset ≤ maxFileLen) :
    (updateBlock p none offset : Op Text _)
      = .call (.blocks (.get p)) (updateTruncate p offset) := by
  have hlim : (maxFileLen : ℤ) < 2 ^ 64 := by decide
  have hn : toSizeT offset = offset.toNat := by
    have h := toSizeT_of_lt (i := offset) (by omega) (by omega)
    omega
  unfold updateBlock
  simp only [Option.getD_none, List.length_nil, Int.ofNat_zero, Int.add_zero]
  rw [hn, if_neg (by omega), getBlock_eq, Prog.call_bind]
  congr 1
  funext resp
  rw [Prog.ret_bind]
  unfold updateTruncate blockReply checkResult
  dsimp only
  split
  · rfl
  · split
    · rfl
    · unfold modifyBlock
      rw [hn]
      rfl

/-- **A truncation within the limit stores the first `offset` bytes** of
what the buffer and the memory behind it hold; without a block there is
nothing to store. -/
theorem wp_updateBlock_truncate {post : ℤ × ℕ → Store Text → Prop} (hI : I s)
    (h0 : 0 ≤ offset) (hmax : offset ≤ maxFileLen)
    (hnone : s.blocks.val p = none → post (0, 0) s)
    (hsome : ∀ b past, s.blocks.val p = some b → past.length = offset.toNat - b.length →
      I (s.putBlock p (b.take offset.toNat ++ past))
        ∧ post (0, 0) (s.putBlock p (b.take offset.toNat ++ past))) :
    (updateBlock p none offset).wp serve Choice.FaultFree I post s := by
  rw [updateBlock_truncate h0 hmax]
  intro c hc
  rw [hc.serve_blocks]
  cases hb : s.blocks.docs p with
  | none =>
    simp only [Kv.Collection.serve, hb]
    exact ⟨hI, hnone ((Kv.Collection.val_eq_none _ _).mpr hb)⟩
  | some d =>
    have hv := Kv.Collection.val_of_docs hb
    simp only [Kv.Collection.serve, hb]
    refine ⟨hI, ?_⟩
    show (storeBlock p (some d.value) offset.toNat >>= fun fresult => .ret (fresult, 0)).wp
      serve Choice.FaultFree I post s
    by_cases hle : offset.toNat ≤ d.value.length
    · have hp := hsome d.value [] hv (by simp; omega)
      rw [List.append_nil] at hp
      rw [storeBlock_le p hle]
      exact wp_upsert hp
    · rw [storeBlock_past p (Nat.lt_of_not_le hle)]
      intro c' hc'
      have hp := hsome d.value (c'.buf (offset.toNat - d.value.length)).1 hv (c'.buf _).2
      rw [List.take_of_length_le (by omega)] at hp
      rw [hc'.serve_overread]
      exact ⟨hI, wp_upsert hp⟩

theorem wp_removeData {post : ℤ → Store Text → Prop} (hI : I s)
    (hsome : s.blocks.val p ≠ none → I (s.eraseBlock p) ∧ post 0 (s.eraseBlock p))
    (hnone : s.blocks.val p = none → post (-enoent) s) :
    (removeData p).wp serve Choice.FaultFree I post s := by
  unfold removeData askBlocks
  rw [Prog.call_bind]
  intro c hc
  rw [hc.serve_blocks]
  cases hb : s.blocks.docs p with
  | none =>
    simp only [Kv.Collection.serve, hb]
    exact ⟨hI, hnone ((Kv.Collection.val_eq_none _ _).mpr hb)⟩
  | some d =>
    simp only [Kv.Collection.serve, hb]
    exact hsome (Kv.Collection.val_ne_none_of_docs hb)

/-- **A write, with nothing failing.** Past the limit it fails and changes
nothing. Within it the block is the written buffer; where the block grew,
the stat gets the new length, and without a stat to put it in the write
fails after all. -/
theorem wp_writeData {data : Bytes} {post : ℤ → Store Text → Prop} (hI : I s) (hd : data ≠ [])
    (h0 : 0 ≤ offset) (hrep : offset + data.length < 2 ^ 64)
    (hbig : maxFileLen < offset + data.length → post (-1) s)
    (hwrite : offset + data.length ≤ maxFileLen →
      ∀ fresh : Buf (offset.toNat + data.length),
        let nupdate := offset.toNat + data.length
        let s₁ := s.putBlock p (Buffer.write (s.bytesOf p) fresh.1 offset.toNat data)
        I s₁
          ∧ (nupdate ≤ (s.bytesOf p).length → post (dataDone (toInt data.length)) s₁)
          ∧ ((s.bytesOf p).length < nupdate →
              (∀ e, s.statOf p = .error e → post (-1) s₁)
              ∧ ∀ stat cas ts, s.statOf p = .ok (stat, cas) →
                  let s₂ := s₁.putStat p (stat.resize nupdate ts)
                  I s₂ ∧ post (dataDone (toInt data.length)) s₂)) :
    (writeData p data offset).wp serve Choice.FaultFree I post s := by
  have hpos : 0 < data.length := List.length_pos_of_ne_nil hd
  have hn : (toSizeT (offset + data.length) : ℤ) = offset + data.length :=
    toSizeT_of_lt (by omega) hrep
  unfold writeData
  by_cases hmax : offset + data.length ≤ maxFileLen
  · rw [if_neg (by omega), Prog.wp_bind]
    refine wp_updateBlock_write hI hd h0 hmax (fun fresh => ?_)
    obtain ⟨hI₁, hfit, hgrow⟩ := hwrite hmax fresh
    refine ⟨hI₁, ?_⟩
    dsimp only
    rw [if_neg (fun h => h rfl)]
    unfold grownTo
    split
    · next hlt =>
      obtain ⟨herr, hok⟩ := hgrow hlt
      rw [if_pos (by omega), Prog.wp_bind]
      refine wp_updateStat hI₁ (fun e he => ?_) (fun stat cas ts hs => ?_)
      · -- every error of the update of the stat is `-1` to the caller
        have hneg := Store.statOf_error_neg he
        rw [if_pos (by omega)]
        show post (dataDone e) _
        rw [dataDone_of_neg hneg]
        exact herr e he
      · obtain ⟨hI₂, hp⟩ := hok stat cas ts hs
        exact ⟨hI₂, hp⟩
    · next hle =>
      rw [if_neg (by omega)]
      exact hfit (by omega)
  · rw [if_pos (by omega)]
    exact hbig (by omega)

/-- **A read, with nothing failing.** It finds no block, or starts at or
past the end of it, or copies as many bytes as there are and touches the
access time. -/
theorem wp_readData {nbuf : ℕ} {post : ℤ × Bytes → Store Text → Prop} (hI : I s)
    (h0 : 0 ≤ offset) (hoff : offset < 2 ^ 63) (hrep : offset + nbuf < 2 ^ 64)
    (hlen : (s.bytesOf p).length < 2 ^ 63)
    (hnone : s.blocks.val p = none → post (-1, []) s)
    (heof : ∀ b, s.blocks.val p = some b → b.length ≤ offset.toNat → post (0, []) s)
    (hread : ∀ b, s.blocks.val p = some b → offset.toNat < b.length →
      let bytes := (b.drop offset.toNat).take nbuf
      (∀ e, s.statOf p = .error e → post (-1, bytes) s)
      ∧ ∀ stat cas ts, s.statOf p = .ok (stat, cas) →
          let s₁ := s.putStat p (stat.touchAtime ts)
          I s₁ ∧ post (dataDone (toInt bytes.length), bytes) s₁) :
    (readData p nbuf offset).wp serve Choice.FaultFree I post s := by
  obtain ⟨k, hk, habsent, hfound⟩ := @readData_eq Text p nbuf offset
  rw [hk]
  intro c hc
  rw [hc.serve_blocks]
  unfold Store.bytesOf Kv.Collection.val at hlen
  cases hb : s.blocks.docs p with
  | none =>
    simp only [Kv.Collection.serve, hb]
    rw [habsent]
    exact ⟨hI, hnone ((Kv.Collection.val_eq_none _ _).mpr hb)⟩
  | some d =>
    have hv := Kv.Collection.val_of_docs hb
    simp only [hb, Option.map_some, Option.getD_some] at hlen
    simp only [Kv.Collection.serve, hb]
    rw [hfound d h0 hrep hlen]
    refine ⟨hI, ?_⟩
    by_cases hend : (d.value.length : ℤ) ≤ offset
    · rw [if_pos hend]
      exact heof _ hv (by omega)
    · rw [if_neg hend]
      obtain ⟨herr, hok⟩ := hread _ hv (by omega)
      unfold finishRead
      rw [Prog.wp_bind]
      refine wp_updateStat hI (fun e he => ?_) (fun stat cas ts hs => ?_)
      · have hneg := Store.statOf_error_neg he
        rw [if_pos (by omega)]
        show post (dataDone e, _) s
        rw [dataDone_of_neg hneg]
        exact herr e he
      · obtain ⟨hI₁, hp⟩ := hok stat cas ts hs
        rw [if_neg (fun h => h rfl)]
        exact ⟨hI₁, hp⟩

/-- **What a truncation within the limit makes of the store**, its stat
apart: the block is removed, is cut or lengthened, or was not there. -/
inductive Store.CutTo (s : Store Text) (p : CString) (offset : ℤ) : Store Text → Prop
  | removed (h : offset = 0) (hb : s.blocks.val p ≠ none) : s.CutTo p offset (s.eraseBlock p)
  | nothing (h : offset ≠ 0) (hb : s.blocks.val p = none) : s.CutTo p offset s
  | cut (h : offset ≠ 0) (b past : Bytes) (hb : s.blocks.val p = some b)
      (hpast : past.length = offset.toNat - b.length) :
      s.CutTo p offset (s.putBlock p (b.take offset.toNat ++ past))

theorem Store.CutTo.stats {s₁ : Store Text} (h : s.CutTo p offset s₁) :
    s₁.stats = s.stats := by
  cases h <;> rfl

/-- **A truncation, with nothing failing.** -/
theorem wp_truncateData {post : ℤ → Store Text → Prop} (hI : I s) (h0 : 0 ≤ offset)
    (hrep : offset < 2 ^ 63)
    (hbig : maxFileLen < offset → post (-efbig) s)
    (hnone : offset = 0 → s.blocks.val p = none → post (-enoent) s)
    (hcut : ∀ s₁, offset ≤ maxFileLen → s.CutTo p offset s₁ → I s₁
      ∧ (∀ e, s.statOf p = .error e → post e s₁)
      ∧ ∀ stat cas ts, s.statOf p = .ok (stat, cas) →
          let s₂ := s₁.putStat p (stat.resize offset.toNat ts)
          I s₂ ∧ post 0 s₂) :
    (truncateData p offset).wp serve Choice.FaultFree I post s := by
  have hn : toSizeT offset = offset.toNat := by
    have h := toSizeT_of_lt (i := offset) h0 (by omega)
    omega
  -- the update of the stat, once the block is cut
  have hstat : ∀ s₁, offset ≤ maxFileLen → s.CutTo p offset s₁ →
      (updateStatSize p offset.toNat).wp serve Choice.FaultFree I post s₁ := by
    intro s₁ hmax h₁
    obtain ⟨hI₁, herr, hok⟩ := hcut s₁ hmax h₁
    have hof : s₁.statOf p = s.statOf p := by unfold Store.statOf; rw [h₁.stats]
    exact wp_updateStat hI₁ (fun e he => herr e (hof ▸ he))
      (fun stat cas ts hs => hok stat cas ts (hof ▸ hs))
  unfold truncateData
  rw [hn, Prog.wp_bind]
  by_cases hz : offset = 0
  · have hlim : offset ≤ maxFileLen := by rw [hz]; exact Int.natCast_nonneg _
    rw [if_pos hz]
    refine wp_removeData hI (fun hb => ?_) (fun hb => ?_)
    · have h₁ := Store.CutTo.removed hz hb
      exact ⟨(hcut _ hlim h₁).1, hstat _ hlim h₁⟩
    · exact hnone hz hb
  · rw [if_neg hz, map_eq_pure_bind, Prog.wp_bind]
    by_cases hmax : offset ≤ maxFileLen
    · refine wp_updateBlock_truncate hI (by omega) hmax (fun hb => ?_)
        (fun b past hb hpast => ?_)
      · exact hstat _ hmax (.nothing hz hb)
      · have h₁ := Store.CutTo.cut hz b past hb hpast
        exact ⟨(hcut _ hmax h₁).1, hstat _ hmax h₁⟩
    · refine wp_updateBlock_efbig ?_ (hbig (by omega))
      simp only [Option.getD_none, List.length_nil, Int.ofNat_zero, Int.add_zero]
      rw [hn]
      omega

end FaultFree

end Cbfuse
