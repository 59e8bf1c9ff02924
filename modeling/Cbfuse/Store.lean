import Mathlib.Algebra.Ring.Nat
import Mathlib.Algebra.Ring.Int.Defs
import Cbfuse.Prog
import Cbfuse.KeyValue
import Cbfuse.Json

/-!
# The store and the requests made of it

Everything the file system keeps is in three collections of one Couchbase
bucket, each keyed by full path: `stats` holds the packed stat struct of
every entry, `dentries` the JSON document of every directory, `blocks` the
bytes of every file that has any.

A handler sees the world through requests. Those of the three collections
go to the server; the rest are answered on the spot – the clock, an
allocation, and the bytes past the end of a heap buffer, which a read
that goes that far gets to see, unless it dies of it. A `Choice` is what the
surroundings decide about one request: what becomes of it on its way, whether
an allocation succeeds, what unwritten memory holds and whether there is any
past a buffer, what the clock reads.

Building a command object can fail as well (`lcb_cmdget_create` and its
like), always with the same consequence as a failing call of the library:
nothing is sent and the caller gets the result code. So each command is
one request, and its result code is the first one that was not a success.
-/

namespace Cbfuse

/-! ## Constants of `common.c` and of the C library -/

/-- `MAX_KEY_LEN` -/
def maxKeyLen : ℕ := 250

/-- `MAX_DOC_LEN` -/
def maxDocLen : ℕ := 20 * 1024 * 1024

/-- `MAX_PATH_LEN` -/
def maxPathLen : ℕ := maxKeyLen

/-- `MAX_FILE_BLOCKS` -/
def maxFileBlocks : ℕ := 256

/-- `MAX_FILE_LEN` -/
def maxFileLen : ℕ := maxFileBlocks * maxDocLen

/-- `ENOENT` -/
def enoent : ℤ := 2
/-- `EIO` -/
def eio : ℤ := 5
/-- `EBADF` -/
def ebadf : ℤ := 9
/-- `ENOMEM` -/
def enomem : ℤ := 12
/-- `EINVAL` -/
def einval : ℤ := 22
/-- `EFBIG` -/
def efbig : ℤ := 27
/-- `ENAMETOOLONG` -/
def enametoolong : ℤ := 63

/-- `S_IFMT` -/
def sIfmt : ℕ := 0o170000
/-- `S_IFDIR` -/
def sIfdir : ℕ := 0o040000
/-- `S_IFREG` -/
def sIfreg : ℕ := 0o100000

/-- Conversion to `size_t`. -/
def toSizeT (i : ℤ) : ℕ := (i % 2 ^ 64).toNat

/-- Conversion to `off_t`. -/
def toOffT (i : ℤ) : ℤ := Int.bmod i (2 ^ 64)

/-- Conversion to `int`. -/
def toInt (i : ℤ) : ℤ := Int.bmod i (2 ^ 32)

theorem toSizeT_of_lt {i : ℤ} (h0 : 0 ≤ i) (h : i < 2 ^ 64) : (toSizeT i : ℤ) = i := by
  unfold toSizeT
  omega

theorem toOffT_of_lt {i : ℤ} (h0 : 0 ≤ i) (h : i < 2 ^ 63) : toOffT i = i :=
  Int.bmod_eq_of_le (by omega) (by omega)

theorem toInt_of_lt {i : ℤ} (h0 : 0 ≤ i) (h : i < 2 ^ 31) : toInt i = i :=
  Int.bmod_eq_of_le (by omega) (by omega)

/-! ## The documents -/

/-- Bytes, of a buffer or of a stored value. -/
abbrev Bytes := List UInt8

/-- A buffer of `n` bytes. -/
abbrev Buf (n : ℕ) := {b : Bytes // b.length = n}

/-- `struct timespec` -/
structure Timespec where
  /-- `tv_sec` -/
  tvSec : ℤ
  /-- `tv_nsec` -/
  tvNsec : ℤ
  deriving DecidableEq

/-- `cbfuse_stat`, the struct stored for every entry. -/
structure CbfuseStat where
  /-- `st_mode` -/
  stMode : ℕ
  /-- `st_atime` -/
  stAtime : ℤ
  /-- `st_atimensec` -/
  stAtimensec : ℤ
  /-- `st_mtime` -/
  stMtime : ℤ
  /-- `st_mtimensec` -/
  stMtimensec : ℤ
  /-- `st_ctime` -/
  stCtime : ℤ
  /-- `st_ctimensec` -/
  stCtimensec : ℤ
  /-- `st_size` -/
  stSize : ℤ
  deriving DecidableEq

/-- `CBFUSE_STAT_STRUCT_SIZE`: eight members of eight bytes, padding
included. -/
def cbfuseStatStructSize : ℕ := 64

/-- **A value of the stats collection**: the bytes of a packed struct, or a
value of another length, of which the code looks at nothing else. -/
inductive StatDoc where
  /-- A value of the struct's size. -/
  | packed (s : CbfuseStat)
  /-- A value of any other size. -/
  | malformed (nvalue : ℕ) (h : nvalue ≠ cbfuseStatStructSize)
  deriving DecidableEq

/-- The length of the value. -/
def StatDoc.nvalue : StatDoc → ℕ
  | packed _ => cbfuseStatStructSize
  | malformed n _ => n

/-- **The bucket**: the three collections. -/
structure Store (Text : Type) where
  /-- The stat of every entry. -/
  stats : Kv.Collection CString StatDoc
  /-- The directory document of every directory. -/
  dentries : Kv.Collection CString Text
  /-- The bytes of every file that has any. -/
  blocks : Kv.Collection CString Bytes

/-- The bucket before anything was stored. -/
def Store.empty {Text : Type} : Store Text := ⟨.empty, .empty, .empty⟩

/-! ## Requests and their replies -/

/-- The requests a handler makes. -/
inductive Req (Text : Type) where
  /-- A request to the stats collection. -/
  | stats (r : Kv.Request CString StatDoc)
  /-- A request to the dentries collection. -/
  | dentries (r : Kv.Request CString Text)
  /-- A request to the blocks collection. -/
  | blocks (r : Kv.Request CString Bytes)
  /-- `clock_gettime(CLOCK_REALTIME, …)` -/
  | clockGettime
  /-- `malloc(n)` -/
  | malloc (n : ℕ)
  /-- A read of `n` bytes past the end of a heap buffer. -/
  | overread (n : ℕ)

/-- What the client library hands to `sync_get_callback` and its siblings,
and whether the callback gets the memory for its copy of the value. -/
structure Response (V : Type) extends Kv.Reply V where
  /-- Whether `memdup` gets its buffer. -/
  alloc : Bool

/-- The reply to each request. The contents of fresh memory, and of the
memory past a buffer, are part of it: the program has no say in them, nor in
whether there is any memory past a buffer. -/
@[reducible] def Req.Reply {Text : Type} : Req Text → Type
  | stats _ => Response StatDoc
  | dentries _ => Response Text
  | blocks _ => Response Bytes
  | clockGettime => Option Timespec
  | malloc n => Option (Buf n)
  | overread n => Option (Buf n)

/-- A program of the file system. -/
abbrev Op (Text : Type) (α : Type) := Prog (Req Text) Req.Reply α

/-- **What the surroundings decide about one request.** -/
structure Choice where
  /-- What becomes of a request to the server. -/
  fate : Kv.Fate
  /-- Whether an allocation succeeds. -/
  alloc : Bool
  /-- What memory the program never wrote holds. -/
  junk : ℕ → UInt8
  /-- Whether there is readable memory past the end of a buffer. -/
  mapped : Bool
  /-- What the clock reads, or nothing if it cannot be read. -/
  now : Option Timespec

/-- The first `n` bytes of unwritten memory. -/
def Choice.buf (c : Choice) (n : ℕ) : Buf n :=
  ⟨(List.range n).map c.junk, by rw [List.length_map, List.length_range]⟩

/-- **The surroundings**: the reply to a request, and the store it
leaves. -/
def serve {Text : Type} (c : Choice) : (q : Req Text) → Store Text → q.Reply × Store Text
  | .stats r, s =>
    (⟨(s.stats.answer c.fate r).1, c.alloc⟩, { s with stats := (s.stats.answer c.fate r).2 })
  | .dentries r, s =>
    (⟨(s.dentries.answer c.fate r).1, c.alloc⟩,
      { s with dentries := (s.dentries.answer c.fate r).2 })
  | .blocks r, s =>
    (⟨(s.blocks.answer c.fate r).1, c.alloc⟩,
      { s with blocks := (s.blocks.answer c.fate r).2 })
  | .clockGettime, s => (c.now, s)
  | .malloc n, s => (if c.alloc then some (c.buf n) else none, s)
  | .overread n, s => (if c.mapped then some (c.buf n) else none, s)

/-- A run in which everything the code asks for is granted: every request is
served, every allocation succeeds and the clock can be read. Whether there is
memory past the end of a buffer is another matter. -/
def Choice.Granting (c : Choice) : Prop :=
  c.fate = .served ∧ c.alloc = true ∧ c.now.isSome

/-- A run in which nothing fails: everything is granted, and a read past the
end of a buffer finds memory there. -/
def Choice.FaultFree (c : Choice) : Prop :=
  c.fate = .served ∧ c.alloc = true ∧ c.now.isSome ∧ c.mapped = true

/-- A request that fails has had no effect. -/
def Choice.Clean (c : Choice) : Prop := c.fate.Clean

/-- Every request gets the reply the server gives. -/
def Choice.Served (c : Choice) : Prop := c.fate = .served

instance : DecidablePred Choice.FaultFree :=
  fun _ => inferInstanceAs (Decidable (_ ∧ _ ∧ _ ∧ _))

instance : DecidablePred Choice.Served := fun _ => inferInstanceAs (Decidable (_ = _))

/-- The choice under which nothing fails, unwritten memory is zero and the
clock reads `ts`. -/
def Choice.good (ts : Timespec) : Choice := ⟨.served, true, fun _ => 0, true, some ts⟩

theorem Choice.faultFree_good (ts : Timespec) : (good ts).FaultFree := ⟨rfl, rfl, rfl, rfl⟩

/-- A run in which nothing fails is granted everything. -/
theorem Choice.FaultFree.granting {c : Choice} (h : c.FaultFree) : c.Granting :=
  ⟨h.1, h.2.1, h.2.2.1⟩

/-- The request is not to the blocks collection. -/
def Req.LeavesBlocks {Text : Type} : Req Text → Prop
  | blocks _ => False
  | _ => True

theorem Req.LeavesBlocks.serve {Text : Type} (c : Choice) (q : Req Text) (s : Store Text)
    (hq : q.LeavesBlocks) : (serve c q s).2.blocks = s.blocks := by
  cases q with
  | blocks r => exact hq.elim
  | _ => rfl

/-! ## The results of `sync_get.c`, `sync_store.c` and `sync_remove.c` -/

/-- `sync_get_result` -/
structure SyncGetResult (V : Type) where
  /-- `status` -/
  status : Kv.Status
  /-- `value`: the copy of the value, `none` being `NULL`. -/
  value : Option V
  /-- `nvalue` -/
  nvalue : ℕ
  /-- `cas` -/
  cas : ℕ

/-- `sync_get_callback`: on success the value is copied and its length and
CAS are recorded, the length whether or not the copy got its memory;
otherwise the zeroes of `calloc` stay. -/
def syncGetCallback {V : Type} (length : V → ℕ) (resp : Response V) : SyncGetResult V :=
  match resp.status, resp.doc with
  | none, some d =>
    { status := none, value := if resp.alloc then some d.value else none,
      nvalue := length d.value, cas := d.cas }
  | status, _ => { status := status, value := none, nvalue := 0, cas := 0 }

variable {Text : Type}

/-- A request to the stats collection. -/
def askStats (r : Kv.Request CString StatDoc) : Op Text (Response StatDoc) :=
  .call (.stats r) .ret

/-- A request to the dentries collection. -/
def askDentries (r : Kv.Request CString Text) : Op Text (Response Text) :=
  .call (.dentries r) .ret

/-- A request to the blocks collection. -/
def askBlocks (r : Kv.Request CString Bytes) : Op Text (Response Bytes) :=
  .call (.blocks r) .ret

/-- `clock_gettime(CLOCK_REALTIME, …)` -/
def clockGettime : Op Text (Option Timespec) := .call .clockGettime .ret

/-- `malloc(n)` -/
def malloc (n : ℕ) : Op Text (Option (Buf n)) := .call (.malloc n) .ret

/-- The bytes from the end of a heap buffer on, if there are any. -/
def overread (n : ℕ) : Op Text (Option (Buf n)) := .call (.overread n) .ret

/-- The two checks that follow every store and every removal: a failing
call is `-EIO`, a failing status is `notStored`. -/
def checkResult {V : Type} (notStored : ℤ) (resp : Response V) : ℤ :=
  if resp.rc ≠ none then -eio
  else if resp.status ≠ none then notStored
  else 0

/-- Zero is what the two checks make of a reply without an error. -/
theorem checkResult_eq_zero {V : Type} {notStored : ℤ} (hne : notStored ≠ 0)
    (resp : Response V) : checkResult notStored resp = 0 ↔ resp.rc = none ∧ resp.status = none := by
  have hio : (-eio : ℤ) ≠ 0 := by decide
  unfold checkResult
  split
  · next hrc => exact iff_of_false hio (fun h => hrc h.1)
  · next hrc =>
    split
    · next hst => exact iff_of_false hne (fun h => hst h.2)
    · next hst => exact iff_of_true rfl ⟨not_not.mp hrc, not_not.mp hst⟩

/-! ## The store after a mutation -/

namespace Store

variable (s : Store Text) (p : CString)

/-- The store with the stat of `p` set. -/
def putStat (stat : CbfuseStat) : Store Text := { s with stats := s.stats.put p (.packed stat) }

/-- The store with the stat of `p` removed. -/
def eraseStat : Store Text := { s with stats := s.stats.erase p }

/-- The store with the directory document of `p` set. -/
def putDentry (t : Text) : Store Text := { s with dentries := s.dentries.put p t }

/-- The store with the directory document of `p` removed. -/
def eraseDentry : Store Text := { s with dentries := s.dentries.erase p }

/-- The store with the block of `p` set. -/
def putBlock (b : Bytes) : Store Text := { s with blocks := s.blocks.put p b }

/-- The store with the block of `p` removed. -/
def eraseBlock : Store Text := { s with blocks := s.blocks.erase p }

@[simp] theorem stats_putStat (stat : CbfuseStat) :
    (s.putStat p stat).stats = s.stats.put p (.packed stat) := rfl
@[simp] theorem dentries_putStat (stat : CbfuseStat) :
    (s.putStat p stat).dentries = s.dentries := rfl
@[simp] theorem blocks_putStat (stat : CbfuseStat) :
    (s.putStat p stat).blocks = s.blocks := rfl
@[simp] theorem stats_eraseStat : (s.eraseStat p).stats = s.stats.erase p := rfl
@[simp] theorem dentries_eraseStat : (s.eraseStat p).dentries = s.dentries := rfl
@[simp] theorem blocks_eraseStat : (s.eraseStat p).blocks = s.blocks := rfl
@[simp] theorem stats_putDentry (t : Text) : (s.putDentry p t).stats = s.stats := rfl
@[simp] theorem dentries_putDentry (t : Text) :
    (s.putDentry p t).dentries = s.dentries.put p t := rfl
@[simp] theorem blocks_putDentry (t : Text) : (s.putDentry p t).blocks = s.blocks := rfl
@[simp] theorem stats_eraseDentry : (s.eraseDentry p).stats = s.stats := rfl
@[simp] theorem dentries_eraseDentry :
    (s.eraseDentry p).dentries = s.dentries.erase p := rfl
@[simp] theorem blocks_eraseDentry : (s.eraseDentry p).blocks = s.blocks := rfl
@[simp] theorem stats_putBlock (b : Bytes) : (s.putBlock p b).stats = s.stats := rfl
@[simp] theorem dentries_putBlock (b : Bytes) : (s.putBlock p b).dentries = s.dentries := rfl
@[simp] theorem blocks_putBlock (b : Bytes) :
    (s.putBlock p b).blocks = s.blocks.put p b := rfl
@[simp] theorem stats_eraseBlock : (s.eraseBlock p).stats = s.stats := rfl
@[simp] theorem dentries_eraseBlock : (s.eraseBlock p).dentries = s.dentries := rfl
@[simp] theorem blocks_eraseBlock : (s.eraseBlock p).blocks = s.blocks.erase p := rfl

end Store

/-! ## Requests that change nothing -/

section Unchanged

variable (c : Choice) (s : Store Text) (k : CString)

theorem serve_stats_get :
    serve c (.stats (.get k)) s = (⟨(s.stats.answer c.fate (.get k)).1, c.alloc⟩, s) := by
  simp only [serve, Kv.Collection.answer_get]

theorem serve_dentries_get :
    serve c (.dentries (.get k)) s = (⟨(s.dentries.answer c.fate (.get k)).1, c.alloc⟩, s) := by
  simp only [serve, Kv.Collection.answer_get]

theorem serve_blocks_get :
    serve c (.blocks (.get k)) s = (⟨(s.blocks.answer c.fate (.get k)).1, c.alloc⟩, s) := by
  simp only [serve, Kv.Collection.answer_get]

variable {c}

theorem serve_malloc_some (n : ℕ) (h : c.alloc = true) :
    serve c (.malloc n) s = (some (c.buf n), s) := by
  unfold serve
  rw [h]
  rfl

theorem serve_malloc_none (n : ℕ) (h : c.alloc = false) : serve c (.malloc n) s = (none, s) := by
  unfold serve
  rw [h]
  rfl

/-- Behind a buffer is whatever is there. -/
theorem serve_overread_some (n : ℕ) (h : c.mapped = true) :
    serve c (.overread n) s = (some (c.buf n), s) := by
  unfold serve
  rw [h]
  rfl

/-- Behind a buffer may be nothing. -/
theorem serve_overread_none (n : ℕ) (h : c.mapped = false) :
    serve c (.overread n) s = (none, s) := by
  unfold serve
  rw [h]
  rfl

end Unchanged

/-! ## A request that is served -/

theorem Choice.Served.answer {K V : Type} [DecidableEq K] {c : Choice} (hc : c.Served)
    (b : Kv.Collection K V) (r : Kv.Request K V) :
    b.answer c.fate r = (⟨none, (b.serve r).1, (b.serve r).2.1⟩, (b.serve r).2.2) := by
  unfold Kv.Collection.answer
  rw [show c.fate = .served from hc]

/-! ## A request that may fail without effect -/

/-- The two checks after a request say whether it was granted, and where
they do not the collection is as it was. -/
theorem Choice.Clean.checked {K V : Type} [DecidableEq K] {c : Choice} (hc : c.Clean)
    {notStored : ℤ} (hne : notStored ≠ 0) (b : Kv.Collection K V) (r : Kv.Request K V) :
    (checkResult notStored (⟨(b.answer c.fate r).1, c.alloc⟩ : Response V) = 0
        ∧ (b.serve r).1 = none ∧ (b.answer c.fate r).2 = (b.serve r).2.2)
      ∨ (checkResult notStored (⟨(b.answer c.fate r).1, c.alloc⟩ : Response V) ≠ 0
        ∧ (b.answer c.fate r).2 = b) := by
  simp only [ne_eq, checkResult_eq_zero hne]
  obtain ⟨hrc, hst, hf, hserve⟩ | ⟨hng, hb⟩ := Kv.Collection.answer_of_clean hc b r
  · exact .inl ⟨⟨hrc, hst⟩, hserve, by rw [hf]; rfl⟩
  · exact .inr ⟨hng, hb⟩

/-- An insertion is granted only where there is nothing. -/
theorem Choice.Clean.checked_insert {K V : Type} [DecidableEq K] {c : Choice} (hc : c.Clean)
    (b : Kv.Collection K V) (k : K) (v : V) :
    let reply := b.answer c.fate (.store .insert k v 0)
    (checkResult (-enoent) (⟨reply.1, c.alloc⟩ : Response V) = 0
        ∧ b.val k = none ∧ reply.2 = b.put k v)
      ∨ (checkResult (-enoent) (⟨reply.1, c.alloc⟩ : Response V) ≠ 0 ∧ reply.2 = b) := by
  have hne : (-enoent : ℤ) ≠ 0 := by decide
  refine (hc.checked hne b (.store .insert k v 0)).imp_left (fun ⟨h0, hok, heq⟩ => ?_)
  obtain ⟨hv, hput⟩ := Kv.Collection.serve_store_granted hok
  exact ⟨h0, (Kv.Collection.verdict_insert_iff b k 0).mp hv, heq.trans hput⟩

/-- The reply says that the request was served and granted. -/
def Response.Granted {V : Type} (resp : Response V) : Prop := resp.rc = none ∧ resp.status = none

instance {V : Type} (resp : Response V) : Decidable resp.Granted :=
  inferInstanceAs (Decidable (_ ∧ _))

/-! ## A request that nothing befalls -/

namespace Choice.FaultFree

variable {c : Choice} (hc : c.FaultFree) (s : Store Text)
include hc

theorem serve_stats (r : Kv.Request CString StatDoc) :
    serve c (.stats r) s
      = (⟨⟨none, (s.stats.serve r).1, (s.stats.serve r).2.1⟩, true⟩,
        { s with stats := (s.stats.serve r).2.2 }) := by
  obtain ⟨hf, ha, -⟩ := hc
  unfold serve Kv.Collection.answer
  rw [hf, ha]

theorem serve_dentries (r : Kv.Request CString Text) :
    serve c (.dentries r) s
      = (⟨⟨none, (s.dentries.serve r).1, (s.dentries.serve r).2.1⟩, true⟩,
        { s with dentries := (s.dentries.serve r).2.2 }) := by
  obtain ⟨hf, ha, -⟩ := hc
  unfold serve Kv.Collection.answer
  rw [hf, ha]

theorem serve_blocks (r : Kv.Request CString Bytes) :
    serve c (.blocks r) s
      = (⟨⟨none, (s.blocks.serve r).1, (s.blocks.serve r).2.1⟩, true⟩,
        { s with blocks := (s.blocks.serve r).2.2 }) := by
  obtain ⟨hf, ha, -⟩ := hc
  unfold serve Kv.Collection.answer
  rw [hf, ha]

theorem serve_overread (n : ℕ) : serve c (.overread n) s = (some (c.buf n), s) :=
  serve_overread_some s n hc.2.2.2

theorem clean : c.Clean := by
  unfold Choice.Clean
  rw [hc.1]
  trivial

theorem exists_now : ∃ ts, c.now = some ts := Option.isSome_iff_exists.mp hc.2.2.1

theorem serve_malloc (n : ℕ) : serve c (.malloc n) s = (some (c.buf n), s) :=
  serve_malloc_some s n hc.2.1

end Choice.FaultFree

end Cbfuse
