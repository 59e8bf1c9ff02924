import Cbfuse.Readdir
import Cbfuse.World

/-!
# What FUSE is told (`cb_filesystem_operations`)

FUSE takes the result of an operation for what it says: zero is success, the
negative of an `errno` is that error, and only a read or a write has anything
positive to say, the number of bytes. The operations share one variable for
all of this, and what they put into it comes from many places.

Two things come out with the wrong sign. A path that is too long is reported
by `ENAMETOOLONG` as it stands, and a listing returns whatever the filler said
last, which is positive when the buffer is full. That is all: every other
result, of whatever operation and whatever becomes of its requests, is as FUSE
has it.
-/

namespace Cbfuse

variable {Text β : Type}

/-- `cbfuse_open` -/
def cbfuseOpen (path : CString) : Op Text ℤ := do
  if path.length > maxPathLen then
    return enametoolong
  match ← getStat path with
  | .error fresult => return fresult
  | .ok _ => return 0

/-- What `cbfuse_init` sets of the `fuse_conn_info` it is given. -/
structure FuseConnInfo where
  /-- The longest read ahead. -/
  maxReadahead : ℕ
  /-- The longest write. -/
  maxWrite : ℕ
  /-- The capabilities that are wanted. -/
  want : ℕ
  /-- Whether reads may be sent before earlier ones are answered. -/
  asyncRead : Bool

/-- `FUSE_CAP_BIG_WRITES` -/
def fuseCapBigWrites : ℕ := 1 <<< 5

/-- `cbfuse_init`: what the connection is set to when it is mounted. -/
def cbfuseInit (conn : FuseConnInfo) : FuseConnInfo :=
  { conn with
    maxReadahead := maxDocLen
    maxWrite := maxDocLen
    want := conn.want ||| fuseCapBigWrites
    asyncRead := false }

/-- **The operations FUSE calls**, `cbfuse_init` apart. -/
inductive FuseOp (β : Type) where
  /-- `cbfuse_getattr` -/
  | getattr (fc : FuseContext) (path : CString)
  /-- `cbfuse_open` -/
  | openFile (path : CString)
  /-- `cbfuse_readdir` -/
  | readdir (path : CString) (filler : β → CString → ℕ → ℤ × β) (offset : ℤ) (buf : β)
  /-- One of the nine others. -/
  | fs (op : FsOp)

/-- The result code of a call that has one or an error. -/
def codeOf {α : Type} : Except ℤ α → ℤ
  | .error e => e
  | .ok _ => 0

/-- The program of an operation, and what it returns to FUSE. -/
def FuseOp.code [CJson Text] : FuseOp β → Op Text ℤ
  | getattr fc path => codeOf <$> cbfuseGetattr fc path
  | openFile path => cbfuseOpen path
  | readdir path filler offset buf => Prod.fst <$> cbfuseReaddir path filler offset buf
  | fs op => op.code

/-! ## The convention -/

/-- **Success or an error**: zero, or the negative of an error number. -/
def IsCode (r : ℤ) : Prop := r ≤ 0

instance : DecidablePred IsCode := fun _ => inferInstanceAs (Decidable (_ ≤ _))

/-- A result that may be a number of bytes instead, up to `size` of them. -/
def IsCount (size : ℕ) (r : ℤ) : Prop := IsCode r ∨ 0 ≤ r ∧ r ≤ size

/-- **The convention of FUSE**: only a read and a write may return a number of
bytes, and not more of them than were asked for. -/
def FuseOp.Obeys (r : ℤ) : FuseOp β → Prop
  | fs (.entry (.read _ nbuf _)) => IsCount nbuf r
  | fs (.entry (.write _ buf _)) => IsCount buf.length r
  | _ => IsCode r

/-! ## The results of the parts -/

/-- Zero is a code. -/
theorem isCode_zero : IsCode 0 := Int.le_refl 0

theorem IsCode.neg_enoent : IsCode (-enoent) := by decide

theorem IsCode.neg_eio : IsCode (-eio) := by decide

/-- The check of a reply comes out zero or as one of two errors. -/
theorem isCode_checkResult {V : Type} (resp : Response V) :
    IsCode (checkResult (-enoent) resp) :=
  checkResult_returns isCode_zero .neg_eio .neg_enoent resp

/-- A fetch of a stat fails with an error. -/
theorem isCode_of_statReply {resp : Response StatDoc} {e : ℤ}
    (h : statReply resp = some (.error e)) : IsCode e := by
  unfold statReply at h
  split at h
  · cases h
    exact .neg_eio
  · split at h
    · cases h
      exact .neg_enoent
    · split at h
      · cases h
        decide
      · cases h
        decide
      · split at h <;> cases h

/-- A fetch of a stat that fails does so with an error. -/
theorem getStat_isCode (pkey : CString) :
    (getStat pkey : Op Text _).Returns (fun r => IsCode (codeOf r)) := by
  rw [getStat_eq]
  intro resp
  dsimp only
  cases h : statReply resp with
  | none => trivial
  | some r =>
    cases r with
    | error e => exact isCode_of_statReply h
    | ok r => exact isCode_zero

/-- An update of a stat returns zero or an error. -/
theorem updateStat_isCode (pkey : CString) (clock : Bool)
    (change : Timespec → CbfuseStat → CbfuseStat) :
    (updateStat pkey clock change : Op Text ℤ).Returns IsCode := by
  rw [updateStat_eq]
  intro resp
  dsimp only
  cases h : statReply resp with
  | none => trivial
  | some r =>
    cases r with
    | error e => exact isCode_of_statReply h
    | ok r =>
      show (replaceStat pkey clock change r.1 r.2 : Op Text ℤ).Returns IsCode
      unfold replaceStat
      split
      · intro now
        cases now with
        | none => exact IsCode.neg_eio
        | some ts => exact fun resp => isCode_checkResult resp
      · exact fun resp => isCode_checkResult resp

/-- An insertion of a stat returns zero or an error. -/
theorem insertStat_isCode (pkey : CString) (mode : ℕ) :
    (insertStat pkey mode : Op Text ℤ).Returns IsCode := by
  rw [insertStat_eq]
  intro now
  cases now with
  | none => exact IsCode.neg_eio
  | some ts => exact fun resp => isCode_checkResult resp

/-- An insertion of a directory document returns zero or an error. -/
theorem addNewDentry_isCode [CJson Text] (dirPkey dirPath : CString)
    (parentPath : Option CString) :
    (addNewDentry dirPkey dirPath parentPath : Op Text ℤ).Returns IsCode :=
  fun resp => isCode_checkResult resp

/-- An edit that stores nothing returns an error number. -/
theorem isCode_of_editReply [CJson Text] {edit : List Json → List Json} {resp : Response Text}
    {e : ℤ} (h : editReply edit resp = .error e) : IsCode e := by
  unfold editReply at h
  split at h
  · cases h
    exact .neg_eio
  · split at h
    · cases h
      exact .neg_enoent
    · split at h
      · cases h
        exact .neg_eio
      · split at h
        · cases h
          exact .neg_eio
        · cases h

/-- An edit of a directory document returns zero or an error. -/
theorem editDentry_isCode [CJson Text] (dirPkey : CString) (edit : List Json → List Json) :
    (editDentry dirPkey edit : Op Text ℤ).Returns IsCode := by
  rw [editDentry_eq]
  intro resp
  dsimp only
  cases h : editReply edit resp with
  | error e => exact isCode_of_editReply h
  | ok t => exact fun resp => isCode_checkResult resp

/-! ## The bytes of a file -/

/-- A read from a buffer that does not kill the process starts inside it, or
is of nothing. -/
theorem load_starts (src : Option Bytes) (off : ℤ) (n : ℕ) :
    (load src off n : Op Text Bytes).Returns (fun _ => n = 0 ∨ 0 ≤ off) := by
  unfold load
  split
  · next hn => exact .inl hn
  · split
    · trivial
    · split
      · trivial
      · next hoff =>
        have h0 : 0 ≤ off := Int.not_lt.mp hoff
        dsimp only
        split
        · exact .inr h0
        · intro past
          cases past with
          | none => trivial
          | some past => exact .inr h0

/-- An update of a block returns zero or an error. -/
theorem updateBlock_isCode (pkey : CString) (buf : Option Bytes) (offset : ℤ) :
    (updateBlock pkey buf offset : Op Text _).Returns (fun r => IsCode r.1) :=
  updateBlock_returns isCode_zero .neg_eio .neg_enoent (by decide) pkey (fun _ => by decide)

/-- The end of a read and of a write: every error is `-1`. -/
theorem isCount_dataDone_error {size : ℕ} {r : ℤ} (h : IsCode r) : IsCount size (dataDone r) := by
  unfold dataDone
  split
  · exact .inl (by decide)
  · exact .inl h

/-- The end of a read and of a write that succeeds: the number of bytes, as far as
an `int` can tell it. -/
theorem isCount_dataDone {size n : ℕ} (h : n ≤ size) : IsCount size (dataDone (toInt n)) := by
  unfold dataDone
  split
  · exact .inl (by decide)
  · next h0 =>
    have hle : toInt n ≤ n := by
      unfold toInt
      have hlt : Int.bmod n (2 ^ 32) < 2 ^ 31 := Int.bmod_lt (by decide)
      by_cases hn : n < 2 ^ 31
      · exact Int.le_of_eq (Int.bmod_eq_of_le (by omega) (by omega))
      · omega
    exact .inr ⟨by omega, by omega⟩

/-- A removal of a block returns zero or an error. -/
theorem removeData_isCode (pkey : CString) : (removeData pkey : Op Text ℤ).Returns IsCode :=
  fun resp => isCode_checkResult resp

/-- A truncation returns zero or an error. -/
theorem truncateData_isCode (pkey : CString) (offset : ℤ) :
    (truncateData pkey offset : Op Text ℤ).Returns IsCode := by
  unfold truncateData
  have hcut : (if offset = 0 then removeData pkey
      else Prod.fst <$> updateBlock pkey none offset : Op Text ℤ).Returns IsCode := by
    split
    · exact removeData_isCode pkey
    · exact Prog.returns_bind (updateBlock_isCode _ _ _) (fun r h => h)
  refine Prog.returns_bind hcut (fun fresult h => ?_)
  split
  · exact h
  · exact updateStat_isCode _ _ _

/-- A write returns `-1` or at most as many bytes as it was given. -/
theorem writeData_isCount (pkey : CString) (buf : Bytes) (offset : ℤ) :
    (writeData pkey buf offset : Op Text ℤ).Returns (IsCount buf.length) := by
  unfold writeData
  split
  · exact isCount_dataDone_error (by decide)
  · refine Prog.returns_bind (updateBlock_isCode _ _ _) (fun r h => ?_)
    dsimp only
    split
    · exact isCount_dataDone_error h
    · split
      · refine Prog.returns_bind (updateStat_isCode _ _ _) (fun fresult h => ?_)
        split
        · exact isCount_dataDone_error h
        · exact isCount_dataDone (Nat.le_refl _)
      · exact isCount_dataDone (Nat.le_refl _)

/-- The length of a read is never more than was asked for, where the copy that
follows does not kill the process. -/
theorem trimmed_le_nbuf {nbuf maxSize : ℕ} {offset : ℤ} (hoff : ¬ offset ≥ toOffT maxSize)
    (h : trimmed maxSize nbuf offset = 0 ∨ 0 ≤ offset) : trimmed maxSize nbuf offset ≤ nbuf := by
  obtain h | h0 := h
  · rw [h]
    exact Nat.zero_le _
  · have hrest := (toSizeT_rest h0 (Int.not_le.mp hoff)).2
    unfold trimmed
    split
    · next hgt =>
      have hsum : (toSizeT (offset + nbuf) : ℤ) ≤ offset + nbuf := by
        unfold toSizeT
        omega
      omega
    · exact Nat.le_refl _

/-- A read returns `-1` or at most as many bytes as it was asked for: it is
trimmed before they are counted. -/
theorem readData_isCount (pkey : CString) (nbuf : ℕ) (offset : ℤ) :
    (readData pkey nbuf offset : Op Text _).Returns (fun r => IsCount nbuf r.1) := by
  rw [readData_call]
  intro resp
  unfold readReply
  dsimp only
  split
  · exact isCount_dataDone_error (isCode_checkResult resp)
  · split
    · exact .inl isCode_zero
    · next hoff =>
      refine Prog.returns_bind (load_starts _ _ _) (fun bytes hload => ?_)
      have hle := trimmed_le_nbuf hoff hload
      refine Prog.returns_bind (updateStat_isCode _ _ _) (fun fresult h => ?_)
      rw [Prog.returns_ret]
      dsimp only
      split
      · exact isCount_dataDone_error h
      · exact isCount_dataDone hle

/-! ## The operations -/

variable [CJson Text]

omit [CJson Text] in
/-- A lookup of attributes returns zero or an error, unless the path is too
long. -/
theorem cbfuseGetattr_isCode (fc : FuseContext) {path : CString} (h : path.length ≤ maxPathLen) :
    (cbfuseGetattr fc path : Op Text _).Returns (fun r => IsCode (codeOf r)) := by
  rw [cbfuseGetattr_eq fc (by omega)]
  intro resp
  dsimp only
  cases hr : statReply resp with
  | none => trivial
  | some r =>
    cases r with
    | error e => exact isCode_of_statReply hr
    | ok r => exact isCode_zero

omit [CJson Text] in
/-- An open returns zero or an error, unless the path is too long. -/
theorem cbfuseOpen_isCode {path : CString} (h : path.length ≤ maxPathLen) :
    (cbfuseOpen path : Op Text ℤ).Returns IsCode := by
  unfold cbfuseOpen
  rw [if_neg (by omega)]
  refine Prog.returns_bind (getStat_isCode path) (fun r hr => ?_)
  cases r with
  | error e => exact hr
  | ok r => exact isCode_zero

/-- A creation returns zero or an error, unless the path of a regular file is
too long. -/
theorem cbfuseCreate_isCode {path : CString} {mode : ℕ}
    (h : sIsreg mode → path.length ≤ maxPathLen) :
    (cbfuseCreate path mode : Op Text ℤ).Returns IsCode := by
  have hinval : IsCode (-einval) := by decide
  unfold cbfuseCreate
  by_cases hreg : sIsreg mode
  · have hlen := h hreg
    rw [if_neg (not_not.mpr hreg), if_neg (by omega)]
    refine Prog.returns_bind (insertStat_isCode path mode) (fun fresult hr => ?_)
    split
    · exact hr
    · exact editDentry_isCode _ _
  · rw [if_pos hreg]
    exact hinval

/-- The making of a directory returns zero or an error: the length of the path
is not tested there. -/
theorem cbfuseMkdir_isCode (path : CString) (mode : ℕ) :
    (cbfuseMkdir path mode : Op Text ℤ).Returns IsCode := by
  have hinval : IsCode (-einval) := by decide
  unfold cbfuseMkdir
  split
  · exact hinval
  · refine Prog.returns_bind (insertStat_isCode path mode) (fun fresult hr => ?_)
    split
    · exact hr
    · refine Prog.returns_bind (addNewDentry_isCode _ _ _) (fun fresult hr => ?_)
      split
      · exact hr
      · exact editDentry_isCode _ _

omit [CJson Text] in
/-- A removal returns what the removal of the stat does. -/
theorem remove_isCode (path : CString) (p q : Op Text ℤ) :
    (do
      let _ ← p
      let _ ← q
      removeStat path : Op Text ℤ).Returns IsCode :=
  Prog.returns_bind (Prog.returns_true _) (fun _ _ =>
    Prog.returns_bind (Prog.returns_true _) (fun _ _ resp => isCode_checkResult resp))

omit [CJson Text] in
/-- **A call on an entry keeps to the convention**, if it returns. -/
theorem EntryOp.code_obeys (op : EntryOp) :
    (op.code : Op Text ℤ).Returns (fun r => (FuseOp.fs (.entry op) : FuseOp β).Obeys r) := by
  cases op with
  | write p buf offset => exact writeData_isCount p buf offset
  | truncate p offset => exact truncateData_isCode p offset
  | read p nbuf offset =>
    exact Prog.returns_bind (readData_isCount p nbuf offset) (fun r hr => hr)
  | chmod p mode => exact updateStat_isCode _ _ _
  | utimens p tv => exact updateStat_isCode _ _ _

/-! ## The answers of the filler -/

section Filler

variable (filler : β → CString → ℕ → ℤ × β)

/-- **What the filler answers** to names offered one after the other, the
first of them being the child at `n`. -/
def answers : List CString → ℕ → β → List ℤ
  | [], _, _ => []
  | name :: names, n, buf =>
    let r := filler buf name (n + 1)
    r.1 :: answers names (n + 1) r.2

omit [CJson Text] in
/-- **What the loop of `cbfuse_readdir` returns**: zero where it comes to a
child that is not a string, and else the last answer. -/
theorem fillLoop_code (offset : ℤ) (children : List Json) (n : ℕ) (fresult : ℤ) (buf : β) :
    (fillLoop filler offset children n fresult buf).1
      = match (children.drop (offset.toNat - n)).mapM Json.getStringValue with
        | none => 0
        | some names =>
          ((answers filler names (max n offset.toNat) buf).getLast?).getD fresult := by
  induction children generalizing n fresult buf with
  | nil =>
    rw [List.drop_nil]
    rfl
  | cons child children ih =>
    rw [fillLoop]
    by_cases hn : (n : ℤ) ≥ offset
    · rw [if_pos hn, show offset.toNat - n = 0 by omega, List.drop_zero,
        max_eq_left (show offset.toNat ≤ n by omega), List.mapM_cons]
      cases hc : child.getStringValue with
      | none => rfl
      | some name =>
        dsimp only
        rw [ih, show offset.toNat - (n + 1) = 0 by omega, List.drop_zero,
          max_eq_left (show offset.toNat ≤ n + 1 by omega)]
        cases children.mapM Json.getStringValue with
        | none => rfl
        | some names =>
          show _ = ((answers filler (name :: names) n buf).getLast?).getD fresult
          rw [answers, List.getLast?_cons]
          rfl
    · rw [if_neg hn, ih, show offset.toNat - n = offset.toNat - (n + 1) + 1 by omega,
        List.drop_succ_cons, max_eq_right (show n + 1 ≤ offset.toNat by omega),
        max_eq_right (show n ≤ offset.toNat by omega)]

end Filler

/-- **The names a listing offers**, after the reply to its fetch: those of the
children from the offset on, if all of these are strings. -/
def offeredNames (offset : ℕ) (resp : Response Text) : Option (List CString) :=
  match dentryReply resp with
  | .error _ => none
  | .ok dentryJson =>
    match Json.arrayItems (Json.getObjectItemCaseSensitive dentryJson dentryChildren) with
    | none => none
    | some children => (children.drop offset).mapM Json.getStringValue

end Cbfuse
