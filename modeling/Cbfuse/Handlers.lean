import Cbfuse.Data
import Cbfuse.Dentries

/-!
# The file system operations (`cbfuse.c`)

The operations FUSE calls. The four that change the tree work on up to
three documents, one request at a time: the stat of the entry, its
directory document or its block, and the directory document of its parent.
Making an entry stops at the first failure; removing one goes on
regardless and reports only the last step.

Neither `dirname` nor `basename` returns `NULL`, so the test of their
results that opens these operations has no counterpart here.
-/

namespace Cbfuse

variable {Text : Type} [CJson Text]

/-- `S_ISREG` -/
def sIsreg (mode : ℕ) : Prop := mode &&& sIfmt = sIfreg

instance (mode : ℕ) : Decidable (sIsreg mode) := inferInstanceAs (Decidable (_ = _))

/-- `S_ISDIR` -/
def sIsdir (mode : ℕ) : Prop := mode &&& sIfmt = sIfdir

instance (mode : ℕ) : Decidable (sIsdir mode) := inferInstanceAs (Decidable (_ = _))

/-- A mode is of one type only. -/
theorem not_sIsdir_of_sIsreg {mode : ℕ} (h : sIsreg mode) : ¬ sIsdir mode := by
  intro hdir
  have hne : sIfreg ≠ sIfdir := by decide
  exact hne (h.symm.trans hdir)

/-- `struct fuse_context`, as far as it is looked at. -/
structure FuseContext where
  /-- `uid` -/
  uid : ℕ
  /-- `gid` -/
  gid : ℕ

/-- `struct stat`, as far as it is filled. -/
structure FuseStat extends CbfuseStat where
  /-- `st_uid` -/
  stUid : ℕ
  /-- `st_gid` -/
  stGid : ℕ

/-- `cbfuse_getattr`: the stat it fills, or the error. The struct is read
from the copy the callback got memory for. -/
def cbfuseGetattr (fc : FuseContext) (path : CString) : Op Text (Except ℤ FuseStat) := do
  if path.length > maxPathLen then
    return .error enametoolong
  let resp ← askStats (.get path)
  if resp.rc ≠ none then
    return .error (-eio)
  let result := syncGetCallback StatDoc.nvalue resp
  if result.status ≠ none then
    return .error (-enoent)
  if result.nvalue ≠ cbfuseStatStructSize then
    return .error (-ebadf)
  match result.value with
  | some (.packed stres) => return .ok { stres with stUid := fc.uid, stGid := fc.gid }
  | _ => Prog.crash

/-- `cbfuse_create` -/
def cbfuseCreate (path : CString) (mode : ℕ) : Op Text ℤ := do
  if ¬ sIsreg mode then
    return -einval
  if path.length > maxPathLen then
    return enametoolong
  let fresult ← insertStat path mode
  if fresult ≠ 0 then
    return fresult
  addChildToDentry path.dirname path.basename

/-- `cbfuse_unlink` -/
def cbfuseUnlink (path : CString) : Op Text ℤ := do
  -- only the last of the three results is looked at
  let _ ← removeData path
  let _ ← removeChildFromDentry path.dirname path.basename
  removeStat path

/-- `cbfuse_mkdir`: the test of the mode is of `mode | S_IFDIR`. -/
def cbfuseMkdir (path : CString) (mode : ℕ) : Op Text ℤ := do
  if mode ||| sIfdir = 0 then
    return -einval
  let fresult ← insertStat path mode
  if fresult ≠ 0 then
    return fresult
  let fresult ← addNewDentry path path (some path.dirname)
  if fresult ≠ 0 then
    return fresult
  addChildToDentry path.dirname path.basename

/-- `cbfuse_rmdir` -/
def cbfuseRmdir (path : CString) : Op Text ℤ := do
  -- only the last of the three results is looked at
  let _ ← removeDentry path
  let _ ← removeChildFromDentry path.dirname path.basename
  removeStat path

/-- `cbfuse_chmod` -/
def cbfuseChmod (path : CString) (mode : ℕ) : Op Text ℤ := updateStatMode path mode

/-- `cbfuse_utimens` -/
def cbfuseUtimens (path : CString) (tv : Option (Timespec × Timespec)) : Op Text ℤ :=
  updateStatUtimens path tv

/-- `insert_root` -/
def insertRoot : Op Text ℤ := do
  let fresult ← insertStat CString.rootDirString (sIfdir ||| 0o755)
  if fresult ≠ 0 then
    return fresult
  addNewDentry CString.rootDirString CString.rootDirString none

omit [CJson Text] in
/-- `cbfuse_getattr` fetches the stat as `get_stat` does. -/
theorem cbfuseGetattr_eq (fc : FuseContext) {path : CString} (h : ¬ path.length > maxPathLen) :
    (cbfuseGetattr fc path : Op Text _)
      = .call (.stats (.get path)) (fun resp =>
          match statReply resp with
          | none => .crash
          | some (.error e) => .ret (.error e)
          | some (.ok (stat, _)) => .ret (.ok { stat with stUid := fc.uid, stGid := fc.gid })) := by
  unfold cbfuseGetattr askStats
  rw [if_neg h, Prog.call_bind]
  congr 1
  funext ⟨⟨rc, status, doc⟩, alloc⟩
  unfold statReply syncGetCallback
  cases rc with
  | some e => simp
  | none =>
    cases status with
    | some e => simp
    | none =>
      cases doc with
      | none => simp [cbfuseStatStructSize]
      | some d =>
        obtain ⟨v, cas⟩ := d
        cases v with
        | malformed n h => simp [StatDoc.nvalue, h]
        | packed stat => cases alloc <;> simp [StatDoc.nvalue]

/-- The test of the mode in `cbfuse_mkdir` never fails. -/
theorem or_sIfdir_ne_zero (mode : ℕ) : mode ||| sIfdir ≠ 0 := by
  have h : sIfdir ≤ mode ||| sIfdir := Nat.right_le_or
  have hpos : 0 < sIfdir := by decide
  omega

end Cbfuse
