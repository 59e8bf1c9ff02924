import Cbfuse.Store

/-!
# The stat of an entry (`stats.c`)

The stat of an entry is one packed struct under its path. A change to it
is always the same three steps – fetch the struct and its CAS, change some
fields, replace the struct if the CAS is still the one fetched – and the
four functions that make one differ only in whether they read the clock
and in the fields they set. They are one program here, `updateStat`, and
each is that program at its own change.
-/

namespace Cbfuse

variable {Text : Type}

/-! ## The programs -/

/-- `get_stat`: the struct and its CAS, or the error. The copy of the
struct is what the callback got memory for; without it the `memcpy` reads
from `NULL`. -/
def getStat (pkey : CString) : Op Text (Except ℤ (CbfuseStat × ℕ)) := do
  let resp ← askStats (.get pkey)
  if resp.rc ≠ none then
    return .error (-eio)
  let result := syncGetCallback StatDoc.nvalue resp
  if result.status ≠ none then
    return .error (-enoent)
  if result.nvalue ≠ cbfuseStatStructSize then
    return .error (-ebadf)
  match result.value with
  | some (.packed stat) => return .ok (stat, result.cas)
  | _ => Prog.crash

/-- The struct of a new entry. -/
def rootStat (mode : ℕ) (ts : Timespec) : CbfuseStat where
  stMode := mode
  stAtime := ts.tvSec
  stAtimensec := ts.tvNsec
  stMtime := ts.tvSec
  stMtimensec := ts.tvNsec
  stCtime := ts.tvSec
  stCtimensec := ts.tvNsec
  stSize := 0

/-- `insert_stat` -/
def insertStat (pkey : CString) (mode : ℕ) : Op Text ℤ := do
  match ← clockGettime with
  | none => return -eio
  | some ts =>
    let resp ← askStats (.store .insert pkey (.packed (rootStat mode ts)) 0)
    return checkResult (-enoent) resp

/-- `remove_stat` -/
def removeStat (pkey : CString) : Op Text ℤ := do
  let resp ← askStats (.remove pkey)
  return checkResult (-enoent) resp

/-- The common body of the four updates: `clock` says whether the update
reads the clock, `change` sets the fields. An update that does not read
the clock ignores the time it is given. -/
def updateStat (pkey : CString) (clock : Bool) (change : Timespec → CbfuseStat → CbfuseStat) :
    Op Text ℤ := do
  match ← getStat pkey with
  | .error fresult => return fresult
  | .ok (stat, cas) =>
    match ← (if clock then clockGettime else return some ⟨0, 0⟩) with
    | none => return -eio
    | some ts =>
      let resp ← askStats (.store .replace pkey (.packed (change ts stat)) cas)
      return checkResult (-enoent) resp

/-- The access time set to the clock. -/
def CbfuseStat.touchAtime (ts : Timespec) (stat : CbfuseStat) : CbfuseStat :=
  { stat with stAtime := ts.tvSec, stAtimensec := ts.tvNsec }

/-- The modification time set to the clock. -/
def CbfuseStat.touchMtime (ts : Timespec) (stat : CbfuseStat) : CbfuseStat :=
  { stat with stMtime := ts.tvSec, stMtimensec := ts.tvNsec }

/-- `update_stat_atime` -/
def updateStatAtime (pkey : CString) : Op Text ℤ :=
  updateStat pkey true CbfuseStat.touchAtime

/-- `UTIME_NOW` -/
def utimeNow : ℤ := -1

/-- `UTIME_OMIT` -/
def utimeOmit : ℤ := -2

/-- Whether `update_stat_utimens` reads the clock. -/
def utimensNeedsClock : Option (Timespec × Timespec) → Bool
  | none => true
  | some (tv0, tv1) => tv0.tvNsec = utimeNow || tv1.tvNsec = utimeNow

/-- The change of `update_stat_utimens`: each time is set to the clock, to
the value given, or not at all. -/
def CbfuseStat.utimens (tv : Option (Timespec × Timespec)) (now : Timespec)
    (stat : CbfuseStat) : CbfuseStat :=
  match tv with
  | none => (stat.touchAtime now).touchMtime now
  | some (tv0, tv1) =>
    let stat :=
      if tv0.tvNsec = utimeNow then stat.touchAtime now
      else if tv0.tvNsec ≠ utimeOmit then stat.touchAtime tv0
      else stat
    if tv1.tvNsec = utimeNow then stat.touchMtime now
    else if tv1.tvNsec ≠ utimeOmit then stat.touchMtime tv1
    else stat

/-- `update_stat_utimens` -/
def updateStatUtimens (pkey : CString) (tv : Option (Timespec × Timespec)) : Op Text ℤ :=
  updateStat pkey (utimensNeedsClock tv) (CbfuseStat.utimens tv)

/-- The change of `update_stat_size`: the size, a `size_t`, is stored as an
`off_t`. -/
def CbfuseStat.resize (size : ℕ) (ts : Timespec) (stat : CbfuseStat) : CbfuseStat :=
  { stat.touchMtime ts with stSize := toOffT size }

/-- The access time. -/
def CbfuseStat.atime (stat : CbfuseStat) : Timespec := ⟨stat.stAtime, stat.stAtimensec⟩

/-- The modification time. -/
def CbfuseStat.mtime (stat : CbfuseStat) : Timespec := ⟨stat.stMtime, stat.stMtimensec⟩

section Fields

variable (ts : Timespec) (size : ℕ) (stat : CbfuseStat)

@[simp] theorem CbfuseStat.atime_touchAtime : (stat.touchAtime ts).atime = ts := rfl
@[simp] theorem CbfuseStat.atime_touchMtime : (stat.touchMtime ts).atime = stat.atime := rfl
@[simp] theorem CbfuseStat.atime_resize : (stat.resize size ts).atime = stat.atime := rfl
@[simp] theorem CbfuseStat.mtime_touchAtime : (stat.touchAtime ts).mtime = stat.mtime := rfl
@[simp] theorem CbfuseStat.mtime_touchMtime : (stat.touchMtime ts).mtime = ts := rfl
@[simp] theorem CbfuseStat.mtime_resize : (stat.resize size ts).mtime = ts := rfl
@[simp] theorem CbfuseStat.stMode_touchAtime : (stat.touchAtime ts).stMode = stat.stMode := rfl
@[simp] theorem CbfuseStat.stMode_touchMtime : (stat.touchMtime ts).stMode = stat.stMode := rfl
@[simp] theorem CbfuseStat.stMode_resize : (stat.resize size ts).stMode = stat.stMode := rfl
@[simp] theorem CbfuseStat.atime_rootStat : (rootStat size ts).atime = ts := rfl
@[simp] theorem CbfuseStat.stMode_rootStat : (rootStat size ts).stMode = size := rfl

end Fields

/-- Setting the times leaves the mode. -/
@[simp] theorem CbfuseStat.stMode_utimens (tv : Option (Timespec × Timespec)) (ts : Timespec)
    (stat : CbfuseStat) : (stat.utimens tv ts).stMode = stat.stMode := by
  unfold utimens
  split
  · rfl
  · dsimp only
    split_ifs <;> rfl

@[simp] theorem CbfuseStat.stSize_resize (size : ℕ) (ts : Timespec) (stat : CbfuseStat) :
    (stat.resize size ts).stSize = toOffT size := by
  simp only [resize]

/-- `update_stat_size` -/
def updateStatSize (pkey : CString) (size : ℕ) : Op Text ℤ :=
  updateStat pkey true (CbfuseStat.resize size)

/-- `update_stat_mode` -/
def updateStatMode (pkey : CString) (mode : ℕ) : Op Text ℤ :=
  updateStat pkey false (fun _ stat => { stat with stMode := mode })

/-- The insertion of a stat, once the clock is read. -/
def insertStatAt (pkey : CString) (mode : ℕ) (ts : Timespec) : Op Text ℤ :=
  .call (.stats (.store .insert pkey (.packed (rootStat mode ts)) 0))
    (fun resp => .ret (checkResult (-enoent) resp))

theorem insertStat_eq (pkey : CString) (mode : ℕ) :
    (insertStat pkey mode : Op Text ℤ)
      = .call .clockGettime (fun now =>
          match now with
          | none => .ret (-eio)
          | some ts => insertStatAt pkey mode ts) := by
  unfold insertStat clockGettime
  rw [Prog.call_bind]
  congr 1
  funext now
  cases now <;> rfl

/-! ## What `get_stat` makes of a reply -/

/-- The result of `get_stat` on a reply: nothing if the process dies. -/
def statReply (resp : Response StatDoc) : Option (Except ℤ (CbfuseStat × ℕ)) :=
  if resp.rc ≠ none then some (.error (-eio))
  else if resp.status ≠ none then some (.error (-enoent))
  else
    match resp.doc with
    | none => some (.error (-ebadf))
    | some ⟨.malformed _ _, _⟩ => some (.error (-ebadf))
    | some ⟨.packed stat, cas⟩ => if resp.alloc then some (.ok (stat, cas)) else none

/-- What `get_stat` hands out is the document of the reply. -/
theorem doc_of_statReply {resp : Response StatDoc} {stat : CbfuseStat} {cas : ℕ}
    (h : statReply resp = some (.ok (stat, cas))) : resp.doc = some ⟨.packed stat, cas⟩ := by
  unfold statReply at h
  split at h
  · cases h
  · split at h
    · cases h
    · split at h
      · cases h
      · cases h
      · next hd =>
        split at h
        · cases h
          exact hd
        · cases h

/-- What `get_stat` hands out came without an error, and was copied. -/
theorem granted_of_statReply {resp : Response StatDoc} {r : CbfuseStat × ℕ}
    (h : statReply resp = some (.ok r)) :
    resp.rc = none ∧ resp.status = none ∧ resp.alloc = true := by
  unfold statReply at h
  split at h
  · cases h
  · next hrc =>
    split at h
    · cases h
    · next hst =>
      refine ⟨not_not.mp hrc, not_not.mp hst, ?_⟩
      split at h
      · cases h
      · cases h
      · split at h
        · next halloc => exact halloc
        · cases h

/-- Every error of `get_stat` is negative. -/
theorem statReply_error_neg {resp : Response StatDoc} {e : ℤ}
    (h : statReply resp = some (.error e)) : e < 0 := by
  unfold statReply at h
  split at h
  · cases h
    decide
  · split at h
    · cases h
      decide
    · split at h
      · cases h
        decide
      · cases h
        decide
      · split at h <;> cases h

/-- `get_stat` makes one request and decides on its reply. -/
theorem getStat_eq (pkey : CString) :
    (getStat pkey : Op Text _)
      = .call (.stats (.get pkey)) (fun resp =>
          match statReply resp with
          | some r => .ret r
          | none => .crash) := by
  unfold getStat askStats
  rw [Prog.call_bind]
  congr 1
  funext ⟨⟨rc, status, doc⟩, alloc⟩
  unfold statReply syncGetCallback
  cases rc with
  | some e => simp
  | none =>
    cases status with
    | some e => simp
    | none =>
      cases doc with
      | none => simp [cbfuseStatStructSize]
      | some d =>
        obtain ⟨v, cas⟩ := d
        cases v with
        | malformed n h => simp [StatDoc.nvalue, h]
        | packed stat => cases alloc <;> simp [StatDoc.nvalue]

/-- The end of an update: the struct it fetched, changed, is stored under
the CAS it was fetched with. -/
def replaceStat (pkey : CString) (clock : Bool) (change : Timespec → CbfuseStat → CbfuseStat)
    (stat : CbfuseStat) (cas : ℕ) : Op Text ℤ :=
  let store (ts : Timespec) : Op Text ℤ :=
    .call (.stats (.store .replace pkey (.packed (change ts stat)) cas))
      (fun resp => .ret (checkResult (-enoent) resp))
  if clock then
    .call .clockGettime (fun now =>
      match now with
      | none => .ret (-eio)
      | some ts => store ts)
  else store ⟨0, 0⟩

/-- An update, request by request. -/
theorem updateStat_eq (pkey : CString) (clock : Bool)
    (change : Timespec → CbfuseStat → CbfuseStat) :
    (updateStat pkey clock change : Op Text ℤ)
      = .call (.stats (.get pkey)) (fun resp =>
          match statReply resp with
          | none => .crash
          | some (.error e) => .ret e
          | some (.ok (stat, cas)) => replaceStat pkey clock change stat cas) := by
  unfold updateStat
  rw [getStat_eq, Prog.call_bind]
  congr 1
  funext resp
  cases statReply resp with
  | none => rfl
  | some r =>
    cases r with
    | error e => rfl
    | ok r =>
      unfold replaceStat
      cases clock with
      | false => rfl
      | true =>
        show Prog.call _ _ = Prog.call _ _
        congr 1
        funext now
        cases now <;> rfl

/-- The request reads the clock, or fetches or replaces the stat of
`pkey`. -/
def Req.UpdatesStat (pkey : CString) : Req Text → Prop
  | .stats (.get k) => k = pkey
  | .stats (.store op k _ _) => op = .replace ∧ k = pkey
  | .clockGettime => True
  | _ => False

theorem updateStat_only (pkey : CString) (clock : Bool)
    (change : Timespec → CbfuseStat → CbfuseStat) :
    (updateStat pkey clock change : Op Text ℤ).Only (Req.UpdatesStat pkey) := by
  rw [updateStat_eq]
  refine ⟨rfl, fun resp => ?_⟩
  dsimp only
  split
  · trivial
  · trivial
  · unfold replaceStat
    split
    · refine ⟨trivial, fun now => ?_⟩
      cases now with
      | none => trivial
      | some ts => exact ⟨⟨rfl, rfl⟩, fun _ => trivial⟩
    · exact ⟨⟨rfl, rfl⟩, fun _ => trivial⟩

/-- An update of a stat has nothing to do with blocks. -/
theorem updateStat_leavesBlocks (pkey : CString) (clock : Bool)
    (change : Timespec → CbfuseStat → CbfuseStat) :
    (updateStat pkey clock change : Op Text ℤ).Only Req.LeavesBlocks := by
  refine (updateStat_only pkey clock change).mono (fun q hq => ?_)
  cases q with
  | blocks r => exact hq.elim
  | _ => trivial

/-! ## What the programs do when nothing fails -/

/-- What a fetch of the stat of `p` finds. -/
def Store.statOf (s : Store Text) (p : CString) : Except ℤ (CbfuseStat × ℕ) :=
  match s.stats.docs p with
  | none => .error (-enoent)
  | some ⟨.malformed _ _, _⟩ => .error (-ebadf)
  | some ⟨.packed stat, cas⟩ => .ok (stat, cas)

/-- Every error of a fetch is negative. -/
theorem Store.statOf_error_neg {s : Store Text} {p : CString} {e : ℤ}
    (h : s.statOf p = .error e) : e < 0 := by
  unfold statOf at h
  split at h
  · cases h
    decide
  · cases h
    decide
  · cases h

theorem Store.docs_of_statOf {s : Store Text} {p : CString} {stat : CbfuseStat} {cas : ℕ}
    (h : s.statOf p = .ok (stat, cas)) : s.stats.docs p = some ⟨.packed stat, cas⟩ := by
  unfold statOf at h
  split at h
  · cases h
  · cases h
  · next hd =>
    cases h
    exact hd

/-- A fetch finds a packed struct. -/
theorem Store.statOf_of_val {s : Store Text} {p : CString} {stat : CbfuseStat}
    (h : s.stats.val p = some (.packed stat)) : ∃ cas, s.statOf p = .ok (stat, cas) := by
  obtain ⟨⟨v, cas⟩, hd, rfl⟩ := Option.map_eq_some_iff.mp h
  exact ⟨cas, by simp only [statOf, hd]⟩

section FaultFree

variable {I : Store Text → Prop} {s : Store Text} {p : CString}

theorem wp_getStat {post : Except ℤ (CbfuseStat × ℕ) → Store Text → Prop} (hI : I s)
    (h : post (s.statOf p) s) :
    (getStat p).wp serve Choice.FaultFree I post s := by
  rw [getStat_eq]
  intro c hc
  rw [hc.serve_stats]
  unfold Store.statOf at h
  cases hd : s.stats.docs p with
  | none =>
    rw [hd] at h
    simp only [Kv.Collection.serve, hd]
    exact ⟨hI, h⟩
  | some d =>
    rw [hd] at h
    simp only [Kv.Collection.serve, hd]
    obtain ⟨v, cas⟩ := d
    cases v with
    | packed stat => exact ⟨hI, h⟩
    | malformed n hn => exact ⟨hI, h⟩

theorem wp_insertStatAt {mode : ℕ} {ts : Timespec} {post : ℤ → Store Text → Prop} (hI : I s)
    (hnew : s.stats.val p = none →
      I (s.putStat p (rootStat mode ts)) ∧ post 0 (s.putStat p (rootStat mode ts)))
    (hold : s.stats.val p ≠ none → post (-enoent) s) :
    (insertStatAt p mode ts).wp serve Choice.FaultFree I post s := by
  intro c hc
  rw [hc.serve_stats]
  cases hd : s.stats.docs p with
  | none =>
    have hv : s.stats.verdict .insert p 0 = none := by simp only [Kv.Collection.verdict, hd]
    simp only [Kv.Collection.serve, hv]
    exact hnew ((Kv.Collection.val_eq_none _ _).mpr hd)
  | some d =>
    have hv : s.stats.verdict .insert p 0 = some .keyExists := by
      simp only [Kv.Collection.verdict, hd]
    simp only [Kv.Collection.serve, hv]
    refine ⟨hI, hold ?_⟩
    exact Kv.Collection.val_ne_none_of_docs hd

theorem wp_insertStat {mode : ℕ} {post : ℤ → Store Text → Prop} (hI : I s)
    (hnew : s.stats.val p = none → ∀ ts,
      I (s.putStat p (rootStat mode ts)) ∧ post 0 (s.putStat p (rootStat mode ts)))
    (hold : s.stats.val p ≠ none → post (-enoent) s) :
    (insertStat p mode).wp serve Choice.FaultFree I post s := by
  rw [insertStat_eq]
  intro c hc
  obtain ⟨ts, hts⟩ := hc.exists_now
  refine ⟨hI, ?_⟩
  simp only [serve, hts]
  exact wp_insertStatAt hI (fun hnone => hnew hnone ts) hold

theorem wp_removeStat {post : ℤ → Store Text → Prop} (hI : I s)
    (hold : s.stats.val p ≠ none → I (s.eraseStat p) ∧ post 0 (s.eraseStat p))
    (hnone : s.stats.val p = none → post (-enoent) s) :
    (removeStat p).wp serve Choice.FaultFree I post s := by
  unfold removeStat askStats
  rw [Prog.call_bind]
  intro c hc
  rw [hc.serve_stats]
  cases hd : s.stats.docs p with
  | none =>
    simp only [Kv.Collection.serve, hd]
    exact ⟨hI, hnone ((Kv.Collection.val_eq_none _ _).mpr hd)⟩
  | some d =>
    simp only [Kv.Collection.serve, hd]
    exact hold (Kv.Collection.val_ne_none_of_docs hd)

/-- An update of an entry that has a well-formed stat sets it; any other
update changes nothing. -/
theorem wp_updateStat {clock : Bool} {change : Timespec → CbfuseStat → CbfuseStat}
    {post : ℤ → Store Text → Prop} (hI : I s)
    (herr : ∀ e, s.statOf p = .error e → post e s)
    (hok : ∀ stat cas ts, s.statOf p = .ok (stat, cas) →
      I (s.putStat p (change ts stat)) ∧ post 0 (s.putStat p (change ts stat))) :
    (updateStat p clock change).wp serve Choice.FaultFree I post s := by
  unfold updateStat
  rw [Prog.wp_bind]
  refine wp_getStat hI ?_
  cases hs : s.statOf p with
  | error e => exact herr e hs
  | ok r =>
    obtain ⟨stat, cas⟩ := r
    -- the replace is served: the CAS is the one just fetched
    have hrep : ∀ ts, (do
          let resp ← askStats (.store .replace p (.packed (change ts stat)) cas)
          return checkResult (-enoent) resp : Op Text ℤ).wp serve Choice.FaultFree I post s := by
      intro ts c hc
      have hv : s.stats.verdict .replace p cas = none :=
        Kv.Collection.verdict_replace_cas (Store.docs_of_statOf hs)
      rw [hc.serve_stats]
      simp only [Kv.Collection.serve, hv]
      exact hok stat cas ts hs
    cases clock with
    | false => exact hrep _
    | true =>
      intro c hc
      obtain ⟨ts, hts⟩ := hc.exists_now
      refine ⟨hI, ?_⟩
      simp only [serve, hts]
      exact hrep ts

end FaultFree

end Cbfuse
