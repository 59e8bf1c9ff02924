import Cbfuse.Entries

/-!
# The attributes of an entry (`stats.c`, `cbfuse_getattr`)

A stat is stored whole, so a call that changes one of its fields stores the
others over again. What it stores is what it fetched, and with nobody else
about that is what was there: each attribute is the one that the last call
whose business it is has set (`attributes_lastSet`).

Whose business it is can be told from the call, its result, the clock value
it read and what the store held (`World.setsMode`, `World.setsAtime`,
`World.setsMtime`). A call that makes the entry sets all of them, also where
it fails afterwards.
-/

namespace Cbfuse

variable {Text : Type} [CJson Text]

/-! ## The times of `utimens` -/

/-- What `utimens` makes of a time it is given: the clock for `UTIME_NOW`, nothing
for `UTIME_OMIT`, and else that time. -/
def utimensTime (clock : Option Timespec) (tv : Timespec) : Option Timespec :=
  if tv.tvNsec = utimeNow then clock
  else if tv.tvNsec = utimeOmit then none
  else some tv

/-- What `utimens` sets one of the two times to, `which` being the one of the pair
that is asked for. Without a pair both times are the clock. -/
def utimensSets (which : Timespec × Timespec → Timespec) (clock : Option Timespec) :
    Option (Timespec × Timespec) → Option Timespec
  | none => clock
  | some tv => utimensTime clock (which tv)

omit [CJson Text] in
/-- A time is set to the clock, not at all, or to the value given. -/
theorem utimensSets_cases (which : Timespec × Timespec → Timespec) (clock : Option Timespec)
    (tv : Option (Timespec × Timespec)) :
    utimensSets which clock tv = clock ∨ utimensSets which clock tv = none
      ∨ ∃ pair, tv = some pair ∧ utimensSets which clock tv = some (which pair)
        ∧ (which pair).tvNsec ≠ utimeNow ∧ (which pair).tvNsec ≠ utimeOmit := by
  cases tv with
  | none => exact .inl rfl
  | some pair =>
    unfold utimensSets utimensTime
    dsimp only
    split
    · exact .inl rfl
    · next hnow =>
      split
      · exact .inr (.inl rfl)
      · next homit => exact .inr (.inr ⟨pair, rfl, rfl, hnow, homit⟩)

omit [CJson Text] in
/-- The access time after `utimens`. -/
theorem CbfuseStat.atime_utimens (tv : Option (Timespec × Timespec)) (now : Timespec)
    (stat : CbfuseStat) :
    (stat.utimens tv now).atime = (utimensSets Prod.fst (some now) tv).getD stat.atime := by
  unfold utimens utimensSets utimensTime
  split
  · rfl
  · dsimp only
    split_ifs <;> first | rfl | contradiction

omit [CJson Text] in
/-- The modification time after `utimens`. -/
theorem CbfuseStat.mtime_utimens (tv : Option (Timespec × Timespec)) (now : Timespec)
    (stat : CbfuseStat) :
    (stat.utimens tv now).mtime = (utimensSets Prod.snd (some now) tv).getD stat.mtime := by
  unfold utimens utimensSets utimensTime
  split
  · rfl
  · dsimp only
    split_ifs <;> first | rfl | contradiction

namespace World

/-! ## What a call sets -/

/-- The first clock value a call reads. -/
def clock (x : FsOp × (ℕ → Choice)) (w : World Text) : Option Timespec := (readings x w).head?

/-- **The call makes the entry `p`**: there was no stat, and there is one. -/
def Makes (p : CString) (x : FsOp × (ℕ → Choice)) (w : World Text) : Prop :=
  w.store.statAt p = none ∧ (step x w).store.statAt p ≠ none

instance (p : CString) (x : FsOp × (ℕ → Choice)) (w : World Text) : Decidable (Makes p x w) :=
  inferInstanceAs (Decidable (_ ∧ _))

/-- **The mode a call sets**: the one it makes the entry with, or that of a
`chmod` that succeeds. -/
def setsMode (p : CString) (x : FsOp × (ℕ → Choice)) (w : World Text) : Option ℕ :=
  match x.1 with
  | .tree op => if op.path = p ∧ Makes p x w then op.mode else none
  | .entry (.chmod q mode) => if q = p ∧ result x w = some 0 then some mode else none
  | _ => none

/-- **The access time a call sets**: making the entry and reading from before
the end of its block set it to the clock, and `utimens` as it is told. -/
def setsAtime (p : CString) (x : FsOp × (ℕ → Choice)) (w : World Text) : Option Timespec :=
  match x.1 with
  | .tree op => if op.path = p ∧ Makes p x w then clock x w else none
  | .entry (.read q _ offset) =>
    if q = p ∧ offset < (w.store.bytesOf p).length then clock x w else none
  | .entry (.utimens q tv) => if q = p then utimensSets Prod.fst (clock x w) tv else none
  | _ => none

/-- **The modification time a call sets**: `utimens` sets it as it is told.
A write, a truncation and making the entry end what was set before, to
nothing that is said here. -/
def setsMtime (p : CString) (x : FsOp × (ℕ → Choice)) (w : World Text) :
    Option (Option Timespec) :=
  match x.1 with
  | .tree op => if op.path = p ∧ Makes p x w then some none else none
  | .entry (.write q _ _) => if q = p then some none else none
  | .entry (.truncate q _) => if q = p then some none else none
  | .entry (.utimens q tv) =>
    if q = p then (utimensSets Prod.snd (clock x w) tv).map some else none
  | _ => none

/-- Where one of the times is to be the clock, `utimens` reads it. -/
theorem utimensSets_of_readings (which : Timespec × Timespec → Timespec)
    (hwhich : ∀ tv, (which tv).tvNsec = utimeNow → utimensNeedsClock (some tv) = true)
    {x : FsOp × (ℕ → Choice)} {w : World Text} {q : CString} {v : Option Bytes}
    {tv : Option (Timespec × Timespec)} {ts : Timespec}
    (hread : readings x w
      = if (EntryOp.utimens q tv).Restats v ∧ (EntryOp.utimens q tv).clock then [ts] else []) :
    utimensSets which (clock x w) tv = utimensSets which (some ts) tv := by
  unfold clock
  rw [hread]
  by_cases hclock : utimensNeedsClock tv = true
  · rw [if_pos ⟨trivial, hclock⟩]
    rfl
  · cases tv with
    | none => exact absurd rfl hclock
    | some tv =>
      have hnow : (which tv).tvNsec ≠ utimeNow := fun h => hclock (hwhich tv h)
      unfold utimensSets utimensTime
      dsimp only
      rw [if_neg hnow, if_neg hnow]

/-! ## What is there was set last -/

section LastSet

variable {p : CString} {env₀ : ℕ → Choice} {calls : List (FsOp × (ℕ → Choice))}

/-- **From one call to a run.** Suppose that what is said of a value and a stat
is made so by the calls that make the stat and by those that change it, and
that no other call sets a value. Then it is so of the value set last and of
the stat at the end. -/
theorem lastSet_stat {β : Type} {sets : FsOp × (ℕ → Choice) → World Text → Option β}
    {R : Option β → CbfuseStat → Prop}
    (hkept : ∀ x w, (∀ op, x.1 = .entry op → op.path ≠ p) → ¬ Makes p x w → sets x w = none)
    (hmade : ∀ x w o op mode ts, x.1 = .tree op → op.path = p → op.mode = some mode →
      clock x w = some ts → Makes p x w → R ((sets x w).or o) (rootStat mode ts))
    (hchanged : ∀ x w o op stat ts, x.1 = .entry op → op.path = p →
      result x w = some (op.result (w.store.blocks.val p)) →
      readings x w = (if op.Restats (w.store.blocks.val p) ∧ op.clock then [ts] else []) →
      R o stat → R ((sets x w).or o) (op.restat (w.store.blocks.val p) ts stat))
    (henv₀ : ∀ n, (env₀ n).FaultFree) (hcalls : ∀ x ∈ calls, Runs x) {o : Option β}
    (ho : ∀ stat, (start env₀ : World Text).store.statAt p = some stat → R o stat)
    {stat : CbfuseStat}
    (hs : (Machine.final step calls (start env₀ : World Text)).store.statAt p = some stat) :
    R ((Machine.lastSet step sets calls (start env₀)).or o) stat := by
  have hset : ∀ x (w : World Text) o, w.store.Shapely → Runs x →
      (∀ stat, w.store.statAt p = some stat → R o stat) →
      ∀ stat, (step x w).store.statAt p = some stat → R ((sets x w).or o) stat := by
    intro x w o hs hx ho stat hstat
    have hstep := statStep hs hx p
    generalize hbefore : w.store.statAt p = before at hstep
    generalize hafter : (step x w).store.statAt p = after at hstep
    cases hstep with
    | gone => cases hafter.symm.trans hstat
    | kept hpath =>
      have hno : ¬ Makes p x w := fun hmakes =>
        hmakes.2 (hafter.trans (hbefore.symm.trans hmakes.1))
      have hother : ∀ op, x.1 = .entry op → op.path ≠ p := by
        intro op hop hp
        obtain ⟨op', hop'⟩ := hpath (by rw [hop]; exact hp)
        cases hop.symm.trans hop'
      rw [hkept x w hother hno]
      exact ho stat (hbefore.trans (hafter.symm.trans hstat))
    | made hop hpath hmode hread =>
      cases hafter.symm.trans hstat
      exact hmade x w o _ _ _ hop hpath hmode hread
        ⟨hbefore, by rw [hafter]; exact Option.some_ne_none _⟩
    | changed hop hpath hresult hread =>
      cases hafter.symm.trans hstat
      exact hchanged x w o _ _ _ hop hpath hresult hread (ho _ hbefore)
  exact @Machine.lastSet_final _ _ step _ _ _ sets
    (fun o w => ∀ stat, w.store.statAt p = some stat → R o stat)
    (fun x w h hx => shapely_step x w h hx) hset _ _ (shapely_start henv₀)
    (Machine.meets_of_forall hcalls) _ ho stat hs

/-- **The mode.** -/
theorem stMode_lastSet (henv₀ : ∀ n, (env₀ n).FaultFree) (hcalls : ∀ x ∈ calls, Runs x)
    {stat : CbfuseStat}
    (hs : (Machine.final step calls (start env₀ : World Text)).store.statAt p = some stat) :
    (Machine.lastSet step (setsMode p) calls (start env₀ : World Text)).or
        (((start env₀ : World Text).store.statAt p).map CbfuseStat.stMode)
      = some stat.stMode := by
  refine lastSet_stat (R := fun o stat => o = some stat.stMode) ?_ ?_ ?_ henv₀ hcalls ?_ hs
  · rintro ⟨op, env⟩ w hother hno
    unfold setsMode
    cases op with
    | tree op => exact if_neg (fun h => hno h.2)
    | entry op =>
      cases op with
      | chmod q mode => exact if_neg (fun h => hother _ rfl h.1)
      | _ => rfl
  · rintro x w o op mode ts hop hpath hmode - hmakes
    unfold setsMode
    rw [hop]
    show (if op.path = p ∧ Makes p x w then op.mode else none).or o = _
    rw [if_pos ⟨hpath, hmakes⟩, hmode]
    rfl
  · rintro ⟨-, env⟩ w o op stat ts rfl hpath hresult - ho
    unfold EntryOp.restat
    cases op with
    | chmod q mode =>
      unfold setsMode
      rw [if_pos (show (EntryOp.chmod q mode).Restats _ from trivial)]
      show (if q = p ∧ result _ w = some 0 then some mode else none).or o = _
      rw [if_pos ⟨hpath, hresult⟩]
      rfl
    | utimens q tv =>
      rw [if_pos (show (EntryOp.utimens q tv).Restats _ from trivial)]
      exact ho.trans (congrArg some (CbfuseStat.stMode_utimens tv ts stat).symm)
    | _ => split <;> exact ho
  · rintro stat hstat
    rw [hstat]
    rfl

/-- **The access time.** -/
theorem atime_lastSet (henv₀ : ∀ n, (env₀ n).FaultFree) (hcalls : ∀ x ∈ calls, Runs x)
    {stat : CbfuseStat}
    (hs : (Machine.final step calls (start env₀ : World Text)).store.statAt p = some stat) :
    (Machine.lastSet step (setsAtime p) calls (start env₀ : World Text)).or
        (((start env₀ : World Text).store.statAt p).map CbfuseStat.atime)
      = some stat.atime := by
  refine lastSet_stat (R := fun o stat => o = some stat.atime) ?_ ?_ ?_ henv₀ hcalls ?_ hs
  · rintro ⟨op, env⟩ w hother hno
    unfold setsAtime
    cases op with
    | tree op => exact if_neg (fun h => hno h.2)
    | entry op =>
      cases op with
      | read q nbuf offset => exact if_neg (fun h => hother _ rfl h.1)
      | utimens q tv => exact if_neg (hother _ rfl)
      | _ => rfl
  · rintro x w o op mode ts hop hpath - hclock hmakes
    unfold setsAtime
    rw [hop]
    show (if op.path = p ∧ Makes p x w then clock x w else none).or o = _
    rw [if_pos ⟨hpath, hmakes⟩, hclock]
    rfl
  · rintro ⟨-, env⟩ w o op stat ts rfl hpath - hread ho
    unfold EntryOp.restat
    cases op with
    | read q nbuf offset =>
      unfold setsAtime
      show (if q = p ∧ offset < (w.store.bytesOf p).length then clock _ w else none).or o = _
      by_cases hlt : offset < (w.store.bytesOf p).length
      · have hre : (EntryOp.read q nbuf offset).Restats (w.store.blocks.val p) := hlt
        unfold clock
        rw [if_pos ⟨hpath, hlt⟩, if_pos hre, hread, if_pos ⟨hre, rfl⟩]
        rfl
      · rw [if_neg (fun h => hlt h.2),
          if_neg (show ¬ (EntryOp.read q nbuf offset).Restats _ from hlt)]
        exact ho
    | utimens q tv =>
      have hre : (EntryOp.utimens q tv).Restats (w.store.blocks.val p) := trivial
      unfold setsAtime
      show (if q = p then utimensSets Prod.fst (clock _ w) tv else none).or o = _
      rw [if_pos (show q = p from hpath), if_pos hre, ho,
        utimensSets_of_readings _ (fun tv h => by simp [utimensNeedsClock, h]) hread]
      show _ = some (stat.utimens tv ts).atime
      rw [CbfuseStat.atime_utimens]
      cases utimensSets Prod.fst (some ts) tv <;> rfl
    | _ => split <;> exact ho
  · rintro stat hstat
    rw [hstat]
    rfl

/-- **The modification time**, where it was set to a value. -/
theorem mtime_lastSet (henv₀ : ∀ n, (env₀ n).FaultFree) (hcalls : ∀ x ∈ calls, Runs x)
    {stat : CbfuseStat}
    (hs : (Machine.final step calls (start env₀ : World Text)).store.statAt p = some stat)
    {ts : Timespec}
    (hset : Machine.lastSet step (setsMtime p) calls (start env₀ : World Text) = some (some ts)) :
    stat.mtime = ts := by
  refine lastSet_stat (o := none) (R := fun o stat => ∀ ts, o = some (some ts) → stat.mtime = ts)
    ?_ ?_ ?_ henv₀ hcalls (fun _ _ ts h => by cases h) hs ts (by rw [hset]; rfl)
  · rintro ⟨op, env⟩ w hother hno
    unfold setsMtime
    cases op with
    | tree op => exact if_neg (fun h => hno h.2)
    | entry op =>
      cases op with
      | read q nbuf offset => rfl
      | chmod q mode => rfl
      | _ => exact if_neg (hother _ rfl)
  · rintro x w o op mode ts₀ hop hpath - - hmakes ts h
    have hnone : setsMtime p x w = some none := by
      unfold setsMtime
      rw [hop]
      exact if_pos ⟨hpath, hmakes⟩
    rw [hnone] at h
    cases h
  · rintro ⟨-, env⟩ w o op stat ts₀ rfl hpath - hread ho ts h
    unfold EntryOp.restat
    cases op with
    | utimens q tv =>
      have hre : (EntryOp.utimens q tv).Restats (w.store.blocks.val p) := trivial
      have hsets : setsMtime p (.entry (.utimens q tv), env) w
          = (utimensSets Prod.snd (some ts₀) tv).map some := by
        rw [← utimensSets_of_readings _ (fun tv h => by simp [utimensNeedsClock, h]) hread]
        exact if_pos hpath
      rw [hsets] at h
      rw [if_pos hre]
      show (stat.utimens tv ts₀).mtime = ts
      rw [CbfuseStat.mtime_utimens]
      cases hu : utimensSets Prod.snd (some ts₀) tv with
      | none =>
        rw [hu] at h
        exact ho ts h
      | some ts₁ =>
        rw [hu] at h
        cases h
        rfl
    | read q nbuf offset => split <;> exact ho ts h
    | chmod q mode => split <;> exact ho ts h
    | write q buf offset =>
      have hsets : setsMtime p (.entry (.write q buf offset), env) w = some none := if_pos hpath
      rw [hsets] at h
      cases h
    | truncate q offset =>
      have hsets : setsMtime p (.entry (.truncate q offset), env) w = some none := if_pos hpath
      rw [hsets] at h
      cases h

/-- A call on another path leaves the stat. -/
theorem statAt_step_ne {w : World Text} {x : FsOp × (ℕ → Choice)} (hx : Runs x)
    (hp : x.1.path ≠ p) : (step x w).store.statAt p = w.store.statAt p := by
  obtain ⟨op, env⟩ := x
  cases op with
  | tree op => exact Store.statAt_congr ((step_tree_stat op w hx.1).1 p (Ne.symm hp))
  | entry op => exact Store.statAt_congr (stats_step_entry_ne op env w (Ne.symm hp))

end LastSet

end World

/-! ## What `cbfuse_getattr` reports -/

open World

omit [CJson Text] in
/-- `cbfuse_getattr`, with nothing failing, on an entry that has a stat. -/
theorem run_getattr (fc : FuseContext) {s : Store Text} {p : CString} {stat : CbfuseStat}
    (hp : p.length ≤ maxPathLen) (hs : s.statAt p = some stat) {env : ℕ → Choice}
    (henv : ∀ n, (env n).FaultFree) :
    (cbfuseGetattr fc p).run serve env s
      = (some (.ok { stat with stUid := fc.uid, stGid := fc.gid }), s) := by
  obtain ⟨cas, hd⟩ : ∃ cas, s.stats.docs p = some ⟨.packed stat, cas⟩ := by
    unfold Store.statAt at hs
    split at hs
    · next hv =>
      cases hs
      obtain ⟨cas, hok⟩ := Store.statOf_of_val hv
      exact ⟨cas, Store.docs_of_statOf hok⟩
    · cases hs
  rw [cbfuseGetattr_eq fc (by omega), Prog.run_call, (henv 0).serve_stats]
  simp only [Kv.Collection.serve, hd]
  rfl

/-- **Each attribute keeps the value last set.** After every run of a client
with nothing failing, `cbfuse_getattr` reports of an entry that has a stat the
mode and the access time that were set last, those of the root being set to
begin with; the modification time that was set last, if it was to a value; and
a call on another path changes nothing it reports. -/
theorem attributes_lastSet (fc : FuseContext) {env₀ env : ℕ → Choice} {p : CString}
    {calls : List (FsOp × (ℕ → Choice))} (henv₀ : ∀ n, (env₀ n).FaultFree)
    (hcalls : ∀ x ∈ calls, Runs x) (henv : ∀ n, (env n).FaultFree) (hlen : p.length ≤ maxPathLen)
    (hp : (Machine.final step calls (start env₀ : World Text)).store.stats.val p ≠ none) :
    let w₀ : World Text := start env₀
    let w := Machine.final step calls w₀
    ∃ stat : FuseStat, (cbfuseGetattr fc p).run serve env w.store = (some (.ok stat), w.store)
      ∧ (Machine.lastSet step (setsMode p) calls w₀).or
          ((w₀.store.statAt p).map CbfuseStat.stMode) = some stat.stMode
      ∧ (Machine.lastSet step (setsAtime p) calls w₀).or
          ((w₀.store.statAt p).map CbfuseStat.atime) = some stat.atime
      ∧ (∀ ts, Machine.lastSet step (setsMtime p) calls w₀ = some (some ts) → stat.mtime = ts)
      ∧ ∀ x, Runs x → x.1.path ≠ p → ∀ env', (∀ n, (env' n).FaultFree) →
          ((cbfuseGetattr fc p).run serve env' (step x w).store).1 = some (.ok stat) := by
  intro w₀ w
  have hs : w.store.Shapely := shapely_final henv₀ hcalls
  obtain ⟨stat, hval⟩ := hs.exists_stat hp
  have hstat : w.store.statAt p = some stat := Store.statAt_of_val hval
  refine ⟨{ stat with stUid := fc.uid, stGid := fc.gid }, run_getattr fc hlen hstat henv,
    stMode_lastSet henv₀ hcalls hstat, atime_lastSet henv₀ hcalls hstat,
    fun ts hset => mtime_lastSet henv₀ hcalls hstat hset, fun x hx hne env' henv' => ?_⟩
  rw [run_getattr fc hlen ((statAt_step_ne hx hne).trans hstat) henv']

/-- A file gets its times, and then another mode. -/
theorem attributes_lastSet_file :
    let g : ℕ → Choice := fun _ => .good ⟨3, 0⟩
    let calls := callsUnder (.good ⟨3, 0⟩) [.tree (.create ['/', 'f'] (sIfreg ||| 0o644)),
      .entry (.utimens ['/', 'f'] (some (⟨1, 0⟩, ⟨5, 0⟩))),
      .entry (.chmod ['/', 'f'] (sIfreg ||| 0o600))]
    let w : World (Option Json) := Machine.final step calls (start g)
    ∃ stat : FuseStat,
      ((cbfuseGetattr ⟨0, 0⟩ ['/', 'f']).run serve g w.store).1 = some (.ok stat)
        ∧ stat.stMode = sIfreg ||| 0o600 ∧ stat.atime = ⟨1, 0⟩ ∧ stat.mtime = ⟨5, 0⟩ := by
  intro g calls w
  have hff : ∀ n, (g n).FaultFree := fun _ => Choice.faultFree_good _
  have hcalls : ∀ x ∈ calls, Runs x := runs_callsUnder (Choice.faultFree_good _) (by decide)
  obtain ⟨stat, hrun, hmode, hatime, hmtime, -⟩ := @attributes_lastSet (Option Json) _ ⟨0, 0⟩ g g
    ['/', 'f'] calls hff hcalls hff (by decide) (by decide)
  refine ⟨stat, congrArg Prod.fst hrun, ?_, ?_, hmtime _ (by decide)⟩
  · exact Option.some.inj (hmode.symm.trans (by decide))
  · exact Option.some.inj (hatime.symm.trans (by decide))

/-- The modification time of a file is set, and the file is removed and made
again: the time is the clock's. A file is made in a directory that is not
there: the call fails, and the file has the mode it was given. -/
theorem attributes_not_kept :
    let g : ℕ → Choice := fun _ => .good ⟨3, 0⟩
    let x := (FsOp.entry (.utimens ['/', 'f'] (some (⟨1, 0⟩, ⟨5, 0⟩))), g)
    let w : World (Option Json) := Machine.final step
      (callsUnder (.good ⟨3, 0⟩) [.tree (.create ['/', 'f'] (sIfreg ||| 0o644))]) (start g)
    let w' := Machine.final step (callsUnder (.good ⟨3, 0⟩)
      [.tree (.unlink ['/', 'f']), .tree (.create ['/', 'f'] (sIfreg ||| 0o644))]) (step x w)
    let y := (FsOp.tree (.create ['/', 'd', '/', 'f'] (sIfreg ||| 0o600)), g)
    let reported (p : CString) (w : World (Option Json)) : Option FuseStat :=
      ((cbfuseGetattr ⟨0, 0⟩ p).run serve g w.store).1.bind Except.toOption
    (result x w = some 0
        ∧ (reported ['/', 'f'] (step x w)).map (fun stat => stat.mtime) = some ⟨5, 0⟩
        ∧ (reported ['/', 'f'] w').map (fun stat => stat.mtime) = some ⟨3, 0⟩)
      ∧ result y w = some (-enoent)
        ∧ (reported ['/', 'd', '/', 'f'] (step y w)).map (fun stat => stat.stMode)
          = some (sIfreg ||| 0o600) := by
  decide

end Cbfuse
