import Cbfuse.World

/-!
# Files and directories

Whether a path is a file or a directory can be seen in two places: in the
type bits of the mode in its stat, and in whether it has a directory
document. The kernel goes by the first, the handlers by the second, and
nothing ties them but that every call sets both alike.

Two calls take the mode from the caller as it is. `cbfuse_mkdir` tests
`mode | S_IFDIR` and stores `mode`, and FUSE does not promise the type bits
in it; `cbfuse_chmod` is to change the permission bits and overwrites all of
them. So what agrees in a run agrees exactly if the caller happens to pass
the right bits to both (`typesAgree_iff`).
-/

namespace Cbfuse

open CString (rootDirString)

variable {Text : Type} [CJson Text]

namespace World

/-! ## What agrees, and what keeps it so -/

/-- **The types agree**: a path with a stat has a directory document exactly
if the mode in the stat is that of a directory, and one that
`cbfuse_create` made has the mode of a file. -/
def TypesAgree (w : World Text) : Prop :=
  ∀ p v, w.store.stats.val p = some v → ∃ stat, v = .packed stat
    ∧ (w.store.dentries.val p ≠ none ↔ sIsdir stat.stMode)
    ∧ (w.maker p = some .create → sIsreg stat.stMode)

/-- **What a path is**: nothing, a file or a directory, and all that tells
them apart says the same. -/
inductive KindAt (w : World Text) (p : CString) : Prop
  | absent (hs : w.store.stats.val p = none) (hd : w.store.dentries.val p = none)
  | file (stat : CbfuseStat) (hs : w.store.stats.val p = some (.packed stat))
      (hd : w.store.dentries.val p = none) (hm : w.maker p = some .create)
      (hreg : sIsreg stat.stMode)
  | dir (stat : CbfuseStat) (hs : w.store.stats.val p = some (.packed stat))
      (hd : w.store.dentries.val p ≠ none) (hm : w.maker p ≠ some .create)
      (hdir : sIsdir stat.stMode)

omit [CJson Text] in
theorem typesAgree_of_kindAt {w : World Text} (h : ∀ p, w.KindAt p) : w.TypesAgree := by
  intro p v hv
  cases h p with
  | absent hs hd => cases hs.symm.trans hv
  | file stat hs hd hm hreg =>
    cases hs.symm.trans hv
    exact ⟨stat, rfl, iff_of_false (not_not.mpr hd) (not_sIsdir_of_sIsreg hreg), fun _ => hreg⟩
  | dir stat hs hd hm hdir =>
    cases hs.symm.trans hv
    exact ⟨stat, rfl, iff_of_true hd hdir, fun h => absurd h hm⟩

omit [CJson Text] in
/-- A path stays what it is where its stat stays, and its directory document
in so far as it has one. -/
theorem KindAt.congr {w w' : World Text} {p : CString} (h : w.KindAt p)
    (hs' : w'.store.stats.val p = w.store.stats.val p)
    (hd' : w'.store.dentries.val p = none ↔ w.store.dentries.val p = none)
    (hm' : w.store.stats.val p ≠ none → w'.maker p = w.maker p) : w'.KindAt p := by
  cases h with
  | absent hs hd => exact .absent (hs'.trans hs) (hd'.mpr hd)
  | file stat hs hd hm hreg =>
    have hm' := hm' (by rw [hs]; exact Option.some_ne_none _)
    exact .file stat (hs'.trans hs) (hd'.mpr hd) (hm'.trans hm) hreg
  | dir stat hs hd hm hdir =>
    have hm' := hm' (by rw [hs]; exact Option.some_ne_none _)
    exact .dir stat (hs'.trans hs) (fun h => hd (hd'.mp h)) (fun h => hm (hm'.symm.trans h)) hdir

/-! ## The calls -/

/-- **The calls of a run**: nothing fails, files only are unlinked, and
directories only removed, by the mode in the stat. -/
def KindsGuard (x : FsOp × (ℕ → Choice)) (w : World Text) : Prop :=
  (∀ n, (x.2 n).FaultFree) ∧
    match x.1 with
    | .tree (.unlink p) =>
      ∀ stat, w.store.stats.val p = some (.packed stat) → ¬ sIsdir stat.stMode
    | .tree (.rmdir p) => ∀ stat, w.store.stats.val p = some (.packed stat) → sIsdir stat.stMode
    | .tree _ => True
    | .entry (.chmod _ _) => True
    | .entry _ => False

/-- **The caller passes the right type bits**: those of a directory where it
makes one, and those that are there where it changes the mode. -/
def PassesType (x : FsOp × (ℕ → Choice)) (w : World Text) : Prop :=
  match x.1 with
  | .tree (.mkdir p mode) => w.store.stats.val p = none → sIsdir mode
  | .entry (.chmod p mode) => ∀ stat, w.store.stats.val p = some (.packed stat) →
    mode &&& sIfmt = stat.stMode &&& sIfmt
  | _ => True

variable {w : World Text} {env : ℕ → Choice} {p : CString} {mode : ℕ}

/-- A call on the tree leaves the other paths what they are. -/
theorem KindAt.step_tree_ne {op : TreeOp} (henv : ∀ n, (env n).FaultFree) {k : CString}
    (h : w.KindAt k) (hk : k ≠ op.path) : (step (.tree op, env) w).KindAt k := by
  obtain ⟨ts, hb⟩ := step_tree op w henv
  have hs' := hb.stats_ne k hk
  exact h.congr hs' (hb.dentries_ne k hk) (fun hs => maker_step (hs' ▸ hs) hs)

/-- A call on the tree that leaves the documents of its path alone leaves it
what it is. -/
theorem KindAt.step_tree_same {op : TreeOp} {ts : Timespec} (h : w.KindAt op.path)
    (hb : w.store.Becomes op.path (op.change ts (w.store.docs.own op.path)).own
      (step (.tree op, env) w).store)
    (hown : (op.change ts (w.store.docs.own op.path)).own = w.store.docs.own op.path) :
    (step (.tree op, env) w).KindAt op.path := by
  rw [hown] at hb
  have hs' : (step (.tree op, env) w).store.stats.val op.path = w.store.stats.val op.path :=
    hb.stat
  exact h.congr hs' hb.dentry (fun hs => maker_step (hs' ▸ hs) hs)

theorem KindAt.step_create (henv : ∀ n, (env n).FaultFree) (h : w.KindAt p) :
    (step (.tree (.create p mode), env) w).KindAt p := by
  obtain ⟨ts, hb⟩ := step_tree (.create p mode) w henv
  by_cases hnew : sIsreg mode ∧ ¬ p.length > maxPathLen ∧ w.store.stats.val p = none
  · obtain ⟨hreg, hlen, hs⟩ := hnew
    rw [TreeOp.change_create_new hreg hlen hs] at hb
    have hs' : (step (.tree (.create p mode), env) w).store.stats.val p = some _ := hb.stat
    have hd' := hb.dentry.mpr (show w.store.dentries.val p = none by
      cases h with
      | absent _ hd => exact hd
      | file stat hs₀ => cases hs.symm.trans hs₀
      | dir stat hs₀ => cases hs.symm.trans hs₀)
    exact .file _ hs' hd' (maker_step_new (by rw [hs']; exact Option.some_ne_none _) hs) hreg
  · obtain ⟨r, hr⟩ := @TreeOp.change_create_refused _ _ p mode ts (w.store.docs.own p) hnew
    exact h.step_tree_same hb (by rw [show (TreeOp.create p mode).path = p from rfl, hr]; rfl)

/-- What `cbfuse_mkdir` makes where nothing is. -/
theorem step_mkdir_new (henv : ∀ n, (env n).FaultFree) (h : w.KindAt p)
    (hs : w.store.stats.val p = none) :
    ∃ ts, (step (.tree (.mkdir p mode), env) w).store.stats.val p
        = some (.packed (rootStat mode ts))
      ∧ (step (.tree (.mkdir p mode), env) w).store.dentries.val p ≠ none
      ∧ (step (.tree (.mkdir p mode), env) w).maker p ≠ some .create := by
  obtain ⟨ts, hb⟩ := step_tree (.mkdir p mode) w henv
  have hd : w.store.dentries.val p = none := by
    cases h with
    | absent _ hd => exact hd
    | file stat hs₀ => cases hs.symm.trans hs₀
    | dir stat hs₀ => cases hs.symm.trans hs₀
  rw [TreeOp.change_mkdir_new hs hd] at hb
  have hs' : (step (.tree (.mkdir p mode), env) w).store.stats.val p = some _ := hb.stat
  refine ⟨ts, hs', fun hd' => ?_, ?_⟩
  · cases hb.dentry.mp hd'
  · rw [maker_step_new (by rw [hs']; exact Option.some_ne_none _) hs]
    intro hm
    cases hm

theorem KindAt.step_mkdir (henv : ∀ n, (env n).FaultFree) (h : w.KindAt p)
    (hmode : w.store.stats.val p = none → sIsdir mode) :
    (step (.tree (.mkdir p mode), env) w).KindAt p := by
  by_cases hs : w.store.stats.val p = none
  · obtain ⟨ts, hs', hd', hm'⟩ := @step_mkdir_new _ _ w env p mode henv h hs
    exact .dir _ hs' hd' hm' (hmode hs)
  · obtain ⟨ts, hb⟩ := step_tree (.mkdir p mode) w henv
    exact h.step_tree_same hb (congrArg Change.own (TreeOp.change_mkdir_old hs))

theorem KindAt.step_unlink (henv : ∀ n, (env n).FaultFree) (h : w.KindAt p)
    (hfile : ∀ stat, w.store.stats.val p = some (.packed stat) → ¬ sIsdir stat.stMode) :
    (step (.tree (.unlink p), env) w).KindAt p := by
  obtain ⟨ts, hb⟩ := step_tree (.unlink p) w henv
  refine .absent hb.stat (hb.dentry.mpr ?_)
  cases h with
  | absent _ hd => exact hd
  | file _ _ hd => exact hd
  | dir stat hs hd hm hdir => exact absurd hdir (hfile stat hs)

theorem KindAt.step_rmdir (henv : ∀ n, (env n).FaultFree) :
    (step (.tree (.rmdir p), env) w).KindAt p := by
  obtain ⟨ts, hb⟩ := step_tree (.rmdir p) w henv
  exact .absent hb.stat (hb.dentry.mpr rfl)

/-- `cbfuse_chmod` sets the mode in a stat that is there, and does nothing
else. -/
theorem docs_step_chmod (henv : ∀ n, (env n).FaultFree) :
    (∀ stat, w.store.stats.val p = some (.packed stat) →
        (step (.entry (.chmod p mode), env) w).store.docs
          = w.store.docs.setStat p (some (.packed { stat with stMode := mode })))
      ∧ ((∀ stat, w.store.stats.val p ≠ some (.packed stat)) →
        (step (.entry (.chmod p mode), env) w).store.docs = w.store.docs) := by
  have hwp : (cbfuseChmod p mode).wp serve Choice.FaultFree (fun _ => True) (fun _ s' =>
      (∀ stat, w.store.stats.val p = some (.packed stat) →
          s'.docs = w.store.docs.setStat p (some (.packed { stat with stMode := mode })))
        ∧ ((∀ stat, w.store.stats.val p ≠ some (.packed stat)) → s'.docs = w.store.docs))
      w.store := by
    refine wp_updateStat trivial (fun e he => ⟨fun stat hs => ?_, fun _ => rfl⟩)
      (fun stat cas _ hs => ⟨trivial, fun stat' hs' => ?_, fun hno => ?_⟩)
    · obtain ⟨cas, hok⟩ := Store.statOf_of_val hs
      cases he.symm.trans hok
    · have hval := Kv.Collection.val_of_docs (Store.docs_of_statOf hs)
      cases hval.symm.trans hs'
      exact Store.docs_putStat _ _ _
    · exact absurd (Kv.Collection.val_of_docs (Store.docs_of_statOf hs)) (hno stat)
  obtain ⟨r, s', hrun, hpost⟩ := Prog.wp_run hwp henv
  rwa [show (step (.entry (.chmod p mode), env) w).store = s' from congrArg Prod.snd hrun]

/-- A mode that is changed is that of a stat that is there. -/
theorem step_chmod (henv : ∀ n, (env n).FaultFree) {stat : CbfuseStat}
    (hs : w.store.stats.val p = some (.packed stat)) :
    (step (.entry (.chmod p mode), env) w).store.stats.val p
        = some (.packed { stat with stMode := mode })
      ∧ (step (.entry (.chmod p mode), env) w).store.dentries.val = w.store.dentries.val
      ∧ (step (.entry (.chmod p mode), env) w).maker p = w.maker p := by
  have hdocs := (@docs_step_chmod _ _ w env p mode henv).1 stat hs
  have hs' : (step (.entry (.chmod p mode), env) w).store.stats.val p
      = some (.packed { stat with stMode := mode }) := by
    rw [show (step (.entry (.chmod p mode), env) w).store.stats.val p = _ from
      congrFun (congrArg Docs.stats hdocs) p, Docs.stats_setStat, if_pos rfl]
  refine ⟨hs', congrArg Docs.dentries hdocs, maker_step ?_ ?_⟩
  · rw [hs']
    exact Option.some_ne_none _
  · rw [hs]
    exact Option.some_ne_none _

theorem KindAt.step_chmod_ne (henv : ∀ n, (env n).FaultFree) {k : CString} (h : w.KindAt k)
    (hk : k ≠ p ∨ ∀ stat, w.store.stats.val p ≠ some (.packed stat)) :
    (step (.entry (.chmod p mode), env) w).KindAt k := by
  obtain ⟨hsome, hno⟩ := @docs_step_chmod _ _ w env p mode henv
  by_cases hp : ∃ stat, w.store.stats.val p = some (.packed stat)
  · obtain ⟨stat, hs⟩ := hp
    have hkp : k ≠ p := hk.resolve_right (fun h => h stat hs)
    have hdocs := hsome stat hs
    have hs' : (step (.entry (.chmod p mode), env) w).store.stats.val k
        = w.store.stats.val k := by
      rw [show (step (.entry (.chmod p mode), env) w).store.stats.val k = _ from
        congrFun (congrArg Docs.stats hdocs) k, Docs.stats_setStat, if_neg hkp]
      rfl
    have hd' : (step (.entry (.chmod p mode), env) w).store.dentries.val = w.store.dentries.val :=
      congrArg Docs.dentries hdocs
    exact h.congr hs' (by rw [hd']) (fun hs => maker_step (hs' ▸ hs) hs)
  · have hdocs := hno (fun stat hs => hp ⟨stat, hs⟩)
    have hs' : (step (.entry (.chmod p mode), env) w).store.stats.val = w.store.stats.val :=
      congrArg Docs.stats hdocs
    have hd' : (step (.entry (.chmod p mode), env) w).store.dentries.val = w.store.dentries.val :=
      congrArg Docs.dentries hdocs
    exact h.congr (by rw [hs']) (by rw [hd']) (fun hs => maker_step (by rwa [hs']) hs)

theorem KindAt.step_chmod_self (henv : ∀ n, (env n).FaultFree) (h : w.KindAt p)
    (hmode : ∀ stat, w.store.stats.val p = some (.packed stat) →
      mode &&& sIfmt = stat.stMode &&& sIfmt) :
    (step (.entry (.chmod p mode), env) w).KindAt p := by
  cases h with
  | absent hs hd =>
    exact (KindAt.absent hs hd).step_chmod_ne henv
      (.inr (fun stat h => by cases hs.symm.trans h))
  | file stat hs hd hm hreg =>
    obtain ⟨hs', hd', hm'⟩ := @World.step_chmod _ _ w env p mode henv stat hs
    exact .file _ hs' (by rw [hd', hd]) (hm'.trans hm) ((hmode stat hs).trans hreg)
  | dir stat hs hd hm hdir =>
    obtain ⟨hs', hd', hm'⟩ := @World.step_chmod _ _ w env p mode henv stat hs
    exact .dir _ hs' (by rwa [hd']) (by rwa [hm']) ((hmode stat hs).trans hdir)

/-! ## Runs -/

/-- **A caller that passes the right type bits** leaves every path what its
documents say it is. -/
theorem kindAt_step {x : FsOp × (ℕ → Choice)} (h : ∀ p, w.KindAt p) (hg : KindsGuard x w)
    (hc : PassesType x w) (k : CString) : (step x w).KindAt k := by
  obtain ⟨op, env⟩ := x
  obtain ⟨henv, hop⟩ := hg
  by_cases hk : k = op.path
  · subst hk
    cases op with
    | tree op =>
      cases op with
      | create p mode => exact (h p).step_create henv
      | mkdir p mode => exact (h p).step_mkdir henv hc
      | unlink p => exact (h p).step_unlink henv hop
      | rmdir p => exact KindAt.step_rmdir henv
    | entry op =>
      cases op with
      | chmod p mode => exact (h p).step_chmod_self henv hc
      | _ => exact hop.elim
  · cases op with
    | tree op => exact (h k).step_tree_ne henv hk
    | entry op =>
      cases op with
      | chmod p mode => exact (h k).step_chmod_ne henv (.inl hk)
      | _ => exact hop.elim

/-- **A caller that passes the wrong type bits** makes the two disagree at
once. -/
theorem not_typesAgree_step {x : FsOp × (ℕ → Choice)} (h : ∀ p, w.KindAt p)
    (hg : KindsGuard x w) (hc : ¬ PassesType x w) : ¬ (step x w).TypesAgree := by
  obtain ⟨op, env⟩ := x
  obtain ⟨henv, hop⟩ := hg
  intro hagree
  cases op with
  | tree op =>
    cases op with
    | mkdir p mode =>
      by_cases hs : w.store.stats.val p = none
      · obtain ⟨ts, hs', hd', -⟩ := @step_mkdir_new _ _ w env p mode henv (h p) hs
        obtain ⟨stat, hstat, hdir, -⟩ := hagree p _ hs'
        cases hstat
        exact hc (fun _ => hdir.mp hd')
      · exact hc (fun h => absurd h hs)
    | _ => exact hc trivial
  | entry op =>
    cases op with
    | chmod p mode =>
      refine hc (fun stat hs => ?_)
      obtain ⟨hs', hd', hm'⟩ := @World.step_chmod _ _ w env p mode henv stat hs
      obtain ⟨stat', hstat', hdir', hreg'⟩ := hagree p _ hs'
      cases hstat'
      cases h p with
      | absent hs₀ => cases hs.symm.trans hs₀
      | file stat₀ hs₀ _ hm hreg =>
        cases hs.symm.trans hs₀
        exact (hreg' (hm'.trans hm)).trans hreg.symm
      | dir stat₀ hs₀ hd _ hdir =>
        cases hs.symm.trans hs₀
        exact (hdir'.mp (by rwa [hd'])).trans hdir.symm
    | _ => exact hop.elim

theorem kindAt_start {env : ℕ → Choice} (henv : ∀ n, (env n).FaultFree) (p : CString) :
    (start env : World Text).KindAt p := by
  obtain ⟨ts, hroot⟩ := @rootStore_eq Text _ _ henv
  by_cases hp : p = rootDirString
  · have hdir : sIsdir (sIfdir ||| 0o755) := by decide
    refine .dir (rootStat (sIfdir ||| 0o755) ts) ?_ ?_ ?_ hdir
    · show (rootStore env).stats.val p = _
      rw [hroot, hp]
      simp
    · show (rootStore env).dentries.val p ≠ none
      rw [hroot, hp]
      simp
    · exact Option.some_ne_none _ ∘ Eq.symm
  · refine .absent ?_ ?_
    · show (rootStore env).stats.val p = _
      rw [hroot]
      simp [Store.empty, hp]
    · show (rootStore env).dentries.val p = _
      rw [hroot]
      simp [Store.empty, hp]

/-- **When the types agree.** In a run of calls on the tree and changes of
mode, from the store `insert_root` leaves, with nothing failing, files only
being unlinked and directories only removed: every path with a stat has a
directory document exactly if its mode is that of a directory, and a path
`cbfuse_create` made has the mode of a file, in every state of the run –
exactly if every `cbfuse_mkdir` that makes something is given the type bits of
a directory, and every `cbfuse_chmod` of something the type bits that are
there. -/
theorem typesAgree_iff {env : ℕ → Choice} (henv : ∀ n, (env n).FaultFree)
    (xs : List (FsOp × (ℕ → Choice)))
    (hg : Machine.Meets step KindsGuard xs (start env : World Text)) :
    Machine.Along step TypesAgree xs (start env : World Text)
      ↔ Machine.Meets step PassesType xs (start env : World Text) :=
  @Machine.along_iff_meets _ _ step (fun w => ∀ p, w.KindAt p) _ _ _
    (fun _ => typesAgree_of_kindAt) (fun _ _ h hg hc => kindAt_step h hg hc)
    (fun _ _ h hg hc => not_typesAgree_step h hg hc) _ _ (kindAt_start henv) hg

/-- A directory is made with the type bits in its mode, and its mode set with
them. -/
theorem typesAgree_iff_chmod :
    let env : ℕ → Choice := fun _ => .good ⟨0, 0⟩
    let xs := [(FsOp.tree (.mkdir ['/', 'd'] (sIfdir ||| 0o755)), env),
      (FsOp.entry (.chmod ['/', 'd'] (sIfdir ||| 0o700)), env)]
    Machine.Along step TypesAgree xs (start env : World (Option Json)) := by
  intro env xs
  have henv : ∀ n, (env n).FaultFree := fun _ => Choice.faultFree_good _
  refine (typesAgree_iff henv xs ⟨⟨henv, trivial⟩, ⟨henv, trivial⟩, trivial⟩).mpr
    ⟨fun _ => by decide, fun stat hs => ?_, trivial⟩
  have hmade : (step (.tree (.mkdir ['/', 'd'] (sIfdir ||| 0o755)), env) (start env)
      : World (Option Json)).store.stats.val ['/', 'd']
        = some (.packed (rootStat (sIfdir ||| 0o755) ⟨0, 0⟩)) := by decide
  cases hmade.symm.trans hs
  decide

/-- A directory made without the type bits: it has a directory document, and
its mode is not that of a directory. -/
theorem mkdir_no_type :
    let env : ℕ → Choice := fun _ => .good ⟨0, 0⟩
    let xs := [(FsOp.tree (.mkdir ['/', 'd'] 0o755), env)]
    let w : World (Option Json) := Machine.final step xs (start env)
    Machine.Meets step KindsGuard xs (start env : World (Option Json))
      ∧ (w.store.stats.val ['/', 'd']) = some (.packed (rootStat 0o755 ⟨0, 0⟩))
      ∧ ¬ sIsdir 0o755 ∧ w.store.dentries.val ['/', 'd'] ≠ none ∧ ¬ w.TypesAgree := by
  intro env xs w
  have henv : ∀ n, (env n).FaultFree := fun _ => Choice.faultFree_good _
  have hs : w.store.stats.val ['/', 'd'] = some (.packed (rootStat 0o755 ⟨0, 0⟩)) := by decide
  have hd : w.store.dentries.val ['/', 'd'] ≠ none := Option.some_ne_none _
  have hdir : ¬ sIsdir 0o755 := by decide
  refine ⟨⟨⟨henv, trivial⟩, trivial⟩, hs, hdir, hd, fun h => ?_⟩
  obtain ⟨stat, hstat, hiff, -⟩ := h _ _ hs
  cases hstat
  exact hdir (hiff.mp hd)

end World

end Cbfuse
