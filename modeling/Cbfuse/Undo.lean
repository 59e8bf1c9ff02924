import Cbfuse.World

/-!
# Removal undoes creation

To make an entry and remove it again gives back the store, whatever was done
to the entry in between. Three things have to be true of the store for that.
Nothing may be left under a path without a stat, since the removal takes with
it whatever is there; a directory may not list a name whose path has no stat,
since the removal takes every such name (`Store.Sound`); and the printing of a
directory's document must not change it.

The first two are invariants of runs, and it takes the kernel to keep them:
an `unlink` of a directory would leave its document behind, an `rmdir` of a
file its block.
-/

namespace Cbfuse

open CString (rootDirString)

variable {Text : Type}

namespace World

/-! ## Nothing is left behind -/

/-- **What is under a path**: nothing without a stat, no directory document
under a file, no block under anything else. -/
inductive TidyAt (w : World Text) (p : CString) : Prop
  | absent (hs : w.store.stats.val p = none) (hd : w.store.dentries.val p = none)
      (hb : w.store.blocks.val p = none)
  | file (hs : w.store.stats.val p ≠ none) (hd : w.store.dentries.val p = none)
      (hm : w.maker p = some .create)
  | other (hs : w.store.stats.val p ≠ none) (hb : w.store.blocks.val p = none)
      (hm : w.maker p ≠ some .create)

namespace TidyAt

variable {w w' : World Text} {p : CString}

/-- A path stays tidy where its stat stays or goes on being there, and no
document comes. -/
theorem congr (h : w.TidyAt p)
    (hs' : w'.store.stats.val p = none ↔ w.store.stats.val p = none)
    (hd' : w'.store.dentries.val p = none ↔ w.store.dentries.val p = none)
    (hb' : (w.store.stats.val p ≠ none ∧ w.maker p = some .create)
      ∨ (w.store.blocks.val p = none → w'.store.blocks.val p = none))
    (hm' : w.store.stats.val p ≠ none → w'.maker p = w.maker p) : w'.TidyAt p := by
  cases h with
  | absent hs hd hb =>
    exact .absent (hs'.mpr hs) (hd'.mpr hd) (hb'.resolve_left (fun h => h.1 hs) hb)
  | file hs hd hm =>
    exact .file (fun h => hs (hs'.mp h)) (hd'.mpr hd) ((hm' hs).trans hm)
  | other hs hb hm =>
    exact .other (fun h => hs (hs'.mp h)) (hb'.resolve_left (fun h => hm h.2) hb)
      (fun h => hm ((hm' hs).symm.trans h))

/-- Nothing is under a path without a stat. -/
theorem nothing (h : w.TidyAt p) (hs : w.store.stats.val p = none) :
    w.store.dentries.val p = none ∧ w.store.blocks.val p = none := by
  cases h with
  | absent _ hd hb => exact ⟨hd, hb⟩
  | file hs₀ => exact absurd hs hs₀
  | other hs₀ => exact absurd hs hs₀

end TidyAt

variable [CJson Text]

/-- **The calls of a run**: nothing fails, calls on the tree are on normalised
paths, files only are unlinked and written to, and directories only
removed. -/
def UndoGuard (x : FsOp × (ℕ → Choice)) (w : World Text) : Prop :=
  (∀ n, (x.2 n).FaultFree) ∧
    match x.1 with
    | .tree op => op.path.Normalised ∧
      match op with
      | .unlink p => w.store.stats.val p ≠ none ∧ w.maker p = some .create
      | .rmdir p => w.store.stats.val p ≠ none ∧ w.maker p = some .mkdir
      | _ => True
    | .entry op =>
      op.OnData → w.store.stats.val op.path ≠ none ∧ w.maker op.path = some .create

/-- **What a run keeps.** -/
structure Tidy (w : World Text) : Prop where
  /-- The directory documents are sound. -/
  sound : w.store.Sound
  /-- The root is there. -/
  root : w.store.stats.val rootDirString ≠ none
  /-- Nobody made the root. -/
  rootMaker : w.maker rootDirString = none
  /-- Nothing is left behind. -/
  tidy : ∀ p, w.TidyAt p

variable {w : World Text} {env : ℕ → Choice} {p : CString} {mode : ℕ}

/-! ### Each call, at its own path -/

theorem TidyAt.step_tree_ne {op : TreeOp} (henv : ∀ n, (env n).FaultFree) {k : CString}
    (h : w.TidyAt k) (hk : k ≠ op.path) : (step (.tree op, env) w).TidyAt k := by
  obtain ⟨ts, hb⟩ := step_tree op w henv
  have hs' := hb.stats_ne k hk
  exact h.congr (by rw [hs']) (hb.dentries_ne k hk) (.inr (fun h => (hb.blocks_ne k hk).trans h))
    (fun hs => maker_step (hs' ▸ hs) hs)

/-- A call on the tree that leaves the documents of its path alone leaves it
tidy. -/
theorem TidyAt.step_tree_same {op : TreeOp} {ts : Timespec} (h : w.TidyAt op.path)
    (hb : w.store.Becomes op.path (op.change ts (w.store.docs.own op.path)).own
      (step (.tree op, env) w).store)
    (hown : (op.change ts (w.store.docs.own op.path)).own = w.store.docs.own op.path) :
    (step (.tree op, env) w).TidyAt op.path := by
  rw [hown] at hb
  have hs' : (step (.tree op, env) w).store.stats.val op.path = w.store.stats.val op.path :=
    hb.stat
  exact h.congr (by rw [hs']) hb.dentry (.inr (fun h => hb.block.trans h))
    (fun hs => maker_step (hs' ▸ hs) hs)

theorem TidyAt.step_create (henv : ∀ n, (env n).FaultFree) (h : w.TidyAt p) :
    (step (.tree (.create p mode), env) w).TidyAt p := by
  obtain ⟨ts, hb⟩ := step_tree (.create p mode) w henv
  by_cases hnew : sIsreg mode ∧ ¬ p.length > maxPathLen ∧ w.store.stats.val p = none
  · obtain ⟨hreg, hlen, hs⟩ := hnew
    rw [TreeOp.change_create_new hreg hlen hs] at hb
    have hs' : (step (.tree (.create p mode), env) w).store.stats.val p ≠ none := by
      rw [show (step (.tree (.create p mode), env) w).store.stats.val p = some _ from hb.stat]
      exact Option.some_ne_none _
    exact .file hs' (hb.dentry.mpr (h.nothing hs).1) (maker_step_new hs' hs)
  · obtain ⟨r, hr⟩ := @TreeOp.change_create_refused _ _ p mode ts (w.store.docs.own p) hnew
    exact h.step_tree_same hb (congrArg Change.own hr)

theorem TidyAt.step_mkdir (henv : ∀ n, (env n).FaultFree) (h : w.TidyAt p) :
    (step (.tree (.mkdir p mode), env) w).TidyAt p := by
  obtain ⟨ts, hb⟩ := step_tree (.mkdir p mode) w henv
  by_cases hs : w.store.stats.val p = none
  · rw [TreeOp.change_mkdir_new hs (h.nothing hs).1] at hb
    have hs' : (step (.tree (.mkdir p mode), env) w).store.stats.val p ≠ none := by
      rw [show (step (.tree (.mkdir p mode), env) w).store.stats.val p = some _ from hb.stat]
      exact Option.some_ne_none _
    refine .other hs' (hb.block.trans (h.nothing hs).2) ?_
    rw [maker_step_new hs' hs]
    intro hm
    cases hm
  · exact h.step_tree_same hb (congrArg Change.own (TreeOp.change_mkdir_old hs))

theorem TidyAt.step_unlink (henv : ∀ n, (env n).FaultFree) (h : w.TidyAt p)
    (hm : w.maker p = some .create) (hs : w.store.stats.val p ≠ none) :
    (step (.tree (.unlink p), env) w).TidyAt p := by
  obtain ⟨ts, hb⟩ := step_tree (.unlink p) w henv
  refine .absent hb.stat (hb.dentry.mpr ?_) hb.block
  cases h with
  | absent hs₀ => exact absurd hs₀ hs
  | file _ hd => exact hd
  | other _ _ hm₀ => exact absurd hm hm₀

theorem TidyAt.step_rmdir (henv : ∀ n, (env n).FaultFree) (h : w.TidyAt p)
    (hm : w.maker p ≠ some .create) : (step (.tree (.rmdir p), env) w).TidyAt p := by
  obtain ⟨ts, hb⟩ := step_tree (.rmdir p) w henv
  refine .absent hb.stat (hb.dentry.mpr rfl) (hb.block.trans ?_)
  cases h with
  | absent _ _ hb₀ => exact hb₀
  | file _ _ hm₀ => exact absurd hm₀ hm
  | other _ hb₀ => exact hb₀

/-- **A call on an entry** leaves every path tidy: it stores a block only
where there is a file. -/
theorem TidyAt.step_entry {op : EntryOp} {k : CString} (h : w.TidyAt k)
    (hfile : op.OnData → w.store.stats.val op.path ≠ none ∧ w.maker op.path = some .create) :
    (step (.entry op, env) w).TidyAt k := by
  obtain ⟨hstats, hdentries, hblocks⟩ := World.step_entry op env w
  refine h.congr (hstats k) (by rw [hdentries]) ?_
    (fun hs => maker_step (fun h => hs ((hstats k).mp h)) hs)
  by_cases hk : k ≠ op.path ∨ ¬ op.OnData
  · exact .inr (fun h => (hblocks k hk).trans h)
  · obtain ⟨rfl, hdata⟩ : k = op.path ∧ op.OnData := by simpa [not_or] using hk
    exact .inl (hfile hdata)

/-! ## Runs -/

/-- A call that would make the root finds it there. -/
theorem Tidy.step_root {op : TreeOp} (h : w.Tidy) (hg : UndoGuard (.tree op, env) w)
    (hr : op.path = rootDirString) : (step (.tree op, env) w).store.docs = w.store.docs := by
  obtain ⟨henv, -, hop⟩ := hg
  have hs : w.store.stats.val op.path ≠ none := hr ▸ h.root
  have hm : w.maker op.path = none := hr ▸ h.rootMaker
  refine step_tree_refused henv (fun ts => ?_)
  cases op with
  | create p mode => exact TreeOp.change_create_refused (fun hnew => hs hnew.2.2)
  | mkdir p mode => exact ⟨-enoent, TreeOp.change_mkdir_old hs⟩
  | unlink p => cases hm.symm.trans hop.2
  | rmdir p => cases hm.symm.trans hop.2

/-- Whatever is called, the directory documents stay sound. -/
theorem Tidy.step_sound {x : FsOp × (ℕ → Choice)} (h : w.Tidy) (hg : UndoGuard x w) :
    (step x w).store.Sound := by
  obtain ⟨op, env⟩ := x
  cases op with
  | entry op =>
    obtain ⟨hstats, hdentries, -⟩ := step_entry op env w
    exact h.sound.congr hdentries (fun k hs hnone => hs ((hstats k).mp hnone))
  | tree op =>
    by_cases hr : op.path = rootDirString
    · have hdocs := h.step_root hg hr
      exact h.sound.congr (congrArg Docs.dentries hdocs)
        (fun k hs => by rwa [show (step (.tree op, env) w).store.stats.val k = _ from
          congrFun (congrArg Docs.stats hdocs) k])
    · exact Prog.wp_run_inv (wp_treeOp_sound op h.sound hg.2.1 hr) h.sound hg.1

/-- Whatever is called, the root stays. -/
theorem Tidy.step_rootStat {x : FsOp × (ℕ → Choice)} (h : w.Tidy) (hg : UndoGuard x w) :
    (step x w).store.stats.val rootDirString ≠ none := by
  obtain ⟨op, env⟩ := x
  cases op with
  | entry op => exact fun hnone => h.root (((step_entry op env w).1 _).mp hnone)
  | tree op =>
    by_cases hr : op.path = rootDirString
    · rw [show (step (.tree op, env) w).store.stats.val rootDirString = _ from
        congrFun (congrArg Docs.stats (h.step_root hg hr)) _]
      exact h.root
    · obtain ⟨ts, hb⟩ := step_tree op w hg.1
      rw [hb.stats_ne _ (Ne.symm hr)]
      exact h.root

/-- Whatever is called, nothing is left behind. -/
theorem Tidy.step_tidyAt {x : FsOp × (ℕ → Choice)} (h : w.Tidy) (hg : UndoGuard x w)
    (k : CString) : (step x w).TidyAt k := by
  obtain ⟨op, env⟩ := x
  obtain ⟨henv, hop⟩ := hg
  cases op with
  | entry op => exact (h.tidy k).step_entry hop
  | tree op =>
    by_cases hk : k = op.path
    · subst hk
      cases op with
      | create p mode => exact (h.tidy p).step_create henv
      | mkdir p mode => exact (h.tidy p).step_mkdir henv
      | unlink p => exact (h.tidy p).step_unlink henv hop.2.2 hop.2.1
      | rmdir p =>
        refine (h.tidy p).step_rmdir henv (fun hm => ?_)
        cases hm.symm.trans hop.2.2
    · exact (h.tidy k).step_tree_ne henv hk

theorem Tidy.step {x : FsOp × (ℕ → Choice)} (h : w.Tidy) (hg : UndoGuard x w) :
    (step x w).Tidy where
  sound := h.step_sound hg
  root := h.step_rootStat hg
  rootMaker := (maker_step (h.step_rootStat hg) h.root).trans h.rootMaker
  tidy := h.step_tidyAt hg

theorem tidy_start (henv : ∀ n, (env n).FaultFree) : (start env : World Text).Tidy := by
  obtain ⟨ts, hroot⟩ := @rootStore_eq Text _ _ henv
  have hstore : (start env : World Text).store = rootStore env := rfl
  refine ⟨rootStore_sound henv, ?_, rfl, fun p => ?_⟩
  · rw [hstore, hroot]
    simp
  · have hb : (start env : World Text).store.blocks.val p = none := by
      rw [hstore, hroot]
      simp [Store.empty]
    by_cases hp : p = rootDirString
    · refine .other ?_ hb (Option.some_ne_none _ ∘ Eq.symm)
      rw [hstore, hroot, hp]
      simp
    · refine .absent ?_ ?_ hb
      · rw [hstore, hroot]
        simp [Store.empty, hp]
      · rw [hstore, hroot]
        simp [Store.empty, hp]

/-- **Nothing is left behind in a run.** -/
theorem tidy_final (henv : ∀ n, (env n).FaultFree) {xs : List (FsOp × (ℕ → Choice))}
    (hg : Machine.Meets World.step UndoGuard xs (start env : World Text)) :
    (Machine.final World.step xs (start env : World Text)).Tidy :=
  (Machine.along_of_meets World.step (fun _ _ h hg => Tidy.step h hg) (tidy_start henv) hg).final

end World

/-! ## A name added and removed -/

section Undo

variable [CJson Text] {s : Store Text} {p : CString}

/-- **The same documents**, directory documents compared by what they parse
to. -/
structure Docs.SameParsed (d d' : Docs Text) : Prop where
  /-- The stats are the same. -/
  stats : d.stats = d'.stats
  /-- The directory documents parse to the same. -/
  dentries : ∀ k, Option.Rel (fun t t' => CJson.parse t = CJson.parse t') (d.dentries k)
    (d'.dentries k)
  /-- The blocks are the same. -/
  blocks : d.blocks = d'.blocks

/-- An edit that changes no item prints the document it parsed. -/
theorem parse_of_editText_self {edit : List Json → List Json} {t t' : Text} {items : List Json}
    (ht : editText edit t = some t') (hi : childItems t = some items)
    (hedit : edit items = items) : CJson.parse t' = CJson.parse t := by
  obtain ⟨j, items', hj, hi', rfl⟩ := parse_of_editText ht
  cases hi.symm.trans hi'
  rw [CJson.parse_print, hj, hedit]
  unfold childItems at hi
  rw [hj] at hi
  cases hc : Json.getObjectItemCaseSensitive (some j) dentryChildren with
  | none => rw [hc] at hi; cases hi
  | some v =>
    cases v with
    | array items₀ =>
      rw [hc] at hi
      cases hi
      rw [Json.replace_self hc]
    | _ => rw [hc] at hi; cases hi

/-- **Adding a name and removing it** gives back a directory that does not
list it. -/
theorem rel_edited_add_remove (hsound : s.Sound) (hnl : ¬ s.Listed p) :
    Option.Rel (fun t t' => CJson.parse t = CJson.parse t')
      (edited (removeChild p.basename) (edited (addChild p.basename)
        (s.docs.dentries p.dirname))) (s.docs.dentries p.dirname) := by
  rw [edited_edited]
  cases hd : s.docs.dentries p.dirname with
  | none => exact .none
  | some t =>
    obtain ⟨-, names, hl, -, -⟩ := hsound _ _ hd
    have hnew : p.basename ∉ names := fun hmem => hnl ⟨t, names, hd, hl, hmem⟩
    obtain ⟨t', ht'⟩ := editText_of_childItems
      (removeChild p.basename ∘ addChild p.basename) hl.items
    rw [edited_of_editText ht']
    refine .some (parse_of_editText_self ht' hl.items ?_)
    rw [Function.comp, addChild_map, removeChild_map, List.filter_append,
      List.filter_eq_self.mpr (fun n hn => by
        simpa using fun e : n = p.basename => hnew (e ▸ hn))]
    simp

/-- A call on an entry, in the middle of whatever else is done to it. -/
def entryStep (x : EntryOp × (ℕ → Choice)) (s : Store Text) : Store Text :=
  (x.1.code.run serve x.2 s).2

theorem others_final_entryStep {calls : List (EntryOp × (ℕ → Choice))}
    (hcalls : ∀ x ∈ calls, x.1.path = p) (s : Store Text) :
    (Machine.final entryStep calls s).docs.others p = s.docs.others p := by
  induction calls generalizing s with
  | nil => rfl
  | cons x calls ih =>
    have hx := (run_entryOp x.1 x.2 s).1
    rw [hcalls x (List.mem_cons_self ..)] at hx
    exact (ih (fun y hy => hcalls y (List.mem_cons_of_mem x hy)) _).trans hx

/-- What there was everywhere but in the directory, and in the directory a
name added and removed. -/
theorem sameParsed_of_undone (hsound : s.Sound) (hnl : ¬ s.Listed p) {d : Docs Text}
    (hstats : ∀ k, d.stats k = s.docs.stats k)
    (hdir : d.dentries p.dirname = edited (removeChild p.basename)
      (edited (addChild p.basename) (s.docs.dentries p.dirname)))
    (hdentries : ∀ k, k ≠ p.dirname → d.dentries k = s.docs.dentries k)
    (hblocks : ∀ k, d.blocks k = s.docs.blocks k) : d.SameParsed s.docs where
  stats := funext hstats
  dentries k := by
    by_cases hk : k = p.dirname
    · rw [hk, hdir]
      exact rel_edited_add_remove hsound hnl
    · rw [hdentries k hk]
      cases s.docs.dentries k with
      | none => exact .none
      | some t => exact .some rfl
  blocks := funext hblocks

/-- A file made, worked on and removed. -/
theorem sameParsed_create_unlink {w : World Text} (h : w.Tidy) (hp : p.Normalised)
    (hlen : p.length ≤ maxPathLen) (hs : w.store.stats.val p = none) {mode : ℕ}
    (hreg : sIsreg mode) {envc envu : ℕ → Choice} (henvc : ∀ n, (envc n).FaultFree)
    (henvu : ∀ n, (envu n).FaultFree) {calls : List (EntryOp × (ℕ → Choice))}
    (hcalls : ∀ x ∈ calls, x.1.path = p) :
    ((cbfuseUnlink p).run serve envu (Machine.final entryStep calls
      ((cbfuseCreate p mode).run serve envc w.store).2)).2.docs.SameParsed w.store.docs := by
  have hr : p ≠ rootDirString := fun e => h.root (e ▸ hs)
  obtain ⟨-, hb⟩ := (h.tidy p).nothing hs
  obtain ⟨ts, hs₁⟩ := docs_run_create henvc hreg (Nat.not_lt.mpr hlen) hs
  obtain ⟨hstats, hdentries, hblocks⟩ := Docs.others_eq_iff.mp
    (others_final_entryStep hcalls ((cbfuseCreate p mode).run serve envc w.store).2)
  rw [docs_run_unlink henvu]
  generalize (Machine.final entryStep calls _).docs = d at hstats hdentries hblocks ⊢
  rw [hs₁] at hstats hdentries hblocks
  refine sameParsed_of_undone h.sound (h.sound.not_listed hp hr hs) (fun k => ?_) ?_
    (fun k hk => ?_) (fun k => ?_)
  · by_cases hk : k = p
    · simp only [Docs.stats_setStat, if_pos hk]
      exact hk ▸ hs.symm
    · simp only [Docs.editDir, Docs.stats_setStat, Docs.stats_setDentry, Docs.stats_setBlock,
        if_neg hk, hstats k hk]
  · simp only [Docs.editDir, Docs.dentries_setStat, Docs.dentries_setDentry,
      Docs.dentries_setBlock, if_pos, hdentries]
  · simp only [Docs.editDir, Docs.dentries_setStat, Docs.dentries_setDentry,
      Docs.dentries_setBlock, if_neg hk, hdentries]
  · by_cases hk : k = p
    · simp only [Docs.editDir, Docs.blocks_setStat, Docs.blocks_setDentry, Docs.blocks_setBlock,
        if_pos hk]
      exact hk ▸ hb.symm
    · simp only [Docs.editDir, Docs.blocks_setStat, Docs.blocks_setDentry, Docs.blocks_setBlock,
        if_neg hk, hblocks k hk]

/-- A directory made and removed. -/
theorem sameParsed_mkdir_rmdir {w : World Text} (h : w.Tidy) (hp : p.Normalised)
    (hs : w.store.stats.val p = none) {mode : ℕ} {envc envu : ℕ → Choice}
    (henvc : ∀ n, (envc n).FaultFree) (henvu : ∀ n, (envu n).FaultFree) :
    ((cbfuseRmdir p).run serve envu
      ((cbfuseMkdir p mode).run serve envc w.store).2).2.docs.SameParsed w.store.docs := by
  have hr : p ≠ rootDirString := fun e => h.root (e ▸ hs)
  have hne := hp.dirname_ne hr
  obtain ⟨hd, -⟩ := (h.tidy p).nothing hs
  obtain ⟨ts, hs₁⟩ := @docs_run_mkdir _ _ _ p mode envc henvc hs hd
  rw [docs_run_rmdir henvu, hs₁]
  refine sameParsed_of_undone h.sound (h.sound.not_listed hp hr hs) (fun k => ?_) ?_
    (fun k hk => ?_) (fun k => rfl)
  · by_cases hk : k = p
    · simp only [Docs.stats_setStat, if_pos hk]
      exact hk ▸ hs.symm
    · simp only [Docs.editDir, Docs.stats_setStat, Docs.stats_setDentry, if_neg hk]
  · simp only [Docs.editDir, Docs.dentries_setStat, Docs.dentries_setDentry, if_pos, if_neg hne]
  · by_cases hkp : k = p
    · simp only [Docs.editDir, Docs.dentries_setStat, Docs.dentries_setDentry, if_neg hk,
        if_pos hkp]
      exact hkp ▸ hd.symm
    · simp only [Docs.editDir, Docs.dentries_setStat, Docs.dentries_setDentry, if_neg hk,
        if_neg hkp]

end Undo

/-- **Removal undoes creation.** After any run of one client with nothing
failing, from the store `insert_root` leaves, and for every normalised path
without a stat: a file made there, worked on by any calls whatever becomes of
their requests, and unlinked gives back the store; and so does a directory
made and removed. -/
theorem removal_undoes_creation [CJson Text] {env : ℕ → Choice} (henv : ∀ n, (env n).FaultFree)
    (xs : List (FsOp × (ℕ → Choice)))
    (hg : Machine.Meets World.step World.UndoGuard xs (World.start env : World Text))
    {p : CString} (hp : p.Normalised) (hlen : p.length ≤ maxPathLen)
    (hs : (Machine.final World.step xs (World.start env : World Text)).store.stats.val p = none)
    (mode : ℕ) {envc envu : ℕ → Choice} (henvc : ∀ n, (envc n).FaultFree)
    (henvu : ∀ n, (envu n).FaultFree) :
    let s := (Machine.final World.step xs (World.start env : World Text)).store
    (sIsreg mode → ∀ calls : List (EntryOp × (ℕ → Choice)), (∀ x ∈ calls, x.1.path = p) →
        ((cbfuseUnlink p).run serve envu (Machine.final entryStep calls
          ((cbfuseCreate p mode).run serve envc s).2)).2.docs.SameParsed s.docs)
      ∧ ((cbfuseRmdir p).run serve envu
          ((cbfuseMkdir p mode).run serve envc s).2).2.docs.SameParsed s.docs := by
  have h := World.tidy_final henv hg
  exact ⟨fun hreg calls hcalls =>
      sameParsed_create_unlink h hp hlen hs hreg henvc henvu hcalls,
    sameParsed_mkdir_rmdir h hp hs henvc henvu⟩

/-- Beside another file, a file is made, written to, cut, and unlinked. -/
theorem removal_undoes_creation_write :
    let env : ℕ → Choice := fun _ => .good ⟨0, 0⟩
    let xs := [(FsOp.tree (.create ['/', 'a'] sIfreg), env)]
    let calls := [(EntryOp.write ['/', 'f'] [7] 0, env), (EntryOp.truncate ['/', 'f'] 0, env)]
    let s := (Machine.final World.step xs (World.start env : World (Option Json))).store
    ((cbfuseUnlink ['/', 'f']).run serve env (Machine.final entryStep calls
      ((cbfuseCreate ['/', 'f'] sIfreg).run serve env s).2)).2.docs.SameParsed s.docs := by
  intro env xs calls s
  have henv : ∀ n, (env n).FaultFree := fun _ => Choice.faultFree_good _
  have hn : ∀ n : CString, n.IsName → (CString.join rootDirString n).Normalised :=
    fun _ => .entry .top
  have hreg : sIsreg sIfreg := by decide
  refine (removal_undoes_creation henv xs ⟨⟨henv, hn ['a'] (by decide), trivial⟩, trivial⟩
    (hn ['f'] (by decide)) (by decide) (by decide) sIfreg henv henv).1 hreg calls
    (fun x hx => ?_)
  rcases List.mem_pair.mp hx with rfl | rfl <;> rfl

end Cbfuse
