import Cbfuse.FileSystem
import Cbfuse.Simulation

/-!
# The bucket keeps a file system

A store holds a file system if its three collections say of every path what
the file system does: the stat is the attributes, a directory has a document
that lists its names in their order, a file has a block if it was ever given
bytes, and there is nothing else in the bucket (`Store.Holds`). A store holds
one file system at most, so what it holds is what it means.

With nothing failing, and the calls being those the kernel makes – but for the
removal of a directory that still lists something (`FileSystem.Legal`) – every
operation does what it is for: it leaves a store that holds what the
specification says, and hands back what the specification says
(`FuseOp.step_refines`). That nothing fails includes that there is memory behind
the end of a block that is truncated past it. So do whole runs, from the moment the bucket has its
root (`FuseOp.run_refines`). Whoever looks at a mounted bucket through its
operations cannot tell it from a tree.
-/

namespace Cbfuse

open CString (rootDirString join)

variable {Text β : Type} [CJson Text]

/-! ## Everything the operations hand back -/

/-- The program of an operation, with everything it hands back. -/
def FuseOp.full : FuseOp β → Op Text (Answer β)
  | getattr fc path => Answer.attr <$> cbfuseGetattr fc path
  | openFile path => Answer.code <$> cbfuseOpen path
  | readdir path filler offset buf =>
    (fun r => Answer.entries r.1 r.2) <$> cbfuseReaddir path filler offset buf
  | fs (.entry (.read p nbuf offset)) =>
    (fun r => Answer.bytes r.1 r.2) <$> readData p nbuf offset
  | fs op => Answer.code <$> op.code

/-- What FUSE is told. -/
def Answer.told : Answer β → ℤ
  | code r => r
  | attr r => codeOf r
  | entries r _ => r
  | bytes r _ => r

/-- What an operation hands back comes with what FUSE is told. -/
theorem FuseOp.told_full (op : FuseOp β) :
    (Answer.told <$> op.full : Op Text ℤ) = op.code := by
  cases op with
  | getattr fc path => exact (comp_map Answer.attr Answer.told _).symm
  | openFile path => exact (comp_map Answer.code Answer.told _).symm.trans (id_map _)
  | readdir path filler offset buf => exact (comp_map _ Answer.told _).symm
  | fs op =>
    cases op with
    | tree op => exact (comp_map Answer.code Answer.told _).symm.trans (id_map _)
    | entry op =>
      cases op with
      | read p nbuf offset => exact (comp_map _ Answer.told _).symm
      | _ => exact (comp_map Answer.code Answer.told _).symm.trans (id_map _)

/-! ## What a store holds -/

/-- What is under the path of a node in the way of a directory document. -/
def DirDoc (p : CString) : Option Node → Option Text → Prop
  | some (.dir _ names), o => ∃ t, o = some t ∧ Lists p t names
  | _, o => o = none

/-- **The documents are those of a file system.** -/
structure Docs.Hold (d : Docs Text) (fs : FileSystem) : Prop where
  /-- The stats are the attributes. -/
  stats : ∀ p, d.stats p = (fs.node p).map (fun n => .packed n.attr)
  /-- The directory documents list the names. -/
  dentries : ∀ p, DirDoc p (fs.node p) (d.dentries p)
  /-- The blocks are the bytes. -/
  blocks : ∀ p, d.blocks p = (fs.node p).bind Node.data

/-- **The store holds a file system.** -/
def Store.Holds (s : Store Text) (fs : FileSystem) : Prop := s.docs.Hold fs

/-- A document that lists names lists one more of them after an addition. -/
theorem edited_addChild {k n : CString} {t : Text} {names : List CString} (h : Lists k t names) :
    ∃ t', edited (addChild n) (some t) = some t' ∧ Lists k t' (names ++ [n]) := by
  obtain ⟨t', ht'⟩ := editText_of_childItems (addChild n) h.items
  exact ⟨t', edited_of_editText ht', h.edit ht' (addChild_map n names)⟩

/-- A document that lists names does not list one that was removed. -/
theorem edited_removeChild {k n : CString} {t : Text} {names : List CString}
    (h : Lists k t names) :
    ∃ t', edited (removeChild n) (some t) = some t' ∧ Lists k t' (names.filter (· ≠ n)) := by
  obtain ⟨t', ht'⟩ := editText_of_childItems (removeChild n) h.items
  exact ⟨t', edited_of_editText ht', h.edit ht' (removeChild_map n names)⟩

theorem editCode_of_lists {k : CString} {t : Text} {names : List CString} (h : Lists k t names) :
    editCode (some t) = 0 := by
  simp only [editCode, h.items, Option.isSome_some, if_true]

namespace Docs.Hold

variable {d : Docs Text} {fs : FileSystem} {p : CString}

/-- Without a node there is nothing. -/
theorem vacant (h : d.Hold fs) (hp : fs.node p = none) :
    d.stats p = none ∧ d.dentries p = none ∧ d.blocks p = none := by
  have hd := h.dentries p
  rw [hp] at hd
  exact ⟨by rw [h.stats, hp]; rfl, hd, by rw [h.blocks, hp]; rfl⟩

theorem stats_eq_none (h : d.Hold fs) : d.stats p = none ↔ fs.node p = none := by
  rw [h.stats]
  exact Option.map_eq_none_iff

/-- A directory has a document that lists its names. -/
theorem dir (h : d.Hold fs) {attr : CbfuseStat} {names : List CString}
    (hp : fs.node p = some (.dir attr names)) : ∃ t, d.dentries p = some t ∧ Lists p t names := by
  have hd := h.dentries p
  rw [hp] at hd
  exact hd

/-- Anything else has none. -/
theorem no_dir (h : d.Hold fs) (hp : ¬ fs.IsDir p) : d.dentries p = none := by
  have hd := h.dentries p
  cases hn : fs.node p with
  | none => rwa [hn] at hd
  | some n =>
    rw [hn] at hd
    cases n with
    | file attr data => exact hd
    | dir attr names => exact absurd ⟨attr, names, hn⟩ hp

/-- **Documents are those of one file system.** -/
theorem unique {fs' : FileSystem} (h : d.Hold fs) (h' : d.Hold fs') : fs = fs' := by
  refine FileSystem.ext_node (fun q => ?_)
  have hs := (h.stats q).symm.trans (h'.stats q)
  have hb := (h.blocks q).symm.trans (h'.blocks q)
  have hd := h.dentries q
  have hd' := h'.dentries q
  cases hn : fs.node q with
  | none => exact (h'.stats_eq_none.mp (h.stats_eq_none.mpr hn)).symm
  | some n =>
    cases hn' : fs'.node q with
    | none => cases hn.symm.trans (h.stats_eq_none.mp (h'.stats_eq_none.mpr hn'))
    | some n' =>
      rw [hn, hn'] at hs hb
      rw [hn] at hd
      rw [hn'] at hd'
      have hattr : n.attr = n'.attr := by simpa using hs
      cases n with
      | file attr data =>
        cases n' with
        | file attr' data' =>
          obtain rfl : attr = attr' := hattr
          obtain rfl : data = data' := hb
          rfl
        | dir attr' names' =>
          obtain ⟨t, ht, -⟩ := hd'
          cases ht.symm.trans hd
      | dir attr names =>
        obtain ⟨t, ht, hl⟩ := hd
        cases n' with
        | file attr' data' => cases ht.symm.trans hd'
        | dir attr' names' =>
          obtain ⟨t', ht', hl'⟩ := hd'
          cases ht.symm.trans ht'
          obtain rfl : attr = attr' := hattr
          rw [hl.unique hl']

/-! ### The three changes -/

/-- A node that changes its names changes its document. -/
theorem relist {f : List CString → List CString} {e : List Json → List Json} (h : d.Hold fs)
    (hedit : ∀ {k : CString} {t : Text} {names}, Lists k t names →
      ∃ t', edited e (some t) = some t' ∧ Lists k t' (f names)) (k q : CString) :
    (d.editDir k e).stats q
        = (Node.mapAt fs.node k (Node.relist f) q).map (fun n => .packed n.attr)
      ∧ DirDoc q (Node.mapAt fs.node k (Node.relist f) q) ((d.editDir k e).dentries q)
      ∧ (d.editDir k e).blocks q = (Node.mapAt fs.node k (Node.relist f) q).bind Node.data := by
  have hs := h.stats q
  have hd := h.dentries q
  have hb := h.blocks q
  unfold Docs.editDir Node.mapAt
  simp only [Docs.stats_setDentry, Docs.blocks_setDentry, Docs.dentries_setDentry, hs, hb]
  by_cases hq : q = k
  · subst hq
    simp only [if_true]
    cases hn : fs.node q with
    | none =>
      rw [hn] at hd
      refine ⟨rfl, ?_, rfl⟩
      rw [show d.dentries q = none from hd]
      exact edited_none e
    | some n =>
      rw [hn] at hd
      cases n with
      | file attr data =>
        refine ⟨rfl, ?_, rfl⟩
        rw [show d.dentries q = none from hd]
        exact edited_none e
      | dir attr names =>
        obtain ⟨t, ht, hl⟩ := hd
        rw [ht]
        exact ⟨rfl, hedit hl, rfl⟩
  · simp only [if_neg hq]
    exact ⟨trivial, hd, trivial⟩

/-- **A new node**: its documents, and its name with those of its
directory. -/
theorem make (h : d.Hold fs) {n : Node} (hp : fs.Room p) (hn : n.Fresh) {o : Own Text}
    (hstat : o.stat = some (.packed n.attr)) (hdentry : DirDoc p (some n) o.dentry)
    (hblock : o.block = none) :
    ((d.setOwn p o).editDir p.dirname (addChild p.basename)).Hold (fs.make p n hp hn) := by
  have hne := hp.normalised.dirname_ne hp.notRoot
  have hdata : n.data = none := by
    cases n with
    | file attr data => exact hn
    | dir attr names => rfl
  have hat : ∀ q, _ := h.relist (fun hl => @edited_addChild _ _ _ p.basename _ _ hl) p.dirname
  refine ⟨fun q => ?_, fun q => ?_, fun q => ?_⟩
  · show ((d.setOwn p o).editDir p.dirname _).stats q
      = Option.map _ (if q = p then some n else _)
    by_cases hq : q = p
    · subst hq
      rw [if_pos rfl, Option.map_some, ← hstat]
      simp [Docs.editDir, Docs.setOwn]
    · rw [if_neg hq, ← (hat q).1]
      simp [Docs.editDir, Docs.setOwn, hq]
  · show DirDoc q (if q = p then some n else _)
      (((d.setOwn p o).editDir p.dirname (addChild p.basename)).dentries q)
    by_cases hq : q = p
    · subst hq
      rw [if_pos rfl]
      simpa [Docs.editDir, Docs.setOwn, hne.symm] using hdentry
    · rw [if_neg hq]
      have hd := (hat q).2.1
      simpa [Docs.editDir, Docs.setOwn, hq, hne] using hd
  · show ((d.setOwn p o).editDir p.dirname _).blocks q
      = Option.bind (if q = p then some n else _) _
    by_cases hq : q = p
    · subst hq
      rw [if_pos rfl, Option.bind_some, hdata, ← hblock]
      simp [Docs.editDir, Docs.setOwn]
    · rw [if_neg hq, ← (hat q).2.2]
      simp [Docs.editDir, Docs.setOwn, hq]

/-- **One node less**: its documents, and its name among those of its
directory. -/
theorem drop (h : d.Hold fs) (hp : fs.Removable p) :
    ((d.setOwn p ⟨none, none, none⟩).editDir p.dirname (removeChild p.basename)).Hold
      (fs.drop p hp) := by
  have hne := (fs.normalised p hp.node_ne_none).dirname_ne hp.notRoot
  have hat : ∀ q, _ := h.relist (fun hl => @edited_removeChild _ _ _ p.basename _ _ hl) p.dirname
  refine ⟨fun q => ?_, fun q => ?_, fun q => ?_⟩
  · show ((d.setOwn p _).editDir p.dirname _).stats q
      = Option.map _ (if q = p then none else _)
    by_cases hq : q = p
    · subst hq
      simp [Docs.editDir, Docs.setOwn]
    · rw [if_neg hq, ← (hat q).1]
      simp [Docs.editDir, Docs.setOwn, hq]
  · show DirDoc q (if q = p then none else _)
      (((d.setOwn p ⟨none, none, none⟩).editDir p.dirname (removeChild p.basename)).dentries q)
    by_cases hq : q = p
    · subst hq
      rw [if_pos rfl]
      simp [Docs.editDir, Docs.setOwn, hne.symm, DirDoc]
    · rw [if_neg hq]
      have hd := (hat q).2.1
      simpa [Docs.editDir, Docs.setOwn, hq, hne] using hd
  · show ((d.setOwn p _).editDir p.dirname _).blocks q
      = Option.bind (if q = p then none else _) _
    by_cases hq : q = p
    · subst hq
      simp [Docs.editDir, Docs.setOwn]
    · rw [if_neg hq, ← (hat q).2.2]
      simp [Docs.editDir, Docs.setOwn, hq]

/-- **A node changed**: its stat, and its block if it is a file. -/
theorem touch (h : d.Hold fs) {n : Node} (hn : fs.node p = some n) {d' : Docs Text}
    (hothers : d'.others p = d.others p) {f : CbfuseStat → CbfuseStat}
    (hstat : d'.stats p = some (.packed (f n.attr)))
    (hblock : d'.blocks p = (n.touch f (d'.blocks p)).data)
    (hdata : ∀ b, d'.blocks p = some b → b.length ≤ maxFileLen) :
    d'.Hold (fs.touch p f (d'.blocks p) hdata) := by
  obtain ⟨hstats, hdentries, hblocks⟩ := Docs.others_eq_iff.mp hothers
  refine ⟨fun q => ?_, fun q => ?_, fun q => ?_⟩
  · show d'.stats q = Option.map _ (Node.mapAt fs.node p _ q)
    unfold Node.mapAt
    by_cases hq : q = p
    · subst hq
      rw [if_pos rfl, hn, hstat]
      simp
    · rw [if_neg hq, hstats q hq, h.stats]
  · show DirDoc q (Node.mapAt fs.node p _ q) (d'.dentries q)
    have hd := h.dentries q
    rw [hdentries]
    unfold Node.mapAt
    by_cases hq : q = p
    · subst hq
      rw [hn] at hd
      rw [if_pos rfl, hn]
      cases n with
      | file attr data => exact hd
      | dir attr names => exact hd
    · rwa [if_neg hq]
  · show d'.blocks q = Option.bind (Node.mapAt fs.node p _ q) _
    unfold Node.mapAt
    by_cases hq : q = p
    · subst hq
      rw [if_pos rfl, hn]
      exact hblock
    · rw [if_neg hq, hblocks q hq, h.blocks]

end Docs.Hold

/-! ## Every operation does what it is for -/

section Steps

variable {s : Store Text} {fs : FileSystem} {env : ℕ → Choice} {p : CString}
  {conn : FuseConnInfo}

/-- Nothing is out of shape in a store that holds a file system. -/
theorem Store.Holds.shapely (h : s.Holds fs) : s.Shapely where
  stats q v hv := by
    obtain ⟨n, -, rfl⟩ := Option.map_eq_some_iff.mp ((h.stats q).symm.trans hv)
    exact ⟨n.attr, rfl⟩
  blocks q b hb := by
    obtain ⟨n, hn, hdata⟩ := Option.bind_eq_some_iff.mp ((h.blocks q).symm.trans hb)
    cases n with
    | file attr data =>
      obtain rfl : data = some b := hdata
      exact fs.bounded q attr b hn
    | dir attr names => cases hdata

theorem Store.Holds.val (h : s.Holds fs) {n : Node} (hp : fs.node p = some n) :
    s.stats.val p = some (.packed n.attr) := by
  rw [show s.stats.val p = _ from h.stats p, hp]
  rfl

theorem Store.Holds.val_none (h : s.Holds fs) (hp : fs.node p = none) :
    s.stats.val p = none := by
  rw [show s.stats.val p = _ from h.stats p, hp]
  rfl

/-- What a fetch of a stat finds is what the file system has. -/
theorem Store.Holds.statOf (h : s.Holds fs) (p : CString) :
    match fs.node p with
    | none => s.statOf p = .error (-enoent)
    | some n => ∃ cas, s.statOf p = .ok (n.attr, cas) := by
  cases hn : fs.node p with
  | none =>
    dsimp only
    unfold Store.statOf
    rw [(Kv.Collection.val_eq_none _ _).mp (h.val_none hn)]
  | some n => exact Store.statOf_of_val (h.val hn)

omit [CJson Text] in
/-- What is made of a result changes nothing of a run. -/
theorem run_map {α γ : Type} (f : α → γ) (prog : Op Text α) (env : ℕ → Choice) (s : Store Text) :
    (f <$> prog).run serve env s
      = ((prog.run serve env s).1.map f, (prog.run serve env s).2) := by
  rw [map_eq_pure_bind]
  exact Prog.run_bind_ret serve prog f env s

omit [CJson Text] in
theorem clockReadings_map {α γ : Type} (f : α → γ) (prog : Op Text α) (env : ℕ → Choice)
    (s : Store Text) : clockReadings (f <$> prog) env s = clockReadings prog env s := by
  unfold clockReadings
  rw [map_eq_pure_bind]
  exact congrArg (List.filterMap clockReading) (Prog.events_bind_ret prog f env s)

namespace FuseOp

/-- The operation does what it is for, in a store that holds `fs`. -/
def Does (op : FuseOp β) (env : ℕ → Choice) (s : Store Text) (fs : FileSystem) : Prop :=
  ∃ a s' fs', op.full.run serve env s = (some a, s')
    ∧ FileSystem.Step (clockReadings (op.full : Op Text (Answer β)) env s) op a fs fs'
    ∧ s'.Holds fs'

theorem does_getattr (h : s.Holds fs) (henv : ∀ n, (env n).FaultFree) (fc : FuseContext)
    (p : CString) : (getattr fc p : FuseOp β).Does env s fs := by
  refine ⟨_, s, fs, ?_, ⟨rfl, rfl⟩, h⟩
  show (Answer.attr <$> cbfuseGetattr fc p).run serve env s = _
  rw [run_map]
  by_cases hlen : p.length > maxPathLen
  · unfold cbfuseGetattr
    rw [if_pos hlen, if_pos hlen]
    rfl
  · rw [if_neg hlen, cbfuseGetattr_eq fc hlen, Prog.run_call, (henv 0).serve_stats]
    cases hn : fs.node p with
    | none =>
      have hd := (Kv.Collection.val_eq_none _ _).mp (h.val_none hn)
      simp only [Kv.Collection.serve, hd]
      rfl
    | some n =>
      obtain ⟨cas, hstat⟩ := Store.statOf_of_val (h.val hn)
      have hd := Store.docs_of_statOf hstat
      simp only [Kv.Collection.serve, hd]
      rfl

omit [CJson Text] in
/-- Whether a path can be opened is whether its stat can be fetched. -/
theorem cbfuseOpen_eq {p : CString} (hlen : ¬ p.length > maxPathLen) :
    (cbfuseOpen p : Op Text ℤ) = getStat p >>= fun r => .ret (codeOf r) := by
  unfold cbfuseOpen
  rw [if_neg hlen]
  refine congrArg (getStat p >>= ·) ?_
  funext r
  cases r <;> rfl

theorem does_open (h : s.Holds fs) (henv : ∀ n, (env n).FaultFree) (p : CString) :
    (openFile p : FuseOp β).Does env s fs := by
  refine ⟨_, s, fs, ?_, ⟨rfl, rfl⟩, h⟩
  show (Answer.code <$> cbfuseOpen p).run serve env s = _
  rw [run_map]
  by_cases hlen : p.length > maxPathLen
  · unfold cbfuseOpen
    rw [if_pos hlen, if_pos hlen]
    rfl
  · rw [cbfuseOpen_eq hlen, if_neg hlen]
    have hwp : (getStat p >>= fun r => .ret (codeOf r) : Op Text ℤ).wp serve Choice.FaultFree
        (fun _ => True)
        (fun r s' => r = (if fs.node p = none then -enoent else 0) ∧ s' = s) s := by
      rw [Prog.wp_bind]
      refine wp_getStat trivial ?_
      have hstat := h.statOf p
      cases hn : fs.node p with
      | none =>
        rw [hn] at hstat
        rw [hstat]
        exact ⟨rfl, rfl⟩
      | some n =>
        rw [hn] at hstat
        obtain ⟨cas, hstat⟩ := hstat
        rw [hstat]
        exact ⟨rfl, rfl⟩
    obtain ⟨r, s', hrun, rfl, rfl⟩ := Prog.wp_run hwp henv
    exact congrArg (fun x : Option ℤ × Store Text => (x.1.map Answer.code, x.2)) hrun

omit [CJson Text] in
/-- On a list of names the loop of `cbfuse_readdir` offers those from the
offset on. -/
theorem fillLoop_offerAll (filler : β → CString → ℕ → ℤ × β) (offset : ℤ)
    (names : List CString) (n : ℕ) (r : ℤ × β) :
    fillLoop filler offset (names.map Json.string) n r.1 r.2
      = offerAll filler (names.drop (offset.toNat - n)) (max n offset.toNat) r := by
  induction names generalizing n r with
  | nil =>
    rw [List.drop_nil]
    rfl
  | cons name names ih =>
    rw [List.map_cons, fillLoop]
    by_cases hn : (n : ℤ) ≥ offset
    · rw [if_pos hn, show offset.toNat - n = 0 by omega, List.drop_zero,
        max_eq_left (show offset.toNat ≤ n by omega), offerAll]
      dsimp only [Json.getStringValue]
      rw [ih, show offset.toNat - (n + 1) = 0 by omega, List.drop_zero,
        max_eq_left (show offset.toNat ≤ n + 1 by omega)]
    · rw [if_neg hn, ih, show offset.toNat - n = offset.toNat - (n + 1) + 1 by omega,
        List.drop_succ_cons, max_eq_right (show n + 1 ≤ offset.toNat by omega),
        max_eq_right (show n ≤ offset.toNat by omega)]

theorem does_readdir (h : s.Holds fs) (henv : ∀ n, (env n).FaultFree) (p : CString)
    (filler : β → CString → ℕ → ℤ × β) (offset : ℤ) (buf : β) :
    (readdir p filler offset buf).Does env s fs := by
  refine ⟨_, s, fs, ?_, ⟨rfl, rfl⟩, h⟩
  show ((fun r : ℤ × β => Answer.entries r.1 r.2) <$>
    cbfuseReaddir p filler offset buf).run serve env s = _
  rw [run_map, cbfuseReaddir_eq, Prog.run_call, (henv 0).serve_dentries]
  have habsent : s.docs.dentries p = none → s.dentries.docs p = none :=
    (Kv.Collection.val_eq_none _ _).mp
  have hd := h.dentries p
  cases hn : fs.node p with
  | none =>
    rw [hn] at hd
    simp only [Kv.Collection.serve, habsent hd]
    rfl
  | some n =>
    rw [hn] at hd
    cases n with
    | file attr data =>
      simp only [Kv.Collection.serve, habsent hd]
      rfl
    | dir attr names =>
      obtain ⟨t, ht, hl⟩ := hd
      obtain ⟨⟨v, cas⟩, hdoc, rfl⟩ := Option.map_eq_some_iff.mp ht
      have hitems : Json.arrayItems (Json.getObjectItemCaseSensitive (CJson.parse v)
          dentryChildren) = some (names.map Json.string) := hl.items
      have hloop := fillLoop_offerAll filler offset names 0 (0, buf)
      rw [Nat.sub_zero, Nat.zero_max] at hloop
      have hreply : dentryReply (⟨⟨none, none, some ⟨v, cas⟩⟩, true⟩ : Response Text)
          = .ok (CJson.parse v) := rfl
      simp only [Kv.Collection.serve, hdoc, hreply, hitems]
      rw [Prog.run_ret]
      show (some (Answer.entries (fillLoop _ _ _ _ _ _).1 (fillLoop _ _ _ _ _ _).2), s) = _
      rw [hloop]

/-! ### The tree -/

/-- A call on the tree does what it is for if its change does. -/
theorem does_tree {op : TreeOp} (henv : ∀ n, (env n).FaultFree)
    (hstep : ∀ ts now, (op.mode ≠ none →
        (op.change ts (s.docs.own op.path)).own.stat ≠ (s.docs.own op.path).stat → ts ∈ now) →
      ∃ fs', FileSystem.TreeStep now op (s.docs.apply op.path (op.change ts)).1 fs fs'
        ∧ (s.docs.apply op.path (op.change ts)).2.Hold fs') :
    (FuseOp.fs (.tree op) : FuseOp β).Does env s fs := by
  obtain ⟨ts, hts⟩ := (henv 0).exists_now
  obtain ⟨s', hrun, hs'⟩ := run_treeOp op s henv hts
  obtain ⟨fs', htree, hold⟩ := hstep ts (clockReadings op.code env s)
    (fun hmode hmade => List.mem_of_mem_head? (World.head_clockReadings_tree hts hmode hmade s))
  refine ⟨.code (s.docs.apply op.path (op.change ts)).1, s', fs', ?_, ⟨_, rfl, ?_⟩, ?_⟩
  · show (Answer.code <$> op.code).run serve env s = _
    rw [run_map, hrun]
    rfl
  · show FileSystem.TreeStep (clockReadings (Answer.code <$> op.code) env s) op _ fs fs'
    rw [clockReadings_map]
    exact htree
  · unfold Store.Holds
    rw [hs']
    exact hold

/-- A refused call leaves what there was. -/
theorem hold_refused (h : s.Holds fs) (change : Own Text → Change Text) {r : ℤ}
    (hchange : change (s.docs.own p) = .refused (s.docs.own p) r) :
    (s.docs.apply p change).1 = r ∧ (s.docs.apply p change).2.Hold fs := by
  rw [Docs.apply_refused hchange, Docs.setOwn_own]
  exact ⟨rfl, h⟩

theorem does_create (h : s.Holds fs) (henv : ∀ n, (env n).FaultFree) {mode : ℕ}
    (hop : fs.Legal conn (.fs (.tree (.create p mode)) : FuseOp β)) :
    (FuseOp.fs (.tree (.create p mode)) : FuseOp β).Does env s fs := by
  obtain ⟨hnorm, hroot, hdir⟩ := hop
  refine does_tree henv (fun ts now hnow => ?_)
  unfold FileSystem.TreeStep
  by_cases hreg : sIsreg mode
  · by_cases hlen : p.length > maxPathLen
    · obtain ⟨hr, hold⟩ := hold_refused h ((TreeOp.create p mode).change ts)
        ((if_neg (not_not.mpr hreg)).trans (if_pos hlen))
      refine ⟨fs, ?_, hold⟩
      dsimp only
      rw [if_neg (not_not.mpr hreg), if_pos hlen]
      exact ⟨hr, rfl⟩
    · by_cases hvac : fs.node p = none
      · obtain ⟨hstat, hdentry, hblock⟩ := h.vacant hvac
        have hchange := @TreeOp.change_create_new Text _ p mode ts (s.docs.own p) hreg hlen hstat
        have hroom : fs.Room p := ⟨hnorm, hroot, hvac, hdir⟩
        have hts : ts ∈ now := by
          refine hnow (Option.some_ne_none mode) ?_
          show ((TreeOp.create p mode).change ts (s.docs.own p)).own.stat ≠ s.docs.stats p
          rw [hchange, hstat]
          exact Option.some_ne_none _
        have hr : (s.docs.apply p ((TreeOp.create p mode).change ts)).1 = 0 := by
          obtain ⟨attr, names, hd⟩ := hdir
          obtain ⟨t, ht, hl⟩ := h.dir hd
          rw [Docs.apply_create_new hreg hlen hstat]
          dsimp only
          rw [ht]
          exact editCode_of_lists hl
        refine ⟨fs.make p (.file (rootStat mode ts) none) hroom rfl, ?_, ?_⟩
        · dsimp only
          rw [if_neg (not_not.mpr hreg), if_neg hlen, if_neg (not_not.mpr hvac)]
          exact ⟨hr, ts, hts, hroom, rfl⟩
        · show (s.docs.apply p _).2.Hold _
          rw [Docs.apply_edit hchange]
          exact Docs.Hold.make h hroom (Node.fresh_file _) rfl hdentry hblock
      · obtain ⟨hr, hold⟩ := hold_refused h ((TreeOp.create p mode).change ts)
          (TreeOp.change_create_old hreg hlen (h.stats_eq_none.not.mpr hvac))
        refine ⟨fs, ?_, hold⟩
        dsimp only
        rw [if_neg (not_not.mpr hreg), if_neg hlen, if_pos hvac]
        exact ⟨hr, rfl⟩
  · obtain ⟨hr, hold⟩ := hold_refused h ((TreeOp.create p mode).change ts) (if_pos hreg)
    refine ⟨fs, ?_, hold⟩
    dsimp only
    rw [if_pos hreg]
    exact ⟨hr, rfl⟩

theorem does_mkdir (h : s.Holds fs) (henv : ∀ n, (env n).FaultFree) {mode : ℕ}
    (hop : fs.Legal conn (.fs (.tree (.mkdir p mode)) : FuseOp β)) :
    (FuseOp.fs (.tree (.mkdir p mode)) : FuseOp β).Does env s fs := by
  obtain ⟨hnorm, hroot, hdir⟩ := hop
  refine does_tree henv (fun ts now hnow => ?_)
  unfold FileSystem.TreeStep
  by_cases hvac : fs.node p = none
  · obtain ⟨hstat, hdentry, hblock⟩ := h.vacant hvac
    have hchange := @TreeOp.change_mkdir_new Text _ p mode ts (s.docs.own p) hstat hdentry
    have hroom : fs.Room p := ⟨hnorm, hroot, hvac, hdir⟩
    have hts : ts ∈ now := by
      refine hnow (Option.some_ne_none mode) ?_
      show ((TreeOp.mkdir p mode).change ts (s.docs.own p)).own.stat ≠ s.docs.stats p
      rw [hchange, hstat]
      exact Option.some_ne_none _
    have hr : (s.docs.apply p ((TreeOp.mkdir p mode).change ts)).1 = 0 := by
      obtain ⟨attr, names, hd⟩ := hdir
      obtain ⟨t, ht, hl⟩ := h.dir hd
      rw [Docs.apply_mkdir_new hstat hdentry]
      dsimp only
      rw [Docs.dentries_setDentry, if_neg (hnorm.dirname_ne hroot), Docs.dentries_setStat, ht]
      exact editCode_of_lists hl
    refine ⟨fs.make p (.dir (rootStat mode ts) []) hroom rfl, ?_, ?_⟩
    · dsimp only
      rw [if_neg (not_not.mpr hvac)]
      exact ⟨hr, ts, hts, hroom, rfl⟩
    · show (s.docs.apply p _).2.Hold _
      rw [Docs.apply_edit hchange]
      exact Docs.Hold.make h hroom (Node.fresh_dir _) rfl
        ⟨_, rfl, lists_createDentry p _ (by simp [parentPath, hroot])⟩ hblock
  · obtain ⟨hr, hold⟩ := hold_refused h ((TreeOp.mkdir p mode).change ts)
      (TreeOp.change_mkdir_old (h.stats_eq_none.not.mpr hvac))
    refine ⟨fs, ?_, hold⟩
    dsimp only
    rw [if_pos hvac]
    exact ⟨hr, rfl⟩

/-- Both removals, where they leave nothing under the path. -/
theorem hold_removed (h : s.Holds fs) (hp : fs.Removable p) (change : Own Text → Change Text)
    (hchange : change (s.docs.own p) = ⟨⟨none, none, none⟩, some (removeChild p.basename),
      fun _ => if s.docs.stats p = none then -enoent else 0⟩) :
    (s.docs.apply p change).1 = 0 ∧ (s.docs.apply p change).2.Hold (fs.drop p hp) := by
  rw [Docs.apply_edit hchange]
  exact ⟨if_neg (h.stats_eq_none.not.mpr hp.node_ne_none), Docs.Hold.drop h hp⟩

theorem does_unlink (h : s.Holds fs) (henv : ∀ n, (env n).FaultFree)
    (hop : fs.Legal conn (.fs (.tree (.unlink p)) : FuseOp β)) :
    (FuseOp.fs (.tree (.unlink p)) : FuseOp β).Does env s fs := by
  have hfile : fs.IsFile p := hop
  have hnotdir : ¬ fs.IsDir p := by
    rintro ⟨attr, names, hd⟩
    obtain ⟨attr', data, hf⟩ := hfile
    cases hd.symm.trans hf
  have hroot : p ≠ rootDirString := by
    rintro rfl
    exact hnotdir fs.root
  have hp : fs.Removable p := ⟨hroot, .inl hfile⟩
  refine does_tree henv (fun ts now _ => ?_)
  obtain ⟨hr, hold⟩ := hold_removed h hp ((TreeOp.unlink p).change ts) (by
    show (⟨⟨none, s.docs.dentries p, none⟩, _, _⟩ : Change Text) = _
    rw [h.no_dir hnotdir]
    rfl)
  exact ⟨_, ⟨hr, hp, rfl⟩, hold⟩

theorem does_rmdir (h : s.Holds fs) (henv : ∀ n, (env n).FaultFree)
    (hop : fs.Legal conn (.fs (.tree (.rmdir p)) : FuseOp β)) :
    (FuseOp.fs (.tree (.rmdir p)) : FuseOp β).Does env s fs := by
  obtain ⟨hroot, attr, hd⟩ := hop
  have hp : fs.Removable p := ⟨hroot, .inr ⟨attr, hd⟩⟩
  have hblock : s.docs.blocks p = none := by
    rw [h.blocks, hd]
    rfl
  refine does_tree henv (fun ts now _ => ?_)
  obtain ⟨hr, hold⟩ := hold_removed h hp ((TreeOp.rmdir p).change ts) (by
    show (⟨⟨none, none, s.docs.blocks p⟩, _, _⟩ : Change Text) = _
    rw [hblock]
    rfl)
  exact ⟨_, ⟨hr, hp, rfl⟩, hold⟩

/-! ### The entries -/

omit [CJson Text] in
/-- A legal call on an entry has arguments a call can have. -/
theorem inRange_of_legal {op : EntryOp}
    (hop : fs.Legal (cbfuseInit conn) (.fs (.entry op) : FuseOp β)) : op.InRange := by
  have hlim : (maxDocLen : ℤ) < 2 ^ 31 := by decide
  cases op with
  | write p buf offset =>
    obtain ⟨-, -, hlen, h0, hoff⟩ := hop
    have hlen : buf.length ≤ maxDocLen := hlen
    exact ⟨h0, hoff, by omega⟩
  | truncate p offset =>
    obtain ⟨-, h0, hoff⟩ := hop
    exact ⟨h0, hoff⟩
  | read p nbuf offset =>
    obtain ⟨-, hlen, h0, hoff⟩ := hop
    have hlen : nbuf ≤ maxDocLen := hlen
    exact ⟨h0, hoff, by omega⟩
  | chmod p mode => trivial
  | utimens p tv => trivial

omit [CJson Text] in
/-- A legal call on bytes is about those of a file. -/
theorem isFile_of_legal {op : EntryOp} (hop : fs.Legal conn (.fs (.entry op) : FuseOp β))
    (hdata : op.OnData) : fs.IsFile op.path := by
  cases op with
  | write p buf offset => exact hop.1
  | truncate p offset => exact hop.1
  | read p nbuf offset => exact hop.1
  | chmod p mode => exact hdata.elim
  | utimens p tv => exact hdata.elim

/-- **A call on an entry, with all it hands back.** -/
theorem run_entry_full (h : s.Holds fs) (henv : ∀ n, (env n).FaultFree) {op : EntryOp}
    (hop : op.InRange) {n : Node} (hn : fs.node op.path = some n) :
    ∃ s', (FuseOp.fs (.entry op) : FuseOp β).full.run serve env s
        = (some (op.answer n.data), s')
      ∧ s' = (op.code.run serve env s).2
      ∧ clockReadings ((FuseOp.fs (.entry op) : FuseOp β).full : Op Text (Answer β)) env s
        = clockReadings (op.code : Op Text ℤ) env s := by
  have hblock : s.blocks.val op.path = n.data := by
    have hb : s.blocks.val op.path = _ := h.blocks op.path
    rw [hb, hn]
    rfl
  obtain ⟨r, s', hrun, hperf⟩ := run_entryOp_spec h.shapely hop henv
  obtain ⟨hr, -⟩ := hperf.stat _ (h.val hn)
  rw [hblock] at hr
  have hcode : ∀ op' : EntryOp, op' = op → (∀ v : Option Bytes,
      (op'.answer v : Answer β) = .code (op'.result v)) →
      (FuseOp.fs (.entry op') : FuseOp β).full = (Answer.code <$> op'.code : Op Text _) →
      ∃ s', (FuseOp.fs (.entry op') : FuseOp β).full.run serve env s
          = (some (op'.answer n.data), s')
        ∧ s' = (op'.code.run serve env s).2
        ∧ clockReadings ((FuseOp.fs (.entry op') : FuseOp β).full : Op Text (Answer β)) env s
          = clockReadings (op'.code : Op Text ℤ) env s := by
    rintro op' rfl hans hfull
    rw [hfull, run_map, hrun, hans, hr]
    exact ⟨s', rfl, rfl, clockReadings_map _ _ _ _⟩
  cases op with
  | write p buf offset => exact hcode _ rfl (fun _ => rfl) rfl
  | truncate p offset => exact hcode _ rfl (fun _ => rfl) rfl
  | read p nbuf offset =>
    obtain ⟨a, s'', hrun', hperf', hbytes⟩ :=
      @run_readData Text s p env h.shapely nbuf offset hop henv
    obtain ⟨hr', -⟩ := hperf'.stat _ (h.val hn)
    rw [hblock] at hr'
    have hbytes := hbytes (h.stats_eq_none.not.mpr (by
      rw [show fs.node p = some n from hn]
      exact Option.some_ne_none _))
    refine ⟨s'', ?_, ?_, ?_⟩
    · show ((fun r : ℤ × Bytes => Answer.bytes r.1 r.2) <$> readData p nbuf offset).run serve env s
        = _
      rw [run_map, hrun', Option.map_some, hr', hbytes]
      unfold Store.bytesOf
      rw [show s.blocks.val p = n.data from hblock]
      rfl
    · show s'' = ((Prod.fst <$> readData p nbuf offset).run serve env s).2
      rw [run_map, hrun']
    · exact (clockReadings_map _ _ _ _).trans (clockReadings_map _ _ _ _).symm
  | chmod p mode => exact hcode _ rfl (fun _ => rfl) rfl
  | utimens p tv => exact hcode _ rfl (fun _ => rfl) rfl

/-- Without a node a change of attributes fails. -/
theorem does_entry_vacant (h : s.Holds fs) (henv : ∀ n, (env n).FaultFree) {op : EntryOp}
    (hdata : ¬ op.OnData) (hn : fs.node op.path = none) :
    (FuseOp.fs (.entry op) : FuseOp β).Does env s fs := by
  have hstat := h.statOf op.path
  rw [hn] at hstat
  refine ⟨.code (-enoent), s, fs, ?_, ?_, h⟩
  · have hcode : (FuseOp.fs (.entry op) : FuseOp β).full
        = (Answer.code <$> updateStat op.path op.clock op.change : Op Text _) := by
      cases op with
      | chmod p mode => rfl
      | utimens p tv => rfl
      | _ => exact absurd trivial hdata
    rw [hcode, run_map, run_updateStat_error hstat henv]
    rfl
  · show FileSystem.EntryStep _ op _ fs fs
    unfold FileSystem.EntryStep
    rw [hn]
    exact ⟨rfl, rfl⟩

theorem does_entry (h : s.Holds fs) (henv : ∀ n, (env n).FaultFree) {op : EntryOp}
    (hop : fs.Legal (cbfuseInit conn) (.fs (.entry op) : FuseOp β)) :
    (FuseOp.fs (.entry op) : FuseOp β).Does env s fs := by
  have hrange := inRange_of_legal hop
  cases hn : fs.node op.path with
  | none =>
    refine does_entry_vacant h henv (fun hdata => ?_) hn
    obtain ⟨attr, data, hfile⟩ := isFile_of_legal hop hdata
    cases hn.symm.trans hfile
  | some n =>
    obtain ⟨s', hfull, hs', hread⟩ := @run_entry_full Text β _ s fs env h henv op hrange n hn
    obtain ⟨r, s'', hrun, hperf⟩ := run_entryOp_spec h.shapely hrange henv
    obtain rfl : s' = s'' := by rw [hs', hrun]
    have hothers := (run_entryOp op env s).1
    rw [hrun] at hothers
    have hblock : s.blocks.val op.path = n.data := by
      have hb : s.blocks.val op.path = _ := h.blocks op.path
      rw [hb, hn]
      rfl
    obtain ⟨-, ts, hstat, hts⟩ := hperf.stat _ (h.val hn)
    have hreblocks := hperf.block
    rw [hblock] at hstat hts hreblocks
    have hlen := hreblocks.length_le hrange
      (fun b hb => h.shapely.blocks op.path b (hblock.trans hb))
    -- the bytes are those of a file, or there are none
    have hdata : s'.docs.blocks op.path
        = (n.touch (op.restat n.data ts) (s'.docs.blocks op.path)).data := by
      cases n with
      | file attr data => rfl
      | dir attr names =>
        have hnot : ¬ op.OnData := by
          intro hdata
          obtain ⟨attr', data, hfile⟩ := isFile_of_legal hop hdata
          cases hn.symm.trans hfile
        cases op with
        | chmod p mode => exact hreblocks
        | utimens p tv => exact hreblocks
        | _ => exact absurd trivial hnot
    refine ⟨_, s', _, hfull, ?_, Docs.Hold.touch h hn hothers hstat hdata hlen⟩
    show FileSystem.EntryStep _ op _ fs _
    unfold FileSystem.EntryStep
    rw [hn, hread]
    refine ⟨rfl, ts, _, fun hre => ?_, hreblocks, hlen, rfl⟩
    rw [hts, if_pos hre]
    exact List.mem_singleton_self ts

/-- **Every operation does what it is for.** -/
theorem step_refines (h : s.Holds fs) (henv : ∀ n, (env n).FaultFree) {op : FuseOp β}
    (hop : fs.Legal (cbfuseInit conn) op) : op.Does env s fs := by
  cases op with
  | getattr fc p => exact does_getattr h henv fc p
  | openFile p => exact does_open h henv p
  | readdir p filler offset buf => exact does_readdir h henv p filler offset buf
  | fs op =>
    cases op with
    | tree op =>
      cases op with
      | create p mode => exact does_create h henv hop
      | mkdir p mode => exact does_mkdir h henv hop
      | unlink p => exact does_unlink h henv hop
      | rmdir p => exact does_rmdir h henv hop
    | entry op => exact does_entry h henv hop

end FuseOp

end Steps

/-! ## Whole runs -/

/-- The two documents of a root are an empty file system. -/
theorem holds_root (ts : Timespec) :
    ((Store.empty.putStat rootDirString (rootStat (sIfdir ||| 0o755) ts)).putDentry rootDirString
      (CJson.printUnformatted rootDentry) : Store Text).Holds
        (.mounted (rootStat (sIfdir ||| 0o755) ts)) := by
  refine ⟨fun p => ?_, fun p => ?_, fun p => ?_⟩
  · show Kv.Collection.val _ p = Option.map _ (if p = rootDirString then _ else none)
    by_cases hp : p = rootDirString <;> simp [Store.empty, hp, Node.attr]
  · show DirDoc p (if p = rootDirString then _ else none) (Kv.Collection.val _ p)
    by_cases hp : p = rootDirString
    · subst hp
      rw [if_pos rfl]
      refine ⟨_, ?_, lists_createDentry rootDirString none rfl⟩
      simp [Store.empty, rootDentry]
    · rw [if_neg hp]
      simp [Store.empty, hp, DirDoc]
  · show (none : Option Bytes) = Option.bind (if p = rootDirString then _ else none) Node.data
    split <;> rfl

/-- The bucket with its root holds an empty file system. -/
theorem rootStore_holds {env : ℕ → Choice} (henv : ∀ n, (env n).FaultFree) :
    ∃ ts, (rootStore env : Store Text).Holds (.mounted (rootStat (sIfdir ||| 0o755) ts)) := by
  obtain ⟨ts, hroot⟩ := @rootStore_eq Text _ env henv
  rw [hroot]
  exact ⟨ts, holds_root ts⟩

namespace FuseOp

/-- A whole operation, its requests served under the choices given with
it. -/
def step (x : FuseOp β × (ℕ → Choice)) (s : Store Text) : Store Text :=
  (x.1.full.run serve x.2 s).2

/-- What it hands back, with the values the clock showed. -/
def output (x : FuseOp β × (ℕ → Choice)) (s : Store Text) : Option (Answer β) × List Timespec :=
  ((x.1.full.run serve x.2 s).1, clockReadings x.1.full x.2 s)

/-- The step of the specification that belongs to an output. -/
def Specified (x : FuseOp β × (ℕ → Choice)) (out : Option (Answer β) × List Timespec)
    (fs fs' : FileSystem) : Prop :=
  ∃ a, out.1 = some a ∧ FileSystem.Step out.2 x.1 a fs fs'

/-- **Operations one after the other do what they are for.** -/
theorem session_refines {conn : FuseConnInfo} {s : Store Text} {fs : FileSystem} (h : s.Holds fs)
    {xs : List (FuseOp β × (ℕ → Choice))}
    (hxs : Machine.Meets step (fun x s => (∀ n, (x.2 n).FaultFree)
      ∧ ∀ fs, s.Holds fs → fs.Legal (cbfuseInit conn) x.1) xs s) :
    ∃ fs', Machine.Allows Specified xs (Machine.outputs step output xs s) fs fs'
      ∧ (Machine.final step xs s).Holds fs' := by
  refine Machine.simulates (fun x s fs hs hx => ?_) h hxs
  obtain ⟨a, s', fs', hrun, hstep, hs'⟩ := step_refines hs hx.1 (hx.2 fs hs)
  refine ⟨fs', ⟨a, ?_, hstep⟩, ?_⟩
  · show (x.1.full.run serve x.2 s).1 = some a
    rw [hrun]
  · show Store.Holds (x.1.full.run serve x.2 s).2 fs'
    rw [hrun]
    exact hs'

/-- **The bucket is a file system to whoever uses it.** From the store
`insert_root` leaves, any run of legal operations on the connection `cbfuse_init`
has set up, with nothing failing, is one of the file system that was empty when
it was mounted: operation by operation the same is handed back, and in the end
the store holds what has become of it. -/
theorem run_refines (conn : FuseConnInfo) {env : ℕ → Choice} (henv : ∀ n, (env n).FaultFree)
    (xs : List (FuseOp β × (ℕ → Choice)))
    (hxs : Machine.Meets step (fun x s => (∀ n, (x.2 n).FaultFree)
      ∧ ∀ fs, s.Holds fs → fs.Legal (cbfuseInit conn) x.1) xs (rootStore env : Store Text)) :
    ∃ ts fs, Machine.Allows Specified xs
        (Machine.outputs step output xs (rootStore env : Store Text))
        (.mounted (rootStat (sIfdir ||| 0o755) ts)) fs
      ∧ (Machine.final step xs (rootStore env : Store Text)).Holds fs := by
  obtain ⟨ts, hroot⟩ := @rootStore_holds Text _ env henv
  exact ⟨ts, session_refines hroot hxs⟩

/-- What a listing of names goes into. -/
def collect (names : List CString) (name : CString) (_ : ℕ) : ℤ × List CString :=
  (0, names ++ [name])

/-- A directory with a file in it is made, written to, listed and removed
again. -/
theorem run_refines_session :
    let d : CString := ['/', 'd']
    let f : CString := ['/', 'd', '/', 'f']
    let xs : List (FuseOp (List CString) × (ℕ → Choice)) :=
      [FuseOp.fs (.tree (.mkdir d 0o755)), .fs (.tree (.create f (sIfreg ||| 0o644))),
        .fs (.entry (.write f [1, 2] 0)), .fs (.entry (.read f 8 1)), .readdir d collect 0 [],
        .fs (.tree (.unlink f)), .fs (.tree (.rmdir d))].map (·, fun _ => .good ⟨0, 0⟩)
    let s : Store (Option Json) := rootStore (fun _ => .good ⟨0, 0⟩)
    (Machine.outputs step output xs s).map (fun out => out.1.map Answer.told)
        = [some 0, some 0, some 2, some 1, some 0, some 0, some 0]
      ∧ ∃ ts fs, Machine.Allows Specified xs (Machine.outputs step output xs s)
          (.mounted (rootStat (sIfdir ||| 0o755) ts)) fs
        ∧ (Machine.final step xs s).Holds fs := by
  intro d f xs s
  have hff : ∀ _ : ℕ, (Choice.good ⟨0, 0⟩).FaultFree := fun _ => Choice.faultFree_good _
  have hd : d.Normalised := .entry (n := ['d']) .top (by decide)
  have hf : f.Normalised := .entry (n := ['f']) hd (by decide)
  have hdir : ∀ {s : Store (Option Json)} {fs : FileSystem} {p : CString}, s.Holds fs →
      s.docs.dentries p ≠ none → fs.IsDir p :=
    fun hs hp => by_contra (fun hnot => hp (hs.no_dir hnot))
  have hfile : ∀ {s : Store (Option Json)} {fs : FileSystem} {p : CString}, s.Holds fs →
      s.docs.stats p ≠ none → s.docs.dentries p = none → fs.IsFile p := by
    intro s fs p hs hstat hdentry
    cases hn : fs.node p with
    | none => exact absurd (hs.stats_eq_none.mpr hn) hstat
    | some n =>
      cases n with
      | file attr data => exact ⟨attr, data, hn⟩
      | dir attr names =>
        obtain ⟨t, ht, -⟩ := hs.dir hn
        cases ht.symm.trans hdentry
  refine ⟨by decide, run_refines ⟨0, 0, 0, true⟩ hff xs
    ⟨⟨hff, fun fs hs => ?_⟩, ⟨hff, fun fs hs => ?_⟩,
    ⟨hff, fun fs hs => ?_⟩, ⟨hff, fun fs hs => ?_⟩, ⟨hff, fun fs hs => trivial⟩,
    ⟨hff, fun fs hs => ?_⟩, ⟨hff, fun fs hs => ?_⟩, trivial⟩⟩
  · exact ⟨hd, by decide, fs.root⟩
  · exact ⟨hf, by decide, hdir hs (by decide)⟩
  · exact ⟨hfile hs (by decide) (by decide), by decide, by decide, by decide, by decide⟩
  · exact ⟨hfile hs (by decide) (by decide), by decide, by decide, by decide⟩
  · exact hfile hs (by decide) (by decide)
  · obtain ⟨attr, names, hn⟩ := hdir (p := d) hs (by decide)
    obtain ⟨t, ht, hl⟩ := hs.dir hn
    have hitems : (childItems t).map List.length = some 0 :=
      (congrArg (fun o => (Option.bind o childItems).map List.length) ht).symm.trans (by decide)
    rw [hl.items, Option.map_some, List.length_map] at hitems
    obtain rfl := List.length_eq_zero_iff.mp (Option.some.inj hitems)
    exact ⟨by decide, attr, hn⟩

end FuseOp

end Cbfuse
