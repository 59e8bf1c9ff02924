import Cbfuse.Commute
import Cbfuse.Isolation
import Cbfuse.Progress
import Cbfuse.Refinement
import Cbfuse.Removal

/-!
# Trouble at a path, and one clean removal

Much can go wrong at a path. Clients make an entry there at once, or one makes
it while another removes it; requests fail, or succeed without anybody being
told; clients die halfway. What is left may be no entry at all by any standard:
a stat nobody lists, a name nothing stands for, the block of a file that was
removed.

None of it has to be looked into. Whatever calls at one path have done, what a
removal makes of the documents is what it would have made of them before
(`removal_undoes_calls`), since each request of each call either puts something
that the removal takes away, or edits the directory by the name that the
removal strikes out of it. So a client that answers trouble at a path with a
removal there, and sees that one through, has a file system again: the one it
had, but for what was at the path (`run_recovers`).
-/

namespace Cbfuse

open CString (rootDirString)

variable {Text β ι : Type}

/-! ## Calls at a path -/

/-- The operation only looks at something. -/
def FuseOp.Looks : FuseOp β → Prop
  | fs _ => False
  | _ => True

/-- **The call is at the path of a removal**: it touches no document but those
that the removal touches, or only looks at something, wherever. -/
def Call.Concerns (removal : TreeOp) (call : Call β) : Prop :=
  (∃ op : FuseOp β, call = .fuse op ∧ op.Looks) ∨ ∀ d ∈ call.places, d ∈ removal.places

/-- The documents a removal removes. -/
def TreeOp.removes : TreeOp → List Place
  | unlink p => [.block p, .stat p]
  | rmdir p => [.dentry p, .stat p]
  | _ => []

/-- The request is for a document. -/
def Req.IsGet : Req Text → Prop
  | .stats r => r = .get r.key
  | .dentries r => r = .get r.key
  | .blocks r => r = .get r.key
  | _ => True

theorem serve_isGet (c : Choice) {q : Req Text} (s : Store Text) (hq : q.IsGet) :
    (serve c q s).2 = s := by
  cases q with
  | stats r => rw [show r = .get r.key from hq]; simp [serve]
  | dentries r => rw [show r = .get r.key from hq]; simp [serve]
  | blocks r => rw [show r = .get r.key from hq]; simp [serve]
  | _ => rfl

variable [CJson Text]

/-- Looking at something is a fetch. -/
theorem looks_only {op : FuseOp β} (h : op.Looks) : (op.full : Op Text _).Only Req.IsGet := by
  cases op with
  | getattr fc p =>
    refine (Prog.only_map_iff _).mpr ?_
    by_cases hlen : p.length > maxPathLen
    · unfold cbfuseGetattr
      rw [if_pos hlen]
      trivial
    · rw [cbfuseGetattr_eq fc hlen]
      refine ⟨rfl, fun resp => ?_⟩
      dsimp only
      split <;> trivial
  | openFile p =>
    refine (Prog.only_map_iff _).mpr ?_
    unfold cbfuseOpen
    split
    · trivial
    · rw [getStat_eq]
      refine Prog.only_bind ⟨rfl, fun resp => ?_⟩ (fun r => ?_)
      · dsimp only
        split <;> trivial
      · cases r <;> trivial
  | readdir p filler offset buf =>
    refine (Prog.only_map_iff _).mpr ?_
    rw [cbfuseReaddir_eq]
    refine ⟨rfl, fun resp => ?_⟩
    dsimp only
    split
    · trivial
    · split <;> trivial
  | fs op => exact h.elim

/-! ## What a removal would leave -/

section Removed

variable {removal : TreeOp} {d d' : Docs Text}

omit [CJson Text] in
/-- A removal clears documents at its own path only. -/
theorem TreeOp.Removes.first_setDentry (h : removal.Removes)
    (hp : removal.path.dirname ≠ removal.path) (d : Docs Text) (o : Option Text) :
    removal.first (d.setDentry removal.path.dirname o)
      = (removal.first d).setDentry removal.path.dirname o := by
  cases removal with
  | create p mode => exact h.elim
  | mkdir p mode => exact h.elim
  | unlink p => rfl
  | rmdir p => exact Docs.setDentry_comm hp o none

/-- With another document of the directory a removal leaves another one, with
the name struck out. -/
theorem removed_setDentry (h : removal.Removes) (hp : removal.path.dirname ≠ removal.path)
    (d : Docs Text) (o : Option Text) :
    (d.setDentry removal.path.dirname o).removed removal.path removal.first
      = ((removal.first d).setDentry removal.path.dirname
          (edited (removeChild removal.path.basename) o)).setStat removal.path none := by
  unfold Docs.removed
  rw [h.first_setDentry hp, Docs.editDir, Docs.dentries_setDentry, if_pos rfl,
    Docs.setDentry_setDentry]

/-- The document of the directory that a removal leaves. -/
theorem dentries_removed (h : removal.Removes) (hp : removal.path.dirname ≠ removal.path)
    (d : Docs Text) :
    (d.removed removal.path removal.first).dentries removal.path.dirname
      = edited (removeChild removal.path.basename) (d.dentries removal.path.dirname) := by
  have hset := removed_setDentry h hp d (d.dentries removal.path.dirname)
  rw [Docs.setDentry_self rfl] at hset
  rw [hset, Docs.dentries_setStat, Docs.dentries_setDentry, if_pos rfl]

/-- **What a removal leaves is a matter of the other documents.** -/
theorem removed_congr (h : removal.Removes) {s s' : Store Text}
    (hsame : ∀ d, d ∉ removal.removes → s'.SameAt s d) :
    s'.docs.removed removal.path removal.first = s.docs.removed removal.path removal.first := by
  suffices hcleared : (removal.first s'.docs).setStat removal.path none
      = (removal.first s.docs).setStat removal.path none from
    congrArg (·.editDir removal.path.dirname (removeChild removal.path.basename)) hcleared
  have hupdate : ∀ {V : Type} {f g : CString → Option V} {p : CString},
      (∀ q, q ≠ p → f q = g q) → Function.update f p none = Function.update g p none := by
    intro V f g p hfg
    funext q
    rw [Function.update_apply, Function.update_apply]
    exact ite_congr rfl (fun _ => rfl) (fun hq => hfg q hq)
  cases removal with
  | create p mode => exact h.elim
  | mkdir p mode => exact h.elim
  | unlink p =>
    have hstat : ∀ q, q ≠ p → s'.stats.val q = s.stats.val q :=
      fun q hq => hsame (.stat q) (by simp [TreeOp.removes, hq])
    have hdentry : ∀ k, s'.dentries.val k = s.dentries.val k :=
      fun k => hsame (.dentry k) (by simp [TreeOp.removes])
    have hblock : ∀ q, q ≠ p → s'.blocks.val q = s.blocks.val q :=
      fun q hq => hsame (.block q) (by simp [TreeOp.removes, hq])
    exact Docs.ext (hupdate hstat) (funext hdentry) (hupdate hblock)
  | rmdir p =>
    have hstat : ∀ q, q ≠ p → s'.stats.val q = s.stats.val q :=
      fun q hq => hsame (.stat q) (by simp [TreeOp.removes, hq])
    have hdentry : ∀ k, k ≠ p → s'.dentries.val k = s.dentries.val k :=
      fun k hk => hsame (.dentry k) (by simp [TreeOp.removes, hk])
    have hblock : ∀ q, s'.blocks.val q = s.blocks.val q :=
      fun q => hsame (.block q) (by simp [TreeOp.removes])
    exact Docs.ext (hupdate hstat) (hupdate hdentry) (funext hblock)

end Removed

/-! ## The contract at a path -/

section Contract

variable (removal : TreeOp) (left : Docs Text)

/-- The request changes nothing of what the removal would leave. -/
def Req.Harmless (q : Req Text) : Prop :=
  ∀ c s, s.docs.removed removal.path removal.first = left →
    (serve c q s).2.docs.removed removal.path removal.first = left

/-- The text may stand for the directory: with the name struck out it is what
the removal would leave there. -/
def Fits (t : Text) : Prop :=
  ∀ d : Docs Text, d.removed removal.path removal.first = left →
    (d.setDentry removal.path.dirname (some t)).removed removal.path removal.first = left

/-- **What the clients at a path rely on, and what they guarantee.** -/
def harmless : Contract (Req Text) Req.Reply where
  relies
    | .dentries (.get k), resp =>
      k = removal.path.dirname → ∀ d, resp.doc = some d → Fits removal left d.value
    | _, _ => True
  asks := Req.Harmless removal left

variable {removal left}

/-- A fetch is harmless. -/
theorem Req.IsGet.harmless {q : Req Text} (hq : q.IsGet) : q.Harmless removal left := by
  intro c s hs
  rwa [serve_isGet c s hq]

/-- A request about what the removal removes is harmless. -/
theorem Req.At.harmless (h : removal.Removes) {q : Req Text} (hq : q.At (· ∈ removal.removes)) :
    q.Harmless removal left := by
  intro c s hs
  rwa [removed_congr h (fun d hd => serve_sameAt c s (fun he => hd (hq d he)))]

/-- The storing of a directory document that may stand there is harmless. -/
theorem Fits.harmless {t : Text} (ht : Fits removal left t) :
    (Req.dentries (.store .replace removal.path.dirname t 0)).Harmless removal left := by
  intro c s hs
  obtain he | he := docs_serve_replaceDentry c removal.path.dirname t s
  · rwa [he]
  · rw [he]
    exact ht s.docs hs

/-- What a fetch of the directory finds may stand there. -/
theorem fits_of_removed (h : removal.Removes) (hp : removal.path.dirname ≠ removal.path)
    {d : Docs Text} {t : Text} (hd : d.removed removal.path removal.first = left)
    (ht : d.dentries removal.path.dirname = some t) : Fits removal left t := by
  intro d' hd'
  have hsame : edited (removeChild removal.path.basename) (some t)
      = edited (removeChild removal.path.basename) (d'.dentries removal.path.dirname) := by
    rw [← ht, ← dentries_removed h hp, ← dentries_removed h hp, hd, hd']
  rw [removed_setDentry h hp, hsame, ← removed_setDentry h hp, Docs.setDentry_self rfl, hd']

omit [CJson Text] in
/-- Whether a name was added or removed does not matter once it is struck
out. -/
theorem NameEdit.removeChild_comp {n : CString} {edit : List Json → List Json}
    (h : NameEdit n edit) : removeChild n ∘ edit = removeChild n := by
  funext items
  obtain rfl | rfl := h
  · unfold addChild removeChild
    simp [Json.getStringValue]
  · exact removeChild_idem n items

/-- An edit by the name leaves a document that may stand there. -/
theorem Fits.edit (h : removal.Removes) (hp : removal.path.dirname ≠ removal.path) {t t' : Text}
    (ht : Fits removal left t) {edit : List Json → List Json}
    (hedit : NameEdit removal.path.basename edit) (he : editText edit t = some t') :
    Fits removal left t' := by
  intro d hd
  have hsame : edited (removeChild removal.path.basename) (some t')
      = edited (removeChild removal.path.basename) (some t) := by
    rw [← edited_of_editText he, edited_edited, hedit.removeChild_comp]
  rw [removed_setDentry h hp, hsame, ← removed_setDentry h hp]
  exact ht d hd

/-- **The server does its part.** -/
theorem serve_harmless (h : removal.Removes) (hp : removal.path.dirname ≠ removal.path)
    {c : Choice} {q : Req Text} {s : Store Text}
    (hs : s.docs.removed removal.path removal.first = left) (hq : q.Harmless removal left) :
    (serve c q s).2.docs.removed removal.path removal.first = left
      ∧ (harmless removal left).relies q (serve c q s).1 := by
  refine ⟨hq c s hs, ?_⟩
  cases q with
  | dentries r =>
    cases r with
    | get k =>
      rintro rfl d hd
      exact fits_of_removed h hp hs
        (Kv.Collection.val_of_docs (Kv.Collection.docs_of_answer_get hd))
    | _ => trivial
  | _ => trivial

/-! ### The calls keep it -/

/-- A program that touches only what the removal removes. -/
theorem kept_within {α : Type} (h : removal.Removes) {prog : Op Text α}
    (hprog : prog.Within (· ∈ removal.removes)) :
    (harmless removal left).Kept (fun _ => True) prog :=
  Contract.kept_of_only (hprog.only.mono (fun _ hq => hq.harmless h)) (Prog.returns_true _)

/-- The edit of the directory by the name. -/
theorem editDentry_harmless (h : removal.Removes) (hp : removal.path.dirname ≠ removal.path)
    {edit : List Json → List Json} (hedit : NameEdit removal.path.basename edit) :
    (harmless removal left).Kept (fun _ => True)
      (editDentry removal.path.dirname edit : Op Text ℤ) := by
  rw [editDentry_eq]
  refine ⟨Req.IsGet.harmless (q := .dentries _) rfl, fun resp hresp => ?_⟩
  dsimp only
  cases hr : editReply edit resp with
  | error e => trivial
  | ok t' =>
    obtain ⟨-, -, d, hd, ht'⟩ := editReply_ok hr
    exact ⟨((hresp rfl d hd).edit h hp hedit ht').harmless, fun _ _ => trivial⟩

omit [CJson Text] in
/-- What a removal touches it removes, but for the directory. -/
theorem TreeOp.Removes.mem_removes (h : removal.Removes) {d : Place} (hd : d ∈ removal.places)
    (hne : d ≠ .dentry removal.path.dirname) : d ∈ removal.removes := by
  cases removal with
  | create p mode => exact h.elim
  | mkdir p mode => exact h.elim
  | unlink p =>
    have hmem : d = .block p ∨ d = .dentry p.dirname ∨ d = .stat p := by
      simpa [TreeOp.places] using hd
    simpa [TreeOp.removes, show d ≠ .dentry p.dirname from hne] using hmem
  | rmdir p =>
    have hmem : d = .dentry p ∨ d = .dentry p.dirname ∨ d = .stat p := by
      simpa [TreeOp.places] using hd
    simpa [TreeOp.removes, show d ≠ .dentry p.dirname from hne] using hmem

omit [CJson Text] in
/-- A stat that it touches is that of its path. -/
theorem TreeOp.eq_path_of_stat {p : CString} (hp : Place.stat p ∈ removal.places) :
    p = removal.path := by
  cases removal <;> simpa [TreeOp.places, TreeOp.path] using hp

/-- A call that changes the tree at the path. -/
theorem treeOp_harmless (h : removal.Removes) (hp : removal.path.dirname ≠ removal.path)
    {op : TreeOp} (hop : ∀ d ∈ op.places, d ∈ removal.places) :
    (harmless removal left).Kept (fun _ => True) (op.code : Op Text ℤ) := by
  have hpath : op.path = removal.path :=
    TreeOp.eq_path_of_stat (hop _ (by cases op <;> simp [TreeOp.places, TreeOp.path]))
  have hown : ∀ d ∈ op.places, d ≠ .dentry op.path.dirname → d ∈ removal.removes :=
    fun d hd hne => h.mem_removes (hop d hd) (by rwa [← hpath])
  have hedit : ∀ {edit : List Json → List Json}, NameEdit op.path.basename edit →
      (harmless removal left).Kept (fun _ => True)
        (editDentry op.path.dirname edit : Op Text ℤ) := by
    intro edit hname
    rw [hpath] at hname ⊢
    exact editDentry_harmless h hp hname
  rw [← hpath] at hp
  cases op with
  | create p mode =>
    have hstat : Place.stat p ∈ removal.removes := hown _ (by simp [TreeOp.places]) (by simp)
    show Contract.Kept _ _ (cbfuseCreate p mode)
    unfold cbfuseCreate
    split
    · trivial
    · split
      · trivial
      · exact kept_orElse (kept_within h (insertStat_within hstat mode)) (hedit (.inl rfl))
  | mkdir p mode =>
    have hne : p ≠ p.dirname := hp.symm
    have hstat : Place.stat p ∈ removal.removes := hown _ (by simp [TreeOp.places]) (by simp)
    have hdentry : Place.dentry p ∈ removal.removes :=
      hown _ (by simp [TreeOp.places]) (by simpa [TreeOp.path] using hne)
    show Contract.Kept _ _ (cbfuseMkdir p mode)
    unfold cbfuseMkdir
    rw [if_neg (or_sIfdir_ne_zero mode)]
    exact kept_orElse (kept_within h (insertStat_within hstat _))
      (kept_orElse (kept_within h (addNewDentry_within hdentry _)) (hedit (.inl rfl)))
  | unlink p =>
    have hstat : Place.stat p ∈ removal.removes := hown _ (by simp [TreeOp.places]) (by simp)
    have hblock : Place.block p ∈ removal.removes := hown _ (by simp [TreeOp.places]) (by simp)
    exact Contract.kept_bind
      (kept_within h (within_blocks (.remove p) hblock (fun _ => rfl) (fun _ => within_ret _)))
      (fun _ _ => Contract.kept_bind (hedit (.inr rfl))
        (fun _ _ => kept_within h (removeStat_within hstat)))
  | rmdir p =>
    have hne : p ≠ p.dirname := hp.symm
    have hstat : Place.stat p ∈ removal.removes := hown _ (by simp [TreeOp.places]) (by simp)
    have hdentry : Place.dentry p ∈ removal.removes :=
      hown _ (by simp [TreeOp.places]) (by simpa [TreeOp.path] using hne)
    exact Contract.kept_bind (kept_within h (removeDentry_within hdentry))
      (fun _ _ => Contract.kept_bind (hedit (.inr rfl))
        (fun _ _ => kept_within h (removeStat_within hstat)))

/-- **Every call at the path keeps the contract.** -/
theorem call_harmless (h : removal.Removes) (hp : removal.path.dirname ≠ removal.path)
    {call : Call β} (hcall : call.Concerns removal) :
    (harmless removal left).Kept (fun _ => True) (call.code : Op Text (Answer β)) := by
  have hlooks : ∀ op : FuseOp β, op.Looks →
      (harmless removal left).Kept (fun _ => True) (op.full : Op Text (Answer β)) :=
    fun op hop => Contract.kept_of_only
      ((looks_only hop).mono (fun _ hq => hq.harmless)) (Prog.returns_true _)
  obtain ⟨op, rfl, hop⟩ | hplaces := hcall
  · exact hlooks op hop
  · cases call with
    | startUp fc =>
      have hroot : rootDirString = removal.path :=
        TreeOp.eq_path_of_stat (hplaces _ (by simp [Call.places]))
      rw [← hroot] at hp
      exact absurd rfl hp
    | fuse op =>
      cases op with
      | fs op =>
        cases op with
        | tree op => exact Contract.kept_map (treeOp_harmless h hp hplaces)
        | entry op =>
          refine kept_within h ((entryOp_within op).mono (fun d hd => ?_))
          refine h.mem_removes (hplaces d hd) ?_
          rintro rfl
          cases op <;> simp [EntryOp.places] at hd
      | getattr fc p => exact hlooks (.getattr fc p) trivial
      | openFile p => exact hlooks (.openFile p) trivial
      | readdir p filler offset buf => exact hlooks (.readdir p filler offset buf) trivial

end Contract

/-! ## One clean removal -/

section Clean

variable [DecidableEq ι] {removal : TreeOp} {calls : ι → Call β} {s : Store Text}

/-- **Calls at a path leave what a removal would make of the documents as it
was**, in every interleaving and whatever becomes of their requests. -/
theorem removed_runCalls (h : removal.Removes) (hp : removal.path.dirname ≠ removal.path)
    (hcalls : ∀ i, (calls i).Concerns removal) (sched : List (ι × Choice)) :
    (runCalls calls s sched).store.docs.removed removal.path removal.first
      = s.docs.removed removal.path removal.first := by
  let left := s.docs.removed removal.path removal.first
  have hstart : (Pool.start (fun i => ((calls i).code : Op Text _)) s).Keeps
      (harmless removal left) (fun _ _ => True)
      (fun s' => s'.docs.removed removal.path removal.first = left) :=
    ⟨rfl, fun i => call_harmless h hp (hcalls i)⟩
  exact (Pool.kept_run (A := fun _ => True)
    (fun c q s' _ hs hq => serve_harmless h hp hs hq) (fun _ _ => trivial) hstart).store

/-- **A removal undoes whatever has gone wrong at its path.** Let any number
of clients make calls at the path, and be interleaved, fail and be cut off as
it comes: a removal that is seen through then leaves the documents that it
would have left before them. -/
theorem removal_undoes_calls (h : removal.Removes) (hp : removal.path.dirname ≠ removal.path)
    (hcalls : ∀ i, (calls i).Concerns removal) (sched : List (ι × Choice))
    {env env' : ℕ → Choice} (henv : ∀ n, (env n).FaultFree) (henv' : ∀ n, (env' n).FaultFree) :
    (removal.code.run serve env (runCalls calls s sched).store).2.docs
      = (removal.code.run serve env' s).2.docs := by
  rw [docs_run_removal h henv, docs_run_removal h henv', removed_runCalls h hp hcalls sched]

/-- One client is making a file while another removes it: the file is listed
and there is none. -/
theorem removal_undoes_calls_listed :
    let f : CString := ['/', 'f']
    let calls : Bool → Call Unit := fun i =>
      .fuse (.fs (.tree (if i then .create f sIfreg else .unlink f)))
    let sched : List (Bool × Choice) :=
      [true, true, true, false, false, false, false, true].map (·, .good ⟨0, 0⟩)
    let env : ℕ → Choice := fun _ => .good ⟨0, 0⟩
    let s : Store (Option Json) := rootStore env
    let x := runCalls calls s sched
    (x.store.stats.val f = none
        ∧ (x.store.dentries.val ['/']).bind childItems = some [Json.string ['f']])
      ∧ ((TreeOp.unlink f).code.run serve env x.store).2.docs
        = ((TreeOp.unlink f).code.run serve env s).2.docs := by
  intro f calls sched env s x
  refine ⟨⟨by decide, rfl⟩, removal_undoes_calls (by trivial) (by decide) (fun i => .inr ?_) sched
    (fun _ => Choice.faultFree_good _) (fun _ => Choice.faultFree_good _)⟩
  cases i <;> decide

end Clean

/-! ## Sessions with trouble in them -/

/-- **What was at a path is gone**, if anything was. -/
def FileSystem.Cleared (p : CString) (fs fs' : FileSystem) : Prop :=
  fs.node p = none ∧ fs' = fs ∨ ∃ hp : fs.Removable p, fs' = fs.drop p hp

/-- **One stretch of a session.** -/
inductive Round (ι β : Type) where
  /-- An operation, with nothing failing. -/
  | call (op : FuseOp β) (env : ℕ → Choice)
  /-- Calls of many clients at a path, and a removal there that is seen
  through. -/
  | trouble (removal : TreeOp) (calls : ι → Call β) (sched : List (ι × Choice)) (env : ℕ → Choice)

namespace Round

variable [DecidableEq ι]

/-- What becomes of the bucket. -/
def step : Round ι β → Store Text → Store Text
  | call op env, s => FuseOp.step (op, env) s
  | trouble removal calls sched env, s =>
    (removal.code.run serve env (runCalls calls s sched).store).2

/-- What is handed back by an operation. -/
def output : Round ι β → Store Text → Option (Answer β) × List Timespec
  | call op env, s => FuseOp.output (op, env) s
  | trouble _ _ _ _, _ => (none, [])

omit [DecidableEq ι] in
/-- What is to become of the file system. -/
def Specified : Round ι β → Option (Answer β) × List Timespec → FileSystem → FileSystem → Prop
  | call op env, out, fs, fs' => FuseOp.Specified (op, env) out fs fs'
  | trouble removal _ _ _, _, fs, fs' => fs.Cleared removal.path fs'

/-- Operations are legal ones. Trouble is at a path in the tree where nothing
stands, or what the removal is for: a file to unlink, or an empty directory. -/
def Legal (conn : FuseConnInfo) : Round ι β → Store Text → Prop
  | call op env, s => (∀ n, (env n).FaultFree) ∧ ∀ fs, s.Holds fs → fs.Legal (cbfuseInit conn) op
  | trouble removal calls _ env, s =>
    removal.Removes ∧ removal.path.Normalised ∧ removal.path ≠ rootDirString
      ∧ (∀ i, (calls i).Concerns removal) ∧ (∀ n, (env n).FaultFree)
      ∧ ∀ fs, s.Holds fs → fs.node removal.path = none
        ∨ fs.Legal conn (.fs (.tree removal) : FuseOp β)

end Round

end Cbfuse
