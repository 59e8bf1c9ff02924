import Cbfuse.Main
import Cbfuse.Refinement

/-!
# One file system, many mounts

A file system outlives the processes that serve it. One process makes the root,
mounts, serves what the kernel asks for, and ends; the next one finds the bucket
as it was left, mounts it again and goes on. To whoever uses it there was one
file system all along.

Seen from the bucket this is a log: all operations of all mounts, in the order
they were served, with what was handed back. Whatever processes there have been,
and wherever each of them failed before it mounted, the log is a run of one
file system from the moment it was made, and the bucket holds what has become of
it (`log_of_processes`). That takes `main` to find out what there is before it
mounts, and to mount on one thread.
-/

namespace Cbfuse

open CString (rootDirString)

variable {Text β : Type} [CJson Text]

/-! ## Mounting -/

/-- What becomes of one request of a process that can mount. -/
structure Kernel (Text β : Type) extends Surroundings where
  /-- The connection before it is set up. -/
  conn : FuseConnInfo
  /-- What is asked for while it is mounted. -/
  session : List (FuseOp β × (ℕ → Choice))
  /-- What becomes of the bucket on more than one thread. -/
  unordered : Store Text → Store Text

/-- **A bucket with its past**: everything that was ever asked of the mounted
file system, and what was handed back. -/
structure Bucket (Text β : Type) where
  /-- The documents. -/
  store : Store Text
  /-- The operations with their outputs, oldest first. -/
  log : List ((FuseOp β × (ℕ → Choice)) × (Option (Answer β) × List Timespec))

/-- The bucket after one operation at a time. -/
def Bucket.serve (w : Bucket Text β) (session : List (FuseOp β × (ℕ → Choice))) :
    Bucket Text β where
  store := Machine.final FuseOp.step session w.store
  log := w.log ++ session.zip (Machine.outputs FuseOp.step FuseOp.output session w.store)

/-- The reply to a request of a process, and the bucket it leaves: that of
`serveProcess`, and `fuse_main` serves a session unless it is there to print the
version. -/
def serveMounting (c : Kernel Text β) :
    (q : MainReq Text) → Bucket Text β → q.Reply × Bucket Text β
  | .fuseMain argv, w =>
    (c.fresult,
      if version ∈ argv then w
      else if singleThreaded ∈ argv then w.serve c.session
      else { w with store := c.unordered w.store })
  | q, w =>
    let r := serveProcess c.toSurroundings q w.store
    (r.1, { w with store := r.2 })

/-- **Fair surroundings**: no request on the bucket fails, memory for an
argument is there, and what the kernel asks for is legal then. Everything else
may fail. -/
def Kernel.Fair (c : Kernel Text β) : MainReq Text → Bucket Text β → Prop
  | .document _, _ => c.choice.FaultFree
  | .fuseOptAddArg _, _ => c.addArg = 0
  | .fuseMain _, w =>
    Machine.Meets FuseOp.step (fun x s => (∀ n, (x.2 n).FaultFree)
      ∧ ∀ fs, s.Holds fs → fs.Legal (cbfuseInit c.conn) x.1) c.session w.store
  | _, _ => True

/-- A process, with its arguments and its surroundings. -/
structure Process (Text β : Type) where
  /-- The arguments. -/
  argv : List CString
  /-- The context before anything is mounted. -/
  fc : FuseContext
  /-- What becomes of its requests, one after the other. -/
  env : ℕ → Kernel Text β

/-- A process from its start to its end. -/
def Process.step (x : Process Text β) (w : Bucket Text β) : Bucket Text β :=
  ((main x.argv x.fc).run serveMounting x.env w).2

/-- All its requests meet fair surroundings. -/
def Process.Fair (x : Process Text β) (w : Bucket Text β) : Prop :=
  (main x.argv x.fc).Meets serveMounting Kernel.Fair x.env w

/-- **The bucket holds a file system that was made at `ts`**, and the log is its
run from then on. -/
def Bucket.Holds (w : Bucket Text β) (ts : Timespec) (fs : FileSystem) : Prop :=
  Machine.Allows FuseOp.Specified (w.log.map Prod.fst) (w.log.map Prod.snd)
      (.mounted (rootStat (sIfdir ||| 0o755) ts)) fs
    ∧ w.store.Holds fs

/-- The bucket holds one file system, or nothing yet. -/
def Bucket.Sound (w : Bucket Text β) : Prop :=
  (w.log = [] ∧ w.store = .empty) ∨ ∃ ts fs, w.Holds ts fs

/-! ## The root check -/

section RootCheck

variable {s : Store Text} {fc : FuseContext}

/-- What the root check makes of the stat it finds. -/
theorem rootCheck_getStat :
    (rootCheck fc : Op Text Bool) = getStat rootDirString >>= fun r =>
      r.casesOn (fun e => if e = -enoent then installRoot else .ret false)
        (fun r => .ret (sIsdir r.1.stMode)) := by
  rw [rootCheck_eq, getStat_eq, Prog.call_bind]
  refine congrArg (Prog.call _) ?_
  funext resp
  cases statReply resp with
  | none => rfl
  | some r => cases r <;> rfl

/-- In an empty bucket the root check makes a root. -/
theorem wp_rootCheck_empty :
    (rootCheck fc : Op Text Bool).wp serve Choice.FaultFree (fun _ => True)
      (fun _ s' => ∃ ts, s'.Holds (.mounted (rootStat (sIfdir ||| 0o755) ts))) .empty := by
  rw [rootCheck_getStat, Prog.wp_bind]
  refine wp_getStat trivial ?_
  show Prog.wp serve _ _ (if -enoent = -enoent then installRoot else .ret false : Op Text Bool) _ _
  rw [if_pos rfl, ← installRoot_eq, Prog.wp_bind]
  unfold insertRoot
  rw [Prog.wp_bind]
  refine wp_insertStat trivial (fun _ ts => ⟨trivial, ?_⟩) (fun h => absurd rfl h)
  rw [if_neg (by decide)]
  exact wp_addNewDentry trivial (fun _ => ⟨trivial, ts, holds_root ts⟩) (fun h => absurd rfl h)

/-- The root check leaves a root that is there alone. -/
theorem wp_rootCheck_holds {fs : FileSystem} (h : s.Holds fs) :
    (rootCheck fc : Op Text Bool).wp serve Choice.FaultFree (fun _ => True)
      (fun _ s' => s' = s) s := by
  obtain ⟨attr, names, hroot⟩ := fs.root
  have hstat := h.statOf rootDirString
  rw [hroot] at hstat
  obtain ⟨cas, hstat⟩ := hstat
  rw [rootCheck_getStat, Prog.wp_bind]
  refine wp_getStat trivial ?_
  rw [hstat]
  rfl

end RootCheck

/-- A request on the bucket leaves the log alone. -/
theorem wlp_document {α : Type} {prog : Op Text α} {post : α → Store Text → Prop}
    {w : Bucket Text β}
    (h : prog.wp serve Choice.FaultFree (fun _ => True) post w.store) :
    (prog.via .document (fun _ r => r) : MainProg Text α).wlp serveMounting Kernel.Fair
      (fun r w' => w'.log = w.log ∧ ∃ a, r = some a ∧ post a w'.store) w := by
  induction prog generalizing w with
  | ret a => exact ⟨rfl, a, rfl, h⟩
  | call q k ih => exact fun c hc => ih _ (w := { w with store := _ }) (h c.choice hc).2
  | crash => exact h.elim

/-! ## Whole processes -/

/-- The request does nothing to the bucket. -/
def MainReq.Quiet : MainReq Text → Prop
  | .document _ => False
  | .fuseMain _ => False
  | _ => True

omit [CJson Text] in
theorem serveProcess_quiet {q : MainReq Text} (h : q.Quiet) (c : Surroundings) (s : Store Text) :
    (serveProcess c q s).2 = s := by
  cases q with
  | document q => exact h.elim
  | _ => rfl

theorem serveMounting_quiet (c : Kernel Text β) (q : MainReq Text) (w : Bucket Text β)
    (h : q.Quiet) : (serveMounting c q w).2 = w := by
  have hstore := serveProcess_quiet h c.toSurroundings w.store
  cases q with
  | document q => exact h.elim
  | fuseMain argv => exact h.elim
  | _ => rfl

omit [CJson Text] in
theorem mainDone_quiet (handle : Bool) (fresult : ℤ) :
    (mainDone handle fresult : MainProg Text Ending).Only MainReq.Quiet := by
  cases handle with
  | true => exact ⟨trivial, fun _ => ⟨trivial, fun _ => trivial⟩⟩
  | false => exact ⟨trivial, fun _ => trivial⟩

omit [CJson Text] in
theorem unlessFails_quiet {call : LcbCall} {rest : MainProg Text Bool}
    (h : rest.Only MainReq.Quiet) :
    (unlessFails call rest).Only MainReq.Quiet := by
  refine ⟨trivial, fun rc => ?_⟩
  show Prog.Only _ (if rc ≠ none then pure false else rest)
  split
  · trivial
  · exact h

omit [CJson Text] in
theorem openBucket_quiet : (openBucket : MainProg Text Bool).Only MainReq.Quiet :=
  unlessFails_quiet <| unlessFails_quiet <| unlessFails_quiet
    ⟨trivial, fun _ => ⟨trivial, fun _ => ⟨trivial, fun _ => ⟨trivial, fun _ =>
      unlessFails_quiet <| unlessFails_quiet trivial⟩⟩⟩⟩

omit [CJson Text] in
theorem createInstance_quiet (connstr : CString) (config : CbfuseConfig) :
    (createInstance connstr config : MainProg Text (Bool × Bool)).Only MainReq.Quiet := by
  have hgive : (giveCredentials config : MainProg Text Unit).Only MainReq.Quiet := by
    unfold giveCredentials
    split
    · trivial
    · exact ⟨trivial, fun _ => trivial⟩
    · trivial
  refine ⟨trivial, fun _ => ⟨trivial, fun _ => ?_⟩⟩
  show Prog.Only _ (giveCredentials config >>= _)
  exact Prog.only_bind hgive (fun _ => ⟨trivial, fun _ => ⟨trivial, fun _ => trivial⟩⟩)

/-- A quiet request and what comes after it. -/
theorem wlp_ask {α : Type} {q : MainReq Text} (hq : q.Quiet) {f : q.Reply → MainProg Text α}
    {post : Option α → Bucket Text β → Prop} {w : Bucket Text β}
    (h : ∀ r, (f r).wlp serveMounting Kernel.Fair post w) :
    (ask q >>= f).wlp serveMounting Kernel.Fair post w := by
  intro c _
  rw [serveMounting_quiet c q w hq]
  exact h _

/-- Nothing is mounted to print the version. -/
theorem wlp_optProcs {keys : List (ℤ × List CString)}
    {post : Option (Option ℤ) → Bucket Text β → Prop} {w : Bucket Text β} (hpost : ∀ r, post r w) :
    (cbfuseOptProcs keys : MainProg Text (Option ℤ)).wlp serveMounting Kernel.Fair post w := by
  induction keys with
  | nil => exact hpost _
  | cons key keys ih =>
    obtain ⟨key, outargs⟩ := key
    unfold cbfuseOptProcs cbfuseOptProc
    by_cases hhelp : key = keyHelp
    · rw [if_pos hhelp]
      exact hpost _
    · rw [if_neg hhelp]
      by_cases hversion : key = keyVersion
      · rw [if_pos hversion]
        intro c (hc : c.addArg = 0) c' _
        have hargv : version ∈ if c.addArg = 0 then outargs ++ [version] else outargs := by
          rw [if_pos hc]
          simp
        have hsame : (serveMounting c' (.fuseMain
            (if c.addArg = 0 then outargs ++ [version] else outargs)) w).2 = w := if_pos hargv
        show post _ (serveMounting c' (.fuseMain
          (if c.addArg = 0 then outargs ++ [version] else outargs)) w).2
        rw [hsame]
        exact hpost _
      · rw [if_neg hversion]
        exact ih

/-- **A session goes on where the last one ended.** -/
theorem Bucket.Holds.serve {w : Bucket Text β} {ts : Timespec} {fs : FileSystem}
    (h : w.Holds ts fs) {c : Kernel Text β} {argv : List CString}
    (hfair : c.Fair (.fuseMain argv) w) : (w.serve c.session).Sound := by
  obtain ⟨fs', hrun, hholds'⟩ := FuseOp.session_refines h.2 hfair
  refine .inr ⟨ts, fs', ?_, hholds'⟩
  have hlen : c.session.length
      = (Machine.outputs FuseOp.step FuseOp.output c.session w.store).length := by simp
  have hfst : (w.serve c.session).log.map Prod.fst = w.log.map Prod.fst ++ c.session := by
    show (w.log ++ c.session.zip _).map Prod.fst = _
    rw [List.map_append, List.map_fst_zip hlen.le]
  have hsnd : (w.serve c.session).log.map Prod.snd
      = w.log.map Prod.snd ++ Machine.outputs FuseOp.step FuseOp.output c.session w.store := by
    show (w.log ++ c.session.zip _).map Prod.snd = _
    rw [List.map_append, List.map_snd_zip hlen.ge]
  rw [hfst, hsnd]
  exact h.1.append hrun

section Processes

variable {w : Bucket Text β}

/-- What does nothing to the bucket leaves it sound. -/
theorem wlp_sound {α : Type} {prog : MainProg Text α} (h : w.Sound)
    (hquiet : prog.Only MainReq.Quiet) :
    prog.wlp serveMounting Kernel.Fair (fun _ w' => w'.Sound) w :=
  Prog.wlp_of_only hquiet serveMounting_quiet (fun _ => h)

/-- After a root check there is a file system to go on with. -/
theorem wlp_rootCheck (fc : FuseContext) (h : w.Sound) :
    ((rootCheck fc).via .document (fun _ r => r) : MainProg Text Bool).wlp serveMounting Kernel.Fair
      (fun r w' => ∃ b ts fs, r = some b ∧ w'.Holds ts fs) w := by
  obtain ⟨hlog, hstore⟩ | ⟨ts, fs, hholds⟩ := h
  · have hempty := @wp_rootCheck_empty Text _ fc
    rw [← hstore] at hempty
    refine Prog.wlp_mono (fun r w' hw' => ?_) (wlp_document hempty)
    obtain ⟨hlog', b, rfl, ts, hts⟩ := hw'
    refine ⟨b, ts, _, rfl, ?_, hts⟩
    rw [hlog', hlog]
    rfl
  · refine Prog.wlp_mono (fun r w' hw' => ?_) (wlp_document (wp_rootCheck_holds hholds.2))
    obtain ⟨hlog', b, rfl, hsame⟩ := hw'
    refine ⟨b, ts, fs, rfl, ?_⟩
    unfold Bucket.Holds
    rw [hlog', hsame]
    exact hholds

theorem wlp_connectAndMount {fargs : List CString} {connstr : CString} {config : CbfuseConfig}
    {fc : FuseContext} (h : w.Sound) (hfargs : singleThreaded ∈ fargs) :
    (connectAndMount fargs connstr config fc : MainProg Text Ending).wlp serveMounting Kernel.Fair
      (fun _ w' => w'.Sound) w := by
  unfold connectAndMount
  refine Prog.wlp_bind
    (Prog.wlp_of_only (createInstance_quiet connstr config) serveMounting_quiet (fun r => ?_))
  cases r with
  | none => exact h
  | some reply =>
    show Prog.wlp serveMounting Kernel.Fair (if _ then _ else _) _ w
    by_cases hcreated : reply.2 = true
    · rw [if_neg (not_not.mpr hcreated)]
      refine Prog.wlp_bind
        (Prog.wlp_of_only openBucket_quiet serveMounting_quiet (fun r => ?_))
      cases r with
      | none => exact h
      | some opened =>
        cases opened with
        | false => exact wlp_sound h (mainDone_quiet _ _)
        | true =>
          refine Prog.wlp_bind (Prog.wlp_mono (fun r w' hw' => ?_) (wlp_rootCheck fc h))
          obtain ⟨b, ts, fs, rfl, hholds⟩ := hw'
          cases b with
          | false => exact wlp_sound (.inr ⟨ts, fs, hholds⟩) (mainDone_quiet _ _)
          | true =>
            intro c hc
            refine wlp_sound ?_ (mainDone_quiet _ _)
            show Bucket.Sound (if version ∈ fargs then w' else _)
            split
            · exact .inr ⟨ts, fs, hholds⟩
            · exact hholds.serve hc
    · rw [if_pos hcreated]
      exact wlp_sound h (mainDone_quiet _ _)

/-- **A process leaves a sound bucket sound**, however far it gets. -/
theorem wlp_main (argv : List CString) (fc : FuseContext) (h : w.Sound) :
    (main argv fc : MainProg Text Ending).wlp serveMounting Kernel.Fair
      (fun _ w' => w'.Sound) w := by
  unfold main
  refine wlp_ask (by trivial) (fun uid => ?_)
  by_cases huid : uid = 0
  · rw [if_pos huid]
    exact h
  rw [if_neg huid]
  refine wlp_ask (by trivial) (fun euid => ?_)
  by_cases heuid : euid = 0
  · rw [if_pos heuid]
    exact h
  rw [if_neg heuid]
  refine wlp_ask (by trivial) (fun parsed => Prog.wlp_bind (wlp_optProcs (fun r => ?_)))
  cases r with
  | none => exact h
  | some r =>
    cases r with
    | some status => exact h
    | none =>
      show Prog.wlp serveMounting Kernel.Fair (if _ then _ else _) _ w
      by_cases hparsed : parsed.fresult ≠ 0
      · rw [if_pos hparsed]
        exact wlp_sound h (mainDone_quiet _ _)
      rw [if_neg hparsed]
      refine wlp_ask (by trivial) (fun rc => ?_)
      by_cases hrc : rc ≠ 0
      · rw [if_pos hrc]
        exact wlp_sound h (mainDone_quiet _ _)
      rw [if_neg hrc]
      refine wlp_ask (by trivial) (fun rc' => ?_)
      by_cases hrc' : rc' ≠ 0
      · rw [if_pos hrc']
        exact wlp_sound h (mainDone_quiet _ _)
      rw [if_neg hrc']
      cases parsed.config.cbConnect with
      | none => exact h
      | some connstr =>
        by_cases hlen : connstr.length < 5
        · simp only [if_pos hlen]
          exact h
        · simp only [if_neg hlen]
          exact wlp_connectAndMount h (by simp)

/-- **One file system, whatever becomes of the processes.** Take any processes,
one after the other on one bucket that was empty at first. Each may fail to
get hold of it, or find its arguments wanting, or die of a credential that is
given without the other; the requests on the bucket it does make do not fail,
nobody kills it between them, and while it has the bucket mounted it is asked
for legal operations only. Then all that was asked for while the bucket was
mounted, by whichever process, is one run of one file system that began empty,
operation by operation with the same handed back, and the bucket holds what has
become of it. -/
theorem log_of_processes (xs : List (Process Text β))
    (hxs : Machine.Meets Process.step Process.Fair xs ⟨.empty, []⟩) :
    (Machine.final Process.step xs (⟨.empty, []⟩ : Bucket Text β)).Sound := by
  refine (Machine.along_of_meets Process.step (fun x w hw hx => ?_) (.inl ⟨rfl, rfl⟩) hxs).final
  exact Prog.wlp_run (wlp_main x.argv x.fc hw) hx

end Processes

/-- One process makes a directory. The next one has a wrong password; the third
one gives no user, and dies. The fourth lists what is there. -/
theorem log_of_processes_four :
    let root : CString := ['/']
    let c : Kernel (Option Json) (List CString) :=
      { Surroundings.good ⟨7, 0⟩ with
        conn := ⟨0, 0, 0, true⟩
        session := []
        unordered := fun _ => .empty }
    let made := { c with
      session := [(.fs (.tree (.mkdir ['/', 'd'] 0o755)), fun _ => .good ⟨8, 0⟩)] }
    let refused := { c with rc := some (.other 206) }
    let lopsided := { c with parsed :=
      { c.parsed with config := ⟨some ['l', 'o', 'c', 'a', 'l'], none, some ['s']⟩ } }
    let listed := { c with
      session := [(.readdir root FuseOp.collect 0 [], fun _ => .good ⟨9, 0⟩)] }
    let xs : List (Process (Option Json) (List CString)) :=
      [made, refused, lopsided, listed].map (fun c => ⟨[], ⟨1, 1⟩, fun _ => c⟩)
    let w := Machine.final Process.step xs ⟨.empty, []⟩
    w.log.map (fun e => e.2.1.map Answer.told) = [some 0, some 0] ∧ w.Sound := by
  intro root c made refused lopsided listed xs w
  have hfair : ∀ c' ∈ [made, refused, lopsided, listed], ∀ q w, c'.Fair q w := by
    have hff : ∀ ts, (Choice.good ts).FaultFree := Choice.faultFree_good
    have hd : CString.Normalised ['/', 'd'] := .entry (n := ['d']) .top (by decide)
    intro c' hc' q w
    simp only [List.mem_cons, List.not_mem_nil, or_false] at hc'
    cases q with
    | document q => obtain rfl | rfl | rfl | rfl := hc' <;> exact hff _
    | fuseOptAddArg arg => obtain rfl | rfl | rfl | rfl := hc' <;> rfl
    | fuseMain argv =>
      obtain rfl | rfl | rfl | rfl := hc'
      · exact ⟨⟨fun _ => hff _, fun fs _ => ⟨hd, by decide, fs.root⟩⟩, trivial⟩
      · trivial
      · trivial
      · exact ⟨⟨fun _ => hff _, fun _ _ => trivial⟩, trivial⟩
    | _ => trivial
  have hprocess : ∀ c' ∈ [made, refused, lopsided, listed], ∀ w,
      Process.Fair ⟨[], ⟨1, 1⟩, fun _ => c'⟩ w :=
    fun c' hc' w => Prog.meets_of_forall (fun _ => hfair c' hc') w
  exact ⟨by decide, log_of_processes xs ⟨hprocess made (by simp) _, hprocess refused (by simp) _,
    hprocess lopsided (by simp) _, hprocess listed (by simp) _, trivial⟩⟩

end Cbfuse
