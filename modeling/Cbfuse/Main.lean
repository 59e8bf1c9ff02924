import Cbfuse.Bootstrap
import Cbfuse.FuseOps

/-!
# The life of a process (`main`)

Before a file system is mounted a process has to get hold of the bucket, and
what it holds it has to give back. `main` does so in a long row of calls to the
libraries it is linked with, every one of which may fail, and each failure goes
to the same few lines at the end.

The libraries have their rules: a handle is created once, waited for after
every step that only begins something, given its callbacks before it is used
for documents, and destroyed last. FUSE has to be told to work on one operation
at a time, since the operations share the handle. And nothing should be mounted
before there is a root. These rules are the protocol `lifecycle`, and `main`
keeps to it whatever the libraries reply (`processes_conform`).

What a process holds when it dies it cannot give back, and it does die where one
of the two credentials is given and the other is not (`giveCredentials`).
-/

namespace Cbfuse

open CString (rootDirString)

variable {Text : Type}

/-! ## What a process asks for -/

/-- The callbacks `sync_get_init`, `sync_store_init` and `sync_remove_init`
install. -/
inductive CallbackType where
  /-- `LCB_CALLBACK_GET` -/
  | get
  /-- `LCB_CALLBACK_STORE` -/
  | store
  /-- `LCB_CALLBACK_REMOVE` -/
  | remove
  deriving DecidableEq

/-- `struct cbfuse_config`. A string that is not given is NULL. -/
structure CbfuseConfig where
  /-- The connection string. -/
  cbConnect : Option CString
  /-- The user. -/
  cbUsername : Option CString
  /-- The password. -/
  cbPassword : Option CString

/-- What `fuse_opt_parse` does with the arguments. -/
structure Parsed where
  /-- The keys it calls `cbfuse_opt_proc` with, each with the arguments that
  were kept till then. -/
  keys : List (ℤ × List CString)
  /-- Its result. -/
  fresult : ℤ
  /-- The arguments it leaves. -/
  fargs : List CString
  /-- The configuration it fills in. -/
  config : CbfuseConfig

/-- `KEY_HELP` -/
def keyHelp : ℤ := 0

/-- `KEY_VERSION` -/
def keyVersion : ℤ := 1

/-- The option for a single thread. -/
def singleThreaded : CString := ['-', 's']

/-- The option to stay in the foreground. -/
def foreground : CString := ['-', 'f']

/-- The option for the version. -/
def version : CString := ['-', '-', 'v', 'e', 'r', 's', 'i', 'o', 'n']

/-- The calls on a handle that return a status and nothing else. -/
inductive LcbCall where
  /-- `lcb_connect` -/
  | connect
  /-- `lcb_wait`, which ends when what was begun has ended. -/
  | wait
  /-- `lcb_get_bootstrap_status` -/
  | getBootstrapStatus
  /-- `lcb_open` -/
  | openBucket (bucket : CString)

/-- **What a process asks of its surroundings**: the calls of `main`, and the
requests it makes on the bucket before it mounts. -/
inductive MainReq (Text : Type) where
  | getuid
  | geteuid
  | fuseOptParse (argv : List CString)
  | fuseOptAddArg (arg : CString)
  | fuseOptFreeArgs
  | lcbCreateoptsCreate
  | lcbCreateoptsConnstr (connstr : CString)
  | lcbCreateoptsCredentials (username password : CString)
  | lcbCreateoptsDestroy
  | lcbCreate
  | lcb (call : LcbCall)
  | lcbSetOpenCallback
  | lcbInstallCallback (cbtype : CallbackType)
  | lcbDestroy
  /-- A request on the bucket. -/
  | document (q : Req Text)
  /-- `fuse_main`, which returns when the file system is unmounted. -/
  | fuseMain (argv : List CString)

/-- What is replied. -/
@[reducible] def MainReq.Reply : MainReq Text → Type
  | getuid => ℕ
  | geteuid => ℕ
  | fuseOptParse _ => Parsed
  | fuseOptAddArg _ => ℤ
  | lcbCreate => Kv.Status × Bool
  | lcb _ => Kv.Status
  | document q => q.Reply
  | fuseMain _ => ℤ
  | _ => Unit

/-- A program of a process. -/
abbrev MainProg (Text α : Type) := Prog (MainReq Text) MainReq.Reply α

/-- One request, and its reply. -/
def ask (q : MainReq Text) : MainProg Text q.Reply := .call q .ret

/-- How a process ends, if it does not die. -/
inductive Ending where
  /-- `main` returns. -/
  | returned (status : ℤ)
  /-- `exit` is called. -/
  | exited (status : ℤ)
  deriving DecidableEq

/-! ## `main` -/

/-- `cbfuse_opt_proc`: the status the process exits with, or nothing where it
goes on. -/
def cbfuseOptProc (key : ℤ) (outargs : List CString) : MainProg Text (Option ℤ) := do
  if key = keyHelp then
    return some 1
  else if key = keyVersion then
    let rc ← ask (.fuseOptAddArg version)
    let _ ← ask (.fuseMain (if rc = 0 then outargs ++ [version] else outargs))
    return some 0
  else
    return none

/-- The calls of `cbfuse_opt_proc` in the course of `fuse_opt_parse`. -/
def cbfuseOptProcs : List (ℤ × List CString) → MainProg Text (Option ℤ)
  | [] => return none
  | (key, outargs) :: keys => do
    match ← cbfuseOptProc key outargs with
    | some status => return some status
    | none => cbfuseOptProcs keys

/-- The end of `main`: everything is given back. -/
def mainDone (handle : Bool) (fresult : ℤ) : MainProg Text Ending := do
  let _ ← ask .fuseOptFreeArgs
  if handle then
    let _ ← ask .lcbDestroy
    return .returned fresult
  else
    return .returned fresult

/-- The bucket that is opened. -/
def bucket : CString := ['c', 'b', 'f', 'u', 's', 'e']

/-- A call on the handle that has to succeed for the rest to be tried. -/
def unlessFails (call : LcbCall) (rest : MainProg Text Bool) : MainProg Text Bool := do
  if (← ask (.lcb call)) ≠ none then
    return false
  else
    rest

/-- The part of `main` that opens the bucket on a handle: whether it did. -/
def openBucket : MainProg Text Bool :=
  unlessFails .connect <| unlessFails .wait <| unlessFails .getBootstrapStatus <| do
    let _ ← ask .lcbSetOpenCallback
    let _ ← ask (.lcbInstallCallback .get)
    let _ ← ask (.lcbInstallCallback .store)
    let _ ← ask (.lcbInstallCallback .remove)
    unlessFails (.openBucket bucket) <| unlessFails .wait <| return true

/-- The part of `main` that passes on the credentials. The length of one that is
not given is not to be had. -/
def giveCredentials (config : CbfuseConfig) : MainProg Text Unit :=
  match config.cbUsername, config.cbPassword with
  | none, none => return ()
  | some username, some password => ask (.lcbCreateoptsCredentials username password)
  | _, _ => .crash

/-- The part of `main` that creates the handle: whether there is one, and
whether that went well. -/
def createInstance (connstr : CString) (config : CbfuseConfig) : MainProg Text (Bool × Bool) := do
  let _ ← ask .lcbCreateoptsCreate
  let _ ← ask (.lcbCreateoptsConnstr connstr)
  let _ ← giveCredentials config
  let reply ← ask .lcbCreate
  let _ ← ask .lcbCreateoptsDestroy
  return (reply.2, reply.1 = none && reply.2)

/-- `main` from where it connects to Couchbase to the end. -/
def connectAndMount [CJson Text] (fargs : List CString) (connstr : CString)
    (config : CbfuseConfig) (fc : FuseContext) : MainProg Text Ending := do
  let reply ← createInstance connstr config
  if ¬ reply.2 then
    mainDone reply.1 1
  else if ¬ (← openBucket) then
    mainDone true 1
  else if ¬ (← (rootCheck fc).via .document (fun _ r => r)) then
    mainDone true 1
  else
  let fresult ← ask (.fuseMain fargs)
  mainDone true fresult

/-- **The whole of `main`**, from its arguments and the context `cbfuse_getattr` is called in
before anything is mounted. -/
def main [CJson Text] (argv : List CString) (fc : FuseContext) : MainProg Text Ending := do
  if (← ask .getuid) = 0 then
    return .returned 1
  if (← ask .geteuid) = 0 then
    return .returned 1
  let parsed ← ask (.fuseOptParse argv)
  match ← cbfuseOptProcs parsed.keys with
  | some status => return .exited status
  | none =>
  if parsed.fresult ≠ 0 then
    mainDone false parsed.fresult
  else
  let fresult ← ask (.fuseOptAddArg singleThreaded)
  if fresult ≠ 0 then
    mainDone false fresult
  else
  let fresult ← ask (.fuseOptAddArg foreground)
  if fresult ≠ 0 then
    mainDone false fresult
  else
  match parsed.config.cbConnect with
  | none => return .exited 1
  | some connstr =>
  if connstr.length < 5 then
    return .exited 1
  else
  connectAndMount (parsed.fargs ++ [singleThreaded, foreground]) connstr parsed.config fc

/-! ## The rules of the libraries -/

/-- How far a process is with its handle. -/
inductive Handle where
  /-- There is none. -/
  | absent
  /-- It has been created. -/
  | created
  /-- It has begun to connect. -/
  | connecting
  /-- It has finished connecting. -/
  | connected
  /-- It is known to work. -/
  | bootstrapped
  /-- It has begun to open the bucket. -/
  | opening
  /-- It has finished opening the bucket. -/
  | opened
  /-- Something has failed, and there is nothing left to do with it. -/
  | failed
  /-- It is gone. -/
  | destroyed
  deriving DecidableEq

/-- **Where a process stands** with what it holds and what it knows. -/
structure Life where
  /-- It holds arguments of FUSE. -/
  args : Bool
  /-- It was refused the memory for the option of the version. -/
  unversioned : Bool
  /-- It holds options of a handle. -/
  opts : Bool
  /-- Its handle. -/
  handle : Handle
  /-- The callbacks of the handle. -/
  callbacks : List CallbackType
  /-- It has inserted the stat of a root. -/
  half : Bool
  /-- It knows that there is a root. -/
  rooted : Bool
  /-- What `fuse_main` returned. -/
  served : Option ℤ

/-- Where every process stands at first. -/
def Life.fresh : Life := ⟨false, false, false, .absent, [], false, false, none⟩

/-- The process has nothing to do with a cluster yet. -/
def Life.Offline (g : Life) : Prop := g.handle = .absent ∧ g.opts = false

/-- The request fetches or inserts a document of the root, or is for the time. -/
def Req.MakesRoot : Req Text → Prop
  | .stats (.get k) => k = rootDirString
  | .stats (.store op k _ _) => op = .insert ∧ k = rootDirString
  | .dentries (.store op k _ _) => op = .insert ∧ k = rootDirString
  | .clockGettime => True
  | _ => False

/-- **What may be asked for.** Of the documents only those of the root may be
fetched or inserted before anything is mounted. FUSE may be told to print its
version without any of this; and whether the option that tells it so was added
is not tested, so it is called without that option where there was no memory for
it, with the arguments as they are and no handle. -/
def Life.Allows (g : Life) : MainReq Text → Prop
  | .getuid => g.Offline
  | .geteuid => g.Offline
  | .fuseOptParse _ => g.Offline ∧ g.args = false
  | .fuseOptAddArg _ => g.Offline ∧ g.args = true
  | .fuseOptFreeArgs => g.args = true
  | .lcbCreateoptsCreate => g.Offline
  | .lcbCreateoptsConnstr _ => g.opts = true
  | .lcbCreateoptsCredentials _ _ => g.opts = true
  | .lcbCreateoptsDestroy => g.opts = true
  | .lcbCreate => g.handle = .absent ∧ g.opts = true
  | .lcb .connect => g.handle = .created
  | .lcb .wait => g.handle = .connecting ∨ g.handle = .opening
  | .lcb .getBootstrapStatus => g.handle = .connected
  | .lcb (.openBucket _) => g.handle = .bootstrapped ∧ ∀ cbtype, cbtype ∈ g.callbacks
  | .lcbSetOpenCallback => g.handle = .bootstrapped
  | .lcbInstallCallback _ => g.handle = .bootstrapped
  | .document q => g.handle = .opened ∧ g.served = none ∧ q.MakesRoot
  | .fuseMain argv =>
    g.served = none
      ∧ (g.handle = .opened ∧ g.rooted = true ∧ singleThreaded ∈ argv ∧ foreground ∈ argv
        ∨ g.Offline ∧ (version ∈ argv ∨ g.unversioned = true))
  | .lcbDestroy =>
    g.handle ≠ .absent ∧ g.handle ≠ .destroyed ∧ g.args = false ∧ g.opts = false

/-- What becomes of a handle when a call on it succeeds. -/
def LcbCall.after : LcbCall → Handle → Handle
  | connect, _ => .connecting
  | wait, handle => if handle = .opening then .opened else .connected
  | getBootstrapStatus, _ => .bootstrapped
  | openBucket _, _ => .opening

/-- A call has returned `rc`, and has led to this handle if that is success. -/
def Life.onto (g : Life) (handle : Handle) (rc : Kv.Status) : Life :=
  { g with handle := if rc = none then handle else .failed }

/-- What a process learns of the root from a request on the bucket. -/
def Life.learn (g : Life) : (q : Req Text) → q.Reply → Life
  | .stats (.get k), resp =>
    match statReply resp with
    | some (.ok (stat, _)) =>
      { g with rooted := g.rooted || k = rootDirString && sIsdir stat.stMode }
    | _ => g
  | .stats (.store .insert k (.packed stat) _), resp =>
    { g with half := g.half
        || k = rootDirString && sIsdir stat.stMode && checkResult (-enoent) resp = 0 }
  | .dentries (.store .insert k _ _), resp =>
    { g with rooted := g.rooted
        || g.half && k = rootDirString && checkResult (-enoent) resp = 0 }
  | _, _ => g

/-- What a reply makes of where the process stands. -/
def Life.next (g : Life) : (q : MainReq Text) → q.Reply → Life
  | .fuseOptParse _, _ => { g with args := true }
  | .fuseOptAddArg arg, rc =>
    { g with unversioned := g.unversioned || arg = version && rc ≠ 0 }
  | .fuseOptFreeArgs, _ => { g with args := false }
  | .lcbCreateoptsCreate, _ => { g with opts := true }
  | .lcbCreateoptsDestroy, _ => { g with opts := false }
  | .lcbCreate, reply => if reply.2 then g.onto .created reply.1 else g
  | .lcb call, rc => g.onto (call.after g.handle) rc
  | .lcbInstallCallback cbtype, _ => { g with callbacks := cbtype :: g.callbacks }
  | .document q, reply => g.learn q reply
  | .fuseMain _, fresult => { g with served := some fresult }
  | .lcbDestroy, _ => { g with handle := .destroyed }
  | _, _ => g

/-- **How a process may end**: by returning, with everything given back and the
result of what it mounted if it mounted anything, and nothing that can be
mistaken for success if it did not; or by leaving everything to the system
while that is all there is. -/
def Life.Ends (g : Life) : Ending → Prop
  | .returned status =>
    g.args = false ∧ g.opts = false ∧ (g.handle = .absent ∨ g.handle = .destroyed)
      ∧ (g.served = some status ∨ g.served = none ∧ status ≠ 0)
  | .exited _ => g.Offline

/-- **The protocol of a process.** -/
def lifecycle : Protocol (MainReq Text) MainReq.Reply Ending Life where
  start := .fresh
  allow := Life.Allows
  next := Life.next
  final := Life.Ends

/-! ## `main` keeps to the rules -/

section Follows

variable {α : Type} {g : Life}

/-- A request and what comes after it. -/
theorem follows_ask {P : Protocol (MainReq Text) MainReq.Reply α Life} {q : MainReq Text}
    {f : q.Reply → MainProg Text α} (hallow : P.allow g q)
    (hnext : ∀ r, P.Follows (P.next g q r) (f r)) : P.Follows g (ask q >>= f) :=
  ⟨hallow, hnext⟩

/-- Arguments are held, a handle may be, and nothing has been mounted: what any
failure finds. -/
structure Life.Holding (g : Life) (handle : Bool) : Prop where
  /-- There are arguments. -/
  args : g.args = true
  /-- There are no options. -/
  opts : g.opts = false
  /-- There is a handle or none, as is said. -/
  handle : if handle then g.handle ≠ .absent ∧ g.handle ≠ .destroyed else g.handle = .absent

/-- Giving everything back is the right end. -/
theorem mainDone_follows {handle : Bool} {fresult : ℤ} (h : g.Holding handle)
    (hserved : g.served = some fresult ∨ g.served = none ∧ fresult ≠ 0) :
    (lifecycle : Protocol (MainReq Text) _ _ _).Follows g (mainDone handle fresult) := by
  have hhandle := h.handle
  refine follows_ask h.args (fun _ => ?_)
  cases handle with
  | true =>
    exact ⟨⟨hhandle.1, hhandle.2, rfl, h.opts⟩, fun _ => ⟨rfl, h.opts, .inr rfl, hserved⟩⟩
  | false => exact ⟨rfl, h.opts, .inl hhandle, hserved⟩

/-- After a failure there is something to give back and an error to return. -/
theorem gaveUp_follows {handle : Bool} {fresult : ℤ} (h : g.Holding handle)
    (hserved : g.served = none) (hfresult : fresult ≠ 0) :
    (lifecycle : Protocol (MainReq Text) _ _ _).Follows g (mainDone handle fresult) :=
  mainDone_follows h (.inr ⟨hserved, hfresult⟩)

/-- The options that end the process do so before there is anything else. -/
theorem optProcs_follows {keys : List (ℤ × List CString)} {f : Option ℤ → MainProg Text Ending}
    (hoff : g.Offline) (hargs : g.args = true) (hserved : g.served = none)
    (hexit : ∀ status g', g'.Offline → lifecycle.Follows g' (f (some status)))
    (hgo : lifecycle.Follows g (f none)) :
    lifecycle.Follows g (cbfuseOptProcs keys >>= f) := by
  induction keys with
  | nil => exact hgo
  | cons key keys ih =>
    obtain ⟨key, outargs⟩ := key
    unfold cbfuseOptProcs cbfuseOptProc
    by_cases hhelp : key = keyHelp
    · rw [if_pos hhelp]
      exact hexit _ _ hoff
    · rw [if_neg hhelp]
      by_cases hversion : key = keyVersion
      · rw [if_pos hversion]
        refine ⟨⟨hoff, hargs⟩, fun rc => ⟨⟨hserved, .inr ⟨hoff, ?_⟩⟩, fun _ => ?_⟩⟩
        · by_cases hrc : rc = 0
          · rw [if_pos hrc]
            exact .inl (by simp)
          · exact .inr (by simp [lifecycle, Life.next, hrc])
        · exact hexit _ _ hoff
      · rw [if_neg hversion]
        exact ih

/-- A call on the handle is made when it may be, and a failure is told. -/
theorem unlessFails_follows {call : LcbCall} {rest : MainProg Text Bool}
    {f : Bool → MainProg Text Ending} (hallow : g.Allows (.lcb call : MainReq Text))
    (hfail : lifecycle.Follows { g with handle := .failed } (f false))
    (hgo : lifecycle.Follows { g with handle := call.after g.handle } (rest >>= f)) :
    lifecycle.Follows g (unlessFails call rest >>= f) := by
  refine ⟨hallow, fun rc => ?_⟩
  show lifecycle.Follows (g.onto (call.after g.handle) rc) _
  unfold Life.onto
  by_cases hrc : rc = none
  · rw [if_pos hrc]
    show lifecycle.Follows _ ((if rc ≠ none then pure false else rest) >>= f)
    rw [if_neg (not_not.mpr hrc)]
    exact hgo
  · rw [if_neg hrc]
    show lifecycle.Follows _ ((if rc ≠ none then pure false else rest) >>= f)
    rw [if_pos hrc]
    exact hfail

/-- The bucket is opened step by step. -/
theorem openBucket_follows {f : Bool → MainProg Text Ending} (hhandle : g.handle = .created)
    (hfail : ∀ g', g'.args = g.args → g'.opts = g.opts → g'.served = g.served →
      g'.handle = .failed → lifecycle.Follows g' (f false))
    (hgo : ∀ g', g'.args = g.args → g'.opts = g.opts → g'.served = g.served →
      g'.handle = .opened → lifecycle.Follows g' (f true)) :
    lifecycle.Follows g (openBucket >>= f) := by
  have hfailed : ∀ callbacks, lifecycle.Follows
      { g with callbacks := callbacks, handle := .failed } (f false) :=
    fun _ => hfail _ rfl rfl rfl rfl
  refine unlessFails_follows hhandle (hfailed g.callbacks) ?_
  refine unlessFails_follows (.inl rfl) (hfailed g.callbacks) ?_
  refine unlessFails_follows rfl (hfailed g.callbacks) ?_
  refine ⟨rfl, fun _ => ⟨rfl, fun _ => ⟨rfl, fun _ => ⟨rfl, fun _ => ?_⟩⟩⟩⟩
  refine unlessFails_follows ⟨rfl, fun cbtype => ?_⟩ (hfailed _) ?_
  · show cbtype ∈ CallbackType.remove :: .store :: .get :: g.callbacks
    cases cbtype <;> simp
  · refine unlessFails_follows (.inr rfl) (hfailed _) ?_
    exact hgo _ rfl rfl rfl rfl

/-- The options of a handle are given back whatever it has come to. -/
theorem createInstance_follows {connstr : CString} {config : CbfuseConfig}
    {f : Bool × Bool → MainProg Text Ending} (hoff : g.Offline)
    (hgo : ∀ g' reply, g'.args = g.args → g'.opts = false → g'.served = g.served →
      (if reply.1 then g'.handle ≠ .absent ∧ g'.handle ≠ .destroyed else g'.handle = .absent) →
      (reply.2 = true → g'.handle = .created ∧ reply.1 = true) → lifecycle.Follows g' (f reply)) :
    lifecycle.Follows g (createInstance connstr config >>= f) := by
  have hcreate : lifecycle.Follows { g with opts := true }
      ((do
        let reply ← ask .lcbCreate
        let _ ← ask .lcbCreateoptsDestroy
        return (reply.2, reply.1 = none && reply.2) : MainProg Text (Bool × Bool)) >>= f) := by
    refine ⟨⟨hoff.1, rfl⟩, fun reply => ⟨?_, fun _ => ?_⟩⟩
    · obtain ⟨rc, handle⟩ := reply
      cases handle <;> rfl
    · obtain ⟨rc, handle⟩ := reply
      cases handle with
      | false => exact hgo _ _ rfl rfl rfl hoff.1 (fun h => by simp at h)
      | true =>
        refine hgo _ _ rfl rfl rfl ?_ (fun h => ?_)
        · show (if rc = none then Handle.created else .failed) ≠ .absent
            ∧ (if rc = none then Handle.created else .failed) ≠ .destroyed
          split <;> exact ⟨by decide, by decide⟩
        · have hrc : rc = none := by simpa using h
          exact ⟨if_pos hrc, rfl⟩
  refine ⟨hoff, fun _ => ⟨rfl, fun _ => ?_⟩⟩
  unfold giveCredentials
  split
  · exact hcreate
  · exact ⟨rfl, fun _ => hcreate⟩
  · trivial

/-- A process that has inserted both documents of a root knows of one. -/
theorem installRoot_follows [CJson Text] {f : Bool → MainProg Text Ending}
    (hhandle : g.handle = .opened) (hserved : g.served = none)
    (hfail : ∀ g', g'.args = g.args → g'.opts = g.opts → g'.served = none →
      g'.handle = .opened → lifecycle.Follows g' (f false))
    (hgo : ∀ g', g'.args = g.args → g'.opts = g.opts → g'.served = none →
      g'.handle = .opened → g'.rooted = true → lifecycle.Follows g' (f true)) :
    lifecycle.Follows g (installRoot.via .document (fun _ r => r) >>= f) := by
  refine ⟨⟨hhandle, hserved, trivial⟩, fun now => ?_⟩
  cases now with
  | none => exact hfail g rfl rfl hserved hhandle
  | some ts =>
    refine ⟨⟨hhandle, hserved, rfl, rfl⟩, fun resp => ?_⟩
    show lifecycle.Follows _ (((if checkResult (-enoent) resp = 0 then installDentry
      else .ret false : Op Text Bool).via .document (fun _ r => r)) >>= f)
    by_cases hstat : checkResult (-enoent) resp = 0
    · rw [if_pos hstat]
      refine ⟨⟨hhandle, hserved, rfl, rfl⟩, fun resp' => ?_⟩
      show lifecycle.Follows _ (f (checkResult (-enoent) resp' = 0))
      cases hdentry : decide (checkResult (-enoent) resp' = 0) with
      | false => exact hfail _ rfl rfl hserved hhandle
      | true =>
        have hdir : sIsdir (sIfdir ||| 0o755) := by decide
        refine hgo _ rfl rfl hserved hhandle ?_
        simp [lifecycle, Life.next, Life.learn, hstat, hdentry, hdir]
    · rw [if_neg hstat]
      exact hfail _ rfl rfl hserved hhandle

/-- **A root is known of where the check succeeds.** -/
theorem rootCheck_follows [CJson Text] {fc : FuseContext} {f : Bool → MainProg Text Ending}
    (hhandle : g.handle = .opened) (hserved : g.served = none)
    (hfail : ∀ g', g'.args = g.args → g'.opts = g.opts → g'.served = none →
      g'.handle = .opened → lifecycle.Follows g' (f false))
    (hgo : ∀ g', g'.args = g.args → g'.opts = g.opts → g'.served = none →
      g'.handle = .opened → g'.rooted = true → lifecycle.Follows g' (f true)) :
    lifecycle.Follows g ((rootCheck fc).via .document (fun _ r => r) >>= f) := by
  rw [rootCheck_eq]
  refine ⟨⟨hhandle, hserved, rfl⟩, fun resp => ?_⟩
  show lifecycle.Follows (g.learn (.stats (.get rootDirString) : Req Text) resp) _
  dsimp only [Life.learn]
  cases hreply : statReply resp with
  | none => trivial
  | some r =>
    cases r with
    | error e =>
      show lifecycle.Follows g (((if e = -enoent then installRoot
        else .ret false : Op Text Bool).via .document (fun _ r => r)) >>= f)
      by_cases he : e = -enoent
      · rw [if_pos he]
        exact installRoot_follows hhandle hserved hfail hgo
      · rw [if_neg he]
        exact hfail g rfl rfl hserved hhandle
    | ok r =>
      obtain ⟨stat, cas⟩ := r
      show lifecycle.Follows _ (f (sIsdir stat.stMode))
      cases hdir : decide (sIsdir stat.stMode) with
      | false => exact hfail _ rfl rfl hserved hhandle
      | true => exact hgo _ rfl rfl hserved hhandle (by simp [hdir])

/-- From a process with arguments that will do and nothing else. -/
theorem connectAndMount_follows [CJson Text] {fargs : List CString} {connstr : CString}
    {config : CbfuseConfig} {fc : FuseContext} (hoff : g.Offline) (hargs : g.args = true)
    (hserved : g.served = none) (hfargs : singleThreaded ∈ fargs ∧ foreground ∈ fargs) :
    lifecycle.Follows g (connectAndMount fargs connstr config fc : MainProg Text Ending) := by
  unfold connectAndMount
  refine createInstance_follows hoff (fun g' reply hargs' hopts' hserved' hhandle' hok => ?_)
  rw [hargs] at hargs'
  rw [hserved] at hserved'
  by_cases hcreated : reply.2 = true
  · rw [if_neg (not_not.mpr hcreated)]
    obtain ⟨hnew, -⟩ := hok hcreated
    -- whatever fails from here on finds a handle
    have hheld : ∀ {g'' : Life}, g''.args = g'.args → g''.opts = g'.opts →
        g''.handle = .opened ∨ g''.handle = .failed → g''.Holding true := by
      intro g'' hargs'' hopts'' hhandle''
      refine ⟨hargs''.trans hargs', hopts''.trans hopts', ?_⟩
      obtain h | h := hhandle'' <;> simp [h]
    refine openBucket_follows hnew (fun g'' hargs'' hopts'' hserved'' hfailed => ?_)
      (fun g'' hargs'' hopts'' hserved'' hopened => ?_)
    · exact gaveUp_follows (hheld hargs'' hopts'' (.inr hfailed)) (hserved''.trans hserved')
        Int.one_ne_zero
    · refine rootCheck_follows hopened (hserved''.trans hserved')
        (fun g₃ hargs₃ hopts₃ hserved₃ hopened₃ => ?_)
        (fun g₃ hargs₃ hopts₃ hserved₃ hopened₃ hrooted => ?_)
      · exact gaveUp_follows (hheld (hargs₃.trans hargs'') (hopts₃.trans hopts'') (.inl hopened₃))
          hserved₃ Int.one_ne_zero
      · refine follows_ask ⟨hserved₃, .inl ⟨hopened₃, hrooted, hfargs⟩⟩ (fun fresult => ?_)
        exact mainDone_follows (hheld (hargs₃.trans hargs'') (hopts₃.trans hopts'') (.inl hopened₃))
          (.inl rfl)
  · rw [if_pos hcreated]
    exact gaveUp_follows ⟨hargs', hopts', hhandle'⟩ hserved' Int.one_ne_zero

/-- **The rules are kept by `main`**, whatever is replied to it. -/
theorem main_follows [CJson Text] (argv : List CString) (fc : FuseContext) :
    lifecycle.Follows .fresh (main argv fc : MainProg Text Ending) := by
  have hoff : ∀ args unversioned,
      Life.Offline ⟨args, unversioned, false, .absent, [], false, false, none⟩ :=
    fun _ _ => ⟨rfl, rfl⟩
  have hheld : ∀ unversioned,
      Life.Holding ⟨true, unversioned, false, .absent, [], false, false, none⟩ false :=
    fun _ => ⟨rfl, rfl, rfl⟩
  have hroot : lifecycle.Follows .fresh (.ret (.returned 1) : MainProg Text Ending) :=
    ⟨rfl, rfl, .inl rfl, .inr ⟨rfl, Int.one_ne_zero⟩⟩
  unfold main
  refine follows_ask (hoff _ _) (fun uid => ?_)
  by_cases huid : uid = 0
  · rw [if_pos huid]
    exact hroot
  rw [if_neg huid]
  refine follows_ask (hoff _ _) (fun euid => ?_)
  by_cases heuid : euid = 0
  · rw [if_pos heuid]
    exact hroot
  rw [if_neg heuid]
  refine follows_ask ⟨hoff _ _, rfl⟩ (fun parsed => ?_)
  refine optProcs_follows (hoff _ _) rfl rfl (fun status g' hg' => hg') ?_
  by_cases hparsed : parsed.fresult ≠ 0
  · simp only [if_pos hparsed]
    exact gaveUp_follows (hheld _) rfl hparsed
  simp only [if_neg hparsed]
  refine follows_ask ⟨hoff _ _, rfl⟩ (fun rc => ?_)
  by_cases hrc : rc ≠ 0
  · rw [if_pos hrc]
    exact gaveUp_follows (hheld _) rfl hrc
  rw [if_neg hrc]
  refine follows_ask ⟨hoff _ _, rfl⟩ (fun rc' => ?_)
  by_cases hrc' : rc' ≠ 0
  · rw [if_pos hrc']
    exact gaveUp_follows (hheld _) rfl hrc'
  rw [if_neg hrc']
  cases parsed.config.cbConnect with
  | none => exact hoff _ _
  | some connstr =>
    by_cases hlen : connstr.length < 5
    · simp only [if_pos hlen]
      exact hoff _ _
    · simp only [if_neg hlen]
      exact connectAndMount_follows (hoff _ _) rfl rfl ⟨by simp, by simp⟩

end Follows

/-! ## Any number of processes -/

/-- **What becomes of one request of a process.** -/
structure Surroundings where
  /-- The user. -/
  uid : ℕ
  /-- The user it works as. -/
  euid : ℕ
  /-- What is made of the arguments. -/
  parsed : Parsed
  /-- What `fuse_opt_add_arg` returns. -/
  addArg : ℤ
  /-- What `lcb_create` returns, and whether there is a handle. -/
  created : Kv.Status × Bool
  /-- What a call on the handle returns. -/
  rc : Kv.Status
  /-- What `fuse_main` returns. -/
  fresult : ℤ
  /-- What becomes of a request on the bucket. -/
  choice : Choice

/-- The reply to a request of a process, and the store it leaves. Nothing is
mounted here. -/
def serveProcess (c : Surroundings) : (q : MainReq Text) → Store Text → q.Reply × Store Text
  | .getuid, s => (c.uid, s)
  | .geteuid, s => (c.euid, s)
  | .fuseOptParse _, s => (c.parsed, s)
  | .fuseOptAddArg _, s => (c.addArg, s)
  | .fuseOptFreeArgs, s => ((), s)
  | .lcbCreateoptsCreate, s => ((), s)
  | .lcbCreateoptsConnstr _, s => ((), s)
  | .lcbCreateoptsCredentials _ _, s => ((), s)
  | .lcbCreateoptsDestroy, s => ((), s)
  | .lcbCreate, s => (c.created, s)
  | .lcb _, s => (c.rc, s)
  | .lcbSetOpenCallback, s => ((), s)
  | .lcbInstallCallback _, s => ((), s)
  | .lcbDestroy, s => ((), s)
  | .document q, s => serve c.choice q s
  | .fuseMain _, s => (c.fresult, s)

/-- **Processes keep to the rules of the libraries.** Of any number of
processes, whatever the libraries and the server reply and however their calls
are interleaved, each asks only for what it may ask for where it stands: it
creates one handle and destroys it, uses it for what it is good for by then, and
mounts once, with a root, on one thread and in the foreground. One that returns
has given everything back, and returns zero only if FUSE did. -/
theorem processes_conform [CJson Text] {ι S C : Type} [DecidableEq ι]
    (serve : C → (q : MainReq Text) → S → q.Reply × S) (args : ι → List CString × FuseContext)
    (s : S) (sched : List (ι × C)) :
    let x := Pool.run serve sched (Pool.start (fun i => main (args i).1 (args i).2) s)
    Pool.Allowed (fun _ => lifecycle) x.trace
      ∧ ∀ i a, x.returned i = some a → (lifecycle.phase i x.trace).Ends a := by
  intro x
  exact Pool.run_conforms (fun i => main_follows (args i).1 (args i).2) s sched

/-- Where everything succeeds. -/
def Surroundings.good (ts : Timespec) : Surroundings where
  uid := 1
  euid := 1
  parsed := ⟨[], 0, [['c', 'b', 'f', 'u', 's', 'e'], ['/', 'm']],
    ⟨some ['l', 'o', 'c', 'a', 'l'], none, none⟩⟩
  addArg := 0
  created := (none, true)
  rc := none
  fresult := 0
  choice := .good ts

/-- Two processes start at once. The second is too late to insert the stat of a
root, and gives up. -/
theorem processes_conform_two :
    let c := Surroundings.good ⟨7, 0⟩
    let args : Bool → List CString × FuseContext := fun _ => ([], ⟨1, 1⟩)
    let sched := (List.replicate 25 [(true, c), (false, c)]).flatten
    let x := Pool.run serveProcess sched
      (Pool.start (fun i => main (args i).1 (args i).2) (Store.empty : Store (Option Json)))
    (lifecycle.phase true x.trace).Ends (.returned 0)
      ∧ (lifecycle.phase false x.trace).Ends (.returned 1) := by
  intro c args sched x
  obtain ⟨-, hends⟩ := processes_conform serveProcess args (Store.empty : Store (Option Json)) sched
  exact ⟨hends true _ (by decide), hends false _ (by decide)⟩

end Cbfuse
