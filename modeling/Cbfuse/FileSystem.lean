import Cbfuse.Entries
import Cbfuse.FuseOps

/-!
# What the file system is for

A tree of files and directories: at a path stands nothing, a file with its
bytes, or a directory with its names, and each has its attributes. That is all
a user of a file system is to know, and nothing in it says how the tree is
kept – that the attributes, the names and the bytes are three documents, say,
or that they are written one after the other.

A tree is one because of how its parts agree: there is a root, what stands
anywhere else stands in a directory that lists it, and what a directory lists
stands there, once. A `FileSystem` carries all of this with it, so what an
operation makes of one is one again. There are three things to make of it: a
new node in a directory (`FileSystem.make`), one node less
(`FileSystem.drop`), and the attributes and the bytes of a node changed
(`FileSystem.touch`).

`FileSystem.Step` says what every operation is for in these terms: what it
answers, and what it makes of the tree.
-/

namespace Cbfuse

open CString (rootDirString join)

variable {β : Type}

/-! ## Nodes -/

/-- **What stands at a path.** -/
inductive Node where
  /-- A file, with its bytes if it was ever given any. -/
  | file (attr : CbfuseStat) (data : Option Bytes)
  /-- A directory, with its names in the order they were added. -/
  | dir (attr : CbfuseStat) (names : List CString)

namespace Node

/-- The attributes. -/
def attr : Node → CbfuseStat
  | file attr _ => attr
  | dir attr _ => attr

/-- The bytes. -/
def data : Node → Option Bytes
  | file _ data => data
  | dir _ _ => none

/-- The node with its attributes changed, and new bytes if it is a file. -/
def touch (f : CbfuseStat → CbfuseStat) (data : Option Bytes) : Node → Node
  | file attr _ => file (f attr) data
  | dir attr names => dir (f attr) names

@[simp] theorem attr_touch (f : CbfuseStat → CbfuseStat) (data : Option Bytes) (n : Node) :
    (n.touch f data).attr = f n.attr := by
  cases n <;> rfl

/-- The node with its names changed if it is a directory. -/
def relist (f : List CString → List CString) : Node → Node
  | file attr data => file attr data
  | dir attr names => dir attr (f names)

/-- A node nothing was put into yet. -/
def Fresh : Node → Prop
  | file _ data => data = none
  | dir _ names => names = []

theorem fresh_file (attr : CbfuseStat) : (file attr none).Fresh := rfl

theorem fresh_dir (attr : CbfuseStat) : (dir attr []).Fresh := rfl

/-- Nodes, with the one at `k` changed. -/
def mapAt (node : CString → Option Node) (k : CString) (g : Node → Node) (q : CString) :
    Option Node :=
  if q = k then (node q).map g else node q

section MapAt

variable {node : CString → Option Node} {k q : CString}

/-- What stood somewhere goes on standing there, and nothing else does. -/
@[simp] theorem mapAt_eq_none {g : Node → Node} : mapAt node k g q = none ↔ node q = none := by
  unfold mapAt
  split
  · exact Option.map_eq_none_iff
  · exact Iff.rfl

/-- A change of names applies to a directory. -/
theorem mapAt_relist_dir {f : List CString → List CString} {attr : CbfuseStat}
    {names : List CString} : mapAt node k (relist f) q = some (dir attr names)
      ↔ ∃ names', node q = some (dir attr names') ∧ names = if q = k then f names' else names' := by
  unfold mapAt
  by_cases hq : q = k
  · simp only [if_pos hq]
    cases node q with
    | none => simp
    | some n => cases n <;> simp [relist, eq_comm]
  · simp only [if_neg hq]
    exact ⟨fun h => ⟨names, h, rfl⟩, fun ⟨_, h, he⟩ => he ▸ h⟩

/-- A change of names leaves the files. -/
theorem mapAt_relist_file {f : List CString → List CString} {attr : CbfuseStat}
    {data : Option Bytes} :
    mapAt node k (relist f) q = some (file attr data) ↔ node q = some (file attr data) := by
  unfold mapAt
  split
  · cases node q with
    | none => simp
    | some n => cases n <;> simp [relist]
  · exact Iff.rfl

/-- A change of attributes leaves the names of a directory. -/
theorem mapAt_touch_dir {f : CbfuseStat → CbfuseStat} {data : Option Bytes}
    {names : List CString} : (∃ attr, mapAt node k (touch f data) q = some (dir attr names))
      ↔ ∃ attr, node q = some (dir attr names) := by
  unfold mapAt
  split
  · cases node q with
    | none => simp
    | some n => cases n <;> simp [touch]
  · exact Iff.rfl

end MapAt

end Node

/-! ## The tree -/

/-- **A file system.** -/
structure FileSystem where
  /-- What stands at each path. -/
  node : CString → Option Node
  /-- At the root stands a directory. -/
  root : ∃ attr names, node rootDirString = some (.dir attr names)
  /-- What stands anywhere stands at a normalised path. -/
  normalised : ∀ p, node p ≠ none → p.Normalised
  /-- What stands anywhere else stands in a directory that lists it. -/
  linked : ∀ p, p ≠ rootDirString → node p ≠ none →
    ∃ attr names, node p.dirname = some (.dir attr names) ∧ p.basename ∈ names
  /-- What a directory lists stands there, once. -/
  listed : ∀ k attr names, node k = some (.dir attr names) →
    names.Nodup ∧ ∀ n ∈ names, n.IsName ∧ node (join k n) ≠ none
  /-- No file is longer than a file may be. -/
  bounded : ∀ p attr b, node p = some (.file attr (some b)) → b.length ≤ maxFileLen

namespace FileSystem

/-- Two file systems are one if the same stands everywhere. -/
theorem ext_node {fs fs' : FileSystem} (h : ∀ p, fs.node p = fs'.node p) : fs = fs' := by
  obtain ⟨node, _, _, _, _, _⟩ := fs
  obtain ⟨node', _, _, _, _, _⟩ := fs'
  obtain rfl : node = node' := funext h
  rfl

/-- At the path stands a file. -/
def IsFile (fs : FileSystem) (p : CString) : Prop := ∃ attr data, fs.node p = some (.file attr data)

/-- At the path stands a directory. -/
def IsDir (fs : FileSystem) (p : CString) : Prop := ∃ attr names, fs.node p = some (.dir attr names)

/-- The file system after mounting an empty one: a root, and nothing in it. -/
def mounted (attr : CbfuseStat) : FileSystem where
  node p := if p = rootDirString then some (.dir attr []) else none
  root := ⟨attr, [], if_pos rfl⟩
  normalised p hp := by
    obtain rfl : p = rootDirString := by_contra fun hne => hp (if_neg hne)
    exact .top
  linked p hne hp := absurd (if_neg hne) hp
  listed k attr' names h := by
    split at h
    · cases h
      exact ⟨List.nodup_nil, fun n hn => absurd hn List.not_mem_nil⟩
    · cases h
  bounded p attr' b h := by
    split at h <;> cases h

variable (fs : FileSystem) {p : CString}

/-! ### A new node -/

/-- There is room for a new node: nothing stands at the path, and it is one in
a directory. -/
structure Room (p : CString) : Prop where
  /-- The path is normalised. -/
  normalised : p.Normalised
  /-- The path is not that of the root. -/
  notRoot : p ≠ rootDirString
  /-- Nothing stands there. -/
  vacant : fs.node p = none
  /-- There is a directory for it. -/
  dir : fs.IsDir p.dirname

/-- **The file system with a new node**, added to the names of its
directory. -/
def make (p : CString) (n : Node) (hp : fs.Room p) (hn : n.Fresh) : FileSystem where
  node q := if q = p then some n
    else Node.mapAt fs.node p.dirname (Node.relist (· ++ [p.basename])) q
  root := by
    obtain ⟨attr, names, hroot⟩ := fs.root
    rw [if_neg hp.notRoot.symm]
    exact ⟨attr, _, Node.mapAt_relist_dir.mpr ⟨names, hroot, rfl⟩⟩
  normalised q hq := by
    split at hq
    · next hqp => exact hqp ▸ hp.normalised
    · exact fs.normalised q (Node.mapAt_eq_none.not.mp hq)
  linked q hne hq := by
    by_cases hqp : q = p
    · subst hqp
      obtain ⟨attr, names, hdir⟩ := hp.dir
      rw [if_neg (hp.normalised.dirname_ne hp.notRoot)]
      exact ⟨attr, _, Node.mapAt_relist_dir.mpr ⟨names, hdir, rfl⟩, by simp⟩
    · rw [if_neg hqp, ne_eq, Node.mapAt_eq_none] at hq
      obtain ⟨attr, names, hdir, hmem⟩ := fs.linked q hne hq
      rw [if_neg (fun e => by rw [e, hp.vacant] at hdir; cases hdir)]
      refine ⟨attr, _, Node.mapAt_relist_dir.mpr ⟨names, hdir, rfl⟩, ?_⟩
      split
      · exact List.mem_append_left _ hmem
      · exact hmem
  listed k attr names hk := by
    obtain ⟨-, hname, hjoin⟩ := hp.normalised.eq_join hp.notRoot
    have hold : ∀ q, fs.node q ≠ none → (if q = p then some n
        else Node.mapAt fs.node p.dirname (Node.relist (· ++ [p.basename])) q) ≠ none := by
      intro q hq
      split
      · exact Option.some_ne_none _
      · exact Node.mapAt_eq_none.not.mpr hq
    split at hk
    · cases hk
      obtain rfl : names = [] := hn
      exact ⟨List.nodup_nil, fun m hm => absurd hm List.not_mem_nil⟩
    · obtain ⟨names', hdir, rfl⟩ := Node.mapAt_relist_dir.mp hk
      obtain ⟨hnodup, hnames⟩ := fs.listed k attr names' hdir
      split
      · next hkd =>
        have hnew : p.basename ∉ names' := by
          intro hmem
          refine (hnames _ hmem).2 ?_
          rw [hkd, hjoin]
          exact hp.vacant
        refine ⟨List.nodup_append.mpr ⟨hnodup, List.nodup_singleton _, ?_⟩, fun m hm => ?_⟩
        · rintro a ha b hb rfl
          exact hnew (List.mem_singleton.mp hb ▸ ha)
        · rcases List.mem_append.mp hm with hm | hm
          · exact ⟨(hnames m hm).1, hold _ (hnames m hm).2⟩
          · obtain rfl := List.mem_singleton.mp hm
            rw [hkd, hjoin, if_pos rfl]
            exact ⟨hname, Option.some_ne_none _⟩
      · exact ⟨hnodup, fun m hm => ⟨(hnames m hm).1, hold _ (hnames m hm).2⟩⟩
  bounded q attr b hq := by
    split at hq
    · cases hq
      cases (show (some b : Option Bytes) = none from hn)
    · exact fs.bounded q attr b (Node.mapAt_relist_file.mp hq)

/-! ### One node less -/

/-- The node at a path can go: it is a file, or an empty directory that is not
the root. -/
structure Removable (p : CString) : Prop where
  /-- The path is not that of the root. -/
  notRoot : p ≠ rootDirString
  /-- What stands there has nothing in it. -/
  leaf : fs.IsFile p ∨ ∃ attr, fs.node p = some (.dir attr [])

theorem Removable.node_ne_none {fs : FileSystem} (hp : fs.Removable p) : fs.node p ≠ none := by
  obtain ⟨attr, data, h⟩ | ⟨attr, h⟩ := hp.leaf <;> rw [h] <;> exact Option.some_ne_none _

/-- Nothing stands in what can go. -/
theorem Removable.dirname_ne {fs : FileSystem} (hp : fs.Removable p) {q : CString}
    (hq : q ≠ rootDirString) (hnode : fs.node q ≠ none) : q.dirname ≠ p := by
  rintro rfl
  obtain ⟨attr, names, hdir, hmem⟩ := fs.linked q hq hnode
  obtain ⟨attr', data, h⟩ | ⟨attr', h⟩ := hp.leaf
  · cases hdir.symm.trans h
  · cases hdir.symm.trans h
    cases hmem

/-- **The file system without a node**, which its directory lists no
more. -/
def drop (p : CString) (hp : fs.Removable p) : FileSystem where
  node q := if q = p then none
    else Node.mapAt fs.node p.dirname (Node.relist (·.filter (· ≠ p.basename))) q
  root := by
    obtain ⟨attr, names, hroot⟩ := fs.root
    rw [if_neg hp.notRoot.symm]
    exact ⟨attr, _, Node.mapAt_relist_dir.mpr ⟨names, hroot, rfl⟩⟩
  normalised q hq := by
    split at hq
    · exact absurd rfl hq
    · exact fs.normalised q (Node.mapAt_eq_none.not.mp hq)
  linked q hne hq := by
    split at hq
    · exact absurd rfl hq
    · next hqp =>
      rw [ne_eq, Node.mapAt_eq_none] at hq
      obtain ⟨attr, names, hdir, hmem⟩ := fs.linked q hne hq
      rw [if_neg (hp.dirname_ne hne hq)]
      refine ⟨attr, _, Node.mapAt_relist_dir.mpr ⟨names, hdir, rfl⟩, ?_⟩
      split
      · next hd =>
        -- another entry of the same directory has another name
        have hname : q.basename ≠ p.basename := by
          intro e
          obtain ⟨-, -, hjoin⟩ := (fs.normalised q hq).eq_join hne
          obtain ⟨-, -, hjoin'⟩ := (fs.normalised p hp.node_ne_none).eq_join hp.notRoot
          exact hqp (by rw [← hjoin, ← hjoin', hd, e])
        exact List.mem_filter.mpr ⟨hmem, by simpa using hname⟩
      · exact hmem
  listed k attr names hk := by
    split at hk
    · cases hk
    · obtain ⟨names', hdir, rfl⟩ := Node.mapAt_relist_dir.mp hk
      obtain ⟨hnodup, hnames⟩ := fs.listed k attr names' hdir
      have hkn : k.Normalised := fs.normalised k (by rw [hdir]; exact Option.some_ne_none _)
      -- what is listed under another path stays where it is
      have hold : ∀ m ∈ names', join k m ≠ p → m.IsName ∧ (if join k m = p then none
          else Node.mapAt fs.node p.dirname (Node.relist (·.filter (· ≠ p.basename)))
            (join k m)) ≠ none := by
        intro m hm hne
        rw [if_neg hne]
        exact ⟨(hnames m hm).1, Node.mapAt_eq_none.not.mpr (hnames m hm).2⟩
      split
      · refine ⟨hnodup.filter _, fun m hm => ?_⟩
        obtain ⟨hm, hne⟩ := List.mem_filter.mp hm
        refine hold m hm (fun e => absurd ?_ (of_decide_eq_true hne))
        rw [← e, CString.basename_join k (hnames m hm).1]
      · next hkd =>
        refine ⟨hnodup, fun m hm => hold m hm (fun e => hkd ?_)⟩
        rw [← e, CString.dirname_join hkn (hnames m hm).1]
  bounded q attr b hq := by
    split at hq
    · cases hq
    · exact fs.bounded q attr b (Node.mapAt_relist_file.mp hq)

/-! ### A node changed -/

/-- **The file system with the attributes of a node changed**, and new bytes
if it is a file. -/
def touch (p : CString) (f : CbfuseStat → CbfuseStat) (data : Option Bytes)
    (hdata : ∀ b, data = some b → b.length ≤ maxFileLen) : FileSystem where
  node := Node.mapAt fs.node p (Node.touch f data)
  root := by
    obtain ⟨attr, names, hroot⟩ := fs.root
    obtain ⟨attr', hroot'⟩ := Node.mapAt_touch_dir.mpr ⟨attr, hroot⟩
    exact ⟨attr', names, hroot'⟩
  normalised q hq := fs.normalised q (Node.mapAt_eq_none.not.mp hq)
  linked q hne hq := by
    obtain ⟨attr, names, hdir, hmem⟩ := fs.linked q hne (Node.mapAt_eq_none.not.mp hq)
    obtain ⟨attr', hdir'⟩ := Node.mapAt_touch_dir.mpr ⟨attr, hdir⟩
    exact ⟨attr', names, hdir', hmem⟩
  listed k attr names hk := by
    obtain ⟨attr', hdir⟩ := Node.mapAt_touch_dir.mp ⟨attr, hk⟩
    obtain ⟨hnodup, hnames⟩ := fs.listed k attr' names hdir
    exact ⟨hnodup, fun m hm =>
      ⟨(hnames m hm).1, Node.mapAt_eq_none.not.mpr (hnames m hm).2⟩⟩
  bounded q attr b hq := by
    unfold Node.mapAt at hq
    split at hq
    · obtain ⟨n, hnode, htouch⟩ := Option.map_eq_some_iff.mp hq
      cases n with
      | file attr' data' =>
        cases htouch
        exact hdata b rfl
      | dir attr' names' => cases htouch
    · exact fs.bounded q attr b hq

end FileSystem

/-! ## What the operations are for -/

/-- **Everything an operation hands back.** -/
inductive Answer (β : Type) where
  /-- A result code. -/
  | code (r : ℤ)
  /-- The attributes, or an error. -/
  | attr (r : Except ℤ FuseStat)
  /-- A result code, and the buffer the entries went into. -/
  | entries (r : ℤ) (buf : β)
  /-- A result code, and the bytes that were read. -/
  | bytes (r : ℤ) (data : Bytes)

/-- Names offered to the filler one after the other, whatever it says of them,
the first of them being the one at `n`. -/
def offerAll (filler : β → CString → ℕ → ℤ × β) : List CString → ℕ → ℤ × β → ℤ × β
  | [], _, r => r
  | name :: names, n, r => offerAll filler names (n + 1) (filler r.2 name (n + 1))

/-- What a call on an entry hands back, given the bytes it finds. -/
def EntryOp.answer (v : Option Bytes) : EntryOp → Answer β
  | read p nbuf offset =>
    .bytes ((read p nbuf offset).result v) (((v.getD []).drop offset.toNat).take nbuf)
  | op => .code (op.result v)

namespace FileSystem

/-- **The calls that have an answer in a tree.** They are those the kernel makes
once it has looked up what they are about: a node is made in a directory, files
only are unlinked, bytes are those of a file, and no transfer is empty on the
way in, or longer than the connection was set up for. But for one: the kernel
has directories removed that still list something, as it leaves it to the file
system to refuse that. `cbfuse_rmdir` does not, and what is left is no tree; so
here the directory to be removed is empty. -/
def Legal (fs : FileSystem) (conn : FuseConnInfo) : FuseOp β → Prop
  | .fs (.tree (.create p _)) => p.Normalised ∧ p ≠ rootDirString ∧ fs.IsDir p.dirname
  | .fs (.tree (.mkdir p _)) => p.Normalised ∧ p ≠ rootDirString ∧ fs.IsDir p.dirname
  | .fs (.tree (.unlink p)) => fs.IsFile p
  | .fs (.tree (.rmdir p)) => p ≠ rootDirString ∧ ∃ attr, fs.node p = some (.dir attr [])
  | .fs (.entry (.write p buf offset)) =>
    fs.IsFile p ∧ buf ≠ [] ∧ buf.length ≤ conn.maxWrite ∧ 0 ≤ offset ∧ offset < 2 ^ 63
  | .fs (.entry (.truncate p offset)) => fs.IsFile p ∧ 0 ≤ offset ∧ offset < 2 ^ 63
  | .fs (.entry (.read p nbuf offset)) =>
    fs.IsFile p ∧ nbuf ≤ conn.maxReadahead ∧ 0 ≤ offset ∧ offset < 2 ^ 63
  | _ => True

/-- What a call that changes the tree is for. -/
def TreeStep (now : List Timespec) (op : TreeOp) (r : ℤ) (fs fs' : FileSystem) : Prop :=
  match op with
  | .create p mode =>
    if ¬ sIsreg mode then r = -einval ∧ fs' = fs
    else if p.length > maxPathLen then r = enametoolong ∧ fs' = fs
    else if fs.node p ≠ none then r = -enoent ∧ fs' = fs
    else r = 0 ∧ ∃ ts ∈ now, ∃ hp,
      fs' = fs.make p (.file (rootStat mode ts) none) hp (Node.fresh_file _)
  | .mkdir p mode =>
    if fs.node p ≠ none then r = -enoent ∧ fs' = fs
    else r = 0 ∧ ∃ ts ∈ now, ∃ hp,
      fs' = fs.make p (.dir (rootStat mode ts) []) hp (Node.fresh_dir _)
  | .unlink p => r = 0 ∧ ∃ hp, fs' = fs.drop p hp
  | .rmdir p => r = 0 ∧ ∃ hp, fs' = fs.drop p hp

/-- What a call on an entry is for. -/
def EntryStep (now : List Timespec) (op : EntryOp) (a : Answer β) (fs fs' : FileSystem) : Prop :=
  match fs.node op.path with
  | none => a = .code (-enoent) ∧ fs' = fs
  | some n => a = op.answer n.data ∧ ∃ ts data, (op.Restats n.data ∧ op.clock → ts ∈ now)
    ∧ op.Reblocks n.data data
    ∧ ∃ hdata, fs' = fs.touch op.path (op.restat n.data ts) data hdata

/-- **What an operation is for**: what it answers, and what it makes of the
file system. `now` are the values the clock showed in the course of it. -/
def Step (now : List Timespec) (op : FuseOp β) (a : Answer β) (fs fs' : FileSystem) : Prop :=
  match op with
  | .getattr fc p => fs' = fs ∧ a = .attr (
    if p.length > maxPathLen then .error enametoolong
    else match fs.node p with
      | none => .error (-enoent)
      | some n => .ok { n.attr with stUid := fc.uid, stGid := fc.gid })
  | .openFile p => fs' = fs ∧ a = .code (
    if p.length > maxPathLen then enametoolong else if fs.node p = none then -enoent else 0)
  | .readdir p filler offset buf => fs' = fs ∧ a =
    match fs.node p with
    | some (.dir _ names) =>
      let r := offerAll filler (names.drop offset.toNat) offset.toNat (0, buf)
      .entries r.1 r.2
    | _ => .entries (-enoent) buf
  | .fs (.tree op) => ∃ r, a = .code r ∧ TreeStep now op r fs fs'
  | .fs (.entry op) => EntryStep now op a fs fs'

end FileSystem

end Cbfuse
