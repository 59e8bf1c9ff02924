import Cbfuse.Bootstrap
import Cbfuse.Contract
import Cbfuse.Refinement

/-!
# Where everything comes from

Any number of clients work on one bucket, from their start-ups on, with any
operations on any paths. Requests are lost, or take effect and seem to be
lost, allocations fail, clients die half-way and come back. Updates of
directories and of blocks get in each other's way then. What does not happen
is that a document goes bad, or that something turns up in one that nobody has
put there.

`Origins` says, of attributes, names and bytes, where they may be found. A
store is `From` them if that is so of all its documents, and all of these are
of the right shape: every stat a packed struct, every directory document one
of its own path with an array of names, no block longer than a file may be.
A call that brings its own origins along keeps a store so, whatever it reads,
as what it reads was so (`call_kept`). So the documents of a bucket have their
origins in what it held at first and in what its clients were asked to do, and
so has what they report (`documents_of_run`).

A block can hold garbage – fresh memory and the memory behind a buffer find
their way into one – and garbage is the one origin that nobody asked for.
-/

namespace Cbfuse

open CString (rootDirString)

variable {Text β ι : Type}

/-! ## Origins -/

/-- **Where things may be found.** -/
structure Origins where
  /-- The attributes an entry may have. -/
  attr : CString → CbfuseStat → Prop
  /-- The names a directory may list. -/
  name : CString → CString → Prop
  /-- The bytes a file may have at a position. -/
  byte : CString → ℕ → UInt8 → Prop
  /-- The bytes that memory may hold which the program never wrote. -/
  junk : UInt8 → Prop
  /-- The values the clock may show. -/
  time : Timespec → Prop
  /-- Garbage may be found at any position. -/
  byte_of_junk : ∀ p i c, junk c → byte p i c

namespace Origins

variable (O : Origins)

/-- The bytes may be those of `p` from a position on. -/
def Run (p : CString) (off : ℕ) (b : Bytes) : Prop := ∀ i c, b[i]? = some c → O.byte p (off + i) c

/-- A stat of the right shape. -/
def IsStat (p : CString) (v : StatDoc) : Prop := ∃ stat, v = .packed stat ∧ O.attr p stat

/-- A directory document of the right shape. -/
def IsDir [CJson Text] (k : CString) (t : Text) : Prop :=
  ∃ names, Lists k t names ∧ ∀ n ∈ names, n.IsName ∧ O.name k n

/-- A block of the right shape. -/
def IsBlock (p : CString) (b : Bytes) : Prop := b.length ≤ maxFileLen ∧ O.Run p 0 b

/-- An update of the stat of `p` brings its origins along. -/
def Restats (p : CString) (clock : Bool) (change : Timespec → CbfuseStat → CbfuseStat) : Prop :=
  ∀ ts stat, (clock → O.time ts) → O.attr p stat → O.attr p (change ts stat)

end Origins

/-- **Every document of the store is of the right shape**, and what is in it
has an origin. -/
structure Store.From [CJson Text] (O : Origins) (s : Store Text) : Prop where
  /-- The stats. -/
  stats : ∀ p v, s.stats.val p = some v → O.IsStat p v
  /-- The directory documents. -/
  dentries : ∀ k t, s.dentries.val k = some t → O.IsDir k t
  /-- The blocks. -/
  blocks : ∀ p b, s.blocks.val p = some b → O.IsBlock p b

/-- What the surroundings add to a document has an origin. -/
structure Choice.Admissible (O : Origins) (c : Choice) : Prop where
  /-- Garbage. -/
  junk : ∀ n, O.junk (c.junk n)
  /-- The clock. -/
  now : ∀ ts, c.now = some ts → O.time ts

/-! ### Bytes -/

namespace Origins.Run

variable {O : Origins} {p : CString} {off n : ℕ} {b b' : Bytes}

theorem nil : O.Run p off [] := fun _ _ h => by cases h

theorem append (h : O.Run p off b) (h' : O.Run p (off + b.length) b') :
    O.Run p off (b ++ b') := by
  intro i c hc
  by_cases hi : i < b.length
  · exact h i c (by rwa [List.getElem?_append_left hi] at hc)
  · rw [List.getElem?_append_right (by omega)] at hc
    have hbyte := h' _ c hc
    rwa [show off + b.length + (i - b.length) = off + i by omega] at hbyte

theorem take (h : O.Run p off b) (n : ℕ) : O.Run p off (b.take n) := by
  intro i c hc
  refine h i c ?_
  rw [List.getElem?_take] at hc
  split at hc
  · exact hc
  · cases hc

theorem drop (h : O.Run p off b) (n : ℕ) : O.Run p (off + n) (b.drop n) := by
  intro i c hc
  rw [List.getElem?_drop] at hc
  rw [Nat.add_assoc]
  exact h _ c hc

theorem of_junk (h : ∀ c ∈ b, O.junk c) : O.Run p off b :=
  fun _ c hc => O.byte_of_junk _ _ c (h c (List.mem_of_getElem? hc))

/-- A copy into a buffer. -/
theorem splice (h : O.Run p 0 b) (h' : O.Run p off b') (hle : off + b'.length ≤ b.length) :
    O.Run p 0 (Buffer.splice b off b') := by
  have hlen : (b.take off).length = off := by
    rw [List.length_take]
    omega
  refine ((h.take off).append ?_).append ?_
  · rwa [hlen, Nat.zero_add]
  · have hdrop := h.drop (off + b'.length)
    rwa [List.length_append, hlen]

end Origins.Run

/-! ## The contract -/

section Contract

variable [CJson Text] (O : Origins)

/-- The documents a request may store. -/
def Req.Brings : Req Text → Prop
  | .stats r => ∀ op k v cas, r = .store op k v cas → O.IsStat k v
  | .dentries r => ∀ op k t cas, r = .store op k t cas → O.IsDir k t
  | .blocks r => ∀ op k b cas, r = .store op k b cas → O.IsBlock k b
  | _ => True

/-- The replies to rely on: documents of the right shape, with their origins,
and a document for every fetch that is granted. -/
def Req.Finds : (q : Req Text) → q.Reply → Prop
  | .stats r, resp => (∀ d, resp.doc = some d → O.IsStat r.key d.value)
    ∧ ∀ k, r = .get k → resp.rc = none → resp.status = none → resp.doc ≠ none
  | .dentries r, resp => ∀ d, resp.doc = some d → O.IsDir r.key d.value
  | .blocks r, resp => ∀ d, resp.doc = some d → O.IsBlock r.key d.value
  | .clockGettime, now => ∀ ts, now = some ts → O.time ts
  | .malloc _, buf => ∀ b, buf = some b → ∀ c ∈ b.1, O.junk c
  | .overread _, buf => ∀ b, buf = some b → ∀ c ∈ b.1, O.junk c

/-- **The contract among clients.** -/
def Origins.contract : Contract (Req Text) Req.Reply := ⟨Req.Finds O, Req.Brings O⟩

variable {O}

omit [CJson Text] in
theorem Choice.Admissible.buf {c : Choice} (hc : c.Admissible O) (n : ℕ) :
    ∀ x ∈ (c.buf n).1, O.junk x := by
  intro x hx
  obtain ⟨i, -, rfl⟩ := List.mem_map.mp hx
  exact hc.junk i

omit [CJson Text] in
/-- Memory that may or may not be there holds nothing but garbage. -/
theorem Choice.Admissible.buf_if {c : Choice} (hc : c.Admissible O) (there : Bool) (n : ℕ) :
    ∀ b, (if there then some (c.buf n) else none) = some b → ∀ x ∈ b.1, O.junk x := by
  intro b hb
  split at hb
  · cases hb
    exact hc.buf n
  · cases hb

/-- **The server does its part.** -/
theorem serve_from {c : Choice} {q : Req Text} {s : Store Text} (hc : c.Admissible O)
    (hs : s.From O) (hq : q.Brings O) :
    (serve c q s).2.From O ∧ q.Finds O (serve c q s).1 := by
  cases q with
  | stats r =>
    obtain ⟨hstore, hreply⟩ := Kv.Collection.answer_keeps c.fate hs.stats hq
    refine ⟨⟨hstore, hs.dentries, hs.blocks⟩, hreply, ?_⟩
    rintro k rfl hrc hst
    exact Kv.Collection.doc_of_granted_get hrc hst
  | dentries r =>
    obtain ⟨hstore, hreply⟩ := Kv.Collection.answer_keeps c.fate hs.dentries hq
    exact ⟨⟨hs.stats, hstore, hs.blocks⟩, hreply⟩
  | blocks r =>
    obtain ⟨hstore, hreply⟩ := Kv.Collection.answer_keeps c.fate hs.blocks hq
    exact ⟨⟨hs.stats, hs.dentries, hstore⟩, hreply⟩
  | clockGettime => exact ⟨hs, hc.now⟩
  | malloc n => exact ⟨hs, hc.buf_if c.alloc n⟩
  | overread n => exact ⟨hs, hc.buf_if c.mapped n⟩

end Contract

/-! ## The programs keep the contract -/

section Programs

variable [CJson Text] {O : Origins} {p : CString}

/-- A result code other than that of a malformed stat. -/
def NotEbadf (r : ℤ) : Prop := r ≠ -ebadf

instance : DecidablePred NotEbadf := fun _ => inferInstanceAs (Decidable (_ ≠ _))

omit [CJson Text] in
theorem notEbadf_checkResult {V : Type} (resp : Response V) :
    NotEbadf (checkResult (-enoent) resp) :=
  checkResult_returns (by decide) (by decide) (by decide) resp

/-- What a fetch of a stat hands out: attributes with an origin, or an error
other than that of a malformed stat. -/
def Origins.Fetched (O : Origins) (p : CString) : Except ℤ (CbfuseStat × ℕ) → Prop
  | .error e => NotEbadf e
  | .ok r => O.attr p r.1

theorem fetched_statReply {resp : Response StatDoc}
    (h : (Req.stats (.get p) : Req Text).Finds O resp) {r : Except ℤ (CbfuseStat × ℕ)}
    (hr : statReply resp = some r) : O.Fetched p r := by
  obtain ⟨hdoc, hgranted⟩ := h
  unfold statReply at hr
  split at hr
  · cases hr
    exact (by decide : NotEbadf (-eio))
  · next hrc =>
    split at hr
    · cases hr
      exact (by decide : NotEbadf (-enoent))
    · next hst =>
      split at hr
      · next hnone => exact absurd hnone (hgranted p rfl (not_not.mp hrc) (not_not.mp hst))
      · next hd =>
        obtain ⟨stat, hstat, -⟩ := hdoc _ hd
        cases hstat
      · next hd =>
        obtain ⟨stat, hstat, hattr⟩ := hdoc _ hd
        cases hstat
        split at hr
        · cases hr
          exact hattr
        · cases hr

theorem getStat_kept (p : CString) :
    O.contract.Kept (O.Fetched p) (getStat p : Op Text _) := by
  rw [getStat_eq]
  refine ⟨(fun _ _ _ _ h => by cases h), fun resp hresp => ?_⟩
  dsimp only
  cases hr : statReply resp with
  | none => trivial
  | some r => exact @fetched_statReply Text _ O p resp hresp r hr

/-- A stat is updated from what was fetched of it. -/
theorem updateStat_kept {clock : Bool} {change : Timespec → CbfuseStat → CbfuseStat}
    (h : O.Restats p clock change) :
    O.contract.Kept NotEbadf (updateStat p clock change : Op Text ℤ) := by
  rw [updateStat_eq]
  refine ⟨(fun _ _ _ _ h => by cases h), fun resp hresp => ?_⟩
  dsimp only
  cases hr : statReply resp with
  | none => trivial
  | some r =>
    have hfetched := @fetched_statReply Text _ O p resp hresp r hr
    cases r with
    | error e => exact hfetched
    | ok r =>
      obtain ⟨stat, cas⟩ := r
      have hstore : ∀ ts, (clock → O.time ts) → O.contract.Kept NotEbadf
          (.call (.stats (.store .replace p (.packed (change ts stat)) cas))
            (fun resp => .ret (checkResult (-enoent) resp)) : Op Text ℤ) := by
        refine fun ts hts => ⟨?_, fun resp _ => notEbadf_checkResult resp⟩
        intro op k v cas' he
        cases he
        exact ⟨_, rfl, h ts stat hts hfetched⟩
      show O.contract.Kept NotEbadf (replaceStat p clock change stat cas)
      unfold replaceStat
      split
      · refine ⟨trivial, fun now hnow => ?_⟩
        cases now with
        | none => exact (by decide : NotEbadf (-eio))
        | some ts => exact hstore ts (fun _ => hnow ts rfl)
      · next hclock => exact hstore ⟨0, 0⟩ (fun h => absurd h hclock)

theorem insertStat_kept {mode : ℕ} (h : ∀ ts, O.time ts → O.attr p (rootStat mode ts)) :
    O.contract.Kept NotEbadf (insertStat p mode : Op Text ℤ) := by
  rw [insertStat_eq]
  refine ⟨trivial, fun now hnow => ?_⟩
  cases now with
  | none => exact (by decide : NotEbadf (-eio))
  | some ts =>
    refine ⟨?_, fun resp _ => notEbadf_checkResult resp⟩
    intro op k v cas he
    cases he
    exact ⟨_, rfl, h ts (hnow ts rfl)⟩

theorem removeStat_kept (p : CString) :
    O.contract.Kept NotEbadf (removeStat p : Op Text ℤ) :=
  ⟨(fun _ _ _ _ h => by cases h), fun resp _ => notEbadf_checkResult resp⟩

/-! ### Directories -/

theorem addNewDentry_kept {parent : Option CString} (hp : parent.getD [] = parentPath p) :
    O.contract.Kept NotEbadf (addNewDentry p p parent : Op Text ℤ) := by
  refine ⟨?_, fun resp _ => notEbadf_checkResult resp⟩
  intro op k t cas he
  cases he
  exact ⟨[], lists_createDentry p parent hp, fun n hn => absurd hn List.not_mem_nil⟩

theorem removeDentry_kept (p : CString) :
    O.contract.Kept NotEbadf (removeDentry p : Op Text ℤ) :=
  ⟨(fun _ _ _ _ h => by cases h), fun resp _ => notEbadf_checkResult resp⟩

/-- An edit keeps a document one of the right shape. -/
theorem editDentry_kept {edit : List Json → List Json}
    (hedit : ∀ names : List CString, (∀ n ∈ names, n.IsName ∧ O.name p n) →
      ∃ names' : List CString, edit (names.map Json.string) = names'.map Json.string
        ∧ ∀ n ∈ names', n.IsName ∧ O.name p n) :
    O.contract.Kept NotEbadf (editDentry p edit : Op Text ℤ) := by
  rw [editDentry_eq]
  refine ⟨(fun _ _ _ _ h => by cases h), fun resp hresp => ?_⟩
  dsimp only
  cases hr : editReply edit resp with
  | error e =>
    show NotEbadf e
    unfold editReply at hr
    split at hr
    · cases hr
      decide
    · split at hr
      · cases hr
        decide
      · split at hr
        · cases hr
          decide
        · split at hr
          · cases hr
            decide
          · cases hr
  | ok t =>
    obtain ⟨-, -, d, hd, ht⟩ := editReply_ok hr
    obtain ⟨names, hl, hnames⟩ := hresp d hd
    obtain ⟨names', he, hnames'⟩ := hedit names hnames
    refine ⟨?_, fun resp _ => notEbadf_checkResult resp⟩
    intro op k t' cas hstore
    cases hstore
    exact ⟨names', hl.edit ht he, hnames'⟩

theorem addChild_kept {k n : CString} (hn : n.IsName) (hname : O.name k n) :
    O.contract.Kept NotEbadf (addChildToDentry k n : Op Text ℤ) := by
  refine editDentry_kept (fun names hnames => ⟨names ++ [n], addChild_map n names, fun m hm => ?_⟩)
  rcases List.mem_append.mp hm with hm | hm
  · exact hnames m hm
  · obtain rfl := List.mem_singleton.mp hm
    exact ⟨hn, hname⟩

theorem notEbadf_dentryReply {resp : Response Text} {e : ℤ} (h : dentryReply resp = .error e) :
    NotEbadf e := by
  unfold dentryReply at h
  dsimp only at h
  split at h
  · cases h
    decide
  · split at h
    · cases h
      decide
    · cases h

/-- Where a fetched document has children, it is the document of the reply. -/
theorem doc_of_dentryReply {resp : Response Text} {dentry : Option Json} {children : List Json}
    (h : dentryReply resp = .ok dentry)
    (hitems : Json.arrayItems (Json.getObjectItemCaseSensitive dentry dentryChildren)
      = some children) : ∃ d, resp.doc = some d ∧ dentry = CJson.parse d.value := by
  obtain ⟨⟨rc, status, doc⟩, alloc⟩ := resp
  unfold dentryReply syncGetCallback at h
  cases rc with
  | some e => cases h
  | none =>
    cases status with
    | some e => cases h
    | none =>
      cases doc with
      | none =>
        cases h
        cases hitems
      | some d =>
        cases alloc with
        | false =>
          cases h
          cases hitems
        | true =>
          cases h
          exact ⟨d, rfl, rfl⟩

theorem removeChild_kept (k n : CString) :
    O.contract.Kept NotEbadf (removeChildFromDentry k n : Op Text ℤ) :=
  editDentry_kept (fun names hnames => ⟨_, removeChild_map n names,
    fun m hm => hnames m (List.mem_filter.mp hm).1⟩)

/-! ### Bytes -/

/-- A read from a buffer gets bytes of the buffer, and garbage behind them. -/
theorem load_kept {src : Option Bytes} (hsrc : ∀ b, src = some b → O.Run p 0 b) (off : ℤ)
    (n : ℕ) :
    O.contract.Kept (fun b => b.length = n ∧ O.Run p off.toNat b)
      (load src off n : Op Text Bytes) := by
  unfold load
  split
  · next hn => exact ⟨hn.symm, .nil⟩
  · split
    · trivial
    · next b =>
      have hb := ((hsrc b rfl).drop off.toNat).take n
      rw [Nat.zero_add] at hb
      split
      · trivial
      · dsimp only
        split
        · next hlen => exact ⟨hlen, hb⟩
        · next hlen =>
          refine ⟨trivial, fun past hpast => ?_⟩
          cases past with
          | none => trivial
          | some past =>
            refine ⟨?_, hb.append (.of_junk (hpast past rfl))⟩
            have hle : ((b.drop off.toNat).take n).length ≤ n := by
              rw [List.length_take]
              exact Nat.min_le_left _ _
            rw [List.length_append, past.2]
            omega

/-- A copy leaves a buffer as long as it was. -/
theorem memcpy_kept {dst : Option Bytes} {off : ℤ} {src : Bytes}
    (hdst : ∀ b, dst = some b → O.Run p 0 b) (hsrc : 0 ≤ off → O.Run p off.toNat src) :
    O.contract.Kept (fun b' => ∃ b, dst = some b ∧ b'.length = b.length ∧ O.Run p 0 b')
      (memcpy dst off src : Op Text Bytes) := by
  unfold memcpy
  split
  · trivial
  · next b =>
    split
    · next h =>
      exact ⟨b, rfl, Buffer.length_splice h.2, (hdst b rfl).splice (hsrc h.1) h.2⟩
    · trivial

theorem memdupm_kept {src : Option Bytes} (hsrc : ∀ b, src = some b → O.Run p 0 b) (n m : ℕ) :
    O.contract.Kept (fun b => ∀ b', b = some b' → b'.length = m ∧ O.Run p 0 b')
      (memdupm src n m : Op Text (Option Bytes)) := by
  unfold memdupm
  refine ⟨trivial, fun dest hdest => ?_⟩
  cases dest with
  | none => exact fun b' h => by cases h
  | some dest =>
    have hjunk : O.Run p 0 dest.1 := .of_junk (hdest dest rfl)
    show O.contract.Kept _ (load src 0 n >>= _)
    refine Contract.kept_bind (load_kept hsrc 0 n) (fun bytes hbytes => ?_)
    refine Contract.kept_bind (memcpy_kept (p := p) (fun b hb => by cases hb; exact hjunk)
      (fun _ => hbytes.2)) (fun copy hcopy => ?_)
    obtain ⟨b, hb, hlen, hrun⟩ := hcopy
    cases hb
    intro b' hb'
    cases hb'
    exact ⟨hlen.trans dest.2, hrun⟩

/-- A block is stored with as many bytes as are recorded for it. -/
theorem storeBlock_kept {value : Option Bytes} {n : ℕ}
    (hvalue : ∀ b, value = some b → O.Run p 0 b) (hn : n ≤ maxFileLen) :
    O.contract.Kept NotEbadf (storeBlock p value n : Op Text ℤ) := by
  unfold storeBlock
  refine Contract.kept_bind (load_kept hvalue 0 n) (fun bytes hbytes => ⟨?_, fun resp _ => ?_⟩)
  · intro op k b cas he
    cases he
    exact ⟨hbytes.1.trans_le hn, hbytes.2⟩
  · show O.contract.Kept NotEbadf (if resp.rc ≠ none then _ else _ : Op Text ℤ)
    split
    · exact (by decide : NotEbadf (-eio))
    · split
      · exact (by decide : NotEbadf 0)
      · split
        · exact (by decide : NotEbadf (-enoent))
        · exact (by decide : NotEbadf (-eio))

theorem copyAndStore_kept {data : Bytes} {offset : ℤ} {value : Option Bytes} {n m : ℕ}
    (hdata : 0 ≤ offset → O.Run p offset.toNat data)
    (hvalue : ∀ b, value = some b → O.Run p 0 b) (hn : n ≤ maxFileLen) :
    O.contract.Kept (fun r => NotEbadf r.1 ∧ r.2 = m)
      (copyAndStore p data offset value n m : Op Text _) := by
  unfold copyAndStore
  refine Contract.kept_bind (memcpy_kept hvalue hdata) (fun bytes hbytes => ?_)
  obtain ⟨-, -, -, hrun⟩ := hbytes
  exact Contract.kept_bind (storeBlock_kept (fun b hb => by cases hb; exact hrun) hn)
    (fun fresult h => ⟨h, rfl⟩)

/-- **A block is modified** by the data, or cut. -/
theorem modifyBlock_kept {buf : Option Bytes} {offset : ℤ} {value : Option Bytes}
    {nupdate n m : ℕ} (hdata : 0 ≤ offset → O.Run p offset.toNat (buf.getD []))
    (hvalue : ∀ b, value = some b → O.Run p 0 b) (hupdate : nupdate ≤ maxFileLen)
    (hn : n ≤ maxFileLen) (hcut : isNotTruncate buf = false → toSizeT offset ≤ maxFileLen) :
    O.contract.Kept (fun r => NotEbadf r.1 ∧ (r.2 = m ∨ r.2 = nupdate))
      (modifyBlock p buf offset nupdate value n m : Op Text _) := by
  unfold modifyBlock
  split
  · split
    · refine Contract.kept_bind (memdupm_kept hvalue n nupdate) (fun newData hnew => ?_)
      split
      · exact ⟨(by decide : NotEbadf (-enomem)), .inl rfl⟩
      · exact (copyAndStore_kept hdata (fun b hb => (hnew b hb).2) hupdate).mono
          (fun r h => ⟨h.1, .inr h.2⟩)
    · exact (copyAndStore_kept hdata hvalue hn).mono (fun r h => ⟨h.1, .inl h.2⟩)
  · next hnot =>
    have hoff := hcut (Bool.eq_false_iff.mpr hnot)
    exact Contract.kept_bind (storeBlock_kept hvalue hoff) (fun fresult h => ⟨h, .inl rfl⟩)

/-- What a fetch of a block hands out. -/
def Origins.Block (O : Origins) (p : CString) (r : ℤ × SyncGetResult Bytes) : Prop :=
  NotEbadf r.1 ∧ r.2.nvalue ≤ maxFileLen ∧ ∀ b, r.2.value = some b → O.Run p 0 b

theorem getBlock_kept (p : CString) :
    O.contract.Kept (O.Block p) (getBlock p : Op Text _) := by
  rw [getBlock_eq]
  refine ⟨(fun _ _ _ _ h => by cases h), fun resp hresp => ⟨notEbadf_checkResult resp, ?_⟩⟩
  obtain ⟨⟨rc, status, doc⟩, alloc⟩ := resp
  have hdoc : ∀ d, doc = some d → O.IsBlock p d.value := hresp
  unfold blockReply syncGetCallback
  cases status with
  | some e => exact ⟨Nat.zero_le _, fun b hb => by cases hb⟩
  | none =>
    cases doc with
    | none => exact ⟨Nat.zero_le _, fun b hb => by cases hb⟩
    | some d =>
      obtain ⟨hlen, hrun⟩ := hdoc d rfl
      refine ⟨hlen, fun b hb => ?_⟩
      cases alloc with
      | false => cases hb
      | true =>
        cases hb
        exact hrun

/-- **A block is updated** with the data that is brought along. -/
theorem updateBlock_kept {buf : Option Bytes} {offset : ℤ}
    (hdata : 0 ≤ offset → O.Run p offset.toNat (buf.getD [])) :
    O.contract.Kept
      (fun r => NotEbadf r.1 ∧ (r.2 = 0 ∨ r.2 = toSizeT (offset + (buf.getD []).length)))
      (updateBlock p buf offset : Op Text _) := by
  have hcut : isNotTruncate buf = false → (buf.getD []).length = 0 := by
    intro h
    cases buf with
    | none => rfl
    | some b =>
      cases b with
      | nil => rfl
      | cons a b => cases h
  unfold updateBlock
  dsimp only
  split
  · exact ⟨(by decide : NotEbadf (-efbig)), .inl rfl⟩
  · next hmax =>
    have hupdate := Nat.not_lt.mp hmax
    have hoff : isNotTruncate buf = false → toSizeT offset ≤ maxFileLen := by
      intro h
      rwa [hcut h, Nat.cast_zero, add_zero] at hupdate
    refine Contract.kept_bind (getBlock_kept p) (fun r hr => ?_)
    obtain ⟨hcode, hlen, hvalue⟩ := hr
    split
    · split
      · refine ⟨trivial, fun value hjunk => ?_⟩
        cases value with
        | none => exact ⟨(by decide : NotEbadf (-enomem)), .inl rfl⟩
        | some value =>
          have hfresh : O.Run p 0 value.1 := .of_junk (hjunk value rfl)
          exact (modifyBlock_kept hdata (fun b hb => by cases hb; exact hfresh) hupdate hupdate
            hoff).mono (fun r h => ⟨h.1, .inr (or_self_iff.mp h.2)⟩)
      · exact ⟨(by decide : NotEbadf 0), .inl rfl⟩
    · split
      · exact ⟨hcode, .inl rfl⟩
      · exact modifyBlock_kept hdata hvalue hupdate hlen hoff

theorem notEbadf_dataDone (r : ℤ) : NotEbadf (dataDone r) := by
  unfold dataDone NotEbadf ebadf
  split <;> omega

/-- **A read hands out bytes of the file**, as they are from the offset on. -/
theorem readData_kept {nbuf : ℕ} {offset : ℤ}
    (hstat : O.Restats p true CbfuseStat.touchAtime) :
    O.contract.Kept (fun r => NotEbadf r.1 ∧ O.Run p offset.toNat r.2)
      (readData p nbuf offset : Op Text _) := by
  have hdone : ∀ r bytes, O.Run p offset.toNat bytes →
      O.contract.Kept (fun r => NotEbadf r.1 ∧ O.Run p offset.toNat r.2)
        (.ret (dataDone r, bytes) : Op Text (ℤ × Bytes)) :=
    fun r _ h => ⟨notEbadf_dataDone r, h⟩
  unfold readData
  refine Contract.kept_bind (getBlock_kept p) (fun r hr => ?_)
  obtain ⟨-, -, hvalue⟩ := hr
  dsimp only
  split
  · exact hdone _ _ .nil
  · split
    · exact hdone _ _ .nil
    · refine Contract.kept_bind (load_kept hvalue offset _) (fun bytes hbytes => ?_)
      refine Contract.kept_bind (updateStat_kept hstat) (fun fresult _ => ?_)
      split
      · exact hdone _ _ hbytes.2
      · exact hdone _ _ hbytes.2

theorem writeData_kept {buf : Bytes} {offset : ℤ} (hdata : 0 ≤ offset → O.Run p offset.toNat buf)
    (hstat : O.Restats p true (CbfuseStat.resize (toSizeT (offset + buf.length)))) :
    O.contract.Kept NotEbadf (writeData p buf offset : Op Text ℤ) := by
  unfold writeData
  split
  · exact notEbadf_dataDone _
  · refine Contract.kept_bind (updateBlock_kept hdata) (fun r hr => ?_)
    obtain ⟨-, hsize⟩ := hr
    dsimp only
    split
    · exact notEbadf_dataDone _
    · split
      · next hne =>
        rw [hsize.resolve_left hne]
        refine Contract.kept_bind (updateStat_kept hstat) (fun fresult _ => ?_)
        split
        · exact notEbadf_dataDone _
        · exact notEbadf_dataDone _
      · exact notEbadf_dataDone _

theorem removeData_kept (p : CString) :
    O.contract.Kept NotEbadf (removeData p : Op Text ℤ) :=
  ⟨(fun _ _ _ _ h => by cases h), fun resp _ => notEbadf_checkResult resp⟩

theorem truncateData_kept {offset : ℤ}
    (hstat : O.Restats p true (CbfuseStat.resize (toSizeT offset))) :
    O.contract.Kept NotEbadf (truncateData p offset : Op Text ℤ) := by
  unfold truncateData
  have hcut : O.contract.Kept NotEbadf (if offset = 0 then removeData p
      else Prod.fst <$> updateBlock p none offset : Op Text ℤ) := by
    split
    · exact removeData_kept p
    · exact Contract.kept_map ((updateBlock_kept (fun _ => .nil)).mono (fun r h => h.1))
  refine Contract.kept_bind hcut (fun fresult h => ?_)
  split
  · exact h
  · exact updateStat_kept hstat

/-! ### The operations -/

/-- Making an entry brings along its stat and its name. -/
structure Origins.Makes (O : Origins) (p : CString) (mode : ℕ) : Prop where
  /-- The path is one that FUSE makes entries at. -/
  path : p.Normalised ∧ p ≠ rootDirString
  /-- The stat. -/
  attr : ∀ ts, O.time ts → O.attr p (rootStat mode ts)
  /-- The name. -/
  name : O.name p.dirname p.basename

theorem Origins.Makes.addChild_kept {mode : ℕ} (h : O.Makes p mode) :
    O.contract.Kept NotEbadf (addChildToDentry p.dirname p.basename : Op Text ℤ) :=
  Cbfuse.addChild_kept (h.path.1.eq_join h.path.2).2.1 h.name

omit [CJson Text] in
/-- A step that fails ends the making of an entry. -/
theorem kept_orElse {K : Contract (Req Text) Req.Reply} {post : ℤ → Prop}
    {prog rest : Op Text ℤ} (h : K.Kept post prog) (hrest : K.Kept post rest) :
    K.Kept post (prog >>= fun fresult => if fresult ≠ 0 then .ret fresult else rest) := by
  refine Contract.kept_bind h (fun fresult hcode => ?_)
  split
  · exact hcode
  · exact hrest

theorem cbfuseCreate_kept {mode : ℕ} (h : O.Makes p mode) :
    O.contract.Kept NotEbadf (cbfuseCreate p mode : Op Text ℤ) := by
  unfold cbfuseCreate
  split
  · exact (by decide : NotEbadf (-einval))
  · split
    · exact (by decide : NotEbadf enametoolong)
    · exact kept_orElse (insertStat_kept h.attr) h.addChild_kept

theorem cbfuseMkdir_kept {mode : ℕ} (h : O.Makes p mode) :
    O.contract.Kept NotEbadf (cbfuseMkdir p mode : Op Text ℤ) := by
  have hparent : (some p.dirname).getD [] = parentPath p := by
    rw [parentPath, if_neg h.path.2]
    rfl
  unfold cbfuseMkdir
  rw [if_neg (or_sIfdir_ne_zero mode)]
  exact kept_orElse (insertStat_kept h.attr)
    (kept_orElse (addNewDentry_kept hparent) h.addChild_kept)

theorem cbfuseUnlink_kept (p : CString) :
    O.contract.Kept NotEbadf (cbfuseUnlink p : Op Text ℤ) :=
  Contract.kept_bind (removeData_kept p) (fun _ _ =>
    Contract.kept_bind (removeChild_kept _ _) (fun _ _ => removeStat_kept p))

theorem cbfuseRmdir_kept (p : CString) :
    O.contract.Kept NotEbadf (cbfuseRmdir p : Op Text ℤ) :=
  Contract.kept_bind (removeDentry_kept p) (fun _ _ =>
    Contract.kept_bind (removeChild_kept _ _) (fun _ _ => removeStat_kept p))

theorem insertRoot_kept (h : ∀ ts, O.time ts →
      O.attr rootDirString (rootStat (sIfdir ||| 0o755) ts)) :
    O.contract.Kept NotEbadf (insertRoot : Op Text ℤ) := by
  unfold insertRoot
  exact kept_orElse (insertStat_kept h) (addNewDentry_kept rfl)

/-- What `cbfuse_getattr` fills has an origin. -/
def Origins.Told (O : Origins) (p : CString) : Except ℤ FuseStat → Prop
  | .error e => NotEbadf e
  | .ok st => O.attr p st.toCbfuseStat

theorem cbfuseGetattr_kept (fc : FuseContext) (p : CString) :
    O.contract.Kept (O.Told p) (cbfuseGetattr fc p : Op Text _) := by
  by_cases hlen : p.length > maxPathLen
  · unfold cbfuseGetattr
    rw [if_pos hlen]
    exact (by decide : NotEbadf enametoolong)
  · rw [cbfuseGetattr_eq fc hlen]
    refine ⟨(fun _ _ _ _ h => by cases h), fun resp hresp => ?_⟩
    dsimp only
    cases hr : statReply resp with
    | none => trivial
    | some r =>
      have hfetched := @fetched_statReply Text _ O p resp hresp r hr
      cases r with
      | error e => exact hfetched
      | ok r => exact hfetched

theorem cbfuseOpen_kept (p : CString) :
    O.contract.Kept NotEbadf (cbfuseOpen p : Op Text ℤ) := by
  unfold cbfuseOpen
  split
  · exact (by decide : NotEbadf enametoolong)
  · refine Contract.kept_bind (getStat_kept p) (fun r hr => ?_)
    cases r with
    | error e => exact hr
    | ok r => exact (by decide : NotEbadf 0)

/-- What a listing offers the filler has an origin. -/
def Origins.Lists (O : Origins) (p : CString) (filler : β → CString → ℕ → ℤ × β) (offset : ℤ)
    (buf : β) (r : ℤ × β) : Prop :=
  NotEbadf r.1 ∧ r.2 = buf
    ∨ ∃ names, (∀ n ∈ names, n.IsName ∧ O.name p n)
        ∧ r = offerAll filler names offset.toNat (0, buf)

theorem cbfuseReaddir_kept (p : CString) (filler : β → CString → ℕ → ℤ × β) (offset : ℤ)
    (buf : β) :
    O.contract.Kept (O.Lists p filler offset buf)
      (cbfuseReaddir p filler offset buf : Op Text _) := by
  rw [cbfuseReaddir_eq]
  refine ⟨(fun _ _ _ _ h => by cases h), fun resp hresp => ?_⟩
  have hdoc : ∀ d, resp.doc = some d → O.IsDir p d.value := hresp
  dsimp only
  cases hr : dentryReply resp with
  | error e => exact .inl ⟨notEbadf_dentryReply hr, rfl⟩
  | ok dentry =>
    dsimp only
    cases hitems : Json.arrayItems (Json.getObjectItemCaseSensitive dentry dentryChildren) with
    | none => exact .inl ⟨(by decide : NotEbadf 0), rfl⟩
    | some children =>
      obtain ⟨d, hd, rfl⟩ := doc_of_dentryReply hr hitems
      obtain ⟨names, hl, hnames⟩ := hdoc d hd
      rw [show children = names.map Json.string from Option.some.inj (hitems.symm.trans hl.items)]
      refine .inr ⟨names.drop offset.toNat, fun n hn => hnames n (List.mem_of_mem_drop hn), ?_⟩
      have hloop := FuseOp.fillLoop_offerAll filler offset names 0 (0, buf)
      rwa [Nat.sub_zero, Nat.zero_max] at hloop

end Programs

/-! ## The calls, and where what they leave comes from -/

/-- **What a client does**: it starts up, or carries out an operation. -/
inductive Call (β : Type) where
  /-- The root check. -/
  | startUp (fc : FuseContext)
  /-- An operation. -/
  | fuse (op : FuseOp β)

namespace Call

/-- The program of a call. A start-up hands back whether it goes on to
mount. -/
def code [CJson Text] : Call β → Op Text (Answer β)
  | startUp fc => (fun mounts => Answer.code (if mounts then 0 else 1)) <$> rootCheck fc
  | fuse op => op.full

/-- **The paths FUSE makes entries at** are normalised, and not the root. -/
def Proper : Call β → Prop
  | fuse (.fs (.tree op)) => op.mode ≠ none → op.path.Normalised ∧ op.path ≠ rootDirString
  | _ => True

/-- The call gives the entry at `p` this mode. -/
def Mode (p : CString) (mode : ℕ) : Call β → Prop
  | startUp _ => p = rootDirString ∧ mode = sIfdir ||| 0o755
  | fuse (.fs (.tree op)) => op.path = p ∧ op.mode = some mode
  | fuse (.fs (.entry (.chmod q m))) => q = p ∧ m = mode
  | _ => False

/-- The call gives the entry at `p` this size. -/
def Size (p : CString) (size : ℤ) : Call β → Prop
  | startUp _ => p = rootDirString ∧ size = 0
  | fuse (.fs (.tree op)) => op.path = p ∧ op.mode ≠ none ∧ size = 0
  | fuse (.fs (.entry (.write q buf offset))) =>
    q = p ∧ size = toOffT (toSizeT (offset + buf.length))
  | fuse (.fs (.entry (.truncate q offset))) => q = p ∧ size = toOffT (toSizeT offset)
  | _ => False

/-- The call sets a time of the entry at `p` to this value. -/
def Time (p : CString) (ts : Timespec) : Call β → Prop
  | fuse (.fs (.entry (.utimens q (some (tv0, tv1))))) => q = p ∧ (ts = tv0 ∨ ts = tv1)
  | _ => False

/-- The call makes an entry of this name in the directory `k`. -/
def Name (k n : CString) : Call β → Prop
  | fuse (.fs (.tree op)) => op.mode ≠ none ∧ op.path.dirname = k ∧ op.path.basename = n
  | _ => False

/-- The call writes this byte at this position of the file `p`. -/
def Puts (p : CString) (i : ℕ) (c : UInt8) : Call β → Prop
  | fuse (.fs (.entry (.write q buf offset))) =>
    q = p ∧ 0 ≤ offset ∧ ∃ j, i = offset.toNat + j ∧ buf[j]? = some c
  | _ => False

/-- **What a call hands back has an origin**, and is never that a stat is of
the wrong size. -/
def Tells (O : Origins) : Call β → Answer β → Prop
  | startUp _, _ => True
  | fuse (.getattr _ p), .attr r => O.Told p r
  | fuse (.readdir p filler offset buf), .entries r b => O.Lists p filler offset buf (r, b)
  | fuse (.fs (.entry (.read p _ offset))), .bytes r data =>
    NotEbadf r ∧ O.Run p offset.toNat data
  | fuse _, .code r => NotEbadf r
  | fuse _, _ => False

end Call

/-- **A run of the calls** from the store on. -/
def runCalls [CJson Text] [DecidableEq ι] (calls : ι → Call β) (s : Store Text)
    (sched : List (ι × Choice)) : Pool.Config ι (Req Text) Req.Reply (Answer β) (Store Text) :=
  Pool.run serve sched (Pool.start (fun i => (calls i).code) s)

/-- Anything may be found anywhere. -/
def Origins.anywhere : Origins where
  attr _ _ := True
  name _ _ := True
  byte _ _ _ := True
  junk _ := True
  time _ := True
  byte_of_junk _ _ _ _ := trivial

section Given

variable [CJson Text] (s : Store Text) (calls : ι → Call β)

/-- What the store holds of a stat, or a call gives it. -/
def Store.Or {α : Type} (p : CString) (field : CbfuseStat → α) (given : Call β → Prop) (v : α) :
    Prop :=
  (∃ stat, s.stats.val p = some (.packed stat) ∧ field stat = v) ∨ ∃ i, given (calls i)

/-- A time of an entry: the store holds it, a call sets it, or the clock
showed it. -/
def Store.Timed (clock : Timespec → Prop) (p : CString) (field : CbfuseStat → Timespec)
    (ts : Timespec) : Prop :=
  s.Or calls p field (Call.Time p ts) ts ∨ clock ts

/-- The change time, which nothing sets after an entry is made. -/
def CbfuseStat.ctime (stat : CbfuseStat) : Timespec := ⟨stat.stCtime, stat.stCtimensec⟩

/-- **What was there at first, and what the calls bring along**: every field of
a stat by itself, every name by its directory, and every byte by its file and
its position. -/
def Store.given (junk : UInt8 → Prop) (clock : Timespec → Prop) : Origins where
  attr p stat :=
    s.Or calls p CbfuseStat.stMode (Call.Mode p stat.stMode) stat.stMode
      ∧ s.Or calls p CbfuseStat.stSize (Call.Size p stat.stSize) stat.stSize
      ∧ s.Timed calls clock p CbfuseStat.atime stat.atime
      ∧ s.Timed calls clock p CbfuseStat.mtime stat.mtime
      ∧ ((∃ stat', s.stats.val p = some (.packed stat') ∧ stat'.ctime = stat.ctime)
        ∨ clock stat.ctime)
  name k n := (∃ t names, s.dentries.val k = some t ∧ Lists k t names ∧ n ∈ names)
    ∨ ∃ i, (calls i).Name k n
  byte p i c := (∃ b, s.blocks.val p = some b ∧ b[i]? = some c)
    ∨ (∃ j, (calls j).Puts p i c) ∨ junk c
  junk := junk
  time := clock
  byte_of_junk _ _ _ h := .inr (.inr h)

variable {s calls} {junk : UInt8 → Prop} {clock : Timespec → Prop}

/-- What is there at first comes from what is there at first. -/
theorem Store.From.given (h : s.From Origins.anywhere) :
    s.From (s.given calls junk clock) where
  stats p v hv := by
    obtain ⟨stat, rfl, -⟩ := h.stats p v hv
    exact ⟨stat, rfl, .inl ⟨stat, hv, rfl⟩, .inl ⟨stat, hv, rfl⟩, .inl (.inl ⟨stat, hv, rfl⟩),
      .inl (.inl ⟨stat, hv, rfl⟩), .inl ⟨stat, hv, rfl⟩⟩
  dentries k t ht := by
    obtain ⟨names, hl, hnames⟩ := h.dentries k t ht
    exact ⟨names, hl, fun n hn => ⟨(hnames n hn).1, .inl ⟨t, names, ht, hl, hn⟩⟩⟩
  blocks p b hb := by
    refine ⟨(h.blocks p b hb).1, fun i c hc => .inl ⟨b, hb, ?_⟩⟩
    rwa [Nat.zero_add]

/-- A new stat. -/
theorem given_rootStat {p : CString} {mode : ℕ} {i : ι} (hmode : (calls i).Mode p mode)
    (hsize : (calls i).Size p 0) {ts : Timespec} (hts : clock ts) :
    (s.given calls junk clock).attr p (rootStat mode ts) :=
  ⟨.inr ⟨i, hmode⟩, .inr ⟨i, hsize⟩, .inr hts, .inr hts, .inr hts⟩

/-- A new size, and the time of the change. -/
theorem restats_resize {p : CString} {size : ℕ} {i : ι}
    (hsize : (calls i).Size p (toOffT size)) :
    (s.given calls junk clock).Restats p true (CbfuseStat.resize size) := by
  intro ts stat hts h
  obtain ⟨hmode, -, hatime, -, hctime⟩ := h
  refine ⟨hmode, .inr ⟨i, ?_⟩, hatime, .inr (hts rfl), hctime⟩
  rw [CbfuseStat.stSize_resize]
  exact hsize

/-- A new mode. -/
theorem restats_mode {p : CString} {mode : ℕ} {i : ι} (hmode : (calls i).Mode p mode) :
    (s.given calls junk clock).Restats p false (fun _ stat => { stat with stMode := mode }) :=
  fun _ _ _ ⟨_, hrest⟩ => ⟨.inr ⟨i, hmode⟩, hrest⟩

/-- A new access time. -/
theorem given_touchAtime {p : CString} {stat : CbfuseStat} {ts : Timespec}
    (h : (s.given calls junk clock).attr p stat)
    (hts : s.Timed calls clock p CbfuseStat.atime ts) :
    (s.given calls junk clock).attr p (stat.touchAtime ts) :=
  ⟨h.1, h.2.1, hts, h.2.2.2⟩

/-- A new modification time. -/
theorem given_touchMtime {p : CString} {stat : CbfuseStat} {ts : Timespec}
    (h : (s.given calls junk clock).attr p stat)
    (hts : s.Timed calls clock p CbfuseStat.mtime ts) :
    (s.given calls junk clock).attr p (stat.touchMtime ts) :=
  ⟨h.1, h.2.1, h.2.2.1, hts, h.2.2.2.2⟩

/-- New times, from the clock or as given. -/
theorem restats_utimens {p : CString} {tv : Option (Timespec × Timespec)} {i : ι}
    (htime : ∀ ts, (∃ tvs, tv = some tvs ∧ (ts = tvs.1 ∨ ts = tvs.2)) → (calls i).Time p ts) :
    (s.given calls junk clock).Restats p (utimensNeedsClock tv) (CbfuseStat.utimens tv) := by
  intro ts stat hclock h
  cases tv with
  | none => exact given_touchMtime (given_touchAtime h (.inr (hclock rfl))) (.inr (hclock rfl))
  | some tvs =>
    obtain ⟨tv0, tv1⟩ := tvs
    have hgiven : ∀ field ts, (ts = tv0 ∨ ts = tv1) → s.Timed calls clock p field ts :=
      fun field ts h => .inl (.inr ⟨i, htime ts ⟨_, rfl, h⟩⟩)
    have hatime : (s.given calls junk clock).attr p
        (if tv0.tvNsec = utimeNow then stat.touchAtime ts
          else if tv0.tvNsec ≠ utimeOmit then stat.touchAtime tv0 else stat) := by
      split
      · next hnow => exact given_touchAtime h (.inr (hclock (by simp [utimensNeedsClock, hnow])))
      · split
        · exact given_touchAtime h (hgiven _ _ (.inl rfl))
        · exact h
    unfold CbfuseStat.utimens
    dsimp only
    split
    · next hnow =>
      exact given_touchMtime hatime (.inr (hclock (by simp [utimensNeedsClock, hnow])))
    · split
      · exact given_touchMtime hatime (hgiven _ _ (.inr rfl))
      · exact hatime

/-- The bytes a call writes. -/
theorem run_of_puts {p : CString} {buf : Bytes} {offset : ℤ} {i : ι}
    (hcall : calls i = .fuse (.fs (.entry (.write p buf offset)))) (h0 : 0 ≤ offset) :
    (s.given calls junk clock).Run p offset.toNat buf := by
  refine fun j c hc => .inr (.inl ⟨i, ?_⟩)
  rw [hcall]
  exact ⟨rfl, h0, j, rfl, hc⟩

/-! ### Every call keeps the contract -/

/-- Calls that change the tree. -/
theorem treeOp_kept {op : TreeOp} {i : ι} (hcall : calls i = .fuse (.fs (.tree op)))
    (hproper : (calls i).Proper) :
    (s.given calls junk clock).contract.Kept NotEbadf (op.code : Op Text ℤ) := by
  have hmakes : ∀ mode, op.mode = some mode →
      (s.given calls junk clock).Makes op.path mode := by
    intro mode hmode
    have hne : op.mode ≠ none := by rw [hmode]; exact Option.some_ne_none mode
    rw [hcall] at hproper
    refine ⟨hproper hne, fun ts hts => given_rootStat (i := i) ?_ ?_ hts, .inr ⟨i, ?_⟩⟩
    · rw [hcall]
      exact ⟨rfl, hmode⟩
    · rw [hcall]
      exact ⟨rfl, hne, rfl⟩
    · rw [hcall]
      exact ⟨hne, rfl, rfl⟩
  cases op with
  | create p mode => exact cbfuseCreate_kept (hmakes mode rfl)
  | mkdir p mode => exact cbfuseMkdir_kept (hmakes mode rfl)
  | unlink p => exact cbfuseUnlink_kept p
  | rmdir p => exact cbfuseRmdir_kept p

/-- Calls on an entry. -/
theorem entryOp_kept {op : EntryOp} {i : ι} (hcall : calls i = .fuse (.fs (.entry op))) :
    (s.given calls junk clock).contract.Kept ((calls i).Tells (s.given calls junk clock))
      ((calls i).code : Op Text (Answer β)) := by
  cases op with
  | write p buf offset =>
    have hsize : (calls i).Size p (toOffT (toSizeT (offset + buf.length))) := by
      rw [hcall]
      exact ⟨rfl, rfl⟩
    rw [hcall]
    exact Contract.kept_map (writeData_kept (run_of_puts hcall) (restats_resize hsize))
  | truncate p offset =>
    have hsize : (calls i).Size p (toOffT (toSizeT offset)) := by
      rw [hcall]
      exact ⟨rfl, rfl⟩
    rw [hcall]
    exact Contract.kept_map (truncateData_kept (restats_resize hsize))
  | read p nbuf offset =>
    rw [hcall]
    exact Contract.kept_map (readData_kept
      (fun ts stat hts h => given_touchAtime h (.inr (hts rfl))))
  | chmod p mode =>
    have hmode : (calls i).Mode p mode := by
      rw [hcall]
      exact ⟨rfl, rfl⟩
    rw [hcall]
    exact Contract.kept_map (updateStat_kept (restats_mode hmode))
  | utimens p tv =>
    have htime : ∀ ts, (∃ tvs, tv = some tvs ∧ (ts = tvs.1 ∨ ts = tvs.2)) →
        (calls i).Time p ts := by
      rintro ts ⟨tvs, rfl, h⟩
      rw [hcall]
      exact ⟨rfl, h⟩
    rw [hcall]
    exact Contract.kept_map (updateStat_kept (restats_utimens htime))

/-- **Every call keeps the contract**, and hands back nothing without an
origin. -/
theorem call_kept {i : ι} (hproper : (calls i).Proper) :
    (s.given calls junk clock).contract.Kept ((calls i).Tells (s.given calls junk clock))
      ((calls i).code : Op Text (Answer β)) := by
  cases hcall : calls i with
  | startUp fc =>
    have hroot : ∀ ts, clock ts → (s.given calls junk clock).attr rootDirString
        (rootStat (sIfdir ||| 0o755) ts) :=
      fun ts hts => given_rootStat (i := i) (by rw [hcall]; exact ⟨rfl, rfl⟩)
        (by rw [hcall]; exact ⟨rfl, rfl⟩) hts
    refine Contract.kept_map (Contract.kept_bind (cbfuseGetattr_kept fc _) (fun r _ => ?_))
    cases r with
    | ok rootStat => trivial
    | error e =>
      dsimp only
      split
      · exact Contract.kept_bind (insertRoot_kept hroot) (fun _ _ => trivial)
      · trivial
  | fuse op =>
    cases op with
    | getattr fc p => exact Contract.kept_map (cbfuseGetattr_kept fc p)
    | openFile p => exact Contract.kept_map (cbfuseOpen_kept p)
    | readdir p filler offset buf =>
      exact Contract.kept_map (cbfuseReaddir_kept p filler offset buf)
    | fs op =>
      cases op with
      | tree op => exact Contract.kept_map (treeOp_kept hcall hproper)
      | entry op =>
        rw [← hcall]
        exact entryOp_kept hcall

/-- **In every run, all that is stored and all that is told comes from
somewhere.** On a store whose documents are of the right shape any number of
clients start up and carry out any operations, entries being made at the paths
FUSE makes them at. Their requests are interleaved in any way, and any of them
may be lost, or seem to be, fail for want of memory, or be the last of its
client. Then every document is of the right shape, every mode, size, time, name
and byte in it was there at first or was brought along by a call for the same
path – or is garbage, in a block – and the same is true of what the operations
hand back. -/
theorem documents_of_run [DecidableEq ι] (hs : s.From Origins.anywhere)
    (hproper : ∀ i, (calls i).Proper) {sched : List (ι × Choice)}
    (hsched : ∀ ic ∈ sched, ic.2.Admissible (s.given calls junk clock)) :
    let x := runCalls calls s sched
    x.store.From (s.given calls junk clock)
      ∧ ∀ i a, x.returned i = some a → (calls i).Tells (s.given calls junk clock) a := by
  intro x
  have hx : x.Keeps (s.given calls junk clock).contract
      (fun i => (calls i).Tells (s.given calls junk clock))
      (Store.From (s.given calls junk clock)) :=
    Pool.kept_run (fun c q s hc hs hq => serve_from hc hs hq) hsched
      ⟨hs.given, fun i => call_kept (hproper i)⟩
  exact ⟨hx.store, fun i a h => hx.returned h⟩

end Given

/-- Two clients write to a new file at once, each of them finding no block. The
one stored last wins, with fresh memory where the other had written. -/
theorem documents_of_run_race :
    let f : CString := ['/', 'f']
    let calls : Fin 5 → Call Unit
      | 0 => .startUp ⟨0, 0⟩
      | 1 => .fuse (.fs (.tree (.create f (sIfreg ||| 0o644))))
      | 2 => .fuse (.fs (.entry (.write f [1] 0)))
      | 3 => .fuse (.fs (.entry (.write f [3] 2)))
      | 4 => .fuse (.fs (.entry (.read f 8 1)))
    let sched := Pool.turns (Choice.good ⟨7, 0⟩)
      [0, 0, 0, 0, 1, 1, 1, 1, 2, 3, 2, 3, 2, 3, 2, 2, 2, 4, 4, 4, 4]
    let x := runCalls calls (Store.empty : Store (Option Json)) sched
    let O := (Store.empty : Store (Option Json)).given calls (· = 0) (· = ⟨7, 0⟩)
    x.store.blocks.val f = some [0, 0, 3] ∧ (x.returned 4).map Answer.told = some 2
      ∧ x.store.From O ∧ ∀ i a, x.returned i = some a → (calls i).Tells O a := by
  intro f calls sched x O
  have hf : f.Normalised := .entry (n := ['f']) .top (by decide)
  have hproper : ∀ i, (calls i).Proper := by
    intro i
    match i with
    | 0 => trivial
    | 1 => exact fun _ => ⟨hf, by decide⟩
    | 2 => trivial
    | 3 => trivial
    | 4 => trivial
  have hc : (Choice.good ⟨7, 0⟩).Admissible O :=
    ⟨fun n => rfl, fun ts h => (Option.some.inj h).symm⟩
  have hempty : (Store.empty : Store (Option Json)).From Origins.anywhere :=
    ⟨(fun p v h => by cases h), (fun p v h => by cases h), (fun p v h => by cases h)⟩
  exact ⟨by decide, by decide, documents_of_run hempty hproper (Pool.forall_turns hc _)⟩

end Cbfuse
