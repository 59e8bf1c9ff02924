import Cbfuse.Files
import Cbfuse.Interleave

/-!
# Readers of one file (`read_data`)

A read copies its bytes out of the block and then sets the access time, and
it is the second half that decides what it returns. Setting the access time
is an update of the stat under the CAS it was fetched with. So a read that
has its bytes fails all the same where the stat was replaced in between – by
a change of the mode or the times, or by another read, which replaces it as
well (`readers_disturb`).

The block is not touched by any of these calls, and neither is there a way
for the stat to go. That leaves the one case: where no other replacement of
the stat falls between the two stat requests of a read, every read gets the
bytes there are (`reads_undisturbed_iff`).
-/

namespace Cbfuse

variable {Text ι : Type} {p : CString}

/-! ## The calls -/

/-- A call that reads a file or changes its attributes. -/
inductive ReaderCall where
  /-- `read_data(path, buf, nbuf, offset)` -/
  | read (nbuf : ℕ) (offset : ℤ)
  /-- `cbfuse_chmod(path, mode)` -/
  | chmod (mode : ℕ)
  /-- `cbfuse_utimens(path, tv)` -/
  | utimens (tv : Option (Timespec × Timespec))
  deriving DecidableEq

namespace ReaderCall

/-- The program of a call on the file `p`: its result, and the bytes it
copied to the caller. -/
def code (p : CString) : ReaderCall → Op Text (ℤ × Bytes)
  | read nbuf offset => readData p nbuf offset
  | chmod mode => do return (← cbfuseChmod p mode, [])
  | utimens tv => do return (← cbfuseUtimens p tv, [])

/-- The call is a read that starts within a block of this length, of no more
than a document can hold. -/
def InBlock (len : ℕ) : ReaderCall → Prop
  | read nbuf offset => 0 ≤ offset ∧ offset < len ∧ 1 ≤ nbuf ∧ nbuf ≤ maxDocLen
  | _ => False

instance (len : ℕ) : DecidablePred (InBlock len) := fun call =>
  match call with
  | read nbuf offset =>
    inferInstanceAs (Decidable (0 ≤ offset ∧ offset < len ∧ 1 ≤ nbuf ∧ nbuf ≤ maxDocLen))
  | chmod _ => isFalse id
  | utimens _ => isFalse id

end ReaderCall

/-! ## What the calls leave alone -/

/-- The request is one that leaves the block, and the stat of `p` a struct:
all it may store is the stat of `p`, over the one there is. -/
def Req.AtMostRestats (p : CString) : Req Text → Prop
  | .stats (.get _) => True
  | .stats (.store o k v _) => o = .replace ∧ k = p ∧ ∃ stat, v = .packed stat
  | .stats (.remove _) => False
  | .dentries _ => False
  | .blocks (.get _) => True
  | .blocks _ => False
  | _ => True

/-- Whether the request is to store a stat. -/
def Req.storesStat : Req Text → Bool
  | .stats (.store _ _ _ _) => true
  | _ => false

/-- Whether the request was to store a stat, and was granted. -/
def Req.restated : (q : Req Text) → q.Reply → Bool
  | .stats (.store _ _ _ _), resp => resp.Granted
  | _, _ => false

/-- Whether the request is to fetch a stat. -/
def Req.fetchesStat : Req Text → Bool
  | .stats (.get _) => true
  | _ => false

theorem updateStat_atMostRestats (clock : Bool) (change : Timespec → CbfuseStat → CbfuseStat) :
    (updateStat p clock change : Op Text ℤ).Only (Req.AtMostRestats p) := by
  have hstore : ∀ ts stat cas, (Req.stats (.store .replace p (.packed (change ts stat)) cas)
      : Req Text).AtMostRestats p := fun ts stat cas => ⟨rfl, rfl, _, rfl⟩
  rw [updateStat_eq]
  refine ⟨trivial, fun resp => ?_⟩
  dsimp only
  split
  · trivial
  · trivial
  · unfold replaceStat
    split
    · refine ⟨trivial, fun now => ?_⟩
      cases now with
      | none => trivial
      | some ts => exact ⟨hstore _ _ _, fun _ => trivial⟩
    · exact ⟨hstore _ _ _, fun _ => trivial⟩

theorem ReaderCall.code_atMostRestats (call : ReaderCall) :
    (call.code p : Op Text (ℤ × Bytes)).Only (Req.AtMostRestats p) := by
  cases call with
  | read nbuf offset =>
    refine readData_only trivial (fun q hq => ?_) (updateStat_atMostRestats _ _) nbuf offset
    cases q with
    | malloc n => trivial
    | overread n => trivial
    | _ => exact hq.elim
  | chmod mode => exact Prog.only_bind (updateStat_atMostRestats _ _) (fun _ => trivial)
  | utimens tv => exact Prog.only_bind (updateStat_atMostRestats _ _) (fun _ => trivial)

/-- **A file that is there**: it has a stat, and its block has these
bytes. -/
structure Store.HasFile (s : Store Text) (p : CString) (b : Bytes) : Prop where
  /-- The stat. -/
  stat : ∃ stat, s.stats.val p = some (.packed stat)
  /-- The block. -/
  block : s.blocks.val p = some b

section Serve

variable {s : Store Text} {b : Bytes} {q : Req Text} {c : Choice}

/-- A request either replaces the stat of `p` or touches no document. -/
theorem Req.AtMostRestats.serve (hq : q.AtMostRestats p) (hc : c.Clean) (s : Store Text) :
    (q.restated (Cbfuse.serve c q s).1 = true ∧ ∃ stat, (Cbfuse.serve c q s).2 = s.putStat p stat)
      ∨ (q.restated (Cbfuse.serve c q s).1 = false ∧ (Cbfuse.serve c q s).2 = s) := by
  cases q with
  | stats r =>
    cases r with
    | get k => exact .inr ⟨rfl, congrArg Prod.snd (serve_stats_get c s k)⟩
    | store o k v cas =>
      obtain ⟨rfl, rfl, stat, rfl⟩ := hq
      obtain ⟨hrc, hst, hf, hgr⟩ | ⟨hng, hsame⟩ :=
        Kv.Collection.answer_of_clean hc s.stats (.store .replace k (.packed stat) cas)
      · refine .inl ⟨decide_eq_true ⟨hrc, hst⟩, stat, ?_⟩
        have hserved : c.Served := hf
        simp only [Cbfuse.serve, hserved.answer, (Kv.Collection.serve_store_granted hgr).2]
        rfl
      · exact .inr ⟨decide_eq_false hng, by simp only [Cbfuse.serve, hsame]⟩
    | remove k => exact hq.elim
  | blocks r =>
    cases r with
    | get k => exact .inr ⟨rfl, congrArg Prod.snd (serve_blocks_get c s k)⟩
    | _ => exact hq.elim
  | dentries r => exact hq.elim
  | _ => exact .inr ⟨rfl, rfl⟩

/-- The file stays there. -/
theorem Store.HasFile.serve (h : s.HasFile p b) (hq : q.AtMostRestats p) (hc : c.Clean) :
    (Cbfuse.serve c q s).2.HasFile p b := by
  obtain ⟨-, stat, heq⟩ | ⟨-, heq⟩ := hq.serve hc s
  · rw [heq]
    refine ⟨⟨stat, ?_⟩, h.block⟩
    rw [Store.stats_putStat, Kv.Collection.val_put, if_pos rfl]
  · rwa [heq]

end Serve

/-! ## What happens in between -/

section Trace

variable [DecidableEq ι]

/-- **Whether a stat was replaced since `i` last fetched one.** -/
def overtaken (i : ι) (tr : List (Pool.Event ι (Req Text) Req.Reply)) : Bool :=
  tr.foldl (fun late e =>
    if e.who = i ∧ e.req.fetchesStat = true then false else late || e.req.restated e.reply) false

/-- The number of requests `i` has made. -/
def requests (i : ι) (tr : List (Pool.Event ι (Req Text) Req.Reply)) : ℕ :=
  tr.countP (fun e => e.who = i)

variable (i j : ι) (tr : List (Pool.Event ι (Req Text) Req.Reply)) (q : Req Text) (r : q.Reply)

theorem overtaken_append : overtaken j (tr ++ [⟨i, q, r⟩])
    = if i = j ∧ q.fetchesStat = true then false else overtaken j tr || q.restated r := by
  unfold overtaken
  rw [List.foldl_append]
  rfl

theorem requests_append : requests j (tr ++ [⟨i, q, r⟩])
    = if i = j then requests j tr + 1 else requests j tr := by
  unfold requests
  rw [List.countP_append, List.countP_singleton]
  by_cases hij : i = j <;> simp [hij]

end Trace

/-! ## A read, request by request -/

/-- What a read that has its bytes returns, by the result of the update of
the stat. -/
def endRead (bytes : Bytes) (fresult : ℤ) : Op Text (ℤ × Bytes) :=
  .ret (dataDone (if fresult ≠ 0 then fresult else toInt bytes.length), bytes)

/-- **How far a read has got** that makes its `n`-th request next, given
whether it was overtaken. Once it has fetched the stat, that is still the one
there is unless it was. -/
inductive ReadStage (p : CString) (bytes : Bytes) (call : ReaderCall) (s : Store Text)
    (late : Bool) : ℕ → Op Text (ℤ × Bytes) → Prop where
  /-- It has done nothing. -/
  | begun : ReadStage p bytes call s late 0 (call.code p)
  /-- It has copied its bytes. -/
  | copied : ReadStage p bytes call s late 1 (finishRead p bytes)
  /-- It has fetched the stat. -/
  | fetched (stat : CbfuseStat) (cas : ℕ) (hr : s.stats.Remembers p ⟨.packed stat, cas⟩)
      (hlate : late = false ↔ s.stats.docs p = some ⟨.packed stat, cas⟩) :
      ReadStage p bytes call s late 2
        (replaceStat p true CbfuseStat.touchAtime stat cas >>= endRead bytes)
  /-- It has read the clock. -/
  | stamped (stat new : CbfuseStat) (cas : ℕ) (hr : s.stats.Remembers p ⟨.packed stat, cas⟩)
      (hlate : late = false ↔ s.stats.docs p = some ⟨.packed stat, cas⟩) :
      ReadStage p bytes call s late 3
        (.call (.stats (.store .replace p (.packed new) cas))
          (fun resp => endRead bytes (checkResult (-enoent) resp)))
  /-- It has set the access time. -/
  | done : ReadStage p bytes call s late 4 (.ret (bytes.length, bytes))

section Stage

variable {bytes : Bytes} {call : ReaderCall} {s : Store Text} {late : Bool} {n : ℕ}
  {prog : Op Text (ℤ × Bytes)} {q : Req Text} {c : Choice}

/-- A request of another client leaves a read where it is, overtaken or
not. -/
theorem ReadStage.other (h : ReadStage p bytes call s late n prog) (hq : q.AtMostRestats p)
    (hc : c.Clean) :
    ReadStage p bytes call (serve c q s).2 (late || q.restated (serve c q s).1) n prog := by
  obtain ⟨hrest, stat', heq⟩ | ⟨hrest, heq⟩ := hq.serve hc s
  · -- what was fetched is not the stat any more
    have hnew : ∀ {d}, s.stats.Remembers p d → (s.putStat p stat').stats.Remembers p d
        ∧ (true = false ↔ (s.putStat p stat').stats.docs p = some d) := fun hr =>
      ⟨hr.put p _, iff_of_false (fun h => by cases h) (hr.docs_put_ne _)⟩
    rw [hrest, heq, Bool.or_true]
    cases h with
    | begun => exact .begun
    | copied => exact .copied
    | fetched stat cas hr hlate => exact .fetched stat cas (hnew hr).1 (hnew hr).2
    | stamped stat new cas hr hlate => exact .stamped stat new cas (hnew hr).1 (hnew hr).2
    | done => exact .done
  · rwa [hrest, heq, Bool.or_false]

variable {b : Bytes} {nbuf : ℕ} {offset : ℤ}

/-- A read whose update succeeds returns the number of its bytes. -/
theorem endRead_zero (h : bytes.length ≤ maxDocLen) :
    (endRead bytes 0 : Op Text (ℤ × Bytes)) = .ret (bytes.length, bytes) := by
  unfold endRead
  rw [if_neg (not_not.mpr rfl), dataDone_toInt (Nat.lt_of_le_of_lt h maxDocLen_lt)]

/-- A read whose update fails fails. -/
theorem endRead_of_neg {fresult : ℤ} (h : fresult < 0) :
    (endRead bytes fresult : Op Text (ℤ × Bytes)) = .ret (-1, bytes) := by
  unfold endRead
  rw [if_pos (Int.ne_of_lt h), dataDone_of_neg h]

theorem finishRead_eq (bytes : Bytes) : (finishRead p bytes : Op Text (ℤ × Bytes))
    = .call (.stats (.get p)) (fun resp =>
        match statReply resp with
        | none => .crash
        | some (.error e) => endRead bytes e
        | some (.ok (stat, cas)) =>
          replaceStat p true CbfuseStat.touchAtime stat cas >>= endRead bytes) := by
  show updateStat p true CbfuseStat.touchAtime >>= endRead bytes = _
  rw [updateStat_eq, Prog.call_bind]
  congr 1
  funext resp
  cases statReply resp with
  | none => rfl
  | some r => cases r <;> rfl

/-- **A request of a read.** Where it stores the stat and the read was not
overtaken, it is granted. -/
theorem ReadStage.step {k : q.Reply → Op Text (ℤ × Bytes)}
    (h : ReadStage p ((b.drop offset.toNat).take nbuf) (.read nbuf offset) s late n (.call q k))
    (hin : (ReaderCall.read nbuf offset).InBlock b.length) (hfile : s.HasFile p b)
    (hlen : b.length < 2 ^ 63) (hc : c.FaultFree) (htime : q.storesStat = true → late = false) :
    ReadStage p ((b.drop offset.toNat).take nbuf) (.read nbuf offset) (serve c q s).2
      (if q.fetchesStat = true then false else late || q.restated (serve c q s).1) (n + 1)
      (k (serve c q s).1) := by
  obtain ⟨h0, hoff, hn0, hn⟩ := hin
  have hlim : (maxDocLen : ℤ) < 2 ^ 31 := by decide
  generalize hprog : (Prog.call q k : Op Text (ℤ × Bytes)) = prog at h
  cases h with
  | begun =>
    obtain ⟨k', hk, -, hfound⟩ := @readData_eq Text p nbuf offset
    cases hprog.trans hk
    obtain ⟨d, hd, rfl⟩ := Option.map_eq_some_iff.mp hfile.block
    rw [hc.serve_blocks]
    simp only [Kv.Collection.serve, hd]
    rw [hfound d h0 (by omega) hlen, if_neg (Int.not_le.mpr hoff)]
    exact .copied
  | copied =>
    cases hprog.trans (finishRead_eq _)
    obtain ⟨stat, hstat⟩ := hfile.stat
    obtain ⟨⟨v, cas⟩, hd, rfl⟩ := Option.map_eq_some_iff.mp hstat
    rw [hc.serve_stats]
    simp only [Kv.Collection.serve, hd]
    exact .fetched stat cas (.of_docs hd) (iff_of_true rfl hd)
  | fetched stat cas hr hlate =>
    cases hprog
    obtain ⟨ts, hts⟩ := hc.exists_now
    simp only [serve, hts]
    rw [if_neg (by exact Bool.false_ne_true), show (Req.clockGettime : Req Text).restated _
      = false from rfl, Bool.or_false]
    exact .stamped stat _ cas hr hlate
  | stamped stat new cas hr hlate =>
    cases hprog
    have hd := hlate.mp (htime rfl)
    have hv := hr.verdict_iff.mpr hd
    rw [hc.serve_stats]
    simp only [Kv.Collection.serve, hv]
    rw [show checkResult (-enoent) (⟨⟨none, none, none⟩, true⟩ : Response StatDoc) = 0 from rfl,
      endRead_zero (by rw [List.length_take]; omega)]
    exact .done
  | done => cases hprog

/-- **A read that was overtaken is refused.** -/
theorem ReadStage.refused {k : q.Reply → Op Text (ℤ × Bytes)}
    (h : ReadStage p bytes call s true n (.call q k))
    (hcall : ∃ nbuf offset, call = .read nbuf offset) (hfile : s.HasFile p b) (hc : c.FaultFree)
    (hstore : q.storesStat = true) :
    k (serve c q s).1 = .ret (-1, bytes) := by
  generalize hprog : (Prog.call q k : Op Text (ℤ × Bytes)) = prog at h
  cases h with
  | begun =>
    obtain ⟨nbuf, offset, rfl⟩ := hcall
    obtain ⟨k', hk, -⟩ := @readData_eq Text p nbuf offset
    cases hprog.trans hk
    cases hstore
  | copied =>
    cases hprog.trans (finishRead_eq _)
    cases hstore
  | fetched stat cas hr hlate =>
    cases hprog
    cases hstore
  | stamped stat new cas hr hlate =>
    cases hprog
    obtain ⟨stat', hstat⟩ := hfile.stat
    obtain ⟨d', hd', -⟩ := Option.map_eq_some_iff.mp hstat
    have hne : s.stats.verdict .replace p cas ≠ none := fun hv =>
      Bool.false_ne_true (hlate.mpr (hr.verdict_iff.mp hv)).symm
    obtain ⟨e, hv⟩ := Option.ne_none_iff_exists'.mp hne
    rw [hc.serve_stats]
    simp only [Kv.Collection.serve, hv]
    exact endRead_of_neg (by decide : -enoent < 0)
  | done => cases hprog

end Stage

/-! ## Any number of clients -/

section Clients

variable [DecidableEq ι]

/-- A configuration of readers. -/
abbrev ReadPool (Text ι : Type) := Pool.Config ι (Req Text) Req.Reply (ℤ × Bytes) (Store Text)

/-- A request of one of the clients. -/
abbrev readStep (ic : ι × Choice) (x : ReadPool Text ι) : ReadPool Text ι :=
  Pool.step serve ic.1 ic.2 x

/-- **The reads get what there is** of the block `b`: each of them that starts
within the block has returned the bytes from its offset on, as many as it
asked for or as there are, or has another of its four requests to make. -/
def ReadPool.GetsBytes (calls : ι → ReaderCall) (b : Bytes) (x : ReadPool Text ι) : Prop :=
  ∀ i nbuf offset, calls i = .read nbuf offset → (calls i).InBlock b.length →
    x.returned i
        = some (min (nbuf : ℤ) (b.length - offset), (b.drop offset.toNat).take nbuf)
      ∨ (∃ q k, x.procs i = .call q k) ∧ requests i x.trace < 4

/-- **The stat is the one fetched**: where a read that starts within the block
is about to store the stat, nobody has replaced it since the read fetched
it. -/
def Undisturbed (calls : ι → ReaderCall) (len : ℕ)
    (tr : List (Pool.Event ι (Req Text) Req.Reply)) (_ : Store Text) (i : ι) (_ : Choice)
    (q : Req Text) : Prop :=
  (calls i).InBlock len → q.storesStat = true → overtaken i tr = false

instance (calls : ι → ReaderCall) (len : ℕ) (tr : List (Pool.Event ι (Req Text) Req.Reply))
    (s : Store Text) (i : ι) (c : Choice) (q : Req Text) :
    Decidable (Undisturbed calls len tr s i c q) :=
  inferInstanceAs (Decidable (_ → _ → _))

variable {calls : ι → ReaderCall} {b : Bytes} {x : ReadPool Text ι} {ic : ι × Choice}

/-- **What holds between any two requests**: the file is there, and every read
that starts within the block stands at one of the stages. -/
structure Reading (p : CString) (calls : ι → ReaderCall) (b : Bytes) (x : ReadPool Text ι) :
    Prop where
  /-- The file. -/
  file : x.store.HasFile p b
  /-- The requests to come. -/
  only : ∀ i, (x.procs i).Only (Req.AtMostRestats p)
  /-- The reads. -/
  stage : ∀ i nbuf offset, calls i = .read nbuf offset → (calls i).InBlock b.length →
    ReadStage p ((b.drop offset.toNat).take nbuf) (calls i) x.store (overtaken i x.trace)
      (requests i x.trace) (x.procs i)

/-- A read at one of the stages gets what there is. -/
theorem Reading.getsBytes (h : Reading p calls b x) : x.GetsBytes calls b := by
  intro i nbuf offset hi hin
  have hstage := h.stage i nbuf offset hi hin
  rw [hi] at hin hstage
  obtain ⟨h0, hoff, -, -⟩ := hin
  generalize hn : requests i x.trace = n at hstage ⊢
  generalize hprog : x.procs i = prog at hstage ⊢
  cases hstage with
  | begun =>
    obtain ⟨k, hk, -⟩ := @readData_eq Text p nbuf offset
    exact .inr ⟨⟨_, k, hk⟩, by decide⟩
  | copied => exact .inr ⟨⟨_, _, finishRead_eq _⟩, by decide⟩
  | fetched stat cas hr hlate => exact .inr ⟨⟨_, _, rfl⟩, by decide⟩
  | stamped stat new cas hr hlate => exact .inr ⟨⟨_, _, rfl⟩, by decide⟩
  | done =>
    left
    rw [Pool.Config.returned_eq_some, hprog, List.length_take, List.length_drop]
    congr 2
    omega

/-- **One request where the reads are undisturbed.** -/
theorem Reading.step (h : Reading p calls b x) (hlen : b.length < 2 ^ 63)
    (hc : ic.2.FaultFree)
    (htime : ∀ q k, x.procs ic.1 = .call q k →
      Undisturbed calls b.length x.trace x.store ic.1 ic.2 q) :
    Reading p calls b (readStep ic x) := by
  cases hp : x.procs ic.1 with
  | call q k =>
    have hq := h.only ic.1
    rw [hp] at hq
    refine ⟨?_, Pool.only_step serve h.only ic.1 ic.2, fun i nbuf offset hi hin => ?_⟩
    · rw [readStep, Pool.step_of_call serve hp]
      exact h.file.serve hq.1 hc.clean
    · have hstage := h.stage i nbuf offset hi hin
      rw [readStep, Pool.step_of_call serve hp]
      dsimp only
      rw [overtaken_append, requests_append]
      by_cases hii : ic.1 = i
      · subst hii
        rw [if_pos rfl, if_pos rfl]
        simp only [true_and]
        rw [hp, hi] at hstage
        rw [hi] at hin ⊢
        exact hstage.step hin h.file hlen hc (fun hst => htime q k hp (hi ▸ hin) hst)
      · rw [if_neg (fun he => hii he.1), if_neg hii, if_neg (fun he => hii he.symm)]
        exact hstage.other hq.1 hc.clean
  | _ => rwa [readStep, Pool.step_of_not_call serve (by simp [hp])]

/-- **One request where one is not**: the read fails. -/
theorem Reading.not_getsBytes (h : Reading p calls b x) (hc : ic.2.FaultFree)
    (htime : ¬ ∀ q k, x.procs ic.1 = .call q k →
      Undisturbed calls b.length x.trace x.store ic.1 ic.2 q) :
    ¬ (readStep ic x).GetsBytes calls b := by
  intro hgets
  refine htime (fun q k hp hin hst => ?_)
  by_contra hlate
  have hlate : overtaken ic.1 x.trace = true := (Bool.not_eq_false _).mp hlate
  cases hi : calls ic.1 with
  | read nbuf offset =>
    have hstage := h.stage ic.1 nbuf offset hi hin
    rw [hp, hlate] at hstage
    have hret := hstage.refused ⟨nbuf, offset, hi⟩ h.file hc hst
    have hproc : (readStep ic x).procs ic.1 = .ret (-1, (b.drop offset.toNat).take nbuf) := by
      rw [readStep, Pool.step_of_call serve hp]
      exact (if_pos rfl).trans hret
    obtain hright | ⟨⟨q', k', hcall⟩, -⟩ := hgets ic.1 nbuf offset hi hin
    · rw [Pool.Config.returned_eq_some, hproc] at hright
      have hresult : (-1 : ℤ) = min (nbuf : ℤ) (b.length - offset) :=
        congrArg Prod.fst (Prog.ret.inj hright)
      rw [hi] at hin
      obtain ⟨h0, hoff, -, -⟩ := hin
      omega
    · cases hproc.symm.trans hcall
  | _ => rw [hi] at hin; exact hin

/-- **When readers do not fail.** Any number of clients read one file, change
its mode or set its times, their requests interleaved in any way and none of
them failing but for a CAS that is no longer the one fetched. Every read that
starts within the block gets, in four requests, the bytes from its offset on,
as many as it asked for or as there are – exactly if between the two requests
of such a read for the stat no other client's replacement of it is
granted. -/
theorem reads_undisturbed_iff {s : Store Text} (hfile : s.HasFile p b) (hlen : b.length < 2 ^ 63)
    (calls : ι → ReaderCall) {sched : List (ι × Choice)} (hA : ∀ ic ∈ sched, ic.2.FaultFree) :
    let x₀ : ReadPool Text ι := Pool.start (fun i => (calls i).code p) s
    Machine.Along readStep (ReadPool.GetsBytes calls b) sched x₀
      ↔ Pool.Meets serve (Undisturbed calls b.length) sched x₀ := by
  intro x₀
  have hstart : Reading p calls b x₀ := ⟨hfile, fun i => (calls i).code_atMostRestats,
    fun i nbuf offset _ _ => .begun⟩
  have hg : Machine.Meets readStep (fun ic _ => ic.2.FaultFree) sched x₀ :=
    Machine.meets_of_forall hA
  rw [← Pool.machine_meets]
  exact @Machine.along_iff_meets _ _ readStep (Reading p calls b) (ReadPool.GetsBytes calls b)
    (fun ic _ => ic.2.FaultFree) _ (fun _ h => h.getsBytes)
    (fun _ _ h hc htime => h.step hlen hc htime) (fun _ _ h hc htime => h.not_getsBytes hc htime)
    _ _ hstart hg

end Clients

/-- Two clients read a file one after the other. -/
theorem reads_undisturbed_iff_two :
    let calls : Bool → ReaderCall := fun i => if i then .read 2 0 else .read 9 1
    let sched := Pool.turns (Choice.good ⟨7, 0⟩)
      [true, true, true, true, false, false, false, false]
    let s : Store Unit := (Store.empty.putStat ['/', 'f']
      (rootStat (sIfreg ||| 0o644) ⟨0, 0⟩)).putBlock ['/', 'f'] [1, 2, 3]
    let x₀ : ReadPool Unit Bool := Pool.start (fun i => (calls i).code ['/', 'f']) s
    Machine.Along readStep (ReadPool.GetsBytes calls [1, 2, 3]) sched x₀ := by
  intro calls sched s x₀
  have hfile : s.HasFile ['/', 'f'] [1, 2, 3] := ⟨⟨_, rfl⟩, rfl⟩
  exact (reads_undisturbed_iff hfile (by decide) calls
    (Pool.forall_turns (Choice.faultFree_good _) _)).mpr (by decide)

/-- Two clients read a file. The first sets the access time between the two
requests of the second for the stat, and the second read fails with its
bytes in the buffer. -/
theorem readers_disturb :
    let calls : Bool → ReaderCall := fun _ => .read 3 0
    let sched := Pool.turns (Choice.good ⟨7, 0⟩)
      [true, true, false, false, true, true, false, false]
    let s : Store Unit := (Store.empty.putStat ['/', 'f']
      (rootStat (sIfreg ||| 0o644) ⟨0, 0⟩)).putBlock ['/', 'f'] [1, 2, 3]
    let x₀ : ReadPool Unit Bool := Pool.start (fun i => (calls i).code ['/', 'f']) s
    s.HasFile ['/', 'f'] [1, 2, 3] ∧ (∀ ic ∈ sched, ic.2.FaultFree)
      ∧ (calls false).InBlock 3
      ∧ (Pool.run serve sched x₀).returned true = some (3, [1, 2, 3])
      ∧ (Pool.run serve sched x₀).returned false = some (-1, [1, 2, 3])
      ∧ ¬ Machine.Along readStep (ReadPool.GetsBytes calls [1, 2, 3]) sched x₀ := by
  intro calls sched s x₀
  have hfail : (Pool.run serve sched x₀).returned false = some (-1, [1, 2, 3]) := by decide
  refine ⟨⟨⟨_, rfl⟩, rfl⟩, Pool.forall_turns (Choice.faultFree_good _) _, by decide, by decide,
    hfail, fun h => ?_⟩
  have hin : (calls false).InBlock [1, 2, 3].length := by decide
  have hgets : ReadPool.GetsBytes calls [1, 2, 3] (Pool.run serve sched x₀) := h.final
  obtain hright | ⟨⟨q, k, hcall⟩, -⟩ := hgets false 3 0 rfl hin
  · have hresult := hfail.symm.trans hright
    exact absurd hresult (by decide)
  · rw [Pool.Config.returned_eq_some] at hfail
    cases hfail.symm.trans hcall

end Cbfuse
