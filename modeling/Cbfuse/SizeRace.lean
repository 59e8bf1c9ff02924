import Mathlib.Logic.Function.Basic
import Cbfuse.BlockRace

/-!
# Two clients, one size

The size a write stores is the length of the block it has just stored, and
by the time it is stored the block may have another. The CAS of the stat
does not help: it says that nobody has replaced the stat since it was
fetched, not that the size is still right. So the write that stores its
block first can be the last to store its size, and the size is then that of
a block that is no more (`size_stale`).

A race of two writes goes wrong at one of two requests: a write that does
not lengthen the block it fetched puts it back where it has been lengthened
since, or a write stores its size when the block has another length and the
other write is not going to store that one. Neither can be made good: two
writes that return their lengths leave the right size exactly if neither
happens (`size_iff`).
-/

namespace Cbfuse

variable {Text : Type}

/-! ## The race -/

/-- How far a write has got, and the length it goes by. -/
inductive SizePhase where
  /-- It has fetched nothing. -/
  | idle
  /-- It has fetched a block of this length. -/
  | holding (n : ℕ)
  /-- It has lengthened the block to this length, and has yet to store the
  size. -/
  | owes (n : ℕ)
  /-- It has stored the block, and the size where it had to. -/
  | settled
  /-- It has failed. -/
  | gaveUp
  deriving DecidableEq

/-- The write has not stored its block. -/
def SizePhase.Unstored : SizePhase → Prop
  | idle => True
  | holding _ => True
  | _ => False

/-- **A race of two writes**: the length of the block, the size in the stat,
and how far the two have got. -/
structure Race where
  /-- The length of the block. -/
  len : ℕ
  /-- The size in the stat. -/
  size : Option ℤ
  /-- How far the writes have got. -/
  phase : Bool → SizePhase

namespace Race

open Function (update)

/-- **One request of the write `i`**, whose range ends at `ends`. `Race.Step
ends i r good r'` also says what keeps the race on its course. -/
inductive Step (ends : ℕ) (i : Bool) (r : Race) : Prop → Race → Prop where
  /-- Nothing changes. -/
  | aside : Step ends i r True r
  /-- The block is fetched. -/
  | fetch (h : r.phase i = .idle) :
    Step ends i r True { r with phase := update r.phase i (.holding r.len) }
  /-- The block is stored, longer than it was fetched. -/
  | grow (f : ℕ) (h : r.phase i = .holding f) (hlt : f < ends) :
    Step ends i r True { r with len := ends, phase := update r.phase i (.owes ends) }
  /-- The block is stored, as long as it was fetched. -/
  | rewrite (f : ℕ) (h : r.phase i = .holding f) (hle : ends ≤ f) :
    Step ends i r (r.len = f) { r with len := f, phase := update r.phase i .settled }
  /-- The size is stored. -/
  | resize (n : ℕ) (h : r.phase i = .owes n) :
    Step ends i r (n = r.len ∨ r.phase (!i) = .owes r.len)
      { r with size := some n, phase := update r.phase i .settled }

/-- **The race is on its course**: what a write has fetched, or owes, is the
length of the block as long as the other has not stored, and the size is
right or a write is going to make it so. -/
structure OnCourse (r : Race) : Prop where
  /-- What was fetched is what there is. -/
  held : ∀ i n, r.phase i = .holding n → (r.phase (!i)).Unstored → n = r.len
  /-- What was stored is what there is. -/
  owed : ∀ i n, r.phase i = .owes n → (r.phase (!i)).Unstored → n = r.len
  /-- The size is right, or will be. -/
  size : r.size = some (r.len : ℤ) ∨ ∃ i, r.phase i = .owes r.len

/-- **The race is lost**: both writes have stored, and the only sizes still
to be stored are wrong. -/
structure Lost (r : Race) : Prop where
  /-- Both have stored. -/
  stored : ∀ i, ¬ (r.phase i).Unstored
  /-- What is owed is wrong. -/
  owed : ∀ i n, r.phase i = .owes n → n ≠ r.len
  /-- The size is wrong, or will be. -/
  size : r.size ≠ some (r.len : ℤ) ∨ ∃ i n, r.phase i = .owes n

theorem eq_or_eq_not (i j : Bool) : j = i ∨ j = !i := by
  cases i <;> cases j <;> simp

variable {ends : ℕ} {i : Bool} {r r' : Race} {good : Prop}

/-- What the other write has done is not changed. -/
theorem update_not (f : Bool → SizePhase) (i : Bool) (g : SizePhase) :
    update f i g (!i) = f (!i) := by
  cases i <;> rfl

/-- The other write is owed its size still. -/
theorem owes_update {f : Bool → SizePhase} {n : ℕ} (hi : f i ≠ .owes n) (g : SizePhase)
    (h : ∃ j, f j = .owes n) : ∃ j, update f i g j = .owes n := by
  obtain ⟨j, hj⟩ := h
  obtain rfl | rfl := eq_or_eq_not i j
  · exact absurd hj hi
  · exact ⟨!i, by rw [update_not, hj]⟩

/-- Once a write has stored, only what it owes itself is asked about. -/
theorem onCourse_of_stored {f : Bool → SizePhase} {len : ℕ} {size : Option ℤ} {g : SizePhase}
    (hg : ¬ g.Unstored) (howed : ∀ n, g = .owes n → n = len)
    (hsize : size = some (len : ℤ) ∨ ∃ j, update f i g j = .owes len) :
    OnCourse ⟨len, size, update f i g⟩ := by
  have hother : ∀ j, j = !i → ¬ (update f i g (!j)).Unstored := by
    rintro j rfl
    rwa [Bool.not_not, Function.update_self]
  refine ⟨fun j n hj hst => ?_, fun j n hj hst => ?_, hsize⟩
  · obtain rfl | hj' := eq_or_eq_not i j
    · rw [show g = .holding n from (Function.update_self j g f).symm.trans hj] at hg
      exact absurd trivial hg
    · exact absurd hst (hother j hj')
  · obtain rfl | hj' := eq_or_eq_not i j
    · exact howed n ((Function.update_self j g f).symm.trans hj)
    · exact absurd hst (hother j hj')

/-- Both writes have stored, and what they owe is wrong. -/
theorem lost_of_stored {f : Bool → SizePhase} {len : ℕ} {size : Option ℤ} {g : SizePhase}
    (hg : ¬ g.Unstored) (hother : ¬ (f (!i)).Unstored) (howed : ∀ n, g = .owes n → n ≠ len)
    (howed' : ∀ n, f (!i) = .owes n → n ≠ len)
    (hsize : size ≠ some (len : ℤ) ∨ ∃ j n, update f i g j = .owes n) :
    Lost ⟨len, size, update f i g⟩ := by
  refine ⟨fun j => ?_, fun j n hj => ?_, hsize⟩
  · show ¬ (update f i g j).Unstored
    obtain rfl | rfl := eq_or_eq_not i j
    · rwa [Function.update_self]
    · rwa [update_not]
  · obtain rfl | rfl := eq_or_eq_not i j
    · exact howed n ((Function.update_self j g f).symm.trans hj)
    · exact howed' n ((update_not f i g).symm.trans hj)

/-- **A step that keeps the race on its course.** -/
theorem OnCourse.step (h : r.OnCourse) (hstep : Step ends i r good r') (hgood : good) :
    r'.OnCourse := by
  cases hstep with
  | aside => exact h
  | fetch hi =>
    have hidle : (r.phase i).Unstored := by
      rw [hi]
      trivial
    refine ⟨fun j n hj hst => ?_, fun j n hj hst => ?_, h.size.imp_right
      (owes_update (by rw [hi]; exact fun h => by cases h) _)⟩
    · obtain rfl | rfl := eq_or_eq_not i j
      · cases (Function.update_self j _ r.phase).symm.trans hj
        rfl
      · exact h.held (!i) n ((update_not _ _ _).symm.trans hj) (by rwa [Bool.not_not])
    · obtain rfl | rfl := eq_or_eq_not i j
      · cases (Function.update_self j _ r.phase).symm.trans hj
      · exact h.owed (!i) n ((update_not _ _ _).symm.trans hj) (by rwa [Bool.not_not])
  | grow f hi hlt =>
    refine onCourse_of_stored id (fun n hn => ?_) (.inr ⟨i, Function.update_self ..⟩)
    cases hn
    rfl
  | rewrite f hi hle =>
    obtain rfl : r.len = f := hgood
    exact onCourse_of_stored id (fun n hn => by cases hn) (h.size.imp_right
      (owes_update (by rw [hi]; exact fun h => by cases h) _))
  | resize n hi =>
    refine onCourse_of_stored id (fun n hn => by cases hn) ?_
    obtain rfl | hother := hgood
    · exact .inl rfl
    · exact .inr ⟨!i, by rw [update_not, hother]⟩

/-- **A step that does not loses it.** -/
theorem OnCourse.lost (h : r.OnCourse) (hstep : Step ends i r good r') (hbad : ¬ good) :
    r'.Lost := by
  cases hstep with
  | rewrite f hi hle =>
    have hunstored : (r.phase (!(!i))).Unstored := by
      rw [Bool.not_not, hi]
      trivial
    -- the block was lengthened since it was fetched, so the other write has stored
    refine lost_of_stored id (fun hst => hbad (h.held i f hi hst).symm) (fun n hn => by cases hn)
      (fun n hn hnf => hbad ?_) ?_
    · rw [← h.owed (!i) n hn hunstored, hnf]
    · obtain hs | ⟨j, hj⟩ := h.size
      · refine .inl (fun hf => hbad ?_)
        exact Int.ofNat.inj (Option.some.inj (hs.symm.trans hf))
      · obtain ⟨j', hj'⟩ := owes_update (by rw [hi]; exact fun h => by cases h) .settled ⟨j, hj⟩
        exact .inr ⟨j', r.len, hj'⟩
  | resize n hi =>
    obtain ⟨hne, hother⟩ := not_or.mp hbad
    refine lost_of_stored id (fun hst => hne (h.owed i n hi hst)) (fun n hn => by cases hn)
      (fun m hm hml => hother (by rw [hm, hml])) (.inl (fun hs => hne ?_))
    exact Int.ofNat.inj (Option.some.inj hs)
  | _ => exact absurd trivial hbad

/-- **A lost race stays lost.** -/
theorem Lost.step (h : r.Lost) (hstep : Step ends i r good r') : r'.Lost := by
  have hno : ∀ {g : SizePhase}, r.phase i = g → ¬ g.Unstored := fun hg hst =>
    h.stored i (by rwa [hg])
  cases hstep with
  | aside => exact h
  | fetch hi => exact absurd trivial (hno hi)
  | grow f hi hlt => exact absurd trivial (hno hi)
  | rewrite f hi hle => exact absurd trivial (hno hi)
  | resize n hi =>
    refine lost_of_stored id (h.stored _) (fun n hn => by cases hn) (h.owed _)
      (.inl (fun hs => h.owed i n hi ?_))
    exact Int.ofNat.inj (Option.some.inj hs)

/-- **Where both writes are settled** the race is on its course exactly if
the size is right. -/
theorem OnCourse.size_eq (h : r.OnCourse) (hsettled : ∀ i, r.phase i = .settled) :
    r.size = some (r.len : ℤ) := by
  refine h.size.resolve_right (fun ⟨i, hi⟩ => ?_)
  cases (hsettled i).symm.trans hi

theorem Lost.size_ne (h : r.Lost) (hsettled : ∀ i, r.phase i = .settled) :
    r.size ≠ some (r.len : ℤ) := by
  refine h.size.resolve_right (fun ⟨i, n, hi⟩ => ?_)
  cases (hsettled i).symm.trans hi

end Race

/-! ## A write as a protocol -/

/-- **What a write of `n` bytes up to `ends` does about the sizes of `p`**:
it fetches the block, stores it as long as it was or up to `ends`, and
stores `ends` as the size where it lengthened it. It returns its length only
if all that was granted. -/
def sizeProtocol (p : CString) (ends n : ℕ) :
    Protocol (Req Text) Req.Reply ℤ SizePhase where
  start := .idle
  allow g q :=
    match q with
    | .stats (.get _) => True
    | .stats (.store o k v _) => o = .replace ∧ k = p ∧ ∃ stat n, g = .owes n ∧ v = .packed stat
        ∧ stat.stSize = n
    | .stats (.remove _) => False
    | .dentries _ => False
    | .blocks (.get k) => k = p ∧ g = .idle
    | .blocks (.store o k b cas) => o = .upsert ∧ k = p ∧ cas = 0 ∧ ∃ f, g = .holding f
        ∧ b.length = max f ends
    | .blocks (.remove _) => False
    | _ => True
  next g q r :=
    match q, r with
    | .stats (.store _ _ _ _), resp => if resp.Granted then .settled else .gaveUp
    | .blocks (.get _), resp =>
      match Rmw.docSeen resp.toReply with
      | some v => .holding (v.getD []).length
      | none => .gaveUp
    | .blocks (.store _ _ _ _), resp =>
      if resp.Granted then
        match g with
        | .holding f => if f < ends then .owes ends else .settled
        | g => g
      else .gaveUp
    | _, _ => g
  final g r := r = n → g = .settled

section Follows

variable {p : CString} {data : Bytes} {offset : ℤ}

/-- The protocol of the write of `data` at `offset`. -/
abbrev sizeProtocolOf (p : CString) (data : Bytes) (offset : ℤ) :
    Protocol (Req Text) Req.Reply ℤ SizePhase :=
  sizeProtocol p (offset.toNat + data.length) data.length

/-- A write that has failed returns `-1`. -/
theorem failed_follows {fr : ℤ} (hfr : fr < 0) (g : SizePhase) :
    (sizeProtocolOf p data offset).Follows g (.ret (dataDone fr) : Op Text ℤ) := by
  intro h
  rw [dataDone_of_neg hfr] at h
  omega

theorem finishWrite_failed {fr : ℤ} (hfr : fr < 0) (m : ℕ) (g : SizePhase) :
    (sizeProtocolOf p data offset).Follows g
      (finishWrite p data.length (fr, m) : Op Text ℤ) := by
  unfold finishWrite
  rw [if_pos (Int.ne_of_lt hfr)]
  exact failed_follows hfr g

/-- The two checks after a request give zero, or an error. -/
theorem checkResult_neg {V : Type} {resp : Response V} (h : ¬ resp.Granted) :
    checkResult (-enoent) resp < 0 := by
  have hio : (-eio : ℤ) < 0 := by decide
  have hnoent : (-enoent : ℤ) < 0 := by decide
  unfold checkResult
  split
  · exact hio
  · next hrc =>
    split
    · exact hnoent
    · next hst => exact absurd ⟨not_not.mp hrc, not_not.mp hst⟩ h

/-- The end of a write that has lengthened the block. -/
theorem updateStatSize_follows {m : ℕ} (hm : m ≤ maxFileLen) {fresult : ℤ} :
    (sizeProtocolOf p data offset).Follows (.owes m)
      (updateStatSize p m >>= (fun r =>
        if r ≠ 0 then .ret (dataDone r) else .ret fresult) : Op Text ℤ) := by
  have hfail : ∀ (r : ℤ) (g : SizePhase), r < 0 → (sizeProtocolOf p data offset).Follows g
      (if r ≠ 0 then .ret (dataDone r) else .ret fresult : Op Text ℤ) := by
    intro r g hr
    rw [if_pos (Int.ne_of_lt hr)]
    exact failed_follows hr g
  unfold updateStatSize
  rw [updateStat_eq, Prog.call_bind]
  refine ⟨trivial, fun resp => ?_⟩
  show (sizeProtocolOf p data offset).Follows (.owes m) _
  beta_reduce
  cases hr : statReply resp with
  | none => trivial
  | some r =>
    cases r with
    | error e => exact hfail e _ (statReply_error_neg hr)
    | ok r =>
      obtain ⟨stat, cas⟩ := r
      show (sizeProtocolOf p data offset).Follows (.owes m)
        (replaceStat p true (CbfuseStat.resize m) stat cas >>= _)
      unfold replaceStat
      rw [if_pos rfl, Prog.call_bind]
      refine ⟨trivial, fun now => ?_⟩
      show (sizeProtocolOf p data offset).Follows (.owes m) _
      cases now with
      | none =>
        have hio : (-eio : ℤ) < 0 := by decide
        exact hfail _ _ hio
      | some ts =>
        have hsize : (stat.resize m ts).stSize = m := by
          rw [CbfuseStat.stSize_resize]
          have hlim : (maxFileLen : ℤ) < 2 ^ 63 := by decide
          exact toOffT_of_lt (by omega) (by omega)
        refine ⟨⟨rfl, rfl, _, m, rfl, rfl, hsize⟩, fun resp => ?_⟩
        show (sizeProtocolOf p data offset).Follows
          (if resp.Granted then .settled else .gaveUp)
          (if checkResult (-enoent) resp ≠ 0 then .ret (dataDone (checkResult (-enoent) resp))
            else .ret fresult)
        split
        · split <;> exact fun _ => rfl
        · next hgr => exact hfail _ _ (checkResult_neg hgr)

/-- The store of a block as long as it was fetched, or up to the end of the
write. -/
theorem upsert_size_follows {b : Bytes} {f m : ℕ} (hmax : offset.toNat + data.length ≤ maxFileLen)
    (hd : data ≠ []) (hb : b.length = max f (offset.toNat + data.length))
    (hm : m = if f < offset.toNat + data.length then offset.toNat + data.length else 0) :
    ((sizeProtocolOf p data offset).before (finishWrite p data.length)).Follows (.holding f)
      (.call (.blocks (.store .upsert p b 0)) (fun resp => .ret (upsertReply resp, m))
        : Op Text (ℤ × ℕ)) := by
  have hpos : 0 < data.length := List.length_pos_of_ne_nil hd
  refine ⟨⟨rfl, rfl, rfl, f, rfl, hb⟩, fun resp => ?_⟩
  show (sizeProtocolOf p data offset).Follows
    (if resp.Granted then
      if f < offset.toNat + data.length then .owes (offset.toNat + data.length) else .settled
      else .gaveUp)
    (finishWrite p data.length (upsertReply resp, m))
  obtain ⟨h0, hgr⟩ | ⟨hneg, hgr⟩ := upsertReply_cases resp
  · rw [if_pos (show resp.Granted from hgr), h0, hm]
    unfold finishWrite
    rw [if_neg (not_not.mpr rfl)]
    split
    · rw [if_pos (by omega)]
      exact updateStatSize_follows hmax
    · rw [if_neg (not_not.mpr rfl)]
      exact fun _ => rfl
  · rw [if_neg (show ¬ resp.Granted from hgr)]
    exact finishWrite_failed hneg _ _

/-- **A write keeps to the protocol.** -/
theorem writeData_size_follows (hd : data ≠ []) (h0 : 0 ≤ offset)
    (hmax : offset + data.length ≤ maxFileLen) :
    (sizeProtocolOf p data offset).Follows .idle (writeData p data offset : Op Text ℤ) := by
  have hlim : offset.toNat + data.length ≤ maxFileLen := by omega
  refine @write_follows _ p data offset _ _ _ .gaveUp (fun v => .holding (v.getD []).length)
    hd h0 hmax ⟨rfl, rfl⟩ (fun resp => ?_) (fun v n => ⟨trivial, fun _ => rfl⟩)
    (fun n => ⟨trivial, fun _ => rfl⟩) (fun g n _ hneg => finishWrite_failed hneg n g)
    (fun v b n hw hn => upsert_size_follows hlim hd hw.length hn)
  cases hseen : Rmw.docSeen resp.toReply with
  | none => simp only [sizeProtocol, hseen]
  | some v => simp only [sizeProtocol, hseen]

end Follows

/-! ## The race in the store -/

/-- The size in the stat of `p`, if there is a stat. -/
def Store.sizeIn (s : Store Text) (p : CString) : Option ℤ :=
  match s.stats.val p with
  | some (.packed stat) => some stat.stSize
  | _ => none

section Clients

variable {p : CString} {ends lens : Bool → ℕ}

/-- How far a write has got, by the trace. -/
abbrev sizePhase (p : CString) (ends lens : Bool → ℕ)
    (tr : List (Pool.Event Bool (Req Text) Req.Reply)) (i : Bool) : SizePhase :=
  (sizeProtocol p (ends i) (lens i)).phase i tr

/-- **The race between requests.** -/
def raceOf (p : CString) (ends lens : Bool → ℕ)
    (tr : List (Pool.Event Bool (Req Text) Req.Reply)) (s : Store Text) : Race where
  len := (s.bytesOf p).length
  size := s.sizeIn p
  phase := sizePhase p ends lens tr

/-- **No stale length**: a write that does not lengthen the block it fetched
stores it only where it is still as long; and a write stores its size only
where that is the length of the block, or where the other write has stored a
block of the length there is and has yet to store its size. -/
def KeepsSize (p : CString) (ends lens : Bool → ℕ)
    (tr : List (Pool.Event Bool (Req Text) Req.Reply)) (s : Store Text) (i : Bool) (_ : Choice)
    (q : Req Text) : Prop :=
  match q with
  | .blocks (.store _ _ _ _) => ∀ f, sizePhase p ends lens tr i = .holding f →
    f < ends i ∨ (s.bytesOf p).length = f
  | .stats (.store _ _ _ _) => ∀ n, sizePhase p ends lens tr i = .owes n →
    n = (s.bytesOf p).length ∨ sizePhase p ends lens tr (!i) = .owes (s.bytesOf p).length
  | _ => True

variable {tr : List (Pool.Event Bool (Req Text) Req.Reply)} {s : Store Text} {i : Bool}
  {c : Choice}

/-- The race after a request: a new store, and a new phase of one write. -/
theorem raceOf_append (q : Req Text) (r : q.Reply) (s' : Store Text) :
    raceOf p ends lens (tr ++ [⟨i, q, r⟩]) s'
      = ⟨(s'.bytesOf p).length, s'.sizeIn p, Function.update (sizePhase p ends lens tr) i
          ((sizeProtocol p (ends i) (lens i)).next (sizePhase p ends lens tr i) q r)⟩ := by
  unfold raceOf
  congr 1
  exact Protocol.phases_append (fun i => sizeProtocol p (ends i) (lens i)) tr ⟨i, q, r⟩

/-- A request that changes neither the store nor the phase. -/
theorem raceOf_aside {q : Req Text} {r : q.Reply} {s' : Store Text}
    (hstats : s'.stats.val = s.stats.val) (hblocks : s'.blocks.val = s.blocks.val)
    (hnext : (sizeProtocol p (ends i) (lens i)).next (sizePhase p ends lens tr i) q r
      = sizePhase p ends lens tr i) :
    raceOf p ends lens (tr ++ [⟨i, q, r⟩]) s' = raceOf p ends lens tr s := by
  rw [raceOf_append, hnext, Function.update_eq_self]
  unfold raceOf Store.bytesOf Store.sizeIn
  rw [hstats, hblocks]

/-- A fetch of the block, served. -/
theorem raceStep_get (hc : c.Served) (hidle : sizePhase p ends lens tr i = .idle) :
    Race.Step (ends i) i (raceOf p ends lens tr s) True
      (raceOf p ends lens (tr ++ [⟨i, .blocks (.get p), (serve c (.blocks (.get p)) s).1⟩])
        (serve c (.blocks (.get p)) s).2) := by
  have hseen : Rmw.docSeen (serve c (.blocks (.get p)) s).1.toReply
      = some (s.blocks.val p) := by
    simp only [serve, hc.answer]
    exact Rmw.docSeen_serve s.blocks p
  have hstore : (serve c (.blocks (.get p)) s).2 = s :=
    congrArg Prod.snd (serve_blocks_get c s p)
  have hnext : (@sizeProtocol Text p (ends i) (lens i)).next (sizePhase p ends lens tr i)
      (.blocks (.get p)) (serve c (.blocks (.get p)) s).1 = .holding (s.bytesOf p).length := by
    simp only [sizeProtocol, hseen, Store.bytesOf]
  rw [raceOf_append, hnext, hstore]
  exact Race.Step.fetch (r := raceOf p ends lens tr s) hidle

/-- A store of the block, served: what was fetched comes back, or a longer
block. -/
theorem raceStep_store (hc : c.Served) {b : Bytes} {f : ℕ}
    (hhold : sizePhase p ends lens tr i = .holding f) (hb : b.length = max f (ends i)) :
    ∃ good, Race.Step (ends i) i (raceOf p ends lens tr s) good
        (raceOf p ends lens (tr ++ [⟨i, .blocks (.store .upsert p b 0),
          (serve c (.blocks (.store .upsert p b 0)) s).1⟩])
          (serve c (.blocks (.store .upsert p b 0)) s).2)
      ∧ (good ↔ (f < ends i ∨ (s.bytesOf p).length = f)) := by
  have hserve : serve c (.blocks (.store .upsert p b 0)) s
      = (⟨⟨none, none, none⟩, c.alloc⟩, s.putBlock p b) := by
    simp only [serve, hc.answer, Kv.Collection.serve, Kv.Collection.verdict_upsert_zero]
    rfl
  have hgr : (⟨⟨none, none, none⟩, c.alloc⟩ : Response Bytes).Granted := ⟨rfl, rfl⟩
  have hlen : ((s.putBlock p b).bytesOf p).length = max f (ends i) := by
    rw [← hb, Store.bytesOf, Store.blocks_putBlock, Kv.Collection.val_put, if_pos rfl,
      Option.getD_some]
  have hsize : (s.putBlock p b).sizeIn p = s.sizeIn p := rfl
  have hnext : (@sizeProtocol Text p (ends i) (lens i)).next (sizePhase p ends lens tr i)
      (.blocks (.store .upsert p b 0)) ⟨⟨none, none, none⟩, c.alloc⟩
      = if f < ends i then .owes (ends i) else .settled := by
    rw [hhold]
    simp only [sizeProtocol, if_pos hgr]
  rw [hserve, raceOf_append, hnext, hlen, hsize]
  by_cases hlt : f < ends i
  · rw [if_pos hlt, Nat.max_eq_right (Nat.le_of_lt hlt)]
    exact ⟨_, Race.Step.grow (r := raceOf p ends lens tr s) f hhold hlt,
      iff_of_true trivial (.inl hlt)⟩
  · have hle : ends i ≤ f := Nat.le_of_not_lt hlt
    rw [if_neg hlt, Nat.max_eq_left hle]
    exact ⟨_, Race.Step.rewrite (r := raceOf p ends lens tr s) f hhold hle,
      (or_iff_right hlt).symm⟩

/-- A store of the size, served: it is stored, or the write has failed. -/
theorem raceStep_resize (hc : c.Served) {stat : CbfuseStat} {n cas : ℕ}
    (howes : sizePhase p ends lens tr i = .owes n) (hn : stat.stSize = n) :
    Race.Step (ends i) i (raceOf p ends lens tr s)
        (n = (s.bytesOf p).length ∨ sizePhase p ends lens tr (!i) = .owes (s.bytesOf p).length)
        (raceOf p ends lens (tr ++ [⟨i, .stats (.store .replace p (.packed stat) cas),
          (serve c (.stats (.store .replace p (.packed stat) cas)) s).1⟩])
          (serve c (.stats (.store .replace p (.packed stat) cas)) s).2)
      ∨ sizePhase p ends lens (tr ++ [⟨i, .stats (.store .replace p (.packed stat) cas),
          (serve c (.stats (.store .replace p (.packed stat) cas)) s).1⟩]) i = .gaveUp := by
  by_cases hgr : (serve c (.stats (.store .replace p (.packed stat) cas)) s).1.Granted
  · have hput : (serve c (.stats (.store .replace p (.packed stat) cas)) s).2
        = s.putStat p stat := by
      have hok := (Kv.Collection.serve_of_granted hgr.1 hgr.2).2
      have hput := (Kv.Collection.serve_store_granted hok).2
      simp only [serve, hc.answer, hput]
      rfl
    have hsize : (s.putStat p stat).sizeIn p = some (n : ℤ) := by
      rw [Store.sizeIn, Store.stats_putStat, Kv.Collection.val_put, if_pos rfl]
      exact congrArg some hn
    rw [raceOf_append, hput, hsize]
    refine .inl ?_
    rw [show (sizeProtocol p (ends i) (lens i)).next (sizePhase p ends lens tr i)
      (.stats (.store .replace p (.packed stat) cas)) _ = .settled from if_pos hgr]
    exact Race.Step.resize (r := raceOf p ends lens tr s) n howes
  · refine .inr ?_
    unfold sizePhase
    rw [Protocol.phase_append, if_pos rfl]
    exact if_neg hgr

/-- **Every request of the pool is a step of the race**, and keeps it on its
course exactly if it keeps to the condition; or its write has failed. -/
theorem raceStep_of_allow (hc : c.Served) {q : Req Text}
    (hallow : (sizeProtocol p (ends i) (lens i)).allow (sizePhase p ends lens tr i) q) :
    (∃ good, Race.Step (ends i) i (raceOf p ends lens tr s) good
        (raceOf p ends lens (tr ++ [⟨i, q, (serve c q s).1⟩]) (serve c q s).2)
      ∧ (good ↔ KeepsSize p ends lens tr s i c q))
      ∨ sizePhase p ends lens (tr ++ [⟨i, q, (serve c q s).1⟩]) i = .gaveUp := by
  have haside : raceOf p ends lens (tr ++ [⟨i, q, (serve c q s).1⟩]) (serve c q s).2
        = raceOf p ends lens tr s → KeepsSize p ends lens tr s i c q →
      ∃ good, Race.Step (ends i) i (raceOf p ends lens tr s) good
          (raceOf p ends lens (tr ++ [⟨i, q, (serve c q s).1⟩]) (serve c q s).2)
        ∧ (good ↔ KeepsSize p ends lens tr s i c q) := by
    intro hsame hkeeps
    rw [hsame]
    exact ⟨True, .aside, iff_of_true trivial hkeeps⟩
  cases q with
  | stats req =>
    cases req with
    | get k =>
      refine .inl (haside (raceOf_aside ?_ rfl rfl) trivial)
      rw [serve_stats_get]
    | store o k v cas =>
      obtain ⟨rfl, rfl, stat, n, howes, rfl, hn⟩ := hallow
      refine (raceStep_resize hc howes hn).imp_left (fun hstep => ⟨_, hstep, ?_⟩)
      refine ⟨fun h m hm => ?_, fun h => h n howes⟩
      cases howes.symm.trans hm
      exact h
    | remove k => exact hallow.elim
  | dentries req => exact hallow.elim
  | blocks req =>
    cases req with
    | get k =>
      obtain ⟨rfl, hidle⟩ := hallow
      exact .inl ⟨True, raceStep_get hc hidle, iff_of_true trivial trivial⟩
    | store o k b cas =>
      obtain ⟨rfl, rfl, rfl, f, hhold, hb⟩ := hallow
      obtain ⟨good, hstep, hgood⟩ := @raceStep_store _ k ends lens tr s i c hc b f hhold hb
      refine .inl ⟨good, hstep, hgood.trans ⟨fun h f' hf' => ?_, fun h => h f hhold⟩⟩
      cases hhold.symm.trans hf'
      exact h
    | remove k => exact hallow.elim
  | _ => exact .inl (haside (raceOf_aside rfl rfl rfl) trivial)

/-- A write that has failed makes no request that matters. -/
theorem gaveUp_append {q : Req Text} {r : q.Reply}
    (hallow : (sizeProtocol p (ends i) (lens i)).allow (sizePhase p ends lens tr i) q) {j : Bool}
    (h : sizePhase p ends lens tr j = .gaveUp) :
    sizePhase p ends lens (tr ++ [⟨i, q, r⟩]) j = .gaveUp := by
  unfold sizePhase
  rw [Protocol.phase_append]
  split
  · next hij =>
    obtain rfl : i = j := hij
    rw [h] at hallow
    show (sizeProtocol p (ends i) (lens i)).next (sizePhase p ends lens tr i) q r = .gaveUp
    rw [h]
    cases q with
    | stats req =>
      cases req with
      | get k => rfl
      | store o k v cas =>
        obtain ⟨-, -, stat, n, hn, -⟩ := hallow
        cases hn
      | remove k => exact hallow.elim
    | dentries req => exact hallow.elim
    | blocks req =>
      cases req with
      | get k => cases hallow.2
      | store o k b cas =>
        obtain ⟨-, -, -, f, hf, -⟩ := hallow
        cases hf
      | remove k => exact hallow.elim
    | _ => rfl
  · exact h

/-- **A run of the race**: a write has failed, or the race is on its course
or lost according to whether every request kept to the condition. -/
theorem race_decides {sched : List (Bool × Choice)} (hserved : ∀ ic ∈ sched, ic.2.Served)
    {x : Pool.Config Bool (Req Text) Req.Reply ℤ (Store Text)}
    (hcode : x.Conforms (fun i => sizeProtocol p (ends i) (lens i)))
    (h : (raceOf p ends lens x.trace x.store).OnCourse) :
    let y := Pool.run serve sched x
    (∃ i, sizePhase p ends lens y.trace i = .gaveUp)
      ∨ (Pool.Meets serve (KeepsSize p ends lens) sched x
        ∧ (raceOf p ends lens y.trace y.store).OnCourse)
      ∨ (¬ Pool.Meets serve (KeepsSize p ends lens) sched x
        ∧ (raceOf p ends lens y.trace y.store).Lost) := by
  intro y
  have hrun := @Pool.run_decides Bool (Req Text) Req.Reply ℤ SizePhase (Store Text) Choice _ serve
    (fun i => sizeProtocol p (ends i) (lens i)) Choice.Served (KeepsSize p ends lens)
    (fun tr s => (raceOf p ends lens tr s).OnCourse ∨ ∃ i, sizePhase p ends lens tr i = .gaveUp)
    (fun tr s => (raceOf p ends lens tr s).Lost ∨ ∃ i, sizePhase p ends lens tr i = .gaveUp)
    ?_ ?_ ?_ sched x hserved hcode (.inl h)
  · obtain ⟨hmeets, hend | hup⟩ | ⟨hmeets, hend | hup⟩ := hrun
    · exact .inr (.inl ⟨hmeets, hend⟩)
    · exact .inl hup
    · exact .inr (.inr ⟨hmeets, hend⟩)
    · exact .inl hup
  · rintro tr s i q c hc hallow hkeeps (h | ⟨j, hj⟩)
    · obtain ⟨good, hstep, hgood⟩ | hup :=
        @raceStep_of_allow _ p ends lens tr s i c hc q hallow
      · exact .inl (h.step hstep (hgood.mpr hkeeps))
      · exact .inr ⟨i, hup⟩
    · exact .inr ⟨j, gaveUp_append hallow hj⟩
  · rintro tr s i q c hc hallow hbad (h | ⟨j, hj⟩)
    · obtain ⟨good, hstep, hgood⟩ | hup :=
        @raceStep_of_allow _ p ends lens tr s i c hc q hallow
      · exact .inl (h.lost hstep (fun hg => hbad (hgood.mp hg)))
      · exact .inr ⟨i, hup⟩
    · exact .inr ⟨j, gaveUp_append hallow hj⟩
  · rintro tr s i q c hc hallow (h | ⟨j, hj⟩)
    · obtain ⟨good, hstep, -⟩ | hup := @raceStep_of_allow _ p ends lens tr s i c hc q hallow
      · exact .inl (h.step hstep)
      · exact .inr ⟨i, hup⟩
    · exact .inr ⟨j, gaveUp_append hallow hj⟩

section Run

variable {data : Bool → Bytes} {offset : Bool → ℤ}

/-- A write past the limit does not return its length. -/
theorem fits_of_returned (h0 : ∀ i, 0 ≤ offset i) (hrep : ∀ i, offset i + (data i).length < 2 ^ 64)
    (sched : List (Bool × Choice)) (hret : (Pool.run serve sched
      (Pool.start (fun i => (writeData p (data i) (offset i) : Op Text ℤ)) s)).returned i
        = some (data i).length) :
    offset i + (data i).length ≤ maxFileLen := by
  by_contra hbig
  have hover : toSizeT (offset i + (data i).length) > maxFileLen := by
    have h0i := h0 i
    have h := toSizeT_of_lt (i := offset i + (data i).length) (by omega) (hrep i)
    omega
  have hstart : (Pool.start (fun i => (writeData p (data i) (offset i) : Op Text ℤ)) s).returned i
      = some (-1) := by
    rw [Pool.Config.returned_eq_some]
    show (writeData p (data i) (offset i) : Op Text ℤ) = .ret (-1)
    unfold writeData
    rw [if_pos hover]
    rfl
  have hend := (Pool.returned_run serve sched hstart).symm.trans hret
  have hlen : (-1 : ℤ) = (data i).length := Option.some.inj hend
  omega

/-- **When concurrent growth leaves the right size.** Two clients write to
one file whose size is the length of its block, their requests interleaved
in any way and none failing on its own, and both calls return their length.
Then the size in the stat is the length of the stored block exactly if no
write puts back a block that has been lengthened since it fetched it, and
none stores a size that is not the length of the block where the other is
not about to store that one. -/
theorem size_iff (hd : ∀ i, data i ≠ []) (h0 : ∀ i, 0 ≤ offset i)
    (hrep : ∀ i, offset i + (data i).length < 2 ^ 64)
    (hsize : s.sizeIn p = some ((s.bytesOf p).length : ℤ)) {sched : List (Bool × Choice)}
    (hserved : ∀ ic ∈ sched, ic.2.Served)
    (hret : ∀ i, (Pool.run serve sched
      (Pool.start (fun i => writeData p (data i) (offset i)) s)).returned i
        = some (data i).length) :
    let x₀ := Pool.start (fun i => writeData p (data i) (offset i)) s
    let x := Pool.run serve sched x₀
    x.store.sizeIn p = some ((x.store.bytesOf p).length : ℤ)
      ↔ Pool.Meets serve (KeepsSize p (fun i => (offset i).toNat + (data i).length)
        (fun i => (data i).length)) sched x₀ := by
  intro x₀ x
  have hcode : x₀.Conforms (fun i => sizeProtocolOf p (data i) (offset i)) := fun i =>
    writeData_size_follows (hd i) (h0 i) (fits_of_returned h0 hrep sched (hret i))
  let ends (i : Bool) : ℕ := (offset i).toNat + (data i).length
  let lens (i : Bool) : ℕ := (data i).length
  -- at the end both writes are settled
  have hsettled : ∀ i, sizePhase p ends lens x.trace i = .settled := by
    intro i
    have hi := hcode.run serve sched i
    rw [Pool.Config.returned_eq_some.mp (hret i)] at hi
    exact hi rfl
  have hstart : (raceOf p ends lens x₀.trace x₀.store).OnCourse :=
    ⟨fun i n hi => (by cases hi), fun i n hi => (by cases hi), .inl hsize⟩
  obtain ⟨i, hi⟩ | ⟨hmeets, hend⟩ | ⟨hmeets, hend⟩ :=
    @race_decides _ p ends lens sched hserved x₀ hcode hstart
  · cases (hsettled i).symm.trans hi
  · exact iff_of_true (hend.size_eq hsettled) hmeets
  · exact iff_of_false (hend.size_ne hsettled) hmeets

end Run

end Clients

/-- One client writes the fourth byte of a file of three, the other the
fifth. -/
def appends (i : Bool) : Bytes × ℤ := if i then ([7], 3) else ([9], 4)

theorem appends_asked (i : Bool) :
    (appends i).1 ≠ [] ∧ 0 ≤ (appends i).2 ∧ (appends i).2 + (appends i).1.length < 2 ^ 64 := by
  cases i <;> decide

/-- The second client writes when the first is done. -/
theorem size_iff_inTurn :
    let g := Choice.good ⟨0, 0⟩
    let sched := Pool.turns g ((List.replicate 6 true) ++ List.replicate 6 false)
    let x₀ := Pool.start (fun i => writeData ['/', 'f'] (appends i).1 (appends i).2) threeBytes
    (Pool.run serve sched x₀).store.sizeIn ['/', 'f'] = some 5
      ∧ Pool.Meets serve (KeepsSize ['/', 'f'] (fun i => (appends i).2.toNat + (appends i).1.length)
        (fun i => (appends i).1.length)) sched x₀ := by
  intro g sched x₀
  have hsize : (Pool.run serve sched x₀).store.sizeIn ['/', 'f'] = some 5 := by decide +kernel
  refine ⟨hsize, (@size_iff _ ['/', 'f'] threeBytes (fun i => (appends i).1)
    (fun i => (appends i).2) (fun i => (appends_asked i).1) (fun i => (appends_asked i).2.1)
    (fun i => (appends_asked i).2.2) (by decide) sched
    (Pool.forall_turns (A := Choice.Served) (c := g) rfl _) (fun i => ?_)).mp ?_⟩
  · cases i <;> decide +kernel
  · decide +kernel

/-- The first client stores its block, the second appends to it, and the
first is last to store its size: both calls return their length, and the
size is four where the block has five bytes. -/
theorem size_stale :
    let g := Choice.good ⟨0, 0⟩
    let sched := Pool.turns g ([true, true, true] ++ List.replicate 6 false ++ [true, true, true])
    let x := Pool.run serve sched
      (Pool.start (fun i => writeData ['/', 'f'] (appends i).1 (appends i).2) threeBytes)
    threeBytes.sizeIn ['/', 'f'] = some ((threeBytes.bytesOf ['/', 'f']).length : ℤ)
      ∧ (∀ i, x.returned i = some ((appends i).1.length : ℤ))
      ∧ x.store.sizeIn ['/', 'f'] = some 4
      ∧ (x.store.bytesOf ['/', 'f']).length = 5 := by
  intro g sched x
  refine ⟨by decide, fun i => ?_, by decide +kernel, by decide +kernel⟩
  cases i <;> decide +kernel

end Cbfuse
