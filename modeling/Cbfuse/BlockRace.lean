import Cbfuse.Data
import Cbfuse.ReadModifyWrite

/-!
# Several clients, one block

A write fetches the whole block, changes its copy and stores the copy
whole. The store carries no CAS, so it succeeds whatever was stored since
the fetch, and the bytes another client wrote in between are gone, even
where the two wrote to different places (`bytes_lost`). Where no client
gets in between, nothing is lost (`bytes_of_run`).
-/

namespace Cbfuse

variable {Text : Type}

/-! ## The block as the clients reach it -/

section Access

variable (p : CString)

/-- **The block of the file `p`**: fetched by a get, stored by an upsert
without a CAS. -/
def blockAccess : Rmw.Access (Req Text) Req.Reply (Store Text) (Option Bytes) where
  kind q :=
    match q with
    | .blocks r => Rmw.docKind .upsert p r
    | _ => .aside
  seen q r :=
    match q, r with
    | .blocks _, r => Rmw.docSeen r.toReply
    | _, _ => none
  granted q r :=
    match q, r with
    | .blocks _, r => Rmw.docGranted r.toReply
    | _, _ => false
  val s := s.blocks.val p

variable {p}

/-- A server that serves every request keeps to it. -/
theorem blockAccess_faithful :
    (blockAccess p : Rmw.Access (Req Text) _ _ _).Faithful serve Choice.Served := by
  refine Rmw.Access.faithful_of_document .upsert (fun _ => rfl) (fun c q s hc => ?_)
  cases q with
  | blocks r =>
    refine .inr ⟨r, rfl, ?_, ?_, ?_⟩ <;> simp only [blockAccess, serve, hc.answer]
  | _ => exact .inl ⟨rfl, rfl⟩

theorem kind_get (p : CString) :
    (blockAccess p : Rmw.Access (Req Text) _ _ _).kind (.blocks (.get p)) = .fetch := by
  show Rmw.docKind .upsert p (.get p) = .fetch
  exact Rmw.docKind_get

/-- A request to another collection, or to none, is aside. -/
theorem kind_of_leavesBlocks {q : Req Text} (hq : q.LeavesBlocks) :
    (blockAccess p).kind q = .aside := by
  cases q with
  | blocks r => exact hq.elim
  | _ => rfl

/-- The change of a block that a write makes. -/
def WritesBytes (offset : ℤ) (data : Bytes) (v w : Option Bytes) : Prop :=
  ∃ b, w = some b ∧ Buffer.Overwrites (v.getD []) offset.toNat data b

/-- What a write keeps to: it returns its length only if it has stored. -/
abbrev writeProtocol (p : CString) (data : Bytes) (offset : ℤ) :
    Protocol (Req Text) Req.Reply ℤ (Rmw.Phase (Option Bytes)) :=
  (blockAccess p).protocol (WritesBytes offset data) (fun r => r = data.length)

end Access

/-! ## A write, request by request -/

section Write

variable {p : CString} {data : Bytes} {offset : ℤ} {γ : Type}
  {P : Protocol (Req Text) Req.Reply ℤ γ} {g₀ lost : γ} {held : Option Bytes → γ}

/-- **What a write keeps to.** A protocol that lets a write fetch its block,
allocate memory, store the written buffer, and fail is one that the write
follows. -/
theorem write_follows (hd : data ≠ []) (h0 : 0 ≤ offset) (hmax : offset + data.length ≤ maxFileLen)
    (hget : P.allow g₀ (.blocks (.get p)))
    (hnext : ∀ resp, P.next g₀ (.blocks (.get p)) resp
      = match Rmw.docSeen resp.toReply with
        | some v => held v
        | none => lost)
    (hheld : ∀ v n, P.allow (held v) (.malloc n) ∧ ∀ r, P.next (held v) (.malloc n) r = held v)
    (hlost : ∀ n, P.allow lost (.malloc n) ∧ ∀ r, P.next lost (.malloc n) r = lost)
    (hfail : ∀ g n {fr : ℤ}, fr < 0 → P.Follows g (finishWrite p data.length (fr, n)))
    (hupsert : ∀ v b n, Buffer.Overwrites (v.getD []) offset.toNat data b →
      (n = if (v.getD []).length < offset.toNat + data.length then offset.toNat + data.length
        else 0) →
      (P.before (finishWrite p data.length)).Follows (held v)
        (.call (.blocks (.store .upsert p b 0)) (fun resp => .ret (upsertReply resp, n)))) :
    P.Follows g₀ (writeData p data offset) := by
  have hpos : 0 < data.length := List.length_pos_of_ne_nil hd
  have hmalloc : ∀ {v : Option Bytes} {n : ℕ} {k : Option (Buf n) → Op Text (ℤ × ℕ)},
      (∀ dest, (P.before (finishWrite p data.length)).Follows (held v) (k dest)) →
      (P.before (finishWrite p data.length)).Follows (held v) (.call (.malloc n) k) := by
    refine fun {v n k} h => ⟨(hheld v n).1, fun dest => ?_⟩
    rw [Protocol.next_before, (hheld v n).2]
    exact h dest
  rw [writeData_eq (by rw [toSizeT_range h0 hmax]; omega), updateBlock_write hd h0 hmax]
  refine Protocol.follows_bind P ⟨hget, fun resp => ?_⟩
  rw [Protocol.next_before, hnext]
  obtain ⟨⟨rc, status, doc⟩, alloc⟩ := resp
  cases rc with
  | some e => exact hfail _ _ (by decide)
  | none =>
    cases status with
    | some e =>
      -- there is no block, as far as the write can tell
      show (P.before (finishWrite p data.length)).Follows (held none)
        (newBlock p data offset (offset.toNat + data.length))
      refine hmalloc (fun dest => ?_)
      cases dest with
      | none => exact hfail _ _ (by decide)
      | some fresh =>
        have hw := Buffer.overwrites_write (b := []) fresh.2
        rw [Buffer.write_nil hd] at hw
        exact hupsert none _ _ hw (if_pos (by simp; omega)).symm
    | none =>
      -- without a copy of the block there is nothing to store
      have hnull : ∀ g n, P.Follows g (finishWrite p data.length (-enomem, n) : Op Text ℤ) :=
        fun g n => hfail g n (by decide)
      cases doc with
      | none =>
        exact modifyBlock_null_follows hd (fun n => (hlost n).1) (fun n => (hlost n).2) (hnull _)
      | some d =>
        cases alloc with
        | false =>
          exact modifyBlock_null_follows hd (fun n => (hheld _ n).1) (fun n => (hheld _ n).2)
            (hnull _)
        | true =>
          show (P.before (finishWrite p data.length)).Follows (held (some d.value))
            (modifyBlock p (some data) offset (offset.toNat + data.length) (some d.value)
              d.value.length 0)
          rw [modifyBlock_write rfl hd h0]
          split
          · next hlt =>
            refine hmalloc (fun dest => ?_)
            cases dest with
            | none => trivial
            | some fresh =>
              have hle : d.value.length ≤ offset.toNat + data.length := Nat.le_of_lt hlt
              exact hupsert (some d.value) _ _ (.of_grow hle fresh.2) (if_pos hlt).symm
          · next hle =>
            have hfits : offset.toNat + data.length ≤ d.value.length := Nat.le_of_not_lt hle
            exact hupsert (some d.value) _ _ (.of_splice hfits) (if_neg hle).symm

end Write

section Follows

variable {p : CString} {data : Bytes} {offset : ℤ}

/-- A write that has failed returns `-1`, which is no length. -/
theorem writeFailed_follows {fr : ℤ} (hfr : fr < 0) (n : ℕ) (g : Rmw.Phase (Option Bytes)) :
    (writeProtocol p data offset).Follows g
      (finishWrite p data.length (fr, n) : Op Text ℤ) := by
  unfold finishWrite
  rw [if_pos (by omega), Protocol.follows_ret]
  refine .inr (fun h => ?_)
  rw [dataDone_of_neg hfr] at h
  omega

/-- The end of a write, after the reply to its store. -/
theorem finishWrite_follows (resp : Response Bytes) (n : ℕ) :
    (writeProtocol p data offset).Follows
      (if Rmw.docGranted resp.toReply then .stored else .gaveUp)
      (finishWrite p data.length (upsertReply resp, n) : Op Text ℤ) := by
  rcases upsertReply_cases resp with ⟨-, hok⟩ | ⟨hneg, hbad⟩
  · rw [if_pos (by simpa [Rmw.docGranted] using hok)]
    exact Protocol.follows_of_only (writeProtocol p data offset) (g := .stored)
      (fun q hq => kind_of_leavesBlocks hq) (fun _ _ _ => rfl) (fun _ => .inl rfl)
      (finishWrite_leavesBlocks _ _ _)
  · exact writeFailed_follows hneg n _

/-- A store of a written buffer keeps to the protocol. -/
theorem upsert_follows {v : Option Bytes} {b : Bytes} (n : ℕ)
    (hw : Buffer.Overwrites (v.getD []) offset.toNat data b) :
    ((writeProtocol p data offset).before (finishWrite p data.length)).Follows (.holding v)
      (.call (.blocks (.store .upsert p b 0)) (fun resp => .ret (upsertReply resp, n))
        : Op Text (ℤ × ℕ)) := by
  refine ⟨.inr ⟨some b, Rmw.docKind_store b, b, rfl, hw⟩, fun resp => ?_⟩
  have hnext : (@writeProtocol Text p data offset).next (.holding v)
      (.blocks (.store .upsert p b 0)) resp
      = if Rmw.docGranted resp.toReply then .stored else .gaveUp := by
    simp only [Rmw.Access.protocol, blockAccess, Rmw.docKind_store]
    rfl
  have h : (writeProtocol p data offset).Follows _
      (finishWrite p data.length (upsertReply resp, n) : Op Text ℤ) := finishWrite_follows resp n
  rw [← hnext] at h
  exact h

/-- **A write keeps to the protocol**: it stores the block it fetched with
its data in it, and returns its length only if that was granted. -/
theorem writeData_follows (hd : data ≠ []) (h0 : 0 ≤ offset)
    (hmax : offset + data.length ≤ maxFileLen) :
    (writeProtocol p data offset).Follows .idle (writeData p data offset : Op Text ℤ) := by
  refine @write_follows _ p data offset _ _ _ .gaveUp .holding hd h0 hmax (kind_get p)
    (fun resp => ?_) (fun v n => ⟨.inl rfl, fun _ => rfl⟩) (fun n => ⟨rfl, fun _ => rfl⟩)
    (fun g n _ hneg => writeFailed_follows hneg n g) (fun v b n hw _ => upsert_follows n hw)
  cases hseen : Rmw.docSeen resp.toReply with
  | none => simp only [Rmw.Access.protocol, blockAccess, hseen]
  | some v => simp only [Rmw.Access.protocol, blockAccess, hseen]

end Follows

/-! ## Any number of clients -/

/-- **A write that can be asked for**: of at least one byte, within the
limit of the file length. -/
structure WriteCall where
  /-- `buf` -/
  data : Bytes
  /-- `offset` -/
  offset : ℤ
  /-- There is something to write. -/
  nonempty : data ≠ []
  /-- The offset is one. -/
  offset_nonneg : 0 ≤ offset
  /-- The range ends within the limit. -/
  fits : offset + data.length ≤ maxFileLen

namespace WriteCall

/-- The program of the write, on the file `p`. -/
def code (p : CString) (w : WriteCall) : Op Text ℤ := writeData p w.data w.offset

/-- The position is in the range of the write. -/
def Covers (w : WriteCall) (i : ℕ) : Prop :=
  w.offset.toNat ≤ i ∧ i < w.offset.toNat + w.data.length

/-- The bytes of the write are at their positions. -/
def Done (w : WriteCall) (b : Bytes) : Prop :=
  ∀ j < w.data.length, b[w.offset.toNat + j]? = w.data[j]?

end WriteCall

section Clients

variable {ι : Type} [DecidableEq ι] {calls : ι → WriteCall} {b₀ : Bytes}

/-- **What the block has to hold** once the clients in `D` have written:
their bytes, and every old byte outside all ranges. -/
def BytesMerged (calls : ι → WriteCall) (b₀ : Bytes) (D : ι → Prop) (v : Option Bytes) : Prop :=
  (∀ i, D i → (calls i).Done (v.getD []))
    ∧ ∀ n < b₀.length, (∀ i, ¬ (calls i).Covers n) → (v.getD [])[n]? = b₀[n]?

omit [DecidableEq ι] in
/-- One more write leaves the bytes of the others, as they are elsewhere. -/
theorem BytesMerged.step
    (hdisj : ∀ i j, i ≠ j → ∀ n, (calls i).Covers n → ¬ (calls j).Covers n) {D : ι → Prop}
    {v w : Option Bytes} {i : ι} (h : BytesMerged calls b₀ D v) (hi : ¬ D i)
    (hch : WritesBytes (calls i).offset (calls i).data v w) :
    BytesMerged calls b₀ (fun j => D j ∨ j = i) w := by
  obtain ⟨b, rfl, hw⟩ := hch
  -- a byte that is there and outside the range stays
  have hkeep : ∀ n c, (v.getD [])[n]? = some c → ¬ (calls i).Covers n →
      b[n]? = (v.getD [])[n]? := by
    intro n c hn hout
    have hlt : n < (v.getD []).length := (List.getElem?_eq_some_iff.mp hn).1
    unfold WriteCall.Covers at hout
    exact hw.outside n hlt (by omega)
  refine ⟨fun j hj => ?_, fun n hn hout => ?_⟩
  · rw [Option.getD_some]
    rcases hj with hj | rfl
    · intro k hk
      have hne : j ≠ i := fun e => hi (e ▸ hj)
      have hcov : (calls j).Covers ((calls j).offset.toNat + k) := ⟨by omega, by omega⟩
      have hold := h.1 j hj k hk
      rw [hkeep _ _ (hold.trans (List.getElem?_eq_getElem hk)) (hdisj j i hne _ hcov), hold]
    · exact hw.inside
  · have hold := h.2 n hn hout
    rw [Option.getD_some,
      hkeep n _ (hold.trans (List.getElem?_eq_getElem hn)) (hout i), hold]

/-- **No file data is lost where no client gets in between.** Any number of
clients write to disjoint ranges of one file, and no request fails. In
every run in which each upsert finds the block its client fetched, once all
calls have returned their lengths the block holds the bytes of all of them
and every old byte outside the ranges. -/
theorem bytes_of_run
    (hdisj : ∀ i j, i ≠ j → ∀ n, (calls i).Covers n → ¬ (calls j).Covers n)
    {p : CString} {s : Store Text} {sched : List (ι × Choice)}
    (hA : ∀ ic ∈ sched, ic.2.Served)
    (hfound : Pool.Meets serve (blockAccess p).FindsFetched sched
      (Pool.start (fun i => (calls i).code p) s))
    (hret : ∀ i, (Pool.run serve sched
      (Pool.start (fun i => (calls i).code p) s)).returned i = some (calls i).data.length) :
    let b := (Pool.run serve sched (Pool.start (fun i => (calls i).code p) s)).store.bytesOf p
    (∀ i, (calls i).Done b)
      ∧ ∀ n < (s.bytesOf p).length, (∀ i, ¬ (calls i).Covers n) → b[n]? = (s.bytesOf p)[n]? := by
  intro b
  have hcode : ∀ i, (writeProtocol p (calls i).data (calls i).offset).Follows .idle
      ((calls i).code p : Op Text ℤ) := by
    intro i
    exact writeData_follows (calls i).nonempty (calls i).offset_nonneg (calls i).fits
  have h0 : BytesMerged calls (s.bytesOf p) (fun _ => False) (s.blocks.val p) :=
    ⟨fun _ h => h.elim, fun _ _ _ => rfl⟩
  obtain ⟨D, ⟨hdone, hkeep⟩, hD⟩ :=
    Rmw.Access.run_changes blockAccess_faithful
      (fun D v w i h hi hch => h.step hdisj hi hch) hcode h0 hA hfound
  exact ⟨fun i => hdone i (hD i _ (hret i) rfl), hkeep⟩

end Clients

/-- A file of three bytes. -/
def threeBytes : Store (Option Json) :=
  (Store.empty.putStat ['/', 'f'] (rootStat (sIfreg ||| 0o644) ⟨0, 0⟩ |>.resize 3 ⟨0, 0⟩)).putBlock
    ['/', 'f'] [1, 2, 3]

/-- One client writes the first byte of the file, the other the last. -/
def ends : Bool → WriteCall
  | true => ⟨[7], 0, by decide, by decide, by decide⟩
  | false => ⟨[9], 2, by decide, by decide, by decide⟩

theorem ends_disjoint (i j : Bool) (hij : i ≠ j) (n : ℕ) (hi : (ends i).Covers n) :
    ¬ (ends j).Covers n := by
  intro hj
  obtain ⟨hi₁, hi₂⟩ := hi
  obtain ⟨hj₁, hj₂⟩ := hj
  cases i <;> cases j <;> first | exact hij rfl | (simp [ends] at hi₁ hi₂ hj₁ hj₂; omega)

/-- The second client writes when the first is done. -/
theorem bytes_of_run_inTurn :
    let g := Choice.good ⟨0, 0⟩
    let x := Pool.run serve (Pool.turns g [true, true, false, false])
      (Pool.start (fun i => (ends i).code ['/', 'f']) threeBytes)
    (∀ i, (ends i).Done (x.store.bytesOf ['/', 'f']))
      ∧ ∀ n < 3, (∀ i, ¬ (ends i).Covers n) →
        (x.store.bytesOf ['/', 'f'])[n]? = [(1 : UInt8), 2, 3][n]? := by
  intro g x
  refine @bytes_of_run _ _ _ ends ends_disjoint _ _ _
    (Pool.forall_turns (A := Choice.Served) (c := g) rfl _) ?_ (fun i => ?_)
  · decide +kernel
  · cases i <;> decide +kernel

/-- Both clients fetch before either stores: both calls return their
length, and the first byte is the old one. -/
theorem bytes_lost :
    let g := Choice.good ⟨0, 0⟩
    let x := Pool.run serve (Pool.turns g [true, false, true, false])
      (Pool.start (fun i => (ends i).code ['/', 'f']) threeBytes)
    (∀ i j, i ≠ j → ∀ n, (ends i).Covers n → ¬ (ends j).Covers n)
      ∧ (∀ i, x.returned i = some (ends i).data.length)
      ∧ ¬ (ends true).Done (x.store.bytesOf ['/', 'f']) := by
  intro g x
  refine ⟨ends_disjoint, by decide +kernel, fun h => ?_⟩
  exact absurd (h 0 Nat.zero_lt_one) (by decide +kernel)

end Cbfuse
