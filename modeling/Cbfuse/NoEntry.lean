import Cbfuse.FuseOps
import Cbfuse.Interleave

/-!
# What "no such entry" means

The programs make `-ENOENT` of every status a request can fail with. What a
caller of an operation then learns is that some request of it failed: that a
document was not there, or that the server was slow, that another client was
faster, that there was a document where there should have been none.

Each operation ends at the first failing request whose result it looks at
(`FuseOp.code_decides`). So whether the report is true is a question about
that one request, and it is true of a whole run, with any number of other
clients about, exactly if every request that can end the operation with
`-ENOENT` fails only where the document the operation needs is absent
(`FuseOp.enoent_true_iff`).
-/

namespace Cbfuse

variable {Text β : Type}

/-- The error that two checks make of a reply, if any. -/
def failure (r : ℤ) : Option ℤ := if r = 0 then none else some r

/-- A failure is a code other than zero. -/
theorem failure_eq_some {r b : ℤ} : failure r = some b ↔ r ≠ 0 ∧ r = b := by
  unfold failure
  split
  · next h => exact iff_of_false (Option.some_ne_none b ∘ Eq.symm) (fun h' => h'.1 h)
  · next h => exact ⟨fun hb => ⟨h, Option.some.inj hb⟩, fun hb => congrArg some hb.2⟩

/-- Zero is no failure. -/
theorem failure_eq_none {r : ℤ} : failure r = none ↔ r = 0 := by
  unfold failure
  split
  · next h => exact iff_of_true rfl h
  · next h => exact iff_of_false (Option.some_ne_none r) h

/-- The request is one whose result the removal of an entry does not look at. -/
def Req.Ignored : Req Text → Prop
  | .dentries _ => True
  | .blocks (.remove _) => True
  | _ => False

/-- **The two checks, one after the other.** -/
theorem failure_checkResult {V : Type} {resp : Response V} {b : ℤ}
    (h : failure (checkResult (-enoent) resp) = some b) :
    (resp.rc ≠ none ∧ b = -eio) ∨ (resp.rc = none ∧ resp.status ≠ none ∧ b = -enoent) := by
  obtain ⟨hne, rfl⟩ := failure_eq_some.mp h
  unfold checkResult at hne ⊢
  split
  · next hrc => exact .inl ⟨hrc, rfl⟩
  · next hrc =>
    split
    · next hst => exact .inr ⟨not_not.mp hrc, hst, rfl⟩
    · next hst =>
      rw [if_neg hrc, if_neg hst] at hne
      exact absurd rfl hne

/-- Where neither check fails the request was granted. -/
theorem granted_of_failure {V : Type} {resp : Response V}
    (h : failure (checkResult (-enoent) resp) = none) : resp.rc = none ∧ resp.status = none :=
  (checkResult_eq_zero (by decide) resp).mp (failure_eq_none.mp h)

namespace FuseOp

/-- The operation removes an entry: it goes on whatever becomes of its first
two steps. -/
def Removes : FuseOp β → Prop
  | fs (.tree (.unlink _)) => True
  | fs (.tree (.rmdir _)) => True
  | _ => False

instance : DecidablePred (Removes : FuseOp β → Prop) := fun op =>
  match op with
  | fs (.tree (.unlink _)) => isTrue trivial
  | fs (.tree (.rmdir _)) => isTrue trivial
  | fs (.tree (.create _ _)) => isFalse id
  | fs (.tree (.mkdir _ _)) => isFalse id
  | fs (.entry _) => isFalse id
  | getattr _ _ => isFalse id
  | openFile _ => isFalse id
  | readdir _ _ _ _ => isFalse id

/-- **What the operation makes of a reply that ends it.** Removing an entry
looks at the result of `remove_stat` only, and a block that is not there is
nothing to truncate. -/
def verdict (op : FuseOp β) : (q : Req Text) → q.Reply → Option ℤ
  | .stats _, resp => failure (checkResult (-enoent) resp)
  | .dentries _, resp => if op.Removes then none else failure (checkResult (-enoent) resp)
  | .blocks (.get _), _ => none
  | .blocks (.store _ _ _ _), resp => failure (upsertReply resp)
  | .blocks (.remove _), resp => if op.Removes then none else failure (checkResult (-enoent) resp)
  | _, _ => none

end FuseOp

/-! ## Each part ends at its first failing request -/

/-- The result code is not the one in question. -/
theorem enoent_ne {e : ℤ} (h : e ≠ 2) : -e ≠ -enoent := by
  unfold enoent
  omega

section Parts

variable {op : FuseOp β}

/-- A request whose reply is the result. -/
theorem decides_failure {q : Req Text} {k : q.Reply → Op Text ℤ} {c : q.Reply → ℤ}
    (hv : ∀ r, op.verdict q r = failure (c r)) (hk : ∀ r, k r = .ret (c r)) :
    (Prog.call q k).Decides op.verdict id (-enoent) := by
  intro r
  rw [hv, hk]
  cases h : failure (c r) with
  | none =>
    rw [failure_eq_none] at h
    show c r ≠ -enoent
    rw [h]
    decide
  | some b => exact ⟨c r, rfl, (failure_eq_some.mp h).2⟩

/-- A failing fetch of a stat ends with what the two checks make of it. -/
theorem statReply_of_failure {resp : Response StatDoc} {b : ℤ}
    (h : failure (checkResult (-enoent) resp) = some b) :
    statReply resp = some (.error b) := by
  unfold statReply
  obtain ⟨hrc, rfl⟩ | ⟨hrc, hst, rfl⟩ := failure_checkResult h
  · rw [if_pos hrc]
  · rw [if_neg (not_not.mpr hrc), if_pos hst]

/-- A fetch of a stat that does not fail does not end with `-ENOENT`. -/
theorem statReply_ne_enoent {resp : Response StatDoc} {e : ℤ}
    (h : failure (checkResult (-enoent) resp) = none) (he : statReply resp = some (.error e)) :
    e ≠ -enoent := by
  obtain ⟨hrc, hst⟩ := granted_of_failure h
  unfold statReply at he
  rw [if_neg (not_not.mpr hrc), if_neg (not_not.mpr hst)] at he
  split at he
  · cases he
    decide
  · cases he
    decide
  · split at he <;> cases he

/-- **A fetch of a stat** ends there if it fails. -/
theorem decides_fetchStat {α : Type} {code : α → ℤ} {pkey : CString}
    {k : Response StatDoc → Op Text α}
    (herr : ∀ resp e, statReply resp = some (.error e) → ∃ a, k resp = .ret a ∧ code a = e)
    (hcrash : ∀ resp, statReply resp = none → k resp = .crash)
    (hok : ∀ resp r, statReply resp = some (.ok r) → (k resp).Decides op.verdict code (-enoent)) :
    (Prog.call (.stats (.get pkey)) k : Op Text α).Decides op.verdict code (-enoent) := by
  intro resp
  rw [show op.verdict (.stats (.get pkey)) resp = failure (checkResult (-enoent) resp) from rfl]
  cases h : failure (checkResult (-enoent) resp) with
  | some b => exact herr resp b (statReply_of_failure h)
  | none =>
    dsimp only
    cases hr : statReply resp with
    | none =>
      rw [hcrash resp hr]
      trivial
    | some r =>
      cases r with
      | error e =>
        obtain ⟨a, hk, rfl⟩ := herr resp e hr
        rw [hk]
        exact statReply_ne_enoent h hr
      | ok r => exact hok resp r hr

/-- A fetch of a stat ends with `-ENOENT` where its reply says so, and nowhere
else. -/
theorem getStat_decides (pkey : CString) :
    (getStat pkey : Op Text _).Decides op.verdict codeOf (-enoent) := by
  rw [getStat_eq]
  refine decides_fetchStat (fun resp e h => ?_) (fun resp h => ?_) (fun resp r h => ?_)
  · rw [h]
    exact ⟨.error e, rfl, rfl⟩
  · rw [h]
  · rw [h]
    exact enoent_ne (e := 0) (by decide)

/-- An update of a stat ends with `-ENOENT` where one of its replies says so. -/
theorem updateStat_decides (pkey : CString) (clock : Bool)
    (change : Timespec → CbfuseStat → CbfuseStat) :
    (updateStat pkey clock change : Op Text ℤ).Decides op.verdict id (-enoent) := by
  rw [updateStat_eq]
  refine decides_fetchStat (fun resp e h => ?_) (fun resp h => ?_) (fun resp r h => ?_)
  · rw [h]
    exact ⟨e, rfl, rfl⟩
  · rw [h]
  · rw [h]
    show (replaceStat pkey clock change r.1 r.2 : Op Text ℤ).Decides op.verdict id (-enoent)
    unfold replaceStat
    split
    · intro now
      cases now with
      | none => exact enoent_ne (by decide)
      | some ts => exact decides_failure (fun _ => rfl) (fun _ => rfl)
    · exact decides_failure (fun _ => rfl) (fun _ => rfl)

/-- An insertion of a stat ends with `-ENOENT` where its reply says so. -/
theorem insertStat_decides (pkey : CString) (mode : ℕ) :
    (insertStat pkey mode : Op Text ℤ).Decides op.verdict id (-enoent) := by
  rw [insertStat_eq]
  intro now
  cases now with
  | none => exact enoent_ne (by decide)
  | some ts => exact decides_failure (fun _ => rfl) (fun _ => rfl)

/-- A removal of a stat ends with `-ENOENT` where its reply says so. -/
theorem removeStat_decides (pkey : CString) :
    (removeStat pkey : Op Text ℤ).Decides op.verdict id (-enoent) :=
  decides_failure (fun _ => rfl) (fun _ => rfl)

section Dentries

variable [CJson Text] (hop : ¬ op.Removes)
include hop

omit [CJson Text] in
theorem verdict_dentries (r : Kv.Request CString Text) (resp : Response Text) :
    op.verdict (.dentries r) resp = failure (checkResult (-enoent) resp) := if_neg hop

/-- An insertion of a directory document ends with `-ENOENT` where its reply
says so. -/
theorem addNewDentry_decides (dirPkey dirPath : CString) (parentPath : Option CString) :
    (addNewDentry dirPkey dirPath parentPath : Op Text ℤ).Decides op.verdict id (-enoent) :=
  decides_failure (fun _ => verdict_dentries hop _ _) (fun _ => rfl)

/-- An edit of a directory document ends with `-ENOENT` where one of its replies
says so. -/
theorem editDentry_decides (dirPkey : CString) (edit : List Json → List Json) :
    (editDentry dirPkey edit : Op Text ℤ).Decides op.verdict id (-enoent) := by
  rw [editDentry_eq]
  intro resp
  rw [verdict_dentries hop]
  dsimp only
  cases h : failure (checkResult (-enoent) resp) with
  | some b =>
    have hreply : editReply edit resp = .error b := by
      unfold editReply
      obtain ⟨hrc, rfl⟩ | ⟨hrc, hst, rfl⟩ := failure_checkResult h
      · rw [if_pos hrc]
      · rw [if_neg (not_not.mpr hrc), if_pos hst]
    rw [hreply]
    exact ⟨b, rfl, rfl⟩
  | none =>
    dsimp only
    cases hr : editReply edit resp with
    | ok t => exact decides_failure (fun _ => verdict_dentries hop _ _) (fun _ => rfl)
    | error e =>
      obtain ⟨hrc, hst⟩ := granted_of_failure h
      show e ≠ -enoent
      unfold editReply at hr
      rw [if_neg (not_not.mpr hrc), if_neg (not_not.mpr hst)] at hr
      split at hr
      · cases hr
        decide
      · split at hr
        · cases hr
          decide
        · cases hr

end Dentries

/-! ## A truncation -/

theorem removeData_decides (hop : ¬ op.Removes) (pkey : CString) :
    (removeData pkey : Op Text ℤ).Decides op.verdict id (-enoent) :=
  decides_failure (fun _ => if_neg hop) (fun _ => rfl)

/-- No verdict is a success. -/
theorem verdict_ne_zero {q : Req Text} {resp : q.Reply} : op.verdict q resp ≠ some 0 := by
  have hfailure : ∀ c : ℤ, failure c ≠ some 0 := fun c h =>
    (failure_eq_some.mp h).1 (failure_eq_some.mp h).2
  cases q with
  | stats r => exact hfailure _
  | dentries r =>
    unfold FuseOp.verdict
    dsimp only
    split
    · exact Option.some_ne_none 0 ∘ Eq.symm
    · exact hfailure _
  | blocks r =>
    cases r with
    | get k => exact Option.some_ne_none 0 ∘ Eq.symm
    | store op k v cas => exact hfailure _
    | remove k =>
      unfold FuseOp.verdict
      dsimp only
      split
      · exact Option.some_ne_none 0 ∘ Eq.symm
      · exact hfailure _
  | _ => exact Option.some_ne_none 0 ∘ Eq.symm

/-- **A step whose requests have no verdict** changes nothing about how a
sequence ends. -/
theorem decides_after {α γ : Type} {P : Req Text → Prop} {code : α → ℤ}
    (hnone : ∀ q r, P q → op.verdict q r = none) {p : Op Text γ} (hp : p.Only P)
    {f : γ → Op Text α} (hf : ∀ c, (f c).Decides op.verdict code (-enoent)) :
    (p >>= f).Decides op.verdict code (-enoent) := by
  have hzero : (0 : ℤ) ≠ -enoent := by decide
  refine Prog.decides_bind (g := fun _ => 0) (Prog.decides_of_only hnone hp
    ((Prog.returns_true p).mono (fun _ _ => hzero))) (fun q r b c hv hb => ?_) (fun c _ => hf c)
  subst hb
  exact absurd hv verdict_ne_zero

/-- What goes on only after a zero passes every verdict on. -/
theorem decides_passed {q : Req Text} {resp : q.Reply} {b c : ℤ} {rest : Op Text ℤ}
    {p : Op Text ℤ} (hv : op.verdict q resp = some b) (hc : id c = b)
    (hp : p = if c ≠ 0 then .ret c else rest) : ∃ a, p = .ret a ∧ id a = b := by
  have hne : c ≠ 0 := by
    rintro rfl
    rw [← hc] at hv
    exact verdict_ne_zero hv
  exact ⟨c, hp.trans (if_pos hne), hc⟩

/-- The store of a block: what is read from the buffer first has no
verdict. -/
theorem storeBlock_decides (pkey : CString) (value : Option Bytes) (nvalue : ℕ) :
    (storeBlock pkey value nvalue : Op Text ℤ).Decides op.verdict id (-enoent) := by
  have hmemory : ∀ (q : Req Text) r, q.OnMemory → op.verdict q r = none := by
    intro q r hq
    cases q with
    | malloc n => rfl
    | overread n => rfl
    | _ => exact hq.elim
  unfold storeBlock
  refine decides_after hmemory (load_only _ _ _) (fun bytes => ?_)
  refine decides_failure (c := upsertReply) (fun _ => rfl) (fun resp => ?_)
  show (if resp.rc ≠ none then _ else _) = _
  unfold upsertReply
  split
  · rfl
  · split
    · rfl
    · split <;> rfl

/-- The update of a block without data: a fetch that fails is nothing to
truncate. -/
theorem updateBlock_none_decides (pkey : CString) (offset : ℤ) :
    (updateBlock pkey none offset : Op Text _).Decides op.verdict Prod.fst (-enoent) := by
  unfold updateBlock
  dsimp only
  split
  · exact enoent_ne (by decide)
  · rw [getBlock_eq]
    intro resp
    show Prog.Decides op.verdict Prod.fst (-enoent) (if (blockReply resp).1 = -enoent then _ else _)
    split
    · exact enoent_ne (e := 0) (by decide)
    · next hne =>
      split
      · exact hne
      · exact Prog.decides_bind (storeBlock_decides _ _ _) (fun _ _ b c _ hc => ⟨_, rfl, hc⟩)
          (fun c hc => hc)

/-- A truncation ends with `-ENOENT` where a reply it does not ignore says so.
-/
theorem truncateData_decides (hop : ¬ op.Removes) (pkey : CString) (offset : ℤ) :
    (truncateData pkey offset : Op Text ℤ).Decides op.verdict id (-enoent) := by
  have hcut : (if offset = 0 then removeData pkey
      else Prod.fst <$> updateBlock pkey none offset : Op Text ℤ).Decides op.verdict id
        (-enoent) := by
    split
    · exact removeData_decides hop pkey
    · exact Prog.decides_bind (updateBlock_none_decides pkey offset)
        (fun _ _ b c _ hc => ⟨_, rfl, hc⟩) (fun c hc => hc)
  unfold truncateData
  refine Prog.decides_bind hcut (fun q r b c hv hc => ?_) (fun c hc => ?_)
  · exact decides_passed hv hc rfl
  · split
    · exact hc
    · exact updateStat_decides _ _ _

end Parts

/-! ## The operations -/

variable [CJson Text]

namespace FuseOp

/-- The operation is a read or a write, which reports every error as `-1`. -/
def Transfers : FuseOp β → Prop
  | fs (.entry (.read _ _ _)) => True
  | fs (.entry (.write _ _ _)) => True
  | _ => False

/-- What FUSE says of a filler: it answers one if the buffer is full, and zero
otherwise. -/
def FillerAnswers : FuseOp β → Prop
  | readdir _ filler _ _ => ∀ buf name n, (filler buf name n).1 = 0 ∨ (filler buf name n).1 = 1
  | _ => True

omit [CJson Text] in
/-- The loop of a listing returns zero or an answer of the filler. -/
theorem fillLoop_code_ne {filler : β → CString → ℕ → ℤ × β} {bad : ℤ} (h0 : 0 ≠ bad)
    (hfill : ∀ buf name n, (filler buf name n).1 ≠ bad) (offset : ℤ) (children : List Json) (n : ℕ)
    {fresult : ℤ} (hr : fresult ≠ bad) (buf : β) :
    (fillLoop filler offset children n fresult buf).1 ≠ bad := by
  induction children generalizing n fresult buf with
  | nil => exact hr
  | cons child children ih =>
    rw [fillLoop]
    split
    · split
      · exact h0
      · exact ih _ (hfill _ _ _) _
    · exact ih _ hr _

omit [CJson Text] in
/-- A removal makes nothing of the replies it ignores. -/
theorem verdict_of_ignored {op : FuseOp β} (hop : op.Removes) (q : Req Text) (r : q.Reply)
    (hq : q.Ignored) : op.verdict q r = none := by
  cases q with
  | dentries req => exact if_pos hop
  | blocks req =>
    cases req with
    | remove k => exact if_pos hop
    | get k => exact hq.elim
    | store op k v cas => exact hq.elim
  | _ => exact hq.elim

theorem editDentry_ignored (dirPkey : CString) (edit : List Json → List Json) :
    (editDentry dirPkey edit : Op Text ℤ).Only Req.Ignored := by
  refine (editDentry_only dirPkey edit).mono (fun q hq => ?_)
  cases q with
  | dentries req => trivial
  | _ => exact hq.elim

omit [CJson Text] in
theorem removeData_only (pkey : CString) : (removeData pkey : Op Text ℤ).Only Req.Ignored :=
  ⟨trivial, fun _ => trivial⟩

omit [CJson Text] in
theorem removeDentry_only (pkey : CString) : (removeDentry pkey : Op Text ℤ).Only Req.Ignored :=
  ⟨trivial, fun _ => trivial⟩

/-- A listing makes one request. -/
theorem readdir_code_eq (path : CString) (filler : β → CString → ℕ → ℤ × β) (offset : ℤ) (buf : β) :
    ((readdir path filler offset buf).code : Op Text ℤ)
      = .call (.dentries (.get path)) (fun resp =>
          match dentryReply resp with
          | .error fresult => .ret fresult
          | .ok dentryJson =>
            match Json.arrayItems (Json.getObjectItemCaseSensitive dentryJson dentryChildren) with
            | none => .ret 0
            | some children => .ret (fillLoop filler offset children 0 0 buf).1) := by
  show (Prod.fst <$> cbfuseReaddir path filler offset buf : Op Text ℤ) = _
  rw [cbfuseReaddir_eq, map_eq_pure_bind, Prog.call_bind]
  congr 1
  funext resp
  cases dentryReply resp with
  | error e => rfl
  | ok j =>
    dsimp only
    cases Json.arrayItems (Json.getObjectItemCaseSensitive j dentryChildren) <;> rfl

/-- **A listing** ends at its one request if that fails. -/
theorem readdir_decides {path : CString} {filler : β → CString → ℕ → ℤ × β} {offset : ℤ} {buf : β}
    (hfill : (readdir path filler offset buf).FillerAnswers) :
    ((readdir path filler offset buf).code : Op Text ℤ).Decides
      (readdir path filler offset buf).verdict id (-enoent) := by
  have hzero : (0 : ℤ) ≠ -enoent := by decide
  have hone : (1 : ℤ) ≠ -enoent := by decide
  rw [readdir_code_eq]
  intro resp
  rw [verdict_dentries id]
  dsimp only
  cases h : failure (checkResult (-enoent) resp) with
  | some b =>
    have hreply : dentryReply resp = .error b := by
      unfold dentryReply
      dsimp only
      rw [syncGetCallback_status]
      obtain ⟨hrc, rfl⟩ | ⟨hrc, hst, rfl⟩ := failure_checkResult h
      · rw [if_pos hrc]
      · rw [if_neg (not_not.mpr hrc), if_pos hst]
    rw [hreply]
    exact ⟨b, rfl, rfl⟩
  | none =>
    obtain ⟨hrc, hst⟩ := granted_of_failure h
    unfold dentryReply
    dsimp only
    rw [syncGetCallback_status, if_neg (not_not.mpr hrc), if_neg (not_not.mpr hst)]
    dsimp only
    split
    · exact hzero
    · refine fillLoop_code_ne hzero (fun buf name n => ?_) _ _ _ hzero _
      obtain h0 | h1 := hfill buf name n
      · rw [h0]
        exact hzero
      · rw [h1]
        exact hone

omit [CJson Text] in
theorem enametoolong_ne : enametoolong ≠ -enoent := by decide

omit [CJson Text] in
/-- A lookup of attributes ends with `-ENOENT` where its fetch says so. -/
theorem cbfuseGetattr_decides {op : FuseOp β} (fc : FuseContext) (path : CString) :
    (cbfuseGetattr fc path : Op Text _).Decides op.verdict codeOf (-enoent) := by
  by_cases hlen : path.length > maxPathLen
  · unfold cbfuseGetattr
    rw [if_pos hlen]
    exact enametoolong_ne
  · rw [cbfuseGetattr_eq fc hlen]
    refine decides_fetchStat (fun resp e h => ?_) (fun resp h => ?_) (fun resp r h => ?_)
    · rw [h]
      exact ⟨.error e, rfl, rfl⟩
    · rw [h]
    · rw [h]
      exact enoent_ne (e := 0) (by decide)

omit [CJson Text] in
/-- An open ends with `-ENOENT` where its fetch says so. -/
theorem cbfuseOpen_decides {op : FuseOp β} (path : CString) :
    (cbfuseOpen path : Op Text ℤ).Decides op.verdict id (-enoent) := by
  unfold cbfuseOpen
  split
  · exact enametoolong_ne
  · refine Prog.decides_bind (getStat_decides path) (fun q r b c hv hc => ?_) (fun c hc => ?_)
    · cases c with
      | error e => exact ⟨e, rfl, hc⟩
      | ok r =>
        cases hc
        exact absurd hv verdict_ne_zero
    · cases c with
      | error e => exact hc
      | ok r => exact enoent_ne (e := 0) (by decide)

/-- A creation ends with `-ENOENT` where one of its replies says so. -/
theorem cbfuseCreate_decides {op : FuseOp β} (hop : ¬ op.Removes) (path : CString) (mode : ℕ) :
    (cbfuseCreate path mode : Op Text ℤ).Decides op.verdict id (-enoent) := by
  unfold cbfuseCreate
  split
  · exact enoent_ne (by decide)
  · split
    · exact enametoolong_ne
    · refine Prog.decides_bind (insertStat_decides path mode)
        (fun q r b c hv hc => decides_passed hv hc rfl) (fun c hc => ?_)
      split
      · exact hc
      · exact editDentry_decides hop _ _

/-- The making of a directory ends with `-ENOENT` where one of its replies says
so. -/
theorem cbfuseMkdir_decides {op : FuseOp β} (hop : ¬ op.Removes) (path : CString) (mode : ℕ) :
    (cbfuseMkdir path mode : Op Text ℤ).Decides op.verdict id (-enoent) := by
  unfold cbfuseMkdir
  split
  · exact enoent_ne (by decide)
  · refine Prog.decides_bind (insertStat_decides path mode)
      (fun q r b c hv hc => decides_passed hv hc rfl) (fun c hc => ?_)
    split
    · exact hc
    · refine Prog.decides_bind (addNewDentry_decides hop _ _ _)
        (fun q r b c hv hc => decides_passed hv hc rfl) (fun c hc => ?_)
      split
      · exact hc
      · exact editDentry_decides hop _ _

/-- Of a removal, only the removal of the stat has a verdict. -/
theorem remove_decides {op : FuseOp β} (hop : op.Removes) (path : CString) {p : Op Text ℤ}
    (hp : p.Only Req.Ignored) :
    (do
      let _ ← p
      let _ ← removeChildFromDentry path.dirname path.basename
      removeStat path : Op Text ℤ).Decides op.verdict id (-enoent) :=
  decides_after (verdict_of_ignored hop) hp (fun _ =>
    decides_after (verdict_of_ignored hop) (editDentry_ignored _ _)
      (fun _ => removeStat_decides path))

/-- **Every operation ends at its first failing request** whose result it
looks at, and reports `-ENOENT` for no other reason. -/
theorem code_decides {op : FuseOp β} (hop : ¬ op.Transfers) (hfill : op.FillerAnswers) :
    (op.code : Op Text ℤ).Decides op.verdict id (-enoent) := by
  cases op with
  | getattr fc path =>
    exact Prog.decides_bind (g := codeOf) (cbfuseGetattr_decides fc path)
      (fun q r b c _ hc => ⟨_, rfl, hc⟩) (fun c hc => hc)
  | openFile path => exact cbfuseOpen_decides path
  | readdir path filler offset buf => exact readdir_decides hfill
  | fs op =>
    cases op with
    | entry op =>
      cases op with
      | write p buf offset => exact absurd trivial hop
      | read p nbuf offset => exact absurd trivial hop
      | truncate p offset => exact truncateData_decides id p offset
      | chmod p mode => exact updateStat_decides p _ _
      | utimens p tv => exact updateStat_decides p _ _
    | tree op =>
      cases op with
      | create p mode => exact cbfuseCreate_decides id p mode
      | mkdir p mode => exact cbfuseMkdir_decides id p mode
      | unlink p =>
        exact remove_decides (show (fs (.tree (.unlink p))).Removes from trivial) p
          (removeData_only p)
      | rmdir p =>
        exact remove_decides (show (fs (.tree (.rmdir p))).Removes from trivial) p
          (removeDentry_only p)

end FuseOp

/-! ## What the operation needs -/

/-- A document that has to be there. -/
inductive Needed where
  /-- The stat of a path. -/
  | stat (p : CString)
  /-- The directory document of a path. -/
  | dentry (p : CString)

/-- The request asks for the document, and there is none. -/
def Needed.Missed (s : Store Text) : Needed → Req Text → Prop
  | stat p, .stats r => r.Wants ∧ r.key = p ∧ s.stats.val p = none
  | dentry p, .dentries r => r.Wants ∧ r.key = p ∧ s.dentries.val p = none
  | _, _ => False

omit [CJson Text] in
instance (s : Store Text) (d : Needed) : DecidablePred (d.Missed s) := fun q =>
  match d, q with
  | .stat _, .stats _ => inferInstanceAs (Decidable (_ ∧ _ ∧ _ = none))
  | .dentry _, .dentries _ => inferInstanceAs (Decidable (_ ∧ _ ∧ _ = none))
  | .stat _, .dentries _ => isFalse id
  | .stat _, .blocks _ => isFalse id
  | .stat _, .clockGettime => isFalse id
  | .stat _, .malloc _ => isFalse id
  | .stat _, .overread _ => isFalse id
  | .dentry _, .stats _ => isFalse id
  | .dentry _, .blocks _ => isFalse id
  | .dentry _, .clockGettime => isFalse id
  | .dentry _, .malloc _ => isFalse id
  | .dentry _, .overread _ => isFalse id

namespace FuseOp

/-- **What an operation needs**: the stat of its path, or the directory
document that it reads or adds a name to. -/
def needs : FuseOp β → Needed
  | getattr _ path => .stat path
  | openFile path => .stat path
  | readdir path _ _ _ => .dentry path
  | fs (.tree (.create path _)) => .dentry path.dirname
  | fs (.tree (.mkdir path _)) => .dentry path.dirname
  | fs (.tree (.unlink path)) => .stat path
  | fs (.tree (.rmdir path)) => .stat path
  | fs (.entry op) => .stat op.path

omit [CJson Text] in
/-- What an operation that removes an entry needs is the stat. -/
theorem not_removes_of_needs {op : FuseOp β} {p : CString} (h : op.needs = .dentry p) :
    ¬ op.Removes := by
  intro hrem
  cases op with
  | fs op =>
    cases op with
    | tree op =>
      cases op with
      | unlink path => cases h
      | rmdir path => cases h
      | create path mode => exact hrem
      | mkdir path mode => exact hrem
    | entry op => exact hrem
  | _ => exact hrem

omit [CJson Text] in
/-- A request that misses what the operation needs ends it. -/
theorem verdict_of_missed {op : FuseOp β} {s : Store Text} (c : Choice) {q : Req Text}
    (h : op.needs.Missed s q) : op.verdict q (serve c q s).1 ≠ none := by
  have hfailure : ∀ {V : Type} (resp : Response V), ¬ (resp.rc = none ∧ resp.status = none) →
      failure (checkResult (-enoent) resp) ≠ none :=
    fun resp hng hnone => hng (granted_of_failure hnone)
  cases hd : op.needs with
  | stat p =>
    rw [hd] at h
    cases q with
    | stats r =>
      obtain ⟨hr, rfl, hnone⟩ := h
      exact hfailure _ (Kv.Collection.not_granted_of_absent hr hnone)
    | _ => exact h.elim
  | dentry p =>
    have hop := not_removes_of_needs hd
    rw [hd] at h
    cases q with
    | dentries r =>
      obtain ⟨hr, rfl, hnone⟩ := h
      rw [verdict_dentries hop]
      exact hfailure _ (Kv.Collection.not_granted_of_absent hr hnone)
    | _ => exact h.elim

/-- **When "no such entry" is true.** Let any number of clients make any
requests, in any order and with any of them failing in any way, and let one of
them run an operation. It returns `-ENOENT` only where the document it needs
was absent when it asked for it – exactly if every request of it whose failure
it reports by `-ENOENT` fails for that reason. -/
theorem enoent_true_iff {ι : Type} [DecidableEq ι] {i : ι} {op : FuseOp β}
    (hop : ¬ op.Transfers) (hfill : op.FillerAnswers) {code : ι → Op Text ℤ}
    (hi : code i = op.code) (s : Store Text) (sched : List (ι × Choice)) :
    let x := Pool.start code s
    ((Pool.run serve sched x).returned i = some (-enoent) →
        Pool.Occurs serve (fun s j _ q => j = i ∧ op.needs.Missed s q) sched x)
      ↔ Pool.Meets serve (fun _ s j c q => j = i →
          op.verdict q (serve c q s).1 = some (-enoent) → op.needs.Missed s q) sched x := by
  intro x
  have hdecides : (x.procs i).Decides op.verdict id (-enoent) := by
    show (code i).Decides op.verdict id (-enoent)
    rw [hi]
    exact code_decides hop hfill
  exact @Pool.returned_true_iff _ _ _ _ _ _ _ serve i op.verdict (-enoent)
    (fun s q => op.needs.Missed s q) (fun s c q h => verdict_of_missed c h) sched x hdecides

end FuseOp

/-- Two clients: one looks for a file that another one makes too late. -/
theorem enoent_true_iff_late :
    let code : Fin 2 → Op (Option Json) ℤ := fun i =>
      if i = 0 then (FuseOp.openFile ['/', 'f'] : FuseOp Unit).code
      else cbfuseCreate ['/', 'f'] (sIfreg ||| 0o644)
    let x := Pool.start code Store.empty
    Pool.Occurs serve (fun s j _ q => j = 0 ∧ (Needed.stat ['/', 'f']).Missed s q)
      (Pool.turns (.good ⟨0, 0⟩) [1, 0, 1]) x := by
  intro code x
  exact (@FuseOp.enoent_true_iff (Option Json) Unit _ (Fin 2) _ 0 (.openFile ['/', 'f']) id trivial
    code rfl Store.empty (Pool.turns (.good ⟨0, 0⟩) [1, 0, 1])).mpr (by decide) (by decide)

/-- A file is there, and its fetch does not come back in time. -/
theorem enoent_of_timeout :
    let code : Fin 1 → Op (Option Json) ℤ := fun _ =>
      (FuseOp.openFile ['/', 'f'] : FuseOp Unit).code
    let c : Choice := { Choice.good ⟨0, 0⟩ with fate := .refused .timeout }
    let s := (Store.empty : Store (Option Json)).putStat ['/', 'f'] (rootStat sIfreg ⟨0, 0⟩)
    let x := Pool.start code s
    (Pool.run serve [(0, c)] x).returned 0 = some (-enoent)
      ∧ ¬ Pool.Occurs serve (fun s j _ q => j = 0 ∧ (Needed.stat ['/', 'f']).Missed s q)
          [(0, c)] x := by
  intro code c s x
  refine ⟨by decide, (Pool.not_occurs_iff _ _).mpr ?_⟩
  decide

end Cbfuse
