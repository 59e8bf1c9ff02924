import Cbfuse.Store

/-!
# Directory documents (`dentries.c`)

A directory has a JSON document under its path: its own path, its parent's
and the names of its entries. Adding a name and removing one are the same
program, `editDentry` – fetch the document, edit its list of children,
replace the document – at two edits. The replacement carries no CAS.
-/

namespace Cbfuse

variable {Text : Type}

/-- `DENTRY_DIR_PATH` -/
def dentryDirPath : CString := ['d']

/-- `DENTRY_PAR_PATH` -/
def dentryParPath : CString := ['p']

/-- `DENTRY_CHILDREN` -/
def dentryChildren : CString := ['c']

/-! ## The programs -/

section Programs

variable [CJson Text]

/-- What `get_dentry_json` makes of a reply: the parsed document, or the
error. A text that does not parse leaves `NULL` in the out-parameter, and
the test that follows is of the out-parameter itself, so that is no
error here. -/
def dentryReply (resp : Response Text) : Except ℤ (Option Json) :=
  if resp.rc ≠ none then .error (-eio)
  else
    let result := syncGetCallback (fun _ => 0) resp
    if result.status ≠ none then .error (-enoent)
    else .ok (result.value.bind CJson.parse)

/-- `get_dentry_json` -/
def getDentryJson (dirPkey : CString) : Op Text (Except ℤ (Option Json)) := do
  let resp ← askDentries (.get dirPkey)
  return dentryReply resp

/-- The document `create_dentry` builds. A `NULL` parent is printed as the
empty string. -/
def createDentry (dirPath : CString) (parentPath : Option CString)
    (childNames : List CString) : Json :=
  .object [(dentryDirPath, .string dirPath), (dentryParPath, .string (parentPath.getD [])),
    (dentryChildren, .array (childNames.map Json.string))]

/-- `add_new_dentry` -/
def addNewDentry (dirPkey dirPath : CString) (parentPath : Option CString) : Op Text ℤ := do
  let dentry := CJson.printUnformatted (createDentry dirPath parentPath [])
  let resp ← askDentries (.store .insert dirPkey dentry 0)
  return checkResult (-enoent) resp

/-- The common body of the two changes of a directory: `edit` is what
happens to the items of its children. -/
def editDentry (dirPkey : CString) (edit : List Json → List Json) : Op Text ℤ := do
  match ← getDentryJson dirPkey with
  | .error fresult => return fresult
  | .ok none => return -eio
  | .ok (some dentryJson) =>
    match Json.arrayItems (Json.getObjectItemCaseSensitive (some dentryJson) dentryChildren) with
    | none => return -eio
    | some items =>
      let dentry := CJson.printUnformatted
        (dentryJson.replaceItemInObjectCaseSensitive dentryChildren (.array (edit items)))
      let resp ← askDentries (.store .replace dirPkey dentry 0)
      return checkResult (-enoent) resp

/-- The children with one more name. -/
def addChild (childName : CString) (items : List Json) : List Json :=
  items ++ [.string childName]

/-- The children without a name: the loop copies every string but that
one, and drops what is not a string. -/
def removeChild (childName : CString) (items : List Json) : List Json :=
  items.filterMap (fun child =>
    match child.getStringValue with
    | some childString => if childString ≠ childName then some (.string childString) else none
    | none => none)

/-- `add_child_to_dentry` -/
def addChildToDentry (dirPkey childName : CString) : Op Text ℤ :=
  editDentry dirPkey (addChild childName)

/-- `remove_dentry` -/
def removeDentry (dirPkey : CString) : Op Text ℤ := do
  let resp ← askDentries (.remove dirPkey)
  return checkResult (-enoent) resp

/-- `remove_child_from_dentry` -/
def removeChildFromDentry (dirPkey childName : CString) : Op Text ℤ :=
  editDentry dirPkey (removeChild childName)

/-! ## What the two edits make of a list -/

omit [CJson Text] in
/-- A name is listed after an addition if it is the one added or was listed
before. -/
theorem mem_addChild {n m : CString} {items : List Json} :
    Json.string n ∈ addChild m items ↔ .string n ∈ items ∨ n = m := by
  simp [addChild]

omit [CJson Text] in
/-- A name is listed after a removal if it was listed before and is not the
one removed. -/
theorem mem_removeChild {n m : CString} {items : List Json} :
    Json.string n ∈ removeChild m items ↔ .string n ∈ items ∧ n ≠ m := by
  unfold removeChild
  rw [List.mem_filterMap]
  constructor
  · rintro ⟨child, hmem, h⟩
    split at h
    · next s hs =>
      split at h
      · next hne =>
        cases h
        cases child with
        | string s' =>
          cases hs
          exact ⟨hmem, hne⟩
        | _ => cases hs
      · cases h
    · cases h
  · rintro ⟨hmem, hne⟩
    exact ⟨_, hmem, by simp [Json.getStringValue, hne]⟩

omit [CJson Text] in
/-- Removing two names, in either order, leaves the other strings. -/
theorem removeChild_removeChild (n m : CString) (items : List Json) :
    removeChild n (removeChild m items)
      = items.filterMap (fun child =>
          match child.getStringValue with
          | some s => if s ≠ n ∧ s ≠ m then some (.string s) else none
          | none => none) := by
  unfold removeChild
  rw [List.filterMap_filterMap]
  congr 1
  funext child
  cases child with
  | string s =>
    by_cases hn : s = n
    · simp [Json.getStringValue, hn]
    · by_cases hm : s = m <;> simp [Json.getStringValue, hn, hm]
  | _ => rfl

omit [CJson Text] in
/-- A name that was removed need not be removed again. -/
theorem removeChild_idem (n : CString) (items : List Json) :
    removeChild n (removeChild n items) = removeChild n items := by
  rw [removeChild_removeChild]
  unfold removeChild
  simp only [and_self]

/-! ## What an edit makes of a document -/

/-- The items of the children of a document text. -/
def childItems (t : Text) : Option (List Json) :=
  Json.arrayItems (Json.getObjectItemCaseSensitive (CJson.parse t) dentryChildren)

/-- The text an edit stores in place of `t`, where `t` is a directory
document at all. -/
def editText (edit : List Json → List Json) (t : Text) : Option Text :=
  match CJson.parse t with
  | none => none
  | some j =>
    match childItems t with
    | none => none
    | some items => some (CJson.printUnformatted
        (j.replaceItemInObjectCaseSensitive dentryChildren (.array (edit items))))

/-- What an edit does after the reply to its fetch: an error, or the text
to store. -/
def editReply (edit : List Json → List Json) (resp : Response Text) : Except ℤ Text :=
  if resp.rc ≠ none then .error (-eio)
  else if resp.status ≠ none then .error (-enoent)
  else
    match (if resp.alloc then resp.doc else none) with
    | none => .error (-eio)
    | some d =>
      match editText edit d.value with
      | none => .error (-eio)
      | some t => .ok t

/-- An edit that stores nothing returns an error. -/
theorem editReply_error {edit : List Json → List Json} {resp : Response Text} {e : ℤ}
    (h : editReply edit resp = .error e) : e < 0 := by
  unfold editReply at h
  split at h
  · cases h
    decide
  · split at h
    · cases h
      decide
    · split at h
      · cases h
        decide
      · split at h
        · cases h
          decide
        · cases h

/-- An edit stores the edited text of the document it was given. -/
theorem editReply_ok {edit : List Json → List Json} {resp : Response Text} {t : Text}
    (h : editReply edit resp = .ok t) : resp.rc = none ∧ resp.status = none
      ∧ ∃ d, resp.doc = some d ∧ editText edit d.value = some t := by
  unfold editReply at h
  split at h
  · cases h
  · next hrc =>
    split at h
    · cases h
    · next hst =>
      split at h
      · cases h
      · next d hd =>
        split at h
        · cases h
        · next t' ht =>
          cases h
          split at hd
          · exact ⟨not_not.mp hrc, not_not.mp hst, d, hd, ht⟩
          · cases hd

/-- An edit makes at most two requests: the fetch and the replacement. -/
theorem editDentry_eq (dirPkey : CString) (edit : List Json → List Json) :
    (editDentry dirPkey edit : Op Text ℤ)
      = .call (.dentries (.get dirPkey)) (fun resp =>
          match editReply edit resp with
          | .error e => .ret e
          | .ok t => .call (.dentries (.store .replace dirPkey t 0))
              (fun resp => .ret (checkResult (-enoent) resp))) := by
  unfold editDentry getDentryJson askDentries
  simp only [Prog.call_bind, Prog.ret_bind]
  congr 1
  funext ⟨⟨rc, status, doc⟩, alloc⟩
  unfold editReply dentryReply syncGetCallback
  cases rc with
  | some e => rfl
  | none =>
    cases status with
    | some e => rfl
    | none =>
      cases doc with
      | none => cases alloc <;> rfl
      | some d =>
        cases alloc with
        | false => rfl
        | true =>
          unfold editText childItems
          cases hp : CJson.parse d.value with
          | none => simp [hp]
          | some j =>
            cases hi : Json.arrayItems
              (Json.getObjectItemCaseSensitive (some j) dentryChildren) with
            | none => simp [hp, hi]
            | some items => simp [hp, hi]

/-- The request is to the dentries collection. -/
def Req.OnDentries : Req Text → Prop
  | .dentries _ => True
  | _ => False

theorem editDentry_only (dirPkey : CString) (edit : List Json → List Json) :
    (editDentry dirPkey edit : Op Text ℤ).Only Req.OnDentries := by
  rw [editDentry_eq]
  refine ⟨trivial, fun resp => ?_⟩
  dsimp only
  split
  · trivial
  · exact ⟨trivial, fun _ => trivial⟩

/-- A text an edit stores is one whose children were edited. -/
theorem childItems_of_editText {edit : List Json → List Json} {t t' : Text}
    (h : editText edit t = some t') :
    ∃ items, childItems t = some items ∧ childItems t' = some (edit items) := by
  unfold editText at h
  split at h
  · cases h
  · next j hj =>
    split at h
    · cases h
    · next items hi =>
      refine ⟨items, hi, ?_⟩
      cases h
      unfold childItems at hi ⊢
      rw [hj] at hi
      cases hc : Json.getObjectItemCaseSensitive (some j) dentryChildren with
      | none => rw [hc] at hi; cases hi
      | some w =>
        rw [CJson.parse_print, Json.get_replace _ hc]
        rfl

/-- An edit leaves every other item of the document. -/
theorem getItem_of_editText {edit : List Json → List Json} {t t' : Text}
    (h : editText edit t = some t') {name : CString} (hn : name ≠ dentryChildren) :
    Json.getObjectItemCaseSensitive (CJson.parse t') name
      = Json.getObjectItemCaseSensitive (CJson.parse t) name := by
  unfold editText at h
  split at h
  · cases h
  · next j hj =>
    split at h
    · cases h
    · cases h
      rw [CJson.parse_print, hj, Json.get_replace_of_ne hn]

/-- A document with a list of children can be edited. -/
theorem editText_of_childItems (edit : List Json → List Json) {t : Text} {items : List Json}
    (h : childItems t = some items) : ∃ t', editText edit t = some t' := by
  unfold editText
  rw [h]
  cases hj : CJson.parse t with
  | none => unfold childItems at h; rw [hj] at h; cases h
  | some j => exact ⟨_, rfl⟩

/-- A text an edit stores parses to the document it was given, with its
children edited. -/
theorem parse_of_editText {edit : List Json → List Json} {t t' : Text}
    (h : editText edit t = some t') :
    ∃ j items, CJson.parse t = some j ∧ childItems t = some items
      ∧ t' = CJson.printUnformatted
          (j.replaceItemInObjectCaseSensitive dentryChildren (.array (edit items))) := by
  unfold editText at h
  split at h
  · cases h
  · next j hj =>
    split at h
    · cases h
    · next items hi =>
      cases h
      exact ⟨j, items, hj, hi, rfl⟩

/-- **Two edits are one**: what the first has printed the second reads back,
and replaces the same item. -/
theorem editText_editText {e f : List Json → List Json} {t t' : Text}
    (h : editText e t = some t') : editText f t' = editText (f ∘ e) t := by
  obtain ⟨items, hi, hi'⟩ := childItems_of_editText h
  obtain ⟨j, items₁, hj, hi₁, rfl⟩ := parse_of_editText h
  cases hi.symm.trans hi₁
  unfold editText
  rw [hi', hi, CJson.parse_print, hj]
  simp only [Json.replace_replace, Function.comp]

/-! ## What the programs do when nothing fails -/

section FaultFree

variable {I : Store Text → Prop} {s : Store Text} {p : CString}

theorem wp_addNewDentry {dirPath : CString} {parentPath : Option CString}
    {post : ℤ → Store Text → Prop} (hI : I s)
    (hnew : s.dentries.val p = none →
      let t := CJson.printUnformatted (createDentry dirPath parentPath [])
      I (s.putDentry p t) ∧ post 0 (s.putDentry p t))
    (hold : s.dentries.val p ≠ none → post (-enoent) s) :
    (addNewDentry p dirPath parentPath).wp serve Choice.FaultFree I post s := by
  unfold addNewDentry askDentries
  rw [Prog.call_bind]
  intro c hc
  rw [hc.serve_dentries]
  cases hd : s.dentries.docs p with
  | none =>
    have hv : s.dentries.verdict .insert p 0 = none := by simp only [Kv.Collection.verdict, hd]
    simp only [Kv.Collection.serve, hv]
    exact hnew ((Kv.Collection.val_eq_none _ _).mpr hd)
  | some d =>
    have hv : s.dentries.verdict .insert p 0 = some .keyExists := by
      simp only [Kv.Collection.verdict, hd]
    simp only [Kv.Collection.serve, hv]
    refine ⟨hI, hold ?_⟩
    exact Kv.Collection.val_ne_none_of_docs hd

omit [CJson Text] in
theorem wp_removeDentry {post : ℤ → Store Text → Prop} (hI : I s)
    (hold : s.dentries.val p ≠ none → I (s.eraseDentry p) ∧ post 0 (s.eraseDentry p))
    (hnone : s.dentries.val p = none → post (-enoent) s) :
    (removeDentry p).wp serve Choice.FaultFree I post s := by
  unfold removeDentry askDentries
  rw [Prog.call_bind]
  intro c hc
  rw [hc.serve_dentries]
  cases hd : s.dentries.docs p with
  | none =>
    simp only [Kv.Collection.serve, hd]
    exact ⟨hI, hnone ((Kv.Collection.val_eq_none _ _).mpr hd)⟩
  | some d =>
    simp only [Kv.Collection.serve, hd]
    exact hold (Kv.Collection.val_ne_none_of_docs hd)

/-- An edit of a directory document replaces it by the edited text; any
other edit changes nothing. -/
theorem wp_editDentry {edit : List Json → List Json} {post : ℤ → Store Text → Prop} (hI : I s)
    (hnone : s.dentries.val p = none → post (-enoent) s)
    (hbad : ∀ t, s.dentries.val p = some t → editText edit t = none → post (-eio) s)
    (hok : ∀ t t', s.dentries.val p = some t → editText edit t = some t' →
      I (s.putDentry p t') ∧ post 0 (s.putDentry p t')) :
    (editDentry p edit).wp serve Choice.FaultFree I post s := by
  rw [editDentry_eq]
  intro c hc
  rw [hc.serve_dentries]
  cases hd : s.dentries.docs p with
  | none =>
    simp only [Kv.Collection.serve, hd]
    exact ⟨hI, hnone ((Kv.Collection.val_eq_none _ _).mpr hd)⟩
  | some d =>
    have hv := Kv.Collection.val_of_docs hd
    simp only [Kv.Collection.serve, hd]
    refine ⟨hI, ?_⟩
    unfold editReply
    cases ht : editText edit d.value with
    | none => simpa [ht] using hbad _ hv ht
    | some t' =>
      simp only [ne_eq, not_true_eq_false, if_false, if_true, ht]
      intro c' hc'
      have hrep : s.dentries.verdict .replace p 0 = none := by
        simp [Kv.Collection.verdict, hd]
      rw [hc'.serve_dentries]
      simp only [Kv.Collection.serve, hrep]
      exact hok _ _ hv ht

end FaultFree

end Programs

end Cbfuse
