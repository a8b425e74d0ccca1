import LibSwish3.Config

/-!
# Named buffers

One buffer of text for each MetaName and each Property of a document.

`swish_nb_add_str` with `cleanwsp` cleans the text in place before it adds it, so a caller that
adds it to several buffers adds what the first call has left: `cleanedInPlace`.

## Main definitions

* `NamedBuffer`, `nbInit`, `nbNew`, `nbAddStr` — the functions of `namedbuffer.c`.
* `cleanedInPlace` — what adding leaves of the text.
* `bufferConcat` — `swish_buffer_concat`.
-/

namespace LibSwish3

open Tables

/-- Buffers by name. -/
abbrev NamedBuffer := HashTable XmlStr

/-- `swish_nb_init`: an empty buffer for each key of a config table. -/
def nbInit {α : Type} (confhash : HashTable α) : NamedBuffer :=
  mergeWith (fun _ _ _ => []) (∅ : NamedBuffer) confhash

/-- `swish_nb_new`: a buffer that is there is left alone, with a warning. -/
def nbNew (nb : NamedBuffer) (key : XmlStr) : NamedBuffer :=
  if key ∈ nb then nb else nb.insert key []

/-- The text that is added: as it is, or with control bytes made blanks and the blanks at
both ends removed. -/
def cleanedText (cleanwsp : Bool) (str : XmlStr) : XmlStr :=
  if cleanwsp then strTrimWs (strSkipWs (strCtrlToWs (cstr str))) else str

/-- What `swish_nb_add_str` leaves of the text: the blanks in front of it stay. -/
def cleanedInPlace (cleanwsp : Bool) (str : XmlStr) : XmlStr :=
  if !cleanwsp || strAllWs (cstr str) then str
  else
    let text := strCtrlToWs (cstr str)
    text.takeWhile isspace ++ strTrimWs (strSkipWs text)

/-- Append a text to a buffer, behind the joiner where the buffer is not empty. -/
def joinText (buf joiner text : XmlStr) : XmlStr :=
  if buf.isEmpty then text else buf ++ joiner ++ text

/-- `swish_nb_add_str`: blank text is skipped before anything else is looked at. -/
def nbAddStr (nb : NamedBuffer) (name str joiner : XmlStr) (cleanwsp autovivify : Bool) :
    Swish NamedBuffer :=
  if strAllWs (cstr str) then .ok nb
  else match nb.lookup name with
    | some buf => .ok (nb.insert name (joinText buf joiner (cleanedText cleanwsp str)))
    | none =>
      if autovivify then .ok (nb.insert name (joinText [] joiner (cleanedText cleanwsp str)))
      else .error (.notNamed (name ++ lit " is not a named buffer"))

/-- The body of the scan of `swish_buffer_concat`: `buf2` follows behind a bumper. -/
def catBuffer (buf : XmlStr) (buf2 : Option XmlStr) : XmlStr :=
  let text := cstr (buf2.getD [])
  if text.isEmpty then buf
  else (if buf.isEmpty then buf else buf ++ Swish.tokenposBumper) ++ text

/-- `swish_buffer_concat`: only the names of the first are looked at. -/
def bufferConcat (nb1 nb2 : NamedBuffer) : NamedBuffer :=
  mergeWith (fun name found buf => catBuffer (found.getD buf) (nb2.lookup name)) nb1 nb1

/-- The content under a name, empty where there is no buffer. -/
def NamedBuffer.content (nb : NamedBuffer) (name : XmlStr) : XmlStr := (nb.lookup name).getD []

@[simp] theorem mem_nbInit {α : Type} {confhash : HashTable α} {name : XmlStr} :
    name ∈ nbInit confhash ↔ name ∈ confhash := by
  simp [nbInit]

theorem content_nbInit {α : Type} (confhash : HashTable α) (name : XmlStr) :
    (nbInit confhash).content name = [] := by
  rw [NamedBuffer.content, nbInit]
  rw [lookup_mergeWith]
  cases confhash.lookup name <;> simp

@[simp] theorem mem_nbNew {nb : NamedBuffer} {key name : XmlStr} :
    name ∈ nbNew nb key ↔ name = key ∨ name ∈ nb := by
  rw [nbNew]
  split
  · rename_i hmem
    exact ⟨.inr, fun h => h.elim (fun heq => heq ▸ hmem) id⟩
  · exact AList.mem_insert _

/-- A new buffer is empty. -/
@[simp] theorem content_nbNew (nb : NamedBuffer) (key : XmlStr) :
    (nbNew nb key).content = nb.content := by
  rw [nbNew]
  split
  · rfl
  · rename_i hnew
    funext name
    unfold NamedBuffer.content
    by_cases hname : name = key
    · rw [hname, AList.lookup_insert, AList.lookup_eq_none.mpr hnew]
      rfl
    · rw [AList.lookup_insert_ne hname]

/-- What adding a text does to the content under every name. -/
theorem content_nbAddStr {nb nb' : NamedBuffer} {name str joiner : XmlStr}
    {cleanwsp autovivify : Bool} (h : nbAddStr nb name str joiner cleanwsp autovivify = .ok nb')
    (k : XmlStr) :
    nb'.content k =
      if k = name ∧ strAllWs (cstr str) = false then
        joinText (nb.content k) joiner (cleanedText cleanwsp str)
      else nb.content k := by
  unfold nbAddStr at h
  split at h
  · rename_i hws
    cases h
    simp [hws]
  · rename_i hws
    have hnot : strAllWs (cstr str) = false := by simpa using hws
    have key : ∀ buf : XmlStr, nb.content name = buf →
        NamedBuffer.content (nb.insert name (joinText buf joiner (cleanedText cleanwsp str))) k =
        if k = name ∧ strAllWs (cstr str) = false then
          joinText (nb.content k) joiner (cleanedText cleanwsp str)
        else nb.content k := by
      intro buf hbuf
      unfold NamedBuffer.content at hbuf ⊢
      by_cases hk : k = name
      · subst hk
        simp [hnot, hbuf]
      · simp [hk, AList.lookup_insert_ne hk]
    split at h
    · rename_i buf hlook
      cases h
      exact key buf (by simp [NamedBuffer.content, hlook])
    · rename_i hlook
      split at h
      · cases h
        exact key [] (by simp [NamedBuffer.content, hlook])
      · cases h

/-- Without `autovivify` the names stay as they are. -/
theorem mem_nbAddStr {nb nb' : NamedBuffer} {name str joiner : XmlStr} {cleanwsp : Bool}
    (h : nbAddStr nb name str joiner cleanwsp false = .ok nb') (k : XmlStr) :
    k ∈ nb' ↔ k ∈ nb := by
  unfold nbAddStr at h
  split at h
  · cases h
    rfl
  · split at h
    · rename_i buf hlook
      cases h
      rw [AList.mem_insert]
      constructor
      · rintro (rfl | hk)
        · exact mem_of_lookup hlook
        · exact hk
      · exact .inr
    · simp at h

/-- Adding a text that is not blank leaves a buffer of that name. -/
theorem mem_of_nbAddStr {nb nb' : NamedBuffer} {name str joiner : XmlStr}
    {cleanwsp autovivify : Bool} (h : nbAddStr nb name str joiner cleanwsp autovivify = .ok nb')
    (k : XmlStr) : k ∈ nb' ↔ k ∈ nb ∨ strAllWs (cstr str) = false ∧ k = name := by
  unfold nbAddStr at h
  split at h
  · rename_i hblank
    cases h
    simp [hblank]
  · rename_i hblank
    have hnot : strAllWs (cstr str) = false := by simpa using hblank
    split at h
    · cases h
      rw [AList.mem_insert, hnot]
      simp [or_comm]
    · split at h
      · cases h
        rw [AList.mem_insert, hnot]
        simp [or_comm]
      · cases h

/-- With `autovivify` adding never fails; without it, only under a name without a buffer. -/
theorem nbAddStr_ok_of {nb : NamedBuffer} {name : XmlStr} (str joiner : XmlStr)
    (cleanwsp : Bool) {autovivify : Bool} (h : autovivify = true ∨ name ∈ nb) :
    ∃ nb', nbAddStr nb name str joiner cleanwsp autovivify = .ok nb' := by
  rw [nbAddStr]
  split
  · exact ⟨nb, rfl⟩
  · split
    · exact ⟨_, rfl⟩
    · rename_i hlook
      obtain rfl | hmem := h
      · exact ⟨_, rfl⟩
      · exact absurd hmem (AList.lookup_eq_none.mp hlook)

end LibSwish3
