import LibSwish3.Lib.Runs
import LibSwish3.Tokenizer

/-!
# Token lists in memory

A token list keeps the bytes of all its tokens in one buffer and the tokens in an array of
slots that grows by `SWISH_TOKEN_LIST_SIZE`.  The buffer may move when it grows, so a token
remembers an offset, and its pointer is computed again each time the iterator returns it.

`Stores` ties such a list to a `TokenList`: adding a token to one is adding it to the other.
The calls of a caller then are those of a queue: what the iterator returns is what was added,
in order, however often the buffer has moved in between.

## Main definitions

* `TextBuf`, `TextPtr` — a buffer that may move, and pointers into it.
* `TokenStore`, `storeAddToken` — `swish_TokenList` and `swish_token_list_add_token`.
* `TokenIterator`, `nextToken` — `swish_token_iterator_next_token`.
* `Stores` — the token list that a store holds.
* `returned` — the queue.
-/

namespace LibSwish3

open Runs Tables

/-! ## Buffers and pointers -/

/-- An `xmlBuffer`; `block` counts the times its bytes have moved. -/
structure TextBuf where
  block : Nat
  bytes : XmlStr

structure TextPtr where
  block : Nat
  offset : Nat
  deriving DecidableEq, Repr

/-- `xmlBufferAdd`, which may move the bytes. -/
def TextBuf.add (buf : TextBuf) (str : XmlStr) (len : Nat) (moves : Bool) : TextBuf where
  block := if moves then buf.block + 1 else buf.block
  bytes := buf.bytes ++ str.take len

/-- The string at a pointer, which is no longer there when the bytes have moved. -/
def TextBuf.strAt (buf : TextBuf) (ptr : TextPtr) : Swish XmlStr :=
  if ptr.block = buf.block then .ok (cstr (buf.bytes.drop ptr.offset))
  else .error (.fault .useAfterFree)

/-! ## The list -/

/-- `swish_Token`. -/
structure StoredToken where
  pos : UInt32
  offset : Nat
  metaname : MetaName
  context : XmlStr
  value : TextPtr
  len : Nat

/-- `swish_TokenList`; a slot that was never written holds no token. -/
structure TokenStore where
  buf : TextBuf
  n : Nat
  pos : UInt32
  tokens : List (Option StoredToken)
  contexts : HashTable XmlStr

def tokenListSize : Nat := 1024

/-- `swish_token_list_init`. -/
def TokenStore.init : TokenStore where
  buf := ⟨0, []⟩
  n := 0
  pos := 0
  tokens := List.replicate tokenListSize none
  contexts := ∅

/-- `swish_token_list_get_token_value`. -/
def getTokenValue (tl : TokenStore) (t : StoredToken) : TextPtr := ⟨tl.buf.block, t.offset⟩

/-- `swish_hash_exists_or_add`. -/
def hashExistsOrAdd (hash : HashTable XmlStr) (key value : XmlStr) : HashTable XmlStr :=
  if key ∈ hash then hash else hash.insert key value

/-- `swish_xrealloc` of the slots: those that are new are not initialized. -/
def reallocSlots (tokens : List (Option StoredToken)) (size : Nat) :
    List (Option StoredToken) :=
  tokens.take size ++ List.replicate (size - tokens.length) none

/-- The slots with room for one token behind the first `n`. -/
def growSlots (tokens : List (Option StoredToken)) (n : Nat) : List (Option StoredToken) :=
  let numOfAllocs := n / tokenListSize
  if numOfAllocs ≠ 0 ∧ n % tokenListSize = 0 then
    reallocSlots tokens (tokenListSize * (numOfAllocs + 1))
  else tokens

/-- `tl->tokens[tl->n++] = stoken`. -/
def putToken (tl : TokenStore) (stoken : StoredToken) : Swish TokenStore :=
  if tl.n < tl.tokens.length then
    .ok { tl with tokens := tl.tokens.set tl.n (some stoken), n := tl.n + 1 }
  else .error (.fault .outOfBounds)

/-- `swish_token_list_add_token`; `moves` says whether the buffer moves. -/
def storeAddToken (tl : TokenStore) (token : XmlStr) (tokenLen : Nat) (m : Option MetaName)
    (context : XmlStr) (moves : Bool) : Swish TokenStore :=
  if tokenLen = 0 ∨ (cstr token).isEmpty then
    croak [lit "can't add empty token to token list"]
  else match m with
    | none => .error (.fault .nullDeref)
    | some m => do
      let offset := tl.buf.bytes.length
      let tl := { tl with
        pos := tl.pos + 1
        buf := tl.buf.add token tokenLen moves
        contexts := hashExistsOrAdd tl.contexts context context }
      let stoken : StoredToken := {
        pos := tl.pos
        offset := offset
        metaname := m
        context := (tl.contexts.lookup context).getD []
        value := ⟨tl.buf.block, offset⟩
        len := tokenLen - 1 }
      putToken { tl with tokens := growSlots tl.tokens tl.n } stoken

/-! ## The iterator -/

/-- `swish_TokenIterator`; the analyzer is not read here. -/
structure TokenIterator where
  pos : Nat
  tl : TokenStore

/-- `swish_token_iterator_init`. -/
def TokenIterator.init : TokenIterator := ⟨0, .init⟩

/-- `swish_token_iterator_next_token`. -/
def nextToken (it : TokenIterator) : Swish (Option StoredToken × TokenIterator) :=
  if it.tl.n ≤ it.pos then .ok (none, it)
  else match it.tl.tokens[it.pos]? with
    | some (some t) =>
      let t := { t with value := getTokenValue it.tl t }
      .ok (some t, ⟨it.pos + 1, { it.tl with tokens := it.tl.tokens.set it.pos (some t) }⟩)
    | some none => .error (.fault .strayPointer)
    | none => .error (.fault .outOfBounds)

/-! ## The list that a store holds -/

/-- A slot holds a token whose bytes start at an offset. -/
structure StoresToken (offset : Nat) (t : Token) (stoken : StoredToken) : Prop where
  pos : stoken.pos = t.pos
  offset : stoken.offset = offset
  metaname : stoken.metaname = t.metaname
  context : stoken.context = t.context
  len : stoken.len = t.len

/-- The bytes of a list of tokens, one behind the other. -/
def tokenBytes (tokens : List Token) : XmlStr := tokens.flatMap Token.bytes

/-- The joint invariant: the first slots hold the tokens, at the offsets where their bytes
are, and there are as many slots as the rule for growing them allows. -/
structure Stores (s : TokenStore) (tl : TokenList) : Prop where
  pos : s.pos = tl.pos
  n : s.n = tl.tokens.length
  bytes : s.buf.bytes = tokenBytes tl.tokens
  slots : ∀ i t, tl.tokens[i]? = some t → ∃ stoken, s.tokens[i]? = some (some stoken) ∧
    StoresToken (tokenBytes (tl.tokens.take i)).length t stoken
  room : s.tokens.length = tokenListSize * max 1 ((s.n + tokenListSize - 1) / tokenListSize)
  contexts : ∀ k v, s.contexts.lookup k = some v → v = k

section Store

variable {s s' : TokenStore} {tl tl' : TokenList} {token context : XmlStr} {tokenLen : Nat}
  {m : Option MetaName} {moves : Bool} {it : TokenIterator}

theorem stores_init : Stores .init .init where
  pos := rfl
  n := rfl
  bytes := rfl
  slots i t h := by simp [TokenList.init] at h
  room := List.length_replicate
  contexts k v h := by simp [TokenStore.init] at h

/-- The array grows exactly when its slots are used up. -/
theorem length_growSlots {tokens : List (Option StoredToken)} {n : Nat}
    (h : tokens.length = tokenListSize * max 1 ((n + tokenListSize - 1) / tokenListSize)) :
    (growSlots tokens n).length =
      tokenListSize * max 1 ((n + 1 + tokenListSize - 1) / tokenListSize) := by
  simp only [growSlots, reallocSlots]
  by_cases hfull : n / tokenListSize ≠ 0 ∧ n % tokenListSize = 0
  · rw [if_pos hfull, List.length_append, List.length_take, List.length_replicate]
    simp only [tokenListSize] at h hfull ⊢
    omega
  · rw [if_neg hfull]
    simp only [tokenListSize] at h hfull ⊢
    omega

theorem lt_length_growSlots {tokens : List (Option StoredToken)} {n : Nat}
    (h : tokens.length = tokenListSize * max 1 ((n + tokenListSize - 1) / tokenListSize)) :
    n < (growSlots tokens n).length := by
  rw [length_growSlots h]
  simp only [tokenListSize]
  omega

/-- Growing keeps the slots there are. -/
theorem getElem?_growSlots {tokens : List (Option StoredToken)} {n i : Nat}
    (h : tokens.length = tokenListSize * max 1 ((n + tokenListSize - 1) / tokenListSize))
    (hi : i < tokens.length) : (growSlots tokens n)[i]? = tokens[i]? := by
  simp only [growSlots, reallocSlots]
  by_cases hfull : n / tokenListSize ≠ 0 ∧ n % tokenListSize = 0
  · have hsize : tokens.length ≤ tokenListSize * (n / tokenListSize + 1) := by
      simp only [tokenListSize] at h ⊢
      omega
    rw [if_pos hfull, List.take_of_length_le hsize, List.getElem?_append_left hi]
  · rw [if_neg hfull]

theorem lookup_hashExistsOrAdd {hash : HashTable XmlStr}
    (h : ∀ k v, hash.lookup k = some v → v = k) (key : XmlStr) :
    (hashExistsOrAdd hash key key).lookup key = some key ∧
      ∀ k v, (hashExistsOrAdd hash key key).lookup k = some v → v = k := by
  rw [hashExistsOrAdd]
  split
  · rename_i hmem
    obtain ⟨v, hv⟩ := mem_iff_exists_lookup.mp hmem
    exact ⟨by rw [hv, h key v hv], h⟩
  · refine ⟨AList.lookup_insert hash, ?_⟩
    intro k v hk
    by_cases hkey : k = key
    · subst hkey
      rw [AList.lookup_insert] at hk
      exact (Option.some.inj hk).symm
    · rw [AList.lookup_insert_ne hkey] at hk
      exact h k v hk

/-- Adding a token to a store is adding it to the list that the store holds. -/
theorem storeAddToken_stores (h : Stores s tl) (moves : Bool)
    (hadd : tokenListAddToken tl token tokenLen m context = .ok tl') :
    ∃ s', storeAddToken s token tokenLen m context moves = .ok s' ∧ Stores s' tl' := by
  unfold tokenListAddToken at hadd
  unfold storeAddToken
  split at hadd
  · cases hadd
  · rename_i hnot
    rw [if_neg hnot]
    cases m with
    | none => cases hadd
    | some m =>
        cases hadd
        obtain ⟨hcontext, hcontexts⟩ := lookup_hashExistsOrAdd h.contexts context
        have hlt : s.n < (growSlots s.tokens s.n).length := lt_length_growSlots h.room
        refine ⟨_, if_pos hlt, ?_, ?_, ?_, ?_, ?_, hcontexts⟩
        · simp [h.pos]
        · simp [h.n]
        · simp [TextBuf.add, h.bytes, tokenBytes]
        · intro i t ht
          by_cases hi : i < tl.tokens.length
          · rw [List.getElem?_append_left hi] at ht
            obtain ⟨stoken, hslot, hstoken⟩ := h.slots i t ht
            refine ⟨stoken, ?_, ?_⟩
            · rw [List.getElem?_set_ne (by rw [h.n]; omega), ← hslot]
              refine getElem?_growSlots h.room ?_
              exact (List.getElem?_eq_some_iff.mp hslot).1
            · rwa [List.take_append_of_le_length hi.le]
          · have hlast : i = tl.tokens.length := by
              have hlen := (List.getElem?_eq_some_iff.mp ht).1
              simp at hlen
              omega
            subst hlast
            rw [List.getElem?_concat_length] at ht
            cases ht
            refine ⟨_, by rw [← h.n]; exact List.getElem?_set_self hlt, ?_⟩
            exact ⟨by simp [h.pos], by simp [h.bytes], rfl, by simp [hcontext], rfl⟩
        · simpa using length_growSlots h.room

/-- The iterator moves on to the token at its position. -/
theorem nextToken_stores (h : Stores it.tl tl) {t : Token} (ht : tl.tokens[it.pos]? = some t) :
    ∃ stoken it', nextToken it = .ok (some stoken, it') ∧ it'.pos = it.pos + 1 ∧
      Stores it'.tl tl ∧ StoresToken (tokenBytes (tl.tokens.take it.pos)).length t stoken ∧
      it'.tl.buf.strAt stoken.value =
        .ok (cstr ((tokenBytes tl.tokens).drop (tokenBytes (tl.tokens.take it.pos)).length)) := by
  obtain ⟨stoken, hslot, hstoken⟩ := h.slots it.pos t ht
  have hlt : it.pos < tl.tokens.length := (List.getElem?_eq_some_iff.mp ht).1
  let stoken' := { stoken with value := getTokenValue it.tl stoken }
  refine ⟨stoken', ⟨it.pos + 1, { it.tl with tokens := it.tl.tokens.set it.pos (some stoken') }⟩,
    ?_, rfl, ?_, ?_, ?_⟩
  · rw [nextToken, if_neg (by rw [h.n]; omega), hslot]
  · refine ⟨h.pos, h.n, h.bytes, ?_, by simpa using h.room, h.contexts⟩
    intro i u hu
    obtain ⟨other, hother, hstores⟩ := h.slots i u hu
    by_cases hi : it.pos = i
    · subst hi
      obtain rfl : t = u := Option.some.inj (ht.symm.trans hu)
      refine ⟨_, List.getElem?_set_self (List.getElem?_eq_some_iff.mp hslot).1, ?_⟩
      exact ⟨hstoken.pos, hstoken.offset, hstoken.metaname, hstoken.context, hstoken.len⟩
    · exact ⟨other, by rw [List.getElem?_set_ne hi, hother], hstores⟩
  · exact ⟨hstoken.pos, hstoken.offset, hstoken.metaname, hstoken.context, hstoken.len⟩
  · have hoffset : stoken'.value.offset = (tokenBytes (tl.tokens.take it.pos)).length :=
      hstoken.offset
    simp only [TextBuf.strAt, hoffset, h.bytes]
    exact if_pos rfl

/-- Past the last token the iterator stays where it is. -/
theorem nextToken_none (h : Stores it.tl tl) (hpos : tl.tokens.length ≤ it.pos) :
    nextToken it = .ok (none, it) := by
  rw [nextToken, if_pos (by rw [h.n]; exact hpos)]

/-- The bytes of a token start where those before it end. -/
theorem drop_tokenBytes {tokens : List Token} {i : Nat} {t : Token} (h : tokens[i]? = some t) :
    (tokenBytes tokens).drop (tokenBytes (tokens.take i)).length =
      t.bytes ++ tokenBytes (tokens.drop (i + 1)) := by
  have hlt : i < tokens.length := (List.getElem?_eq_some_iff.mp h).1
  have hsplit : tokens = tokens.take i ++ t :: tokens.drop (i + 1) := by
    conv_lhs => rw [← List.take_append_drop i tokens, List.drop_eq_getElem_cons hlt]
    rw [(List.getElem?_eq_some_iff.mp h).2]
  calc (tokenBytes tokens).drop (tokenBytes (tokens.take i)).length
      = (tokenBytes (tokens.take i) ++ tokenBytes (t :: tokens.drop (i + 1))).drop
          (tokenBytes (tokens.take i)).length := by
        rw [← show tokenBytes tokens = tokenBytes (tokens.take i) ++
          tokenBytes (t :: tokens.drop (i + 1)) by
            conv_lhs => rw [hsplit]
            exact List.flatMap_append]
    _ = t.bytes ++ tokenBytes (tokens.drop (i + 1)) := by
        rw [List.drop_left]
        rfl

end Store

/-! ## Runs of calls -/

/-- A call on an iterator and its list. -/
inductive TokenCall
  /-- Add a string with its NUL. -/
  | addToken (token : XmlStr) (metaname : MetaName) (context : XmlStr) (moves : Bool)
  | nextToken

/-- A string is added with `token_len = strlen(token) + 1`. -/
def TokenCall.WellFormed : TokenCall → Prop
  | .addToken token _ _ _ => token ≠ [] ∧ (0 : XmlChar) ∉ token
  | .nextToken => True

/-- What a caller sees of a token when it is returned. -/
structure Returned where
  value : XmlStr
  len : Nat
  pos : UInt32
  metaname : MetaName
  context : XmlStr
  deriving DecidableEq

/-- One call, and what it returned behind what the calls before it did. -/
def tokenCall (s : TokenIterator × List (Option Returned)) :
    TokenCall → Swish (TokenIterator × List (Option Returned))
  | .addToken token metaname context moves => do
    let tl ← storeAddToken s.1.tl (token ++ [0]) (token.length + 1) (some metaname) context moves
    pure ({ s.1 with tl }, s.2)
  | .nextToken => do
    match ← nextToken s.1 with
    | (none, it) => pure (it, s.2 ++ [none])
    | (some t, it) => do
      let value ← it.tl.buf.strAt t.value
      pure (it, s.2 ++ [some ⟨value, t.len, t.pos, t.metaname, t.context⟩])

/-- The strings that the calls add. -/
def addedTokens (calls : List TokenCall) : List XmlStr :=
  calls.filterMap fun call => match call with
    | .addToken token _ _ _ => some token
    | .nextToken => none

/-- The queue: what the calls return when `pos` tokens have been added and those that `waiting`
holds have not been returned. -/
def returned : (pos : UInt32) → (waiting : List Returned) → List TokenCall → List (Option Returned)
  | _, _, [] => []
  | pos, waiting, .addToken token metaname context _ :: calls =>
    returned (pos + 1) (waiting ++ [⟨token, token.length, pos + 1, metaname, context⟩]) calls
  | pos, [], .nextToken :: calls => none :: returned pos [] calls
  | pos, t :: waiting, .nextToken :: calls => some t :: returned pos waiting calls

/-- What a caller sees of a token of the list. -/
def Token.returned (t : Token) : Returned := ⟨t.value, t.len, t.pos, t.metaname, t.context⟩

/-- The tokens are strings with their NUL. -/
def Strings (tokens : List Token) : Prop :=
  ∀ t ∈ tokens, t.value ≠ [] ∧ (0 : XmlChar) ∉ t.value ∧ t.len = t.value.length ∧
    t.bytes = t.value ++ [0]

/-- The token that adding a string makes. -/
def stringToken (token : XmlStr) (pos : UInt32) (metaname : MetaName) (context : XmlStr) : Token :=
  ⟨token ++ [0], token.length, pos, metaname, context⟩

section Runs

variable {tl : TokenList} {it : TokenIterator} {token context : XmlStr} {metaname : MetaName}
  {moves : Bool} {pos : UInt32} {outs : List (Option Returned)} {calls : List TokenCall}

@[simp] theorem value_stringToken : (stringToken token pos metaname context).value = token := by
  simp [stringToken, Token.value]

theorem Strings.concat {tokens : List Token} (h : Strings tokens) (hne : token ≠ [])
    (hzero : (0 : XmlChar) ∉ token) :
    Strings (tokens ++ [stringToken token pos metaname context]) := by
  intro t ht
  rcases List.mem_append.mp ht with ht | ht
  · exact h t ht
  · obtain rfl := List.mem_singleton.mp ht
    rw [value_stringToken]
    exact ⟨hne, hzero, rfl, rfl⟩

variable (outs) in
/-- A call that adds a string. -/
theorem tokenCall_addToken (h : Stores it.tl tl) (hne : token ≠ [])
    (hzero : (0 : XmlChar) ∉ token) :
    ∃ s, tokenCall (it, outs) (.addToken token metaname context moves) =
        .ok (⟨it.pos, s⟩, outs) ∧
      Stores s ⟨tl.pos + 1, tl.tokens ++ [stringToken token (tl.pos + 1) metaname context]⟩ := by
  have hadd : tokenListAddToken tl (token ++ [0]) (token.length + 1) (some metaname) context =
      .ok ⟨tl.pos + 1, tl.tokens ++ [stringToken token (tl.pos + 1) metaname context]⟩ := by
    rw [tokenListAddToken, cstr_append hzero, if_neg (by simpa using hne),
      List.take_of_length_le (by simp)]
    rfl
  obtain ⟨s, hs, hstores⟩ := storeAddToken_stores h moves hadd
  exact ⟨s, by rw [tokenCall, hs]; rfl, hstores⟩

variable (outs) in
/-- A call that returns a token reads back the string that was added. -/
theorem tokenCall_nextToken (h : Stores it.tl tl) (hstrings : Strings tl.tokens) {t : Token}
    (ht : tl.tokens[it.pos]? = some t) :
    ∃ it', tokenCall (it, outs) .nextToken = .ok (it', outs ++ [some t.returned]) ∧
      it'.pos = it.pos + 1 ∧ Stores it'.tl tl := by
  obtain ⟨stoken, it', hnext, hpos, hstores, hstoken, hvalue⟩ := nextToken_stores h ht
  obtain ⟨-, hzero, -, hbytes⟩ := hstrings t (List.mem_of_getElem? ht)
  refine ⟨it', ?_, hpos, hstores⟩
  rw [drop_tokenBytes ht, hbytes, List.append_assoc, List.singleton_append,
    cstr_append hzero] at hvalue
  rw [tokenCall, hnext]
  simp only [ok_bind, hvalue, pure_eq_ok, Token.returned, hstoken.pos, hstoken.len,
    hstoken.metaname, hstoken.context]

variable (it outs) in
/-- A run of calls is a run of the queue. -/
theorem run_tokenCall (h : Stores it.tl tl) (hstrings : Strings tl.tokens)
    (hpos : tl.pos = pos) (hit : it.pos ≤ tl.tokens.length)
    (hcalls : ∀ call ∈ calls, call.WellFormed) :
    ∃ it' tl', run tokenCall (it, outs) calls =
        .ok (it', outs ++ returned pos ((tl.tokens.drop it.pos).map Token.returned) calls) ∧
      Stores it'.tl tl' ∧ Strings tl'.tokens ∧
      tl'.tokens.map Token.value = tl.tokens.map Token.value ++ addedTokens calls := by
  induction calls generalizing it tl pos outs with
  | nil =>
      refine ⟨it, tl, ?_, h, hstrings, ?_⟩
      · simp [returned]
      · simp [addedTokens]
  | cons call calls ih =>
      have hrest : ∀ c ∈ calls, c.WellFormed := fun c hc => hcalls c (by simp [hc])
      cases call with
      | addToken token metaname context moves =>
          obtain ⟨hne, hzero⟩ := hcalls _ List.mem_cons_self
          obtain ⟨s, hstep, hstores⟩ := tokenCall_addToken outs h hne hzero
          obtain ⟨it', tl', hrun, hstores', hstrings', hadded⟩ := ih ⟨it.pos, s⟩ outs
            hstores (hstrings.concat hne hzero) rfl (hit.trans (by simp)) hrest
          refine ⟨it', tl', ?_, hstores', hstrings', ?_⟩
          · rw [run_cons_of_ok hstep, hrun, List.drop_append_of_le_length hit, hpos]
            simp [returned, Token.returned, stringToken, Token.value]
          · rw [hadded]
            simp [addedTokens]
      | nextToken =>
          by_cases hmore : it.pos < tl.tokens.length
          · obtain ⟨it₁, hstep, hpos₁, hstores⟩ := tokenCall_nextToken outs h hstrings
              (List.getElem?_eq_getElem hmore)
            obtain ⟨it', tl', hrun, hstores', hstrings', hadded⟩ := ih it₁ _ hstores hstrings hpos
              (by omega) hrest
            refine ⟨it', tl', ?_, hstores', hstrings', hadded⟩
            rw [run_cons_of_ok hstep, hrun, hpos₁, List.drop_eq_getElem_cons hmore, List.map_cons,
              returned, List.append_assoc]
            rfl
          · have hstep : tokenCall (it, outs) .nextToken = .ok (it, outs ++ [none]) := by
              rw [tokenCall, nextToken_none h (by omega)]
              rfl
            obtain ⟨it', tl', hrun, hstores', hstrings', hadded⟩ :=
              ih it _ h hstrings hpos hit hrest
            refine ⟨it', tl', ?_, hstores', hstrings', hadded⟩
            rw [run_cons_of_ok hstep, hrun, List.drop_of_length_le (by omega), List.map_nil,
              returned, List.append_assoc]
            rfl

/-- A list of tokens that are strings with their NUL has the bytes of these. -/
theorem Strings.tokenBytes {tokens : List Token} (h : Strings tokens) :
    tokenBytes tokens = (tokens.map Token.value).flatMap (· ++ [0]) := by
  rw [LibSwish3.tokenBytes, List.flatMap_map]
  exact List.flatMap_congr fun t ht => (h t ht).2.2.2

/-- A string is found at its offset. -/
theorem Stores.slice {s : TokenStore} (h : Stores s tl) (hstrings : Strings tl.tokens) {i : Nat}
    (hi : (tl.tokens.map Token.value)[i]? = some token) :
    ∃ t, s.tokens[i]? = some (some t) ∧ t.len = token.length ∧
      (s.buf.bytes.drop t.offset).take (t.len + 1) = token ++ [0] := by
  rw [List.getElem?_map] at hi
  obtain ⟨u, hu, rfl⟩ := Option.map_eq_some_iff.mp hi
  obtain ⟨t, hslot, hstores⟩ := h.slots i u hu
  obtain ⟨-, -, hlen, hbytes⟩ := hstrings u (List.mem_of_getElem? hu)
  refine ⟨t, hslot, hstores.len.trans hlen, ?_⟩
  rw [h.bytes, hstores.offset, drop_tokenBytes hu, hstores.len, hlen, hbytes]
  exact List.take_left' (by simp)

end Runs

/-! ## The result -/

/-- Any calls that add strings and return tokens succeed, so that no slot is written past those
there are, and return what the queue returns.  The buffer is the strings that were added, each
with its NUL, and each token delimits its own. -/
theorem token_calls (calls : List TokenCall) (hcalls : ∀ call ∈ calls, call.WellFormed) :
    ∃ it, run tokenCall (.init, []) calls = .ok (it, returned 0 [] calls) ∧
      it.tl.n = (addedTokens calls).length ∧
      it.tl.tokens.length = tokenListSize * max 1 ((it.tl.n + tokenListSize - 1) / tokenListSize) ∧
      it.tl.buf.bytes = (addedTokens calls).flatMap (· ++ [0]) ∧
      ∀ (i : Nat) token, (addedTokens calls)[i]? = some token →
        ∃ t, it.tl.tokens[i]? = some (some t) ∧ t.len = token.length ∧
          (it.tl.buf.bytes.drop t.offset).take (t.len + 1) = token ++ [0] := by
  obtain ⟨it, tl, hrun, hstores, hstrings, hadded⟩ := run_tokenCall .init []
    stores_init (fun t ht => absurd ht List.not_mem_nil) rfl (Nat.le_refl 0) hcalls
  have hvalues : tl.tokens.map Token.value = addedTokens calls := hadded
  refine ⟨it, hrun, ?_, hstores.room, ?_, ?_⟩
  · rw [hstores.n, ← hvalues, List.length_map]
  · rw [hstores.bytes, hstrings.tokenBytes, hvalues]
  · intro i token hi
    exact hstores.slice hstrings (by rw [hvalues]; exact hi)

/-- Two words, the first of which is returned after the buffer has moved. -/
theorem token_calls_moved :
    ∃ it, run tokenCall (.init, [])
        [.addToken (lit "ab") (metanameInit (lit "m")) (lit "c") false,
          .addToken (lit "d") (metanameInit (lit "m")) (lit "c") true, .nextToken] =
      .ok (it, [some ⟨lit "ab", 2, 1, metanameInit (lit "m"), lit "c"⟩]) := by
  obtain ⟨it, hrun, -⟩ := token_calls
    [.addToken (lit "ab") (metanameInit (lit "m")) (lit "c") false,
      .addToken (lit "d") (metanameInit (lit "m")) (lit "c") true, .nextToken] (by
        intro call hcall
        simp only [List.mem_cons, List.not_mem_nil, or_false] at hcall
        rcases hcall with rfl | rfl | rfl
        · exact ⟨by decide, by decide⟩
        · exact ⟨by decide, by decide⟩
        · trivial)
  exact ⟨it, hrun⟩

end LibSwish3
