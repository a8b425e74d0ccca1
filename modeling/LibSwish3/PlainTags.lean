import LibSwish3.OwnTags

/-!
# Plain tags

In a plain XML document names mean themselves.  There a start tag pushes its name on the
stacks where it is a Property or a MetaName, an end tag pops what its start tag pushed, and the
text between is buffered.

## Main definitions

* `PlainName`, `PlainText` — the tags and texts in question.
* `flushedTexts`, `TextsTokenized` — what the tokenizer gets, and that it returns.
* `Named` — a stack whose entries are these names.
* `metaNames`, `propNames`, `innermost` — what stands on the stacks inside open elements.
* `pushMetaname_of_mem`, `popMetaname_of_mem` and the rest — what one tag does.
-/

namespace LibSwish3

open Runs Tables

/-! ## Names and texts -/

/-- The dotted path of an element inside the open ones, innermost first. -/
def dottedPath (name : XmlStr) (elements : List XmlStr) : XmlStr :=
  elements.foldl (fun flat tag => tag ++ Swish.dot :: flat) name

/-- A lower-case element name that is no tag alias, by itself or by its path.  A slash is no
part of a name in XML. -/
structure PlainName (env : SaxEnv) (c : Config) (elements : List XmlStr) (name : XmlStr) :
    Prop where
  lower : strTolower env.loc name = .ok name
  noSlash : Swish.domChar ∉ name
  noAlias : name ∉ c.tagAliases
  noPathAlias : dottedPath name elements ∉ c.tagAliases

/-- What libxml2 delivers as text: whole characters, and a NUL is none of XML. -/
structure PlainText (s : XmlStr) : Prop where
  noNul : (0 : XmlChar) ∉ s
  decodes : (mbstowcs s).isSome

/-- The innermost open element that is a MetaName, `swishdefault` where there is none. -/
def innermost (c : Config) (elements : List XmlStr) : XmlStr :=
  (elements.find? (· ∈ c.metanames)).getD Swish.defaultMetaname

/-- A text without its blanks and bumpers. -/
def bare (s : XmlStr) : XmlStr := s.filter fun b => !isspace b && !Swish.tokenposBumper.contains b

@[simp] theorem bare_nil : bare [] = [] := rfl

@[simp] theorem bare_append (s t : XmlStr) : bare (s ++ t) = bare s ++ bare t :=
  List.filter_append _ _

@[simp] theorem bare_tokenposBumper : bare Swish.tokenposBumper = [] := rfl

theorem bare_of_strAllWs {s : XmlStr} (h : strAllWs s = true) : bare s = [] := by
  simp only [strAllWs, List.all_eq_true] at h
  simp only [bare, List.filter_eq_nil_iff]
  intro b hb
  simp [h b hb]

theorem plainText_nil : PlainText [] := ⟨by simp, rfl⟩

theorem PlainText.append {s t : XmlStr} (hs : PlainText s) (ht : PlainText t) :
    PlainText (s ++ t) :=
  ⟨by simp [hs.noNul, ht.noNul], isSome_mbstowcs_append hs.decodes ht.decodes⟩

theorem PlainText.bufferText {buf ch : XmlStr} (hbuf : PlainText buf) (hch : PlainText ch)
    (bumpWord : Bool) : PlainText (bufferText bumpWord buf ch) := by
  have hbumper : PlainText Swish.tokenposBumper := ⟨by decide, rfl⟩
  rw [LibSwish3.bufferText]
  split
  · exact (hbuf.append hbumper).append hch
  · exact hbuf.append hch

@[simp] theorem bare_joinText (buf text : XmlStr) :
    bare (joinText buf Swish.tokenposBumper text) = bare buf ++ bare text := by
  rw [joinText]
  split
  · rename_i hempty
    simp [List.isEmpty_iff.mp hempty]
  · simp

@[simp] theorem bare_bufferText (bumpWord : Bool) (buf ch : XmlStr) :
    bare (bufferText bumpWord buf ch) = bare buf ++ bare ch := by
  rw [bufferText]
  split <;> simp

/-! ## Names without dots -/

section Dots

variable {α : Type} {hash : HashTable α} {name : XmlStr} {elements : List XmlStr}

theorem dot_mem_dottedPath (name outer : XmlStr) (elements : List XmlStr) :
    Swish.dot ∈ dottedPath name (outer :: elements) := by
  have hfold : ∀ (l : List XmlStr) (flat : XmlStr), Swish.dot ∈ flat →
      Swish.dot ∈ l.foldl (fun flat tag => tag ++ Swish.dot :: flat) flat := by
    intro l
    induction l with
    | nil => exact fun _ h => h
    | cons tag l ih =>
        intro flat h
        exact ih _ (by simp [h])
  exact hfold elements _ (by simp)

/-- Where keys have no dots, the path of a nested element is none. -/
theorem dottedPath_eq_of_mem (hdot : ∀ k ∈ hash, Swish.dot ∉ k)
    (h : dottedPath name elements ∈ hash) : dottedPath name elements = name := by
  cases elements with
  | nil => rfl
  | cons outer elements => exact absurd (dot_mem_dottedPath name outer elements) (hdot _ h)

theorem isKey_plain (hdot : ∀ k ∈ hash, Swish.dot ∉ k) :
    isKey hash (some name) (dottedPath name elements) = decide (name ∈ hash) := by
  by_cases hmem : name ∈ hash
  · simp [isKey, tagIn, hmem]
  · have hpath : dottedPath name elements ∉ hash := by
      intro h
      rw [dottedPath_eq_of_mem hdot h] at h
      exact hmem h
    simp [isKey, tagIn, hmem, hpath]

theorem pushedName_plain {c : Config} (hdot : ∀ k ∈ c.properties, Swish.dot ∉ k) :
    pushedName c (some name) (dottedPath name elements) = .ok name := by
  rw [pushedName]
  split
  · rename_i hmem
    rw [dottedPath_eq_of_mem hdot hmem]
  · rfl

theorem flattenTagStack_eq (name : XmlStr) (stack : TagStack) :
    flattenTagStack name stack Swish.dot = dottedPath name (stack.tags.map Tag.baked) := by
  rw [flattenTagStack, dottedPath, List.foldl_map]

end Dots

/-! ## Flushing -/

/-- The tokenizer of the analyzer returns for a text, if it is asked. -/
def TokenizerReturns (analyzer : Analyzer) (buf : XmlStr) : Prop :=
  analyzer.tokenize = true → buf ≠ [] → ∀ tl m context,
    ∃ r, analyzer.tokenizer tl buf (some m) context = .ok r

/-- The texts that are flushed from here on: the tags of MetaNames flush, and so does the end of
the document. -/
def flushedTexts (c : Config) : (bumpWord : Bool) → (buf : XmlStr) → List SaxEvent → List XmlStr
  | _, buf, [] => [buf]
  | _, buf, .startElementNs name _ _ _ :: es =>
    if name ∈ c.metanames then buf :: flushedTexts c true [] es else flushedTexts c true buf es
  | _, buf, .endElementNs name _ :: es =>
    if name ∈ c.metanames then buf :: flushedTexts c true [] es else flushedTexts c true buf es
  | bumpWord, buf, .characters ch :: es => flushedTexts c false (bufferText bumpWord buf ch) es
  | bumpWord, buf, _ :: es => flushedTexts c bumpWord buf es

/-- The tokenizer returns for each of them. -/
def TextsTokenized (analyzer : Analyzer) (c : Config) (bumpWord : Bool) (buf : XmlStr)
    (events : List SaxEvent) : Prop :=
  ∀ text ∈ flushedTexts c bumpWord buf events, TokenizerReturns analyzer text

section Texts

variable {analyzer : Analyzer} {c : Config} {bumpWord : Bool} {buf name : XmlStr}
  {events : List SaxEvent}

theorem textsTokenized_nil :
    TextsTokenized analyzer c bumpWord buf [] ↔ TokenizerReturns analyzer buf := by
  simp [TextsTokenized, flushedTexts]

theorem textsTokenized_start {uri pre : Option XmlStr} {attributes : List (XmlStr × XmlStr)} :
    TextsTokenized analyzer c bumpWord buf (.startElementNs name pre uri attributes :: events) ↔
      (name ∈ c.metanames → TokenizerReturns analyzer buf) ∧
        TextsTokenized analyzer c true (if name ∈ c.metanames then [] else buf) events := by
  by_cases hmem : name ∈ c.metanames <;> simp [TextsTokenized, flushedTexts, hmem]

theorem textsTokenized_end {pre : Option XmlStr} :
    TextsTokenized analyzer c bumpWord buf (.endElementNs name pre :: events) ↔
      (name ∈ c.metanames → TokenizerReturns analyzer buf) ∧
        TextsTokenized analyzer c true (if name ∈ c.metanames then [] else buf) events := by
  by_cases hmem : name ∈ c.metanames <;> simp [TextsTokenized, flushedTexts, hmem]

end Texts

section Flush

variable {c : Config} {pd : ParserData} {m context : XmlStr}

theorem tokenizeBuffer_returns (htok : TokenizerReturns pd.analyzer pd.metaBuf)
    (hm : m ∈ pd.config.metanames) (hplain : PlainText pd.metaBuf) :
    ∃ pd', tokenizeBuffer pd m context = .ok pd' := by
  rw [tokenizeBuffer]
  split
  · exact ⟨pd, rfl⟩
  · rename_i htokenize
    obtain ⟨hon, hne⟩ : pd.analyzer.tokenize = true ∧ pd.metaBuf ≠ [] := by
      simpa using htokenize
    obtain ⟨mn, hlook⟩ := mem_iff_exists_lookup.mp hm
    obtain ⟨r, hr⟩ := htok hon hne pd.tokens mn context
    simp only [hlook, cstr_of_noNul hplain.noNul, hr, bind, Except.bind]
    exact ⟨_, rfl⟩

theorem metanameStoredAs_plain
    (halias : ∀ k mn, c.metanames.lookup k = some mn → mn.aliasFor = .null)
    (hm : m ∈ c.metanames) : metanameStoredAs c m = .ok m := by
  obtain ⟨mn, hlook⟩ := mem_iff_exists_lookup.mp hm
  rw [metanameStoredAs, hlook]
  simp only [halias m mn hlook]
  rfl

/-- A flush under a name that is stored as itself, once its text is distributed. -/
theorem flushBuffer_of_cascade {metanames metanames' : NamedBuffer} (context : XmlStr)
    (htok : TokenizerReturns pd.analyzer pd.metaBuf) (hm : m ∈ pd.config.metanames)
    (hplain : PlainText pd.metaBuf) (hstored : metanameStoredAs pd.config m = .ok m)
    (hadd : nbAddStr pd.metanames m pd.metaBuf Swish.tokenposBumper false true = .ok metanames)
    (hcascade : cascadeMetas pd m metanames = .ok metanames') :
    ∃ tokens nwords, flushBuffer pd m context = .ok { pd with
      metanames := metanames', tokens, docinfo := { pd.docinfo with nwords }, metaBuf := [] } := by
  have htokenized : ∃ pd₁, tokenizeBuffer { pd with metanames := metanames' } m context =
      .ok pd₁ := tokenizeBuffer_returns htok hm hplain
  obtain ⟨pd₁, htokd⟩ := htokenized
  have hflush : flushBuffer pd m context = .ok { pd₁ with metaBuf := [] } := by
    simp only [flushBuffer, hstored, hadd, hcascade, htokd, bind, Except.bind]
    rfl
  obtain ⟨tokens, nwords, rfl⟩ := tokenizeBuffer_ok htokd
  exact ⟨tokens, nwords, hflush⟩

end Flush

/-! ## Stacks of plain names -/

/-- A stack with one entry for each name, raw and baked alike. -/
structure Named (stack : TagStack) (names : List XmlStr) : Prop where
  counted : stack.Counted
  tags : stack.tags.map (fun t => (t.raw, t.baked)) = names.map fun n => (n, n)

section Named

variable {stack : TagStack} {names : List XmlStr} {name : XmlStr}

theorem Named.push (h : Named stack names) (join : XmlChar) :
    Named (stack.push name name join) (name :: names) :=
  ⟨h.counted.push, by simp [h.tags]⟩

theorem Named.baked (h : Named stack names) : stack.tags.map Tag.baked = names := by
  have hsnd := congrArg (List.map Prod.snd) h.tags
  simpa [List.map_map, Function.comp_def] using hsnd

theorem Named.baked_mem (h : Named stack names) {t : Tag} (ht : t ∈ stack.tags) :
    t.baked ∈ names := by
  rw [← h.baked]
  exact List.mem_map_of_mem ht

/-- The innermost entry of a stack that is not empty. -/
theorem Named.cons (h : Named stack (name :: names)) :
    ∃ top rest, stack.tags = top :: rest ∧ top.raw = name ∧ top.baked = name ∧
      Named ⟨rest, stack.count - 1⟩ names := by
  cases htags : stack.tags with
  | nil => simpa [htags] using h.tags
  | cons top rest =>
      have heq := h.tags
      rw [htags, List.map_cons, List.map_cons] at heq
      obtain ⟨htop, hrest⟩ := List.cons.inj heq
      obtain ⟨hraw, hbaked⟩ := Prod.mk.inj htop
      refine ⟨top, rest, rfl, hraw, hbaked, ⟨?_, hrest⟩⟩
      have hcounted := h.counted
      simp only [TagStack.Counted, htags, List.length_cons] at hcounted ⊢
      omega

theorem Named.pop (h : Named stack (name :: names)) :
    ∃ top stack', stack.pop = (some top, stack') ∧ Named stack' names := by
  obtain ⟨top, rest, htags, -, -, hrest⟩ := h.cons
  exact ⟨top, _, TagStack.pop_cons h.counted htags, hrest⟩

theorem Named.popOnMatch_self (h : Named stack (name :: names)) :
    ∃ top stack', stack.popOnMatch name = .ok (some top, stack') ∧ top.baked = name ∧
      Named stack' names := by
  obtain ⟨top, rest, htags, hraw, hbaked, hrest⟩ := h.cons
  refine ⟨top, _, ?_, hbaked, hrest⟩
  rw [TagStack.popOnMatch_cons h.counted htags, if_pos hraw]

theorem Named.popOnMatch_other (h : Named stack names) (hne : names ≠ [])
    (hname : name ∉ names) : stack.popOnMatch name = .ok (none, stack) := by
  obtain ⟨n, ns, rfl⟩ := List.exists_cons_of_ne_nil hne
  obtain ⟨top, rest, htags, hraw, -, -⟩ := h.cons
  have hraw' : top.raw ≠ name := by
    rintro rfl
    exact hname (by simp [hraw])
  rw [TagStack.popOnMatch_cons h.counted htags, if_neg hraw']

end Named

/-- The names on the meta stack inside the open elements. -/
def metaNames (c : Config) (elements : List XmlStr) : List XmlStr :=
  elements.filter (· ∈ c.metanames) ++ [Swish.defaultMetaname]

/-- The names on the property stack inside the open elements. -/
def propNames (c : Config) (elements : List XmlStr) : List XmlStr :=
  elements.filter (· ∈ c.properties) ++ [Swish.domStr]

section Names

variable {c : Config} {name : XmlStr} {elements : List XmlStr}

theorem innermost_cons_of_mem (h : name ∈ c.metanames) : innermost c (name :: elements) = name := by
  simp [innermost, h]

theorem innermost_cons_of_not_mem (h : name ∉ c.metanames) :
    innermost c (name :: elements) = innermost c elements := by
  simp [innermost, h]

theorem innermost_mem (hdefault : Swish.defaultMetaname ∈ c.metanames) :
    innermost c elements ∈ c.metanames := by
  induction elements with
  | nil => exact hdefault
  | cons name elements ih =>
      by_cases h : name ∈ c.metanames
      · rwa [innermost_cons_of_mem h]
      · rwa [innermost_cons_of_not_mem h]

/-- The head of the meta stack is the innermost MetaName. -/
theorem metaNames_eq : ∃ rest, metaNames c elements = innermost c elements :: rest := by
  induction elements with
  | nil => exact ⟨[], rfl⟩
  | cons name elements ih =>
      by_cases h : name ∈ c.metanames
      · exact ⟨metaNames c elements, by simp [metaNames, innermost_cons_of_mem h, h]⟩
      · obtain ⟨rest, hrest⟩ := ih
        refine ⟨rest, ?_⟩
        rw [innermost_cons_of_not_mem h, ← hrest]
        simp [metaNames, h]

theorem mem_metanames_of_metaNames (hdefault : Swish.defaultMetaname ∈ c.metanames)
    (h : name ∈ metaNames c elements) : name ∈ c.metanames := by
  simp only [metaNames, List.mem_append, List.mem_filter, decide_eq_true_eq,
    List.mem_singleton] at h
  rcases h with ⟨-, h⟩ | rfl
  · exact h
  · exact hdefault

theorem propNames_cases (h : name ∈ propNames c elements) :
    name = Swish.domStr ∨ name ∈ c.properties := by
  simp only [propNames, List.mem_append, List.mem_filter, decide_eq_true_eq,
    List.mem_singleton] at h
  exact h.symm.imp_right And.right

theorem metaNames_cons_of_mem (h : name ∈ c.metanames) :
    metaNames c (name :: elements) = name :: metaNames c elements := by
  simp [metaNames, h]

theorem metaNames_cons_of_not_mem (h : name ∉ c.metanames) :
    metaNames c (name :: elements) = metaNames c elements := by
  simp [metaNames, h]

theorem propNames_cons_of_mem (h : name ∈ c.properties) :
    propNames c (name :: elements) = name :: propNames c elements := by
  simp [propNames, h]

theorem propNames_cons_of_not_mem (h : name ∉ c.properties) :
    propNames c (name :: elements) = propNames c elements := by
  simp [propNames, h]

end Names

/-! ## One tag -/

section Tags

variable {env : SaxEnv} {c : Config} {pd : ParserData} {elements : List XmlStr} {name : XmlStr}

theorem freeTag_plain (h : pd.tag ≠ .freed) : freeTag pd = .ok { pd with tag := .null } := by
  rw [freeTag]
  cases htag : pd.tag with
  | null => rfl
  | live tag => rfl
  | freed => exact absurd htag h

theorem undefXmlTag_plain (hindex : pd.config.flags.undefMetas = .index)
    (hshown : pd.ignoreContent = 0) : undefXmlTag pd name = .ok pd := by
  rw [undefXmlTag]
  split
  · rfl
  · rw [hindex, ← hshown]

theorem normalizeTag_plain (hname : PlainName env c elements name) :
    normalizeTag env.toTagEnv pd name none = .ok name := by
  simp only [normalizeTag, hname.lower, bind, Except.bind]
  rfl

/-! A tag with a plain name opens and closes its own entries, and only where it is a key. -/

theorem pushProperty_of_mem {properties : NamedBuffer} (elements : List XmlStr)
    (hdot : ∀ k ∈ pd.config.properties, Swish.dot ∉ k) (hmem : name ∈ pd.config.properties)
    (hadd : addStackToPropBuf pd none = .ok { pd with properties, propBuf := [] }) :
    pushProperty pd name (some name) (dottedPath name elements) = .ok { pd with
      properties, propBuf := [], propstack := pd.propstack.push name name Swish.domChar } := by
  simp only [pushProperty, isKey_plain hdot, hmem, decide_true, if_true, hadd, bind, Except.bind,
    pushedName_plain hdot]
  rfl

theorem pushProperty_of_not_mem (elements : List XmlStr)
    (hdot : ∀ k ∈ pd.config.properties, Swish.dot ∉ k) (hmem : name ∉ pd.config.properties) :
    pushProperty pd name (some name) (dottedPath name elements) = .ok pd := by
  simp [pushProperty, isKey_plain hdot, hmem]

/-- What is on top of the meta stack is the innermost MetaName. -/
theorem flushHead_innermost (hstack : Named pd.metastack (metaNames pd.config elements)) :
    ∃ context, flushHead pd = flushBuffer pd (innermost pd.config elements) context := by
  obtain ⟨rest, hnames⟩ : ∃ rest, metaNames pd.config elements =
      innermost pd.config elements :: rest := metaNames_eq
  rw [hnames] at hstack
  obtain ⟨top, tags, htags, -, hbaked, -⟩ := hstack.cons
  have hhead : pd.metastack.head = .ok top := TagStack.head_ok_iff.mpr (by rw [htags]; rfl)
  refine ⟨top.context, ?_⟩
  rw [flushHead, hhead, ok_bind, hbaked]

theorem pushMetaname_of_mem {pd' : ParserData} (elements : List XmlStr)
    (hmem : name ∈ pd.config.metanames) (hflush : flushHead pd = .ok pd')
    (hmeta : ∀ k ∈ pd.config.metanames, Swish.dot ∉ k)
    (hprop : ∀ k ∈ pd'.config.properties, Swish.dot ∉ k) :
    pushMetaname pd name (some name) (dottedPath name elements) =
      .ok { pd' with metastack := pd'.metastack.push name name Swish.domChar } := by
  simp only [pushMetaname, isKey_plain hmeta, hmem, decide_true, if_true, hflush, bind,
    Except.bind, pushedName_plain hprop]
  rfl

theorem pushMetaname_of_not_mem (elements : List XmlStr)
    (hdot : ∀ k ∈ pd.config.metanames, Swish.dot ∉ k) (hmem : name ∉ pd.config.metanames) :
    pushMetaname pd name (some name) (dottedPath name elements) = .ok pd := by
  simp [pushMetaname, isKey_plain hdot, hmem]

theorem popProperty_of_mem (hmem : name ∈ pd.config.properties)
    (hstack : Named pd.propstack (propNames pd.config (name :: elements))) :
    ∃ propstack, popProperty pd name = addStackToPropBuf { pd with propstack } (some name) ∧
      Named propstack (propNames pd.config elements) := by
  rw [propNames_cons_of_mem hmem] at hstack
  obtain ⟨top, propstack, hpop, hbaked, hrest⟩ := hstack.popOnMatch_self
  refine ⟨propstack, ?_, hrest⟩
  simp only [popProperty, hpop, ok_bind, hbaked]

theorem popProperty_of_not_mem (hmem : name ∉ pd.config.properties)
    (hne : name ≠ Swish.domStr) (hstack : Named pd.propstack (propNames pd.config elements)) :
    popProperty pd name = .ok pd := by
  have hnot : name ∉ propNames pd.config elements := by
    intro h
    rcases propNames_cases h with h | h
    · exact hne h
    · exact hmem h
  have hpop := hstack.popOnMatch_other (by simp [propNames]) hnot
  simp only [popProperty, hpop, ok_bind]
  rfl

theorem popMetaname_of_mem (hmem : name ∈ pd.config.metanames)
    (hstack : Named pd.metastack (metaNames pd.config (name :: elements))) :
    ∃ metastack context, popMetaname pd name = flushBuffer { pd with metastack } name context ∧
      Named metastack (metaNames pd.config elements) := by
  rw [metaNames_cons_of_mem hmem] at hstack
  obtain ⟨top, metastack, hpop, hbaked, hrest⟩ := hstack.popOnMatch_self
  refine ⟨metastack, top.context, ?_, hrest⟩
  simp only [popMetaname, hpop, ok_bind, hbaked]

theorem popMetaname_of_not_mem (hdefault : Swish.defaultMetaname ∈ pd.config.metanames)
    (hmem : name ∉ pd.config.metanames)
    (hstack : Named pd.metastack (metaNames pd.config elements)) :
    popMetaname pd name = .ok pd := by
  have hnot : name ∉ metaNames pd.config elements :=
    fun h => hmem (mem_metanames_of_metaNames hdefault h)
  have hpop := hstack.popOnMatch_other (by simp [metaNames]) hnot
  simp only [popMetaname, hpop, ok_bind]
  rfl

/-- Opening a plain tag, down to the stacks. -/
theorem saxStep_start_plain (fuel : Nat) (hindex : pd.config.flags.undefMetas = .index)
    (hxml : pd.isHtml = false) (hshown : pd.ignoreContent = 0) (htag : pd.tag ≠ .freed)
    (hdom : Named pd.domstack elements) (hname : PlainName env pd.config elements name)
    (uri : Option XmlStr) :
    saxStep env fuel pd (.startElementNs name none uri []) =
      pushTags { pd with tag := .live name, bumpWord := true } name (some name) := by
  have hnot : ¬ pd.isHtml = true := by simp [hxml]
  have hundef : undefXmlTag { pd with tag := .null, bumpWord := true } name =
      .ok { pd with tag := .null, bumpWord := true } := undefXmlTag_plain hindex hshown
  have halias : aliasTag { pd with tag := .null, bumpWord := true } name = name := by
    have h₁ : pd.config.tagAliases.lookup name = none := AList.lookup_eq_none.mpr hname.noAlias
    have h₂ : pd.config.tagAliases.lookup (dottedPath name elements) = none :=
      AList.lookup_eq_none.mpr hname.noPathAlias
    simp only [aliasTag, h₁]
    rw [flattenTagStack_eq, hdom.baked, h₂]
    rfl
  have hbake : bakeTag env.toTagEnv { pd with tag := .null } name none none =
      .ok (some name, { pd with tag := .null, bumpWord := true }) := by
    simp only [bakeTag, normalizeTag_plain hname, bind, Except.bind, if_neg hnot,
      Option.getD_none, run_nil, hundef, halias]
    rfl
  have hinclude : startXinclude env (xincludeDeep env fuel) pd name uri none = .ok pd := by
    rw [startXinclude]
    split <;> rfl
  show startElementNs env (xincludeDeep env fuel) pd name none uri [] = _
  simp only [startElementNs, sax2Atts, List.isEmpty_nil, if_true, hinclude, bind, Except.bind,
    openTag, freeTag_plain htag, hbake]
  rfl

/-- Closing a plain tag, down to the stacks. -/
theorem closeTag_plain (hindex : pd.config.flags.undefMetas = .index)
    (hxml : pd.isHtml = false) (hshown : pd.ignoreContent = 0) (htag : pd.tag ≠ .freed)
    {outer : List XmlStr} (hname : PlainName env c outer name) :
    ∃ tag, tag ≠ .freed ∧
      closeTag env.toTagEnv pd name none = popTags { pd with tag, bumpWord := true } name := by
  have hnot : ¬ pd.isHtml = true := by simp [hxml]
  have hundef : undefXmlTag { pd with tag := .null, bumpWord := true } name =
      .ok { pd with tag := .null, bumpWord := true } := undefXmlTag_plain hindex hshown
  have hbake : bakeTagPlain env.toTagEnv { pd with tag := .null } name none =
      .ok (aliasTag { pd with tag := .null, bumpWord := true } name,
        { pd with tag := .null, bumpWord := true }) := by
    simp only [bakeTagPlain, normalizeTag_plain hname, bind, Except.bind, plainTag, if_neg hnot,
      hundef]
    rfl
  refine ⟨.live (aliasTag { pd with tag := .null, bumpWord := true } name), by simp, ?_⟩
  simp only [closeTag, freeTag_plain htag, bind, Except.bind, hbake]

theorem bufferCharacters_shown (h : pd.ignoreContent = 0) (ch : XmlStr) :
    bufferCharacters pd ch = { pd with
      metaBuf := bufferText pd.bumpWord pd.metaBuf ch
      propBuf := bufferText pd.bumpWord pd.propBuf ch
      bumpWord := false } := by
  simp [bufferCharacters, h]

theorem PlainName.root (h : PlainName env c elements name) : PlainName env c [] name :=
  ⟨h.lower, h.noSlash, h.noAlias, h.noAlias⟩

end Tags

end LibSwish3
