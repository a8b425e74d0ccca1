import LibSwish3.AttributeValue
import LibSwish3.Attribution

/-!
# The words that a name receives

The text inside the open elements goes to the name under which their innermost MetaName is
stored, and where the context cascades to every open MetaName besides.  It is joined from pieces,
in a buffer that is flushed now and then; a tag leaves a bumper between two of them, and so does
a flush.  A word never reaches over a bumper, so it does not matter for the words of a name where
the flushes were: they are those of `receivedText`, in which every tag is a bumper.

## Main definitions

* `SplitsWords` — what is asked of the words.
* `Receives`, `receivedText` — the text that goes to a name.
* `Receiving` — the parser inside the open elements.
* `receives_of_run`.
-/

namespace LibSwish3

open Runs Tables

/-! ## Words -/

/-- A blank text has no words, and a bumper ends one. -/
structure SplitsWords (words : XmlStr → List XmlStr) : Prop where
  blank : ∀ text, strAllWs text = true → words text = []
  bumper : ∀ s t word, word ∈ words (s ++ Swish.tokenposBumper ++ t) ↔
    word ∈ words s ∨ word ∈ words t

section Words

variable {words : XmlStr → List XmlStr} {word : XmlStr}

theorem SplitsWords.nil (h : SplitsWords words) : words [] = [] := h.blank [] rfl

theorem SplitsWords.joinText (h : SplitsWords words) (buf text : XmlStr) :
    word ∈ words (joinText buf Swish.tokenposBumper text) ↔
      word ∈ words buf ∨ word ∈ words text := by
  rw [LibSwish3.joinText]
  cases buf with
  | nil => simp [h.nil]
  | cons b buf => exact h.bumper _ _ _

theorem SplitsWords.bufferText_bump (h : SplitsWords words) (buf ch : XmlStr) :
    word ∈ words (bufferText true buf ch) ↔ word ∈ words buf ∨ word ∈ words ch := by
  rw [bufferText]
  cases buf with
  | nil => simp [h.nil]
  | cons b buf => exact h.bumper _ _ _

theorem SplitsWords.bufferText_nil (h : SplitsWords words) (bumpWord : Bool) (buf : XmlStr) :
    word ∈ words (bufferText bumpWord buf []) ↔ word ∈ words buf := by
  cases bumpWord with
  | false => simp [bufferText]
  | true => simp [h.bufferText_bump, h.nil]

theorem bufferText_append (bumpWord : Bool) (buf ch ch' : XmlStr) :
    bufferText false (bufferText bumpWord buf ch) ch' = bufferText bumpWord buf (ch ++ ch') := by
  simp [bufferText]

end Words

/-! ## Whose text it is -/

/-- Nothing is undefined or dotted. -/
structure SettledConfig (c : Config) : Prop where
  default_mem : Swish.defaultMetaname ∈ c.metanames
  undefMetas : c.flags.undefMetas = .index
  metaDot : ∀ k ∈ c.metanames, Swish.dot ∉ k
  propDot : ∀ k ∈ c.properties, Swish.dot ∉ k

/-- The text inside the open elements goes to `m`. -/
def Receives (c : Config) (elements : List XmlStr) (m : XmlStr) : Prop :=
  metanameStoredAs c (innermost c elements) = .ok m ∨
    c.flags.cascadeMetaContext = true ∧ m ∈ metaNames c elements

theorem receives_iff (c : Config) (elements : List XmlStr) (m : XmlStr) :
    ((metanameStoredAs c (innermost c elements)).toOption = some m ∨
      c.flags.cascadeMetaContext = true ∧ (metaNames c elements).contains m = true) ↔
    Receives c elements m := by
  rw [Receives, List.contains_iff_mem]
  apply or_congr_left
  cases metanameStoredAs c (innermost c elements) with
  | error e => exact ⟨fun h => (by cases h), fun h => (by cases h)⟩
  | ok storedAs =>
      exact ⟨fun h => congrArg Except.ok (Option.some.inj h),
        fun h => congrArg some (Except.ok.inj h)⟩

instance (c : Config) (elements : List XmlStr) (m : XmlStr) : Decidable (Receives c elements m) :=
  decidable_of_iff _ (receives_iff c elements m)

/-- The text of the events that goes to `m`, with a bumper for each tag. -/
def receivedText (c : Config) (m : XmlStr) : (elements : List XmlStr) → List SaxEvent → XmlStr
  | _, [] => []
  | elements, .startElementNs name _ _ _ :: es =>
    Swish.tokenposBumper ++ receivedText c m (name :: elements) es
  | elements, .endElementNs _ _ :: es =>
    Swish.tokenposBumper ++ receivedText c m elements.tail es
  | elements, .characters ch :: es =>
    (if Receives c elements m then ch else []) ++ receivedText c m elements es
  | elements, _ :: es => receivedText c m elements es

/-! ## Flushing -/

section Flush

variable {words : XmlStr → List XmlStr} {pd pd' : ParserData} {nb nb' : NamedBuffer}
  {name storedAs metaBuf context : XmlStr} {tag : Tag} {tags : List Tag}

/-- Adding a text to a buffer adds its words. -/
theorem words_nbAddStr (hwords : SplitsWords words) (hnul : (0 : XmlChar) ∉ metaBuf)
    (h : nbAddStr nb name metaBuf Swish.tokenposBumper false true = .ok nb') (k word : XmlStr) :
    word ∈ words (nb'.content k) ↔
      word ∈ words (nb.content k) ∨ k = name ∧ word ∈ words metaBuf := by
  rw [content_nbAddStr h k, cstr_of_noNul hnul]
  by_cases hk : k = name
  · by_cases hws : strAllWs metaBuf = true
    · simp [hws, hwords.blank metaBuf hws]
    · simp [hk, hws, hwords.joinText, cleanedText]
  · simp [hk]

theorem noNul_nbAddStr (hnul : (0 : XmlChar) ∉ metaBuf)
    (h : nbAddStr nb name metaBuf Swish.tokenposBumper false true = .ok nb')
    (hnb : ∀ k, (0 : XmlChar) ∉ nb.content k) (k : XmlStr) : (0 : XmlChar) ∉ nb'.content k := by
  rw [content_nbAddStr h k]
  split
  · rw [joinText]
    split
    · simpa [cleanedText] using hnul
    · simp [cleanedText, hnul, hnb k, Swish.tokenposBumper]
  · exact hnb k

/-- Cascading adds the words to each name on the stack but the one that has been flushed to. -/
theorem words_cascade (hwords : SplitsWords words) (hnul : (0 : XmlChar) ∉ metaBuf)
    (h : run (cascadeStep metaBuf storedAs) nb tags = .ok nb')
    (hnb : ∀ k, (0 : XmlChar) ∉ nb.content k) :
    (∀ k, (0 : XmlChar) ∉ nb'.content k) ∧ ∀ k word, word ∈ words (nb'.content k) ↔
      word ∈ words (nb.content k) ∨
        (k ≠ storedAs ∧ k ∈ tags.map Tag.baked) ∧ word ∈ words metaBuf := by
  induction tags generalizing nb with
  | nil =>
      cases h
      exact ⟨hnb, by simp⟩
  | cons tag tags ih =>
      obtain ⟨nb₁, hstep, hrun⟩ := run_cons_ok_iff.mp h
      by_cases hsame : tag.baked = storedAs
      · rw [cascadeStep, if_pos hsame] at hstep
        cases hstep
        obtain ⟨hnb', hwords'⟩ := ih hrun hnb
        refine ⟨hnb', ?_⟩
        intro k word
        have hmem : (k ≠ storedAs ∧ k ∈ (tag :: tags).map Tag.baked) ↔
            k ≠ storedAs ∧ k ∈ tags.map Tag.baked := by
          rw [List.map_cons, List.mem_cons, hsame]
          tauto
        rw [hwords', hmem]
      · rw [cascadeStep, if_neg hsame] at hstep
        obtain ⟨hnb', hwords'⟩ := ih hrun (noNul_nbAddStr hnul hstep hnb)
        refine ⟨hnb', ?_⟩
        intro k word
        have hmem : (k ≠ storedAs ∧ k ∈ (tag :: tags).map Tag.baked) ↔
            k = tag.baked ∨ k ≠ storedAs ∧ k ∈ tags.map Tag.baked := by
          rw [List.map_cons, List.mem_cons]
          constructor
          · rintro ⟨hne, hk | hk⟩
            · exact .inl hk
            · exact .inr ⟨hne, hk⟩
          · rintro (rfl | ⟨hne, hk⟩)
            · exact ⟨hsame, .inl rfl⟩
            · exact ⟨hne, .inr hk⟩
        rw [hwords', words_nbAddStr hwords hnul hstep, hmem, or_and_right, or_assoc]

/-- What a flush under a MetaName does to the words of each buffer. -/
structure Flushed (words : XmlStr → List XmlStr) (name : XmlStr) (pd : ParserData)
    (metanames : NamedBuffer) : Prop where
  noNul : ∀ k, (0 : XmlChar) ∉ metanames.content k
  words : ∀ k word, word ∈ words (metanames.content k) ↔ word ∈ words (pd.metanames.content k) ∨
    (metanameStoredAs pd.config name = .ok k ∨ pd.config.flags.cascadeMetaContext = true ∧
      k ∈ pd.metastack.tags.map Tag.baked) ∧ word ∈ words pd.metaBuf

theorem flushBuffer_flushed (pd : ParserData) (hwords : SplitsWords words)
    (hnul : (0 : XmlChar) ∉ pd.metaBuf) (hnb : ∀ k, (0 : XmlChar) ∉ pd.metanames.content k)
    (h : flushBuffer pd name context = .ok pd') :
    ∃ metanames tokens nwords, pd' = { pd with
      metanames, tokens, docinfo := { pd.docinfo with nwords }, metaBuf := [] } ∧
      Flushed words name pd metanames := by
  obtain ⟨storedAs, hstored, h⟩ := bind_ok_iff.mp h
  obtain ⟨nb, hadd, h⟩ := bind_ok_iff.mp h
  obtain ⟨nb', hcascade, h⟩ := bind_ok_iff.mp h
  obtain ⟨pd₁, htok, h⟩ := bind_ok_iff.mp h
  obtain ⟨tokens, nwords, rfl⟩ := tokenizeBuffer_ok htok
  have hown : ∀ k, metanameStoredAs pd.config name = .ok k ↔ k = storedAs := by
    intro k
    rw [hstored, Except.ok.injEq]
    exact eq_comm
  have hnul' := noNul_nbAddStr hnul hadd hnb
  refine ⟨nb', tokens, nwords, (Except.ok.inj h).symm, ?_⟩
  rw [cascadeMetas] at hcascade
  by_cases hflag : pd.config.flags.cascadeMetaContext = true
  · rw [if_pos hflag] at hcascade
    obtain ⟨hnb', hwords'⟩ := words_cascade hwords hnul hcascade hnul'
    refine ⟨hnb', ?_⟩
    intro k word
    rw [hwords', words_nbAddStr hwords hnul hadd, hown, or_assoc, ← or_and_right]
    have hmem : (k = storedAs ∨ k ≠ storedAs ∧ k ∈ pd.metastack.tags.map Tag.baked) ↔
        k = storedAs ∨ k ∈ pd.metastack.tags.map Tag.baked := by tauto
    rw [hmem]
    simp [hflag]
  · rw [if_neg hflag] at hcascade
    cases hcascade
    refine ⟨hnul', ?_⟩
    intro k word
    simp [words_nbAddStr hwords hnul hadd, hown, hflag]

end Flush

/-! ## Inside the open elements -/

/-- The parser inside the open elements, when `done` is the text so far of each name. -/
structure Receiving (c : Config) (words : XmlStr → List XmlStr) (elements : List XmlStr)
    (done : XmlStr → XmlStr) (pd : ParserData) : Prop where
  config : pd.config = c
  xml : pd.isHtml = false
  shown : pd.ignoreContent = 0
  tag : pd.tag ≠ .freed
  domstack : Named pd.domstack elements
  metastack : Named pd.metastack (metaNames c elements)
  metaBuf : (0 : XmlChar) ∉ pd.metaBuf
  contents : ∀ m, (0 : XmlChar) ∉ pd.metanames.content m
  /-- Whatever text comes next. -/
  text : ∀ m, metanameStoredAs c m = .ok m → ∀ ch word,
    word ∈ words (pd.metanames.content m) ∨
        Receives c elements m ∧ word ∈ words (bufferText pd.bumpWord pd.metaBuf ch) ↔
      word ∈ words (done m ++ if Receives c elements m then ch else [])

section Steps

variable {env : SaxEnv} {fuel : Nat} {c : Config} {words : XmlStr → List XmlStr}
  {elements : List XmlStr} {done : XmlStr → XmlStr} {pd pd' : ParserData} {name ch : XmlStr}

/-- The words so far are those of the buffers, and of the meta buffer where it goes. -/
theorem Receiving.words_done (hwords : SplitsWords words)
    (h : Receiving c words elements done pd) {m : XmlStr} (hm : metanameStoredAs c m = .ok m)
    (word : XmlStr) :
    word ∈ words (pd.metanames.content m) ∨ Receives c elements m ∧ word ∈ words pd.metaBuf ↔
      word ∈ words (done m) := by
  have htext := h.text m hm [] word
  simpa [hwords.bufferText_nil] using htext

/-- What a tag does to the MetaNames. -/
structure TagMoves (words : XmlStr → List XmlStr) (elements elements' : List XmlStr)
    (pd : ParserData) (metanames : NamedBuffer) (metaBuf : XmlStr) : Prop where
  noNul : (0 : XmlChar) ∉ metaBuf
  contents : ∀ m, (0 : XmlChar) ∉ metanames.content m
  words : ∀ m, metanameStoredAs pd.config m = .ok m → ∀ word,
    word ∈ words (metanames.content m) ∨
        Receives pd.config elements' m ∧ word ∈ words metaBuf ↔
      word ∈ words (pd.metanames.content m) ∨
        Receives pd.config elements m ∧ word ∈ words pd.metaBuf

/-- A tag ends the words, and what comes next goes to others. -/
theorem TagMoves.text {elements' : List XmlStr} {metanames : NamedBuffer} {metaBuf : XmlStr}
    (hwords : SplitsWords words) (h : Receiving c words elements done pd)
    (hmoves : TagMoves words elements elements' pd metanames metaBuf) (m : XmlStr)
    (hm : metanameStoredAs c m = .ok m) (ch word : XmlStr) :
    word ∈ words (metanames.content m) ∨
        Receives c elements' m ∧ word ∈ words (bufferText true metaBuf ch) ↔
      word ∈ words ((done m ++ Swish.tokenposBumper) ++
        if Receives c elements' m then ch else []) := by
  have hmoved := hmoves.words m (by rw [h.config]; exact hm) word
  rw [h.config] at hmoved
  rw [hwords.bumper, ← h.words_done hwords hm, ← hmoved, hwords.bufferText_bump]
  by_cases hreceives : Receives c elements' m
  · simp [hreceives, or_assoc]
  · simp [hreceives, hwords.nil]

theorem isKey_settled (hc : SettledConfig c) :
    isKey c.metanames (some name) (dottedPath name elements) = decide (name ∈ c.metanames) :=
  isKey_plain hc.metaDot

/-- Opening a tag flushes to the innermost MetaName where the tag is one. -/
theorem pushMetaname_moves (pd : ParserData) (hwords : SplitsWords words)
    (hc : SettledConfig pd.config) (hmeta : Named pd.metastack (metaNames pd.config elements))
    (hnul : (0 : XmlChar) ∉ pd.metaBuf) (hnb : ∀ m, (0 : XmlChar) ∉ pd.metanames.content m)
    (h : pushMetaname pd name (some name) (dottedPath name elements) = .ok pd') :
    ∃ metanames tokens nwords metaBuf metastack, pd' = { pd with
      metanames, tokens, docinfo := { pd.docinfo with nwords }, metaBuf, metastack } ∧
      Named metastack (metaNames pd.config (name :: elements)) ∧
      TagMoves words elements (name :: elements) pd metanames metaBuf := by
  by_cases hmem : name ∈ pd.config.metanames
  · have hkey : isKey pd.config.metanames (some name) (dottedPath name elements) = true := by
      simp [isKey_settled hc, hmem]
    rw [pushMetaname, if_pos hkey] at h
    obtain ⟨pd₁, hflush, h⟩ := bind_ok_iff.mp h
    obtain ⟨context, hhead⟩ := flushHead_innermost hmeta
    rw [hhead] at hflush
    obtain ⟨metanames, tokens, nwords, rfl, hflushed⟩ :=
      flushBuffer_flushed pd hwords hnul hnb hflush
    rw [pushedName_plain hc.propDot] at h
    cases h
    refine ⟨metanames, tokens, nwords, [], _, rfl, ?_, by simp, hflushed.noNul, ?_⟩
    · rw [metaNames_cons_of_mem hmem]
      exact hmeta.push Swish.domChar
    · intro m hm word
      simp only [hflushed.words, hmeta.baked, hwords.nil, List.not_mem_nil, and_false, or_false,
        Receives]
  · have hpush := pushMetaname_of_not_mem elements hc.metaDot hmem
    cases hpush.symm.trans h
    refine ⟨_, _, _, _, _, rfl, ?_, hnul, hnb, ?_⟩
    · rwa [metaNames_cons_of_not_mem hmem]
    · intro m hm word
      rw [Receives, Receives, innermost_cons_of_not_mem hmem, metaNames_cons_of_not_mem hmem]

/-- Closing a tag flushes to it where it is a MetaName: it has gone from the stack by then. -/
theorem popMetaname_moves (pd : ParserData) (hwords : SplitsWords words)
    (hc : SettledConfig pd.config)
    (hmeta : Named pd.metastack (metaNames pd.config (name :: elements)))
    (hnul : (0 : XmlChar) ∉ pd.metaBuf) (hnb : ∀ m, (0 : XmlChar) ∉ pd.metanames.content m)
    (h : popMetaname pd name = .ok pd') :
    ∃ metanames tokens nwords metaBuf metastack, pd' = { pd with
      metanames, tokens, docinfo := { pd.docinfo with nwords }, metaBuf, metastack } ∧
      Named metastack (metaNames pd.config elements) ∧
      TagMoves words (name :: elements) elements pd metanames metaBuf := by
  by_cases hmem : name ∈ pd.config.metanames
  · obtain ⟨metastack, context, hpop, hrest⟩ := popMetaname_of_mem hmem hmeta
    rw [hpop] at h
    obtain ⟨metanames, tokens, nwords, rfl, hflushed⟩ :=
      flushBuffer_flushed { pd with metastack } hwords hnul hnb h
    refine ⟨metanames, tokens, nwords, [], metastack, rfl, hrest, by simp, hflushed.noNul, ?_⟩
    intro m hm word
    rw [hflushed.words, hrest.baked, Receives, Receives, innermost_cons_of_mem hmem,
      metaNames_cons_of_mem hmem, List.mem_cons]
    -- An own name that has gone from the stack is the one that is flushed to.
    have hown : m = name → metanameStoredAs pd.config name = .ok m := by
      rintro rfl
      exact hm
    simp only [hwords.nil, List.not_mem_nil, and_false, or_false]
    tauto
  · rw [metaNames_cons_of_not_mem hmem] at hmeta
    have hpop := popMetaname_of_not_mem hc.default_mem hmem hmeta
    cases hpop.symm.trans h
    refine ⟨_, _, _, _, _, rfl, hmeta, hnul, hnb, ?_⟩
    intro m hm word
    rw [Receives, Receives, innermost_cons_of_not_mem hmem, metaNames_cons_of_not_mem hmem]

theorem receiving_start (fuel : Nat) (hwords : SplitsWords words) (hc : SettledConfig c)
    (hname : PlainName env c elements name) (uri : Option XmlStr)
    (h : Receiving c words elements done pd)
    (hstep : saxStep env fuel pd (.startElementNs name none uri []) = .ok pd') :
    Receiving c words (name :: elements) (fun m => done m ++ Swish.tokenposBumper) pd' := by
  have h₀ := h
  obtain ⟨rfl, hxml, hshown, htag, hdom, hmeta, hnul, hnb, -⟩ := h
  rw [saxStep_start_plain fuel hc.undefMetas hxml hshown htag hdom hname uri] at hstep
  obtain ⟨top, htop, hstep⟩ := bind_ok_iff.mp hstep
  obtain ⟨pd₁, hprop, hstep⟩ := bind_ok_iff.mp hstep
  obtain ⟨properties, propBuf, propstack, rfl⟩ := pushProperty_fields hprop
  have hcontext : top.context = dottedPath name elements := by
    have hhead := TagStack.head_ok_iff.mp htop
    simp only [Option.getD_some, TagStack.push, List.head?_cons, Option.some.injEq] at hhead
    rw [← hhead, ← hdom.baked]
    exact flattenTagStack_eq name pd.domstack
  rw [hcontext] at hstep
  obtain ⟨metanames, tokens, nwords, metaBuf, metastack, rfl, hmeta', hmoves⟩ :=
    pushMetaname_moves { pd with
      tag := .live name, bumpWord := true, domstack := pd.domstack.push name name Swish.dot,
      properties, propBuf, propstack } hwords hc hmeta hnul hnb hstep
  exact {
    config := rfl
    xml := hxml
    shown := hshown
    tag := by simp
    domstack := hdom.push Swish.dot
    metastack := hmeta'
    metaBuf := hmoves.noNul
    contents := hmoves.contents
    text := TagMoves.text hwords h₀ ⟨hmoves.noNul, hmoves.contents, hmoves.words⟩ }

theorem receiving_end (fuel : Nat) (hwords : SplitsWords words) (hc : SettledConfig c)
    {outer : List XmlStr} (hname : PlainName env c outer name)
    (h : Receiving c words (name :: elements) done pd)
    (hstep : saxStep env fuel pd (.endElementNs name none) = .ok pd') :
    Receiving c words elements (fun m => done m ++ Swish.tokenposBumper) pd' := by
  have h₀ := h
  obtain ⟨rfl, hxml, hshown, htag, hdom, hmeta, hnul, hnb, -⟩ := h
  obtain ⟨tag, htag', hclose⟩ := closeTag_plain hc.undefMetas hxml hshown htag hname
  have hpop : popTags { pd with tag, bumpWord := true } name = .ok pd' := hclose.symm.trans hstep
  obtain ⟨pd₁, hprop, hpop⟩ := bind_ok_iff.mp hpop
  obtain ⟨propstack, properties, propBuf, rfl, -⟩ := popProperty_fields hprop
  obtain ⟨pd₂, hmetaname, hpop⟩ := bind_ok_iff.mp hpop
  obtain ⟨metanames, tokens, nwords, metaBuf, metastack, rfl, hmeta', hmoves⟩ :=
    popMetaname_moves { pd with tag, bumpWord := true, properties, propBuf, propstack } hwords
      hc hmeta hnul hnb hmetaname
  obtain ⟨top, domstack, hdompop, hdom'⟩ := hdom.pop
  simp only [hdompop] at hpop
  cases hpop
  exact {
    config := rfl
    xml := hxml
    shown := hshown
    tag := htag'
    domstack := hdom'
    metastack := hmeta'
    metaBuf := hmoves.noNul
    contents := hmoves.contents
    text := TagMoves.text hwords h₀ ⟨hmoves.noNul, hmoves.contents, hmoves.words⟩ }

theorem receiving_characters (hch : PlainText ch) (h : Receiving c words elements done pd) :
    Receiving c words elements (fun m => done m ++ if Receives c elements m then ch else [])
      (bufferCharacters pd ch) := by
  rw [bufferCharacters_shown h.shown]
  refine ⟨h.config, h.xml, h.shown, h.tag, h.domstack, h.metastack, ?_, h.contents, ?_⟩
  · have hbumper : (0 : XmlChar) ∉ Swish.tokenposBumper := by decide
    simp only [bufferText]
    split <;> simp [h.metaBuf, hch.noNul, hbumper]
  · intro m hm ch' word
    have htext := h.text m hm (ch ++ ch') word
    by_cases hreceives : Receives c elements m
    · simpa [hreceives, bufferText_append, List.append_assoc] using htext
    · simpa [hreceives] using htext

/-- What a plain document can go on with. -/
theorem plainDocument_cons {e : SaxEvent} {events : List SaxEvent}
    (h : PlainDocument env c elements (e :: events)) :
    (∃ name uri, e = .startElementNs name none uri [] ∧ PlainName env c elements name ∧
      PlainDocument env c (name :: elements) events) ∨
    (∃ name rest, e = .endElementNs name none ∧ elements = name :: rest ∧
      PlainDocument env c rest events) ∨
    ∃ ch, e = .characters ch ∧ PlainText ch ∧ PlainDocument env c elements events := by
  cases e with
  | startElementNs name xmlnsPrefix uri attributes =>
      cases xmlnsPrefix <;> cases attributes <;> simp only [PlainDocument] at h
      exact .inl ⟨name, uri, rfl, h⟩
  | endElementNs name xmlnsPrefix =>
      cases xmlnsPrefix <;> simp only [PlainDocument] at h
      obtain ⟨rest, helements, hdoc⟩ := h
      exact .inr (.inl ⟨name, rest, rfl, helements, hdoc⟩)
  | characters ch => exact .inr (.inr ⟨ch, rfl, h⟩)
  | startDocument | endDocument | startElement name atts | endElement name | comment cmt =>
      simp [PlainDocument] at h

/-- From any point of a plain document on, what the parser has at the end. -/
theorem run_receiving (hwords : SplitsWords words) (hc : SettledConfig c)
    {events : List SaxEvent} (hdoc : PlainDocument env c elements events)
    (hopen : ∀ name ∈ elements, PlainName env c [] name)
    (h : Receiving c words elements done pd) (hrun : run (saxStep env fuel) pd events = .ok pd') :
    Receiving c words [] (fun m => done m ++ receivedText c m elements events) pd' := by
  induction events generalizing elements done pd with
  | nil =>
      cases hrun
      have hnil : elements = [] := by simpa [PlainDocument] using hdoc
      subst hnil
      simpa [receivedText] using h
  | cons e events ih =>
      obtain ⟨pd₁, hstep, hrest⟩ := run_cons_ok_iff.mp hrun
      rcases plainDocument_cons hdoc with
        ⟨name, uri, rfl, hname, hbehind⟩ | ⟨name, rest, rfl, rfl, hbehind⟩ |
          ⟨ch, rfl, hch, hbehind⟩
      · have h₁ := receiving_start fuel hwords hc hname uri h hstep
        have h₂ := ih hbehind (by simpa [hname.root] using hopen) h₁ hrest
        simpa [receivedText, List.append_assoc] using h₂
      · have hname : PlainName env c [] name := hopen name (by simp)
        have h₁ := receiving_end fuel hwords hc hname h hstep
        have h₂ := ih hbehind (fun n hn => hopen n (by simp [hn])) h₁ hrest
        simpa [receivedText, List.append_assoc] using h₂
      · cases hstep
        have h₂ := ih hbehind hopen (receiving_characters hch h) hrest
        simpa [receivedText, List.append_assoc] using h₂

theorem receiving_initParserData (hwords : SplitsWords words) (analyzer : Analyzer)
    (docinfo : DocInfo) :
    Receiving c words [] (fun _ => []) (initParserData c analyzer docinfo) where
  config := rfl
  xml := rfl
  shown := rfl
  tag := by simp [initParserData]
  domstack := ⟨rfl, rfl⟩
  metastack := ⟨rfl, rfl⟩
  metaBuf := by simp [initParserData]
  contents m := by simp [initParserData, content_nbInit]
  text m hm ch word := by
    by_cases hreceives : Receives c [] m <;>
      simp [hreceives, initParserData, content_nbInit, hwords.nil, bufferText]

/-- A plain document that is parsed to its end leaves each name the words that it receives. -/
theorem receives_of_run (hwords : SplitsWords words) (hc : SettledConfig c)
    {events : List SaxEvent} (hdoc : PlainDocument env c [] events)
    (h : Receiving c words [] (fun _ => []) pd)
    (hrun : run (saxStep env fuel) pd (events ++ [.endDocument]) = .ok pd') :
    pd'.config = c ∧ ∀ m, metanameStoredAs c m = .ok m →
      (0 : XmlChar) ∉ pd'.metanames.content m ∧
      ∀ word, word ∈ words (pd'.metanames.content m) ↔
        word ∈ words (receivedText c m [] events) := by
  obtain ⟨pd₁, hrun, hend⟩ := run_append_ok_iff.mp hrun
  have h₁ := run_receiving hwords hc hdoc (by simp) h hrun
  have hdone := fun m hm word => h₁.words_done hwords (m := m) hm word
  obtain ⟨rfl, -, -, -, -, hmeta, hnul, hnb, -⟩ := h₁
  rw [run_singleton] at hend
  obtain ⟨metanames, tokens, nwords, rfl, hflushed⟩ :=
    flushBuffer_flushed pd₁ hwords hnul hnb hend
  refine ⟨rfl, ?_⟩
  intro m hm
  refine ⟨hflushed.noNul m, ?_⟩
  intro word
  have hwords' := hdone m hm word
  rw [List.nil_append] at hwords'
  rw [← hwords', hflushed.words, hmeta.baked, Receives]
  rfl

end Steps

end LibSwish3
