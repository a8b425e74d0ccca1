import LibSwish3.AsciiWords
import LibSwish3.PlainTags

/-!
# Whose text it is

In a plain XML document every piece of text belongs to its innermost element that is a
MetaName.  `attributed` says so on the events alone; the parser gets there with two stacks and
a buffer that it flushes now and then.  `Attributing` ties the two together: what has been
flushed to a MetaName, with what is still in the buffer for the innermost one, is the text of
the events so far.

Only a Property can stop such a parse: one whose `alias_for` names no property buffer.

## Main definitions

* `PlainConfig`, `PlainDocument` — the documents in question.
* `attributed` — the text of a MetaName.
* `run_attributes_iff` — when every plain document is parsed with the right attribution.
-/

namespace LibSwish3

open Runs Segments Tables

/-! ## Plain documents -/

/-- Names mean themselves: nothing is undefined, cascading, dotted or aliased. -/
structure PlainConfig (c : Config) : Prop where
  default_mem : Swish.defaultMetaname ∈ c.metanames
  undefMetas : c.flags.undefMetas = .index
  cascade : c.flags.cascadeMetaContext = false
  metaAlias : ∀ k m, c.metanames.lookup k = some m → m.aliasFor = .null
  metaDot : ∀ k ∈ c.metanames, Swish.dot ∉ k
  propDot : ∀ k ∈ c.properties, Swish.dot ∉ k

/-- A balanced sequence of start tags, texts and end tags, seen from inside the open
elements. -/
def PlainDocument (env : SaxEnv) (c : Config) : (elements : List XmlStr) → List SaxEvent → Prop
  | elements, [] => elements = []
  | elements, .startElementNs name none _ [] :: es =>
    PlainName env c elements name ∧ PlainDocument env c (name :: elements) es
  | elements, .endElementNs name none :: es =>
    ∃ rest, elements = name :: rest ∧ PlainDocument env c rest es
  | elements, .characters ch :: es => PlainText ch ∧ PlainDocument env c elements es
  | _, _ :: _ => False

/-- The text of the events that belongs to `m`. -/
def attributed (c : Config) (m : XmlStr) : (elements : List XmlStr) → List SaxEvent → XmlStr
  | _, [] => []
  | elements, .startElementNs name _ _ _ :: es => attributed c m (name :: elements) es
  | elements, .endElementNs _ _ :: es => attributed c m elements.tail es
  | elements, .characters ch :: es =>
    (if innermost c elements = m then ch else []) ++ attributed c m elements es
  | elements, _ :: es => attributed c m elements es

/-! ## Flushing -/

/-- The name in `alias_for`, if there is one, is that of a Property. -/
def AliasedToProperty (c : Config) (prop : Property) : Prop :=
  prop.aliasFor = .null ∨ ∃ t, prop.aliasFor = .live t ∧ t ∈ c.properties

section Flush

variable {c : Config} {pd : ParserData} {m context : XmlStr}

/-- Flushing under a MetaName adds the buffered text to that name and to no other. -/
theorem flushBuffer_plain (pd : ParserData) (context : XmlStr) (hc : PlainConfig pd.config)
    (htok : TokenizerReturns pd.analyzer pd.metaBuf) (hm : m ∈ pd.config.metanames)
    (hplain : PlainText pd.metaBuf) :
    ∃ metanames tokens nwords,
      flushBuffer pd m context = .ok { pd with
        metanames, tokens, docinfo := { pd.docinfo with nwords }, metaBuf := [] } ∧
      ∀ k, bare (metanames.content k) =
        bare (pd.metanames.content k) ++ if m = k then bare pd.metaBuf else [] := by
  have hstored := metanameStoredAs_plain hc.metaAlias hm
  have hadded : ∃ nb, nbAddStr pd.metanames m pd.metaBuf Swish.tokenposBumper false true =
      .ok nb := nbAddStr_ok_of _ _ _ (.inl rfl)
  obtain ⟨metanames, hadd⟩ := hadded
  have hcascade : cascadeMetas pd m metanames = .ok metanames := by
    simp [cascadeMetas, hc.cascade]
  obtain ⟨tokens, nwords, hflush⟩ :=
    flushBuffer_of_cascade context htok hm hplain hstored hadd hcascade
  refine ⟨metanames, tokens, nwords, hflush, ?_⟩
  intro k
  rw [content_nbAddStr hadd k, cstr_of_noNul hplain.noNul]
  by_cases hk : m = k
  · subst hk
    by_cases hws : strAllWs pd.metaBuf = true
    · simp [hws, bare_of_strAllWs hws]
    · have hws : strAllWs pd.metaBuf = false := by simpa using hws
      simp [hws, cleanedText]
  · simp [hk, Ne.symm hk]

/-- Adding the property buffer to Properties that have one cannot fail, and no buffer goes. -/
theorem propStack_returns (cleanwsp : Bool) {s : NamedBuffer × XmlStr} {tags : List Tag}
    (htags : ∀ t ∈ tags, t.baked = Swish.domStr ∨ t.baked ∈ c.properties)
    (hnb : ∀ k, k ∈ s.1 ↔ k ∈ c.properties) :
    ∃ s', run (propStackStep cleanwsp) s tags = .ok s' ∧ ∀ k, k ∈ s'.1 ↔ k ∈ c.properties := by
  refine progress (I := fun s : NamedBuffer × XmlStr => ∀ k, k ∈ s.1 ↔ k ∈ c.properties) ?_ hnb
    (steps_of_forall (Q := fun t : Tag => t.baked = Swish.domStr ∨ t.baked ∈ c.properties) htags)
  intro s tag hnb htag
  rw [propStackStep]
  split
  · exact ⟨s, rfl, hnb⟩
  · rename_i hne
    have hmem : tag.baked ∈ c.properties := htag.resolve_left hne
    have hadded : ∃ nb', nbAddStr s.1 tag.baked s.2 Swish.tokenposBumper cleanwsp false =
        .ok nb' := nbAddStr_ok_of _ _ _ (.inr ((hnb _).mpr hmem))
    obtain ⟨nb', hadd⟩ := hadded
    exact ⟨(nb', _), by rw [hadd]; rfl, fun k => (mem_nbAddStr hadd k).trans (hnb k)⟩

/-- Ending a Property that is no alias, or an alias of a Property, cannot fail. -/
theorem addStackToPropBuf_returns (pd : ParserData) (baked : Option XmlStr)
    (htags : ∀ t ∈ pd.propstack.tags, t.baked = Swish.domStr ∨ t.baked ∈ pd.config.properties)
    (hnb : ∀ k, k ∈ pd.properties ↔ k ∈ pd.config.properties)
    (hbaked : ∀ k, baked = some k →
      ∃ prop, pd.config.properties.lookup k = some prop ∧ AliasedToProperty pd.config prop) :
    ∃ properties, addStackToPropBuf pd baked = .ok { pd with properties, propBuf := [] } ∧
      ∀ k, k ∈ properties ↔ k ∈ pd.config.properties := by
  have hadd : ∃ s cleanwsp, addToProperty pd baked = .ok (s, cleanwsp) ∧
      ∀ k, k ∈ s.1 ↔ k ∈ pd.config.properties := by
    cases baked with
    | none => exact ⟨(pd.properties, pd.propBuf), true, rfl, hnb⟩
    | some k =>
        obtain ⟨prop, hlook, halias⟩ := hbaked k rfl
        have hstored : ∃ storedAs, propertyStoredAs pd.config k = .ok (storedAs, !prop.verbatim) ∧
            storedAs ∈ pd.config.properties := by
          rw [propertyStoredAs, hlook]
          rcases halias with hnull | ⟨t, hlive, ht⟩
          · simp only [hnull]
            exact ⟨k, rfl, mem_of_lookup hlook⟩
          · simp only [hlive]
            exact ⟨t, rfl, ht⟩
        obtain ⟨storedAs, hstored, hmem⟩ := hstored
        have hadded : ∃ nb, nbAddStr pd.properties storedAs pd.propBuf Swish.tokenposBumper
            (!prop.verbatim) false = .ok nb := nbAddStr_ok_of _ _ _ (.inr ((hnb _).mpr hmem))
        obtain ⟨properties, hadd⟩ := hadded
        refine ⟨(properties, cleanedInPlace (!prop.verbatim) pd.propBuf), !prop.verbatim, ?_,
          fun k => (mem_nbAddStr hadd k).trans (hnb k)⟩
        simp only [addToProperty, hstored, bind, Except.bind, hadd]
        rfl
  obtain ⟨s, cleanwsp, hadd, hnb'⟩ := hadd
  obtain ⟨⟨properties', propBuf'⟩, hstack, hnb''⟩ := propStack_returns cleanwsp htags hnb'
  refine ⟨properties', ?_, hnb''⟩
  simp only [addStackToPropBuf, hadd, bind, Except.bind, hstack]
  rfl

end Flush

/-! ## The simulation -/

/-- The parser inside the open elements, when `done` is the text so far of each MetaName. -/
structure Attributing (c : Config) (analyzer : Analyzer) (elements : List XmlStr)
    (done : XmlStr → XmlStr) (pd : ParserData) : Prop where
  config : pd.config = c
  analyzer : pd.analyzer = analyzer
  xml : pd.isHtml = false
  shown : pd.ignoreContent = 0
  tag : pd.tag ≠ .freed
  domstack : Named pd.domstack elements
  metastack : Named pd.metastack (metaNames c elements)
  propstack : Named pd.propstack (propNames c elements)
  buffers : ∀ k, k ∈ pd.properties ↔ k ∈ c.properties
  plainText : PlainText pd.metaBuf
  text : ∀ m, bare (pd.metanames.content m) ++
    (if innermost c elements = m then bare pd.metaBuf else []) = bare (done m)

section Steps

variable {env : SaxEnv} {fuel : Nat} {c : Config} {analyzer : Analyzer} {elements : List XmlStr}
  {done : XmlStr → XmlStr} {pd : ParserData} {name : XmlStr}

/-- Opening a tag pushes it on the property stack where it is a Property. -/
theorem pushProperty_plain (pd : ParserData) (name : XmlStr) (hc : PlainConfig pd.config)
    (hstack : Named pd.propstack (propNames pd.config elements))
    (hnb : ∀ k, k ∈ pd.properties ↔ k ∈ pd.config.properties) :
    ∃ properties propBuf propstack,
      pushProperty pd name (some name) (dottedPath name elements) =
        .ok { pd with properties, propBuf, propstack } ∧
      Named propstack (propNames pd.config (name :: elements)) ∧
      (∀ k, k ∈ properties ↔ k ∈ pd.config.properties) ∧ (pd.propBuf = [] → propBuf = []) := by
  by_cases hmem : name ∈ pd.config.properties
  · obtain ⟨properties, hadd, hnb'⟩ := addStackToPropBuf_returns pd none
      (fun t ht => propNames_cases (hstack.baked_mem ht)) hnb (fun _ h => by cases h)
    refine ⟨properties, [], pd.propstack.push name name Swish.domChar,
      pushProperty_of_mem elements hc.propDot hmem hadd, ?_, hnb', fun _ => rfl⟩
    rw [propNames_cons_of_mem hmem]
    exact hstack.push Swish.domChar
  · refine ⟨pd.properties, pd.propBuf, pd.propstack,
      pushProperty_of_not_mem elements hc.propDot hmem, ?_, hnb, id⟩
    rwa [propNames_cons_of_not_mem hmem]

/-- Opening a tag flushes and pushes where it is a MetaName. -/
theorem pushMetaname_plain (pd : ParserData) (name : XmlStr) (hc : PlainConfig pd.config)
    (htok : name ∈ pd.config.metanames → TokenizerReturns pd.analyzer pd.metaBuf)
    (hstack : Named pd.metastack (metaNames pd.config elements))
    (hplain : PlainText pd.metaBuf) :
    ∃ metanames tokens nwords metaBuf metastack,
      pushMetaname pd name (some name) (dottedPath name elements) = .ok { pd with
        metanames, tokens, docinfo := { pd.docinfo with nwords }, metaBuf, metastack } ∧
      metaBuf = (if name ∈ pd.config.metanames then [] else pd.metaBuf) ∧
      Named metastack (metaNames pd.config (name :: elements)) ∧ PlainText metaBuf ∧
      ∀ m, bare (metanames.content m) ++
          (if innermost pd.config (name :: elements) = m then bare metaBuf else []) =
        bare (pd.metanames.content m) ++
          (if innermost pd.config elements = m then bare pd.metaBuf else []) := by
  by_cases hmem : name ∈ pd.config.metanames
  · obtain ⟨context, hhead⟩ := flushHead_innermost hstack
    have hinner : innermost pd.config elements ∈ pd.config.metanames :=
      innermost_mem hc.default_mem
    obtain ⟨metanames, tokens, nwords, hflush, htext⟩ :=
      flushBuffer_plain pd context hc (htok hmem) hinner hplain
    have hpush := pushMetaname_of_mem elements hmem (hhead.trans hflush) hc.metaDot hc.propDot
    refine ⟨metanames, tokens, nwords, [], pd.metastack.push name name Swish.domChar, hpush,
      (if_pos hmem).symm, ?_, plainText_nil, fun m => by simp [htext m]⟩
    rw [metaNames_cons_of_mem hmem]
    exact hstack.push Swish.domChar
  · refine ⟨pd.metanames, pd.tokens, pd.docinfo.nwords, pd.metaBuf, pd.metastack,
      pushMetaname_of_not_mem elements hc.metaDot hmem, (if_neg hmem).symm, ?_, hplain, ?_⟩
    · rwa [metaNames_cons_of_not_mem hmem]
    · intro m
      rw [innermost_cons_of_not_mem hmem]

/-- Closing a tag pops the property stack where it is a Property. -/
theorem popProperty_plain (pd : ParserData) (name : XmlStr)
    (halias : ∀ prop, pd.config.properties.lookup name = some prop →
      AliasedToProperty pd.config prop) (hslash : Swish.domChar ∉ name)
    (hstack : Named pd.propstack (propNames pd.config (name :: elements)))
    (hnb : ∀ k, k ∈ pd.properties ↔ k ∈ pd.config.properties) :
    ∃ properties propBuf propstack,
      popProperty pd name = .ok { pd with properties, propBuf, propstack } ∧
      Named propstack (propNames pd.config elements) ∧
      ∀ k, k ∈ properties ↔ k ∈ pd.config.properties := by
  by_cases hmem : name ∈ pd.config.properties
  · obtain ⟨propstack, hpop, hrest⟩ := popProperty_of_mem hmem hstack
    obtain ⟨prop, hlook⟩ := mem_iff_exists_lookup.mp hmem
    obtain ⟨properties, hadd, hnb'⟩ := addStackToPropBuf_returns { pd with propstack }
      (some name) (fun t ht => propNames_cases (hrest.baked_mem ht)) hnb
      (fun k hk => ⟨prop, by rw [← Option.some.inj hk]; exact hlook, halias prop hlook⟩)
    exact ⟨properties, [], propstack, hpop.trans hadd, hrest, hnb'⟩
  · rw [propNames_cons_of_not_mem hmem] at hstack
    have hne : name ≠ Swish.domStr := by
      rintro rfl
      exact hslash (by decide)
    exact ⟨pd.properties, pd.propBuf, pd.propstack, popProperty_of_not_mem hmem hne hstack,
      hstack, hnb⟩

/-- Closing a tag pops the meta stack and flushes where it is a MetaName. -/
theorem popMetaname_plain (pd : ParserData) (name : XmlStr) (hc : PlainConfig pd.config)
    (htok : name ∈ pd.config.metanames → TokenizerReturns pd.analyzer pd.metaBuf)
    (hstack : Named pd.metastack (metaNames pd.config (name :: elements)))
    (hplain : PlainText pd.metaBuf) :
    ∃ metanames tokens nwords metaBuf metastack,
      popMetaname pd name = .ok { pd with
        metanames, tokens, docinfo := { pd.docinfo with nwords }, metaBuf, metastack } ∧
      metaBuf = (if name ∈ pd.config.metanames then [] else pd.metaBuf) ∧
      Named metastack (metaNames pd.config elements) ∧ PlainText metaBuf ∧
      ∀ m, bare (metanames.content m) ++
          (if innermost pd.config elements = m then bare metaBuf else []) =
        bare (pd.metanames.content m) ++
          (if innermost pd.config (name :: elements) = m then bare pd.metaBuf else []) := by
  by_cases hmem : name ∈ pd.config.metanames
  · obtain ⟨metastack, context, hpop, hrest⟩ := popMetaname_of_mem hmem hstack
    obtain ⟨metanames, tokens, nwords, hflush, htext⟩ :=
      flushBuffer_plain { pd with metastack } context hc (htok hmem) hmem hplain
    refine ⟨metanames, tokens, nwords, [], metastack, hpop.trans hflush, (if_pos hmem).symm,
      hrest, plainText_nil, ?_⟩
    intro m
    simp [htext m, innermost_cons_of_mem hmem]
  · rw [metaNames_cons_of_not_mem hmem] at hstack
    refine ⟨pd.metanames, pd.tokens, pd.docinfo.nwords, pd.metaBuf, pd.metastack,
      popMetaname_of_not_mem hc.default_mem hmem hstack, (if_neg hmem).symm, hstack, hplain, ?_⟩
    intro m
    rw [innermost_cons_of_not_mem hmem]

/-- Opening a plain tag, once its name is known. -/
theorem pushTags_plain (name : XmlStr) (hc : PlainConfig c)
    (htok : name ∈ c.metanames → TokenizerReturns analyzer pd.metaBuf)
    (h : Attributing c analyzer elements done pd) (tag : CPtr XmlStr) (htag : tag ≠ .freed) :
    ∃ pd', pushTags { pd with tag, bumpWord := true } name (some name) = .ok pd' ∧
      Attributing c analyzer (name :: elements) done pd' ∧
      pd'.bumpWord = true ∧ pd'.metaBuf = (if name ∈ c.metanames then [] else pd.metaBuf) ∧
      (pd.propBuf = [] → pd'.propBuf = []) := by
  obtain ⟨rfl, rfl, hxml, hshown, -, hdom, hmeta, hprop, hnb, hplain, htext⟩ := h
  have hctx : flattenTagStack name pd.domstack Swish.dot = dottedPath name elements := by
    rw [flattenTagStack_eq, hdom.baked]
  have hhead : (pd.domstack.push name name Swish.dot).head =
      .ok ⟨name, name, dottedPath name elements, pd.domstack.count⟩ :=
    TagStack.head_ok_iff.mpr (by simp [hctx])
  obtain ⟨properties, propBuf, propstack, hpushp, hprop', hnb', hempty⟩ := pushProperty_plain
    { pd with tag, bumpWord := true, domstack := pd.domstack.push name name Swish.dot } name hc
    hprop hnb
  obtain ⟨metanames, tokens, nwords, metaBuf, metastack, hpushm, hbuf, hmeta', hplain', htext'⟩ :=
    pushMetaname_plain
      { pd with
        tag, bumpWord := true, domstack := pd.domstack.push name name Swish.dot, properties,
        propBuf, propstack } name hc htok hmeta hplain
  refine ⟨{ pd with
    tag, bumpWord := true, domstack := pd.domstack.push name name Swish.dot, properties, propBuf,
    propstack, metanames, tokens, docinfo := { pd.docinfo with nwords }, metaBuf, metastack },
    ?_, ?_, rfl, hbuf, hempty⟩
  · simp only [pushTags, Option.getD_some, hhead, bind, Except.bind, hpushp]
    exact hpushm
  · exact {
      config := rfl
      analyzer := rfl
      xml := hxml
      shown := hshown
      tag := htag
      domstack := hdom.push Swish.dot
      metastack := hmeta'
      propstack := hprop'
      buffers := hnb'
      plainText := hplain'
      text := fun m => (htext' m).trans (htext m) }

/-- Closing a plain tag. -/
theorem popTags_plain (hc : PlainConfig c)
    (htok : name ∈ c.metanames → TokenizerReturns analyzer pd.metaBuf)
    (halias : ∀ prop, c.properties.lookup name = some prop → AliasedToProperty c prop)
    (hslash : Swish.domChar ∉ name)
    (h : Attributing c analyzer (name :: elements) done pd) (tag : CPtr XmlStr)
    (htag : tag ≠ .freed) :
    ∃ pd', popTags { pd with tag, bumpWord := true } name = .ok pd' ∧
      Attributing c analyzer elements done pd' ∧
      pd'.bumpWord = true ∧ pd'.metaBuf = (if name ∈ c.metanames then [] else pd.metaBuf) := by
  obtain ⟨rfl, rfl, hxml, hshown, -, hdom, hmeta, hprop, hnb, hplain, htext⟩ := h
  obtain ⟨properties, propBuf, propstack, hpopp, hprop', hnb'⟩ := popProperty_plain
    { pd with tag, bumpWord := true } name halias hslash hprop hnb
  obtain ⟨metanames, tokens, nwords, metaBuf, metastack, hpopm, hbuf, hmeta', hplain', htext'⟩ :=
    popMetaname_plain { pd with tag, bumpWord := true, properties, propBuf, propstack } name hc
      htok hmeta hplain
  obtain ⟨top, domstack, hpop, hdom'⟩ := hdom.pop
  refine ⟨{ pd with
    tag, bumpWord := true, properties, propBuf, propstack, metanames, tokens,
    docinfo := { pd.docinfo with nwords }, metaBuf, metastack, domstack }, ?_, ?_, rfl, hbuf⟩
  · simp only [popTags, bind, Except.bind, hpopp, hpopm, hpop]
    rfl
  · exact {
      config := rfl
      analyzer := rfl
      xml := hxml
      shown := hshown
      tag := htag
      domstack := hdom'
      metastack := hmeta'
      propstack := hprop'
      buffers := hnb'
      plainText := hplain'
      text := fun m => (htext' m).trans (htext m) }

end Steps

section Events

variable {env : SaxEnv} {fuel : Nat} {c : Config} {analyzer : Analyzer} {elements : List XmlStr}
  {done : XmlStr → XmlStr} {pd : ParserData} {name : XmlStr} {events : List SaxEvent}

theorem attributing_start (fuel : Nat) (hc : PlainConfig c) {uri : Option XmlStr}
    (htok : TextsTokenized analyzer c pd.bumpWord pd.metaBuf
      (.startElementNs name none uri [] :: events))
    (hname : PlainName env c elements name) (h : Attributing c analyzer elements done pd) :
    ∃ pd', saxStep env fuel pd (.startElementNs name none uri []) = .ok pd' ∧
      Attributing c analyzer (name :: elements) done pd' ∧
      TextsTokenized analyzer c pd'.bumpWord pd'.metaBuf events ∧
      (pd.propBuf = [] → pd'.propBuf = []) := by
  have hc' : PlainConfig pd.config := h.config ▸ hc
  have hname' : PlainName env pd.config elements name := h.config ▸ hname
  rw [saxStep_start_plain fuel hc'.undefMetas h.xml h.shown h.tag h.domstack hname' uri]
  obtain ⟨hflush, hrest⟩ := textsTokenized_start.mp htok
  obtain ⟨pd', hpush, h', hbump, hbuf, hempty⟩ :=
    pushTags_plain name hc hflush h (.live name) (by simp)
  exact ⟨pd', hpush, h', by rwa [hbump, hbuf], hempty⟩

theorem Attributing.closeTag (hc : PlainConfig c) {outer : List XmlStr}
    (hname : PlainName env c outer name) (h : Attributing c analyzer elements done pd) :
    ∃ tag, tag ≠ .freed ∧
      closeTag env.toTagEnv pd name none = popTags { pd with tag, bumpWord := true } name :=
  closeTag_plain (by rw [h.config]; exact hc.undefMetas) h.xml h.shown h.tag hname

theorem attributing_end (fuel : Nat) (hc : PlainConfig c)
    (htok : TextsTokenized analyzer c pd.bumpWord pd.metaBuf (.endElementNs name none :: events))
    (halias : ∀ prop, c.properties.lookup name = some prop → AliasedToProperty c prop)
    {outer : List XmlStr} (hname : PlainName env c outer name)
    (h : Attributing c analyzer (name :: elements) done pd) :
    ∃ pd', saxStep env fuel pd (.endElementNs name none) = .ok pd' ∧
      Attributing c analyzer elements done pd' ∧
      TextsTokenized analyzer c pd'.bumpWord pd'.metaBuf events := by
  obtain ⟨tag, htag, hclose⟩ := h.closeTag hc hname
  obtain ⟨hflush, hrest⟩ := textsTokenized_end.mp htok
  obtain ⟨pd', hpop, h', hbump, hbuf⟩ := popTags_plain hc hflush halias hname.noSlash h tag htag
  exact ⟨pd', hclose.trans hpop, h', by rwa [hbump, hbuf]⟩

/-- A Property that is an alias of no Property stops the parse where its element ends, if
there is text in it. -/
theorem closing_alias_stops (fuel : Nat) (hc : PlainConfig c) {outer : List XmlStr}
    (hname : PlainName env c outer name) (h : Attributing c analyzer (name :: elements) done pd)
    {prop : Property} (hlook : c.properties.lookup name = some prop)
    (halias : ¬ AliasedToProperty c prop) (htext : strAllWs (cstr pd.propBuf) = false)
    (pd' : ParserData) : saxStep env fuel pd (.endElementNs name none) ≠ .ok pd' := by
  intro hok
  obtain ⟨tag, -, hclose⟩ := h.closeTag hc hname
  have hpop : popTags { pd with tag, bumpWord := true } name = .ok pd' := hclose.symm.trans hok
  obtain ⟨pd₁, hprop, -⟩ := bind_ok_iff.mp hpop
  obtain ⟨⟨st, propstack⟩, hmatch, hprop⟩ := bind_ok_iff.mp hprop
  have hstack := h.propstack
  rw [propNames_cons_of_mem (mem_of_lookup hlook)] at hstack
  obtain ⟨top, propstack', hself, hbaked, -⟩ := hstack.popOnMatch_self
  have hst : st = some top := congrArg Prod.fst (Except.ok.inj (hmatch.symm.trans hself))
  subst hst
  obtain ⟨⟨added, cleanwsp⟩, hadd, -⟩ := bind_ok_iff.mp hprop
  obtain ⟨⟨storedAs, cleanwsp'⟩, hstored, hadd⟩ := bind_ok_iff.mp hadd
  obtain ⟨nb, hnb, -⟩ := bind_ok_iff.mp hadd
  have hlooked : pd.config.properties.lookup top.baked = some prop := by
    rw [h.config, hbaked, hlook]
  rw [propertyStoredAs, hlooked] at hstored
  cases hptr : prop.aliasFor with
  | null => exact halias (.inl hptr)
  | freed =>
      simp only [hptr] at hstored
      cases hstored
  | live t =>
      simp only [hptr] at hstored
      cases hstored
      have hnot : t ∉ c.properties := fun ht => halias (.inr ⟨t, hptr, ht⟩)
      have hnone : pd.properties.lookup t = none :=
        AList.lookup_eq_none.mpr fun ht => hnot ((h.buffers t).mp ht)
      simp only [nbAddStr, htext, Option.getD_some, hnone] at hnb
      cases hnb

theorem attributing_characters {ch : XmlStr} (hch : PlainText ch)
    (h : Attributing c analyzer elements done pd) :
    Attributing c analyzer elements
      (fun m => done m ++ if innermost c elements = m then ch else [])
      (bufferCharacters pd ch) := by
  rw [bufferCharacters_shown h.shown]
  refine ⟨h.config, h.analyzer, h.xml, h.shown, h.tag, h.domstack, h.metastack, h.propstack,
    h.buffers, h.plainText.bufferText hch pd.bumpWord, ?_⟩
  intro m
  have htext := h.text m
  by_cases hm : innermost c elements = m
  · simp only [hm, if_true, bare_bufferText, bare_append] at htext ⊢
    rw [← htext, List.append_assoc]
  · simpa [hm] using htext

/-- From any point of a plain document on, the parser reaches its end. -/
theorem run_attributing (fuel : Nat) (hc : PlainConfig c)
    (halias : ∀ name prop, PlainName env c [] name → c.properties.lookup name = some prop →
      AliasedToProperty c prop)
    (hdoc : PlainDocument env c elements events)
    (hopen : ∀ name ∈ elements, PlainName env c [] name)
    (htok : TextsTokenized analyzer c pd.bumpWord pd.metaBuf events)
    (h : Attributing c analyzer elements done pd) :
    ∃ pd', run (saxStep env fuel) pd events = .ok pd' ∧
      Attributing c analyzer [] (fun m => done m ++ attributed c m elements events) pd' ∧
      TokenizerReturns analyzer pd'.metaBuf := by
  induction events generalizing elements done pd with
  | nil =>
      have hnil : elements = [] := by simpa [PlainDocument] using hdoc
      subst hnil
      exact ⟨pd, rfl, by simpa [attributed] using h, textsTokenized_nil.mp htok⟩
  | cons e events ih =>
      match e with
      | .startElementNs name none uri [] =>
          obtain ⟨hname, hdoc⟩ := hdoc
          obtain ⟨pd₁, hstep, h₁, htok₁, -⟩ := attributing_start fuel hc htok hname h
          obtain ⟨pd₂, hrun, h₂⟩ := ih hdoc (by simpa [hname.root] using hopen) htok₁ h₁
          exact ⟨pd₂, by rw [run_cons_of_ok hstep, hrun], h₂⟩
      | .endElementNs name none =>
          obtain ⟨rest, rfl, hdoc⟩ := hdoc
          have hname : PlainName env c [] name := hopen name (by simp)
          obtain ⟨pd₁, hstep, h₁, htok₁⟩ :=
            attributing_end fuel hc htok (halias name · hname) hname h
          obtain ⟨pd₂, hrun, h₂⟩ := ih hdoc (fun n hn => hopen n (by simp [hn])) htok₁ h₁
          exact ⟨pd₂, by rw [run_cons_of_ok hstep, hrun], h₂⟩
      | .characters ch =>
          obtain ⟨hch, hdoc⟩ := hdoc
          have htok₁ : TextsTokenized analyzer c (bufferCharacters pd ch).bumpWord
              (bufferCharacters pd ch).metaBuf events := by
            rw [bufferCharacters_shown h.shown]
            exact htok
          obtain ⟨pd₂, hrun, h₂, htok₂⟩ := ih hdoc hopen htok₁ (attributing_characters hch h)
          refine ⟨pd₂, hrun, ?_, htok₂⟩
          simpa [attributed, List.append_assoc] using h₂

theorem attributing_initParserData (docinfo : DocInfo) :
    Attributing c analyzer [] (fun _ => []) (initParserData c analyzer docinfo) where
  config := rfl
  analyzer := rfl
  xml := rfl
  shown := rfl
  tag := by simp [initParserData]
  domstack := ⟨rfl, rfl⟩
  metastack := ⟨rfl, rfl⟩
  propstack := ⟨rfl, rfl⟩
  buffers _ := mem_nbInit
  plainText := plainText_nil
  text m := by simp [initParserData, content_nbInit]

end Events

/-! ## The tokenizer of the library -/

/-- On ASCII text it returns exactly if every piece of a word leaves room for the NUL. -/
theorem tokenizerReturns_builtIn_iff {loc : Locale} {a : Analyzer} {buf : XmlStr}
    (ha : a.BuiltIn loc) (hon : a.tokenize = true) (hmax : 1 ≤ a.maxwordlen)
    (hmin : a.minwordlen = 1) (hne : buf ≠ []) (hascii : ∀ c ∈ buf, c < 0x80) :
    TokenizerReturns a buf ↔ PiecesFit a a.maxwordlen (asciiRuns buf) := by
  have hbranch : isAscii buf = true := by simpa [isAscii, hne] using hascii
  have hcstr : ∀ c ∈ cstr buf, c < 0x80 :=
    fun c hc => hascii c ((List.takeWhile_sublist _).subset hc)
  constructor
  · intro hreturns
    obtain ⟨⟨tl', n⟩, hok⟩ := hreturns hon hne .init (metanameInit []) []
    obtain ⟨tokenizer, block, hlen, heq⟩ := ha .init buf (some (metanameInit [])) []
    rw [heq, LibSwish3.tokenize, if_pos hbranch] at hok
    have hwrites := tokenizeAscii_writes hcstr hok
    rw [asciiWrites, List.forall_mem_cons, hlen] at hwrites
    have hfits : PiecesFit { a with tokenizer } a.maxwordlen (asciiRuns buf) :=
      (asciiWritesFrom_lt_iff_pieces (a := { a with tokenizer }) hmin hmax
        (cutFrom_nil _ _)).mp hwrites.2
    exact hfits
  · intro hfits _ _ tl m context
    obtain ⟨tokenizer, block, hlen, heq⟩ := ha tl buf (some m) context
    have hfits' : PiecesFit { a with tokenizer } block.length (asciiRuns buf) := by
      rw [hlen]
      exact hfits
    obtain ⟨tl', n, -, hok, -⟩ := tokenizeAscii_of_fits (a := { a with tokenizer }) (m := m)
      context tl hcstr hmax hmin hlen.ge hfits'
    exact ⟨(tl', n), by rw [heq, LibSwish3.tokenize, if_pos hbranch, hok]⟩

/-- It returns for the texts of a document without long words. -/
theorem textsTokenized_of_short {loc : Locale} {a : Analyzer} {c : Config} {bumpWord : Bool}
    {buf : XmlStr} {events : List SaxEvent} (ha : a.BuiltIn loc) (hmax : 2 ≤ a.maxwordlen)
    (hmin : a.minwordlen = 1)
    (hshort : ∀ text ∈ flushedTexts c bumpWord buf events, (∀ b ∈ text, b < 0x80) ∧
      ∀ r ∈ asciiRuns text, r.1.length < a.maxwordlen) :
    TextsTokenized a c bumpWord buf events := by
  intro text htext hon hne
  obtain ⟨hascii, hruns⟩ := hshort text htext
  refine (tokenizerReturns_builtIn_iff ha hon (by omega) hmin hne hascii).mpr ?_ hon hne
  intro r hr p hp
  have hlen := hruns r hr
  by_cases hnil : r.1 = []
  · simp [hnil] at hp
  · have hle : r.1.length ≤ pieceLen a := hlen.le.trans (Nat.le_max_right _ _)
    rw [pieces_of_length_le hnil hle] at hp
    rw [List.mem_singleton.mp hp]
    exact hlen

/-! ## The result -/

section Result

variable {env : SaxEnv} {fuel : Nat} {c : Config} {analyzer : Analyzer} {docinfo : DocInfo}

/-- A document parsed to its end, with the text of each MetaName in its buffer. -/
def ParsedRight (env : SaxEnv) (fuel : Nat) (c : Config) (analyzer : Analyzer)
    (docinfo : DocInfo) (events : List SaxEvent) : Prop :=
  ∃ pd, run (saxStep env fuel) (initParserData c analyzer docinfo) (events ++ [.endDocument]) =
      .ok pd ∧
    ∀ m ∈ c.metanames, bare (pd.metanames.content m) = bare (attributed c m [] events)

/-- At the end of the document the rest of the text goes to `swishdefault`. -/
theorem parsedRight_of_aliases (hc : PlainConfig c)
    (halias : ∀ name prop, PlainName env c [] name → c.properties.lookup name = some prop →
      AliasedToProperty c prop)
    {events : List SaxEvent} (hdoc : PlainDocument env c [] events)
    (htok : TextsTokenized analyzer c true [] events) :
    ParsedRight env fuel c analyzer docinfo events := by
  obtain ⟨pd, hrun, h, hend⟩ := run_attributing fuel hc halias hdoc (by simp) htok
    (attributing_initParserData docinfo)
  obtain ⟨rfl, rfl, -, -, -, -, -, -, -, hplain, htext⟩ := h
  obtain ⟨metanames, tokens, nwords, hflush, hstored⟩ :=
    flushBuffer_plain pd Swish.defaultMetaname hc hend hc.default_mem hplain
  refine ⟨_, run_append_ok_iff.mpr ⟨pd, hrun, run_singleton.trans hflush⟩, ?_⟩
  intro m _
  have hdone := htext m
  rw [List.nil_append] at hdone
  rw [← hdone]
  exact hstored m

/-- `<name>x</name>` -/
def oneElement (name : XmlStr) : List SaxEvent :=
  [.startElementNs name none none [], .characters (lit "x"), .endElementNs name none]

theorem plainText_x : PlainText (lit "x") := ⟨by decide, by decide⟩

theorem plainDocument_oneElement {name : XmlStr} (hname : PlainName env c [] name) :
    PlainDocument env c [] (oneElement name) :=
  ⟨hname, plainText_x, [], rfl, rfl⟩

/-- The tokenizer gets one text of it. -/
theorem textsTokenized_oneElement (name : XmlStr) (hx : TokenizerReturns analyzer (lit "x")) :
    TextsTokenized analyzer c true [] (oneElement name) := by
  have hnil : TokenizerReturns analyzer [] := fun _ hne => absurd rfl hne
  by_cases hmem : name ∈ c.metanames
  · simpa [TextsTokenized, flushedTexts, oneElement, bufferText, hmem, hnil] using hx
  · simpa [TextsTokenized, flushedTexts, oneElement, bufferText, hmem] using hx

/-- A config is plain when its tables are. -/
theorem plainConfig_of_entries {c : Config} (hdefault : Swish.defaultMetaname ∈ c.metanames)
    (hindex : c.flags.undefMetas = .index) (hcascade : c.flags.cascadeMetaContext = false)
    (hmeta : ∀ e ∈ c.metanames.entries, e.2.aliasFor = .null ∧ Swish.dot ∉ e.1)
    (hprop : ∀ e ∈ c.properties.entries, Swish.dot ∉ e.1) : PlainConfig c where
  default_mem := hdefault
  undefMetas := hindex
  cascade := hcascade
  metaAlias k m hlook := (hmeta ⟨k, m⟩ (mem_entries_iff.mpr hlook)).1
  metaDot k hk := by
    obtain ⟨m, hlook⟩ := mem_iff_exists_lookup.mp hk
    exact (hmeta ⟨k, m⟩ (mem_entries_iff.mpr hlook)).2
  propDot k hk := by
    obtain ⟨p, hlook⟩ := mem_iff_exists_lookup.mp hk
    exact hprop ⟨k, p⟩ (mem_entries_iff.mpr hlook)

/-- The library makes its analyzer for words of at most 256 bytes. -/
theorem tokenizerReturns_x : TokenizerReturns (.ofLibrary .posix 256 1) (lit "x") :=
  (tokenizerReturns_builtIn_iff (Analyzer.ofLibrary_builtIn _ _ _) rfl (by decide) rfl (by decide)
    (by decide +kernel)).mpr (by rw [PiecesFit]; decide +kernel)

/-- Every plain document on whose texts the tokenizer returns is parsed with the right
attribution exactly when each Property that an element can name is an alias of a Property, or of
nothing. -/
theorem run_attributes_iff (hc : PlainConfig c) (hx : TokenizerReturns analyzer (lit "x")) :
    (∀ events, PlainDocument env c [] events → TextsTokenized analyzer c true [] events →
      ParsedRight env fuel c analyzer docinfo events) ↔
    ∀ name prop, PlainName env c [] name → c.properties.lookup name = some prop →
      AliasedToProperty c prop := by
  constructor
  · intro hall name prop hname hlook
    by_contra halias
    have htok := textsTokenized_oneElement (c := c) name hx
    obtain ⟨pd, hrun, -⟩ := hall _ (plainDocument_oneElement hname) htok
    obtain ⟨pd₁, hstart, h₁, -, hempty⟩ := attributing_start fuel hc htok hname
      (attributing_initParserData docinfo)
    have h₂ := attributing_characters plainText_x h₁
    rw [oneElement, List.cons_append, run_cons_of_ok hstart] at hrun
    obtain ⟨pd₂, hchars, hrun⟩ := run_cons_ok_iff.mp hrun
    cases hchars
    obtain ⟨pd₃, hend, -⟩ := run_cons_ok_iff.mp hrun
    have hbuf : (bufferCharacters pd₁ (lit "x")).propBuf = lit "x" := by
      simp [bufferCharacters, h₁.shown, hempty rfl, bufferText]
    refine closing_alias_stops fuel hc hname h₂ hlook halias ?_ pd₃ hend
    rw [hbuf]
    decide
  · intro halias events hdoc htok
    exact parsedRight_of_aliases hc halias hdoc htok

/-- `<doc>one<swishtitle>two</swishtitle>three</doc>` -/
def nestedTitle : List SaxEvent :=
  [.startElementNs (lit "doc") none none [], .characters (lit "one"),
    .startElementNs Swish.propTitle none none [], .characters (lit "two"),
    .endElementNs Swish.propTitle none, .characters (lit "three"), .endElementNs (lit "doc") none]

theorem plainDocument_nestedTitle :
    PlainDocument .alone (configSetDefault (lit "C")) [] nestedTitle :=
  ⟨⟨rfl, by decide, by decide +kernel, by decide +kernel⟩, ⟨by decide, by decide⟩,
    ⟨rfl, by decide, by decide +kernel, by decide +kernel⟩, ⟨by decide, by decide⟩, _, rfl,
    ⟨by decide, by decide⟩, _, rfl, rfl⟩

/-- With the default config and the tokenizer of the library, the three texts are credited. -/
theorem run_attributes_nested :
    ParsedRight .alone 0 (configSetDefault (lit "C")) (.ofLibrary .posix 256 1) docinfoInit
      nestedTitle := by
  refine (run_attributes_iff (plainConfig_of_entries (defaultMetaname_mem _) rfl rfl
    (by decide +kernel) (by decide +kernel)) tokenizerReturns_x).mpr ?_ nestedTitle
    plainDocument_nestedTitle
    (textsTokenized_of_short (Analyzer.ofLibrary_builtIn _ _ _) (by decide) rfl
      (by decide +kernel))
  intro name prop _ hlook
  have hnull : ∀ e ∈ (configSetDefault (lit "C")).properties.entries, e.2.aliasFor = .null := by
    decide +kernel
  exact .inl (hnull ⟨name, prop⟩ (mem_entries_iff.mpr hlook))

end Result

/-! ## An alias of a name that is no property buffer -/

/-- `<swish><PropertyNames><foo alias_for="swishdocpath"/></PropertyNames></swish>` -/
def fooDocpath : Reader where
  nodes := [startNode Swish.headerRoot [], startNode Swish.propSection [],
    startNode (lit "foo") [⟨none, lit "alias_for", lit "swishdocpath"⟩],
    endNode Swish.propSection, endNode Swish.headerRoot]
  complete := true
  text_not_blank := by decide

/-- The check of `alias_for` lets `swishdocpath` through, which has no property buffer. -/
theorem run_stops_at_alias :
    ¬ ∀ henv hfuel lcCtype filenames c env fuel analyzer docinfo events,
      mergeFiles henv hfuel (configSetDefault lcCtype) filenames = .ok c →
      PlainConfig c → PlainDocument env c [] events →
      TextsTokenized analyzer c true [] events →
      ParsedRight env fuel c analyzer docinfo events := by
  intro h
  obtain ⟨pd, hrun, -⟩ := h (.oneFile fooDocpath) 1 (lit "C") [lit "a.xml"] _ .alone 0
    (.ofLibrary .posix 256 1) docinfoInit (oneElement (lit "foo")) rfl
    (plainConfig_of_entries (by decide +kernel) rfl rfl (by decide +kernel) (by decide +kernel))
    (plainDocument_oneElement ⟨rfl, by decide, by decide +kernel, by decide +kernel⟩)
    (textsTokenized_oneElement (lit "foo") tokenizerReturns_x)
  cases hrun

end LibSwish3
