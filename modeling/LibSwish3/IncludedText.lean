import LibSwish3.PropertyBuffers

/-!
# The text of included documents

`swish_buffer_concat` visits the names of the including document only.  A name that the
including document has no buffer for, because it became known to the config while the included
one was parsed, loses the text that is stored under it.  Where `UndefinedMetaTags` and
`UndefinedXMLAttributes` are neither `auto` nor `autoall`, no name becomes known that way:
`run_merges_included`.

## Main definitions

* `Merged` — every buffer is followed by that of the included document.
* `Covers` — the including document has a buffer for every text of the included one.
* `xinclude_merges` — the two agree.
* `KeepsNames`, `KnownText` — the modes that make up no name, and what a parser does in them.
-/

namespace LibSwish3

open Runs Tables

/-- Under every name the content of the first table is followed by that of the second, behind
a bumper where neither is empty. -/
def Merged (nb1 nb2 nb : NamedBuffer) : Prop :=
  ∀ name, nb.content name =
    if nb2.content name = [] then nb1.content name
    else (if nb1.content name = [] then [] else nb1.content name ++ Swish.tokenposBumper) ++
      nb2.content name

/-- The first table has a buffer under every name that the second holds text for, and the text
is a string. -/
def Covers (nb1 nb2 : NamedBuffer) : Prop :=
  ∀ name, nb2.content name ≠ [] → name ∈ nb1 ∧ (0 : XmlChar) ∉ nb2.content name

section Buffers

variable {nb1 nb2 : NamedBuffer} {name : XmlStr}

theorem content_of_notMem (h : name ∉ nb1) : nb1.content name = [] := by
  rw [NamedBuffer.content, AList.lookup_eq_none.mpr h]
  rfl

/-- The buffer under a name of the first table. -/
theorem content_bufferConcat_of_mem (h : name ∈ nb1) :
    (bufferConcat nb1 nb2).content name =
      catBuffer (nb1.content name) (nb2.lookup name) := by
  obtain ⟨buf, hbuf⟩ := mem_iff_exists_lookup.mp h
  rw [NamedBuffer.content, NamedBuffer.content, bufferConcat, lookup_mergeWith_of_some hbuf, hbuf]
  rfl

/-- No other name has one. -/
theorem content_bufferConcat_of_notMem (h : name ∉ nb1) :
    (bufferConcat nb1 nb2).content name = [] :=
  content_of_notMem (by simpa [bufferConcat] using h)

/-- What `cat_buffer` appends is the string in the second buffer. -/
theorem catBuffer_eq (buf : XmlStr) (h : (0 : XmlChar) ∉ nb2.content name) :
    catBuffer buf (nb2.lookup name) =
      if nb2.content name = [] then buf
      else (if buf = [] then [] else buf ++ Swish.tokenposBumper) ++ nb2.content name := by
  have htext : cstr ((nb2.lookup name).getD []) = nb2.content name := cstr_of_noNul h
  simp only [catBuffer, htext, List.isEmpty_iff]
  by_cases hempty : nb2.content name = []
  · rw [if_pos hempty, if_pos hempty]
  · rw [if_neg hempty, if_neg hempty]
    by_cases hbuf : buf = []
    · rw [if_pos hbuf, if_pos hbuf, hbuf]
    · rw [if_neg hbuf, if_neg hbuf]

variable (nb2 name) in
theorem length_catBuffer_le (buf : XmlStr) :
    (catBuffer buf (nb2.lookup name)).length ≤
      (if buf = [] then 0 else buf.length + 1) + (cstr (nb2.content name)).length := by
  rw [catBuffer, NamedBuffer.content]
  simp only [List.isEmpty_iff]
  by_cases hbuf : buf = []
  · subst hbuf
    split <;> simp
  · rw [if_neg hbuf, if_neg hbuf]
    split
    · omega
    · simp [Swish.tokenposBumper]
      omega

theorem content_bufferConcat_nil (h1 : nb1.content name = []) (h2 : nb2.content name = []) :
    (bufferConcat nb1 nb2).content name = [] := by
  by_cases hmem : name ∈ nb1
  · rw [content_bufferConcat_of_mem hmem, catBuffer_eq _ (by simp [h2]), if_pos h2, h1]
  · exact content_bufferConcat_of_notMem hmem

/-- Concatenating merges the two tables exactly when the first covers the second. -/
theorem merged_bufferConcat_iff : Merged nb1 nb2 (bufferConcat nb1 nb2) ↔ Covers nb1 nb2 := by
  constructor
  · intro h name hne
    have hname := h name
    rw [if_neg hne] at hname
    by_cases hmem : name ∈ nb1
    · refine ⟨hmem, ?_⟩
      intro hzero
      rw [content_bufferConcat_of_mem hmem] at hname
      have hle := length_catBuffer_le nb2 name (nb1.content name)
      have hlt := length_cstr_lt_iff.mpr hzero
      rw [hname, List.length_append] at hle
      by_cases hbuf : nb1.content name = []
      · rw [if_pos hbuf, if_pos hbuf] at hle
        simp only [List.length_nil] at hle
        omega
      · rw [if_neg hbuf, if_neg hbuf, List.length_append] at hle
        simp only [Swish.tokenposBumper, List.length_singleton] at hle
        omega
    · rw [content_bufferConcat_of_notMem hmem] at hname
      exact absurd (List.append_eq_nil_iff.mp hname.symm).2 hne
  · intro h name
    by_cases hmem : name ∈ nb1
    · rw [content_bufferConcat_of_mem hmem]
      by_cases hempty : nb2.content name = []
      · refine catBuffer_eq _ ?_
        rw [hempty]
        exact List.not_mem_nil
      · exact catBuffer_eq _ (h name hempty).2
    · have hempty : nb2.content name = [] := by
        by_contra hne
        exact hmem (h name hne).1
      rw [if_pos hempty, content_bufferConcat_of_notMem hmem, content_of_notMem hmem]

end Buffers

/-! ## The result -/

/-- Including a document loses none of its text exactly when the including document has a
buffer under every name that the included one stores text under. -/
theorem xinclude_merges {env : SaxEnv} {fuel : Nat} {pd parent child pd' : ParserData}
    {uri : XmlStr} {isText : Bool}
    (hin : Includes env (saxStep env fuel) pd uri isText parent child)
    (h : xincludeDeep env (fuel + 1) pd uri isText = .ok pd') :
    Merged parent.metanames child.metanames pd'.metanames ∧
        Merged parent.properties child.properties pd'.properties ↔
      Covers parent.metanames child.metanames ∧ Covers parent.properties child.properties := by
  rw [xincludeDeep_succ, hin.processXinclude] at h
  obtain ⟨merged, hmerge, h⟩ := bind_ok_iff.mp h
  obtain ⟨-, tokens, -, rfl⟩ := xincludeHandler_ok hmerge
  cases h
  exact and_congr merged_bufferConcat_iff merged_bufferConcat_iff

/-- Files that all hold an HTML document with `<meta name="a" content="x">`. -/
def oneMeta : SaxEnv := { SaxEnv.alone with
  fileExists := fun _ => true
  fileSize := fun _ => 28
  htmlParseDocument := fun _ => [.startElement (lit "html") none, .startElement (lit "head") none,
    .startElement (lit "meta")
      (some [(lit "name", some (lit "a")), (lit "content", some (lit "x"))]),
    .endElement (lit "meta"), .endElement (lit "head"), .endElement (lit "html"), .endDocument] }

/-- A parser that makes undefined names MetaNames, or counts their text for the one around. -/
def includingParser (undefMetas : UndefMetas) : ParserData :=
  initParserData
    { configSetDefault (lit "C") with
      flags := { (configSetDefault (lit "C")).flags with undefMetas } }
    .idle docinfoInit

/-- What can be computed from an included document and from what it is merged into. -/
private def includedWith (pd : ParserData) (uri : XmlStr) (f : ParserData → ParserData → Bool) :
    Swish Bool := do
  match ← includeDocument oneMeta (saxStep oneMeta 0) pd uri false with
  | (_, none) => pure false
  | (parent, some child) => do
    let merged ← xincludeHandler parent child
    pure (f child merged)

private theorem exists_includes {pd : ParserData} {uri : XmlStr}
    {f : ParserData → ParserData → Bool} (h : (includedWith pd uri f).toOption = some true) :
    ∃ parent child merged, Includes oneMeta (saxStep oneMeta 0) pd uri false parent child ∧
      xincludeDeep oneMeta 1 pd uri false = .ok { merged with stash := pd.stash } ∧
      f child merged = true := by
  obtain ⟨b, hok, hb⟩ := exists_ok_of_map (f := id) (by rw [h]; rfl)
  obtain ⟨⟨parent, child⟩, hin, hok⟩ := bind_ok_iff.mp hok
  cases child with
  | none =>
      cases hok
      cases hb
  | some child =>
      have hin : Includes oneMeta (saxStep oneMeta 0) pd uri false parent child := hin
      obtain ⟨merged, hmerge, hok⟩ := bind_ok_iff.mp hok
      cases hok
      refine ⟨parent, child, merged, hin, ?_, hb⟩
      rw [xincludeDeep_succ, hin.processXinclude, hmerge]
      rfl

/-- Where no name is made up, the text of the included document is kept. -/
theorem xinclude_merges_index : ∃ parent child pd',
    Includes oneMeta (saxStep oneMeta 0) (includingParser .index) (lit "/c") false parent child ∧
      xincludeDeep oneMeta 1 (includingParser .index) (lit "/c") false = .ok pd' ∧
      (Merged parent.metanames child.metanames pd'.metanames ∧
          Merged parent.properties child.properties pd'.properties ↔
        Covers parent.metanames child.metanames ∧
          Covers parent.properties child.properties) := by
  have heval : (includedWith (includingParser .index) (lit "/c") fun child merged =>
      child.metanames.content Swish.defaultMetaname = lit "x" ∧
        merged.metanames.content Swish.defaultMetaname = lit "x").toOption = some true := by
    decide +kernel
  obtain ⟨parent, child, merged, hin, hdeep, -⟩ := exists_includes heval
  exact ⟨parent, child, _, hin, hdeep, xinclude_merges hin hdeep⟩

/-- A MetaName that the included document has made up loses its text. -/
theorem xinclude_loses_text :
    ¬ ∀ (env : SaxEnv) fuel pd uri isText parent child pd',
      Includes env (saxStep env fuel) pd uri isText parent child →
      xincludeDeep env (fuel + 1) pd uri isText = .ok pd' →
      Merged parent.metanames child.metanames pd'.metanames ∧
        Merged parent.properties child.properties pd'.properties := by
  intro h
  have heval : (includedWith (includingParser .auto) (lit "/c") fun child merged =>
      child.metanames.content (lit "a") = lit "x" ∧
        merged.metanames.content (lit "a") = []).toOption = some true := by
    decide +kernel
  obtain ⟨parent, child, merged, hin, hdeep, hf⟩ := exists_includes heval
  obtain ⟨hchild, hlost⟩ := of_decide_eq_true hf
  have hmerged := (h _ _ _ _ _ _ _ _ hin hdeep).1 (lit "a")
  rw [hchild, hlost, if_neg (by decide)] at hmerged
  exact absurd (List.append_eq_nil_iff.mp hmerged.symm).2 (by decide)

/-! ## Where no name is made up -/

/-- The switches make no names up, the context does not cascade, and what a MetaName stands for
is one. -/
structure KeepsNames (c : Config) : Prop where
  undefMetas : c.flags.undefMetas ≠ .auto ∧ c.flags.undefMetas ≠ .autoall
  undefAttrs : c.flags.undefAttrs ≠ .auto ∧ c.flags.undefAttrs ≠ .autoall
  cascade : c.flags.cascadeMetaContext = false
  aliasFor : ∀ k m target, c.metanames.lookup k = some m → m.aliasFor = .live target →
    target ∈ c.metanames

/-- The parser has a buffer for every name of the config, and text under these names only. -/
structure KnownText (c : Config) (pd : ParserData) : Prop where
  config : pd.config = c
  metanames : ∀ name ∈ c.metanames, name ∈ pd.metanames
  text : ∀ name, pd.metanames.content name ≠ [] → name ∈ c.metanames
  properties : ∀ name, name ∈ pd.properties ↔ name ∈ c.properties

section KnownText

variable {env : SaxEnv} {c : Config} {pd pd' : ParserData} {name metaname context raw : XmlStr}
  {tag : Option XmlStr}

theorem keepsNames_configSetDefault (lcCtype : XmlStr) :
    KeepsNames (configSetDefault lcCtype) := by
  have hnull : Each (fun _ m => m.aliasFor = .null) (configSetDefault (lit "C")).metanames := by
    decide +kernel
  refine ⟨⟨nofun, nofun⟩, ⟨nofun, nofun⟩, rfl, fun k m target hm halias => ?_⟩
  cases (hnull k m hm).symm.trans halias

theorem KnownText.congr (h : KnownText c pd) (hconfig : pd'.config = pd.config)
    (hmetas : pd'.metanames = pd.metanames) (hprops : pd'.properties = pd.properties) :
    KnownText c pd' :=
  ⟨hconfig.trans h.config, hmetas ▸ h.metanames, hmetas ▸ h.text, hprops ▸ h.properties⟩

theorem KeepsNames.storedAs (hc : KeepsNames c) {storedAs : XmlStr}
    (h : metanameStoredAs c metaname = .ok storedAs) : storedAs ∈ c.metanames := by
  unfold metanameStoredAs at h
  split at h
  · cases h
  · rename_i m hm
    obtain ⟨target, hread, h⟩ := bind_ok_iff.mp h
    cases halias : m.aliasFor with
    | null =>
        rw [halias] at hread
        cases hread
        cases h
        exact mem_of_lookup hm
    | live target' =>
        rw [halias] at hread
        cases hread
        cases h
        exact hc.aliasFor _ m _ hm halias
    | freed =>
        rw [halias] at hread
        cases hread

theorem KnownText.flushBuffer (hc : KeepsNames c) (h : KnownText c pd)
    (hok : flushBuffer pd metaname context = .ok pd') : KnownText c pd' := by
  obtain ⟨storedAs, hstored, hok⟩ := bind_ok_iff.mp hok
  obtain ⟨metanames, hadd, hok⟩ := bind_ok_iff.mp hok
  obtain ⟨metanames', hcascade, hok⟩ := bind_ok_iff.mp hok
  obtain ⟨pd₁, htok, hok⟩ := bind_ok_iff.mp hok
  obtain ⟨tokens, nwords, rfl⟩ := tokenizeBuffer_ok htok
  cases hok
  rw [cascadeMetas, h.config, hc.cascade, if_neg (by decide)] at hcascade
  cases hcascade
  have hkept : ∀ name ∈ c.metanames, name ∈ metanames :=
    fun name hname => (mem_of_nbAddStr hadd name).mpr (.inl (h.metanames name hname))
  refine ⟨h.config, hkept, fun name hname => ?_, h.properties⟩
  rw [h.config] at hstored
  have hcontent := content_nbAddStr hadd name
  split at hcontent
  · rename_i hnew
    exact hnew.1 ▸ hc.storedAs hstored
  · exact h.text name (hcontent ▸ hname)

theorem KnownText.addStackToPropBuf {baked : Option XmlStr} (h : KnownText c pd)
    (hok : addStackToPropBuf pd baked = .ok pd') : KnownText c pd' := by
  have hkeys := addStackToPropBuf_keys hok
  obtain ⟨properties, rfl⟩ := addStackToPropBuf_ok hok
  exact ⟨h.config, h.metanames, h.text, fun name => (hkeys name).trans (h.properties name)⟩

theorem KnownText.pushTags (hc : KeepsNames c) (h : KnownText c pd)
    (hok : pushTags pd raw tag = .ok pd') : KnownText c pd' := by
  obtain ⟨top, -, hok⟩ := bind_ok_iff.mp hok
  obtain ⟨pd₁, hprop, hmeta⟩ := bind_ok_iff.mp hok
  have h₁ : KnownText c pd₁ := by
    unfold pushProperty at hprop
    split at hprop
    · obtain ⟨pd₂, hadd, hprop⟩ := bind_ok_iff.mp hprop
      obtain ⟨baked, -, hprop⟩ := bind_ok_iff.mp hprop
      cases hprop
      have h₂ : KnownText c pd₂ := by
        refine KnownText.addStackToPropBuf ?_ hadd
        exact h.congr rfl rfl rfl
      exact h₂.congr rfl rfl rfl
    · cases hprop
      exact h.congr rfl rfl rfl
  unfold pushMetaname at hmeta
  split at hmeta
  · obtain ⟨pd₂, hflush, hmeta⟩ := bind_ok_iff.mp hmeta
    obtain ⟨baked, -, hmeta⟩ := bind_ok_iff.mp hmeta
    obtain ⟨top, -, hflush⟩ := bind_ok_iff.mp hflush
    cases hmeta
    exact (h₁.flushBuffer hc hflush).congr rfl rfl rfl
  · cases hmeta
    exact h₁

theorem KnownText.popTags (hc : KeepsNames c) (h : KnownText c pd)
    (hok : popTags pd raw = .ok pd') : KnownText c pd' := by
  obtain ⟨pd₁, hprop, hok⟩ := bind_ok_iff.mp hok
  obtain ⟨pd₂, hmeta, hok⟩ := bind_ok_iff.mp hok
  have h₁ : KnownText c pd₁ := by
    obtain ⟨⟨st, propstack⟩, -, hprop⟩ := bind_ok_iff.mp hprop
    cases st with
    | none =>
        cases hprop
        exact h.congr rfl rfl rfl
    | some st =>
        refine KnownText.addStackToPropBuf ?_ hprop
        exact h.congr rfl rfl rfl
  have h₂ : KnownText c pd₂ := by
    obtain ⟨⟨st, metastack⟩, -, hmeta⟩ := bind_ok_iff.mp hmeta
    cases st with
    | none =>
        cases hmeta
        exact h₁.congr rfl rfl rfl
    | some st =>
        refine KnownText.flushBuffer hc ?_ hmeta
        exact h₁.congr rfl rfl rfl
  split at hok
  · cases hok
  · cases hok
    exact h₂.congr rfl rfl rfl

theorem KnownText.characters (h : KnownText c pd) (ch : XmlStr) :
    KnownText c (bufferCharacters pd ch) := by
  rw [bufferCharacters]
  split
  · exact h
  · exact h.congr rfl rfl rfl

theorem knownText_tagSteps (hc : KeepsNames c) :
    TagSteps (fun _ _ => True) (fun _ _ _ => True) (KnownText c) where
  tag _ _ h := h.congr rfl rfl rfl
  bumpWord _ _ h := h.congr rfl rfl rfl
  characters _ ch h := h.characters ch
  undefXmlAttr pd name value _ h hok := by
    cases undefXmlAttr_switch hok with
    | defined | skipped => exact h
    | auto _ hmode => exact absurd (h.config ▸ hmode) hc.undefAttrs.1
    | autoall _ hmode => exact absurd (h.config ▸ hmode) hc.undefAttrs.2
    | index =>
        have h₁ : KnownText c { pd with bumpWord := true } := h.congr rfl rfl rfl
        exact (h₁.characters value).congr rfl rfl rfl
  undefXmlTag pd name _ h _ _ hok := by
    cases undefXmlTag_switch hok with
    | defined => exact h
    | ignore | index => exact h.congr rfl rfl rfl
    | auto _ hmode => exact absurd (h.config ▸ hmode) hc.undefMetas.1
    | autoall _ hmode => exact absurd (h.config ▸ hmode) hc.undefMetas.2
  undefHtmlMeta pd name _ h hok := by
    cases undefHtmlMeta_switch hok with
    | defined | index => exact ⟨h, h.congr rfl rfl rfl⟩
    | ignore => exact ⟨h.congr rfl rfl rfl, h.congr rfl rfl rfl⟩
    | auto hmode => exact absurd (h.config ▸ hmode) hc.undefMetas.1
    | autoall hmode => exact absurd (h.config ▸ hmode) hc.undefMetas.2
  push _ _ _ _ h _ hok := h.pushTags hc hok
  pop _ _ _ h hok := h.popTags hc hok
  mono _ _ _ _ _ _ := trivial

theorem KnownText.mycomments (h : KnownText c pd) (cmt : XmlStr) :
    KnownText c (mycomments pd cmt) := by
  simp only [LibSwish3.mycomments]
  repeat' split
  all_goals exact h.congr rfl rfl rfl

theorem KnownText.saxEvent (hc : KeepsNames c)
    {xinclude : ParserData → XmlStr → Bool → Swish ParserData}
    (hx : ∀ uri isText pd', xinclude pd uri isText = .ok pd' → KnownText c pd')
    (h : KnownText c pd) {e : SaxEvent} (hok : saxEvent env xinclude pd e = .ok pd') :
    KnownText c pd' :=
  saxEvent_steps (knownText_tagSteps hc) (fun _ _ _ _ hinclude => hx _ _ _ hinclude)
    (fun _ _ hflush => h.flushBuffer hc hflush) (fun cmt _ => h.mycomments cmt) h
    (eventMeets_free e) hok

theorem KnownText.txtParser (hc : KeepsNames c) {buffer : XmlStr} (h : KnownText c pd)
    (hok : txtParser env pd buffer = .ok pd') : KnownText c pd' := by
  unfold LibSwish3.txtParser at hok
  split at hok
  · cases hok
    exact h
  · rename_i text _
    obtain ⟨pd₁, hflush, hok⟩ := bind_ok_iff.mp hok
    have h₁ : KnownText c pd₁ := by
      refine KnownText.flushBuffer hc (KnownText.characters ?_ text) hflush
      exact h.congr rfl rfl rfl
    refine KnownText.flushBuffer hc (KnownText.characters ?_ pd₁.docinfo.uri) hok
    exact h₁.congr rfl rfl rfl

theorem knownText_initParserData (c : Config) (analyzer : Analyzer) (docinfo : DocInfo) :
    KnownText c (initParserData c analyzer docinfo) :=
  ⟨rfl, fun _ hname => mem_nbInit.mpr hname, fun _ hname => absurd (content_nbInit _ _) hname,
    fun _ => mem_nbInit⟩

theorem knownText_initChildData (hconfig : pd.config = c) (docinfo : DocInfo) :
    KnownText c (initChildData pd docinfo) := by
  subst hconfig
  exact (knownText_initParserData pd.config pd.analyzer docinfo).congr rfl rfl rfl

/-- A document that another one includes. -/
theorem KnownText.child (hc : KeepsNames c) {step : ParserData → SaxEvent → Swish ParserData}
    (hstep : ∀ pd e pd', KnownText c pd → step pd e = .ok pd' → KnownText c pd')
    {uri : XmlStr} {isText : Bool} {parent child : ParserData} (h : KnownText c pd)
    (hin : Includes env step pd uri isText parent child) :
    KnownText c parent ∧ KnownText c child := by
  obtain ⟨hflush, xuri, docinfo, -, hparse⟩ := hin.parse
  obtain ⟨top, -, hflush⟩ := bind_ok_iff.mp hflush
  have hparent : KnownText c parent := by
    refine KnownText.flushBuffer hc ?_ hflush
    exact h.congr rfl rfl rfl
  refine ⟨hparent, ?_⟩
  refine docparser_kept (fun _ _ _ h => h.congr rfl rfl rfl)
    (fun pd e pd' h _ hok => hstep pd e pd' h hok) (fun _ _ _ h hok => h.txtParser hc hok)
    (knownText_initChildData hparent.config _) (fun _ _ _ _ _ _ _ _ _ => trivial) hparse

theorem KnownText.mergeChild {parent child merged : ParserData} (hparent : KnownText c parent)
    (hchild : KnownText c child) (h : xincludeHandler parent child = .ok merged) :
    KnownText c merged := by
  obtain ⟨-, tokens, -, rfl⟩ := xincludeHandler_ok h
  refine ⟨hchild.config, fun name hname => ?_, fun name hname => ?_, fun name => ?_⟩
  · simpa [LibSwish3.bufferConcat] using hparent.metanames name hname
  · by_contra hnot
    refine hname (content_bufferConcat_nil ?_ ?_)
    · exact not_not.mp fun htext => hnot (hparent.text name htext)
    · exact not_not.mp fun htext => hnot (hchild.text name htext)
  · simpa [LibSwish3.bufferConcat] using hparent.properties name

theorem KnownText.xincludeDeep (hc : KeepsNames c) {fuel : Nat} {uri : XmlStr} {isText : Bool}
    (h : KnownText c pd) (hok : xincludeDeep env fuel pd uri isText = .ok pd') :
    KnownText c pd' := by
  induction fuel generalizing pd uri isText pd' with
  | zero => cases hok
  | succ fuel ih =>
      rcases processXinclude_ok hok with
        ⟨parent, hflush, rfl⟩ | ⟨parent, child, merged, hin, hmerge, rfl⟩
      · obtain ⟨top, -, hflush⟩ := bind_ok_iff.mp hflush
        have hparent : KnownText c parent := by
          refine KnownText.flushBuffer hc ?_ hflush
          exact h.congr rfl rfl rfl
        exact hparent.congr rfl rfl rfl
      · obtain ⟨hparent, hchild⟩ := h.child hc
          (fun pd e pd' h hok => h.saxEvent hc (fun _ _ _ hinclude => ih h hinclude) hok) hin
        exact (hparent.mergeChild hchild hmerge).congr rfl rfl rfl

theorem KnownText.saxStep (hc : KeepsNames c) {fuel : Nat} {e : SaxEvent} (h : KnownText c pd)
    (hok : saxStep env fuel pd e = .ok pd') : KnownText c pd' :=
  h.saxEvent hc (fun _ _ _ hinclude => h.xincludeDeep hc hinclude) hok

end KnownText

/-- **In the modes that make up no name, no document of a run loses text when it is included**, as
long as the text is a string. -/
theorem run_merges_included {env : SaxEnv} {fuel : Nat} {c : Config} {analyzer : Analyzer}
    {docinfo : DocInfo} {isHtml : Bool} {events : List SaxEvent} {pd parent child pd' : ParserData}
    {uri : XmlStr} {isText : Bool} (hc : KeepsNames c)
    (hrun : run (saxStep env (fuel + 1)) { initParserData c analyzer docinfo with isHtml } events =
      .ok pd)
    (hin : Includes env (saxStep env fuel) pd uri isText parent child)
    (hok : xincludeDeep env (fuel + 1) pd uri isText = .ok pd')
    (hnul : ∀ name, (0 : XmlChar) ∉ child.metanames.content name ∧
      (0 : XmlChar) ∉ child.properties.content name) :
    Merged parent.metanames child.metanames pd'.metanames ∧
      Merged parent.properties child.properties pd'.properties := by
  have h : KnownText c pd := by
    refine invariant (fun _ _ _ h hstep => KnownText.saxStep hc h hstep) ?_ hrun
    exact (knownText_initParserData c analyzer docinfo).congr rfl rfl rfl
  obtain ⟨hparent, hchild⟩ := h.child hc (fun _ _ _ h hstep => h.saxStep hc hstep) hin
  rw [xincludeDeep_succ, hin.processXinclude] at hok
  obtain ⟨merged, hmerge, hok⟩ := bind_ok_iff.mp hok
  obtain ⟨-, tokens, -, rfl⟩ := xincludeHandler_ok hmerge
  cases hok
  refine ⟨merged_bufferConcat_iff.mpr fun name hname => ⟨?_, (hnul name).1⟩,
    merged_bufferConcat_iff.mpr fun name hname => ⟨?_, (hnul name).2⟩⟩
  · exact hparent.metanames name (hchild.text name hname)
  · by_contra hnot
    refine hname (content_of_notMem fun hmem => hnot ?_)
    exact (hparent.properties name).mpr ((hchild.properties name).mp hmem)

end LibSwish3
