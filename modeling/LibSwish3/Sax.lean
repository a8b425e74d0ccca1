import LibSwish3.ParserRules

/-!
# SAX events

libxml2 turns a document into a sequence of events, and the callbacks of `parser.c` take
them one by one.  The HTML parser reports its elements through the SAX1 callbacks and the
XML parser through the SAX2 ones; a text document has no events.

The start of an XInclude element parses the included document, by the same callbacks, and
merges what it collected.  `saxStep` takes the depth of inclusion it may go to.

## Main definitions

* `SaxEvent` — what libxml2 reports.
* `processXinclude` — an included document.
* `saxStep` — the callbacks.
-/

namespace LibSwish3

open Runs Tables

inductive SaxEvent
  | startDocument
  | endDocument
  | startElement (name : XmlStr) (atts : Option Atts)
  | endElement (name : XmlStr)
  | startElementNs (localname : XmlStr) (xmlnsPrefix uri : Option XmlStr)
      (attributes : List (XmlStr × XmlStr))
  | endElementNs (localname : XmlStr) (xmlnsPrefix : Option XmlStr)
  | characters (ch : XmlStr)
  | comment (cmt : XmlStr)

/-- What parsing asks of libxml2 and the file system. -/
structure SaxEnv extends TagEnv where
  buildURI : (uri base : XmlStr) → Option XmlStr
  /-- One of the two namespaces of XInclude. -/
  isXincludeNs : XmlStr → Bool
  fileExists : XmlStr → Bool
  fileSize : XmlStr → Nat
  slurpFile : XmlStr → XmlStr
  slurpGzfile : XmlStr → XmlStr
  htmlParseDocument : XmlStr → List SaxEvent
  xmlParseDocument : XmlStr → List SaxEvent
  /-- A text in UTF-8, none where it cannot be converted. -/
  toUtf8 : XmlStr → Option XmlStr

/-- `mime_get_type`. -/
def mimeGetType (config : Config) (fileext : Option XmlStr) : XmlStr :=
  match fileext with
  | some fileext => (config.mimes.lookup fileext).getD Swish.defaultMime
  | none => Swish.defaultMime

/-- `mime_get_parser`. -/
def mimeGetParser (config : Config) (mime : XmlStr) : Swish XmlStr :=
  match config.parsers.lookup mime with
  | some parser => .ok parser
  | none => dupTag (config.parsers.lookup Swish.defaultParser)

/-- `swish_fs_get_file_ext`: the extension behind the last dot, in lower case, if no
separator follows it. -/
def fsGetFileExt (loc : Locale) (url : XmlStr) : Swish (Option XmlStr) :=
  match findlast url [pathSep, extCh] with
  | some (_, c :: ext) => if c = extCh then some <$> strTolower loc ext else .ok none
  | _ => .ok none

section Callbacks

variable (env : SaxEnv)

/-- `swish_docinfo_from_filesystem`; none where there is no such file. -/
def docinfoFromFilesystem (config : Config) (filename : XmlStr) : Swish (Option DocInfo) := do
  let ext ← fsGetFileExt env.loc filename
  let isGzipped := ext == some (lit "gz")
  let ext ←
    if isGzipped then fsGetFileExt env.loc (filename.take (filename.length - 3)) else pure ext
  if env.fileExists filename then do
    let mime := mimeGetType config ext
    let parser ← mimeGetParser config mime
    pure (some ⟨filename, env.fileSize filename, 0, mime, parser, ext, isGzipped⟩)
  else pure none

/-! ## Included documents -/

/-- `txt_parser`: the text counts for `swishdefault` and the name of the document for
`swishtitle`. -/
def txtParser (pd : ParserData) (buffer : XmlStr) : Swish ParserData :=
  match env.toUtf8 buffer with
  | none => .ok pd
  | some buffer => do
    let metastack := pd.metastack.push Swish.defaultMetaname Swish.defaultMetaname Swish.domChar
    let pd ← flushBuffer (bufferCharacters { pd with metastack } buffer)
      Swish.defaultMetaname Swish.defaultMetaname
    let metastack := pd.metastack.push Swish.titleMetaname Swish.titleMetaname Swish.domChar
    flushBuffer (bufferCharacters { pd with metastack } pd.docinfo.uri)
      Swish.titleMetaname Swish.titleMetaname

/-- `docparser` on a file; `step` is the callbacks. -/
def docparser (step : ParserData → SaxEvent → Swish ParserData) (pd : ParserData)
    (filename : XmlStr) : Swish ParserData :=
  if pd.docinfo.size = 0 then .ok pd
  else
    let buffer :=
      if pd.docinfo.isGzipped then env.slurpGzfile filename else env.slurpFile filename
    let size := if pd.docinfo.isGzipped then (cstr buffer).length else pd.docinfo.size
    let pd := { pd with docinfo := { pd.docinfo with size } }
    let parser := pd.docinfo.parser.head?
    if parser = some 72 ∨ parser = some 104 then
      run step { pd with isHtml := true } (env.htmlParseDocument buffer)
    else if parser = some 88 ∨ parser = some 120 then run step pd (env.xmlParseDocument buffer)
    else if parser = some 84 ∨ parser = some 116 then txtParser env pd buffer
    else croak [lit "no parser known for MIME '", pd.docinfo.mime, lit "' parser '",
      pd.docinfo.parser, lit "'"]

/-- The merging in `xinclude_handler`: what the included document collected goes to the
including one. -/
def mergeChild (parent child : ParserData) : Swish ParserData := do
  let tokens ←
    run (fun tl t => tokenListAddToken tl t.bytes (t.len + 1) (some t.metaname) t.context)
      parent.tokens child.tokens.tokens
  pure { parent with
    config := child.config
    tokens
    docinfo := { parent.docinfo with nwords := parent.docinfo.nwords + child.docinfo.nwords }
    properties := bufferConcat parent.properties child.properties
    metanames := bufferConcat parent.metanames child.metanames }

/-- `xinclude_handler`: the including parser is the one in the stash. -/
def xincludeHandler (parent child : ParserData) : Swish ParserData :=
  match child.stash with
  | none => .error (.fault .nullDeref)
  | some stash =>
    if stash = parent.self then mergeChild parent child else .error (.fault .strayPointer)

/-- `init_parser_data` for an included document. -/
def initChildData (pd : ParserData) (docinfo : DocInfo) : ParserData :=
  { initParserData pd.config pd.analyzer docinfo with self := pd.self + 1, stash := pd.stash }

/-- The name of the included document, seen from the including one. -/
def xincludeUri (pd : ParserData) (uri : XmlStr) : Swish XmlStr :=
  if uri.head? = some pathSep then .ok uri
  else
    let path := (fsGetPath pd.docinfo.uri).getD [extCh, pathSep]
    match env.buildURI uri path with
    | none => croak [lit "Unable to build XInclude URI for ", uri, lit " and ", path]
    | some xuri => .ok xuri

/-- `process_xinclude` up to the merging: the including parser behind its flush, and the one that
has parsed the document, none where there is no such file. -/
def includeDocument (step : ParserData → SaxEvent → Swish ParserData) (pd : ParserData)
    (uri : XmlStr) (isText : Bool) : Swish (ParserData × Option ParserData) := do
  let xuri ← xincludeUri env pd uri
  let parent ← flushHead { pd with stash := some pd.self }
  match ← docinfoFromFilesystem env parent.config xuri with
  | none => pure (parent, none)
  | some docinfo => do
    let docinfo := if isText then { docinfo with parser := Swish.parserTxt } else docinfo
    let child ← docparser env step (initChildData parent docinfo) xuri
    pure (parent, some child)

/-- `process_xinclude`. -/
def processXinclude (step : ParserData → SaxEvent → Swish ParserData) (pd : ParserData)
    (uri : XmlStr) (isText : Bool) : Swish ParserData := do
  let curStash := pd.stash
  match ← includeDocument env step pd uri isText with
  | (parent, none) => pure { parent with stash := curStash }
  | (parent, some child) => do
    let merged ← xincludeHandler parent child
    pure { merged with stash := curStash }

/-! ## The callbacks -/

/-- The attributes as `open_tag` gets them: the list ends at the first without a value. -/
def sax2Atts (attributes : List (XmlStr × XmlStr)) : Option Atts :=
  if attributes.isEmpty then none
  else some ((attributes.takeWhile (!·.2.isEmpty)).map fun att => (att.1, some att.2))

/-- The document an XInclude element names, and whether it is a text. -/
def xincludeAtts (atts : Atts) : Option XmlStr × Bool :=
  atts.foldl
    (fun found att =>
      if att.1 = lit "href" then (att.2, found.2)
      else if att.1 = lit "parse" then (found.1, att.2 == some (lit "text"))
      else found)
    (none, false)

/-- The part of `mystartElementNs` about XInclude elements. -/
def startXinclude (xinclude : ParserData → XmlStr → Bool → Swish ParserData) (pd : ParserData)
    (localname : XmlStr) (uri : Option XmlStr) (atts : Option Atts) : Swish ParserData :=
  if uri.any env.isXincludeNs ∧ localname = lit "include" then
    match xincludeAtts (atts.getD []) with
    | (some uri, isText) =>
      if pd.config.flags.followXinclude then xinclude pd uri isText else .ok pd
    | (none, _) => .ok pd
  else .ok pd

/-- The document that an event includes, and whether it is a text. -/
def includedBy (pd : ParserData) : SaxEvent → Option (XmlStr × Bool)
  | .startElementNs localname _ uri attributes =>
    if uri.any env.isXincludeNs ∧ localname = lit "include" ∧ pd.config.flags.followXinclude then
      match xincludeAtts ((sax2Atts attributes).getD []) with
      | (some uri, isText) => some (uri, isText)
      | (none, _) => none
    else none
  | _ => none

/-- `mystartElementNs`. -/
def startElementNs (xinclude : ParserData → XmlStr → Bool → Swish ParserData) (pd : ParserData)
    (localname : XmlStr) (xmlnsPrefix uri : Option XmlStr)
    (attributes : List (XmlStr × XmlStr)) : Swish ParserData := do
  let pd ← startXinclude env xinclude pd localname uri (sax2Atts attributes)
  openTag env.toTagEnv pd localname (sax2Atts attributes) xmlnsPrefix

/-- The callback of an event. -/
def saxEvent (xinclude : ParserData → XmlStr → Bool → Swish ParserData) (pd : ParserData) :
    SaxEvent → Swish ParserData
  | .startDocument => .ok pd
  | .endDocument => flushBuffer pd Swish.defaultMetaname Swish.defaultMetaname
  | .startElement name atts => openTag env.toTagEnv pd name atts none
  | .endElement name => closeTag env.toTagEnv pd name none
  | .startElementNs localname xmlnsPrefix uri attributes =>
    startElementNs env xinclude pd localname xmlnsPrefix uri attributes
  | .endElementNs localname xmlnsPrefix => closeTag env.toTagEnv pd localname xmlnsPrefix
  | .characters ch => .ok (bufferCharacters pd ch)
  | .comment cmt => .ok (mycomments pd cmt)

/-- `process_xinclude`, with documents included `fuel` deep. -/
def xincludeDeep : (fuel : Nat) → ParserData → XmlStr → Bool → Swish ParserData
  | 0 => fun _ _ _ => .error .outOfFuel
  | fuel + 1 => processXinclude env (saxEvent env (xincludeDeep fuel))

/-- The callbacks, with documents included `fuel` deep. -/
def saxStep (fuel : Nat) : ParserData → SaxEvent → Swish ParserData :=
  saxEvent env (xincludeDeep env fuel)

theorem xincludeDeep_succ (fuel : Nat) :
    xincludeDeep env (fuel + 1) = processXinclude env (saxStep env fuel) := rfl

end Callbacks

/-- A document in the POSIX locale that includes no other. -/
def SaxEnv.alone : SaxEnv where
  loc := .posix
  htmlIsInline _ := none
  buildURI _ _ := none
  isXincludeNs _ := false
  fileExists _ := false
  fileSize _ := 0
  slurpFile _ := []
  slurpGzfile _ := []
  htmlParseDocument _ := []
  xmlParseDocument _ := []
  toUtf8 := some

/-- An analyzer that is told not to tokenize. -/
def Analyzer.idle : Analyzer := ⟨256, 1, false, fun tl _ _ _ => .ok (tl, 0)⟩

/-- What the file system tells of a file. -/
theorem docinfoFromFilesystem_ok {env : SaxEnv} {config : Config} {filename : XmlStr}
    {docinfo : DocInfo} (h : docinfoFromFilesystem env config filename = .ok (some docinfo)) :
    ∃ mime parser ext isGzipped,
      docinfo = ⟨filename, env.fileSize filename, 0, mime, parser, ext, isGzipped⟩ := by
  obtain ⟨ext, -, h⟩ := bind_ok_iff.mp h
  have key : ∀ ext' : Option XmlStr, (if env.fileExists filename then do
      let mime := mimeGetType config ext'
      let parser ← mimeGetParser config mime
      pure (some (⟨filename, env.fileSize filename, 0, mime, parser, ext',
        ext == some (lit "gz")⟩ : DocInfo))
      else pure none) = .ok (some docinfo) → ∃ mime parser ext isGzipped,
        docinfo = ⟨filename, env.fileSize filename, 0, mime, parser, ext, isGzipped⟩ := by
    intro ext' h
    split at h
    · obtain ⟨parser, -, h⟩ := bind_ok_iff.mp h
      cases h
      exact ⟨_, _, _, _, rfl⟩
    · cases h
  simp only at h
  split at h
  · obtain ⟨ext', -, h⟩ := bind_ok_iff.mp h
    exact key ext' h
  · obtain ⟨ext', -, h⟩ := bind_ok_iff.mp h
    exact key ext' h

/-! ## Invariants of the callbacks -/

section Rules

variable {env : SaxEnv} {xinclude : ParserData → XmlStr → Bool → Swish ParserData}
  {D : ParserData → XmlStr → Prop} {C : ParserData → XmlStr → Option XmlStr → Prop}
  {P : ParserData → Prop} {pd pd' : ParserData}

/-- The condition on the tag of an event.  An XInclude element is opened after its document
has been included. -/
def EventMeets (env : SaxEnv) (xinclude : ParserData → XmlStr → Bool → Swish ParserData)
    (D : ParserData → XmlStr → Prop) (C : ParserData → XmlStr → Option XmlStr → Prop)
    (pd : ParserData) : SaxEvent → Prop
  | .startElement name atts => StartMeets env.toTagEnv D C pd name atts none
  | .endElement name => EndMeets env.toTagEnv D pd name none
  | .startElementNs localname xmlnsPrefix uri attributes =>
    ∀ pd₁, startXinclude env xinclude pd localname uri (sax2Atts attributes) = .ok pd₁ →
      StartMeets env.toTagEnv D C pd₁ localname (sax2Atts attributes) xmlnsPrefix
  | .endElementNs localname xmlnsPrefix => EndMeets env.toTagEnv D pd localname xmlnsPrefix
  | .startDocument | .endDocument | .characters _ | .comment _ => True

/-- The condition on an XML start tag that has a name and nothing else. -/
theorem eventMeets_of_bare {name : XmlStr} (hxml : pd.isHtml = false)
    (h : ∀ swishtag, normalizeTag env.toTagEnv pd name none = .ok swishtag →
      D { pd with tag := .null, bumpWord := true } swishtag ∧
      ∀ pd₁, undefXmlTag { pd with tag := .null, bumpWord := true } swishtag = .ok pd₁ →
        C { pd₁ with tag := .live (aliasTag pd₁ swishtag) } name (some (aliasTag pd₁ swishtag))) :
    EventMeets env xinclude D C pd (.startElementNs name none none []) := by
  intro pd₁ hinclude
  cases hinclude
  exact startMeets_of_none hxml h

/-- An XInclude element includes what it names, and nothing else is included. -/
theorem startXinclude_eq (xinclude : ParserData → XmlStr → Bool → Swish ParserData)
    (pd : ParserData) (localname : XmlStr) (xmlnsPrefix uri : Option XmlStr)
    (attributes : List (XmlStr × XmlStr)) :
    startXinclude env xinclude pd localname uri (sax2Atts attributes) =
      match includedBy env pd (.startElementNs localname xmlnsPrefix uri attributes) with
      | some (uri, isText) => xinclude pd uri isText
      | none => .ok pd := by
  simp only [startXinclude, includedBy]
  by_cases hinclude : uri.any env.isXincludeNs ∧ localname = lit "include"
  · rw [if_pos hinclude]
    by_cases hfollow : pd.config.flags.followXinclude = true
    · rw [if_pos ⟨hinclude.1, hinclude.2, hfollow⟩]
      split <;> simp [hfollow]
    · rw [if_neg fun h => hfollow h.2.2]
      split <;> simp [hfollow]
  · rw [if_neg hinclude, if_neg fun h => hinclude ⟨h.1, h.2.1⟩]

theorem startXinclude_kept {localname : XmlStr} {uri : Option XmlStr} {atts : Option Atts}
    (hx : ∀ pd uri isText pd', P pd → xinclude pd uri isText = .ok pd' → P pd') (hP : P pd)
    (h : startXinclude env xinclude pd localname uri atts = .ok pd') : P pd' := by
  unfold startXinclude at h
  split at h
  · split at h
    · split at h
      · exact hx _ _ _ _ hP h
      · cases h
        exact hP
    · cases h
      exact hP
  · cases h
    exact hP

/-- An invariant of tags that including a document keeps, and flushing at the end, is one of every
event but the comments. -/
theorem saxEvent_steps (H : TagSteps D C P) {e : SaxEvent}
    (hx : ∀ uri isText pd', includedBy env pd e = some (uri, isText) →
      xinclude pd uri isText = .ok pd' → P pd')
    (hend : ∀ pd', e = .endDocument →
      flushBuffer pd Swish.defaultMetaname Swish.defaultMetaname = .ok pd' → P pd')
    (hcomment : ∀ cmt, e = .comment cmt → P (mycomments pd cmt)) (hP : P pd)
    (hmeets : EventMeets env xinclude D C pd e) (h : saxEvent env xinclude pd e = .ok pd') :
    P pd' := by
  cases e with
  | startDocument => cases h; exact hP
  | endDocument => exact hend _ rfl h
  | startElement name atts => exact H.openTag hP hmeets h
  | endElement name => exact H.closeTag hP hmeets h
  | startElementNs localname xmlnsPrefix uri attributes =>
      obtain ⟨pd₁, hinclude, h⟩ := bind_ok_iff.mp h
      have hmeets₁ := hmeets pd₁ hinclude
      rw [startXinclude_eq xinclude pd localname xmlnsPrefix] at hinclude
      have hP₁ : P pd₁ := by
        split at hinclude
        · rename_i found
          exact hx _ _ _ found hinclude
        · cases hinclude
          exact hP
      exact H.openTag hP₁ hmeets₁ h
  | endElementNs localname xmlnsPrefix => exact H.closeTag hP hmeets h
  | characters ch =>
      cases h
      exact H.characters _ ch hP
  | comment cmt =>
      cases h
      exact hcomment cmt rfl

/-- An invariant of tags that no calm call breaks is one of every event but the comments. -/
theorem saxEvent_kept (H : TagKept D C P)
    (hx : ∀ pd uri isText pd', P pd → xinclude pd uri isText = .ok pd' → P pd') {e : SaxEvent}
    (hcomment : ∀ cmt, e = .comment cmt → P (mycomments pd cmt)) (hP : P pd)
    (hmeets : EventMeets env xinclude D C pd e) (h : saxEvent env xinclude pd e = .ok pd') :
    P pd' :=
  saxEvent_steps H.steps (fun _ _ _ _ hinclude => hx _ _ _ _ hP hinclude)
    (fun _ _ hflush => H.calm _ _ hP (flushBuffer_calm hflush)) hcomment hP hmeets h

/-- An invariant that does not look at the switches is one of every event. -/
theorem TextSteps.saxEvent (H : TextSteps C P) {e : SaxEvent}
    (hx : ∀ uri isText pd', includedBy env pd e = some (uri, isText) →
      xinclude pd uri isText = .ok pd' → P pd')
    (hend : ∀ pd', e = .endDocument →
      flushBuffer pd Swish.defaultMetaname Swish.defaultMetaname = .ok pd' → P pd') (hP : P pd)
    (hmeets : EventMeets env xinclude (fun _ _ => True) C pd e)
    (h : saxEvent env xinclude pd e = .ok pd') : P pd' :=
  saxEvent_steps H.tagSteps hx hend (fun cmt _ => H.mycomments hP cmt) hP hmeets h

theorem eventMeets_free (e : SaxEvent) :
    EventMeets env xinclude (fun _ _ => True) (fun _ _ _ => True) pd e := by
  cases e with
  | startElement name atts => exact startMeets_free
  | endElement name => exact endMeets_free
  | startElementNs localname xmlnsPrefix uri attributes => exact fun _ _ => startMeets_free
  | endElementNs localname xmlnsPrefix => exact endMeets_free
  | startDocument | endDocument | characters ch | comment cmt => trivial

/-- An invariant that looks at neither the buffers nor the stacks is one of every event, of a text
and of a document. -/
theorem TokenSteps.saxEvent (H : TokenSteps P) {e : SaxEvent}
    (hx : ∀ uri isText pd', xinclude pd uri isText = .ok pd' → P pd') (hP : P pd)
    (h : saxEvent env xinclude pd e = .ok pd') : P pd' := by
  refine H.textSteps.saxEvent ?_ ?_ hP (eventMeets_free e) h
  · intro uri isText pd₁ _ hinclude
    exact hx _ _ _ hinclude
  · intro pd₁ _ hflush
    exact H.flushBuffer hP hflush

theorem TokenSteps.txtParser (H : TokenSteps P) {buffer : XmlStr} (hP : P pd)
    (h : txtParser env pd buffer = .ok pd') : P pd' := by
  unfold LibSwish3.txtParser at h
  split at h
  · cases h
    exact hP
  · rename_i text _
    obtain ⟨pd₁, hflush, h⟩ := bind_ok_iff.mp h
    have hP₁ : P pd₁ := by
      refine H.flushBuffer (H.textSteps.characters _ text ?_) hflush
      exact H.moves _ _ hP ⟨rfl, rfl, rfl, rfl, rfl, rfl⟩
    refine H.flushBuffer (H.textSteps.characters _ pd₁.docinfo.uri ?_) h
    exact H.moves _ _ hP₁ ⟨rfl, rfl, rfl, rfl, rfl, rfl⟩

theorem mycomments_calm (pd : ParserData) (cmt : XmlStr) :
    ∃ n, Calm { pd with ignoreContent := n } (mycomments pd cmt) := by
  simp only [mycomments]
  split
  · exact ⟨pd.ignoreContent + 1, .refl _⟩
  · split
    · exact ⟨pd.ignoreContent - 1, .refl _⟩
    · split
      · exact ⟨_, .refl pd⟩
      · exact ⟨_, calm_bumpWord true⟩

/-- No event takes a name from the config. -/
theorem saxEvent_grows
    (hx : ∀ pd uri isText pd', xinclude pd uri isText = .ok pd' → Grows pd.config pd'.config)
    {e : SaxEvent} (h : saxEvent env xinclude pd e = .ok pd') : Grows pd.config pd'.config := by
  refine saxEvent_kept (grows_tagKept pd.config) ?_ ?_ (.refl _) (eventMeets_free e) h
  · intro pd₁ uri isText pd₂ hgrown hinclude
    exact hgrown.trans (hx _ _ _ _ hinclude)
  · intro cmt _
    obtain ⟨n, hcalm⟩ := mycomments_calm pd cmt
    exact hcalm.config

theorem txtParser_grows {buffer : XmlStr} (h : txtParser env pd buffer = .ok pd') :
    Grows pd.config pd'.config := by
  unfold txtParser at h
  split at h
  · cases h
    exact .refl _
  · obtain ⟨pd₁, hflush, h⟩ := bind_ok_iff.mp h
    have h₁ := (bufferCharacters_calm _ _).trans (flushBuffer_calm hflush)
    have h₂ := (bufferCharacters_calm _ _).trans (flushBuffer_calm h)
    exact h₁.config.trans h₂.config

/-- What libxml2 reports of a file, and the state in which it starts: `docparser` is the run of
the callbacks, whatever they are. -/
def Parses (env : SaxEnv) (pd : ParserData) (filename : XmlStr) (pd₁ : ParserData)
    (es : List SaxEvent) : Prop :=
  ∀ step : ParserData → SaxEvent → Swish ParserData,
    docparser env step pd filename = run step pd₁ es

/-- The condition on a file: each step of parsing it meets `C`. -/
def ParseMeets (env : SaxEnv) (step : ParserData → SaxEvent → Swish ParserData)
    (C : ParserData → SaxEvent → Prop) (pd : ParserData) (filename : XmlStr) : Prop :=
  ∀ pd₁ es, Parses env pd filename pd₁ es → Steps step C pd₁ es

/-- A file is parsed, read as a text, or refused. -/
theorem docparser_cases (env : SaxEnv) (pd : ParserData) (filename : XmlStr) :
    (∃ size isHtml es,
      Parses env pd filename { pd with docinfo := { pd.docinfo with size }, isHtml } es) ∨
    (∃ size buffer, ∀ step, docparser env step pd filename =
      txtParser env { pd with docinfo := { pd.docinfo with size } } buffer) ∨
    ∃ msg, ∀ step, docparser env step pd filename = .error (.croak msg) := by
  unfold Parses docparser
  by_cases hsize : pd.docinfo.size = 0
  · simp only [if_pos hsize]
    exact .inl ⟨pd.docinfo.size, pd.isHtml, [], fun _ => rfl⟩
  · simp only [if_neg hsize]
    split
    · exact .inl ⟨_, true, _, fun _ => rfl⟩
    · split
      · exact .inl ⟨_, pd.isHtml, _, fun _ => rfl⟩
      · split
        · exact .inr (.inl ⟨_, _, fun _ => rfl⟩)
        · exact .inr (.inr ⟨_, fun _ => rfl⟩)

/-- What every callback that meets `C` keeps, and reading a text too, is kept by a document. -/
theorem docparser_kept {step : ParserData → SaxEvent → Swish ParserData}
    {E : ParserData → SaxEvent → Prop} {filename : XmlStr}
    (hsize : ∀ pd size isHtml, P pd → P { pd with docinfo := { pd.docinfo with size }, isHtml })
    (hstep : ∀ pd e pd', P pd → E pd e → step pd e = .ok pd' → P pd')
    (htxt : ∀ pd buffer pd', P pd → txtParser env pd buffer = .ok pd' → P pd') (hP : P pd)
    (hmeets : ParseMeets env step E pd filename)
    (h : docparser env step pd filename = .ok pd') : P pd' := by
  rcases docparser_cases env pd filename with
    ⟨size, isHtml, es, hparses⟩ | ⟨size, buffer, htext⟩ | ⟨msg, hrefused⟩
  · rw [hparses step] at h
    exact invariant_of_steps hstep (hsize _ size isHtml hP) (hmeets _ _ hparses) h
  · rw [htext step] at h
    exact htxt _ _ _ (hsize _ size pd.isHtml hP) h
  · rw [hrefused step] at h
    cases h

theorem TokenSteps.docparser (H : TokenSteps P)
    {step : ParserData → SaxEvent → Swish ParserData} {filename : XmlStr}
    (hsize : ∀ pd size, P pd → P { pd with docinfo := { pd.docinfo with size } })
    (hstep : ∀ pd e pd', P pd → step pd e = .ok pd' → P pd') (hP : P pd)
    (h : docparser env step pd filename = .ok pd') : P pd' := by
  have hmeets : ParseMeets env step (fun _ _ => True) pd filename :=
    fun _ _ _ _ _ _ _ _ _ => trivial
  refine docparser_kept ?_ ?_ ?_ hP hmeets h
  · intro pd₁ size isHtml hP₁
    exact H.moves _ _ (hsize pd₁ size hP₁) ⟨rfl, rfl, rfl, rfl, rfl, rfl⟩
  · intro pd₁ e pd₂ hP₁ _ hok
    exact hstep _ _ _ hP₁ hok
  · intro pd₁ buffer pd₂ hP₁ hok
    exact H.txtParser hP₁ hok

theorem docparser_grows {step : ParserData → SaxEvent → Swish ParserData}
    (hstep : ∀ pd e pd', step pd e = .ok pd' → Grows pd.config pd'.config) {filename : XmlStr}
    (h : docparser env step pd filename = .ok pd') : Grows pd.config pd'.config := by
  have hmeets : ParseMeets env step (fun _ _ => True) pd filename :=
    fun _ _ _ _ _ _ _ _ _ => trivial
  refine docparser_kept (P := fun pd₁ => Grows pd.config pd₁.config)
    (fun _ _ _ hgrown => hgrown) ?_ ?_ (.refl _) hmeets h
  · intro pd₁ e pd₂ hgrown _ hok
    exact hgrown.trans (hstep _ _ _ hok)
  · intro pd₁ buffer pd₂ hgrown hok
    exact hgrown.trans (txtParser_grows hok)

/-- An included document: the parser that is around it, and the one that has parsed it. -/
def Includes (env : SaxEnv) (step : ParserData → SaxEvent → Swish ParserData) (pd : ParserData)
    (uri : XmlStr) (isText : Bool) (parent child : ParserData) : Prop :=
  includeDocument env step pd uri isText = .ok (parent, some child)

variable {step : ParserData → SaxEvent → Swish ParserData} {uri : XmlStr} {isText : Bool}
  {parent child : ParserData}

/-- A document is parsed behind a flush, by a parser of its own. -/
theorem Includes.parse (h : Includes env step pd uri isText parent child) :
    flushHead { pd with stash := some pd.self } = .ok parent ∧
      ∃ xuri docinfo, docinfoFromFilesystem env parent.config xuri = .ok (some docinfo) ∧
        docparser env step (initChildData parent
          (if isText then { docinfo with parser := Swish.parserTxt } else docinfo)) xuri =
          .ok child := by
  obtain ⟨xuri, -, h⟩ := bind_ok_iff.mp h
  obtain ⟨flushed, hflush, h⟩ := bind_ok_iff.mp h
  obtain ⟨docinfo, hdocinfo, h⟩ := bind_ok_iff.mp h
  cases docinfo with
  | none => cases h
  | some docinfo =>
      obtain ⟨parsed, hparse, h⟩ := bind_ok_iff.mp h
      cases h
      exact ⟨hflush, xuri, docinfo, hdocinfo, hparse⟩

/-- What `process_xinclude` does with a document it has included. -/
theorem Includes.processXinclude (h : Includes env step pd uri isText parent child) :
    processXinclude env step pd uri isText =
      (do let merged ← xincludeHandler parent child
          pure { merged with stash := pd.stash }) := by
  rw [LibSwish3.processXinclude, h]
  rfl

/-- `process_xinclude` merges what it has included, or has nothing to include. -/
theorem processXinclude_ok (h : processXinclude env step pd uri isText = .ok pd') :
    (∃ parent, flushHead { pd with stash := some pd.self } = .ok parent ∧
        pd' = { parent with stash := pd.stash }) ∨
      ∃ parent child merged, Includes env step pd uri isText parent child ∧
        xincludeHandler parent child = .ok merged ∧ pd' = { merged with stash := pd.stash } := by
  obtain ⟨⟨parent, child⟩, hinclude, h⟩ := bind_ok_iff.mp h
  cases child with
  | some child =>
      obtain ⟨merged, hmerged, h⟩ := bind_ok_iff.mp h
      exact .inr ⟨parent, child, merged, hinclude, hmerged, (Except.ok.inj h).symm⟩
  | none =>
      refine .inl ⟨parent, ?_, (Except.ok.inj h).symm⟩
      obtain ⟨xuri, -, hinclude⟩ := bind_ok_iff.mp hinclude
      obtain ⟨flushed, hflush, hinclude⟩ := bind_ok_iff.mp hinclude
      obtain ⟨docinfo, -, hinclude⟩ := bind_ok_iff.mp hinclude
      cases docinfo with
      | none =>
          cases hinclude
          exact hflush
      | some docinfo =>
          obtain ⟨parsed, -, hinclude⟩ := bind_ok_iff.mp hinclude
          cases hinclude

/-- Merging touches the config, the tokens, the number of words and the named buffers. -/
theorem xincludeHandler_ok (h : xincludeHandler parent child = .ok pd') :
    child.stash = some parent.self ∧ ∃ tokens,
      run (fun tl t => tokenListAddToken tl t.bytes (t.len + 1) (some t.metaname) t.context)
        parent.tokens child.tokens.tokens = .ok tokens ∧
      pd' = { parent with
        config := child.config
        tokens
        docinfo := { parent.docinfo with nwords := parent.docinfo.nwords + child.docinfo.nwords }
        properties := bufferConcat parent.properties child.properties
        metanames := bufferConcat parent.metanames child.metanames } := by
  unfold xincludeHandler at h
  split at h
  · cases h
  · rename_i stash hstash
    split at h
    · rename_i hself
      obtain ⟨tokens, htokens, h⟩ := bind_ok_iff.mp h
      exact ⟨by rw [hstash, hself], tokens, htokens, (Except.ok.inj h).symm⟩
    · cases h

/-- Including a document leaves the stacks of the including one alone. -/
theorem processXinclude_calm
    (hstep : ∀ pd e pd', step pd e = .ok pd' → Grows pd.config pd'.config)
    (h : processXinclude env step pd uri isText = .ok pd') : Calm pd pd' := by
  have hflushed : ∀ parent, flushHead { pd with stash := some pd.self } = .ok parent →
      Calm pd parent := by
    intro parent hflush
    have hcalm := flushHead_calm hflush
    exact ⟨hcalm.config, hcalm.ignoreContent, hcalm.isHtml, hcalm.metastack, hcalm.propstack,
      hcalm.domstack⟩
  rcases processXinclude_ok h with ⟨parent, hflush, rfl⟩ | ⟨parent, child, merged, hin, hmerge, rfl⟩
  · exact (hflushed parent hflush).trans ⟨.refl _, rfl, rfl, rfl, rfl, rfl⟩
  · obtain ⟨hflush, xuri, docinfo, -, hparse⟩ := hin.parse
    have hgrown := docparser_grows hstep hparse
    obtain ⟨-, tokens, -, rfl⟩ := xincludeHandler_ok hmerge
    exact (hflushed parent hflush).trans ⟨hgrown, rfl, rfl, rfl, rfl, rfl⟩

theorem xincludeDeep_calm {fuel : Nat}
    (h : xincludeDeep env fuel pd uri isText = .ok pd') : Calm pd pd' := by
  induction fuel generalizing pd uri isText pd' with
  | zero => cases h
  | succ fuel ih =>
      exact processXinclude_calm
        (fun _ _ _ => saxEvent_grows fun _ _ _ _ hinclude => (ih hinclude).config) h

end Rules

end LibSwish3
