import LibSwish3.ConfigMerge
import LibSwish3.NamedBuffer
import LibSwish3.TagStack
import LibSwish3.Tokenizer
import LibSwish3.Utf8

/-!
# The document parser

`ParserData` and the functions of `parser.c` that its SAX callbacks call.  `open_tag` and
`bake_tag` call each other, but only one level deep: the calls made from inside `bake_tag`
pass no attributes, and without attributes `bake_tag` makes no such call.  The definitions
here are layered accordingly: `bakeTagPlain` is `bake_tag` without attributes, `openTagPlain`
and `closeTag` build on it, and `bakeTag` and `openTag` on these.

## Main definitions

* `ParserData`, `initParserData`.
* `bufferCharacters`, `flushBuffer`, `addStackToPropBuf` — text.
* `bakeTag`, `openTag`, `closeTag` — tags.
* `mycomments` — comments.
-/

namespace LibSwish3

open Runs Tables

structure DocInfo where
  uri : XmlStr
  size : Nat
  nwords : Nat
  mime : XmlStr
  parser : XmlStr
  ext : Option XmlStr
  isGzipped : Bool

/-- `swish_docinfo_init`; the members that are NULL there are set before they are read. -/
def docinfoInit : DocInfo := ⟨[], 0, 0, [], [], none, false⟩

structure ParserData where
  /-- Which object this is: the number of parsers around it. -/
  self : Nat
  config : Config
  analyzer : Analyzer
  /-- `s3->stash`: the parser around this one, as long as `process_xinclude` runs. -/
  stash : Option Nat
  metaBuf : XmlStr
  propBuf : XmlStr
  tag : CPtr XmlStr
  docinfo : DocInfo
  ignoreContent : Nat
  isHtml : Bool
  bumpWord : Bool
  metastack : TagStack
  propstack : TagStack
  domstack : TagStack
  tokens : TokenList
  properties : NamedBuffer
  metanames : NamedBuffer

/-- `init_parser_data`, where no document is being parsed. -/
def initParserData (config : Config) (analyzer : Analyzer) (docinfo : DocInfo) :
    ParserData where
  self := 0
  config := config
  analyzer := analyzer
  stash := none
  metaBuf := []
  propBuf := []
  tag := .null
  docinfo := docinfo
  ignoreContent := 0
  isHtml := false
  bumpWord := true
  metastack := TagStack.empty.push Swish.defaultMetaname Swish.defaultMetaname Swish.domChar
  propstack := TagStack.empty.push Swish.domStr Swish.domStr Swish.domChar
  domstack := .empty
  tokens := .init
  properties := nbInit config.properties
  metanames := nbInit config.metanames

/-- Attributes as the SAX1 callbacks deliver them; a value may be missing. -/
abbrev Atts := List (XmlStr × Option XmlStr)

/-- What the parser asks of the C library and libxml2. -/
structure TagEnv where
  loc : Locale
  /-- `htmlTagLookup`: whether an HTML element is inline, none for a name it does not know. -/
  htmlIsInline : XmlStr → Option Bool

/-! ## Text -/

/-- Append a text to one of the buffers, behind a bumper where a word was bumped. -/
def bufferText (bumpWord : Bool) (buf ch : XmlStr) : XmlStr :=
  (if bumpWord && !buf.isEmpty then buf ++ Swish.tokenposBumper else buf) ++ ch

/-- `buffer_characters`. -/
def bufferCharacters (pd : ParserData) (ch : XmlStr) : ParserData :=
  if pd.ignoreContent ≠ 0 then pd
  else { pd with
    metaBuf := bufferText pd.bumpWord pd.metaBuf ch
    propBuf := bufferText pd.bumpWord pd.propBuf ch
    bumpWord := false }

/-- `tokenize`, where the analyzer asks for that: the number of words is added to the
document's. -/
def tokenizeBuffer (pd : ParserData) (metaname context : XmlStr) : Swish ParserData :=
  if !pd.analyzer.tokenize || pd.metaBuf.isEmpty then .ok pd
  else do
    let m := pd.config.metanames.lookup metaname
    let (tokens, n) ← pd.analyzer.tokenizer pd.tokens (cstr pd.metaBuf) m context
    pure { pd with tokens, docinfo := { pd.docinfo with nwords := pd.docinfo.nwords + n } }

/-- The name a MetaName's text is stored under: the target of its alias, if it is one. -/
def metanameStoredAs (config : Config) (metaname : XmlStr) : Swish XmlStr :=
  match config.metanames.lookup metaname with
  | none => .error (.fault .nullDeref)
  | some m => do pure ((← m.aliasFor.read).getD metaname)

/-- Add the meta buffer to a MetaName on the stack, unless it was the flushed one. -/
def cascadeStep (metaBuf storedAs : XmlStr) (metanames : NamedBuffer) (tag : Tag) :
    Swish NamedBuffer :=
  if tag.baked = storedAs then .ok metanames
  else nbAddStr metanames tag.baked metaBuf Swish.tokenposBumper false true

/-- Add the meta buffer to every MetaName on the stack, where the config asks for that. -/
def cascadeMetas (pd : ParserData) (storedAs : XmlStr) (metanames : NamedBuffer) :
    Swish NamedBuffer :=
  if pd.config.flags.cascadeMetaContext then
    run (cascadeStep pd.metaBuf storedAs) metanames pd.metastack.tags
  else .ok metanames

/-- `flush_buffer`. -/
def flushBuffer (pd : ParserData) (metaname context : XmlStr) : Swish ParserData := do
  let storedAs ← metanameStoredAs pd.config metaname
  let metanames ← nbAddStr pd.metanames storedAs pd.metaBuf Swish.tokenposBumper false true
  let metanames ← cascadeMetas pd storedAs metanames
  let pd ← tokenizeBuffer { pd with metanames } storedAs context
  pure { pd with metaBuf := [] }

/-- Flush under the innermost MetaName. -/
def flushHead (pd : ParserData) : Swish ParserData := do
  let top ← pd.metastack.head
  flushBuffer pd top.baked top.context

/-- The name a Property's text is stored under, and whether blanks are cleaned up. -/
def propertyStoredAs (config : Config) (baked : XmlStr) : Swish (XmlStr × Bool) :=
  match config.properties.lookup baked with
  | none => .error (.fault .nullDeref)
  | some prop => do pure ((← prop.aliasFor.read).getD baked, !prop.verbatim)

/-- Add what is left of the property buffer to a Property on the stack, past the bottom
entry. -/
def propStackStep (cleanwsp : Bool) (s : NamedBuffer × XmlStr) (tag : Tag) :
    Swish (NamedBuffer × XmlStr) :=
  if tag.baked = Swish.domStr then .ok s
  else do
    let properties ← nbAddStr s.1 tag.baked s.2 Swish.tokenposBumper cleanwsp false
    pure (properties, cleanedInPlace cleanwsp s.2)

/-- Add the property buffer to the Property that ends, if one does. -/
def addToProperty (pd : ParserData) :
    (baked : Option XmlStr) → Swish ((NamedBuffer × XmlStr) × Bool)
  | none => .ok ((pd.properties, pd.propBuf), true)
  | some baked => do
    let (storedAs, cleanwsp) ← propertyStoredAs pd.config baked
    let properties ←
      nbAddStr pd.properties storedAs pd.propBuf Swish.tokenposBumper cleanwsp false
    pure ((properties, cleanedInPlace cleanwsp pd.propBuf), cleanwsp)

/-- `add_stack_to_prop_buf`, and the emptying of the buffer that follows every call. -/
def addStackToPropBuf (pd : ParserData) (baked : Option XmlStr) : Swish ParserData := do
  let (s, cleanwsp) ← addToProperty pd baked
  let (properties, _) ← run (propStackStep cleanwsp) s pd.propstack.tags
  pure { pd with properties, propBuf := [] }

/-! ## Tags -/

/-- Release the current tag and reset the pointer. -/
def freeTag (pd : ParserData) : Swish ParserData := do
  let _ ← pd.tag.read
  pure { pd with tag := .null }

/-- Whether a tag that may be NULL is a key. -/
def tagIn {α : Type} (tag : Option XmlStr) (hash : HashTable α) : Bool :=
  match tag with
  | some tag => tag ∈ hash
  | none => false

/-- `swish_xstrdup` of a tag that may be NULL. -/
def dupTag : Option XmlStr → Swish XmlStr
  | some tag => .ok tag
  | none => croak [lit "strdup returned NULL for (null)"]

/-- The name pushed for an element: its dotted context where that is a PropertyName. -/
def pushedName (config : Config) (tag : Option XmlStr) (context : XmlStr) : Swish XmlStr :=
  if context ∈ config.properties then .ok context else dupTag tag

/-- A tag is a key by its name or by its dotted context. -/
def isKey {α : Type} (hash : HashTable α) (tag : Option XmlStr) (context : XmlStr) : Bool :=
  tagIn tag hash || context ∈ hash

/-- The part of `open_tag` about the property stack. -/
def pushProperty (pd : ParserData) (raw : XmlStr) (tag : Option XmlStr) (context : XmlStr) :
    Swish ParserData :=
  if isKey pd.config.properties tag context then do
    let pd ← addStackToPropBuf pd none
    let baked ← pushedName pd.config tag context
    pure { pd with propstack := pd.propstack.push raw baked Swish.domChar }
  else .ok pd

/-- The part of `open_tag` about the meta stack.  The name pushed is looked up among the
PropertyNames here too. -/
def pushMetaname (pd : ParserData) (raw : XmlStr) (tag : Option XmlStr) (context : XmlStr) :
    Swish ParserData :=
  if isKey pd.config.metanames tag context then do
    let pd ← flushHead pd
    let baked ← pushedName pd.config tag context
    pure { pd with metastack := pd.metastack.push raw baked Swish.domChar }
  else .ok pd

/-- `open_tag` behind `bake_tag`: `tag` is what that returned. -/
def pushTags (pd : ParserData) (raw : XmlStr) (tag : Option XmlStr) : Swish ParserData := do
  let domstack := pd.domstack.push raw (tag.getD raw) Swish.dot
  let top ← domstack.head
  let pd ← pushProperty { pd with domstack } raw tag top.context
  pushMetaname pd raw tag top.context

/-- The part of `close_tag` about the property stack. -/
def popProperty (pd : ParserData) (raw : XmlStr) : Swish ParserData := do
  let (st, propstack) ← pd.propstack.popOnMatch raw
  match st with
  | some st => addStackToPropBuf { pd with propstack } (some st.baked)
  | none => pure { pd with propstack }

/-- The part of `close_tag` about the meta stack. -/
def popMetaname (pd : ParserData) (raw : XmlStr) : Swish ParserData := do
  let (st, metastack) ← pd.metastack.popOnMatch raw
  match st with
  | some st => flushBuffer { pd with metastack } st.baked st.context
  | none => pure { pd with metastack }

/-- `close_tag` behind `bake_tag`. -/
def popTags (pd : ParserData) (raw : XmlStr) : Swish ParserData := do
  let pd ← popProperty pd raw
  let pd ← popMetaname pd raw
  match pd.domstack.pop with
  | (none, _) => .error (.fault .nullDeref)
  | (some _, domstack) => pure { pd with domstack }

/-! ## Undefined names -/

/-- Make a name a MetaName of the config and of the document. -/
def autoMetaname (pd : ParserData) (name : XmlStr) : Swish ParserData := do
  let config ← metanameNew name pd.config
  pure { pd with config, metanames := nbNew pd.metanames name }

/-- Make a name a Property too, unless it is one. -/
def autoProperty (pd : ParserData) (name : XmlStr) : Swish ParserData :=
  if name ∈ pd.config.properties then .ok pd
  else do
    let config ← propertyNew name pd.config
    pure { pd with config, properties := nbNew pd.properties name }

/-- The `undef_metas` switch of an HTML `<meta>` element's name. -/
def undefHtmlMeta (pd : ParserData) (metaname : XmlStr) : Swish ParserData :=
  if metaname ∈ pd.config.metanames ∨ metaname ∈ pd.config.tagAliases then .ok pd
  else match pd.config.flags.undefMetas with
    | .error => croak [lit "HTML <meta> tag with 'name' attribute '", metaname,
        lit "' is not a defined MetaName and ", Swish.undefinedMetatags, lit " == error"]
    | .ignore => .ok { pd with ignoreContent := pd.ignoreContent + 1 }
    | .auto => autoMetaname pd metaname
    | .autoall => do autoProperty (← autoMetaname pd metaname) metaname
    | .index => .ok pd

/-- The `undef_metas` switch of an XML tag. -/
def undefXmlTag (pd : ParserData) (swishtag : XmlStr) : Swish ParserData :=
  if swishtag ∈ pd.config.metanames ∨ swishtag ∈ pd.config.tagAliases then .ok pd
  else match pd.config.flags.undefMetas with
    | .error => croak [lit "XML tag '", swishtag, lit "' is not a defined MetaName and ",
        Swish.undefinedMetatags, lit " == error"]
    | .ignore => .ok { pd with ignoreContent := pd.ignoreContent + 1 }
    | .auto => autoMetaname pd swishtag
    | .autoall => do autoProperty (← autoMetaname pd swishtag) swishtag
    | .index => .ok { pd with ignoreContent := 0 }

/-- The `undef_attrs` switch of an XML attribute. -/
def undefXmlAttr (pd : ParserData) (metanameFromAttr attrValLower : XmlStr) :
    Swish ParserData :=
  if metanameFromAttr ∈ pd.config.metanames then .ok pd
  else match pd.config.flags.undefAttrs with
    | .error => croak [lit "XML tag '", metanameFromAttr,
        lit "' is not a defined MetaName and ", Swish.undefinedXmlAttributes, lit " == error"]
    | .ignore | .disable => .ok pd
    | .auto => autoMetaname pd metanameFromAttr
    | .autoall => do autoProperty (← autoMetaname pd metanameFromAttr) metanameFromAttr
    | .index => .ok { bufferCharacters { pd with bumpWord := true } attrValLower with
        bumpWord := pd.bumpWord }

/-! ## Baking tags -/

section Bake

variable (env : TagEnv)

/-- The lowercased name, with its prefix where namespaces count. -/
def normalizeTag (pd : ParserData) (tag : XmlStr) (xmlnsPrefix : Option XmlStr) :
    Swish XmlStr := do
  let swishtag ← strTolower env.loc tag
  match xmlnsPrefix with
  | none => pure swishtag
  | some xmlnsPrefix =>
    if pd.config.flags.ignoreXmlns then pure swishtag
    else do
      let xmlns ← strTolower env.loc xmlnsPrefix
      pure (xmlns ++ Swish.xmlnsChar :: swishtag)

/-- An HTML tag ends a word unless it is inline; a tag libxml2 does not know leaves things
as they are. -/
def htmlBump (pd : ParserData) (swishtag : XmlStr) : ParserData :=
  if swishtag = lit "br" ∨ swishtag = lit "img" then { pd with bumpWord := true }
  else match env.htmlIsInline swishtag with
    | none => pd
    | some isInline => { pd with bumpWord := !isInline }

/-- The name a tag is aliased to: looked up by itself and then by its dotted path. -/
def aliasTag (pd : ParserData) (swishtag : XmlStr) : XmlStr :=
  match pd.config.tagAliases.lookup swishtag with
  | some name => name
  | none =>
    let swishdomtag := flattenTagStack swishtag pd.domstack Swish.dot
    (pd.config.tagAliases.lookup swishdomtag).getD swishtag

/-- The part of `bake_tag` without attributes that is not about the name. -/
def plainTag (pd : ParserData) (swishtag : XmlStr) : Swish ParserData :=
  if pd.isHtml then .ok (htmlBump env pd swishtag)
  else undefXmlTag { pd with bumpWord := true } swishtag

/-- `bake_tag` without attributes. -/
def bakeTagPlain (pd : ParserData) (tag : XmlStr) (xmlnsPrefix : Option XmlStr) :
    Swish (XmlStr × ParserData) := do
  let swishtag ← normalizeTag env pd tag xmlnsPrefix
  let pd ← plainTag env pd swishtag
  pure (aliasTag pd swishtag, pd)

/-- `open_tag` without attributes. -/
def openTagPlain (pd : ParserData) (tag : XmlStr) (xmlnsPrefix : Option XmlStr) :
    Swish ParserData := do
  let pd ← freeTag pd
  let (baked, pd) ← bakeTagPlain env pd tag xmlnsPrefix
  pushTags { pd with tag := .live baked } tag (some baked)

/-- `close_tag`, which never has attributes. -/
def closeTag (pd : ParserData) (tag : XmlStr) (xmlnsPrefix : Option XmlStr) :
    Swish ParserData := do
  let pd ← freeTag pd
  let (baked, pd) ← bakeTagPlain env pd tag xmlnsPrefix
  popTags { pd with tag := .live baked } tag

/-- A name and its content from inside a tag, handled as an element of its own.  The current
tag is released at the end and the pointer stays as it is. -/
def nestedTag (pd : ParserData) (metaname content : XmlStr) (xmlnsPrefix : Option XmlStr) :
    Swish ParserData := do
  let pd ← openTagPlain env { pd with bumpWord := true } metaname xmlnsPrefix
  let pd ← closeTag env (bufferCharacters pd content) metaname xmlnsPrefix
  pure { pd with tag := .freed }

/-- The attribute array as the scan for `name` and `content` sees it, one string after the
other up to the first NULL. -/
def flatAtts : Atts → List XmlStr
  | [] => []
  | (name, some value) :: atts => name :: value :: flatAtts atts
  | (name, none) :: _ => [name]

/-- The strings behind `name` and behind `content`. -/
def scanMeta : (found : Option XmlStr × Option XmlStr) → List XmlStr →
    Option XmlStr × Option XmlStr
  | found, [] => found
  | (metaname, metacontent), att :: atts =>
    if att = lit "name" then scanMeta (atts.head?, metacontent) atts
    else if att = lit "content" then scanMeta (metaname, atts.head?) atts
    else scanMeta (metaname, metacontent) atts

/-- The name and the content of an HTML `<meta>` element. -/
def metaAtts (swishtag : XmlStr) (atts : Option Atts) : Option XmlStr × Option XmlStr :=
  if swishtag = lit "meta" then scanMeta (none, none) (flatAtts (atts.getD [])) else (none, none)

/-- `bake_tag` on an HTML `<meta>` element with a name: the name is a tag and the content is
its text, and then there is no tag left.  Without content nothing happens but a new name. -/
def bakeHtmlMeta (pd : ParserData) (metaname : XmlStr) (metacontent : Option XmlStr)
    (xmlnsPrefix : Option XmlStr) : Swish (Bool × ParserData) := do
  let prevIgnoreContent := pd.ignoreContent
  let pd ← undefHtmlMeta pd metaname
  match metacontent with
  | some content => do
    let prevBumpWord := pd.bumpWord
    let pd ← nestedTag env pd metaname content xmlnsPrefix
    pure (false, { pd with bumpWord := prevBumpWord })
  | none => pure (true, { pd with ignoreContent := prevIgnoreContent })

/-- Add the value of an attribute to the tag, once for each time the list names it. -/
def classAttribute (strlist : List XmlStr) (attrLower attrValLower swishtag : XmlStr) :
    XmlStr :=
  strlist.foldl
    (fun swishtag word =>
      if word = attrLower then swishtag ++ Swish.dot :: attrValLower else swishtag)
    swishtag

/-- What an attribute makes of the tag, the MetaName it stands for and its lowered value. -/
def attributeNames (pd : ParserData) (swishtag : XmlStr) (att : XmlStr × Option XmlStr) :
    Swish (XmlStr × XmlStr × XmlStr) := do
  let attrLower ← strTolower env.loc att.1
  match att.2 with
  | none => .error (.fault .nullDeref)
  | some attrVal => do
    let attrValLower ← strTolower env.loc attrVal
    let strlist := (pd.config.stringlists.lookup Swish.classAttributes).getD []
    let swishtag := classAttribute strlist attrLower attrValLower swishtag
    pure (swishtag, swishtag ++ Swish.dot :: attrLower, attrValLower)

/-- An attribute that is a MetaName is a tag of its own. -/
def attributeTag (pd : ParserData) (metanameFromAttr attrValLower : XmlStr)
    (xmlnsPrefix : Option XmlStr) : Swish ParserData :=
  if metanameFromAttr ∈ pd.config.metanames then
    nestedTag env pd metanameFromAttr attrValLower xmlnsPrefix
  else .ok pd

/-- The body of the attribute loop of `bake_tag`. -/
def bakeAttribute (xmlnsPrefix : Option XmlStr) (s : ParserData × XmlStr)
    (att : XmlStr × Option XmlStr) : Swish (ParserData × XmlStr) := do
  let (swishtag, metanameFromAttr, attrValLower) ← attributeNames env s.1 s.2 att
  let pd ← undefXmlAttr s.1 metanameFromAttr attrValLower
  let pd ← attributeTag env pd metanameFromAttr attrValLower xmlnsPrefix
  pure (pd, swishtag)

/-- `bake_tag`. -/
def bakeTag (pd : ParserData) (tag : XmlStr) (atts : Option Atts)
    (xmlnsPrefix : Option XmlStr) : Swish (Option XmlStr × ParserData) := do
  let swishtag ← normalizeTag env pd tag xmlnsPrefix
  if pd.isHtml then do
    let pd := htmlBump env pd swishtag
    match metaAtts swishtag atts with
    | (some metaname, metacontent) => do
      let (hasTag, pd) ← bakeHtmlMeta env pd metaname metacontent xmlnsPrefix
      pure (if hasTag then some (aliasTag pd swishtag) else none, pd)
    | (none, _) => pure (some (aliasTag pd swishtag), pd)
  else do
    let pd := { pd with bumpWord := true }
    let (pd, swishtag) ← run (bakeAttribute env xmlnsPrefix) (pd, swishtag) (atts.getD [])
    let pd ← undefXmlTag pd swishtag
    pure (some (aliasTag pd swishtag), pd)

/-- The pointer to what `bake_tag` returned. -/
def tagPtr : Option XmlStr → CPtr XmlStr
  | some tag => .live tag
  | none => .null

/-- `open_tag`. -/
def openTag (pd : ParserData) (tag : XmlStr) (atts : Option Atts)
    (xmlnsPrefix : Option XmlStr) : Swish ParserData := do
  let pd ← freeTag pd
  let (baked, pd) ← bakeTag env pd tag atts xmlnsPrefix
  pushTags { pd with tag := tagPtr baked } tag baked

end Bake

/-! ## Comments -/

/-- The text of a comment without the blanks around it and the word `SwishCommand`, and
whether it had that. -/
def commentCommand (cmt : XmlStr) : XmlStr × Bool :=
  let commentText := strTrimWs (strSkipWs (cstr cmt))
  let swishcmd := lit "SwishCommand"
  if strCaseEq (commentText.take swishcmd.length) swishcmd then
    (strSkipWs (commentText.drop swishcmd.length), true)
  else (commentText, false)

/-- `mycomments`: the commands that hide and show content; every other comment ends a
word. -/
def mycomments (pd : ParserData) (cmt : XmlStr) : ParserData :=
  let (commentText, swishcmdFound) := commentCommand cmt
  if strCaseEq commentText (lit "noindex") then
    { pd with ignoreContent := pd.ignoreContent + 1 }
  else if strCaseEq commentText (lit "index") then
    { pd with ignoreContent := pd.ignoreContent - 1 }
  -- a blank comment is no comment
  else if swishcmdFound ∨ commentText.isEmpty then pd
  else { pd with bumpWord := true }

end LibSwish3
