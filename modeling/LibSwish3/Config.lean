import LibSwish3.CString
import LibSwish3.Lib.Tables

/-!
# Configuration data

`MetaName`, `Property`, `ConfigFlags` and `Config` follow the structs of `libswish3.h`;
reference counts and the stash for bindings are left out.  Each of the eight hashes of a
config is a `Table`, and a config's `mimes` is one too: the C field is NULL only between
`swish_config_init` and the next statement of its two callers.

`alias_for` is the one member that the merge code releases while the struct lives on, so
it is a `CPtr`.

## Main definitions

* `MetaName`, `Property`, `ConfigFlags`, `Config`.
* `metanameNew`, `propertyNew` — names added while a document is parsed.
* `configInit`, `configSetDefault` — the empty and the default config.
-/

namespace LibSwish3

open Tables

/-! ## Names the library knows -/

namespace Swish

def headerRoot : XmlStr := lit "swish"
def includeFile : XmlStr := lit "IncludeConfigFile"
def classAttributes : XmlStr := lit "XMLClassAttributes"
def propSection : XmlStr := lit "PropertyNames"
def metaSection : XmlStr := lit "MetaNames"
def mimeSection : XmlStr := lit "MIME"
def parsersSection : XmlStr := lit "Parsers"
def indexSection : XmlStr := lit "Index"
def aliasSection : XmlStr := lit "TagAlias"
def defaultParser : XmlStr := lit "default"
def parserTxt : XmlStr := lit "TXT"
def parserXml : XmlStr := lit "XML"
def parserHtml : XmlStr := lit "HTML"
def defaultParserType : XmlStr := lit "HTML"
def indexFormat : XmlStr := lit "Format"
def indexName : XmlStr := lit "Name"
def indexLocale : XmlStr := lit "Locale"
def indexFileformat : XmlStr := lit "Native"
def indexFilename : XmlStr := lit "index.swish"
def tokenize : XmlStr := lit "Tokenize"
def cascadeMetaContext : XmlStr := lit "CascadeMetaContext"
def ignoreXmlns : XmlStr := lit "IgnoreXMLNameSpaces"
def followXinclude : XmlStr := lit "FollowXInclude"
def undefinedMetatags : XmlStr := lit "UndefinedMetaTags"
def undefinedXmlAttributes : XmlStr := lit "UndefinedXMLAttributes"
def defaultMetaname : XmlStr := lit "swishdefault"
def titleMetaname : XmlStr := lit "swishtitle"
def titleTag : XmlStr := lit "title"
def bodyTag : XmlStr := lit "body"
def defaultMime : XmlStr := lit "text/html"
def propRank : XmlStr := lit "swishrank"
def propDocpath : XmlStr := lit "swishdocpath"
def propTitle : XmlStr := lit "swishtitle"
def propSize : XmlStr := lit "swishdocsize"
def propMtime : XmlStr := lit "swishlastmodified"
def propDescription : XmlStr := lit "swishdescription"
def propMime : XmlStr := lit "swishmime"
def propParser : XmlStr := lit "swishparser"
def propNwords : XmlStr := lit "swishwordnum"
def version : XmlStr := lit "3.0.0"

/-- `SWISH_TOKENPOS_BUMPER`, the one-byte string that separates pieces of text. -/
def tokenposBumper : XmlStr := [3]

def dot : XmlChar := 46
def domChar : XmlChar := 47
def domStr : XmlStr := [47]
def xmlnsChar : XmlChar := 58

def metaDefaultId : Int := 0
def metaTitleId : Int := 1
def metaThisMustComeLastId : Nat := 2

def propRankId : Int := -1
def propDocpathId : Int := 1
def propTitleId : Int := 3
def propSizeId : Int := 4
def propMtimeId : Int := 5
def propDescriptionId : Int := 6
def propNwordsId : Int := 7
def propMimeId : Int := 8
def propParserId : Int := 9
def propThisMustComeLastId : Nat := 11

def propString : Int := 1
def propDate : Int := 2
def propInt : Int := 3

end Swish

/-! ## Hashes -/

/-- A hash of libxml2, keyed by string. -/
abbrev HashTable (α : Type) := Table XmlStr α

section Hash

variable {α : Type} (hash : HashTable α) (key : XmlStr) (value : α)

/-- `swish_hash_add` refuses a key that is already there. -/
def hashAdd : Swish (HashTable α) :=
  if key ∈ hash then croak [lit "xmlHashAddEntry for '", key, lit "' failed"]
  else .ok (hash.insert key value)

/-- `swish_hash_replace` overwrites the value, or adds it. -/
def hashReplace : HashTable α := hash.insert key value

/-- `swish_hash_merge`: `merge_hashes` copies each entry of `hash2` over the one in
`hash1`, or adds it. -/
def hashMerge (hash1 hash2 : HashTable α) : HashTable α :=
  mergeWith (fun _ _ value => value) hash1 hash2

variable {hash key value}

theorem hashAdd_ok_iff {hash' : HashTable α} :
    hashAdd hash key value = .ok hash' ↔ key ∉ hash ∧ hash' = hash.insert key value := by
  rw [hashAdd]
  split
  · simp [croak, *]
  · simp only [Except.ok.injEq, *, not_false_eq_true, true_and]
    exact eq_comm

end Hash

/-! ## MetaNames and Properties -/

structure MetaName where
  id : Int
  name : XmlStr
  bias : Int
  aliasFor : CPtr XmlStr
  deriving DecidableEq, Repr

structure Property where
  id : Int
  name : XmlStr
  ignoreCase : Bool
  type : Int
  verbatim : Bool
  aliasFor : CPtr XmlStr
  max : Nat
  sort : Bool
  presort : Bool
  sortLength : Nat
  deriving DecidableEq, Repr

/-- What to do with a tag that is no MetaName. -/
inductive UndefMetas
  | index | error | ignore | auto | autoall
  deriving DecidableEq, Repr

/-- What to do with an attribute that names no MetaName. -/
inductive UndefAttrs
  | disable | error | ignore | index | auto | autoall
  deriving DecidableEq, Repr

/-- Shortcuts for parsing.  `metaIds` and `propIds` map an id, as text, to the name that
holds it. -/
structure ConfigFlags where
  tokenize : Bool
  cascadeMetaContext : Bool
  ignoreXmlns : Bool
  followXinclude : Bool
  undefMetas : UndefMetas
  undefAttrs : UndefAttrs
  maxMetaId : Int
  maxPropId : Int
  metaIds : HashTable XmlStr
  propIds : HashTable XmlStr

structure Config where
  misc : HashTable XmlStr
  properties : HashTable Property
  metanames : HashTable MetaName
  tagAliases : HashTable XmlStr
  parsers : HashTable XmlStr
  mimes : HashTable XmlStr
  index : HashTable XmlStr
  stringlists : HashTable (List XmlStr)
  flags : ConfigFlags

def metanameInit (name : XmlStr) : MetaName where
  id := -1
  name := name
  bias := 0
  aliasFor := .null

def propertyInit (name : XmlStr) : Property where
  id := -1
  name := name
  ignoreCase := true
  type := Swish.propString
  verbatim := false
  aliasFor := .null
  max := 0
  sort := true
  presort := true
  sortLength := 0

/-- `swish_metaname_new`: a MetaName the document brought up, with the next id. -/
def metanameNew (name : XmlStr) (config : Config) : Swish Config := do
  let id := config.flags.maxMetaId + 1
  let m := { metanameInit name with id }
  let metaIds ← hashAdd config.flags.metaIds (intToString id) name
  let metanames ← hashAdd config.metanames name m
  pure { config with metanames, flags := { config.flags with maxMetaId := id, metaIds } }

/-- `swish_property_new`: a Property the document brought up, with the next id. -/
def propertyNew (name : XmlStr) (config : Config) : Swish Config := do
  let id := config.flags.maxPropId + 1
  let p := { propertyInit name with id }
  let propIds ← hashAdd config.flags.propIds (intToString id) name
  let properties ← hashAdd config.properties name p
  pure { config with properties, flags := { config.flags with maxPropId := id, propIds } }

/-- The id of a property that is not stored, -2 for every other name. -/
def propertyGetBuiltinId (propname : XmlStr) : Int :=
  if propname = Swish.propRank then Swish.propRankId
  else if propname = Swish.propDocpath then Swish.propDocpathId
  else if propname = Swish.propMtime then Swish.propMtimeId
  else if propname = Swish.propSize then Swish.propSizeId
  else if propname = Swish.propMime then Swish.propMimeId
  else if propname = Swish.propParser then Swish.propParserId
  else if propname = Swish.propNwords then Swish.propNwordsId
  else -2

def propertyGetId (propname : XmlStr) (properties : HashTable Property) : Swish Int :=
  if propertyGetBuiltinId propname ≠ -2 then .ok (propertyGetBuiltinId propname)
  else match properties.lookup propname with
    | some prop => .ok prop.id
    | none => croak [lit "No such PropertyName: ", propname]

/-! ## The default config -/

/-- `SWISH_MIME_TABLE`, file extension and MIME type. -/
def mimeTable : List (String × String) :=
  [("ai", "application/postscript"), ("aif", "audio/x-aiff"), ("aifc", "audio/x-aiff"),
   ("aiff", "audio/x-aiff"), ("asc", "text/plain"), ("au", "audio/basic"),
   ("avi", "video/x-msvideo"), ("bcpio", "application/x-bcpio"),
   ("bin", "application/octet-stream"), ("bmp", "image/bmp"), ("cdf", "application/x-netcdf"),
   ("cgm", "image/cgm"), ("class", "application/octet-stream"), ("cpio", "application/x-cpio"),
   ("cpt", "application/mac-compactpro"), ("csh", "application/x-csh"), ("css", "text/css"),
   ("dcr", "application/x-director"), ("dir", "application/x-director"),
   ("djv", "image/vnd.djvu"), ("djvu", "image/vnd.djvu"), ("dll", "application/octet-stream"),
   ("dmg", "application/octet-stream"), ("dms", "application/octet-stream"),
   ("doc", "application/msword"), ("dtd", "application/xml-dtd"), ("dvi", "application/x-dvi"),
   ("dxr", "application/x-director"), ("eps", "application/postscript"), ("etx", "text/x-setext"),
   ("exe", "application/octet-stream"), ("ez", "application/andrew-inset"), ("gif", "image/gif"),
   ("gram", "application/srgs"), ("grxml", "application/srgs+xml"),
   ("gtar", "application/x-gtar"), ("gz", "application/x-gzip"), ("hdf", "application/x-hdf"),
   ("hqx", "application/mac-binhex40"), ("htm", "text/html"), ("html", "text/html"),
   ("ice", "x-conference/x-cooltalk"), ("ico", "image/x-icon"), ("ics", "text/calendar"),
   ("ief", "image/ief"), ("ifb", "text/calendar"), ("iges", "model/iges"), ("igs", "model/iges"),
   ("jpe", "image/jpeg"), ("jpeg", "image/jpeg"), ("jpg", "image/jpeg"),
   ("js", "application/x-javascript"), ("kar", "audio/midi"), ("latex", "application/x-latex"),
   ("lha", "application/octet-stream"), ("lzh", "application/octet-stream"),
   ("m3u", "audio/x-mpegurl"), ("m4u", "video/vnd.mpegurl"), ("man", "application/x-troff-man"),
   ("mathml", "application/mathml+xml"), ("me", "application/x-troff-me"), ("mesh", "model/mesh"),
   ("mid", "audio/midi"), ("midi", "audio/midi"), ("mif", "application/vnd.mif"),
   ("mov", "video/quicktime"), ("movie", "video/x-sgi-movie"), ("mp2", "audio/mpeg"),
   ("mp3", "audio/mpeg"), ("mpe", "video/mpeg"), ("mpeg", "video/mpeg"), ("mpg", "video/mpeg"),
   ("mpga", "audio/mpeg"), ("ms", "application/x-troff-ms"), ("msh", "model/mesh"),
   ("mxu", "video/vnd.mpegurl"), ("nc", "application/x-netcdf"), ("oda", "application/oda"),
   ("ogg", "application/ogg"), ("pbm", "image/x-portable-bitmap"), ("pdb", "chemical/x-pdb"),
   ("pdf", "application/pdf"), ("pgm", "image/x-portable-graymap"),
   ("pgn", "application/x-chess-pgn"), ("png", "image/png"), ("pnm", "image/x-portable-anymap"),
   ("ppm", "image/x-portable-pixmap"), ("ppt", "application/vnd.ms-powerpoint"),
   ("ps", "application/postscript"), ("qt", "video/quicktime"), ("ra", "audio/x-pn-realaudio"),
   ("ram", "audio/x-pn-realaudio"), ("ras", "image/x-cmu-raster"), ("rdf", "application/rdf+xml"),
   ("rgb", "image/x-rgb"), ("rm", "application/vnd.rn-realmedia"),
   ("roff", "application/x-troff"), ("rtf", "text/rtf"), ("rtx", "text/richtext"),
   ("sgm", "text/sgml"), ("sgml", "text/sgml"), ("sh", "application/x-sh"),
   ("shar", "application/x-shar"), ("silo", "model/mesh"), ("sit", "application/x-stuffit"),
   ("skd", "application/x-koan"), ("skm", "application/x-koan"), ("skp", "application/x-koan"),
   ("skt", "application/x-koan"), ("smi", "application/smil"), ("smil", "application/smil"),
   ("snd", "audio/basic"), ("so", "application/octet-stream"),
   ("spl", "application/x-futuresplash"), ("src", "application/x-wais-source"),
   ("sv4cpio", "application/x-sv4cpio"), ("sv4crc", "application/x-sv4crc"),
   ("svg", "image/svg+xml"), ("swf", "application/x-shockwave-flash"),
   ("t", "application/x-troff"), ("tar", "application/x-tar"), ("tcl", "application/x-tcl"),
   ("tex", "application/x-tex"), ("texi", "application/x-texinfo"),
   ("texinfo", "application/x-texinfo"), ("tif", "image/tiff"), ("tiff", "image/tiff"),
   ("tr", "application/x-troff"), ("tsv", "text/tab-separated-values"), ("txt", "text/plain"),
   ("ustar", "application/x-ustar"), ("vcd", "application/x-cdlink"), ("vrml", "model/vrml"),
   ("vxml", "application/voicexml+xml"), ("wav", "audio/x-wav"), ("wbmp", "image/vnd.wap.wbmp"),
   ("wbxml", "application/vnd.wap.wbxml"), ("wml", "text/vnd.wap.wml"),
   ("wmlc", "application/vnd.wap.wmlc"), ("wmls", "text/vnd.wap.wmlscript"),
   ("wmlsc", "application/vnd.wap.wmlscriptc"), ("wrl", "model/vrml"), ("xbm", "image/x-xbitmap"),
   ("xht", "application/xhtml+xml"), ("xhtml", "application/xhtml+xml"),
   ("xls", "application/vnd.ms-excel"), ("xml", "application/xml"), ("xpm", "image/x-xpixmap"),
   ("xsl", "application/xml"), ("xslt", "application/xslt+xml"),
   ("xul", "application/vnd.mozilla.xul+xml"), ("xwd", "image/x-xwindowdump"),
   ("xyz", "chemical/x-xyz"), ("zip", "application/zip")]

/-- `SWISH_MIME_TABLE_COUNT`. -/
def mimeTableCount : Nat := 304

/-- `swish_mime_defaults`.  The loop runs while its index over the flat table is at most
`SWISH_MIME_TABLE_COUNT`, two strings a turn, so the last row of the table stays out. -/
def mimeDefaults : HashTable XmlStr :=
  ((mimeTable.take (mimeTableCount / 2 + 1)).map
    fun p => (⟨lit p.1, lit p.2⟩ : Sigma fun _ : XmlStr => XmlStr)).toAList

def configInitFlags : ConfigFlags where
  tokenize := true
  cascadeMetaContext := false
  ignoreXmlns := true
  followXinclude := true
  undefMetas := .index
  undefAttrs := .disable
  maxMetaId := -1
  maxPropId := -1
  metaIds := ∅
  propIds := ∅

def configInit : Config where
  misc := ∅
  properties := ∅
  metanames := ∅
  tagAliases := ∅
  parsers := ∅
  mimes := ∅
  index := ∅
  stringlists := ∅
  flags := configInitFlags

/-- The MetaNames every config starts with. -/
def defaultMetanames : HashTable MetaName :=
  ((∅ : HashTable MetaName).insert Swish.defaultMetaname
    { metanameInit Swish.defaultMetaname with id := Swish.metaDefaultId }).insert
    Swish.titleMetaname { metanameInit Swish.titleMetaname with id := Swish.metaTitleId }

/-- The Properties every config starts with. -/
def defaultProperties : HashTable Property :=
  ((∅ : HashTable Property).insert Swish.propDescription
    { propertyInit Swish.propDescription with
      id := Swish.propDescriptionId, sort := false }).insert
    Swish.propTitle { propertyInit Swish.propTitle with id := Swish.propTitleId }

/-- `swish_config_init` followed by `swish_config_set_default`.  `lcCtype` is what
`setlocale(LC_CTYPE, NULL)` returns. -/
def configSetDefault (lcCtype : XmlStr) : Config where
  misc := ∅
  properties := defaultProperties
  metanames := defaultMetanames
  tagAliases := ((∅ : HashTable XmlStr).insert Swish.titleTag Swish.titleMetaname).insert
    Swish.bodyTag Swish.propDescription
  parsers := (((((∅ : HashTable XmlStr).insert (lit "text/plain") Swish.parserTxt).insert
    (lit "application/xml") Swish.parserXml).insert (lit "text/xml") Swish.parserXml).insert
    (lit "text/html") Swish.parserHtml).insert Swish.defaultParser Swish.defaultParserType
  mimes := mimeDefaults
  index := (((∅ : HashTable XmlStr).insert Swish.indexFormat Swish.indexFileformat).insert
    Swish.indexName Swish.indexFilename).insert Swish.indexLocale lcCtype
  stringlists := ∅
  flags := { configInitFlags with
    maxMetaId := Swish.metaTitleId
    maxPropId := Swish.propDescriptionId
    metaIds := ((∅ : HashTable XmlStr).insert (intToString Swish.metaDefaultId)
      Swish.defaultMetaname).insert (intToString Swish.metaTitleId) Swish.titleMetaname
    propIds := ((∅ : HashTable XmlStr).insert (intToString Swish.propDescriptionId)
      Swish.propDescription).insert (intToString Swish.propTitleId) Swish.propTitle }

end LibSwish3
