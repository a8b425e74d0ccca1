import LibSwish3.ConfigMerge
import LibSwish3.StringList
import LibSwish3.Utf8

/-!
# Reading the header

A header is the XML form of a config.  `xmlTextReader` turns a document into a sequence of
nodes, and the reader of `header.c` takes them one by one.  Some of its functions ask for
the node that follows; `Awaiting` is what such a call still waits for, so that reading is a
run of `readNode` over the nodes.

libxml2 and the file system are the parameter `HeaderEnv`.  An included file is merged into
the config under construction, by the same code: `headerMerge` takes the depth of inclusion
it may go to.

## Main definitions

* `Node`, `Reader` — what `xmlTextReader` delivers.
* `Headmaker`, `readNode` — the reader's state and its step.
* `headerRead`, `headerMerge` — `swish_header_read`, `swish_header_merge`.
-/

namespace LibSwish3

open Runs Tables

/-! ## Documents as the reader sees them -/

/-- The node types of `xmlTextReader`. -/
inductive NodeType
  | element | text | cdata | entityReference | processingInstruction | comment
  | documentType | whitespace | significantWhitespace | endElement | endEntity
  deriving DecidableEq, Repr

structure Attr where
  nsPrefix : Option XmlStr
  /-- The qualified name. -/
  name : XmlStr
  value : XmlStr
  deriving DecidableEq, Repr

/-- A namespace declaration with a prefix. -/
def Attr.isXmlns (attr : Attr) : Bool := attr.nsPrefix == some (lit "xmlns")

structure Node where
  type : NodeType
  /-- The qualified name, `#text` for a text. -/
  name : XmlStr
  localName : Option XmlStr
  value : Option XmlStr
  attributes : List Attr
  deriving DecidableEq, Repr

/-- The value of a node that has one. -/
def Node.text (node : Node) : XmlStr := node.value.getD []

/-- The start of an element. -/
def startNode (name : XmlStr) (attributes : List Attr) : Node :=
  ⟨.element, name, some name, none, attributes⟩

/-- A text with something in it. -/
def textNode (value : XmlStr) : Node := ⟨.text, lit "#text", some (lit "#text"), some value, []⟩

/-- The end of an element that is not empty. -/
def endNode (name : XmlStr) : Node := ⟨.endElement, name, some name, none, []⟩

/-- An open document.  Blank text is reported as whitespace, never as text. -/
structure Reader where
  nodes : List Node
  /-- The last `xmlTextReaderRead` returned 0, not an error. -/
  complete : Bool
  text_not_blank : ∀ node ∈ nodes, node.type = .text → strAllWs node.text = false

/-- What the reader asks of libxml2, the file system and the allocator. -/
structure HeaderEnv where
  loc : Locale
  /-- `stat` finds the path. -/
  fileExists : XmlStr → Bool
  readerForFile : XmlStr → Option Reader
  readerForMemory : XmlStr → Option Reader
  buildURI : (uri base : XmlStr) → Option XmlStr
  /-- `is_valid` of a fresh `headmaker`, which nothing initialises. -/
  freshIsValid : Bool

/-! ## The reader's state -/

/-- The section of the header that is open. -/
inductive Section
  | props | metas | index | parser | aliases | mime
  deriving DecidableEq, Repr

/-- A table of one value for each element. -/
inductive ValueTable
  | index | mimes | misc
  deriving DecidableEq, Repr

/-- A table of one element for each word of its text. -/
inductive ValuesTable
  | parsers | tagAliases
  deriving DecidableEq, Repr

/-- The call that waits for the next node. -/
inductive Awaiting
  | node
  | value (table : ValueTable) (name : XmlStr)
  | values (table : ValuesTable) (name : XmlStr)
  | stringlist (name : XmlStr)
  | includeFile
  deriving DecidableEq, Repr

structure Headmaker where
  inSection : Option Section
  parentName : Option XmlStr
  confFile : XmlStr
  config : Config
  isValid : Bool
  propId : Nat
  metaId : Nat
  awaiting : Awaiting

/-- `reset_headmaker`. -/
def Headmaker.reset (h : Headmaker) : Headmaker :=
  { h with inSection := none, parentName := none }

/-- `init_headmaker`, with the name `read_header` gives the source. -/
def initHeadmaker (env : HeaderEnv) (confFile : XmlStr) : Headmaker where
  inSection := none
  parentName := none
  confFile := confFile
  config := configInit
  isValid := env.freshIsValid
  propId := Swish.propThisMustComeLastId
  metaId := Swish.metaThisMustComeLastId
  awaiting := .node

/-- `n++` on an `unsigned int`. -/
def nextId (n : Nat) : Nat := (n + 1) % 2 ^ 32

/-- The attributes that `read_metaname` and `read_property` look at: the first one, or the
one behind it where that is a namespace declaration, and then all before the next namespace
declaration. -/
def attrsRead : List Attr → List Attr
  | [] => []
  | attr :: attrs =>
    let rest := if attr.isXmlns then attrs else attr :: attrs
    rest.take 1 ++ (rest.drop 1).takeWhile (!·.isXmlns)

section Reading

variable (env : HeaderEnv)

/-! ## MetaNames -/

/-- The body of the loop of `read_metaname_aliases`: one word that is to stand for `m`. -/
def readMetanameAlias (m : MetaName) (h : Headmaker) (word : XmlStr) : Swish Headmaker := do
  if word ∈ h.config.metanames then
    croak [lit "Cannot alias MetaName ", word, lit " to ", m.name, lit " because ", word,
      lit " is already a real MetaName"]
  else
    let newname ← strTolower env.loc word
    match h.config.metanames.lookup newname with
    | some newmeta =>
      let newmeta := { newmeta with aliasFor := .live m.name }
      pure { h with
        config := { h.config with metanames := h.config.metanames.insert newname newmeta } }
    | none =>
      let newmeta := { metanameInit newname with
        id := toInt h.metaId, bias := m.bias, aliasFor := .live m.name }
      pure { h with
        metaId := nextId h.metaId
        config := { h.config with metanames := h.config.metanames.insert newname newmeta } }

def readMetanameAliases (str : XmlStr) (h : Headmaker) (m : MetaName) : Swish Headmaker := do
  run (readMetanameAlias env m) h (← stringlistBuild str)

/-- The `meta_ids` of the file under construction remember the text of each id. -/
def readMetanameAttr (s : Headmaker × MetaName) (attr : Attr) :
    Swish (Headmaker × MetaName) := do
  let (h, m) := s
  if attr.name = lit "bias" then
    pure (h, { m with bias := ← stringToInt attr.value })
  else if attr.name = lit "id" then
    match h.config.flags.metaIds.lookup attr.value with
    | some dupe =>
      croak [lit "duplicate id ", attr.value, lit " on MetaName ", m.name,
        lit " (already assigned to ", dupe, lit ")"]
    | none =>
      let id ← stringToInt attr.value
      let metaIds ← hashAdd h.config.flags.metaIds attr.value m.name
      pure ({ h with config := { h.config with flags := { h.config.flags with metaIds } } },
        { m with id })
  else if attr.name = lit "alias_for" then
    pure (h, { m with aliasFor := .live (← strTolower env.loc attr.value) })
  else croak [lit "Unknown MetaName attribute: ", attr.name]

/-- Give a MetaName without an id the next one. -/
def Headmaker.assignMetaId (h : Headmaker) (m : MetaName) : Headmaker × MetaName :=
  if m.id = -1 then
    let metaId := nextId h.metaId
    ({ h with
        metaId
        config := { h.config with flags := { h.config.flags with maxMetaId := toInt metaId } } },
      { m with id := toInt h.metaId })
  else (h, m)

/-- Add a MetaName, or warn that its name is taken. -/
def Headmaker.addMetaname (h : Headmaker) (m : MetaName) : Headmaker :=
  if m.name ∈ h.config.metanames then h
  else { h with
    config := { h.config with metanames := h.config.metanames.insert m.name m } }

def readMetaname (node : Node) (h : Headmaker) : Swish Headmaker := do
  let m := metanameInit (← strTolower env.loc node.name)
  if node.type = .text then
    match h.parentName with
    | none => croak [lit "Illegal text in MetaNames section: '", node.text, lit "'"]
    | some parentName =>
      readMetanameAliases env node.text h { m with name := ← strTolower env.loc parentName }
  else
    let (h, m) ← run (readMetanameAttr env) (h, m) (attrsRead node.attributes)
    let (h, m) := h.assignMetaId m
    pure { h.addMetaname m with parentName := some node.name }

/-! ## Properties -/

/-- The body of the loop of `read_property_aliases`: one word that is to stand for `prop`. -/
def readPropertyAlias (prop : Property) (h : Headmaker) (word : XmlStr) :
    Swish Headmaker := do
  if word ∈ h.config.properties then
    croak [lit "Cannot alias Property ", word, lit " to ", prop.name, lit " because ", word,
      lit " is already a real Property"]
  else
    let newname ← strTolower env.loc word
    let newprop := { propertyInit newname with
      aliasFor := .live prop.name
      id := toInt h.propId
      ignoreCase := prop.ignoreCase
      type := prop.type
      verbatim := prop.verbatim
      max := prop.max
      sort := prop.sort }
    let properties ← hashAdd h.config.properties newname newprop
    pure { h with propId := nextId h.propId, config := { h.config with properties } }

def readPropertyAliases (str : XmlStr) (h : Headmaker) (prop : Property) : Swish Headmaker := do
  run (readPropertyAlias env prop) h (← stringlistBuild str)

/-- The `type` attribute: a name, or a number that begins with a digit. -/
def readPropertyType (name value : XmlStr) : Swish Int :=
  if value = lit "int" then .ok Swish.propInt
  else if value = lit "date" then .ok Swish.propDate
  else if value = lit "string" ∨ value = lit "text" then .ok Swish.propString
  else if value.head?.any isdigit then stringToInt value
  else croak [lit "Invalid value for PropertyName '", name, lit "' type: ", value]

def readPropertyAttr (s : Headmaker × Property) (attr : Attr) :
    Swish (Headmaker × Property) := do
  let (h, prop) := s
  if attr.name = lit "ignore_case" then
    pure (h, { prop with ignoreCase := stringToBoolean attr.value })
  else if attr.name = lit "max" then
    pure (h, { prop with max := toUInt (← stringToInt attr.value) })
  else if attr.name = lit "verbatim" then
    pure (h, { prop with verbatim := stringToBoolean attr.value })
  else if attr.name = lit "sort" then
    pure (h, { prop with sort := stringToBoolean attr.value })
  else if attr.name = lit "presort" then
    pure (h, { prop with presort := stringToBoolean attr.value })
  else if attr.name = lit "sort_length" then
    pure (h, { prop with sortLength := toUInt (← stringToInt attr.value) })
  else if attr.name = lit "id" then
    match h.config.flags.propIds.lookup attr.value with
    | some dupe =>
      croak [lit "duplicate id ", attr.value, lit " on MetaName ", prop.name,
        lit " (already assigned to ", dupe, lit ")"]
    | none =>
      let id ← stringToInt attr.value
      let propIds ← hashAdd h.config.flags.propIds attr.value prop.name
      pure ({ h with config := { h.config with flags := { h.config.flags with propIds } } },
        { prop with id })
  else if attr.name = lit "type" then
    pure (h, { prop with type := ← readPropertyType prop.name attr.value })
  else if attr.name = lit "alias_for" then
    pure (h, { prop with aliasFor := .live (← strTolower env.loc attr.value) })
  else croak [lit "unknown Property attribute: ", attr.name]

/-- Give a Property without an id the next one. -/
def Headmaker.assignPropId (h : Headmaker) (prop : Property) : Headmaker × Property :=
  if prop.id = -1 then
    let propId := nextId h.propId
    ({ h with
        propId
        config := { h.config with flags := { h.config.flags with maxPropId := toInt propId } } },
      { prop with id := toInt h.propId })
  else (h, prop)

/-- Add a Property whose name must be new. -/
def Headmaker.addProperty (h : Headmaker) (prop : Property) : Swish Headmaker :=
  if prop.name ∈ h.config.properties then
    croak [lit "Property ", prop.name, lit " is already defined"]
  else .ok { h with
    config := { h.config with properties := h.config.properties.insert prop.name prop } }

def readProperty (node : Node) (h : Headmaker) : Swish Headmaker := do
  let prop := propertyInit (← strTolower env.loc node.name)
  if node.type = .text then
    match h.parentName with
    | none => croak [lit "Illegal text in PropertyNames section: '", node.text, lit "'"]
    | some parentName =>
      readPropertyAliases env node.text h { prop with name := ← strTolower env.loc parentName }
  else
    let (h, prop) ← run (readPropertyAttr env) (h, prop) (attrsRead node.attributes)
    let (h, prop) := h.assignPropId prop
    let h ← h.addProperty prop
    pure { h with parentName := some node.name }

/-! ## Values and lists -/

def Config.setValue (config : Config) : ValueTable → (key value : XmlStr) → Config
  | .index, key, value => { config with index := hashReplace config.index key value }
  | .mimes, key, value => { config with mimes := hashReplace config.mimes key value }
  | .misc, key, value => { config with misc := hashReplace config.misc key value }

def Config.setValues (config : Config) (words : List XmlStr) : ValuesTable → XmlStr → Config
  | .parsers, name =>
    { config with parsers := words.foldl (fun t word => hashReplace t word name) config.parsers }
  | .tagAliases, name =>
    { config with
      tagAliases := words.foldl (fun t word => hashReplace t word name) config.tagAliases }

/-- `read_key_value_pair` on its text; a directive sets its flag too. -/
def readKeyValuePair (table : ValueTable) (name value : XmlStr) (h : Headmaker) :
    Swish Headmaker := do
  let config := h.config.setValue table name value
  match table with
  | .misc => pure { h with config := ← handleSpecialMiscFlags config }
  | .index | .mimes => pure { h with config }

/-- `read_key_values_pair` on its text. -/
def readKeyValuesPair (table : ValuesTable) (name value : XmlStr) (h : Headmaker) :
    Swish Headmaker := do
  let strlist ← stringlistBuild (← strTolower env.loc value)
  pure { h with config := h.config.setValues strlist table name }

/-- `read_key_value_stringlist` on its text. -/
def readKeyValueStringlist (name value : XmlStr) (h : Headmaker) : Swish Headmaker := do
  let strlist ← stringlistBuild (← strTolower env.loc value)
  let strlist := (h.config.stringlists.lookup name).getD [] ++ strlist
  pure { h with
    config := { h.config with stringlists := h.config.stringlists.insert name strlist } }

/-- The file an `IncludeConfigFile` names, seen from the file it stands in. -/
def resolveConfFile (confFile value : XmlStr) : Swish XmlStr :=
  if value.head? = some pathSep then .ok value
  else match fsGetPath confFile with
    | none => croak [lit "Unable to resolve config file path ", value, lit " relative to ",
        confFile]
    | some path =>
      match env.buildURI value path with
      | none => croak [lit "Unable to build URI for ", value, lit " and ", path]
      | some xuri => .ok xuri

/-! ## The step -/

/-- The section an element opens or closes. -/
def sectionOf (name : XmlStr) : Option Section :=
  if name = Swish.propSection then some .props
  else if name = Swish.metaSection then some .metas
  else if name = Swish.indexSection then some .index
  else if name = Swish.parsersSection then some .parser
  else if name = Swish.mimeSection then some .mime
  else if name = Swish.aliasSection then some .aliases
  else none

/-- What `process_node` takes a node for. -/
inductive NodeKind
  | skip | root | invalid | sectionEnd | includeFile | sectionStart (part : Section) | entry
  deriving DecidableEq, Repr

/-- The local name, `--` where there is none. -/
def Node.localNameOr (node : Node) : XmlStr := node.localName.getD (lit "--")

/-- The tests of `process_node`, in its order. -/
def nodeKind (isValid : Bool) (node : Node) : NodeKind :=
  let name := node.localNameOr
  if node.type = .comment then .skip
  else if name = Swish.headerRoot then .root
  else if !isValid then .invalid
  else if strAllWs node.text ∧ name = lit "#text" then .skip
  else if node.type = .endElement then
    if (sectionOf name).isSome then .sectionEnd else .skip
  else if name = Swish.includeFile then .includeFile
  else match sectionOf name with
    | some part => .sectionStart part
    | none => .entry

/-- A node that stands for an entry: what is done with it depends on the open section. -/
def processEntry (node : Node) (h : Headmaker) : Swish Headmaker :=
  let name := node.localNameOr
  match h.inSection with
  | some .props => readProperty env node h
  | some .metas => readMetaname env node h
  | some .index => .ok { h with awaiting := .value .index name }
  | some .parser => .ok { h with awaiting := .values .parsers name }
  | some .mime => .ok { h with awaiting := .value .mimes name }
  | some .aliases => .ok { h with awaiting := .values .tagAliases name }
  | none =>
    if name = Swish.classAttributes then .ok { h with awaiting := .stringlist name }
    else if node.type = .element then .ok { h with awaiting := .value .misc name }
    else .ok h

def processNode (node : Node) (h : Headmaker) : Swish Headmaker :=
  match nodeKind h.isValid node with
  | .skip => .ok h
  | .root => .ok { h with isValid := true }
  | .invalid => croak [lit "invalid header file"]
  | .sectionEnd => .ok h.reset
  | .includeFile => .ok { h with awaiting := .includeFile }
  | .sectionStart part => .ok { h.reset with inSection := some part }
  | .entry => processEntry env node h

/-- Take one node.  `mergeFile` merges an included file into a config. -/
def readNode (mergeFile : XmlStr → Config → Swish Config) (h : Headmaker) (node : Node) :
    Swish Headmaker :=
  let done := { h with awaiting := .node }
  match h.awaiting with
  | .node => processNode env node h
  | .value table name =>
    if node.type = .text then readKeyValuePair table name node.text done
    else croak [lit "Top-level XML element missing value: ", name]
  | .values table name =>
    if node.type = .text then readKeyValuesPair env table name node.text done
    else croak [lit "Top-level XML element missing value: ", name]
  | .stringlist name =>
    if node.type = .text then readKeyValueStringlist env name node.text done
    else croak [lit "Top-level XML element missing value: ", name]
  | .includeFile =>
    if node.type = .text then do
      let confFile ← resolveConfFile env h.confFile node.text
      pure { done with config := ← mergeFile confFile h.config }
    else croak [lit "Invalid value for ", Swish.includeFile]

/-- What is left when `xmlTextReaderRead` delivers no more nodes. -/
def readEnd (filename : XmlStr) (complete : Bool) (h : Headmaker) : Swish Config :=
  match h.awaiting with
  | .node =>
    if complete then .ok h.config else croak [filename, lit " : failed to parse\n"]
  | .value _ name | .values _ name | .stringlist name =>
    croak [lit "Error reading value for top-level XML element ", name]
  | .includeFile => croak [lit "Invalid value for ", Swish.includeFile]

/-- The document behind a name: a file, or else the name itself as XML text. -/
def openReader (filename : XmlStr) : Swish (XmlStr × Reader) :=
  let found := if env.fileExists filename then
      (env.readerForFile filename).map fun reader => (filename, reader)
    else (env.readerForMemory filename).map fun reader => (lit "in-memory", reader)
  match found with
  | some p => .ok p
  | none => croak [lit "Unable to open ", filename, lit "\n"]

/-- `read_header` with a fresh `headmaker`. -/
def readHeader (mergeFile : XmlStr → Config → Swish Config) (filename : XmlStr) :
    Swish Config := do
  let (confFile, reader) ← openReader env filename
  let h ← run (readNode env mergeFile) (initHeadmaker env confFile) reader.nodes
  readEnd filename reader.complete h

/-- `swish_config_free` on a config that was merged into `config1`.  The merge has released
each string list whose key was in both, so it is released again here. -/
def configFree (config1 config2 : Config) : Swish Unit :=
  if config2.stringlists.keys.any (· ∈ config1.stringlists) then
    .error (.fault .useAfterFree)
  else .ok ()

/-- `swish_header_merge`; `fuel` bounds the depth of inclusion. -/
def headerMerge : (fuel : Nat) → (filename : XmlStr) → (c : Config) → Swish Config
  | 0, _, _ => .error .outOfFuel
  | fuel + 1, filename, c => do
    let config ← readHeader env (headerMerge fuel) filename
    let merged ← configMerge c config
    configFree c config
    configTestAliasFors merged
    pure merged

/-- `swish_header_read`. -/
def headerRead (fuel : Nat) (filename : XmlStr) : Swish Config :=
  readHeader env (headerMerge env fuel) filename

/-- `swish_header_merge`, one file after the other into one config. -/
def mergeFiles (fuel : Nat) (c : Config) (filenames : List XmlStr) : Swish Config :=
  run (fun c filename => headerMerge env fuel filename c) c filenames

end Reading

/-! ## Small documents -/

/-- `<swish><MetaNames><NAME/></MetaNames></swish>` -/
def metanameHeader (name : XmlStr) : List Node :=
  [startNode Swish.headerRoot [], startNode Swish.metaSection [], startNode name [],
    endNode Swish.metaSection, endNode Swish.headerRoot]

/-- A directory in which every name is that of one file. -/
def HeaderEnv.oneFile (reader : Reader) : HeaderEnv where
  loc := .posix
  fileExists _ := true
  readerForFile _ := some reader
  readerForMemory _ := none
  buildURI _ _ := none
  freshIsValid := false

end LibSwish3
