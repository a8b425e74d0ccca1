import Mathlib.Algebra.Order.BigOperators.Group.List
import Mathlib.Data.Fintype.Card
import Mathlib.Data.Set.Finite.Basic
import Mathlib.Logic.Relation
import LibSwish3.Nested

/-!
# How often a document is parsed

`process_xinclude` calls `docparser` from inside a callback, and nothing counts how deep it is.
`docparserCalls` counts the calls of a parse that may include `fuel` deep.  Where no file can
reach itself through the XML documents it includes, the count has a bound that does not depend
on the depth; a file that includes itself is parsed once for every level.

A document that is included as a text includes nothing.

## Main definitions

* `documentStart`, `documentEvents` — the run that `docparser` is.
* `childCall` — the call of `docparser` that an XInclude element makes.
* `docparserCalls` — the number of calls.
* `includedFiles` — the files that a file includes as XML.
-/

namespace LibSwish3

open Runs Tables

/-! ## The calls of a parse -/

section Calls

variable (env : SaxEnv)

/-- The events of a document; a text has none, and neither has what is refused. -/
def documentEvents (docinfo : DocInfo) (filename : XmlStr) : List SaxEvent :=
  if docinfo.size = 0 then []
  else
    let buffer := if docinfo.isGzipped then env.slurpGzfile filename else env.slurpFile filename
    let parser := docinfo.parser.head?
    if parser = some 72 ∨ parser = some 104 then env.htmlParseDocument buffer
    else if parser = some 88 ∨ parser = some 120 then env.xmlParseDocument buffer
    else []

/-- The parser in front of the events. -/
def documentStart (pd : ParserData) (filename : XmlStr) : ParserData :=
  if pd.docinfo.size = 0 then pd
  else
    let size :=
      if pd.docinfo.isGzipped then (cstr (env.slurpGzfile filename)).length else pd.docinfo.size
    let parser := pd.docinfo.parser.head?
    if parser = some 72 ∨ parser = some 104 then
      { pd with docinfo := { pd.docinfo with size }, isHtml := true }
    else { pd with docinfo := { pd.docinfo with size } }

/-- `process_xinclude` up to `docparser`: the including parser behind its flush, and the parser
and the file that `docparser` is called with. -/
def childCall (pd : ParserData) (uri : XmlStr) (isText : Bool) :
    Swish (ParserData × Option (ParserData × XmlStr)) := do
  let xuri ← xincludeUri env pd uri
  let parent ← flushHead { pd with stash := some pd.self }
  match ← docinfoFromFilesystem env parent.config xuri with
  | none => pure (parent, none)
  | some docinfo =>
    let docinfo := if isText then { docinfo with parser := Swish.parserTxt } else docinfo
    pure (parent, some (initChildData parent docinfo, xuri))

/-- The call of `docparser` that an event makes. -/
def eventCall (pd : ParserData) (e : SaxEvent) : Option (ParserData × XmlStr) :=
  match includedBy env pd e with
  | none => none
  | some (uri, isText) =>
    match childCall env pd uri isText with
    | .ok (_, call) => call
    | .error _ => none

/-- The calls of `docparser` that one call of it makes, itself included. -/
def docparserCalls : (fuel : Nat) → ParserData → XmlStr → Nat
  | 0, _, _ => 1
  | fuel + 1, pd, filename =>
    1 + cost (saxStep env (fuel + 1))
      (fun pd e => match eventCall env pd e with
        | some (child, xuri) => docparserCalls fuel child xuri
        | none => 0)
      (documentStart env pd filename) (documentEvents env pd.docinfo filename)

/-- The calls of `docparser` that `swish_parse_file` makes. -/
def parseFileCalls (config : Config) (analyzer : Analyzer) (fuel : Nat) (filename : XmlStr) :
    Nat :=
  match docinfoFromFilesystem env config filename with
  | .ok (some docinfo) => docparserCalls env fuel (initParserData config analyzer docinfo) filename
  | _ => 0

/-- The files that a file includes as XML, where it is an XML document. -/
def includedFiles (config : Config) (filename : XmlStr) : List XmlStr :=
  match docinfoFromFilesystem env config filename with
  | .ok (some docinfo) =>
    let pd := initParserData config .idle docinfo
    (documentEvents env docinfo filename).filterMap fun e =>
      match includedBy env pd e with
      | some (uri, false) => (xincludeUri env pd uri).toOption
      | _ => none
  | _ => []

/-- A file includes another as XML. -/
def IncludesXml (config : Config) (filename included : XmlStr) : Prop :=
  included ∈ includedFiles env config filename

end Calls

section Bounds

variable {env : SaxEnv} {config : Config} {pd pd' : ParserData} {filename : XmlStr}

/-- `docparser` is a run over the events, where there are any. -/
theorem docparser_start (h : documentEvents env pd.docinfo filename ≠ []) :
    Parses env pd filename (documentStart env pd filename)
      (documentEvents env pd.docinfo filename) := by
  intro step
  unfold documentEvents at h
  rw [docparser, documentStart, documentEvents]
  by_cases hsize : pd.docinfo.size = 0
  · exact absurd (if_pos hsize) h
  · simp only [if_neg hsize] at h ⊢
    by_cases hhtml : pd.docinfo.parser.head? = some 72 ∨ pd.docinfo.parser.head? = some 104
    · simp only [if_pos hhtml]
      split <;> rfl
    · simp only [if_neg hhtml] at h ⊢
      by_cases hxml : pd.docinfo.parser.head? = some 88 ∨ pd.docinfo.parser.head? = some 120
      · simp only [if_pos hxml]
        split <;> rfl
      · exact absurd (if_neg hxml) h

/-- `process_xinclude` makes the call and hands back what it has parsed. -/
theorem includeDocument_eq (step : ParserData → SaxEvent → Swish ParserData) (uri : XmlStr)
    (isText : Bool) :
    includeDocument env step pd uri isText = (do
      match ← childCall env pd uri isText with
      | (parent, none) => pure (parent, none)
      | (parent, some (child, xuri)) => do
        let child ← docparser env step child xuri
        pure (parent, some child)) := by
  simp only [includeDocument, childCall]
  cases xincludeUri env pd uri with
  | error e => rfl
  | ok xuri =>
      simp only [ok_bind]
      cases flushHead { pd with stash := some pd.self } with
      | error e => rfl
      | ok parent =>
          simp only [ok_bind]
          cases docinfoFromFilesystem env parent.config xuri with
          | error e => rfl
          | ok docinfo => cases docinfo <;> rfl

/-! ## What is read from the config -/

/-- What decides which files are parsed, and how. -/
structure SameFiles (c c' : Config) : Prop where
  followXinclude : c'.flags.followXinclude = c.flags.followXinclude
  mimes : c'.mimes = c.mimes
  parsers : c'.parsers = c.parsers

theorem SameFiles.refl (c : Config) : SameFiles c c := ⟨rfl, rfl, rfl⟩

theorem SameFiles.trans {c₁ c₂ c₃ : Config} (h : SameFiles c₁ c₂) (h' : SameFiles c₂ c₃) :
    SameFiles c₁ c₃ :=
  ⟨h'.followXinclude.trans h.followXinclude, h'.mimes.trans h.mimes, h'.parsers.trans h.parsers⟩

theorem metanameNew_files {c c' : Config} {name : XmlStr} (h : metanameNew name c = .ok c') :
    SameFiles c c' := by
  obtain ⟨metaIds, -, h⟩ := bind_ok_iff.mp h
  obtain ⟨metanames, -, h⟩ := bind_ok_iff.mp h
  cases h
  exact ⟨rfl, rfl, rfl⟩

theorem propertyNew_files {c c' : Config} {name : XmlStr} (h : propertyNew name c = .ok c') :
    SameFiles c c' := by
  obtain ⟨propIds, -, h⟩ := bind_ok_iff.mp h
  obtain ⟨properties, -, h⟩ := bind_ok_iff.mp h
  cases h
  exact ⟨rfl, rfl, rfl⟩

theorem SameFiles.docinfo {c c' : Config} (h : SameFiles c c') (filename : XmlStr) :
    docinfoFromFilesystem env c' filename = docinfoFromFilesystem env c filename := by
  have hmime : ∀ ext, mimeGetType c' ext = mimeGetType c ext := by
    intro ext
    simp only [mimeGetType, h.mimes]
  have hparser : ∀ mime, mimeGetParser c' mime = mimeGetParser c mime := by
    intro mime
    simp only [mimeGetParser, h.parsers]
  simp only [docinfoFromFilesystem, hmime, hparser]

/-- The parser is still on the same file, with a config that names the same files. -/
structure SameSource (pd₀ pd : ParserData) : Prop where
  uri : pd.docinfo.uri = pd₀.docinfo.uri
  files : SameFiles pd₀.config pd.config

theorem SameSource.refl (pd : ParserData) : SameSource pd pd := ⟨rfl, .refl _⟩

theorem SameSource.trans {pd₁ pd₂ pd₃ : ParserData} (h : SameSource pd₁ pd₂)
    (h' : SameSource pd₂ pd₃) : SameSource pd₁ pd₃ :=
  ⟨h'.uri.trans h.uri, h.files.trans h'.files⟩

theorem SameSource.includedBy {pd₀ : ParserData} (h : SameSource pd₀ pd) (e : SaxEvent) :
    includedBy env pd e = includedBy env pd₀ e := by
  cases e with
  | startElementNs localname xmlnsPrefix uri attributes =>
      simp only [LibSwish3.includedBy, h.files.followXinclude]
  | _ => rfl

theorem SameSource.xincludeUri {pd₀ : ParserData} (h : SameSource pd₀ pd) (uri : XmlStr) :
    xincludeUri env pd uri = xincludeUri env pd₀ uri := by
  simp only [LibSwish3.xincludeUri, h.uri]

/-! ## The callbacks stay on their file -/

section Callbacks

variable {pd₀ : ParserData} {metaname context name raw : XmlStr} {tag : Option XmlStr}

theorem source_tokenSteps (pd₀ : ParserData) : TokenSteps (SameSource pd₀) where
  moves pd pd' h hmoves := by
    refine ⟨?_, ?_⟩
    · rw [hmoves.docinfo]
      exact h.uri
    · rw [hmoves.config]
      exact h.files
  autoMetaname _ _ _ h hok := by
    obtain ⟨config, hnew, rfl⟩ := autoMetaname_new hok
    exact ⟨h.uri, h.files.trans (metanameNew_files hnew)⟩
  autoProperty _ _ _ h hok := by
    rcases autoProperty_new hok with rfl | ⟨config, hnew, rfl⟩
    · exact h
    · exact ⟨h.uri, h.files.trans (propertyNew_files hnew)⟩
  tokenize _ _ _ _ h hok := by
    obtain ⟨tokens, nwords, rfl⟩ := tokenizeBuffer_ok hok
    exact ⟨h.uri, h.files⟩

theorem flushHead_source (h : flushHead pd = .ok pd') : SameSource pd pd' :=
  (source_tokenSteps pd).flushHead (.refl pd) h

theorem saxEvent_source {xinclude : ParserData → XmlStr → Bool → Swish ParserData}
    (hx : ∀ pd uri isText pd', xinclude pd uri isText = .ok pd' → SameSource pd pd')
    {e : SaxEvent} (h : saxEvent env xinclude pd e = .ok pd') : SameSource pd pd' :=
  (source_tokenSteps pd).saxEvent (hx pd) (.refl pd) h

theorem docparser_source {step : ParserData → SaxEvent → Swish ParserData}
    (hstep : ∀ pd e pd', step pd e = .ok pd' → SameSource pd pd')
    (h : docparser env step pd filename = .ok pd') : SameSource pd pd' := by
  refine (source_tokenSteps pd).docparser ?_ ?_ (.refl pd) h
  · intro pd₁ size hsource
    exact ⟨hsource.uri, hsource.files⟩
  · intro pd₁ e pd₂ hsource hok
    exact hsource.trans (hstep _ _ _ hok)

theorem processXinclude_source {step : ParserData → SaxEvent → Swish ParserData}
    (hstep : ∀ pd e pd', step pd e = .ok pd' → SameSource pd pd') {uri : XmlStr} {isText : Bool}
    (h : processXinclude env step pd uri isText = .ok pd') : SameSource pd pd' := by
  rcases processXinclude_ok h with ⟨parent, hflush, rfl⟩ | ⟨parent, child, merged, hin, hmerge, rfl⟩
  · have hflushed := flushHead_source hflush
    exact ⟨hflushed.uri, hflushed.files⟩
  · obtain ⟨hflush, xuri, docinfo, -, hparse⟩ := hin.parse
    have hflushed := flushHead_source hflush
    have hchild := docparser_source hstep hparse
    obtain ⟨-, tokens, -, rfl⟩ := xincludeHandler_ok hmerge
    exact ⟨hflushed.uri, hflushed.files.trans hchild.files⟩

theorem xincludeDeep_source {fuel : Nat} {uri : XmlStr} {isText : Bool}
    (h : xincludeDeep env fuel pd uri isText = .ok pd') : SameSource pd pd' := by
  induction fuel generalizing pd uri isText pd' with
  | zero => cases h
  | succ fuel ih =>
      exact processXinclude_source
        (fun _ _ _ => saxEvent_source fun _ _ _ _ hinclude => ih hinclude) h

theorem saxStep_source {fuel : Nat} {e : SaxEvent} (h : saxStep env fuel pd e = .ok pd') :
    SameSource pd pd' :=
  saxEvent_source (fun _ _ _ _ hinclude => xincludeDeep_source hinclude) h

end Callbacks

/-! ## A bound on the calls -/

/-- A parser that starts on a file. -/
structure StartsOn (env : SaxEnv) (config : Config) (filename : XmlStr) (pd : ParserData) :
    Prop where
  docinfo : docinfoFromFilesystem env config filename = .ok (some pd.docinfo)
  files : SameFiles config pd.config

theorem StartsOn.uri (h : StartsOn env config filename pd) : pd.docinfo.uri = filename := by
  obtain ⟨mime, parser, ext, isGzipped, hdocinfo⟩ := docinfoFromFilesystem_ok h.docinfo
  rw [hdocinfo]

theorem StartsOn.includedFiles (h : StartsOn env config filename pd) :
    includedFiles env config filename =
      (documentEvents env pd.docinfo filename).filterMap fun e =>
        match includedBy env pd e with
        | some (uri, false) => (xincludeUri env pd uri).toOption
        | _ => none := by
  have hsource : SameSource (initParserData config .idle pd.docinfo) pd := ⟨rfl, h.files⟩
  simp only [LibSwish3.includedFiles, h.docinfo, hsource.includedBy, hsource.xincludeUri]

/-- A text has no events. -/
theorem documentEvents_text (docinfo : DocInfo) (filename : XmlStr) :
    documentEvents env { docinfo with parser := Swish.parserTxt } filename = [] := by
  rw [documentEvents]
  split
  · rfl
  · rfl

/-- What is parsed without events is parsed alone. -/
theorem docparserCalls_of_no_events {fuel : Nat}
    (h : documentEvents env pd.docinfo filename = []) :
    docparserCalls env fuel pd filename = 1 := by
  cases fuel with
  | zero => rfl
  | succ fuel => rw [docparserCalls, h, cost_nil]

theorem documentStart_source (pd : ParserData) (filename : XmlStr) :
    SameSource pd (documentStart env pd filename) := by
  simp only [documentStart]
  split
  · exact .refl _
  · split
    · exact ⟨rfl, .refl _⟩
    · exact ⟨rfl, .refl _⟩

/-- What is called is a text, or a file that is included as XML. -/
theorem eventCall_cases {pd₀ child : ParserData} {xuri : XmlStr} {e : SaxEvent}
    (hstart : StartsOn env config filename pd₀) (hsource : SameSource pd₀ pd)
    (he : e ∈ documentEvents env pd₀.docinfo filename)
    (h : eventCall env pd e = some (child, xuri)) :
    documentEvents env child.docinfo xuri = [] ∨
      IncludesXml env config filename xuri ∧ StartsOn env config xuri child := by
  unfold eventCall at h
  split at h
  · cases h
  · rename_i uri isText hincluded
    split at h
    · rename_i parent call hcall
      obtain ⟨xuri', huri, hcall⟩ := bind_ok_iff.mp hcall
      obtain ⟨flushed, hflush, hcall⟩ := bind_ok_iff.mp hcall
      obtain ⟨docinfo, hdocinfo, hcall⟩ := bind_ok_iff.mp hcall
      have hfiles : SameFiles config flushed.config :=
        (hstart.files.trans hsource.files).trans (flushHead_source hflush).files
      cases docinfo with
      | none =>
          cases hcall
          cases h
      | some docinfo =>
          cases hcall
          cases h
          cases isText with
          | true => exact .inl (documentEvents_text docinfo xuri)
          | false =>
              rw [hfiles.docinfo] at hdocinfo
              refine .inr ⟨?_, hdocinfo, hfiles⟩
              rw [IncludesXml, hstart.includedFiles]
              rw [hsource.includedBy] at hincluded
              rw [hsource.xincludeUri] at huri
              refine List.mem_filterMap.mpr ⟨e, he, ?_⟩
              rw [hincluded]
              simp only [huri]
              rfl
    · cases h

/-- A file that is included as XML, and exists, is called. -/
theorem eventCall_xml {parent : ParserData} {docinfo : DocInfo} {uri xuri : XmlStr} {e : SaxEvent}
    (hincluded : includedBy env pd e = some (uri, false))
    (huri : xincludeUri env pd uri = .ok xuri)
    (hflush : flushHead { pd with stash := some pd.self } = .ok parent)
    (hdocinfo : docinfoFromFilesystem env parent.config xuri = .ok (some docinfo)) :
    eventCall env pd e = some (initChildData parent docinfo, xuri) := by
  simp only [eventCall, hincluded, childCall, huri, ok_bind, hflush, hdocinfo,
    Bool.false_eq_true, if_false, pure_eq_ok]

/-- The calls of a file that no cycle of included files can be reached from are bounded,
however deep they may go. -/
theorem docparserCalls_bounded
    (h : Acc (fun included filename => IncludesXml env config filename included) filename) :
    ∃ n, ∀ fuel pd, StartsOn env config filename pd → docparserCalls env fuel pd filename ≤ n := by
  induction h with
  | intro filename _ ih =>
      choose! bound hbound using ih
      -- one bound for all the files included here
      obtain ⟨k, hk⟩ : ∃ k, ∀ g, IncludesXml env config filename g → bound g ≤ k :=
        ⟨((includedFiles env config filename).map bound).sum, fun g hg =>
          List.single_le_sum (fun _ _ => Nat.zero_le _) _ (List.mem_map_of_mem hg)⟩
      by_cases hexists : ∃ docinfo, docinfoFromFilesystem env config filename = .ok (some docinfo)
      · obtain ⟨docinfo, hdocinfo⟩ := hexists
        refine ⟨1 + (documentEvents env docinfo filename).length * (k + 1), ?_⟩
        intro fuel pd hstart
        have heq : pd.docinfo = docinfo := by
          have hboth := hstart.docinfo.symm.trans hdocinfo
          simpa using hboth
        cases fuel with
        | zero =>
            rw [docparserCalls]
            omega
        | succ fuel =>
            rw [docparserCalls, heq]
            refine Nat.add_le_add_left (cost_le (I := SameSource pd) ?_ ?_ ?_) 1
            · intro pd₁ e pd₂ hsource hok
              exact hsource.trans (saxStep_source hok)
            · intro pd₁ e hsource he
              cases hcall : eventCall env pd₁ e with
              | none => exact Nat.zero_le _
              | some call =>
                  obtain ⟨child, xuri⟩ := call
                  rw [← heq] at he
                  rcases eventCall_cases hstart hsource he hcall with htext | ⟨hxml, hchild⟩
                  · simp only [docparserCalls_of_no_events htext]
                    omega
                  · have hle := (hbound xuri hxml fuel child hchild).trans (hk xuri hxml)
                    simp only
                    omega
            · exact documentStart_source pd filename
      · refine ⟨0, fun fuel pd hstart => ?_⟩
        exact absurd ⟨_, hstart.docinfo⟩ hexists

/-- Among finitely many files, those that no cycle can be reached from have no infinite chain
of included files. -/
theorem acc_of_acyclic {r : XmlStr → XmlStr → Prop} {files : Finset XmlStr}
    (hclosed : ∀ f ∈ files, ∀ g, r f g → g ∈ files) (hmem : filename ∈ files)
    (hacyclic : ∀ g, Relation.ReflTransGen r filename g → ¬ Relation.TransGen r g g) :
    Acc (fun g f => r f g) filename := by
  let Reached := { g // Relation.ReflTransGen r filename g }
  have hfiles : ∀ g, Relation.ReflTransGen r filename g → g ∈ files := by
    intro g hg
    induction hg with
    | refl => exact hmem
    | tail _ hstep ih => exact hclosed _ ih _ hstep
  have : Finite Reached := Set.Finite.subset files.finite_toSet hfiles
  let below : Reached → Reached → Prop := fun g f => Relation.TransGen r f.1 g.1
  have : IsTrans Reached below := ⟨fun _ _ _ h h' => h'.trans h⟩
  have : Std.Irrefl below := ⟨fun g hg => hacyclic g.1 g.2 hg⟩
  have hwf : WellFounded below := Finite.wellFounded_of_trans_of_irrefl below
  have hacc : ∀ f : Reached, Acc (fun g f => r f g) f.1 := by
    intro f
    induction f using hwf.induction with
    | _ f ih => exact ⟨_, fun g hg => ih ⟨g, f.2.tail hg⟩ (.single hg)⟩
  exact hacc ⟨filename, .refl⟩

/-! ## Files that include each other -/

/-- The XML documents of a directory: their names, texts and events. -/
def SaxEnv.ofFiles (files : List (XmlStr × XmlStr × List SaxEvent)) : SaxEnv :=
  let text := fun name => ((files.find? fun file => file.1 = name).map fun file => file.2.1).getD []
  { SaxEnv.alone with
    isXincludeNs := fun ns => ns == lit "http://www.w3.org/2001/XInclude"
    fileExists := fun name => files.any fun file => file.1 = name
    fileSize := fun name => (text name).length
    slurpFile := text
    xmlParseDocument := fun buffer =>
      ((files.find? fun file => file.2.1 = buffer).map fun file => file.2.2).getD [] }

/-- The start of an XInclude element. -/
def includeStart (attributes : List (XmlStr × XmlStr)) : SaxEvent :=
  .startElementNs (lit "include") (some (lit "xi")) (some (lit "http://www.w3.org/2001/XInclude"))
    attributes

/-- The events of a document that is one XInclude element. -/
def includeEvents (attributes : List (XmlStr × XmlStr)) : List SaxEvent :=
  [.startDocument, includeStart attributes, .endElementNs (lit "include") (some (lit "xi")),
    .endDocument]

theorem mimeDefaults_xml : mimeDefaults.lookup (lit "xml") = some (lit "application/xml") := by
  rw [mimeDefaults, AList.lookup_to_alist]
  decide +kernel

theorem mimeGetType_xml :
    mimeGetType (configSetDefault (lit "C")) (some (lit "xml")) = lit "application/xml" := by
  have hlookup : (configSetDefault (lit "C")).mimes.lookup (lit "xml") =
      some (lit "application/xml") := mimeDefaults_xml
  simp only [mimeGetType, hlookup, Option.getD_some]

theorem mimeGetParser_xml :
    mimeGetParser (configSetDefault (lit "C")) (lit "application/xml") = .ok Swish.parserXml := by
  rfl

theorem docinfoFromFilesystem_plain {mime parser : XmlStr}
    (hmime : mimeGetType config (some (lit "xml")) = mime)
    (hparser : mimeGetParser config mime = .ok parser)
    (hext : fsGetFileExt env.loc filename = .ok (some (lit "xml")))
    (hexists : env.fileExists filename = true) :
    docinfoFromFilesystem env config filename =
      .ok (some ⟨filename, env.fileSize filename, 0, mime, parser, some (lit "xml"), false⟩) := by
  have hgz : (some (lit "xml") == some (lit "gz")) = false := by decide
  simp only [docinfoFromFilesystem, hext, ok_bind, hgz, Bool.false_eq_true, if_false,
    pure_eq_ok, hexists, if_true, hmime, hparser]

/-- With the default config, a file whose name ends in `xml` is an XML document. -/
theorem docinfoFromFilesystem_xml (hext : fsGetFileExt env.loc filename = .ok (some (lit "xml")))
    (hexists : env.fileExists filename = true) :
    docinfoFromFilesystem env (configSetDefault (lit "C")) filename =
      .ok (some ⟨filename, env.fileSize filename, 0, lit "application/xml", Swish.parserXml,
        some (lit "xml"), false⟩) :=
  docinfoFromFilesystem_plain mimeGetType_xml mimeGetParser_xml hext hexists

/-- A parser with the default config that has not parsed anything yet. -/
def Unused (docinfo : DocInfo) (pd : ParserData) : Prop :=
  ∃ self stash, pd =
    { initParserData (configSetDefault (lit "C")) .idle docinfo with self, stash }

theorem Unused.flushHead {docinfo : DocInfo} (h : Unused docinfo pd) :
    ∃ parent, flushHead { pd with stash := some pd.self } = .ok parent ∧
      parent.config = configSetDefault (lit "C") ∧
      ∀ docinfo, Unused docinfo (initChildData parent docinfo) := by
  obtain ⟨self, stash, rfl⟩ := h
  obtain ⟨parent, hflush, -⟩ := exists_ok_of_map (f := fun _ => ()) (show
    ((LibSwish3.flushHead { initParserData (configSetDefault (lit "C")) .idle docinfo with
      self, stash := some self }).toOption.map fun _ => ()) = some () from rfl)
  refine ⟨parent, hflush, ?_⟩
  obtain ⟨top, -, hflush⟩ := bind_ok_iff.mp hflush
  obtain ⟨metanames, tokens, nwords, rfl⟩ := flushBuffer_ok hflush
  exact ⟨rfl, fun docinfo' => ⟨self + 1, some self, rfl⟩⟩

/-- A file that includes itself. -/
def selfIncluding : SaxEnv := .ofFiles
  [(lit "/a.xml", lit "<xi:include xmlns:xi=\"http://www.w3.org/2001/XInclude\" href=\"/a.xml\"/>",
    includeEvents [(lit "href", lit "/a.xml")])]

/-- What is known of that file. -/
def selfIncludingDocinfo : DocInfo :=
  ⟨lit "/a.xml", 70, 0, lit "application/xml", Swish.parserXml, some (lit "xml"), false⟩

theorem selfIncluding_docinfo :
    docinfoFromFilesystem selfIncluding (configSetDefault (lit "C")) (lit "/a.xml") =
      .ok (some selfIncludingDocinfo) := by
  rw [docinfoFromFilesystem_xml (by decide) (by decide)]
  rfl

/-- Its start calls `docparser` on the file itself. -/
theorem selfIncluding_eventCall (h : Unused selfIncludingDocinfo pd) :
    ∃ child, eventCall selfIncluding pd (includeStart [(lit "href", lit "/a.xml")]) =
      some (child, lit "/a.xml") ∧ Unused selfIncludingDocinfo child := by
  obtain ⟨parent, hflush, hconfig, hchild⟩ := h.flushHead
  refine ⟨initChildData parent selfIncludingDocinfo, ?_, hchild _⟩
  have hincluded : includedBy selfIncluding pd (includeStart [(lit "href", lit "/a.xml")]) =
      some (lit "/a.xml", false) := by
    obtain ⟨self, stash, rfl⟩ := h
    rfl
  have huri : xincludeUri selfIncluding pd (lit "/a.xml") = .ok (lit "/a.xml") := by
    rw [xincludeUri, if_pos (by decide)]
  exact eventCall_xml hincluded huri hflush (by rw [hconfig, selfIncluding_docinfo])

/-- It is parsed once for every level. -/
theorem docparserCalls_selfIncluding (fuel : Nat) (h : Unused selfIncludingDocinfo pd) :
    fuel < docparserCalls selfIncluding fuel pd (lit "/a.xml") := by
  induction fuel generalizing pd with
  | zero => exact Nat.one_pos
  | succ fuel ih =>
      have hevents : documentEvents selfIncluding pd.docinfo (lit "/a.xml") =
          includeEvents [(lit "href", lit "/a.xml")] := by
        obtain ⟨self, stash, rfl⟩ := h
        rfl
      have hstart : documentStart selfIncluding pd (lit "/a.xml") = pd := by
        obtain ⟨self, stash, rfl⟩ := h
        rfl
      obtain ⟨child, hcall, hchild⟩ := selfIncluding_eventCall h
      have hdeep := ih hchild
      rw [docparserCalls, hevents, hstart, includeEvents, cost_cons_of_ok (t := pd) rfl, cost]
      simp only [hcall]
      omega

private theorem includedFiles_of_docinfo {docinfo : DocInfo} {gs : List XmlStr}
    (hdocinfo : docinfoFromFilesystem env config filename = .ok (some docinfo))
    (hfound : ((documentEvents env docinfo filename).filterMap fun e =>
      match includedBy env (initParserData config .idle docinfo) e with
      | some (uri, false) => (xincludeUri env (initParserData config .idle docinfo) uri).toOption
      | _ => none) = gs) :
    includedFiles env config filename = gs := by
  simp only [includedFiles, hdocinfo, hfound]

/-- A file that includes another, which includes the first as a text. -/
def includingBack : SaxEnv := .ofFiles
  [(lit "/a.xml", lit "<xi:include xmlns:xi=\"http://www.w3.org/2001/XInclude\" href=\"/b.xml\"/>",
    includeEvents [(lit "href", lit "/b.xml")]),
   (lit "/b.xml",
    lit "<xi:include xmlns:xi=\"http://www.w3.org/2001/XInclude\" href=\"/a.xml\" parse=\"text\"/>",
    includeEvents [(lit "href", lit "/a.xml"), (lit "parse", lit "text")])]

/-! ## The result -/

theorem parseFileCalls_of_docinfo {analyzer : Analyzer} {fuel : Nat} {docinfo : DocInfo}
    (h : docinfoFromFilesystem env config filename = .ok (some docinfo)) :
    parseFileCalls env config analyzer fuel filename =
      docparserCalls env fuel (initParserData config analyzer docinfo) filename := by
  simp only [parseFileCalls, h]

/-- For finitely many files, whatever XInclude elements they have: a file from which no file that
includes itself can be reached is parsed with finitely many calls of `docparser`. -/
theorem parseFileCalls_bounded {files : Finset XmlStr}
    (hclosed : ∀ f ∈ files, ∀ g, IncludesXml env config f g → g ∈ files) :
    ∀ f ∈ files,
      (∀ g, Relation.ReflTransGen (IncludesXml env config) f g →
        ¬ Relation.TransGen (IncludesXml env config) g g) →
      ∃ n, ∀ analyzer fuel, parseFileCalls env config analyzer fuel f ≤ n := by
  intro f hmem hacyclic
  obtain ⟨n, hn⟩ := docparserCalls_bounded (acc_of_acyclic hclosed hmem hacyclic)
  refine ⟨n, fun analyzer fuel => ?_⟩
  rw [parseFileCalls]
  split
  · rename_i docinfo hdocinfo
    exact hn fuel _ ⟨hdocinfo, .refl _⟩
  · exact Nat.zero_le n

theorem parseFileCalls_includingBack :
    ∃ n, ∀ analyzer fuel,
      parseFileCalls includingBack (configSetDefault (lit "C")) analyzer fuel (lit "/a.xml") ≤
        n := by
  have hfirst : includedFiles includingBack (configSetDefault (lit "C")) (lit "/a.xml") =
      [lit "/b.xml"] :=
    includedFiles_of_docinfo (docinfoFromFilesystem_xml (by decide) (by decide)) rfl
  have hsecond : includedFiles includingBack (configSetDefault (lit "C")) (lit "/b.xml") = [] :=
    includedFiles_of_docinfo (docinfoFromFilesystem_xml (by decide) (by decide)) rfl
  have hstep : ∀ f g, IncludesXml includingBack (configSetDefault (lit "C")) f g →
      f = lit "/a.xml" ∨ f = lit "/b.xml" → f = lit "/a.xml" ∧ g = lit "/b.xml" := by
    rintro f g hincludes (rfl | rfl)
    · rw [IncludesXml, hfirst] at hincludes
      exact ⟨rfl, List.mem_singleton.mp hincludes⟩
    · rw [IncludesXml, hsecond] at hincludes
      cases hincludes
  have hreached : ∀ g, Relation.ReflTransGen
      (IncludesXml includingBack (configSetDefault (lit "C"))) (lit "/a.xml") g →
      g = lit "/a.xml" ∨ g = lit "/b.xml" := by
    intro g hg
    induction hg with
    | refl => exact .inl rfl
    | tail _ hincludes ih => exact .inr (hstep _ _ hincludes ih).2
  refine @parseFileCalls_bounded _ _ {lit "/a.xml", lit "/b.xml"} ?_ _ (by simp) ?_
  · intro f hf g hg
    have hf' : f = lit "/a.xml" ∨ f = lit "/b.xml" := by simpa using hf
    rw [(hstep f g hg hf').2]
    simp
  · intro g hg hcycle
    obtain ⟨g', hhead, htail⟩ := Relation.TransGen.head'_iff.mp hcycle
    obtain ⟨rfl, rfl⟩ := hstep g g' hhead (hreached g hg)
    rcases htail.cases_head with heq | ⟨g'', hnext, -⟩
    · exact absurd heq (by decide)
    · exact absurd (hstep _ g'' hnext (.inr rfl)).1 (by decide)

/-- No number bounds the calls that it takes to parse a file that includes itself. -/
theorem parseFileCalls_selfIncluding :
    (configSetDefault (lit "C")).flags.followXinclude = true ∧
      (∀ f ∈ ({lit "/a.xml"} : Finset XmlStr), ∀ g,
        IncludesXml selfIncluding (configSetDefault (lit "C")) f g →
          g ∈ ({lit "/a.xml"} : Finset XmlStr)) ∧
      ∀ n, ∃ fuel, n < parseFileCalls selfIncluding (configSetDefault (lit "C")) .idle fuel
        (lit "/a.xml") := by
  have hfiles : includedFiles selfIncluding (configSetDefault (lit "C")) (lit "/a.xml") =
      [lit "/a.xml"] := includedFiles_of_docinfo selfIncluding_docinfo rfl
  refine ⟨rfl, ?_, fun n => ⟨n, ?_⟩⟩
  · intro f hf g hg
    rw [Finset.mem_singleton.mp hf, IncludesXml, hfiles] at hg
    exact Finset.mem_singleton.mpr (List.mem_singleton.mp hg)
  · rw [parseFileCalls_of_docinfo selfIncluding_docinfo]
    exact docparserCalls_selfIncluding n ⟨0, none, rfl⟩

end Bounds

end LibSwish3
