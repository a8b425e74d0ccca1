import LibSwish3.IndexFiles
import LibSwish3.PerlHeaders

/-!
# Messages that are indexed

The program hands the standard input to `swish_parse_fh`, which hands each message to the parser
and the parsed document to the handler.  What `SWISH::3::Headers` has written to it is then in the
index, one document for each URL.

## Main definitions

* `indexConsumer` — what the program does with a message.
* `parseStdin` — `swish_parse_fh` in the program.
* `WrittenByHeaders`, `streamUrls` — what `SWISH::3::Headers` writes, and what it names.
* `parseStdin_documents`.
-/

namespace LibSwish3

open Runs Tables

/-- The docinfo that the parser is given; `swish_docinfo_check` has filled it in. -/
def HeadInfo.docinfo (info : HeadInfo) : DocInfo :=
  ⟨info.uri.getD [], info.size.toNat, 0, info.mime.getD [], info.parser.getD [], info.ext, false⟩

/-- The program takes a message: a docinfo, and what the parser made of it.  When something stops
the program in the handler, it does nothing any more. -/
def indexConsumer (env : ProgramEnv) :
    Consumer (HeadInfo × Option ParserData) (Except Stop (ProgramState env.index.xapian)) where
  initParserData docinfo := (docinfo, none)
  docparser data readBuffer _ app :=
    match app with
    | .error stop => .ok (0, data, .error stop)
    | .ok st => do
      -- `docparser` with the text in place of a file
      let pd ← docparser { env.sax with slurpFile := fun _ => readBuffer }
        (saxStep env.sax env.depth) (initParserData st.config env.analyzer data.1.docinfo) []
      pure (0, (data.1, some pd), .ok { st with config := pd.config })
  handler data app :=
    match data.2, app with
    | some pd, .ok st =>
      .ok ((handler env.index st.index ⟨pd, data.1.mtime⟩).map fun index => { st with index })
    | _, app => .ok app

/-- `swish_parse_fh` on the standard input: the number of messages, and the index.  Parsing leaves
the tables alone that `swish_docinfo_check` reads. -/
def parseStdin (env : ProgramEnv) (stdin : XmlStr) (st : ProgramState env.index.xapian) :
    Except Stop (UInt32 × ProgramState env.index.xapian) := do
  let (files, app) ← (parseFh env.sax.loc st.config (indexConsumer env) stdin (.ok st)).mapError
    .library
  let st ← app
  .ok (files, st)

/-! ## One document -/

section Document

variable {env : ProgramEnv} {config : Config} {doc : FilledDoc} {docs : List FilledDoc}
  {st st' : ProgramState env.index.xapian} {uris : XmlStr → Prop}
  {app : Except Stop (ProgramState env.index.xapian)}

theorem docinfoCheck_uri {loc : Locale} {info info' : HeadInfo}
    (h : docinfoCheck loc config info = .ok info') : info'.uri = info.uri ∧ info.uri.isSome := by
  unfold docinfoCheck at h
  cases huri : info.uri with
  | none => simp only [huri] at h; cases h
  | some uri =>
      simp only [huri] at h
      split_ifs at h
      · cases h
      · cases h
      · obtain ⟨ext, -, h⟩ := bind_ok_iff.mp h
        obtain ⟨parser, -, h⟩ := bind_ok_iff.mp h
        cases h
        exact ⟨rfl, rfl⟩

/-- A program that has stopped does nothing with a document. -/
theorem readDoc_of_stop {stop : Stop} {loc : Locale}
    (h : readDoc loc config (indexConsumer env) (.error stop) doc = .ok app) :
    app = .error stop := by
  obtain ⟨docinfo, -, h⟩ := bind_ok_iff.mp h
  obtain ⟨⟨res, app'⟩, hover, h⟩ := bind_ok_iff.mp h
  cases h
  cases hover
  rfl

/-- A document that is read is in the index, under its URL. -/
theorem HasUrisIfReplaced.readDoc {loc : Locale} {uri : XmlStr}
    (hX : env.index.xapian.Documented) (h : HasUrisIfReplaced env.index st.index uris)
    (huri : doc.option (lit "url") = some uri)
    (hok : LibSwish3.readDoc loc config (indexConsumer env) (.ok st) doc = .ok (.ok st')) :
    HasUrisIfReplaced env.index st'.index (fun u => uris u ∨ u = uri) := by
  obtain ⟨docinfo, hcheck, hok⟩ := bind_ok_iff.mp hok
  obtain ⟨⟨res, app⟩, hover, hok⟩ := bind_ok_iff.mp hok
  cases hok
  obtain ⟨⟨res', data, app'⟩, hparse, hover⟩ := bind_ok_iff.mp hover
  obtain ⟨pd, hpd, hparse⟩ := bind_ok_iff.mp hparse
  cases hparse
  obtain ⟨app'', hhandler, hover⟩ := bind_ok_iff.mp hover
  cases hover
  have hsame : pd.docinfo.uri = uri := by
    have hgrown := (extends_configInvariant st.config).docparser_of_step
      (fun _ _ _ hP hstep => (extends_configInvariant st.config).saxStep hP hstep) (.refl _) rfl hpd
    rw [hgrown.2]
    have hdocinfo : docinfo.uri = some uri := (docinfoCheck_uri hcheck).1.trans huri
    exact congrArg (Option.getD · []) hdocinfo
  have hhandle : (LibSwish3.handler env.index st.index ⟨pd, docinfo.mtime⟩).map
      (fun index => (⟨index, pd.config⟩ : ProgramState env.index.xapian)) = .ok st' :=
    Except.ok.inj hhandler
  cases hindex : LibSwish3.handler env.index st.index ⟨pd, docinfo.mtime⟩ with
  | error e => rw [hindex] at hhandle; cases hhandle
  | ok index =>
      rw [hindex] at hhandle
      cases hhandle
      rw [← hsame]
      exact fun hall => (h (hall.of_handler hindex)).handler hX (fun _ => hall) hindex

/-- Documents that are read are in the index, each under its URL. -/
theorem HasUrisIfReplaced.run_readDoc {loc : Locale} (hX : env.index.xapian.Documented)
    (h : HasUrisIfReplaced env.index st.index uris)
    (hurls : ∀ doc ∈ docs, (doc.option (lit "url")).isSome)
    (hok : Runs.run (LibSwish3.readDoc loc config (indexConsumer env)) (.ok st) docs =
      .ok (.ok st')) :
    HasUrisIfReplaced env.index st'.index
      (fun uri => uris uri ∨ ∃ doc ∈ docs, doc.option (lit "url") = some uri) := by
  induction docs generalizing st uris with
  | nil =>
      cases hok
      exact h.congr (by simp)
  | cons doc docs ih =>
      obtain ⟨app, hfirst, hrest⟩ := run_cons_ok_iff.mp hok
      obtain ⟨uri, huri⟩ := Option.isSome_iff_exists.mp (hurls doc List.mem_cons_self)
      cases app with
      | error stop =>
          -- The program has stopped, so the run cannot end well.
          have hstopped : Except.ok st' = Except.error stop :=
            invariant (I := (· = .error stop)) (fun t e u ht hstep => by
              subst ht
              exact readDoc_of_stop hstep) rfl hrest
          cases hstopped
      | ok st₁ =>
          have h₁ := h.readDoc hX huri hfirst
          refine (ih h₁ (fun d hd => hurls d (List.mem_cons_of_mem doc hd)) hrest).congr fun u => ?_
          simp only [List.mem_cons, exists_eq_or_imp, huri, Option.some.injEq, or_assoc,
            eq_comm (a := u)]

end Document

/-! ## A stream -/

section Stream

variable {env : ProgramEnv} {self : HeadersObject} {docs : List PerlDoc}
  {st st' : ProgramState env.index.xapian} {uris : XmlStr → Prop} {n : UInt32}

theorem parseStdin_nil (env : ProgramEnv) (st : ProgramState env.index.xapian) :
    parseStdin env [] st = .ok (0, st) := by
  simp [parseStdin, parseFh, fhLoop_nil, Except.mapError]

/-- The standard input is a stream that `SWISH::3::Headers` has written, of documents that can be
read back. -/
structure WrittenByHeaders (loc : Locale) (self : HeadersObject) (docs : List PerlDoc)
    (stdin : XmlStr) : Prop where
  stream : stdin = self.stream docs
  plain : ∀ doc ∈ self.filled docs, doc.Plain loc
  few : ∀ doc ∈ self.filled docs, doc.Few

/-- The URLs of the documents. -/
def streamUrls (self : HeadersObject) (docs : List PerlDoc) (uri : XmlStr) : Prop :=
  ∃ doc ∈ self.filled docs, doc.option (lit "url") = some uri

theorem HasUrisIfReplaced.parseStdin {stdin : XmlStr} (hX : env.index.xapian.Documented)
    (h : HasUrisIfReplaced env.index st.index uris)
    (hdefault : (st.config.parsers.lookup Swish.defaultParser).isSome)
    (hstdin : WrittenByHeaders env.sax.loc self docs stdin)
    (hrun : LibSwish3.parseStdin env stdin st = .ok (n, st')) :
    n = UInt32.ofNat docs.length ∧ HasUrisIfReplaced env.index st'.index
      (fun uri => uris uri ∨ streamUrls self docs uri) := by
  obtain ⟨rfl, hplain, hfew⟩ := hstdin
  obtain ⟨⟨files, app⟩, hparse, hrun⟩ := bind_ok_iff.mp hrun
  obtain ⟨st₁, happ, hrun⟩ := bind_ok_iff.mp hrun
  cases hrun
  cases happ
  rw [mapError_ok_iff, parseFh, stream_eq,
    fhLoop_docs hdefault hplain hfew (Nat.lt_succ_self _)] at hparse
  obtain ⟨app, hread, hparse⟩ := bind_ok_iff.mp hparse
  cases hparse
  have hurls : ∀ doc ∈ self.filled docs, (doc.option (lit "url")).isSome := by
    intro doc hdoc
    obtain ⟨url, hurl, -⟩ := (hplain doc hdoc).url
    exact Option.isSome_iff_exists.mpr ⟨url, hurl⟩
  exact ⟨by rw [UInt32.zero_add, length_filled], h.run_readDoc hX hurls hread⟩

/-- The program reads a stream that `SWISH::3::Headers` has written, counts its documents in 32
bits, and has one document in the index for each of their URLs, if no replacing has thrown. -/
theorem parseStdin_documents {stdin : XmlStr} (hX : env.index.xapian.Documented)
    (h : HasUris env.index st.index uris) (hall : AllReplaced st'.index)
    (hdefault : (st.config.parsers.lookup Swish.defaultParser).isSome)
    (hstdin : WrittenByHeaders env.sax.loc self docs stdin)
    (hrun : parseStdin env stdin st = .ok (n, st')) :
    n = UInt32.ofNat docs.length ∧
    (∀ uri, uris uri ∨ streamUrls self docs uri ↔
      ∃ i doc, env.index.xapian.document st'.index.wdb i = some doc ∧ doc.uri = uri) ∧
    ∀ i i' doc doc', env.index.xapian.document st'.index.wdb i = some doc →
      env.index.xapian.document st'.index.wdb i' = some doc' → doc.uri = doc'.uri → i = i' := by
  have hbefore : HasUrisIfReplaced env.index st.index uris := fun _ => h
  obtain ⟨hcount, huris⟩ := hbefore.parseStdin hX hdefault hstdin hrun
  exact ⟨hcount, (huris hall).documents⟩

theorem writtenByHeaders_twoDocs : WrittenByHeaders .posix ⟨lit "3", 1300000000⟩ twoDocs
    ((⟨lit "3", 1300000000⟩ : HeadersObject).stream twoDocs) where
  stream := rfl
  plain := by decide +kernel
  few := by decide +kernel

theorem parseStdin_documents_twoDocs : ∃ st',
    parseStdin greetingEnv ((⟨lit "3", 1300000000⟩ : HeadersObject).stream twoDocs)
      greetingStart = .ok (2, st') ∧
    ∀ uri, False ∨ streamUrls ⟨lit "3", 1300000000⟩ twoDocs uri ↔
      ∃ i doc, plainIndexEnv.xapian.document st'.index.wdb i = some doc ∧ doc.uri = uri := by
  have hsaid : (parseStdin greetingEnv ((⟨lit "3", 1300000000⟩ : HeadersObject).stream twoDocs)
      greetingStart).toOption.map (fun out => out.2.index.outcomes) = some [.added, .added] := by
    decide +kernel
  obtain ⟨⟨n, st'⟩, hrun, hsaid⟩ := exists_ok_of_map hsaid
  have hall : AllReplaced st'.index := by
    rw [AllReplaced, hsaid]
    decide
  have hnew : HasUris greetingEnv.index greetingStart.index (fun _ => False) :=
    hasUris_created plainIndexEnv InMemory.documented false
  obtain ⟨rfl, huris, -⟩ := parseStdin_documents InMemory.documented hnew hall
    (by decide +kernel) writtenByHeaders_twoDocs hrun
  exact ⟨st', hrun, huris⟩

end Stream

end LibSwish3
