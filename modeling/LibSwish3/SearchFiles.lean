import LibSwish3.IndexFiles
import LibSwish3.ReceivedText

/-!
# What a search finds

The program parses plain XML files into a new index.  Then a word that is looked for under a name
finds the files in which that name receives it, all of them and no others: the parser's stacks and
buffers, the prefixes and ids of the names, and the terms of the index are not to be seen from
outside.

## Main definitions

* `PlainFile` — a file and its events.
* `Finds` — what a search for a term finds.
* `run_finds`.
-/

namespace LibSwish3

open Runs Segments Tables

/-- The file is an XML document with these events. -/
structure PlainFile (env : ProgramEnv) (config : Config) (filename : XmlStr)
    (events : List SaxEvent) : Prop where
  fileExists : env.sax.fileExists filename = true
  docinfo : ∃ docinfo, docinfoFromFilesystem env.sax config filename = .ok (some docinfo) ∧
    docinfo.parser.head? = some 88 ∧
    documentEvents env.sax docinfo filename = .startDocument :: (events ++ [.endDocument])
  plain : PlainDocument env.sax config [] events

/-- A search for a term finds the document of a file. -/
def Finds (env : ProgramEnv) (st : ProgramState env.index.xapian) (term filename : XmlStr) :
    Prop :=
  ∃ n doc, env.index.xapian.document st.index.wdb n = some doc ∧ doc.uri = filename ∧
    env.index.xapian.hasTerm doc term

/-- The documents have been made of the files under one config. -/
def MadeOf (env : ProgramEnv) (config : Config) (filenames : List XmlStr)
    (st : ProgramState env.index.xapian) : Prop :=
  st.config = config ∧ ∀ n doc, env.index.xapian.document st.index.wdb n = some doc →
    ∃ filename ∈ filenames, ∃ parsed,
      parsedFile env config filename = .ok (some parsed) ∧ newDocument env.index parsed = .ok doc

section Search

variable {env : ProgramEnv} {config : Config} {filename : XmlStr} {filenames : List XmlStr}
  {events : List SaxEvent} {eventsOf : XmlStr → List SaxEvent} {parsed : Parsed}
  {st st' : ProgramState env.index.xapian} {words : XmlStr → List XmlStr} {doc : Document}
  {name m termPrefix word : XmlStr} {skipDuplicates : Bool}

/-- A document that is parsed as XML starts from what its docinfo says. -/
theorem documentStart_xml (env : SaxEnv) (config : Config) (analyzer : Analyzer)
    {docinfo : DocInfo} (filename : XmlStr) (hxml : docinfo.parser.head? = some 88) :
    ∃ docinfo', documentStart env (initParserData config analyzer docinfo) filename =
      initParserData config analyzer docinfo' := by
  have hnot : ¬((initParserData config analyzer docinfo).docinfo.parser.head? = some 72 ∨
      (initParserData config analyzer docinfo).docinfo.parser.head? = some 104) := by
    change ¬(docinfo.parser.head? = some 72 ∨ docinfo.parser.head? = some 104)
    rw [hxml]
    decide
  rw [documentStart]
  split
  · exact ⟨docinfo, rfl⟩
  · simp only [if_neg hnot]
    exact ⟨_, rfl⟩

/-- A plain file leaves the config as it is, and each name the words that it receives. -/
theorem PlainFile.receives (h : PlainFile env config filename events)
    (hwords : SplitsWords words) (hc : SettledConfig config)
    (hparsed : parsedFile env config filename = .ok (some parsed)) :
    parsed.data.config = config ∧ parsed.data.docinfo.uri = filename ∧
      ∀ m, metanameStoredAs config m = .ok m →
        (0 : XmlChar) ∉ parsed.data.metanames.content m ∧
        ∀ word, word ∈ words (parsed.data.metanames.content m) ↔
          word ∈ words (receivedText config m [] events) := by
  have huri := (parsedFile_grown (extends_configInvariant config) (.refl _) hparsed).2
  obtain ⟨docinfo, hfound, hxml, hevents⟩ := h.docinfo
  obtain ⟨docinfo', hfound', hparse, -⟩ := parsedFile_ok hparsed
  cases hfound.symm.trans hfound'
  have hparse : run (saxStep env.sax env.depth) (documentStart env.sax
      (initParserData config env.analyzer docinfo) filename)
      (.startDocument :: (events ++ [.endDocument])) = .ok parsed.data := by
    rw [← hevents]
    refine (docparser_start ?_ _).symm.trans hparse
    change documentEvents env.sax docinfo filename ≠ []
    rw [hevents]
    exact List.cons_ne_nil _ _
  obtain ⟨docinfo', hstart⟩ := documentStart_xml env.sax config env.analyzer filename hxml
  obtain ⟨pd, hfirst, hrun⟩ := run_cons_ok_iff.mp hparse
  cases hfirst
  rw [hstart] at hrun
  obtain ⟨hconfig, hreceives⟩ := receives_of_run hwords hc h.plain
    (receiving_initParserData hwords env.analyzer docinfo') hrun
  exact ⟨hconfig, huri, hreceives⟩

/-! ## The index -/

theorem indexFile_madeOf (hX : env.index.xapian.Documented) (hwords : SplitsWords words)
    (hc : SettledConfig config) (h : MadeOf env config filenames st)
    (hplain : PlainFile env config filename events) (hmem : filename ∈ filenames)
    (hok : indexFile env st filename = .ok st') : MadeOf env config filenames st' := by
  obtain ⟨rfl, hmade⟩ := h
  rcases indexFile_cases hok with ⟨-, rfl⟩ | ⟨parsed, hparsed, hstep, hconfig⟩
  · exact ⟨rfl, hmade⟩
  · refine ⟨hconfig.trans (hplain.receives hwords hc hparsed).1, ?_⟩
    apply indexStep_each hX hmade ?_ hstep
    intro parsed' doc heq hdoc
    cases heq
    exact ⟨filename, hmem, parsed, hparsed, hdoc⟩

theorem run_madeOf (hX : env.index.xapian.Documented) (hwords : SplitsWords words)
    (hc : SettledConfig config)
    (hplain : ∀ filename ∈ filenames, PlainFile env config filename (eventsOf filename))
    (hrun : run (indexFile env)
      ⟨openWriteableIndex env.index.xapian true skipDuplicates env.index.xapian.created, config⟩
      filenames = .ok st) : MadeOf env config filenames st := by
  refine invariant_of_steps (C := fun _ filename => filename ∈ filenames) ?_ ⟨rfl, ?_⟩
    (steps_of_forall fun _ hmem => hmem) hrun
  · intro st₁ filename st₂ h hmem hok
    exact indexFile_madeOf hX hwords hc h (hplain filename hmem) hmem hok
  · intro n doc hget
    cases (hX.created n).symm.trans hget

/-- A buffer has the words of its content. -/
theorem mem_words_content {nb : NamedBuffer} (hwords : SplitsWords words)
    (hnul : (0 : XmlChar) ∉ nb.content m) :
    (∃ buffer, nb.lookup m = some buffer ∧ word ∈ words (cstr buffer)) ↔
      word ∈ words (nb.content m) := by
  rw [NamedBuffer.content] at hnul ⊢
  cases hbuffer : nb.lookup m with
  | none => simp [hwords.nil]
  | some buffer =>
      rw [hbuffer] at hnul
      have hcstr : cstr buffer = buffer := cstr_of_noNul hnul
      simp [hcstr]

/-! ## Searching -/

/-- What a plain file makes of a document. -/
structure FileDocument (env : ProgramEnv) (config : Config) (events : List SaxEvent)
    (doc : Document) : Prop where
  /-- The words under the prefix of a name that is no alias. -/
  named : ∀ name m word, config.metanames.lookup name = some m →
    metanameStoredAs config name = .ok name →
    (env.index.xapian.hasTerm doc (metaPrefix m.id ++ word) ↔
      word ∈ env.index.xapian.words (receivedText config name [] events))
  /-- The words without a prefix. -/
  plain : (∀ m ∈ [Swish.defaultMetaname, Swish.titleMetaname], metanameStoredAs config m = .ok m) →
    ∀ text, ∀ word ∈ env.index.xapian.words text,
    (env.index.xapian.hasTerm doc word ↔
      ∃ m ∈ [Swish.defaultMetaname, Swish.titleMetaname],
        word ∈ env.index.xapian.words (receivedText config m [] events))

theorem PlainFile.fileDocument (hX : env.index.xapian.Documented)
    (hwords : SplitsWords env.index.xapian.words) (hids : UniqueIds config)
    (hc : SettledConfig config) (h : PlainFile env config filename events)
    (hparsed : parsedFile env config filename = .ok (some parsed))
    (hdoc : newDocument env.index parsed = .ok doc) :
    doc.uri = filename ∧ FileDocument env config events doc := by
  obtain ⟨hconfig, huri, hreceives⟩ := h.receives hwords hc hparsed
  have hmade := newDocument_ok hdoc
  refine ⟨hmade.uri_eq.trans huri, ?_, ?_⟩
  · intro name m word hm hstored
    obtain ⟨hnul, hcontent⟩ := hreceives name hstored
    have hkept : KeepsIds parsed.data.config config := hconfig ▸ (Extends.refl _).keepsIds
    rw [hmade.hasTerm_kept_iff hX hids hkept hm, mem_words_content hwords hnul, hcontent]
  · intro hown text word hword
    rw [hmade.hasTerm_word_iff hX (hX.words_colon text word hword)
      (hX.words_lower text word hword)]
    apply exists_congr
    intro m
    apply and_congr_right
    intro hm
    obtain ⟨hnul, hcontent⟩ := hreceives m (hown m hm)
    rw [mem_words_content hwords hnul, hcontent]

/-- What a search finds in an index that was made from plain files. -/
structure FindsWords (env : ProgramEnv) (config : Config) (filenames : List XmlStr)
    (eventsOf : XmlStr → List SaxEvent) (st : ProgramState env.index.xapian) : Prop where
  /-- Under a name: the files in which the name that stands for it receives the word. -/
  named : ∀ name m storedAs termPrefix, config.metanames.lookup name = some m →
    metanameStoredAs config name = .ok storedAs → metanameStoredAs config storedAs = .ok storedAs →
    addPrefix config m = .ok termPrefix → ∀ word filename,
    (Finds env st (termPrefix ++ word) filename ↔ filename ∈ filenames ∧
      word ∈ env.index.xapian.words (receivedText config storedAs [] (eventsOf filename)))
  /-- Without a name: those in which `swishdefault` or `swishtitle` does. -/
  plain : (∀ m ∈ [Swish.defaultMetaname, Swish.titleMetaname], metanameStoredAs config m = .ok m) →
    ∀ text, ∀ word ∈ env.index.xapian.words text, ∀ filename,
    (Finds env st word filename ↔ filename ∈ filenames ∧
      ∃ m ∈ [Swish.defaultMetaname, Swish.titleMetaname],
        word ∈ env.index.xapian.words (receivedText config m [] (eventsOf filename)))

/-- A search finds the files whose documents have the term, as each file has one. -/
theorem finds_iff {term : XmlStr} {P : XmlStr → Prop}
    (hfiles : ∀ filename, filename ∈ filenames ↔
      ∃ n doc, env.index.xapian.document st.index.wdb n = some doc ∧ doc.uri = filename)
    (hdoc : ∀ n doc, env.index.xapian.document st.index.wdb n = some doc →
      (env.index.xapian.hasTerm doc term ↔ P doc.uri)) (filename : XmlStr) :
    Finds env st term filename ↔ filename ∈ filenames ∧ P filename := by
  constructor
  · rintro ⟨n, doc, hget, rfl, hterm⟩
    exact ⟨(hfiles doc.uri).mpr ⟨n, doc, hget, rfl⟩, (hdoc n doc hget).mp hterm⟩
  · rintro ⟨hmem, hP⟩
    obtain ⟨n, doc, hget, rfl⟩ := (hfiles filename).mp hmem
    exact ⟨n, doc, hget, rfl, (hdoc n doc hget).mpr hP⟩

/-- After a run over plain files in a new index a search finds all the files in which the name
receives the word, and no others. -/
theorem run_finds (hX : env.index.xapian.Documented)
    (hwords : SplitsWords env.index.xapian.words) (hids : UniqueIds config)
    (hc : SettledConfig config) (honce : filenames.Nodup ∨ AllReplaced st.index)
    (hplain : ∀ filename ∈ filenames, PlainFile env config filename (eventsOf filename))
    (hrun : run (indexFile env)
      ⟨openWriteableIndex env.index.xapian true skipDuplicates env.index.xapian.created, config⟩
      filenames = .ok st) : FindsWords env config filenames eventsOf st := by
  obtain ⟨-, hmade⟩ := run_madeOf hX hwords hc hplain hrun
  have hfiles : ∀ filename, filename ∈ filenames ↔
      ∃ n doc, env.index.xapian.document st.index.wdb n = some doc ∧ doc.uri = filename := by
    intro filename
    rw [← (documents_of_run hX honce hrun).documents.1]
    exact ⟨fun hmem => ⟨hmem, (hplain filename hmem).fileExists⟩, fun h => h.1⟩
  have hdocument : ∀ n doc, env.index.xapian.document st.index.wdb n = some doc →
      FileDocument env config (eventsOf doc.uri) doc := by
    intro n doc hget
    obtain ⟨filename, hmem, parsed, hparsed, hdoc⟩ := hmade n doc hget
    obtain ⟨huri, hdocument⟩ :=
      (hplain filename hmem).fileDocument hX hwords hids hc hparsed hdoc
    rwa [huri]
  constructor
  · intro name m storedAs termPrefix hm hstored hown hquery word
    obtain ⟨m', hm', rfl⟩ := addPrefix_ok hm hstored hquery
    apply finds_iff hfiles
    intro n doc hget
    exact (hdocument n doc hget).named storedAs m' word hm' hown
  · intro hown text word hword
    apply finds_iff hfiles
    intro n doc hget
    exact (hdocument n doc hget).plain hown text word hword

end Search

/-! ## A word in a file -/

theorem PlainConfig.settled {c : Config} (hc : PlainConfig c) : SettledConfig c :=
  ⟨hc.default_mem, hc.undefMetas, hc.metaDot, hc.propDot⟩

theorem not_alnum_of_isspace {b : XmlChar} (hspace : isspace b = true) :
    ¬(48 ≤ tolower b ∧ tolower b ≤ 57 ∨ 97 ≤ tolower b ∧ tolower b ≤ 122) := by
  simp only [isspace, Bool.or_eq_true, Bool.and_eq_true, decide_eq_true_eq] at hspace
  have hcase : tolower b = b := by
    rw [tolower, if_neg]
    grind
  rw [hcase]
  grind

/-- The library in memory splits a text at what is no letter or digit. -/
theorem InMemory.splitsWords : SplitsWords InMemory.words where
  blank text hblank := by
    rw [List.eq_nil_iff_forall_not_mem]
    intro word hword
    obtain ⟨hne, hplain⟩ := words_plain hword
    rw [words, List.mem_filter, ← map_fst_segments, List.mem_map] at hword
    obtain ⟨⟨⟨run, atEnd⟩, hmem, rfl⟩, -⟩ := hword
    obtain ⟨pre, post, htext, -, -⟩ := mem_segments_iff.mp hmem
    obtain ⟨c, hc⟩ := List.exists_mem_of_ne_nil run hne
    have hmem : c ∈ text.map tolower := by
      rw [htext]
      simp [hc]
    obtain ⟨b, hb, rfl⟩ := List.mem_map.mp hmem
    exact not_alnum_of_isspace (List.all_eq_true.mp hblank b hb) (hplain _ hc)
  bumper s t word := by
    have hmap : (s ++ Swish.tokenposBumper ++ t).map tolower =
        s.map tolower ++ 3 :: t.map tolower := by
      simp [Swish.tokenposBumper]
      rfl
    rw [words, words, words, hmap, List.splitOnP_append_cons _ _ (by decide), List.filter_append,
      List.mem_append]

/-- The events of the greeting. -/
def greetingEvents : List SaxEvent :=
  [.startElementNs (lit "greeting") none none [], .characters (lit "Hello world"),
    .endElementNs (lit "greeting") none]

theorem plainFile_greeting :
    PlainFile greetingEnv (configSetDefault (lit "C")) (lit "/a.xml") greetingEvents where
  fileExists := by decide
  docinfo := ⟨_, docinfoFromFilesystem_xml rfl (by decide), rfl, rfl⟩
  plain := ⟨⟨rfl, by decide, by decide +kernel, by decide +kernel⟩, ⟨by decide, by decide⟩,
    [], rfl, rfl⟩

theorem run_finds_greeting : ∃ st,
    run (indexFile greetingEnv) greetingStart [lit "/a.xml"] = .ok st ∧
      FindsWords greetingEnv (configSetDefault (lit "C")) [lit "/a.xml"] (fun _ => greetingEvents)
        st ∧
      Finds greetingEnv st (lit "world") (lit "/a.xml") := by
  obtain ⟨st, doc, hrun, -⟩ := greeting_indexed
  have hfinds : FindsWords greetingEnv (configSetDefault (lit "C")) [lit "/a.xml"]
      (fun _ => greetingEvents) st := by
    refine run_finds InMemory.documented InMemory.splitsWords (uniqueIds_configSetDefault _)
      (plainConfig_of_entries (defaultMetaname_mem _) rfl rfl (by decide +kernel)
        (by decide +kernel)).settled (.inl (by decide)) ?_ hrun
    intro filename hmem
    rw [List.mem_singleton.mp hmem]
    exact plainFile_greeting
  refine ⟨st, hrun, hfinds, ?_⟩
  refine (hfinds.plain ?_ (lit "world") (lit "world") (by decide) (lit "/a.xml")).mpr ?_
  · decide +kernel
  · decide +kernel

end LibSwish3
