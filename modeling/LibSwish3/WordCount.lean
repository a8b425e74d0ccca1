import LibSwish3.Sax
import LibSwish3.TokenizerRules

/-!
# Words and included documents

With the tokenizer of the library, the number of words of a document is the number of tokens
of its parser: both grow by the same amount at every flush, and when an included document is
merged.  Merging appends the tokens of the included document to those of the including one,
and `s3->stash` is what it was.

## Main definitions

* `Counted` — what no call changes about the words of a parser.
* `Token.entry` — what merging keeps of a token.
* `words_counted` — the result.
-/

namespace LibSwish3

open Runs Tables

/-! ## Words -/

/-- What a parser has become of `pd₀`: the same parser with the same stash and analyzer, whose
tokens have been added to and counted. -/
structure Counted (pd₀ pd : ParserData) : Prop where
  self : pd.self = pd₀.self
  stash : pd.stash = pd₀.stash
  analyzer : pd.analyzer = pd₀.analyzer
  tokens : pd₀.tokens.tokens <+: pd.tokens.tokens
  words : pd₀.docinfo.nwords = pd₀.tokens.n → pd.docinfo.nwords = pd.tokens.n

theorem Counted.refl (pd : ParserData) : Counted pd pd :=
  ⟨rfl, rfl, rfl, List.prefix_refl _, id⟩

theorem Counted.trans {pd₁ pd₂ pd₃ : ParserData} (h : Counted pd₁ pd₂) (h' : Counted pd₂ pd₃) :
    Counted pd₁ pd₃ where
  self := h'.self.trans h.self
  stash := h'.stash.trans h.stash
  analyzer := h'.analyzer.trans h.analyzer
  tokens := h.tokens.trans h'.tokens
  words hwords := h'.words (h.words hwords)

section Words

variable {loc : Locale} {env : SaxEnv} {pd₀ pd pd' : ParserData} {metaname context raw : XmlStr}
  {tag : Option XmlStr}

theorem tokenizeBuffer_counted (hbuiltin : pd.analyzer.BuiltIn loc)
    (h : tokenizeBuffer pd metaname context = .ok pd') : Counted pd pd' := by
  unfold tokenizeBuffer at h
  split at h
  · cases h
    exact .refl pd
  · obtain ⟨⟨tokens, n⟩, htok, h⟩ := bind_ok_iff.mp h
    cases h
    obtain ⟨hgrown, hcount⟩ := hbuiltin.count htok
    refine ⟨rfl, rfl, rfl, hgrown, ?_⟩
    intro hwords
    simp only [hwords, hcount]

/-- Each flush counts what it adds, and nothing else is counted. -/
theorem counted_tokenSteps (hbuiltin : pd₀.analyzer.BuiltIn loc) :
    TokenSteps (Counted pd₀) where
  moves pd pd' h hmoves := by
    refine ⟨hmoves.self.trans h.self, hmoves.stash.trans h.stash,
      hmoves.analyzer.trans h.analyzer, ?_, ?_⟩
    · rw [hmoves.tokens]
      exact h.tokens
    · rw [hmoves.tokens, hmoves.docinfo]
      exact h.words
  autoMetaname _ _ _ h hok := by
    obtain ⟨config, -, rfl⟩ := autoMetaname_new hok
    exact ⟨h.self, h.stash, h.analyzer, h.tokens, h.words⟩
  autoProperty _ _ _ h hok := by
    rcases autoProperty_new hok with rfl | ⟨config, -, rfl⟩
    · exact h
    · exact ⟨h.self, h.stash, h.analyzer, h.tokens, h.words⟩
  tokenize _ _ _ _ h hok :=
    h.trans (tokenizeBuffer_counted (by rw [h.analyzer]; exact hbuiltin) hok)

theorem saxEvent_counted {xinclude : ParserData → XmlStr → Bool → Swish ParserData}
    (hbuiltin : pd.analyzer.BuiltIn loc)
    (hx : ∀ pd uri isText pd', pd.analyzer.BuiltIn loc → xinclude pd uri isText = .ok pd' →
      Counted pd pd') {e : SaxEvent} (h : saxEvent env xinclude pd e = .ok pd') :
    Counted pd pd' :=
  (counted_tokenSteps hbuiltin).saxEvent (fun _ _ _ hinclude => hx _ _ _ _ hbuiltin hinclude)
    (.refl pd) h

/-! ## Included documents -/

/-- What merging keeps of a token; the position is a new one. -/
structure TokenEntry where
  value : XmlStr
  len : Nat
  metaname : MetaName
  context : XmlStr

def Token.entry (t : Token) : TokenEntry := ⟨t.value, t.len, t.metaname, t.context⟩

/-- Merging appends the tokens of the included document. -/
theorem run_tokenListAddToken {ts : List Token} {tl tl' : TokenList}
    (h : run (fun tl t => tokenListAddToken tl t.bytes (t.len + 1) (some t.metaname) t.context)
      tl ts = .ok tl') :
    ∃ us, tl'.tokens = tl.tokens ++ us ∧ us.map Token.entry = ts.map Token.entry := by
  induction ts generalizing tl with
  | nil =>
      cases h
      exact ⟨[], by simp, rfl⟩
  | cons t ts ih =>
      obtain ⟨tl₁, hadd, h⟩ := run_cons_ok_iff.mp h
      obtain ⟨us, hus, hentries⟩ := ih h
      unfold tokenListAddToken at hadd
      split at hadd
      · cases hadd
      · cases hadd
        refine ⟨_ :: us, by rw [hus, List.append_assoc]; rfl, ?_⟩
        rw [List.map_cons, List.map_cons, hentries]
        simp [Token.entry, Token.value, List.take_take]

theorem docinfoFromFilesystem_nwords {config : Config} {filename : XmlStr} {docinfo : DocInfo}
    (h : docinfoFromFilesystem env config filename = .ok (some docinfo)) : docinfo.nwords = 0 := by
  obtain ⟨_, _, _, _, rfl⟩ := docinfoFromFilesystem_ok h
  rfl

/-- What `process_xinclude` has done when it returns. -/
structure IncludeCounted (pd parent child pd' : ParserData) : Prop where
  flushed : pd.tokens.tokens <+: parent.tokens.tokens
  childStash : child.stash = some parent.self
  childWords : child.docinfo.nwords = child.tokens.n
  tokens : ∃ us, pd'.tokens.tokens = parent.tokens.tokens ++ us ∧
    us.map Token.entry = child.tokens.tokens.map Token.entry
  words : pd'.docinfo.nwords = parent.docinfo.nwords + child.docinfo.nwords

variable {step : ParserData → SaxEvent → Swish ParserData} {uri : XmlStr} {isText : Bool}

theorem docparser_counted {filename : XmlStr} (hbuiltin : pd.analyzer.BuiltIn loc)
    (hstep : ∀ pd e pd', pd.analyzer.BuiltIn loc → step pd e = .ok pd' → Counted pd pd')
    (h : docparser env step pd filename = .ok pd') : Counted pd pd' := by
  refine (counted_tokenSteps hbuiltin).docparser ?_ ?_ (.refl pd) h
  · intro pd₁ size h
    exact ⟨h.self, h.stash, h.analyzer, h.tokens, h.words⟩
  · intro pd₁ e pd₂ h hok
    exact h.trans (hstep _ _ _ (by rw [h.analyzer]; exact hbuiltin) hok)

/-- The flush in front of an included document, with the stash already set. -/
theorem flushHead_stashed (hbuiltin : pd.analyzer.BuiltIn loc)
    (h : flushHead { pd with stash := some pd.self } = .ok pd') :
    pd'.stash = some pd.self ∧ Counted pd { pd' with stash := pd.stash } := by
  have hcounted : Counted { pd with stash := some pd.self } pd' :=
    (counted_tokenSteps (by exact hbuiltin)).flushHead (.refl _) h
  exact ⟨hcounted.stash, hcounted.self, rfl, hcounted.analyzer, hcounted.tokens, hcounted.words⟩

/-- The included document is counted like the including one, and finds it in the stash. -/
theorem Includes.child (hbuiltin : pd.analyzer.BuiltIn loc)
    (hstep : ∀ pd e pd', pd.analyzer.BuiltIn loc → step pd e = .ok pd' → Counted pd pd')
    {parent child : ParserData} (h : Includes env step pd uri isText parent child) :
    child.stash = some parent.self ∧ child.docinfo.nwords = child.tokens.n := by
  obtain ⟨hflush, xuri, docinfo, hdocinfo, hparse⟩ := h.parse
  obtain ⟨hstash, hflushed⟩ := flushHead_stashed hbuiltin hflush
  have hself : parent.self = pd.self := hflushed.self
  have hanalyzer : parent.analyzer.BuiltIn loc := by
    rw [show parent.analyzer = pd.analyzer from hflushed.analyzer]
    exact hbuiltin
  have hchild := docparser_counted (by exact hanalyzer) hstep hparse
  refine ⟨hchild.stash.trans (hstash.trans (by rw [hself])), hchild.words ?_⟩
  have hzero := docinfoFromFilesystem_nwords hdocinfo
  cases isText <;> exact hzero

theorem Includes.counted (hbuiltin : pd.analyzer.BuiltIn loc)
    (hstep : ∀ pd e pd', pd.analyzer.BuiltIn loc → step pd e = .ok pd' → Counted pd pd')
    {parent child merged : ParserData} (h : Includes env step pd uri isText parent child)
    (hmerge : xincludeHandler parent child = .ok merged) :
    IncludeCounted pd parent child { merged with stash := pd.stash } := by
  obtain ⟨-, hflushed⟩ := flushHead_stashed hbuiltin h.parse.1
  obtain ⟨hstash, hwords⟩ := h.child hbuiltin hstep
  obtain ⟨-, tokens, htokens, rfl⟩ := xincludeHandler_ok hmerge
  exact ⟨hflushed.tokens, hstash, hwords, run_tokenListAddToken htokens, rfl⟩

theorem IncludeCounted.counted {parent child : ParserData}
    (h : IncludeCounted pd parent child pd')
    (hflushed : Counted pd { parent with stash := pd.stash }) (hself : pd'.self = parent.self)
    (hstash : pd'.stash = pd.stash) (hanalyzer : pd'.analyzer = parent.analyzer) :
    Counted pd pd' := by
  obtain ⟨us, hus, hentries⟩ := h.tokens
  refine ⟨hself.trans hflushed.self, hstash, hanalyzer.trans hflushed.analyzer, ?_, ?_⟩
  · rw [hus]
    exact h.flushed.trans (List.prefix_append _ _)
  · intro hwords
    have hlen : us.length = child.tokens.tokens.length := by
      simpa using congrArg List.length hentries
    have hparent : parent.docinfo.nwords = parent.tokens.n := hflushed.words hwords
    rw [h.words, hparent, h.childWords, TokenList.n, TokenList.n, TokenList.n, hus,
      List.length_append, hlen]

theorem processXinclude_counted (hbuiltin : pd.analyzer.BuiltIn loc)
    (hstep : ∀ pd e pd', pd.analyzer.BuiltIn loc → step pd e = .ok pd' → Counted pd pd')
    (h : processXinclude env step pd uri isText = .ok pd') : Counted pd pd' := by
  rcases processXinclude_ok h with ⟨parent, hflush, rfl⟩ | ⟨parent, child, merged, hin, hmerge, rfl⟩
  · exact (flushHead_stashed hbuiltin hflush).2
  · have hincluded := hin.counted hbuiltin hstep hmerge
    obtain ⟨-, hflushed⟩ := flushHead_stashed hbuiltin hin.parse.1
    obtain ⟨-, tokens, -, rfl⟩ := xincludeHandler_ok hmerge
    exact hincluded.counted hflushed rfl rfl rfl

theorem xincludeDeep_counted {fuel : Nat} (hbuiltin : pd.analyzer.BuiltIn loc)
    (h : xincludeDeep env fuel pd uri isText = .ok pd') : Counted pd pd' := by
  induction fuel generalizing pd uri isText pd' with
  | zero => cases h
  | succ fuel ih =>
      refine processXinclude_counted hbuiltin ?_ h
      intro pd₁ e pd₂ hbuiltin₁ hok
      exact saxEvent_counted hbuiltin₁ (fun _ _ _ _ hb hinclude => ih hb hinclude) hok

theorem saxStep_counted {fuel : Nat} {e : SaxEvent} (hbuiltin : pd.analyzer.BuiltIn loc)
    (h : saxStep env fuel pd e = .ok pd') : Counted pd pd' :=
  saxEvent_counted hbuiltin (fun _ _ _ _ hb hinclude => xincludeDeep_counted hb hinclude) h

/-! ## The result -/

/-- Whatever a document includes, the number of its words is that of its tokens after every
event, and an included document leaves its tokens behind those of the including one, its
number of words added, and the stash as it was. -/
theorem words_counted {fuel : Nat} {es : List SaxEvent} (hbuiltin : pd₀.analyzer.BuiltIn loc)
    (htokens : pd₀.tokens = .init) (hwords : pd₀.docinfo.nwords = 0)
    (hrun : run (saxStep env fuel) pd₀ es = .ok pd) :
    pd.docinfo.nwords = pd.tokens.n ∧ pd.stash = pd₀.stash ∧
      ∀ uri isText pd', xincludeDeep env fuel pd uri isText = .ok pd' →
        pd'.docinfo.nwords = pd'.tokens.n ∧ pd'.stash = pd.stash ∧
        ∀ depth parent child, fuel = depth + 1 →
          Includes env (saxStep env depth) pd uri isText parent child →
          IncludeCounted pd parent child pd' := by
  have hcounted : Counted pd₀ pd := by
    refine invariant (I := Counted pd₀) ?_ (.refl pd₀) hrun
    intro pd₁ e pd₂ h hok
    exact h.trans (saxStep_counted (by rw [h.analyzer]; exact hbuiltin) hok)
  have hbuiltin' : pd.analyzer.BuiltIn loc := by
    rw [hcounted.analyzer]
    exact hbuiltin
  have hcount : pd.docinfo.nwords = pd.tokens.n := by
    refine hcounted.words ?_
    rw [hwords, htokens]
    rfl
  refine ⟨hcount, hcounted.stash, ?_⟩
  intro uri isText pd' hinclude
  have hincluded := xincludeDeep_counted hbuiltin' hinclude
  refine ⟨hincluded.words hcount, hincluded.stash, ?_⟩
  rintro depth parent child rfl hin
  rw [xincludeDeep_succ, hin.processXinclude] at hinclude
  obtain ⟨merged, hmerge, hinclude⟩ := bind_ok_iff.mp hinclude
  cases hinclude
  exact hin.counted hbuiltin' (fun _ _ _ hb hok => saxStep_counted hb hok) hmerge

end Words

/-- Files that all hold the same two words. -/
def twoWords : SaxEnv := { SaxEnv.alone with
  fileExists := fun _ => true
  fileSize := fun _ => 9
  slurpFile := fun _ => lit "big world" }

/-- A parser of an XML document that has begun with a word. -/
def helloParser : ParserData :=
  initParserData (configSetDefault (lit "C")) (.ofLibrary .posix 256 1) docinfoInit

/-- One word and a text of two, whose name counts as a word too. -/
theorem words_counted_text :
    ∃ pd pd', run (saxStep twoWords 1) helloParser [.characters (lit "hello ")] = .ok pd ∧
      xincludeDeep twoWords 1 pd (lit "/c") true = .ok pd' ∧
      pd.docinfo.nwords = pd.tokens.n ∧ pd'.docinfo.nwords = pd'.tokens.n ∧ pd'.tokens.n = 4 := by
  obtain ⟨⟨pd, pd'⟩, hok, hfour⟩ := exists_ok_of_map
    (f := fun s : ParserData × ParserData => s.2.tokens.n) (show
      (do let pd ← run (saxStep twoWords 1) helloParser [.characters (lit "hello ")]
          let pd' ← xincludeDeep twoWords 1 pd (lit "/c") true
          pure (pd, pd')).toOption.map (fun s : ParserData × ParserData => s.2.tokens.n) =
        some 4 by decide +kernel)
  obtain ⟨pd₁, hrun, hok⟩ := bind_ok_iff.mp hok
  obtain ⟨pd₂, hinclude, hok⟩ := bind_ok_iff.mp hok
  cases hok
  obtain ⟨hwords, -, hincluded⟩ :=
    words_counted (Analyzer.ofLibrary_builtIn .posix 256 1) rfl rfl hrun
  exact ⟨pd, pd', hrun, hinclude, hwords, (hincluded _ _ _ hinclude).1, hfour⟩

end LibSwish3
