import LibSwish3.Sax

/-!
# Included documents, all the way down

An event of a document can include another document, whose events can include more.  A condition
on the events of a parse is one on the events of the documents it includes too: `DeepMeets`.  An
invariant of the callbacks that survives the start of an included document and its merging is
one of every parse that meets its condition: `DeepRule.step`.  The rule says how a call fails as
well as what it returns.

Included documents share the config, and what they add to it stays: `Extends`.

## Main definitions

* `Extends` — the config after a call.
* `IncludesFile` — the file an event includes.
* `DeepMeets` — a condition on a parse.
* `ParserInvariant` — what holds of every parser at every event.
* `DeepRule` — what an invariant has to survive.
-/

namespace LibSwish3

open Runs Tables

/-! ## The config of a parse -/

/-- Names have been added, and none of the new ones is an alias. -/
structure Extends (c c' : Config) : Prop where
  metanames : Extension (fun m : MetaName => m.aliasFor = .null) c.metanames c'.metanames
  properties : Extension (fun p : Property => p.aliasFor = .null) c.properties c'.properties
  cascade : c'.flags.cascadeMetaContext = c.flags.cascadeMetaContext

theorem Extends.refl (c : Config) : Extends c c := ⟨.refl _ _, .refl _ _, rfl⟩

theorem Extends.trans {c₁ c₂ c₃ : Config} (h : Extends c₁ c₂) (h' : Extends c₂ c₃) :
    Extends c₁ c₃ :=
  ⟨h.metanames.trans h'.metanames, h.properties.trans h'.properties, h'.cascade.trans h.cascade⟩

section Extends

variable {env : SaxEnv} {pd pd' : ParserData} {name : XmlStr}

theorem metanameNew_extends {c c' : Config} (h : metanameNew name c = .ok c') :
    Extends c c' := by
  obtain ⟨metaIds, -, h⟩ := bind_ok_iff.mp h
  obtain ⟨metanames, hadd, h⟩ := bind_ok_iff.mp h
  obtain ⟨hnew, rfl⟩ := hashAdd_ok_iff.mp hadd
  cases h
  exact ⟨.insert hnew rfl, .refl _ _, rfl⟩

theorem propertyNew_extends {c c' : Config} (h : propertyNew name c = .ok c') :
    Extends c c' := by
  obtain ⟨propIds, -, h⟩ := bind_ok_iff.mp h
  obtain ⟨properties, hadd, h⟩ := bind_ok_iff.mp h
  obtain ⟨hnew, rfl⟩ := hashAdd_ok_iff.mp hadd
  cases h
  exact ⟨.refl _ _, .insert hnew rfl, rfl⟩

/-- A name that is made up gets a MetaName and an empty buffer. -/
theorem autoMetaname_ok (h : autoMetaname pd name = .ok pd') :
    ∃ config, Extends pd.config config ∧ config.properties = pd.config.properties ∧
      pd' = { pd with config, metanames := nbNew pd.metanames name } := by
  obtain ⟨config, hnew, rfl⟩ := autoMetaname_new h
  refine ⟨config, metanameNew_extends hnew, ?_, rfl⟩
  obtain ⟨metaIds, -, hnew⟩ := bind_ok_iff.mp hnew
  obtain ⟨metanames, -, hnew⟩ := bind_ok_iff.mp hnew
  cases hnew
  rfl

/-- A name that is made up gets a Property and an empty buffer, unless it is a Property. -/
theorem autoProperty_ok (h : autoProperty pd name = .ok pd') :
    pd' = pd ∨ ∃ config, Extends pd.config config ∧ name ∈ config.properties ∧
      (∀ k ∈ config.properties, k = name ∨ k ∈ pd.config.properties) ∧
      pd' = { pd with config, properties := nbNew pd.properties name } := by
  rcases autoProperty_new h with rfl | ⟨config, hnew, rfl⟩
  · exact .inl rfl
  · have hkeys : ∀ k, k ∈ config.properties ↔ k = name ∨ k ∈ pd.config.properties := by
      obtain ⟨propIds, -, hnew⟩ := bind_ok_iff.mp hnew
      obtain ⟨properties, hadd, hnew⟩ := bind_ok_iff.mp hnew
      obtain ⟨-, rfl⟩ := hashAdd_ok_iff.mp hadd
      cases hnew
      exact fun k => AList.mem_insert _
    exact .inr ⟨config, propertyNew_extends hnew, (hkeys name).mpr (.inl rfl),
      fun k hk => (hkeys k).mp hk, rfl⟩

theorem bufferCharacters_config (pd : ParserData) (ch : XmlStr) :
    (bufferCharacters pd ch).config = pd.config := by
  rw [bufferCharacters]
  split <;> rfl

theorem extends_textSteps (c : Config) :
    TextSteps (fun _ _ _ => True) fun pd => Extends c pd.config where
  tag _ _ h := h
  bumpWord _ _ h := h
  ignoreContent _ _ h := h
  characters pd ch h := by
    rw [bufferCharacters_config]
    exact h
  autoMetaname _ _ _ h hok := by
    obtain ⟨config, hextends, -, rfl⟩ := autoMetaname_ok hok
    exact h.trans hextends
  autoProperty _ _ _ h hok := by
    rcases autoProperty_ok hok with rfl | ⟨config, hextends, -, -, rfl⟩
    · exact h
    · exact h.trans hextends
  push _ _ _ _ h _ hok := by
    obtain ⟨-, -, hconfig, -⟩ := pushTags_ok hok
    rw [hconfig]
    exact h
  pop _ _ _ h hok := by
    obtain ⟨_, _, _, -, -, -, hconfig, -⟩ := popTags_ok hok
    rw [hconfig]
    exact h

theorem flushBuffer_config {metaname context : XmlStr}
    (h : flushBuffer pd metaname context = .ok pd') : pd'.config = pd.config := by
  obtain ⟨metanames, tokens, nwords, rfl⟩ := flushBuffer_ok h
  rfl

theorem flushHead_config (h : flushHead pd = .ok pd') : pd'.config = pd.config := by
  obtain ⟨top, -, h⟩ := bind_ok_iff.mp h
  exact flushBuffer_config h

theorem saxEvent_extends {xinclude : ParserData → XmlStr → Bool → Swish ParserData}
    (hx : ∀ pd uri isText pd', xinclude pd uri isText = .ok pd' → Extends pd.config pd'.config)
    {e : SaxEvent} (h : saxEvent env xinclude pd e = .ok pd') : Extends pd.config pd'.config := by
  refine (extends_textSteps pd.config).saxEvent ?_ ?_ (.refl _) (eventMeets_free e) h
  · intro uri isText pd₁ _ hinclude
    exact hx _ _ _ _ hinclude
  · intro pd₁ _ hflush
    rw [flushBuffer_config hflush]
    exact .refl _

theorem txtParser_config {buffer : XmlStr} (h : txtParser env pd buffer = .ok pd') :
    pd'.config = pd.config := by
  unfold txtParser at h
  split at h
  · cases h
    rfl
  · obtain ⟨pd₁, hflush, h⟩ := bind_ok_iff.mp h
    rw [flushBuffer_config h, bufferCharacters_config]
    show pd₁.config = pd.config
    rw [flushBuffer_config hflush, bufferCharacters_config]

theorem docparser_extends {step : ParserData → SaxEvent → Swish ParserData}
    (hstep : ∀ pd e pd', step pd e = .ok pd' → Extends pd.config pd'.config) {filename : XmlStr}
    (h : docparser env step pd filename = .ok pd') : Extends pd.config pd'.config := by
  have hmeets : ParseMeets env step (fun _ _ => True) pd filename :=
    fun _ _ _ _ _ _ _ _ _ => trivial
  refine docparser_kept (P := fun pd₁ => Extends pd.config pd₁.config) (fun _ _ _ h => h) ?_ ?_
    (.refl _) hmeets h
  · intro pd₁ e pd₂ hextends _ hok
    exact hextends.trans (hstep _ _ _ hok)
  · intro pd₁ buffer pd₂ hextends hok
    rw [txtParser_config hok]
    exact hextends

theorem processXinclude_extends {step : ParserData → SaxEvent → Swish ParserData}
    (hstep : ∀ pd e pd', step pd e = .ok pd' → Extends pd.config pd'.config) {uri : XmlStr}
    {isText : Bool} (h : processXinclude env step pd uri isText = .ok pd') :
    Extends pd.config pd'.config := by
  rcases processXinclude_ok h with ⟨parent, hflush, rfl⟩ | ⟨parent, child, merged, hin, hmerge, rfl⟩
  · rw [show pd.config = parent.config from (flushHead_config hflush).symm]
    exact .refl _
  · obtain ⟨hflush, xuri, docinfo, -, hparse⟩ := hin.parse
    obtain ⟨-, tokens, -, rfl⟩ := xincludeHandler_ok hmerge
    rw [show pd.config = parent.config from (flushHead_config hflush).symm]
    have hchild := docparser_extends hstep hparse
    exact hchild

theorem xincludeDeep_extends {fuel : Nat} {uri : XmlStr} {isText : Bool}
    (h : xincludeDeep env fuel pd uri isText = .ok pd') : Extends pd.config pd'.config := by
  induction fuel generalizing pd uri isText pd' with
  | zero => cases h
  | succ fuel ih =>
      exact processXinclude_extends
        (fun _ _ _ => saxEvent_extends fun _ _ _ _ hinclude => ih hinclude) h

theorem saxStep_extends {fuel : Nat} {e : SaxEvent} (h : saxStep env fuel pd e = .ok pd') :
    Extends pd.config pd'.config :=
  saxEvent_extends (fun _ _ _ _ hinclude => xincludeDeep_extends hinclude) h

end Extends

/-! ## Conditions on a parse -/

/-- The file that is included: the parser around it and what is known of the file. -/
def IncludesFile (env : SaxEnv) (pd : ParserData) (uri : XmlStr) (isText : Bool)
    (parent : ParserData) (xuri : XmlStr) (docinfo : DocInfo) : Prop :=
  xincludeUri env pd uri = .ok xuri ∧ flushHead { pd with stash := some pd.self } = .ok parent ∧
    ∃ found, docinfoFromFilesystem env parent.config xuri = .ok (some found) ∧
      docinfo = if isText then { found with parser := Swish.parserTxt } else found

/-- The condition on a file that is read as a text. -/
def TextMeets (env : SaxEnv) (T : ParserData → Prop) (pd : ParserData) (filename : XmlStr) :
    Prop :=
  ∀ pd₁ buffer, (∀ step, docparser env step pd filename = txtParser env pd₁ buffer) → T pd₁

/-- The condition on an event: it meets `E`; the events of the document it includes meet theirs,
or, where that is a text, its parser meets `T`; and the two parsers end up related by `X`. -/
def DeepMeets (env : SaxEnv) (E : Nat → ParserData → SaxEvent → Prop) (T : ParserData → Prop)
    (X : ParserData → ParserData → Prop) : (fuel : Nat) → ParserData → SaxEvent → Prop
  | 0, pd, e => E 0 pd e
  | fuel + 1, pd, e => E (fuel + 1) pd e ∧
    ∀ uri isText, includedBy env pd e = some (uri, isText) →
      (∀ parent xuri docinfo, IncludesFile env pd uri isText parent xuri docinfo →
        ParseMeets env (saxStep env fuel) (DeepMeets env E T X fuel)
          (initChildData parent docinfo) xuri ∧
        TextMeets env T (initChildData parent docinfo) xuri) ∧
      ∀ parent child, Includes env (saxStep env fuel) pd uri isText parent child →
        X parent child

/-- What an invariant of the callbacks has to survive to be one of every parse, and how the
callbacks may fail. -/
structure DeepRule (env : SaxEnv) (E : Nat → ParserData → SaxEvent → Prop)
    (T : ParserData → Prop) (X : ParserData → ParserData → Prop) (P : ParserData → Prop)
    (F : Halt → Prop) : Prop where
  fails : ∀ x, (∀ msg, x ≠ .notNamed msg) → F x
  size : ∀ pd size isHtml, P pd → P { pd with docinfo := { pd.docinfo with size }, isHtml }
  stash : ∀ pd stash, P pd → P { pd with stash }
  child : ∀ pd docinfo, P pd → P (initChildData pd docinfo)
  flush : ∀ fuel pd e found, P pd → E fuel pd e → includedBy env pd e = some found →
    EndsWell P F (flushHead { pd with stash := some pd.self })
  text : ∀ pd buffer, P pd → T pd → EndsWell P F (txtParser env pd buffer)
  merge : ∀ parent child merged, P parent → P child → X parent child →
    Extends parent.config child.config → mergeChild parent child = .ok merged → P merged
  event : ∀ fuel pd e, P pd → E fuel pd e →
    (∀ uri isText, includedBy env pd e = some (uri, isText) →
      EndsWell P F (xincludeDeep env fuel pd uri isText)) →
    EndsWell P F (saxStep env fuel pd e)

/-- An invariant of the callbacks that every parser starts with. -/
structure ParserInvariant (env : SaxEnv) (J : ParserData → Prop) : Prop where
  step : ∀ fuel pd e pd', J pd → saxStep env fuel pd e = .ok pd' → J pd'
  size : ∀ pd size isHtml, J pd → J { pd with docinfo := { pd.docinfo with size }, isHtml }
  text : ∀ pd buffer pd', J pd → txtParser env pd buffer = .ok pd' → J pd'
  child : ∀ pd docinfo, J (initChildData pd docinfo)

section ParserInvariant

variable {env : SaxEnv} {J : ParserData → Prop} {pd : ParserData} {filename : XmlStr} {fuel : Nat}

theorem run_idle {σ α ε : Type} (s : σ) (es : List α) :
    run (fun t (_ : α) => (.ok t : Except ε σ)) s es = .ok s := by
  induction es with
  | nil => rfl
  | cons e es ih => rw [run_cons_of_ok rfl, ih]

theorem ParserInvariant.parses (H : ParserInvariant env J) {pd₁ : ParserData}
    {es : List SaxEvent} (hJ : J pd) (h : Parses env pd filename pd₁ es) : J pd₁ := by
  have hok : docparser env (fun pd _ => .ok pd) pd filename = .ok pd₁ := by
    rw [h, run_idle]
  refine docparser_kept H.size ?_ H.text hJ (fun _ _ _ _ _ _ _ _ _ => trivial) hok
  intro pd₂ e pd₃ hJ₂ _ hstep
  exact Except.ok.inj hstep ▸ hJ₂

theorem ParserInvariant.docparser (H : ParserInvariant env J) {pd' : ParserData} (hJ : J pd)
    (h : docparser env (saxStep env fuel) pd filename = .ok pd') : J pd' :=
  docparser_kept H.size (fun pd e pd' hJ _ hstep => H.step fuel pd e pd' hJ hstep) H.text hJ
    (fun _ _ _ _ _ _ _ _ _ => trivial) h

/-- Conditions that agree wherever an invariant holds are the same condition on a parse. -/
theorem ParserInvariant.deepMeets_congr (H : ParserInvariant env J)
    {E E' : Nat → ParserData → SaxEvent → Prop} {T : ParserData → Prop}
    {X X' : ParserData → ParserData → Prop}
    (hE : ∀ fuel pd e, J pd → (E fuel pd e ↔ E' fuel pd e))
    (hX : ∀ parent child, J child → (X parent child ↔ X' parent child)) {e : SaxEvent}
    (hJ : J pd) : DeepMeets env E T X fuel pd e ↔ DeepMeets env E' T X' fuel pd e := by
  induction fuel generalizing pd e with
  | zero => exact hE 0 pd e hJ
  | succ fuel ih =>
      refine and_congr (hE (fuel + 1) pd e hJ) ?_
      refine forall_congr' fun uri => forall_congr' fun isText => imp_congr_right fun _ => ?_
      refine and_congr ?_ ?_
      · refine forall_congr' fun parent => forall_congr' fun xuri => forall_congr' fun docinfo =>
          imp_congr_right fun _ => and_congr_left fun _ => ?_
        refine forall_congr' fun pd₁ => forall_congr' fun es => imp_congr_right fun hparses => ?_
        have hJ₁ : J pd₁ := H.parses (H.child parent docinfo) hparses
        exact steps_congr (H.step fuel) (fun pd₂ e₂ hJ₂ => ih hJ₂) hJ₁
      · refine forall_congr' fun parent => forall_congr' fun child => imp_congr_right fun hin => ?_
        obtain ⟨-, xuri, docinfo, -, hparse⟩ := hin.parse
        exact hX parent child (H.docparser (H.child parent _) hparse)

end ParserInvariant

/-! ## Failures that are not about named buffers -/

/-- Not the croak of `swish_nb_add_str`. -/
def NotMissing (x : Halt) : Prop := ∀ msg, x ≠ .notNamed msg

section Failures

variable {env : SaxEnv} {loc : Locale} {pd : ParserData}

theorem failsAs_croak {α : Type} (pieces : List XmlStr) :
    FailsAs NotMissing (croak pieces : Swish α) :=
  failsAs_error fun _ h => by cases h

theorem failsAs_fault {α : Type} (why : Fault) :
    FailsAs NotMissing (.error (.fault why) : Swish α) :=
  failsAs_error fun _ h => by cases h

theorem CPtr.failsAs_read {α : Type} (p : CPtr α) : FailsAs NotMissing p.read := by
  cases p with
  | null => exact failsAs_ok _
  | live a => exact failsAs_ok _
  | freed => exact failsAs_fault _

theorem strTolower_fails (s : XmlStr) : FailsAs NotMissing (strTolower loc s) := by
  rw [strTolower, utf8StrTolower]
  split
  · exact failsAs_ok _
  · split
    · exact failsAs_croak _
    · split
      · exact failsAs_croak _
      · exact failsAs_ok _

theorem dupTag_fails (tag : Option XmlStr) : FailsAs NotMissing (dupTag tag) := by
  cases tag with
  | none => exact failsAs_croak _
  | some tag => exact failsAs_ok _

theorem fsGetFileExt_fails (url : XmlStr) : FailsAs NotMissing (fsGetFileExt loc url) := by
  rw [fsGetFileExt]
  split
  · split
    · exact (strTolower_fails _).bind fun _ _ => failsAs_ok _
    · exact failsAs_ok _
  · exact failsAs_ok _

theorem docinfoFromFilesystem_fails (config : Config) (filename : XmlStr) :
    FailsAs NotMissing (docinfoFromFilesystem env config filename) := by
  have key : ∀ isGzipped (ext : Option XmlStr), FailsAs NotMissing
      (if env.fileExists filename then do
        let mime := mimeGetType config ext
        let parser ← mimeGetParser config mime
        pure (some (⟨filename, env.fileSize filename, 0, mime, parser, ext, isGzipped⟩ : DocInfo))
      else pure none) := by
    intro isGzipped ext
    split
    · have hparser : FailsAs NotMissing (mimeGetParser config (mimeGetType config ext)) := by
        rw [mimeGetParser]
        split
        · exact failsAs_ok _
        · exact dupTag_fails _
      exact hparser.bind fun _ _ => failsAs_ok _
    · exact failsAs_ok _
  rw [docinfoFromFilesystem]
  refine (fsGetFileExt_fails _).bind fun ext _ => ?_
  simp only
  split
  · exact (fsGetFileExt_fails _).bind fun ext' _ => key _ ext'
  · exact key _ ext

theorem xincludeUri_fails (uri : XmlStr) : FailsAs NotMissing (xincludeUri env pd uri) := by
  rw [xincludeUri]
  split
  · exact failsAs_ok _
  · simp only
    split
    · exact failsAs_croak _
    · exact failsAs_ok _

theorem tokenListAddToken_fails (tl : TokenList) (token : XmlStr) (tokenLen : Nat)
    (m : Option MetaName) (context : XmlStr) :
    FailsAs NotMissing (tokenListAddToken tl token tokenLen m context) := by
  unfold tokenListAddToken
  split
  · exact failsAs_croak _
  · split
    · exact failsAs_fault _
    · exact failsAs_ok _

theorem mergeChild_fails (parent child : ParserData) :
    FailsAs NotMissing (mergeChild parent child) := by
  have hadd : EndsWell (fun _ => True) NotMissing
      (run (fun tl t => tokenListAddToken tl t.bytes (t.len + 1) (some t.metaname) t.context)
        parent.tokens child.tokens.tokens) :=
    endsWell_run (C := fun _ _ => True)
      (fun _ _ _ _ => ⟨fun _ _ => trivial, tokenListAddToken_fails _ _ _ _ _⟩) trivial
      (fun _ _ _ _ _ _ => trivial)
  exact hadd.fails.bind fun _ _ => failsAs_ok _

end Failures

/-! ## The rule -/

section Rule

variable {env : SaxEnv} {E : Nat → ParserData → SaxEvent → Prop} {T : ParserData → Prop}
  {X : ParserData → ParserData → Prop} {P : ParserData → Prop} {F : Halt → Prop}

theorem DeepRule.failsAs (H : DeepRule env E T X P F) {α : Type} {x : Swish α}
    (h : FailsAs NotMissing x) : FailsAs F x :=
  fun e he => H.fails e (h e he)

/-- A file whose events meet their conditions. -/
theorem DeepRule.docparser (H : DeepRule env E T X P F) {fuel : Nat} {pd : ParserData}
    {filename : XmlStr}
    (hstep : ∀ pd e, P pd → DeepMeets env E T X fuel pd e → EndsWell P F (saxStep env fuel pd e))
    (hP : P pd) (hmeets : ParseMeets env (saxStep env fuel) (DeepMeets env E T X fuel) pd filename)
    (htext : TextMeets env T pd filename) :
    EndsWell P F (docparser env (saxStep env fuel) pd filename) := by
  rcases docparser_cases env pd filename with
    ⟨size, isHtml, es, hparses⟩ | ⟨size, buffer, hreads⟩ | ⟨msg, hrefused⟩
  · rw [hparses]
    exact endsWell_run hstep (H.size pd size isHtml hP) (hmeets _ _ hparses)
  · rw [hreads]
    exact H.text _ _ (H.size pd size pd.isHtml hP) (htext _ _ hreads)
  · rw [hrefused]
    exact ⟨fun _ h => (by cases h), H.failsAs (failsAs_error fun _ h => by cases h)⟩

theorem DeepRule.processXinclude (H : DeepRule env E T X P F) {fuel : Nat} {pd : ParserData}
    {e : SaxEvent} {uri : XmlStr} {isText : Bool}
    (hstep : ∀ pd e, P pd → DeepMeets env E T X fuel pd e → EndsWell P F (saxStep env fuel pd e))
    (hP : P pd) (hfound : includedBy env pd e = some (uri, isText))
    (hmeets : DeepMeets env E T X (fuel + 1) pd e) :
    EndsWell P F (processXinclude env (saxStep env fuel) pd uri isText) := by
  obtain ⟨hE, hinclude⟩ := hmeets
  obtain ⟨hfile, hX⟩ := hinclude uri isText hfound
  have hincluded : EndsWell (fun s : ParserData × Option ParserData =>
      P s.1 ∧ ∀ child, s.2 = some child → P child ∧ Extends s.1.config child.config) F
      (includeDocument env (saxStep env fuel) pd uri isText) := by
    refine EndsWell.bind (Q := fun xuri => xincludeUri env pd uri = .ok xuri)
      ⟨fun _ h => h, H.failsAs (xincludeUri_fails uri)⟩ fun xuri _ hxuri => ?_
    refine (H.flush _ pd e _ hP hE hfound).bind fun parent hflush hparent => ?_
    refine EndsWell.bind (Q := fun _ => True)
      ⟨fun _ _ => trivial, H.failsAs (docinfoFromFilesystem_fails _ _)⟩ fun found hfound' _ => ?_
    cases found with
    | none => exact endsWell_ok ⟨hparent, fun _ h => by cases h⟩
    | some found =>
        obtain ⟨hparse, htext⟩ := hfile parent xuri _ ⟨hxuri, hflush, found, hfound', rfl⟩
        refine (H.docparser hstep (H.child parent _ hparent) hparse htext).bind
          fun child hok hchild => endsWell_ok ⟨hparent, ?_⟩
        rintro _ ⟨⟩
        have hextends := docparser_extends (fun _ _ _ h => saxStep_extends h) hok
        exact ⟨hchild, hextends⟩
  refine hincluded.bind fun s hin hs => ?_
  obtain ⟨parent, child⟩ := s
  cases child with
  | none => exact endsWell_ok (H.stash _ _ hs.1)
  | some child =>
      obtain ⟨hchild, hextends⟩ := hs.2 child rfl
      refine EndsWell.bind (Q := P) ⟨fun merged hmerge => ?_, ?_⟩ fun merged _ hmerged =>
        endsWell_ok (H.stash _ _ hmerged)
      · refine H.merge parent child merged hs.1 hchild (hX parent child hin) hextends ?_
        unfold xincludeHandler at hmerge
        split at hmerge
        · cases hmerge
        · split at hmerge
          · exact hmerge
          · cases hmerge
      · rw [xincludeHandler]
        split
        · exact H.failsAs (failsAs_fault _)
        · split
          · exact H.failsAs (mergeChild_fails _ _)
          · exact H.failsAs (failsAs_fault _)

/-- An event that meets its condition keeps the invariant, or fails as it may. -/
theorem DeepRule.step (H : DeepRule env E T X P F) {fuel : Nat} {pd : ParserData} {e : SaxEvent}
    (hP : P pd) (hmeets : DeepMeets env E T X fuel pd e) :
    EndsWell P F (saxStep env fuel pd e) := by
  induction fuel generalizing pd e with
  | zero =>
      refine H.event 0 pd e hP hmeets fun _ _ _ => ⟨fun _ h => (by cases h), ?_⟩
      exact failsAs_error (H.fails _ fun _ h => by cases h)
  | succ fuel ih =>
      refine H.event (fuel + 1) pd e hP hmeets.1 fun uri isText hfound => ?_
      exact H.processXinclude (fun _ _ hP hmeets => ih hP hmeets) hP hfound hmeets

/-- Every parse whose events meet their conditions. -/
theorem DeepRule.run (H : DeepRule env E T X P F) {fuel : Nat} {pd : ParserData}
    {events : List SaxEvent} (hP : P pd)
    (hmeets : Steps (saxStep env fuel) (DeepMeets env E T X fuel) pd events) :
    EndsWell P F (run (saxStep env fuel) pd events) :=
  endsWell_run (fun _ _ hP hmeets => H.step hP hmeets) hP hmeets

end Rule

end LibSwish3
