import LibSwish3.HeaderRules
import LibSwish3.Sax

/-!
# The names on the stacks

`flush_buffer` and `add_stack_to_prop_buf` look up the names on the stacks and read what they
find without a test.  On the property stack every name but the bottom one is a PropertyName,
because `open_tag` chooses it among the PropertyNames.  It chooses the name for the meta stack
among the PropertyNames too, so that one need not be a MetaName.

## Main definitions

* `StackNames` — the names on the stacks are keys.
* `Resolves` — a step that puts a MetaName on the meta stack.
-/

namespace LibSwish3

open Runs Tables

/-- The names on the stacks are keys of their tables. -/
structure StackNames (pd : ParserData) : Prop where
  metastack : ∀ t ∈ pd.metastack.tags, t.baked ∈ pd.config.metanames
  propstack : ∀ t ∈ pd.propstack.tags, t.baked ≠ Swish.domStr → t.baked ∈ pd.config.properties

/-- A tag that is taken for a MetaName is put on the stack under the name of one: its dotted
context, where that is a PropertyName, and its own name otherwise. -/
def MetaResolves (pd : ParserData) (raw : XmlStr) (tag : Option XmlStr) : Prop :=
  isKey pd.config.metanames tag (domContext pd raw tag) →
    if domContext pd raw tag ∈ pd.config.properties then
      domContext pd raw tag ∈ pd.config.metanames
    else tagIn tag pd.config.metanames

/-- Every tag of the event, the nested ones included, is pushed under the name of a MetaName
where it is pushed. -/
def Resolves (env : SaxEnv) (fuel : Nat) : ParserData → SaxEvent → Prop :=
  EventMeets env (xincludeDeep env fuel) (fun _ _ => True) MetaResolves

section Names

variable {pd pd' : ParserData}

/-- What `flush_buffer` and `add_stack_to_prop_buf` look up for a name on a stack is there. -/
theorem StackNames.lookups (h : StackNames pd) :
    (∀ t ∈ pd.metastack.tags,
      metanameStoredAs pd.config t.baked ≠ .error (.fault .nullDeref)) ∧
    ∀ t ∈ pd.propstack.tags, t.baked ≠ Swish.domStr →
      propertyStoredAs pd.config t.baked ≠ .error (.fault .nullDeref) := by
  constructor
  · intro t ht
    obtain ⟨m, hm⟩ := mem_iff_exists_lookup.mp (h.metastack t ht)
    rw [metanameStoredAs, hm]
    cases halias : m.aliasFor <;> simp [halias, bind, Except.bind, pure, Except.pure]
  · intro t ht hne
    obtain ⟨p, hp⟩ := mem_iff_exists_lookup.mp (h.propstack t ht hne)
    rw [propertyStoredAs, hp]
    cases halias : p.aliasFor <;> simp [halias, bind, Except.bind, pure, Except.pure]

theorem StackNames.calm (h : StackNames pd) (hcalm : Calm pd pd') : StackNames pd' := by
  refine ⟨?_, ?_⟩
  · rw [hcalm.metastack]
    exact fun t ht => hcalm.config.metanames _ (h.metastack t ht)
  · rw [hcalm.propstack]
    exact fun t ht hne => hcalm.config.properties _ (h.propstack t ht hne)

theorem StackNames.ignoreContent (h : StackNames pd) (n : Nat) :
    StackNames { pd with ignoreContent := n } := ⟨h.metastack, h.propstack⟩

/-- The name pushed is the dotted context where that is a PropertyName. -/
theorem pushedName_cases {config : Config} {tag : Option XmlStr} {context baked : XmlStr}
    (h : pushedName config tag context = .ok baked) :
    (context ∈ config.properties ∧ baked = context) ∨
      (context ∉ config.properties ∧ tag = some baked) := by
  unfold pushedName at h
  split at h
  · rename_i hmem
    exact .inl ⟨hmem, (Except.ok.inj h).symm⟩
  · rename_i hmem
    cases tag with
    | none => cases h
    | some tag => exact .inr ⟨hmem, congrArg some (Except.ok.inj h)⟩

/-- A name chosen among the PropertyNames is one. -/
theorem pushedName_mem_properties {config : Config} {tag : Option XmlStr}
    {context baked : XmlStr} (hkey : isKey config.properties tag context)
    (h : pushedName config tag context = .ok baked) : baked ∈ config.properties := by
  obtain ⟨hmem, rfl⟩ | ⟨hnot, rfl⟩ := pushedName_cases h
  · exact hmem
  · simpa [isKey, tagIn, hnot] using hkey

theorem pushedName_mem_metanames {raw : XmlStr} {tag : Option XmlStr} {baked : XmlStr}
    (hresolves : MetaResolves pd raw tag)
    (hkey : isKey pd.config.metanames tag (domContext pd raw tag))
    (h : pushedName pd.config tag (domContext pd raw tag) = .ok baked) :
    baked ∈ pd.config.metanames := by
  have hmem := hresolves hkey
  obtain ⟨hprop, rfl⟩ | ⟨hnot, rfl⟩ := pushedName_cases h
  · simpa [hprop] using hmem
  · simpa [hnot, tagIn] using hmem

/-- A push adds one name to a stack. -/
theorem Pushes.tags {α : Type} {config : Config} {hash : HashTable α} {raw : XmlStr}
    {tag : Option XmlStr} {context : XmlStr} {stack stack' : TagStack} {Q : XmlStr → Prop}
    (h : Pushes config hash raw tag context stack stack')
    (hold : ∀ t ∈ stack.tags, Q t.baked)
    (hnew : ∀ baked, isKey hash tag context → pushedName config tag context = .ok baked →
      Q baked) : ∀ t ∈ stack'.tags, Q t.baked := by
  unfold Pushes at h
  split at h
  · rename_i hkey
    obtain ⟨baked, hbaked, rfl⟩ := h
    intro t ht
    rw [TagStack.push_tags] at ht
    rcases List.mem_cons.mp ht with rfl | ht
    · exact hnew baked hkey hbaked
    · exact hold t ht
  · rw [h]
    exact hold

/-- Popping leaves only names that were there. -/
theorem popOnMatch_subset {stack stack' : TagStack} {raw : XmlStr} {st : Option Tag}
    (h : stack.popOnMatch raw = .ok (st, stack')) : ∀ t ∈ stack'.tags, t ∈ stack.tags := by
  obtain ⟨top, -, h⟩ := bind_ok_iff.mp h
  split at h
  · unfold TagStack.pop at h
    split at h
    · cases h
      exact fun _ ht => ht
    · rename_i tag rest htags
      split at h
      · cases h
        intro t ht
        rw [htags]
        exact List.mem_cons_of_mem _ ht
      · cases h
        exact fun _ ht => absurd ht (by simp)
  · cases h
    exact fun _ ht => ht

/-- What is popped was on the stack. -/
theorem popOnMatch_mem {stack stack' : TagStack} {raw : XmlStr} {st : Tag}
    (h : stack.popOnMatch raw = .ok (some st, stack')) : st ∈ stack.tags := by
  obtain ⟨top, -, h⟩ := bind_ok_iff.mp h
  split at h
  · unfold TagStack.pop at h
    split at h
    · cases h
    · rename_i tag rest htags
      rw [htags]
      split at h
      · cases h
        simp
      · cases h
        simp
  · cases h

theorem stackNames_push {raw : XmlStr} {tag : Option XmlStr} (h : StackNames pd)
    (hresolves : MetaResolves pd raw tag) (hok : pushTags pd raw tag = .ok pd') :
    StackNames pd' := by
  obtain ⟨hprop, hmeta, hconfig, -⟩ := pushTags_ok hok
  refine ⟨?_, ?_⟩
  · rw [hconfig]
    exact hmeta.tags h.metastack fun baked hkey hbaked =>
      pushedName_mem_metanames hresolves hkey hbaked
  · rw [hconfig]
    exact hprop.tags (Q := fun name => name ≠ Swish.domStr → name ∈ pd.config.properties)
      h.propstack fun baked hkey hbaked _ => pushedName_mem_properties hkey hbaked

theorem stackNames_pop {raw : XmlStr} (h : StackNames pd) (hok : popTags pd raw = .ok pd') :
    StackNames pd' := by
  obtain ⟨_, _, _, hprop, hmeta, -, hconfig, -⟩ := popTags_ok hok
  refine ⟨?_, ?_⟩
  · rw [hconfig]
    exact fun t ht => h.metastack t (popOnMatch_subset hmeta t ht)
  · rw [hconfig]
    exact fun t ht => h.propstack t (popOnMatch_subset hprop t ht)

theorem stackNames_tagKept : TagKept (fun _ _ => True) MetaResolves StackNames where
  calm _ _ h hcalm := h.calm hcalm
  undefXmlTag _ _ _ h _ _ hok := by
    obtain ⟨n, hcalm⟩ := undefXmlTag_calm hok
    exact (h.ignoreContent n).calm hcalm
  undefHtmlMeta _ _ _ h hok := by
    obtain ⟨n, hcalm⟩ := undefHtmlMeta_calm hok
    have hnames := (h.ignoreContent n).calm hcalm
    exact ⟨hnames, hnames.ignoreContent _⟩
  push _ _ _ _ h hresolves hok := stackNames_push h hresolves hok
  pop _ _ _ h hok := stackNames_pop h hok
  mono _ _ _ h _ _ := h

variable {env : SaxEnv} {fuel : Nat}

/-- One event that resolves its names keeps the names on the stacks keys. -/
theorem saxStep_stackNames {e : SaxEvent} (h : StackNames pd) (hresolves : Resolves env fuel pd e)
    (hok : saxStep env fuel pd e = .ok pd') : StackNames pd' := by
  refine saxEvent_kept stackNames_tagKept ?_ ?_ h hresolves hok
  · exact fun _ _ _ _ h hinclude => h.calm (xincludeDeep_calm hinclude)
  · intro cmt _
    obtain ⟨n, hcalm⟩ := mycomments_calm pd cmt
    exact (h.ignoreContent n).calm hcalm

theorem stackNames_initParserData {config : Config} {analyzer : Analyzer} {docinfo : DocInfo}
    {isHtml : Bool} (h : Swish.defaultMetaname ∈ config.metanames) :
    StackNames { initParserData config analyzer docinfo with isHtml } := by
  refine ⟨?_, ?_⟩
  · intro t ht
    rw [List.mem_singleton.mp ht]
    exact h
  · intro t ht hne
    rw [List.mem_singleton.mp ht] at hne
    exact absurd rfl hne

theorem defaultMetaname_mem (lcCtype : XmlStr) :
    Swish.defaultMetaname ∈ (configSetDefault lcCtype).metanames := by
  have hlook : (configSetDefault lcCtype).metanames.lookup Swish.defaultMetaname =
      some { metanameInit Swish.defaultMetaname with id := Swish.metaDefaultId } := rfl
  exact mem_of_lookup hlook

/-- In a parse whose steps resolve their names, under a config that header files made, the
names on the stacks are keys and what is looked up for them is found. -/
theorem run_stackNames {henv : HeaderEnv} {hfuel : Nat} {lcCtype : XmlStr}
    {filenames : List XmlStr} {config : Config} {analyzer : Analyzer} {docinfo : DocInfo}
    {isHtml : Bool} {events : List SaxEvent}
    (hconfig : mergeFiles henv hfuel (configSetDefault lcCtype) filenames = .ok config)
    (hresolves : Steps (saxStep env fuel) (Resolves env fuel)
      { initParserData config analyzer docinfo with isHtml } events)
    (hrun : run (saxStep env fuel) { initParserData config analyzer docinfo with isHtml } events =
      .ok pd) :
    StackNames pd ∧
      (∀ t ∈ pd.metastack.tags,
        metanameStoredAs pd.config t.baked ≠ .error (.fault .nullDeref)) ∧
      ∀ t ∈ pd.propstack.tags, t.baked ≠ Swish.domStr →
        propertyStoredAs pd.config t.baked ≠ .error (.fault .nullDeref) := by
  have hdefault : Swish.defaultMetaname ∈ config.metanames :=
    mem_metanames_mergeFiles hconfig (defaultMetaname_mem lcCtype)
  have hnames : StackNames pd :=
    invariant_of_steps (fun _ _ _ h hmeet hok => saxStep_stackNames h hmeet hok)
      (stackNames_initParserData hdefault) hresolves hrun
  exact ⟨hnames, hnames.lookups⟩

end Names

/-! ## A dotted MetaName -/

/-- `<swish><MetaNames><doc.a/></MetaNames></swish>` -/
def docDotA : Reader := ⟨metanameHeader (lit "doc.a"), true, by decide⟩

/-- A document that begins with `<doc><a>` -/
def docA : List SaxEvent :=
  [.startElementNs (lit "doc") none none [], .startElementNs (lit "a") none none []]

/-- The context `doc.a` is a MetaName and no PropertyName, so the tag is pushed as `a`, which
is none. -/
theorem run_pushes_no_metaname :
    ¬ ∀ henv hfuel lcCtype filenames config env fuel analyzer docinfo events pd,
      mergeFiles henv hfuel (configSetDefault lcCtype) filenames = .ok config →
      run (saxStep env fuel) (initParserData config analyzer docinfo) events = .ok pd →
      StackNames pd := by
  intro h
  have hnames := h (.oneFile docDotA) 1 (lit "C") [lit "a.xml"] _ .alone 0 .idle docinfoInit
    docA _ rfl rfl
  have hmem := hnames.metastack ⟨lit "a", lit "a", lit "swishdefault/a", 1⟩ (by decide +kernel)
  exact absurd hmem (by decide +kernel)

/-! ## A title within a part -/

/-- `part` among the MetaNames and the PropertyNames. -/
def partNames : Reader where
  nodes := [startNode Swish.headerRoot [], startNode Swish.metaSection [],
    startNode (lit "part") [⟨none, lit "id", lit "20"⟩], endNode Swish.metaSection,
    startNode Swish.propSection [], startNode (lit "part") [⟨none, lit "id", lit "20"⟩],
    endNode Swish.propSection, endNode Swish.headerRoot]
  complete := true
  text_not_blank := by decide

/-- The default config with `part`. -/
def partConfig : Config :=
  let c := configSetDefault (lit "C")
  { c with
    metanames := c.metanames.insert (lit "part") { metanameInit (lit "part") with id := 20 }
    properties := c.properties.insert (lit "part") { propertyInit (lit "part") with id := 20 } }

theorem mergeFiles_part : mergeFiles (.oneFile partNames) 1 (configSetDefault (lit "C"))
    [lit "part.xml"] = .ok partConfig := rfl

/-- `<part>one<swishtitle>two</swishtitle>three<swishtitle>four`, the part and the second title
still open -/
def titledPart : List SaxEvent :=
  [.startElementNs (lit "part") none none [], .characters (lit "one"),
    .startElementNs Swish.titleMetaname none none [], .characters (lit "two"),
    .endElementNs Swish.titleMetaname none, .characters (lit "three"),
    .startElementNs Swish.titleMetaname none none [], .characters (lit "four")]

theorem resolves_titledPart : Steps (saxStep .alone 0) (Resolves .alone 0)
    (initParserData partConfig .idle docinfoInit) titledPart := by
  refine steps_cons_of_ok ?_ rfl (steps_cons_of_ok trivial rfl (steps_cons_of_ok ?_ rfl
    (steps_cons_of_ok trivial rfl (steps_cons_of_ok endMeets_free rfl
      (steps_cons_of_ok trivial rfl (steps_cons_of_ok ?_ rfl
        (steps_cons_of_ok trivial rfl steps_nil)))))))
  all_goals
    refine eventMeets_of_bare rfl fun swishtag hnorm => ⟨trivial, fun pd hundef => ?_⟩
    cases hnorm
    cases hundef
    exact fun _ => by decide +kernel

/-- The part and the second title are on the stacks. -/
theorem run_stackNames_title : ∃ pd,
    run (saxStep .alone 0) (initParserData partConfig .idle docinfoInit) titledPart = .ok pd ∧
      pd.metastack.tags.map (·.raw) = [Swish.titleMetaname, lit "part", Swish.defaultMetaname] ∧
      StackNames pd := by
  have hstack : (run (saxStep .alone 0) (initParserData partConfig .idle docinfoInit)
      titledPart).toOption.map (·.metastack.tags.map (·.raw)) =
        some [Swish.titleMetaname, lit "part", Swish.defaultMetaname] := by
    decide +kernel
  obtain ⟨pd, hrun, hraw⟩ := exists_ok_of_map hstack
  exact ⟨pd, hrun, hraw, (run_stackNames mergeFiles_part resolves_titledPart hrun).1⟩

end LibSwish3
