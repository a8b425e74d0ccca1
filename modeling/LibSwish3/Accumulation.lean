import LibSwish3.Attribution

/-!
# The text of a Property

Text belongs to every Property whose element is around it.  The parser keeps one buffer for all
of them: where a Property begins or ends, what is in the buffer goes to each Property on the
stack, cleaned on the way, and the buffer is emptied.  `Accumulating` says how far each of them
has got: what it has received, with what is in the buffer if its element is open, is the text
inside it so far.

## Main definitions

* `PlainProperties`, `PropertyDocument` — the documents in question.
* `within` — the text inside a Property.
* `run_accumulates` — each Property has received it.
-/

namespace LibSwish3

open Runs Tables

/-! ## Documents -/

/-- Names mean themselves, and the text of every Property is cleaned. -/
structure PlainProperties (c : Config) : Prop where
  undefMetas : c.flags.undefMetas = .index
  metaAlias : ∀ k m, c.metanames.lookup k = some m → m.aliasFor = .null
  metaDot : ∀ k ∈ c.metanames, Swish.dot ∉ k
  propAlias : ∀ k p, c.properties.lookup k = some p → p.aliasFor = .null
  propDot : ∀ k ∈ c.properties, Swish.dot ∉ k
  cleaned : ∀ k p, c.properties.lookup k = some p → p.verbatim = false

/-- Of the control bytes, XML has only tab, line feed and carriage return. -/
def XmlText (s : XmlStr) : Prop := ∀ b ∈ s, b < 32 → b = 9 ∨ b = 10 ∨ b = 13

/-- A balanced sequence of start tags, texts and end tags, seen from inside the open elements,
in which no Property is inside itself. -/
def PropertyDocument (env : SaxEnv) (c : Config) :
    (elements : List XmlStr) → List SaxEvent → Prop
  | elements, [] => elements = []
  | elements, .startElementNs name none _ [] :: es =>
    PlainName env c elements name ∧ (name ∈ c.properties → name ∉ elements) ∧
      PropertyDocument env c (name :: elements) es
  | elements, .endElementNs name none :: es =>
    ∃ rest, elements = name :: rest ∧ PropertyDocument env c rest es
  | elements, .characters ch :: es => XmlText ch ∧ PropertyDocument env c elements es
  | _, _ :: _ => False

/-- The text of the events that is inside an element `p`. -/
def within (p : XmlStr) : (elements : List XmlStr) → List SaxEvent → XmlStr
  | _, [] => []
  | elements, .startElementNs name _ _ _ :: es => within p (name :: elements) es
  | elements, .endElementNs _ _ :: es => within p elements.tail es
  | elements, .characters ch :: es =>
    (if p ∈ elements then ch else []) ++ within p elements es
  | elements, _ :: es => within p elements es

/-! ## Cleaning -/

/-- A text whose control bytes are blanks and bumpers. -/
def Clean (s : XmlStr) : Prop :=
  ∀ b ∈ s, b < 32 → (isspace b || Swish.tokenposBumper.contains b) = true

section Clean

variable {s t : XmlStr}

theorem XmlText.clean (h : XmlText s) : Clean s := by
  intro b hb hlow
  rcases h b hb hlow with rfl | rfl | rfl <;> decide

theorem clean_nil : Clean [] := by simp [Clean]

theorem Clean.append (hs : Clean s) (ht : Clean t) : Clean (s ++ t) := by
  intro b hb
  rcases List.mem_append.mp hb with hb | hb
  · exact hs b hb
  · exact ht b hb

theorem Clean.subset (hs : Clean s) (h : ∀ b ∈ t, b ∈ s) : Clean t :=
  fun b hb => hs b (h b hb)

theorem Clean.bufferText (hs : Clean s) (ht : Clean t) (bumpWord : Bool) :
    Clean (bufferText bumpWord s t) := by
  have hbumper : Clean Swish.tokenposBumper := by
    intro b hb _
    rw [List.mem_singleton.mp hb]
    decide
  rw [LibSwish3.bufferText]
  split
  · exact (hs.append hbumper).append ht
  · exact hs.append ht

theorem Clean.cstr (h : Clean s) : cstr s = s := by
  refine cstr_of_noNul fun hzero => ?_
  exact absurd (h 0 hzero (by decide)) (by decide)

theorem Clean.strCtrlToWs (h : Clean s) : Clean (strCtrlToWs s) := by
  rw [LibSwish3.strCtrlToWs]
  split
  · intro b hb hlow
    obtain ⟨a, -, rfl⟩ := List.mem_map.mp hb
    split at hlow
    · rename_i ha
      simp [ha, isspace]
    · rename_i ha
      exact absurd hlow ha
  · exact h

/-- Only blanks and bumpers have become blanks. -/
theorem bare_strCtrlToWs (h : Clean s) : bare (strCtrlToWs s) = bare s := by
  rw [strCtrlToWs]
  split
  · clear * - h
    induction s with
    | nil => rfl
    | cons b s ih =>
        have htail := ih (h.subset fun a ha => List.mem_cons_of_mem b ha)
        rw [List.map_cons]
        by_cases hlow : b < 32
        · have hgone := h b (by simp) hlow
          have hbare : bare (b :: s) = bare s := by
            simp only [bare, List.filter_cons, ← Bool.not_or, hgone]
            rfl
          rw [if_pos hlow, hbare, ← htail]
          rfl
        · rw [if_neg hlow]
          simp only [bare, List.filter_cons] at htail ⊢
          rw [htail]
  · rfl

@[simp] theorem bare_strSkipWs (s : XmlStr) : bare (strSkipWs s) = bare s := by
  induction s with
  | nil => rfl
  | cons b s ih =>
      by_cases hb : isspace b = true
      · have hskip : strSkipWs (b :: s) = strSkipWs s := by simp [strSkipWs, hb]
        rw [hskip, ih]
        simp [bare, hb]
      · simp [strSkipWs, hb]

@[simp] theorem bare_strTrimWs (s : XmlStr) : bare (strTrimWs s) = bare s := by
  have hreverse : ∀ t : XmlStr, bare t.reverse = (bare t).reverse := fun _ => List.filter_reverse ..
  show bare (strSkipWs s.reverse).reverse = bare s
  rw [hreverse, bare_strSkipWs, hreverse, List.reverse_reverse]

theorem mem_of_mem_strSkipWs {b : XmlChar} (h : b ∈ strSkipWs s) : b ∈ s :=
  (List.dropWhile_sublist _).subset h

theorem mem_of_mem_strTrimWs {b : XmlChar} (h : b ∈ strTrimWs s) : b ∈ s := by
  have hmem : b ∈ strSkipWs s.reverse := List.mem_reverse.mp h
  exact List.mem_reverse.mp (mem_of_mem_strSkipWs hmem)

theorem bare_cleanedText (h : Clean s) : bare (cleanedText true s) = bare s := by
  simp [cleanedText, h.cstr, bare_strCtrlToWs h]

theorem bare_cleanedInPlace (h : Clean s) : bare (cleanedInPlace true s) = bare s := by
  rw [cleanedInPlace]
  split
  · rfl
  · have hblank : ∀ t : XmlStr, bare (t.takeWhile isspace) = [] := by
      intro t
      refine bare_of_strAllWs (List.all_eq_true.mpr ?_)
      exact fun b hb => List.mem_takeWhile_imp hb
    simp [h.cstr, hblank, bare_strCtrlToWs h]

theorem Clean.cleanedInPlace (h : Clean s) : Clean (cleanedInPlace true s) := by
  rw [LibSwish3.cleanedInPlace]
  split
  · exact h
  · rw [h.cstr]
    refine h.strCtrlToWs.subset fun b hb => ?_
    rcases List.mem_append.mp hb with hb | hb
    · exact (List.takeWhile_sublist _).subset hb
    · exact mem_of_mem_strSkipWs (mem_of_mem_strTrimWs hb)

end Clean

/-! ## Distribution -/

section Distribution

/-- Adding a text to a buffer, cleaned. -/
theorem nbAddStr_clean {nb : NamedBuffer} {name buf : XmlStr} (hclean : Clean buf)
    (hmem : name ∈ nb) :
    ∃ nb', nbAddStr nb name buf Swish.tokenposBumper true false = .ok nb' ∧
      (∀ k, k ∈ nb' ↔ k ∈ nb) ∧
      ∀ k, bare (nb'.content k) = bare (nb.content k) ++ if k = name then bare buf else [] := by
  have hadded : ∃ nb', nbAddStr nb name buf Swish.tokenposBumper true false = .ok nb' :=
    nbAddStr_ok_of _ _ _ (.inr hmem)
  obtain ⟨nb', hadd⟩ := hadded
  refine ⟨nb', hadd, mem_nbAddStr hadd, ?_⟩
  intro k
  rw [content_nbAddStr hadd k, hclean.cstr]
  by_cases hk : k = name
  · cases hws : strAllWs buf
    · simp [hk, bare_cleanedText hclean]
    · simp [hk, bare_of_strAllWs hws]
  · simp [hk]

/-- Every name on the stack but the bottom one gets the buffer once. -/
theorem propStack_distributes {s : NamedBuffer × XmlStr} {tags : List Tag} (hclean : Clean s.2)
    (hnodup : (tags.map Tag.baked).Nodup)
    (htags : ∀ t ∈ tags, t.baked = Swish.domStr ∨ t.baked ∈ s.1) :
    ∃ s', run (propStackStep true) s tags = .ok s' ∧ (∀ k, k ∈ s'.1 ↔ k ∈ s.1) ∧
      ∀ k, bare (s'.1.content k) = bare (s.1.content k) ++
        if k ≠ Swish.domStr ∧ k ∈ tags.map Tag.baked then bare s.2 else [] := by
  induction tags generalizing s with
  | nil => exact ⟨s, rfl, fun _ => Iff.rfl, fun k => by simp⟩
  | cons t tags ih =>
      rw [List.map_cons, List.nodup_cons] at hnodup
      obtain ⟨hnew, hnodup⟩ := hnodup
      have hrest : ∀ u ∈ tags, u.baked = Swish.domStr ∨ u.baked ∈ s.1 :=
        fun u hu => htags u (List.mem_cons_of_mem t hu)
      by_cases hdom : t.baked = Swish.domStr
      · obtain ⟨s', hrun, hkeys, htext⟩ := ih hclean hnodup hrest
        have hstep : propStackStep true s t = .ok s := by simp [propStackStep, hdom]
        refine ⟨s', by rw [run_cons_of_ok hstep, hrun], hkeys, ?_⟩
        intro k
        rw [htext k]
        by_cases hk : k = Swish.domStr
        · simp [hk]
        · simp [hk, hdom]
      · have hmem : t.baked ∈ s.1 := (htags t (by simp)).resolve_left hdom
        obtain ⟨nb, hadd, hkeys, htext⟩ := nbAddStr_clean hclean hmem
        have hstep : propStackStep true s t = .ok (nb, cleanedInPlace true s.2) := by
          simp [propStackStep, hdom, hadd]
        obtain ⟨s', hrun, hkeys', htext'⟩ := ih (s := (nb, cleanedInPlace true s.2))
          hclean.cleanedInPlace hnodup fun u hu => (hrest u hu).imp_right (hkeys _).mpr
        refine ⟨s', by rw [run_cons_of_ok hstep, hrun], fun k => (hkeys' k).trans (hkeys k), ?_⟩
        intro k
        rw [htext' k, htext k, bare_cleanedInPlace hclean]
        by_cases hk : k = t.baked
        · subst hk
          simp [hdom, hnew]
        · simp [hk]

/-- The open elements, innermost first, with no Property inside itself. -/
structure Unnested (c : Config) (elements : List XmlStr) : Prop where
  nodup : (elements.filter (· ∈ c.properties)).Nodup
  noSlash : Swish.domStr ∉ elements

variable {c : Config} {name : XmlStr} {elements : List XmlStr}

theorem Unnested.tail (h : Unnested c (name :: elements)) : Unnested c elements := by
  refine ⟨?_, fun hmem => h.noSlash (List.mem_cons_of_mem _ hmem)⟩
  exact h.nodup.sublist ((List.sublist_cons_self name elements).filter _)

theorem Unnested.cons (h : Unnested c elements) (hslash : Swish.domChar ∉ name)
    (hnew : name ∈ c.properties → name ∉ elements) : Unnested c (name :: elements) := by
  refine ⟨?_, ?_⟩
  · by_cases hmem : name ∈ c.properties
    · simp [hmem, hnew hmem, h.nodup]
    · simpa [hmem] using h.nodup
  · intro hmem
    rcases List.mem_cons.mp hmem with rfl | hmem
    · exact hslash (by decide)
    · exact h.noSlash hmem

theorem Unnested.not_mem (h : Unnested c (name :: elements)) (hmem : name ∈ c.properties) :
    name ∉ elements := by
  have hnodup := h.nodup
  rw [List.filter_cons_of_pos (by simpa using hmem), List.nodup_cons] at hnodup
  intro hin
  exact hnodup.1 (List.mem_filter.mpr ⟨hin, by simpa using hmem⟩)

theorem Unnested.nodup_propNames (h : Unnested c elements) : (propNames c elements).Nodup := by
  rw [propNames, List.nodup_append]
  refine ⟨h.nodup, by simp, ?_⟩
  rintro a ha b hb rfl
  rw [List.mem_singleton.mp hb] at ha
  exact h.noSlash (List.mem_filter.mp ha).1

theorem mem_propNames (h : name ∈ c.properties) :
    name ≠ Swish.domStr ∧ name ∈ propNames c elements ↔
      name ≠ Swish.domStr ∧ name ∈ elements := by
  simp only [propNames, List.mem_append, List.mem_filter, List.mem_singleton, decide_eq_true_eq]
  tauto

/-- The Property that ends takes the buffer, which is cleaned in place. -/
theorem addToProperty_distributes (pd : ParserData) (baked : Option XmlStr)
    (hc : PlainProperties pd.config) (hbaked : ∀ k ∈ baked, k ∈ pd.config.properties)
    (hnb : ∀ k, k ∈ pd.properties ↔ k ∈ pd.config.properties) (hclean : Clean pd.propBuf) :
    ∃ s, addToProperty pd baked = .ok (s, true) ∧ Clean s.2 ∧
      bare s.2 = bare pd.propBuf ∧ (∀ k, k ∈ s.1 ↔ k ∈ pd.config.properties) ∧
      ∀ k, bare (s.1.content k) = bare (pd.properties.content k) ++
        if k ∈ baked then bare pd.propBuf else [] := by
  cases baked with
  | none =>
      exact ⟨(pd.properties, pd.propBuf), rfl, hclean, rfl, hnb, fun k => by simp⟩
  | some name =>
      obtain ⟨prop, hlook⟩ := mem_iff_exists_lookup.mp (hbaked name rfl)
      have hstored : propertyStoredAs pd.config name = .ok (name, true) := by
        simp only [propertyStoredAs, hlook, hc.propAlias name prop hlook,
          hc.cleaned name prop hlook]
        rfl
      obtain ⟨nb, hadd, hkeys, htext⟩ :=
        nbAddStr_clean hclean ((hnb name).mpr (hbaked name rfl))
      refine ⟨(nb, cleanedInPlace true pd.propBuf), ?_, hclean.cleanedInPlace,
        bare_cleanedInPlace hclean, fun k => (hkeys k).trans (hnb k), ?_⟩
      · simp only [addToProperty, hstored, bind, Except.bind, hadd]
        rfl
      · intro k
        simp only [htext k, Option.mem_some_iff, eq_comm]

/-- The Property that ends gets the buffer, and so does each on the stack. -/
theorem addStackToPropBuf_distributes (pd : ParserData) (baked : Option XmlStr)
    (hc : PlainProperties pd.config) (hstack : Named pd.propstack (propNames pd.config elements))
    (hbaked : ∀ k ∈ baked, k ∈ pd.config.properties)
    (hopen : Unnested pd.config (baked.toList ++ elements))
    (hnb : ∀ k, k ∈ pd.properties ↔ k ∈ pd.config.properties) (hclean : Clean pd.propBuf) :
    ∃ properties, addStackToPropBuf pd baked = .ok { pd with properties, propBuf := [] } ∧
      (∀ k, k ∈ properties ↔ k ∈ pd.config.properties) ∧
      ∀ p ∈ pd.config.properties, bare (properties.content p) = bare (pd.properties.content p) ++
        if p ∈ baked.toList ++ elements then bare pd.propBuf else [] := by
  have hinner : Unnested pd.config elements := by
    cases baked with
    | none => exact hopen
    | some k => exact hopen.tail
  obtain ⟨s, hadd, hclean', hbare, hkeys, htext⟩ :=
    addToProperty_distributes pd baked hc hbaked hnb hclean
  have hnodup : (pd.propstack.tags.map Tag.baked).Nodup := by
    rw [hstack.baked]
    exact hinner.nodup_propNames
  obtain ⟨⟨properties, propBuf⟩, hrun, hkeys', htext'⟩ :=
    propStack_distributes hclean' hnodup fun t ht =>
      (propNames_cases (hstack.baked_mem ht)).imp_right (hkeys _).mpr
  refine ⟨properties, ?_, fun k => (hkeys' k).trans (hkeys k), ?_⟩
  · simp only [addStackToPropBuf, hadd, bind, Except.bind, hrun]
    rfl
  · intro p hp
    rw [htext' p, htext p, hbare, hstack.baked]
    simp only [mem_propNames hp]
    cases baked with
    | none =>
        by_cases hmem : p ∈ elements
        · have hne : p ≠ Swish.domStr := by
            rintro rfl
            exact hinner.noSlash hmem
          simp [hmem, hne]
        · simp [hmem]
    | some name =>
        by_cases hname : p = name
        · subst hname
          have hnot : p ∉ elements := hopen.not_mem hp
          simp [hnot]
        · by_cases hmem : p ∈ elements
          · have hne : p ≠ Swish.domStr := by
              rintro rfl
              exact hinner.noSlash hmem
            simp [hmem, hne, Ne.symm hname]
          · simp [hmem, hname, Ne.symm hname]

end Distribution

/-! ## The simulation -/

/-- The parser inside the open elements, when `done` is the text so far inside each Property. -/
structure Accumulating (c : Config) (elements : List XmlStr) (done : XmlStr → XmlStr)
    (pd : ParserData) : Prop where
  config : pd.config = c
  xml : pd.isHtml = false
  shown : pd.ignoreContent = 0
  tag : pd.tag ≠ .freed
  domstack : Named pd.domstack elements
  propstack : Named pd.propstack (propNames c elements)
  unnested : Unnested c elements
  buffers : ∀ k, k ∈ pd.properties ↔ k ∈ c.properties
  clean : Clean pd.propBuf
  text : ∀ p ∈ c.properties, bare (pd.properties.content p) ++
    (if p ∈ elements then bare pd.propBuf else []) = bare (done p)

/-- The same parser, ready to flush its other buffer. -/
structure Flushable (c : Config) (analyzer : Analyzer) (elements : List XmlStr)
    (pd : ParserData) : Prop where
  analyzer : pd.analyzer = analyzer
  metastack : Named pd.metastack (metaNames c elements)
  plainText : PlainText pd.metaBuf

section Steps

variable {env : SaxEnv} {fuel : Nat} {c : Config} {analyzer : Analyzer} {elements : List XmlStr}
  {done : XmlStr → XmlStr} {pd pd' : ParserData} {name : XmlStr}

/-- Where a Property begins, the ones around it get the buffer. -/
theorem pushProperty_distributes (pd : ParserData) (name : XmlStr)
    (hc : PlainProperties pd.config) (hstack : Named pd.propstack (propNames pd.config elements))
    (hopen : Unnested pd.config (name :: elements))
    (hnb : ∀ k, k ∈ pd.properties ↔ k ∈ pd.config.properties) (hclean : Clean pd.propBuf) :
    ∃ properties propBuf propstack,
      pushProperty pd name (some name) (dottedPath name elements) =
        .ok { pd with properties, propBuf, propstack } ∧
      Named propstack (propNames pd.config (name :: elements)) ∧
      (∀ k, k ∈ properties ↔ k ∈ pd.config.properties) ∧ Clean propBuf ∧
      ∀ p ∈ pd.config.properties, bare (properties.content p) ++
          (if p ∈ name :: elements then bare propBuf else []) =
        bare (pd.properties.content p) ++ if p ∈ elements then bare pd.propBuf else [] := by
  by_cases hmem : name ∈ pd.config.properties
  · obtain ⟨properties, hadd, hkeys, htext⟩ := addStackToPropBuf_distributes pd none hc hstack
      (by simp) (by exact hopen.tail) hnb hclean
    refine ⟨properties, [], pd.propstack.push name name Swish.domChar,
      pushProperty_of_mem elements hc.propDot hmem hadd, ?_, hkeys, clean_nil, ?_⟩
    · rw [propNames_cons_of_mem hmem]
      exact hstack.push Swish.domChar
    · intro p hp
      rw [bare_nil, ite_self, List.append_nil]
      exact htext p hp
  · refine ⟨pd.properties, pd.propBuf, pd.propstack,
      pushProperty_of_not_mem elements hc.propDot hmem, ?_, hnb, hclean, ?_⟩
    · rwa [propNames_cons_of_not_mem hmem]
    · intro p hp
      have hne : p ≠ name := by
        rintro rfl
        exact hmem hp
      simp [hne]

/-- Where a Property ends, it and the ones around it get the buffer. -/
theorem popProperty_distributes (pd : ParserData) (name : XmlStr)
    (hc : PlainProperties pd.config)
    (hstack : Named pd.propstack (propNames pd.config (name :: elements)))
    (hopen : Unnested pd.config (name :: elements))
    (hnb : ∀ k, k ∈ pd.properties ↔ k ∈ pd.config.properties) (hclean : Clean pd.propBuf) :
    ∃ properties propBuf propstack,
      popProperty pd name = .ok { pd with properties, propBuf, propstack } ∧
      Named propstack (propNames pd.config elements) ∧
      (∀ k, k ∈ properties ↔ k ∈ pd.config.properties) ∧ Clean propBuf ∧
      ∀ p ∈ pd.config.properties, bare (properties.content p) ++
          (if p ∈ elements then bare propBuf else []) =
        bare (pd.properties.content p) ++
          if p ∈ name :: elements then bare pd.propBuf else [] := by
  by_cases hmem : name ∈ pd.config.properties
  · obtain ⟨propstack, hpop, hrest⟩ := popProperty_of_mem hmem hstack
    obtain ⟨properties, hadd, hkeys, htext⟩ := addStackToPropBuf_distributes { pd with propstack }
      (some name) hc hrest (by simpa using hmem) hopen hnb hclean
    refine ⟨properties, [], propstack, hpop.trans hadd, hrest, hkeys, clean_nil, ?_⟩
    intro p hp
    simpa using htext p hp
  · rw [propNames_cons_of_not_mem hmem] at hstack
    have hroot : name ≠ Swish.domStr := by
      rintro rfl
      exact hopen.noSlash (by simp)
    refine ⟨pd.properties, pd.propBuf, pd.propstack, popProperty_of_not_mem hmem hroot hstack,
      hstack, hnb, hclean, ?_⟩
    intro p hp
    have hne : p ≠ name := by
      rintro rfl
      exact hmem hp
    simp [hne]

theorem accumulating_push (hc : PlainProperties c) (hslash : Swish.domChar ∉ name)
    (hnew : name ∈ c.properties → name ∉ elements) (h : Accumulating c elements done pd)
    {tag : CPtr XmlStr} (htag : tag ≠ .freed)
    (hok : pushTags { pd with tag, bumpWord := true } name (some name) = .ok pd') :
    Accumulating c (name :: elements) done pd' := by
  obtain ⟨rfl, hxml, hshown, -, hdom, hprop, hopen, hnb, hclean, htext⟩ := h
  have hctx : flattenTagStack name pd.domstack Swish.dot = dottedPath name elements := by
    rw [flattenTagStack_eq, hdom.baked]
  have hopen' := hopen.cons hslash hnew
  obtain ⟨properties, propBuf, propstack, hpush, hprop', hnb', hclean', htext'⟩ :=
    pushProperty_distributes
      { pd with tag, bumpWord := true, domstack := pd.domstack.push name name Swish.dot } name hc
      hprop hopen' hnb hclean
  obtain ⟨top, htop, hok⟩ := bind_ok_iff.mp hok
  have hcontext : top.context = dottedPath name elements := by
    cases htop
    exact hctx
  rw [hcontext] at hok
  obtain ⟨pd₁, hpush₁, hok⟩ := bind_ok_iff.mp hok
  cases hpush₁.symm.trans hpush
  obtain ⟨metanames, tokens, nwords, metaBuf, metastack, rfl⟩ := pushMetaname_fields hok
  exact {
    config := rfl
    xml := hxml
    shown := hshown
    tag := htag
    domstack := hdom.push Swish.dot
    propstack := hprop'
    unnested := hopen'
    buffers := hnb'
    clean := hclean'
    text := fun p hp => (htext' p hp).trans (htext p hp) }

theorem accumulating_pop (hc : PlainProperties c)
    (h : Accumulating c (name :: elements) done pd) {tag : CPtr XmlStr} (htag : tag ≠ .freed)
    (hok : popTags { pd with tag, bumpWord := true } name = .ok pd') :
    Accumulating c elements done pd' := by
  obtain ⟨rfl, hxml, hshown, -, hdom, hprop, hopen, hnb, hclean, htext⟩ := h
  obtain ⟨properties, propBuf, propstack, hpop, hprop', hnb', hclean', htext'⟩ :=
    popProperty_distributes { pd with tag, bumpWord := true } name hc hprop hopen hnb hclean
  obtain ⟨pd₁, hpop₁, hok⟩ := bind_ok_iff.mp hok
  cases hpop₁.symm.trans hpop
  obtain ⟨pd₂, hmeta, hok⟩ := bind_ok_iff.mp hok
  obtain ⟨metanames, tokens, nwords, metaBuf, metastack, rfl⟩ := popMetaname_fields hmeta
  obtain ⟨top, domstack, hpopd, hdom'⟩ := hdom.pop
  simp only [hpopd] at hok
  cases hok
  exact {
    config := rfl
    xml := hxml
    shown := hshown
    tag := htag
    domstack := hdom'
    propstack := hprop'
    unnested := hopen.tail
    buffers := hnb'
    clean := hclean'
    text := fun p hp => (htext' p hp).trans (htext p hp) }

theorem accumulating_start (hc : PlainProperties c) (hname : PlainName env c elements name)
    (hnew : name ∈ c.properties → name ∉ elements) (uri : Option XmlStr)
    (h : Accumulating c elements done pd)
    (hok : saxStep env fuel pd (.startElementNs name none uri []) = .ok pd') :
    Accumulating c (name :: elements) done pd' := by
  have hc' : PlainProperties pd.config := h.config ▸ hc
  have hname' : PlainName env pd.config elements name := h.config ▸ hname
  rw [saxStep_start_plain fuel hc'.undefMetas h.xml h.shown h.tag h.domstack hname' uri] at hok
  exact accumulating_push hc hname.noSlash hnew h (by simp) hok

theorem accumulating_end (hc : PlainProperties c) {outer : List XmlStr}
    (hname : PlainName env c outer name) (h : Accumulating c (name :: elements) done pd)
    (hok : saxStep env fuel pd (.endElementNs name none) = .ok pd') :
    Accumulating c elements done pd' := by
  have hc' : PlainProperties pd.config := h.config ▸ hc
  obtain ⟨tag, htag, hclose⟩ := closeTag_plain hc'.undefMetas h.xml h.shown h.tag hname
  exact accumulating_pop hc h htag (hclose.symm.trans hok)

theorem accumulating_characters {ch : XmlStr} (hch : XmlText ch)
    (h : Accumulating c elements done pd) :
    Accumulating c elements (fun p => done p ++ if p ∈ elements then ch else [])
      (bufferCharacters pd ch) := by
  rw [bufferCharacters_shown h.shown]
  refine ⟨h.config, h.xml, h.shown, h.tag, h.domstack, h.propstack, h.unnested, h.buffers,
    h.clean.bufferText hch.clean pd.bumpWord, ?_⟩
  intro p hp
  have htext := h.text p hp
  by_cases hmem : p ∈ elements
  · simp only [hmem, if_true, bare_bufferText, bare_append] at htext ⊢
    rw [← htext, List.append_assoc]
  · simpa [hmem] using htext

/-- From any point of a document on, each Property gets what is inside it. -/
theorem run_accumulating (hc : PlainProperties c) {events : List SaxEvent}
    (hdoc : PropertyDocument env c elements events)
    (hopen : ∀ name ∈ elements, PlainName env c [] name)
    (h : Accumulating c elements done pd) (hrun : run (saxStep env fuel) pd events = .ok pd') :
    Accumulating c [] (fun p => done p ++ within p elements events) pd' := by
  induction events generalizing elements done pd with
  | nil =>
      have hnil : elements = [] := by simpa [PropertyDocument] using hdoc
      subst hnil
      cases hrun
      simpa [within] using h
  | cons e events ih =>
      obtain ⟨pd₁, hstep, hrest⟩ := run_cons_ok_iff.mp hrun
      match e with
      | .startElementNs name none uri [] =>
          obtain ⟨hname, hnew, hdoc⟩ := hdoc
          exact ih hdoc (by simpa [hname.root] using hopen)
            (accumulating_start hc hname hnew uri h hstep) hrest
      | .endElementNs name none =>
          obtain ⟨rest, rfl, hdoc⟩ := hdoc
          exact ih hdoc (fun n hn => hopen n (List.mem_cons_of_mem name hn))
            (accumulating_end hc (hopen name (by simp)) h hstep) hrest
      | .characters ch =>
          obtain ⟨hch, hdoc⟩ := hdoc
          cases hstep
          have h' := ih hdoc hopen (accumulating_characters hch h) hrest
          simpa [within, List.append_assoc] using h'

theorem accumulating_initParserData (analyzer : Analyzer) (docinfo : DocInfo) :
    Accumulating c [] (fun _ => []) (initParserData c analyzer docinfo) where
  config := rfl
  xml := rfl
  shown := rfl
  tag := by simp [initParserData]
  domstack := ⟨rfl, rfl⟩
  propstack := ⟨rfl, rfl⟩
  unnested := ⟨by simp, by simp⟩
  buffers _ := mem_nbInit
  clean := clean_nil
  text p _ := by simp [initParserData, content_nbInit]

end Steps

/-! ## The parse returns -/

section Returns

variable {env : SaxEnv} {fuel : Nat} {c : Config} {analyzer : Analyzer} {elements : List XmlStr}
  {done : XmlStr → XmlStr} {pd : ParserData} {name context : XmlStr} {events : List SaxEvent}

theorem cascadeMetas_returns (pd : ParserData) (storedAs : XmlStr) (metanames : NamedBuffer) :
    ∃ metanames', cascadeMetas pd storedAs metanames = .ok metanames' := by
  rw [cascadeMetas]
  split
  · have hsteps : ∀ (nb : NamedBuffer) (t : Tag), True → True →
        ∃ nb', cascadeStep pd.metaBuf storedAs nb t = .ok nb' ∧ True := by
      intro nb t _ _
      rw [cascadeStep]
      split
      · exact ⟨nb, rfl, trivial⟩
      · have hadded : ∃ nb', nbAddStr nb t.baked pd.metaBuf Swish.tokenposBumper false true =
            .ok nb' := nbAddStr_ok_of _ _ _ (.inl rfl)
        obtain ⟨nb', hadd⟩ := hadded
        exact ⟨nb', hadd, trivial⟩
    obtain ⟨metanames', hrun, -⟩ := progress hsteps trivial (steps_of_forall fun _ _ => trivial)
    exact ⟨metanames', hrun⟩
  · exact ⟨metanames, rfl⟩

/-- Flushing under a MetaName that is no alias returns where the tokenizer does. -/
theorem flushBuffer_returns {m : XmlStr} (pd : ParserData) (context : XmlStr)
    (hc : PlainProperties pd.config) (htok : TokenizerReturns pd.analyzer pd.metaBuf)
    (hm : m ∈ pd.config.metanames) (hplain : PlainText pd.metaBuf) :
    ∃ metanames tokens nwords, flushBuffer pd m context = .ok { pd with
      metanames, tokens, docinfo := { pd.docinfo with nwords }, metaBuf := [] } := by
  have hstored := metanameStoredAs_plain hc.metaAlias hm
  have hadded : ∃ nb, nbAddStr pd.metanames m pd.metaBuf Swish.tokenposBumper false true =
      .ok nb := nbAddStr_ok_of _ _ _ (.inl rfl)
  obtain ⟨metanames, hadd⟩ := hadded
  obtain ⟨metanames', hcascade⟩ := cascadeMetas_returns pd m metanames
  exact ⟨metanames', flushBuffer_of_cascade context htok hm hplain hstored hadd hcascade⟩

theorem pushMetaname_returns (pd : ParserData) (name : XmlStr) (hc : PlainProperties pd.config)
    (hdefault : Swish.defaultMetaname ∈ pd.config.metanames)
    (htok : name ∈ pd.config.metanames → TokenizerReturns analyzer pd.metaBuf)
    (h : Flushable pd.config analyzer elements pd) :
    ∃ pd', pushMetaname pd name (some name) (dottedPath name elements) = .ok pd' ∧
      pd'.bumpWord = pd.bumpWord ∧
      pd'.metaBuf = (if name ∈ pd.config.metanames then [] else pd.metaBuf) ∧
      Flushable pd.config analyzer (name :: elements) pd' := by
  obtain ⟨rfl, hstack, hplain⟩ := h
  by_cases hmem : name ∈ pd.config.metanames
  · obtain ⟨context, hhead⟩ := flushHead_innermost hstack
    have hinner : innermost pd.config elements ∈ pd.config.metanames := innermost_mem hdefault
    obtain ⟨metanames, tokens, nwords, hflush⟩ :=
      flushBuffer_returns pd context hc (htok hmem) hinner hplain
    have hpush := pushMetaname_of_mem elements hmem (hhead.trans hflush) hc.metaDot hc.propDot
    refine ⟨_, hpush, rfl, (if_pos hmem).symm, rfl, ?_, plainText_nil⟩
    simp only [metaNames_cons_of_mem hmem]
    exact hstack.push Swish.domChar
  · refine ⟨pd, pushMetaname_of_not_mem elements hc.metaDot hmem, rfl, (if_neg hmem).symm, rfl,
      ?_, hplain⟩
    rwa [metaNames_cons_of_not_mem hmem]

theorem popMetaname_returns (pd : ParserData) (name : XmlStr) (hc : PlainProperties pd.config)
    (hdefault : Swish.defaultMetaname ∈ pd.config.metanames)
    (htok : name ∈ pd.config.metanames → TokenizerReturns analyzer pd.metaBuf)
    (h : Flushable pd.config analyzer (name :: elements) pd) :
    ∃ pd', popMetaname pd name = .ok pd' ∧ pd'.domstack = pd.domstack ∧
      pd'.bumpWord = pd.bumpWord ∧
      pd'.metaBuf = (if name ∈ pd.config.metanames then [] else pd.metaBuf) ∧
      Flushable pd.config analyzer elements pd' := by
  obtain ⟨rfl, hstack, hplain⟩ := h
  by_cases hmem : name ∈ pd.config.metanames
  · obtain ⟨metastack, context, hpop, hrest⟩ := popMetaname_of_mem hmem hstack
    obtain ⟨metanames, tokens, nwords, hflush⟩ :=
      flushBuffer_returns { pd with metastack } context hc (htok hmem) hmem hplain
    exact ⟨_, hpop.trans hflush, rfl, rfl, (if_pos hmem).symm, rfl, hrest, plainText_nil⟩
  · rw [metaNames_cons_of_not_mem hmem] at hstack
    exact ⟨pd, popMetaname_of_not_mem hdefault hmem hstack, rfl, rfl, (if_neg hmem).symm, rfl,
      hstack, hplain⟩

theorem flushable_start (fuel : Nat) (hc : PlainProperties c)
    (hdefault : Swish.defaultMetaname ∈ c.metanames) {uri : Option XmlStr}
    (htok : TextsTokenized analyzer c pd.bumpWord pd.metaBuf
      (.startElementNs name none uri [] :: events))
    (hname : PlainName env c elements name) (hnew : name ∈ c.properties → name ∉ elements)
    (h : Accumulating c elements done pd) (hflush : Flushable c analyzer elements pd) :
    ∃ pd', saxStep env fuel pd (.startElementNs name none uri []) = .ok pd' ∧
      Flushable c analyzer (name :: elements) pd' ∧
      TextsTokenized analyzer c pd'.bumpWord pd'.metaBuf events := by
  obtain ⟨htok, hrest⟩ := textsTokenized_start.mp htok
  obtain ⟨rfl, hxml, hshown, htag, hdom, hprop, hopen, hnb, hclean, -⟩ := h
  obtain ⟨hanalyzer, hmeta, hplain⟩ := hflush
  have hctx : flattenTagStack name pd.domstack Swish.dot = dottedPath name elements := by
    rw [flattenTagStack_eq, hdom.baked]
  obtain ⟨properties, propBuf, propstack, hpush, -⟩ := pushProperty_distributes
    { pd with
      tag := .live name, bumpWord := true
      domstack := pd.domstack.push name name Swish.dot } name hc hprop
    (hopen.cons hname.noSlash hnew) hnb hclean
  obtain ⟨pd', hpushm, hbump, hbuf, hready'⟩ := pushMetaname_returns
    { pd with
      tag := .live name, bumpWord := true
      domstack := pd.domstack.push name name Swish.dot, properties, propBuf, propstack }
    name hc hdefault htok ⟨hanalyzer, hmeta, hplain⟩
  refine ⟨pd', ?_, hready', by rwa [hbump, hbuf]⟩
  have hhead : (pd.domstack.push name name Swish.dot).head =
      .ok ⟨name, name, dottedPath name elements, pd.domstack.count⟩ :=
    TagStack.head_ok_iff.mpr (by simp [hctx])
  rw [saxStep_start_plain fuel hc.undefMetas hxml hshown htag hdom hname uri]
  simp only [pushTags, Option.getD_some, hhead, bind, Except.bind, hpush]
  exact hpushm

theorem flushable_end (fuel : Nat) (hc : PlainProperties c)
    (hdefault : Swish.defaultMetaname ∈ c.metanames)
    (htok : TextsTokenized analyzer c pd.bumpWord pd.metaBuf (.endElementNs name none :: events))
    {outer : List XmlStr} (hname : PlainName env c outer name)
    (h : Accumulating c (name :: elements) done pd)
    (hflush : Flushable c analyzer (name :: elements) pd) :
    ∃ pd', saxStep env fuel pd (.endElementNs name none) = .ok pd' ∧
      Flushable c analyzer elements pd' ∧
      TextsTokenized analyzer c pd'.bumpWord pd'.metaBuf events := by
  obtain ⟨htok, hrest⟩ := textsTokenized_end.mp htok
  obtain ⟨rfl, hxml, hshown, htag, hdom, hprop, hopen, hnb, hclean, -⟩ := h
  obtain ⟨hanalyzer, hmeta, hplain⟩ := hflush
  obtain ⟨tag, -, hclose⟩ := closeTag_plain hc.undefMetas hxml hshown htag hname
  obtain ⟨properties, propBuf, propstack, hpop, -⟩ :=
    popProperty_distributes { pd with tag, bumpWord := true } name hc hprop hopen hnb hclean
  obtain ⟨pd', hpopm, hsame, hbump, hbuf, hready'⟩ := popMetaname_returns
    { pd with tag, bumpWord := true, properties, propBuf, propstack } name hc hdefault htok
    ⟨hanalyzer, hmeta, hplain⟩
  obtain ⟨top, domstack, hpopd, -⟩ := hdom.pop
  refine ⟨{ pd' with domstack }, hclose.trans ?_,
    ⟨hready'.analyzer, hready'.metastack, hready'.plainText⟩, by rwa [hbump, hbuf]⟩
  have hpopd' : pd'.domstack.pop = (some top, domstack) := by
    rw [hsame]
    exact hpopd
  simp only [popTags, bind, Except.bind, hpop, hpopm, hpopd']
  rfl

theorem flushable_characters {ch : XmlStr} (hch : PlainText ch)
    (h : Flushable c analyzer elements pd) :
    Flushable c analyzer elements (bufferCharacters pd ch) := by
  rw [bufferCharacters]
  split
  · exact h
  · exact ⟨h.analyzer, h.metastack, h.plainText.bufferText hch pd.bumpWord⟩

/-- From any point of a document on, the parser reaches its end. -/
theorem run_flushable (fuel : Nat) (hc : PlainProperties c)
    (hdefault : Swish.defaultMetaname ∈ c.metanames)
    (hdoc : PropertyDocument env c elements events)
    (htexts : ∀ ch, .characters ch ∈ events → PlainText ch)
    (hopen : ∀ name ∈ elements, PlainName env c [] name)
    (htok : TextsTokenized analyzer c pd.bumpWord pd.metaBuf events)
    (h : Accumulating c elements done pd) (hflush : Flushable c analyzer elements pd) :
    ∃ pd', run (saxStep env fuel) pd events = .ok pd' ∧ Flushable c analyzer [] pd' ∧
      TokenizerReturns analyzer pd'.metaBuf := by
  induction events generalizing elements done pd with
  | nil =>
      have hnil : elements = [] := by simpa [PropertyDocument] using hdoc
      subst hnil
      exact ⟨pd, rfl, hflush, textsTokenized_nil.mp htok⟩
  | cons e events ih =>
      have htexts' : ∀ ch, .characters ch ∈ events → PlainText ch :=
        fun ch hch => htexts ch (List.mem_cons_of_mem e hch)
      match e with
      | .startElementNs name none uri [] =>
          obtain ⟨hname, hnew, hdoc⟩ := hdoc
          obtain ⟨pd₁, hstep, hflush₁, htok₁⟩ :=
            flushable_start fuel hc hdefault htok hname hnew h hflush
          obtain ⟨pd₂, hrun, hflush₂⟩ := ih hdoc htexts' (by simpa [hname.root] using hopen)
            htok₁ (accumulating_start hc hname hnew uri h hstep) hflush₁
          exact ⟨pd₂, by rw [run_cons_of_ok hstep, hrun], hflush₂⟩
      | .endElementNs name none =>
          obtain ⟨rest, rfl, hdoc⟩ := hdoc
          have hname : PlainName env c [] name := hopen name (by simp)
          obtain ⟨pd₁, hstep, hflush₁, htok₁⟩ :=
            flushable_end fuel hc hdefault htok hname h hflush
          obtain ⟨pd₂, hrun, hflush₂⟩ := ih hdoc htexts' (fun n hn => hopen n (by simp [hn]))
            htok₁ (accumulating_end hc hname h hstep) hflush₁
          exact ⟨pd₂, by rw [run_cons_of_ok hstep, hrun], hflush₂⟩
      | .characters ch =>
          obtain ⟨hch, hdoc⟩ := hdoc
          have htok₁ : TextsTokenized analyzer c (bufferCharacters pd ch).bumpWord
              (bufferCharacters pd ch).metaBuf events := by
            rw [bufferCharacters_shown h.shown]
            exact htok
          exact ih hdoc htexts' hopen htok₁ (accumulating_characters hch h)
            (flushable_characters (htexts ch (by simp)) hflush)

end Returns

/-! ## The result -/

section Result

variable {env : SaxEnv} {c : Config} {events : List SaxEvent}

/-- Each Property has received the text inside it, all of it and nothing else, when the document
has been parsed; and it is parsed where the tokenizer returns for the texts of it. -/
theorem run_accumulates (fuel : Nat) (analyzer : Analyzer) (docinfo : DocInfo)
    (hc : PlainProperties c) (hdoc : PropertyDocument env c [] events) :
    (∀ pd, run (saxStep env fuel) (initParserData c analyzer docinfo)
        (events ++ [.endDocument]) = .ok pd →
      (∀ k, k ∈ pd.properties ↔ k ∈ c.properties) ∧
      ∀ p ∈ c.properties, bare (pd.properties.content p) = bare (within p [] events)) ∧
    (TextsTokenized analyzer c true [] events → Swish.defaultMetaname ∈ c.metanames →
      (∀ ch, .characters ch ∈ events → PlainText ch) →
      ∃ pd, run (saxStep env fuel) (initParserData c analyzer docinfo)
        (events ++ [.endDocument]) = .ok pd) := by
  have hinit := accumulating_initParserData (c := c) analyzer docinfo
  constructor
  · intro pd hrun
    obtain ⟨pd₁, hrun, hend⟩ := run_append_ok_iff.mp hrun
    have h := run_accumulating hc hdoc (by simp) hinit hrun
    rw [run_singleton] at hend
    obtain ⟨metanames, tokens, nwords, rfl⟩ := flushBuffer_ok hend
    refine ⟨h.buffers, ?_⟩
    intro p hp
    simpa using h.text p hp
  · intro htok hdefault htexts
    obtain ⟨pd, hrun, hflush, hlast⟩ := run_flushable fuel hc hdefault hdoc htexts (by simp) htok
      hinit ⟨rfl, ⟨rfl, rfl⟩, plainText_nil⟩
    have h := run_accumulating hc hdoc (by simp) hinit hrun
    obtain ⟨rfl, -⟩ := h
    obtain ⟨rfl, -, hplain⟩ := hflush
    obtain ⟨metanames, tokens, nwords, hend⟩ :=
      flushBuffer_returns pd Swish.defaultMetaname hc hlast hdefault hplain
    exact ⟨_, run_append_ok_iff.mpr ⟨pd, hrun, run_singleton.trans hend⟩⟩

/-- A config has plain Properties when its tables say so. -/
theorem plainProperties_of_entries (hindex : c.flags.undefMetas = .index)
    (hmeta : ∀ e ∈ c.metanames.entries, e.2.aliasFor = .null ∧ Swish.dot ∉ e.1)
    (hprop : ∀ e ∈ c.properties.entries,
      e.2.aliasFor = .null ∧ e.2.verbatim = false ∧ Swish.dot ∉ e.1) : PlainProperties c where
  undefMetas := hindex
  metaAlias k m hlook := (hmeta ⟨k, m⟩ (mem_entries_iff.mpr hlook)).1
  metaDot k hk := by
    obtain ⟨m, hlook⟩ := mem_iff_exists_lookup.mp hk
    exact (hmeta ⟨k, m⟩ (mem_entries_iff.mpr hlook)).2
  propAlias k p hlook := (hprop ⟨k, p⟩ (mem_entries_iff.mpr hlook)).1
  propDot k hk := by
    obtain ⟨p, hlook⟩ := mem_iff_exists_lookup.mp hk
    exact (hprop ⟨k, p⟩ (mem_entries_iff.mpr hlook)).2.2
  cleaned k p hlook := (hprop ⟨k, p⟩ (mem_entries_iff.mpr hlook)).2.1

end Result

/-- Of `<doc>one<swishtitle>two</swishtitle>three</doc>` the second text goes to `swishtitle`. -/
theorem run_accumulates_title :
    (∀ pd, run (saxStep .alone 0) (initParserData (configSetDefault (lit "C"))
        (.ofLibrary .posix 256 1) docinfoInit) (nestedTitle ++ [.endDocument]) = .ok pd →
      (∀ k, k ∈ pd.properties ↔ k ∈ (configSetDefault (lit "C")).properties) ∧
      ∀ p ∈ (configSetDefault (lit "C")).properties,
        bare (pd.properties.content p) = bare (within p [] nestedTitle)) ∧
    ∃ pd, run (saxStep .alone 0) (initParserData (configSetDefault (lit "C"))
      (.ofLibrary .posix 256 1) docinfoInit) (nestedTitle ++ [.endDocument]) = .ok pd := by
  have hc : PlainProperties (configSetDefault (lit "C")) :=
    plainProperties_of_entries rfl (by decide +kernel) (by decide +kernel)
  have hdoc : PropertyDocument .alone (configSetDefault (lit "C")) [] nestedTitle :=
    ⟨⟨rfl, by decide, by decide +kernel, by decide +kernel⟩, by simp,
      by rw [XmlText]; decide +kernel, ⟨rfl, by decide, by decide +kernel, by decide +kernel⟩,
      fun _ => by decide +kernel, by rw [XmlText]; decide +kernel, _, rfl,
      by rw [XmlText]; decide +kernel, _, rfl, rfl⟩
  obtain ⟨haccumulates, hreturns⟩ := run_accumulates 0 (.ofLibrary .posix 256 1) docinfoInit hc hdoc
  refine ⟨haccumulates, hreturns (textsTokenized_of_short (Analyzer.ofLibrary_builtIn _ _ _)
    (by decide) rfl (by decide +kernel)) (defaultMetaname_mem _) ?_⟩
  intro ch hch
  have htexts : ch = lit "one" ∨ ch = lit "two" ∨ ch = lit "three" := by
    simpa [nestedTitle] using hch
  rcases htexts with rfl | rfl | rfl <;> exact ⟨by decide, by decide⟩

end LibSwish3
