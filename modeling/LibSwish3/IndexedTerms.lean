import LibSwish3.Indexer
import LibSwish3.UniqueIds

/-!
# What a document is indexed by

The terms of a document are of several kinds, told apart by their first byte: its URI, its time,
its date, words under the prefix of a MetaName, words without a prefix, and stems.  So a term
names a document by its URI, or finds a word in the buffer of one MetaName, and no text of a
document can be mistaken for either.  The values of a document are found under the ids of its
Properties as long as these are distinct, whatever the order in which the buffers are scanned.

## Main definitions

* `NewDocument` — what `newDocument` makes.
* `Document.uri`, `hasTerm_uniqueId_iff`.
* `hasTerm_metaPrefix_iff`, `hasTerm_word_iff`.
* `NewDocument.getValue_property`, `NewDocument.getValue_docinfo`.
-/

namespace LibSwish3

open Runs Tables

/-! ## What a new document holds -/

/-- The texts that come from the buffer of a MetaName. -/
def metaTexts (m : MetaName) (metaname buffer : XmlStr) : List IndexedText :=
  let weight := if 0 < m.bias then m.bias.toNat else 1
  ⟨cstr buffer, weight, metaPrefix m.id⟩ ::
    if metaname = Swish.defaultMetaname ∨ metaname = Swish.titleMetaname then
      [⟨cstr buffer, weight, []⟩]
    else []

/-- What the docinfo puts into a slot. -/
def docinfoValue (docinfo : DocInfo) (mtime : Int) (title : XmlStr) (slot : Int) : XmlStr :=
  ((docinfoValues docinfo mtime title).lookup slot).getD []

/-- The document has been made of a parsed one. -/
structure NewDocument (env : IndexEnv) (parsed : Parsed) (doc : Document) : Prop where
  terms : ∃ tm, env.localtime parsed.mtime = some tm ∧
    doc.terms = [Swish.prefixMtime ++ intToString parsed.mtime,
      uniqueId parsed.data.docinfo.uri] ++ dateTerms tm
  texts : ∀ it, it ∈ doc.texts ↔ ∃ metaname buffer m,
    parsed.data.metanames.lookup metaname = some buffer ∧
      parsed.data.config.metanames.lookup metaname = some m ∧ it ∈ metaTexts m metaname buffer
  metanames : ∀ name, name ∈ parsed.data.metanames → name ∈ parsed.data.config.metanames
  values : ∃ title before, titleOf parsed.data = .ok title ∧
    doc.data = recordOf parsed.data.docinfo parsed.mtime title ∧
    (∀ slot, before.getValue slot = docinfoValue parsed.data.docinfo parsed.mtime title slot) ∧
    run (fun doc e => addProperties env.xapian parsed.data.config doc e.1 e.2) before
      parsed.data.properties.entries = .ok doc

variable {env : IndexEnv} {parsed : Parsed} {doc doc' : Document} {config : Config}
  {X : Xapian} {metaname name buffer : XmlStr}

theorem addMetanames_ok (h : addMetanames config doc metaname buffer = .ok doc') :
    ∃ m, config.metanames.lookup metaname = some m ∧
      doc' = { doc with texts := doc.texts ++ metaTexts m metaname buffer } := by
  unfold addMetanames getPrefix getWeight at h
  cases hm : config.metanames.lookup metaname with
  | none => rw [hm] at h; cases h
  | some m =>
      rw [hm] at h
      simp only [ok_bind, pure_eq_ok] at h
      refine ⟨m, rfl, ?_⟩
      split at h <;> rename_i hname <;> cases h <;> simp [metaTexts, hname, Document.indexText]

theorem addProperties_ok (h : addProperties X config doc name buffer = .ok doc') :
    ∃ prop value, config.properties.lookup name = some prop ∧
      propertyValue X prop (cstr buffer) = .ok value ∧ doc' = doc.addValue prop.id value := by
  unfold addProperties at h
  cases hp : config.properties.lookup name with
  | none => rw [hp] at h; cases h
  | some prop =>
      rw [hp] at h
      obtain ⟨value, hvalue, h⟩ := bind_ok_iff.mp h
      cases h
      exact ⟨prop, value, rfl, hvalue, rfl⟩

/-- The scan over the buffers of the MetaNames adds their texts and nothing else. -/
theorem run_addMetanames {es : List (Sigma fun _ : XmlStr => XmlStr)}
    (h : run (fun doc e => addMetanames config doc e.1 e.2) doc es = .ok doc') :
    (∀ e ∈ es, e.1 ∈ config.metanames) ∧
      ∃ texts, doc' = { doc with texts := doc.texts ++ texts } ∧
        ∀ it, it ∈ texts ↔ ∃ e ∈ es, ∃ m, config.metanames.lookup e.1 = some m ∧
          it ∈ metaTexts m e.1 e.2 := by
  induction es generalizing doc with
  | nil =>
      cases h
      exact ⟨by simp, [], by simp, by simp⟩
  | cons e es ih =>
      obtain ⟨doc₁, hstep, hrun⟩ := run_cons_ok_iff.mp h
      obtain ⟨m, hm, rfl⟩ := addMetanames_ok hstep
      obtain ⟨hnames, texts, rfl, htexts⟩ := ih hrun
      refine ⟨?_, metaTexts m e.1 e.2 ++ texts, by simp, ?_⟩
      · intro e' he'
        rcases List.mem_cons.mp he' with rfl | he'
        · exact mem_of_lookup hm
        · exact hnames e' he'
      · intro it
        rw [List.mem_append, htexts, List.exists_mem_cons_iff]
        refine or_congr_left ⟨fun hit => ⟨m, hm, hit⟩, ?_⟩
        rintro ⟨m', hm', hit⟩
        cases hm.symm.trans hm'
        exact hit

/-- The scan over the buffers of the Properties changes values alone. -/
theorem run_addProperties_terms {es : List (Sigma fun _ : XmlStr => XmlStr)}
    (h : run (fun doc e => addProperties X config doc e.1 e.2) doc es = .ok doc') :
    doc'.terms = doc.terms ∧ doc'.texts = doc.texts ∧ doc'.data = doc.data := by
  refine invariant (I := fun d => d.terms = doc.terms ∧ d.texts = doc.texts ∧ d.data = doc.data)
    ?_ ⟨rfl, rfl, rfl⟩ h
  intro d e d' hd hstep
  obtain ⟨prop, value, -, -, rfl⟩ := addProperties_ok hstep
  exact hd

/-- Values added one after the other, each under a slot of its own. -/
theorem foldl_addValue (doc : Document) {values : List (Int × XmlStr)}
    (hdistinct : (values.map Prod.fst).Nodup) :
    (∀ slot, (values.foldl (fun doc value => doc.addValue value.1 value.2) doc).getValue slot =
      (values.lookup slot).getD (doc.getValue slot)) ∧
    (values.foldl (fun doc value => doc.addValue value.1 value.2) doc).terms = doc.terms ∧
    (values.foldl (fun doc value => doc.addValue value.1 value.2) doc).texts = doc.texts ∧
    (values.foldl (fun doc value => doc.addValue value.1 value.2) doc).data = doc.data := by
  induction values generalizing doc with
  | nil => simp
  | cons value values ih =>
      obtain ⟨slot₀, value₀⟩ := value
      rw [List.map_cons, List.nodup_cons] at hdistinct
      obtain ⟨hvalues, hrest⟩ := ih (doc.addValue slot₀ value₀) hdistinct.2
      refine ⟨fun slot => ?_, hrest⟩
      rw [List.foldl_cons, hvalues, Document.getValue_addValue, List.lookup_cons]
      by_cases hslot : slot = slot₀
      · have hnone : values.lookup slot₀ = none := by
          rw [List.lookup_eq_none_iff]
          intro p hp
          simp only [bne_iff_ne, ne_eq]
          intro heq
          exact hdistinct.1 (List.mem_map.mpr ⟨p, hp, heq.symm⟩)
        simp [hslot, hnone]
      · simp [hslot, beq_false_of_ne hslot]

theorem newDocument_ok (h : newDocument env parsed = .ok doc) : NewDocument env parsed doc := by
  obtain ⟨title, htitle, h⟩ := bind_ok_iff.mp h
  cases htm : env.localtime parsed.mtime with
  | none => rw [htm] at h; cases h
  | some tm =>
      rw [htm] at h
      simp only [addBuffers] at h
      obtain ⟨doc₁, hmetas, hprops⟩ := bind_ok_iff.mp h
      obtain ⟨hnames, texts, hdoc₁, htexts⟩ := run_addMetanames hmetas
      obtain ⟨hterms, htexts', hdata⟩ := run_addProperties_terms hprops
      have hdistinct : ((docinfoValues parsed.data.docinfo parsed.mtime title).map
          Prod.fst).Nodup := by
        change ([5, 1, 4, 8, 9, 7, 3] : List Int).Nodup
        decide
      obtain ⟨hvalues₀, hterms₀, htexts₀, hdata₀⟩ := foldl_addValue
        { Document.empty with
          data := recordOf parsed.data.docinfo parsed.mtime title
          terms := [Swish.prefixMtime ++ intToString parsed.mtime,
            uniqueId parsed.data.docinfo.uri] ++ dateTerms tm }
        hdistinct
      refine ⟨⟨tm, htm, ?_⟩, ?_, ?_, ⟨title, doc₁, htitle, ?_, fun slot => ?_, hprops⟩⟩
      · rw [hterms, hdoc₁]
        exact hterms₀
      · intro it
        rw [htexts', hdoc₁]
        simp only [htexts₀]
        change it ∈ [] ++ texts ↔ _
        rw [List.nil_append, htexts]
        constructor
        · rintro ⟨⟨metaname, buffer⟩, he, m, hm, hit⟩
          exact ⟨metaname, buffer, m, mem_entries_iff.mp he, hm, hit⟩
        · rintro ⟨metaname, buffer, m, he, hm, hit⟩
          exact ⟨⟨metaname, buffer⟩, mem_entries_iff.mpr he, m, hm, hit⟩
      · intro name hname
        obtain ⟨buffer, hbuffer⟩ := mem_iff_exists_lookup.mp hname
        exact hnames ⟨name, buffer⟩ (mem_entries_iff.mpr hbuffer)
      · rw [hdata, hdoc₁]
        exact hdata₀
      · rw [hdoc₁]
        exact hvalues₀ slot

/-! ## The first byte of a term -/

section Bytes

variable {id id' v : Int} {c : XmlChar} {rest word word' : XmlStr}

theorem mem_intToString (h : c ∈ intToString v) : c = 45 ∨ isdigit c = true := by
  rw [intToString] at h
  split at h
  · rcases List.mem_cons.mp h with rfl | h
    · exact .inl rfl
    · exact .inr (isdigit_natToString c h)
  · exact .inr (isdigit_natToString c h)

theorem colon_notMem_intToString : 58 ∉ intToString v := by
  intro h
  rcases mem_intToString h with h | h <;> exact absurd h (by decide)

/-- A term under the prefix of a MetaName begins with a digit or a minus. -/
theorem exists_metaPrefix_cons (id : Int) (word : XmlStr) :
    ∃ c rest, metaPrefix id ++ word = c :: rest ∧ (c = 45 ∨ isdigit c = true) := by
  rw [metaPrefix]
  cases hid : intToString id with
  | nil =>
      have hne : intToString id ≠ [] := by
        rw [intToString]
        split
        · exact List.cons_ne_nil _ _
        · exact natToString_ne_nil
      exact absurd hid hne
  | cons c rest => exact ⟨c, _, rfl, mem_intToString (by rw [hid]; exact List.mem_cons_self)⟩

/-- The colon ends the prefix. -/
theorem metaPrefix_append_inj :
    metaPrefix id ++ word = metaPrefix id' ++ word' ↔ id = id' ∧ word = word' := by
  constructor
  · intro h
    have hkept : ∀ v, ∀ c ∈ intToString v, (!decide (c = 58)) = true := by
      intro v c hc
      have hne : c ≠ 58 := fun heq => colon_notMem_intToString (heq ▸ hc)
      simp [hne]
    have hsplit : ∀ v w, (metaPrefix v ++ w).takeWhile (fun c => !decide (c = 58)) =
        intToString v := by
      intro v w
      rw [metaPrefix, List.append_assoc, List.takeWhile_append_of_pos (hkept v)]
      simp [lit]
    have hid : intToString id = intToString id' := by rw [← hsplit id word, h, hsplit]
    cases intToString_inj.mp hid
    exact ⟨rfl, List.append_cancel_left h⟩
  · rintro ⟨rfl, rfl⟩
    rfl

theorem colon_mem_metaPrefix (id : Int) (word : XmlStr) : 58 ∈ metaPrefix id ++ word := by
  simp [metaPrefix, lit]

/-- The terms of a date begin with letters of their own. -/
theorem dateTerms_eq (tm : Tm) :
    dateTerms tm =
      let date := dateToString (tm.tmYear + 1900) (tm.tmMon + 1) tm.tmMday
      [68 :: date, 77 :: date.take 6, 89 :: date.take 4] := by
  simp [dateTerms, lit, List.take_take]

end Bytes

/-! ## Terms -/

/-- The URI of a document, read off its terms. -/
def Document.uri (doc : Document) : XmlStr :=
  ((doc.terms.find? fun term => term.head? = some 85).getD []).tail

section Terms

variable {c : XmlChar} {rest term word uri : XmlStr} {id : Int}

/-- A text counts under the prefix of its MetaName, or without one. -/
theorem NewDocument.text_cases (hdoc : NewDocument env parsed doc) {it : IndexedText}
    (hit : it ∈ doc.texts) : it.termPrefix = [] ∨ ∃ id, it.termPrefix = metaPrefix id := by
  obtain ⟨metaname, buffer, m, -, -, hmem⟩ := (hdoc.texts it).mp hit
  rw [metaTexts] at hmem
  rcases List.mem_cons.mp hmem with rfl | hmem
  · exact .inr ⟨m.id, rfl⟩
  · split at hmem
    · rw [List.mem_singleton] at hmem
      exact .inl (by rw [hmem])
    · cases hmem

/-- No term of a text begins with a capital letter other than `Z`. -/
theorem NewDocument.text_not_capital (hX : env.xapian.Documented)
    (hdoc : NewDocument env parsed doc) {it : IndexedText} (hit : it ∈ doc.texts)
    (hc : 65 ≤ c ∧ c < 90) :
    (c :: rest) ∉ env.xapian.indexText it.text it.termPrefix := by
  intro hterm
  rcases (hX.indexText _ _ _).mp hterm with ⟨word, hword, heq⟩ | ⟨stem, -, heq⟩
  · obtain ⟨d, rest', rfl, hd⟩ := hX.words_lower _ word hword
    rcases hdoc.text_cases hit with hnil | ⟨id, hid⟩
    · rw [hnil] at heq
      cases heq
      exact hd ⟨hc.1, by grind⟩
    · obtain ⟨d', rest'', hcons, hd'⟩ := exists_metaPrefix_cons id (d :: rest')
      rw [hid, hcons] at heq
      cases heq
      rcases hd' with rfl | hd'
      · exact absurd hc.1 (by decide)
      · simp only [isdigit, Bool.and_eq_true, decide_eq_true_eq] at hd'
        grind
  · cases heq
    exact absurd hc.2 (by decide)

/-- A term that begins with such a letter is one of those that have been added. -/
theorem NewDocument.hasTerm_capital_iff (hX : env.xapian.Documented)
    (hdoc : NewDocument env parsed doc) (hc : 65 ≤ c ∧ c < 90) :
    env.xapian.hasTerm doc (c :: rest) ↔ (c :: rest) ∈ doc.terms := by
  refine ⟨?_, .inl⟩
  rintro (hterm | ⟨it, hit, hterm⟩)
  · exact hterm
  · exact absurd hterm (hdoc.text_not_capital hX hit hc)

/-- A document has the term of its own URI and of no other. -/
theorem NewDocument.hasTerm_uniqueId_iff (hX : env.xapian.Documented)
    (hdoc : NewDocument env parsed doc) :
    env.xapian.hasTerm doc (uniqueId uri) ↔ parsed.data.docinfo.uri = uri := by
  obtain ⟨tm, -, hterms⟩ := hdoc.terms
  have hcons : ∀ u, uniqueId u = 85 :: u := fun _ => rfl
  have hmtime : Swish.prefixMtime ++ intToString parsed.mtime = 84 :: intToString parsed.mtime :=
    rfl
  rw [hcons, hdoc.hasTerm_capital_iff hX (by decide), hterms, dateTerms_eq, hcons, hmtime]
  simp [eq_comm]

theorem NewDocument.uri_eq (hdoc : NewDocument env parsed doc) :
    doc.uri = parsed.data.docinfo.uri := by
  obtain ⟨tm, -, hterms⟩ := hdoc.terms
  rw [Document.uri, hterms]
  rfl

/-- The term under the prefix of a MetaName finds the word in the buffers of the MetaNames with
its id. -/
theorem NewDocument.hasTerm_metaPrefix_iff (hX : env.xapian.Documented)
    (hdoc : NewDocument env parsed doc) :
    env.xapian.hasTerm doc (metaPrefix id ++ word) ↔
      ∃ metaname buffer m, parsed.data.metanames.lookup metaname = some buffer ∧
        parsed.data.config.metanames.lookup metaname = some m ∧ m.id = id ∧
        word ∈ env.xapian.words (cstr buffer) := by
  constructor
  · rintro (hterm | ⟨it, hit, hterm⟩)
    · obtain ⟨tm, -, hterms⟩ := hdoc.terms
      obtain ⟨c, rest, hcons, hc⟩ := exists_metaPrefix_cons id word
      have hcapital : ∃ d rest', metaPrefix id ++ word = d :: rest' ∧ 65 ≤ d := by
        rw [hterms, dateTerms_eq] at hterm
        simp only [List.cons_append, List.nil_append, List.mem_cons, List.not_mem_nil,
          or_false] at hterm
        rcases hterm with h | h | h | h | h <;> exact ⟨_, _, h, by decide⟩
      obtain ⟨d, rest', hcons', hd⟩ := hcapital
      cases hcons.symm.trans hcons'
      rcases hc with rfl | hc
      · exact absurd hd (by decide)
      · simp only [isdigit, Bool.and_eq_true, decide_eq_true_eq] at hc
        grind
    · obtain ⟨metaname, buffer, m, hbuffer, hm, hmem⟩ := (hdoc.texts it).mp hit
      rcases (hX.indexText _ _ _).mp hterm with ⟨word', hword', heq⟩ | ⟨stem, -, heq⟩
      · rw [metaTexts] at hmem
        rcases List.mem_cons.mp hmem with rfl | hmem
        · obtain ⟨rfl, rfl⟩ := metaPrefix_append_inj.mp heq
          exact ⟨metaname, buffer, m, hbuffer, hm, rfl, hword'⟩
        · split at hmem
          · rw [List.mem_singleton] at hmem
            subst hmem
            rw [List.nil_append] at heq
            exact absurd (heq ▸ colon_mem_metaPrefix id word) (hX.words_colon _ word' hword')
          · cases hmem
      · obtain ⟨c, rest, hcons, hc⟩ := exists_metaPrefix_cons id word
        rw [hcons] at heq
        cases heq
        rcases hc with hc | hc <;> exact absurd hc (by decide)
  · rintro ⟨metaname, buffer, m, hbuffer, hm, rfl, hword⟩
    refine .inr ⟨_, (hdoc.texts _).mpr ⟨metaname, buffer, m, hbuffer, hm, List.mem_cons_self⟩, ?_⟩
    exact (hX.indexText _ _ _).mpr (.inl ⟨word, hword, rfl⟩)

/-- A word without a prefix is found in the buffers of `swishdefault` and `swishtitle`. -/
theorem NewDocument.hasTerm_word_iff (hX : env.xapian.Documented)
    (hdoc : NewDocument env parsed doc) (hcolon : 58 ∉ word)
    (hlower : ∃ c rest, word = c :: rest ∧ ¬(65 ≤ c ∧ c ≤ 90)) :
    env.xapian.hasTerm doc word ↔
      ∃ metaname ∈ [Swish.defaultMetaname, Swish.titleMetaname], ∃ buffer,
        parsed.data.metanames.lookup metaname = some buffer ∧
        word ∈ env.xapian.words (cstr buffer) := by
  obtain ⟨c, rest, rfl, hc⟩ := hlower
  constructor
  · rintro (hterm | ⟨it, hit, hterm⟩)
    · obtain ⟨tm, -, hterms⟩ := hdoc.terms
      rw [hterms, dateTerms_eq] at hterm
      simp only [List.cons_append, List.nil_append, List.mem_cons, List.not_mem_nil,
        or_false] at hterm
      rcases hterm with h | h | h | h | h <;> cases h <;> exact absurd hc (by decide)
    · obtain ⟨metaname, buffer, m, hbuffer, hm, hmem⟩ := (hdoc.texts it).mp hit
      rcases (hX.indexText _ _ _).mp hterm with ⟨word', hword', heq⟩ | ⟨stem, -, heq⟩
      · rw [metaTexts] at hmem
        rcases List.mem_cons.mp hmem with rfl | hmem
        · exact absurd (heq ▸ colon_mem_metaPrefix m.id word') hcolon
        · split at hmem
          · rename_i hname
            rw [List.mem_singleton] at hmem
            subst hmem
            refine ⟨metaname, by simpa using hname, buffer, hbuffer, ?_⟩
            rw [List.nil_append] at heq
            exact heq ▸ hword'
          · cases hmem
      · cases heq
        exact absurd hc (by decide)
  · rintro ⟨metaname, hname, buffer, hbuffer, hword⟩
    obtain ⟨m, hm⟩ := mem_iff_exists_lookup.mp (hdoc.metanames metaname (mem_of_lookup hbuffer))
    have hmem : (⟨cstr buffer, if 0 < m.bias then m.bias.toNat else 1, []⟩ : IndexedText) ∈
        metaTexts m metaname buffer := by
      have hplain : metaname = Swish.defaultMetaname ∨ metaname = Swish.titleMetaname := by
        simpa using hname
      rw [metaTexts]
      simp only [if_pos hplain]
      exact List.mem_cons_of_mem _ List.mem_cons_self
    refine .inr ⟨_, (hdoc.texts _).mpr ⟨metaname, buffer, m, hbuffer, hm, hmem⟩, ?_⟩
    exact (hX.indexText _ _ _).mpr (.inl ⟨_, hword, rfl⟩)

end Terms

/-! ## Values -/

section Values

variable {prop : Property} {slot : Int} {es : List (Sigma fun _ : XmlStr => XmlStr)}

/-- A slot that no Property has is left alone. -/
theorem run_addProperties_other
    (h : run (fun doc e => addProperties X config doc e.1 e.2) doc es = .ok doc')
    (hslot : ∀ e ∈ es, ∀ prop, config.properties.lookup e.1 = some prop → prop.id ≠ slot) :
    doc'.getValue slot = doc.getValue slot := by
  induction es generalizing doc with
  | nil => cases h; rfl
  | cons e es ih =>
      obtain ⟨doc₁, hstep, hrun⟩ := run_cons_ok_iff.mp h
      obtain ⟨prop, value, hprop, -, rfl⟩ := addProperties_ok hstep
      rw [ih hrun fun e' he' => hslot e' (List.mem_cons_of_mem _ he'), Document.getValue_addValue,
        if_neg (hslot e List.mem_cons_self prop hprop).symm]

/-- The slot of a Property has the value of its own buffer, as no other has its id. -/
theorem run_addProperties_own
    (h : run (fun doc e => addProperties X config doc e.1 e.2) doc es = .ok doc')
    (hids : DistinctOn Property.id config.properties) (hkeys : es.NodupKeys)
    (hmem : (⟨name, buffer⟩ : Sigma fun _ : XmlStr => XmlStr) ∈ es) :
    ∃ prop, config.properties.lookup name = some prop ∧
      propertyValue X prop (cstr buffer) = .ok (doc'.getValue prop.id) := by
  induction es generalizing doc with
  | nil => cases hmem
  | cons e es ih =>
      obtain ⟨doc₁, hstep, hrun⟩ := run_cons_ok_iff.mp h
      obtain ⟨k, b⟩ := e
      obtain ⟨hnotMem, hkeys⟩ := List.nodupKeys_cons.mp hkeys
      rcases List.mem_cons.mp hmem with heq | hmem
      · cases heq
        obtain ⟨prop, value, hprop, hvalue, rfl⟩ := addProperties_ok hstep
        refine ⟨prop, hprop, ?_⟩
        rw [run_addProperties_other hrun, Document.getValue_addValue, if_pos rfl, hvalue]
        intro e he prop' hprop' hid
        have hname := hids e.1 name prop' prop hprop' hprop hid
        have hkey : e.1 ∈ es.keys := List.mem_map_of_mem he
        exact hnotMem (hname ▸ hkey)
      · exact ih hrun hkeys hmem

/-- The slot of a Property holds what the document has for it. -/
theorem NewDocument.getValue_property (hdoc : NewDocument env parsed doc)
    (hids : DistinctOn Property.id parsed.data.config.properties)
    (hbuffer : parsed.data.properties.lookup name = some buffer) :
    ∃ prop, parsed.data.config.properties.lookup name = some prop ∧
      propertyValue env.xapian prop (cstr buffer) = .ok (doc.getValue prop.id) := by
  obtain ⟨title, before, -, -, -, hrun⟩ := hdoc.values
  exact run_addProperties_own hrun hids parsed.data.properties.nodupKeys
    (mem_entries_iff.mpr hbuffer)

/-- A slot that no buffered Property has holds what the docinfo has for it. -/
theorem NewDocument.getValue_docinfo (hdoc : NewDocument env parsed doc)
    (hslot : ∀ name prop, name ∈ parsed.data.properties →
      parsed.data.config.properties.lookup name = some prop → prop.id ≠ slot) :
    ∃ title, titleOf parsed.data = .ok title ∧
      doc.getValue slot = docinfoValue parsed.data.docinfo parsed.mtime title slot := by
  obtain ⟨title, before, htitle, -, hbefore, hrun⟩ := hdoc.values
  refine ⟨title, htitle, ?_⟩
  rw [run_addProperties_other hrun, hbefore]
  intro e he prop hprop
  exact hslot e.1 prop (mem_of_lookup (mem_entries_iff.mp he)) hprop

end Values

end LibSwish3
