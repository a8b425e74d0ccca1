import LibSwish3.Lib.Segments
import LibSwish3.Sax
import Mathlib.Data.List.DropRight

/-!
# How often a text is added

`flush_buffer` adds the meta buffer under one name and, with `CascadeMetaContext`, under the
names on the meta stack as well; `add_stack_to_prop_buf` adds the property buffer under every
name on the property stack.  Both walk the whole stack, and a name that stands there twice is
given the text twice.

`joinTimes` counts: what a buffer holds afterwards tells how often the text was added, as long
as the text is not empty.

## Main definitions

* `joinTimes` — a buffer after a number of additions.
* `FlushedOnce`, `StackedOnce` — no buffer is given the text twice.
* `MetasOnce`, `PropsOnce` — the names concerned differ.
-/

namespace LibSwish3

open Runs Segments

/-! ## Counting additions -/

section Counting

variable {buf joiner text : XmlStr} {m n : Nat}

/-- The buffer after `n` additions of the text. -/
def joinTimes (joiner text : XmlStr) (n : Nat) (buf : XmlStr) : XmlStr :=
  (fun buf => joinText buf joiner text)^[n] buf

theorem joinTimes_zero : joinTimes joiner text 0 buf = buf := rfl

theorem joinTimes_one : joinTimes joiner text 1 buf = joinText buf joiner text := rfl

theorem joinTimes_succ :
    joinTimes joiner text (n + 1) buf = joinTimes joiner text n (joinText buf joiner text) := rfl

theorem length_lt_joinText (buf joiner : XmlStr) (h : text ≠ []) :
    buf.length < (joinText buf joiner text).length := by
  have htext := List.length_pos_of_ne_nil h
  rw [joinText]
  split
  · rename_i hempty
    rw [List.isEmpty_iff.mp hempty]
    exact htext
  · simp only [List.length_append]
    omega

/-- Each addition makes the buffer longer. -/
theorem length_joinTimes_ge (buf joiner : XmlStr) (h : text ≠ []) :
    buf.length + n ≤ (joinTimes joiner text n buf).length := by
  induction n generalizing buf with
  | zero => exact Nat.le_refl _
  | succ n ih =>
      have hone := length_lt_joinText buf joiner h
      have hrest := ih (joinText buf joiner text)
      rw [joinTimes_succ]
      omega

/-- A buffer shows whether the text was added at most once. -/
theorem joinTimes_atMost_iff (h : text ≠ []) :
    (joinTimes joiner text n buf = buf ∨ joinTimes joiner text n buf = joinText buf joiner text) ↔
      n ≤ 1 := by
  match n with
  | 0 => simp [joinTimes_zero]
  | 1 => simp [joinTimes_one]
  | n + 2 =>
      refine iff_of_false ?_ (by omega)
      have hmore : (joinText buf joiner text).length <
          (joinTimes joiner text (n + 2) buf).length := by
        rw [joinTimes_succ, joinTimes_succ]
        exact Nat.lt_of_lt_of_le (length_lt_joinText _ joiner h)
          (Nat.le_trans (Nat.le_add_right _ n) (length_joinTimes_ge _ joiner h))
      have hone := length_lt_joinText buf joiner h
      rintro (heq | heq)
      · rw [heq] at hmore
        omega
      · rw [heq] at hmore
        exact Nat.lt_irrefl _ hmore

end Counting

/-- The text was added to the buffer of the name once. -/
def Added (nb nb' : NamedBuffer) (text name : XmlStr) : Prop :=
  nb'.content name = joinText (nb.content name) Swish.tokenposBumper text

/-- Buffers that hold, for each name, the text as often as the name is listed. -/
def AddedTo (nb nb' : NamedBuffer) (text : XmlStr) (names : List XmlStr) : Prop :=
  ∀ name, nb'.content name =
    joinTimes Swish.tokenposBumper text (names.count name) (nb.content name)

section AddedTo

variable {nb nb' nb'' : NamedBuffer} {text name str : XmlStr} {names names' : List XmlStr}

theorem AddedTo.nil : AddedTo nb nb text [] := fun _ => rfl

theorem AddedTo.cons (h : ∀ k, nb'.content k = if k = name then
      joinText (nb.content k) Swish.tokenposBumper text else nb.content k)
    (h' : AddedTo nb' nb'' text names) : AddedTo nb nb'' text (name :: names) := by
  intro k
  rw [h' k, h k]
  by_cases hk : k = name
  · subst hk
    rw [if_pos rfl, List.count_cons_self, joinTimes_succ]
  · rw [if_neg hk, List.count_cons_of_ne (Ne.symm hk)]

/-- No buffer was given the text twice exactly when no name is listed twice. -/
theorem AddedTo.atMost_iff (h : AddedTo nb nb' text names) (htext : text ≠ []) :
    (∀ name, nb'.content name = nb.content name ∨ Added nb nb' text name) ↔ names.Nodup := by
  rw [List.nodup_iff_count_le_one]
  refine forall_congr' fun name => ?_
  rw [Added, h name]
  exact joinTimes_atMost_iff htext

theorem AddedTo.added (h : AddedTo nb nb' text names) (hnodup : names.Nodup)
    (hname : name ∈ names) : Added nb nb' text name := by
  rw [Added, h name, List.count_eq_one_of_mem hnodup hname]
  rfl

theorem nbAddStr_addedTo {cleanwsp autovivify : Bool} (hblank : strAllWs (cstr str) = false)
    (hok : nbAddStr nb name str Swish.tokenposBumper cleanwsp autovivify = .ok nb')
    (h' : AddedTo nb' nb'' (cleanedText cleanwsp str) names) :
    AddedTo nb nb'' (cleanedText cleanwsp str) (name :: names) := by
  refine h'.cons ?_
  intro k
  rw [content_nbAddStr hok k]
  simp [hblank]

end AddedTo

/-! ## Flushing -/

/-- The names the meta buffer is added under, beside the flushed one. -/
def cascadeNames (pd : ParserData) (storedAs : XmlStr) : List XmlStr :=
  if pd.config.flags.cascadeMetaContext then
    (pd.metastack.tags.map Tag.baked).filter (· ≠ storedAs)
  else []

/-- One `flush_buffer` adds the meta buffer at most once to each buffer; with
`CascadeMetaContext` it adds a text that is not blank once to the flushed name and to each
name on the stack. -/
structure FlushedOnce (pd pd' : ParserData) (storedAs : XmlStr) : Prop where
  at_most : ∀ name, pd'.metanames.content name = pd.metanames.content name ∨
    Added pd.metanames pd'.metanames pd.metaBuf name
  cascaded : pd.config.flags.cascadeMetaContext = true → strAllWs (cstr pd.metaBuf) = false →
    ∀ name, name = storedAs ∨ name ∈ pd.metastack.tags.map Tag.baked →
      Added pd.metanames pd'.metanames pd.metaBuf name

/-- No name but the flushed one stands on the stack twice, where that matters. -/
def MetasOnce (pd : ParserData) (storedAs : XmlStr) : Prop :=
  pd.config.flags.cascadeMetaContext = true → strAllWs (cstr pd.metaBuf) = false →
    ((pd.metastack.tags.map Tag.baked).filter (· ≠ storedAs)).Nodup

section Flushing

variable {pd pd' : ParserData} {metaBuf storedAs metaname context : XmlStr}
  {nb nb' : NamedBuffer} {tags : List Tag}

theorem cascadeStep_addedTo (hblank : strAllWs (cstr metaBuf) = false)
    (hok : run (cascadeStep metaBuf storedAs) nb tags = .ok nb') :
    AddedTo nb nb' metaBuf ((tags.map Tag.baked).filter (· ≠ storedAs)) := by
  induction tags generalizing nb with
  | nil =>
      cases hok
      exact .nil
  | cons tag tags ih =>
      obtain ⟨nb₁, hstep, hrest⟩ := run_cons_ok_iff.mp hok
      unfold cascadeStep at hstep
      rw [List.map_cons]
      by_cases heq : tag.baked = storedAs
      · rw [if_pos heq] at hstep
        cases hstep
        rw [List.filter_cons_of_neg (by simpa using heq)]
        exact ih hrest
      · rw [if_neg heq] at hstep
        rw [List.filter_cons_of_pos (by simpa using heq)]
        exact nbAddStr_addedTo hblank hstep (ih hrest)

/-- Blank text is added nowhere. -/
theorem cascadeStep_blank (hblank : strAllWs (cstr metaBuf) = true)
    (hok : run (cascadeStep metaBuf storedAs) nb tags = .ok nb') : nb' = nb := by
  refine invariant (I := fun nb' => nb' = nb) ?_ rfl hok
  rintro nb₁ tag nb₂ rfl hstep
  unfold cascadeStep nbAddStr at hstep
  rw [if_pos hblank, ite_self] at hstep
  exact (Except.ok.inj hstep).symm

/-- What a flush does to the buffers. -/
theorem flushBuffer_addedTo (hstored : metanameStoredAs pd.config metaname = .ok storedAs)
    (hok : flushBuffer pd metaname context = .ok pd') :
    if strAllWs (cstr pd.metaBuf) then pd'.metanames = pd.metanames
    else AddedTo pd.metanames pd'.metanames pd.metaBuf (storedAs :: cascadeNames pd storedAs) := by
  unfold flushBuffer at hok
  rw [hstored, ok_bind] at hok
  obtain ⟨nb₁, hadd, hok⟩ := bind_ok_iff.mp hok
  obtain ⟨nb₂, hcascade, hok⟩ := bind_ok_iff.mp hok
  obtain ⟨pd₁, htok, hok⟩ := bind_ok_iff.mp hok
  obtain ⟨tokens, nwords, rfl⟩ := tokenizeBuffer_ok htok
  cases hok
  unfold cascadeMetas at hcascade
  by_cases hblank : strAllWs (cstr pd.metaBuf) = true
  · rw [if_pos hblank]
    unfold nbAddStr at hadd
    rw [if_pos hblank] at hadd
    cases hadd
    split at hcascade
    · exact cascadeStep_blank hblank hcascade
    · exact (Except.ok.inj hcascade).symm
  · rw [if_neg hblank]
    rw [Bool.not_eq_true] at hblank
    refine nbAddStr_addedTo hblank hadd ?_
    rw [cascadeNames]
    split at hcascade
    · rename_i hflag
      rw [if_pos hflag]
      exact cascadeStep_addedTo hblank hcascade
    · rename_i hflag
      rw [if_neg hflag]
      cases hcascade
      exact .nil

/-- A flush adds its text at most once exactly when the names it adds it to differ. -/
theorem flushedOnce_iff (hstored : metanameStoredAs pd.config metaname = .ok storedAs)
    (hok : flushBuffer pd metaname context = .ok pd') :
    FlushedOnce pd pd' storedAs ↔ MetasOnce pd storedAs := by
  have hadded := flushBuffer_addedTo hstored hok
  by_cases hblank : strAllWs (cstr pd.metaBuf) = true
  · rw [if_pos hblank] at hadded
    refine iff_of_true ⟨?_, ?_⟩ ?_
    · intro name
      exact .inl (by rw [hadded])
    · intro _ hnot
      rw [hblank] at hnot
      cases hnot
    · intro _ hnot
      rw [hblank] at hnot
      cases hnot
  rw [if_neg hblank] at hadded
  rw [Bool.not_eq_true] at hblank
  have htext : pd.metaBuf ≠ [] := by
    intro hnil
    rw [hnil] at hblank
    cases hblank
  have hnodup : (storedAs :: cascadeNames pd storedAs).Nodup ↔ MetasOnce pd storedAs := by
    have hnot : storedAs ∉ cascadeNames pd storedAs := by
      rw [cascadeNames]
      split <;> simp
    rw [List.nodup_cons, MetasOnce, cascadeNames] at *
    by_cases hflag : pd.config.flags.cascadeMetaContext = true
    · rw [if_pos hflag] at hnot ⊢
      exact ⟨fun h _ _ => h.2, fun h => ⟨hnot, h hflag hblank⟩⟩
    · rw [if_neg hflag]
      exact iff_of_true ⟨List.not_mem_nil, List.nodup_nil⟩ (fun h => absurd h hflag)
  rw [← hnodup]
  constructor
  · intro h
    exact (hadded.atMost_iff htext).mp h.at_most
  · intro h
    refine ⟨(hadded.atMost_iff htext).mpr h, ?_⟩
    intro hflag _ name hname
    refine hadded.added h ?_
    by_cases heq : name = storedAs
    · rw [heq]
      exact List.mem_cons_self
    · refine List.mem_cons_of_mem _ ?_
      rw [cascadeNames, if_pos hflag, List.mem_filter]
      exact ⟨hname.resolve_left heq, by simpa using heq⟩

end Flushing

/-! ## What cleaning in place leaves -/

section Cleaning

variable {s t : XmlStr} {cleanwsp : Bool}

theorem strTrimWs_append (s : XmlStr) : ∃ t, s = strTrimWs s ++ t := by
  refine ⟨(s.reverse.takeWhile isspace).reverse, ?_⟩
  rw [strTrimWs, ← List.reverse_append, List.takeWhile_append_dropWhile, List.reverse_reverse]

theorem strTrimWs_idem (s : XmlStr) : strTrimWs (strTrimWs s) = strTrimWs s := by
  simp only [strTrimWs, List.reverse_reverse, List.dropWhile_idempotent]

/-- A text that begins with no blank, cut at its end, still begins with none. -/
theorem strSkipWs_trimmed (s : XmlStr) :
    strSkipWs (strTrimWs (strSkipWs s)) = strTrimWs (strSkipWs s) := by
  obtain ⟨t, ht⟩ := strTrimWs_append (strSkipWs s)
  cases htrim : strTrimWs (strSkipWs s) with
  | nil => rfl
  | cons c rest =>
      rw [htrim, strSkipWs] at ht
      have hc : isspace c = false := by
        have hne : s.dropWhile isspace ≠ [] := by simp [ht]
        have hhead := List.head_dropWhile_not isspace hne
        simpa [ht] using hhead
      rw [strSkipWs, List.dropWhile_cons_of_neg (by simp [hc])]

theorem strSkipWs_append (h : strAllWs s = true) : strSkipWs (s ++ t) = strSkipWs t := by
  rw [strSkipWs, List.dropWhile_append_of_pos (fun c hc => List.all_eq_true.mp h c hc), strSkipWs]

/-- The blanks in front of a text and the text without its outer blanks. -/
def leftInPlace (s : XmlStr) : XmlStr := s.takeWhile isspace ++ strTrimWs (strSkipWs s)

theorem strAllWs_takeWhile (s : XmlStr) : strAllWs (s.takeWhile isspace) = true :=
  List.all_eq_true.mpr fun _ hc => List.mem_takeWhile_imp hc

theorem strSkipWs_leftInPlace (s : XmlStr) :
    strSkipWs (leftInPlace s) = strTrimWs (strSkipWs s) := by
  rw [leftInPlace, strSkipWs_append (strAllWs_takeWhile s), strSkipWs_trimmed]

theorem mem_of_mem_leftInPlace {c : XmlChar} (h : c ∈ leftInPlace s) : c ∈ s := by
  rcases List.mem_append.mp h with h | h
  · exact List.takeWhile_subset _ h
  · obtain ⟨t, ht⟩ := strTrimWs_append (strSkipWs s)
    have hskip : c ∈ strSkipWs s := by
      rw [ht]
      exact List.mem_append_left _ h
    exact List.dropWhile_subset _ hskip

/-- What is no blank stays. -/
theorem mem_trimmed_iff {c : XmlChar} (hc : isspace c = false) :
    c ∈ strTrimWs (strSkipWs s) ↔ c ∈ s := by
  rw [strTrimWs, List.mem_reverse, mem_dropWhile hc, List.mem_reverse, strSkipWs,
    mem_dropWhile hc]

theorem mem_leftInPlace {c : XmlChar} (hc : c ∈ s) (hspace : isspace c = false) :
    c ∈ leftInPlace s :=
  List.mem_append_right _ ((mem_trimmed_iff hspace).mpr hc)

theorem zero_notMem_strCtrlToWs (h : (0 : XmlChar) ∉ s) : (0 : XmlChar) ∉ strCtrlToWs s := by
  rw [strCtrlToWs]
  split
  · intro hmem
    obtain ⟨c, -, hc⟩ := List.mem_map.mp hmem
    split at hc
    · cases hc
    · rename_i hlt
      rw [hc] at hlt
      exact hlt (by decide)
  · exact h

/-- Cleaning in place leaves no control byte to be made a blank, and cuts no text that is not
ASCII down to one that is. -/
theorem strCtrlToWs_leftInPlace (s : XmlStr) :
    strCtrlToWs (leftInPlace (strCtrlToWs s)) = leftInPlace (strCtrlToWs s) := by
  by_cases hascii : isAscii s = true
  · have hctrl : ∀ c ∈ leftInPlace (strCtrlToWs s), (if c < 32 then 32 else c) = c := by
      intro c hc
      have hmem := mem_of_mem_leftInPlace hc
      rw [strCtrlToWs, if_pos hascii] at hmem
      obtain ⟨d, -, hd⟩ := List.mem_map.mp hmem
      split at hd
      · rw [← hd]
        decide
      · rename_i hlt
        rw [← hd, if_neg hlt]
    rw [strCtrlToWs]
    split
    · rw [List.map_congr_left hctrl, List.map_id']
    · rfl
  · have hkeep : strCtrlToWs s = s := if_neg hascii
    rw [hkeep]
    refine if_neg ?_
    intro hleft
    simp only [isAscii, Bool.and_eq_true, Bool.not_eq_true', List.isEmpty_eq_false_iff,
      List.all_eq_true, decide_eq_true_eq] at hleft hascii
    refine hascii ⟨?_, ?_⟩
    · rintro rfl
      exact hleft.1 rfl
    · intro c hc
      cases hspace : isspace c with
      | false => exact hleft.2 c (mem_leftInPlace hc hspace)
      | true =>
          simp only [isspace, Bool.or_eq_true, decide_eq_true_eq, Bool.and_eq_true] at hspace
          rcases hspace with rfl | ⟨-, hle⟩
          · decide
          · exact UInt8.lt_of_le_of_lt hle (by decide)

/-- A text that was cleaned in place is added as it was the first time. -/
theorem cleanedText_cleanedInPlace (s : XmlStr) :
    cleanedText cleanwsp (cleanedInPlace cleanwsp s) = cleanedText cleanwsp s := by
  cases cleanwsp with
  | false => rfl
  | true =>
      rw [cleanedInPlace]
      by_cases hblank : strAllWs (cstr s) = true
      · simp only [hblank, Bool.not_true, Bool.false_or, if_true]
      · simp only [hblank, Bool.not_true, Bool.or_self, if_false, Bool.false_eq_true]
        have hzero := zero_notMem_strCtrlToWs (zero_notMem_cstr s)
        have hnul : cstr (leftInPlace (strCtrlToWs (cstr s))) =
            leftInPlace (strCtrlToWs (cstr s)) :=
          cstr_of_noNul fun h => hzero (mem_of_mem_leftInPlace h)
        change cleanedText true (leftInPlace (strCtrlToWs (cstr s))) = cleanedText true s
        simp only [cleanedText, if_true, hnul, strCtrlToWs_leftInPlace, strSkipWs_leftInPlace,
          strTrimWs_idem]

/-- It is blank by then exactly when it was or nothing of it is added. -/
theorem strAllWs_cleanedInPlace_iff (s : XmlStr) :
    strAllWs (cstr (cleanedInPlace cleanwsp s)) = true ↔
      strAllWs (cstr s) = true ∨ cleanwsp = true ∧ cleanedText cleanwsp s = [] := by
  cases cleanwsp with
  | false => simp [cleanedInPlace]
  | true =>
      rw [cleanedInPlace]
      by_cases hblank : strAllWs (cstr s) = true
      · simp only [hblank, Bool.not_true, Bool.false_or, if_true, true_or]
      · have hzero := zero_notMem_strCtrlToWs (zero_notMem_cstr s)
        have hnul : cstr (leftInPlace (strCtrlToWs (cstr s))) =
            leftInPlace (strCtrlToWs (cstr s)) :=
          cstr_of_noNul fun h => hzero (mem_of_mem_leftInPlace h)
        simp only [hblank, Bool.not_true, Bool.or_self, if_false, Bool.false_eq_true, true_and,
          false_or]
        change strAllWs (cstr (leftInPlace (strCtrlToWs (cstr s)))) = true ↔ _
        rw [hnul, cleanedText, if_pos rfl, ← strSkipWs_leftInPlace, strSkipWs,
          List.dropWhile_eq_nil_iff, strAllWs, List.all_eq_true]

end Cleaning

/-! ## The property stack -/

/-- The name `add_stack_to_prop_buf` adds its text under first, if a Property ends, and
whether it cleans blanks up. -/
def propTarget (config : Config) : (baked : Option XmlStr) → Swish (Option XmlStr × Bool)
  | none => .ok (none, true)
  | some baked => do
    let (storedAs, cleanwsp) ← propertyStoredAs config baked
    pure (some storedAs, cleanwsp)

/-- The names the property buffer is added under. -/
def propNamesAdded (pd : ParserData) (storedAs : Option XmlStr) : List XmlStr :=
  storedAs.toList ++ (pd.propstack.tags.map Tag.baked).filter (· ≠ Swish.domStr)

/-- One `add_stack_to_prop_buf` adds the property buffer at most once to each buffer. -/
def StackedOnce (pd pd' : ParserData) (cleanwsp : Bool) : Prop :=
  ∀ name, pd'.properties.content name = pd.properties.content name ∨
    Added pd.properties pd'.properties (cleanedText cleanwsp pd.propBuf) name

/-- The Property that ends and the Properties on the stack differ, where that matters. -/
def PropsOnce (pd : ParserData) (storedAs : Option XmlStr) (cleanwsp : Bool) : Prop :=
  strAllWs (cstr pd.propBuf) = false → cleanedText cleanwsp pd.propBuf ≠ [] →
    (propNamesAdded pd storedAs).Nodup

section Stacking

variable {pd pd' : ParserData} {storedAs : Option XmlStr} {cleanwsp : Bool} {name text : XmlStr}
  {nb nb' : NamedBuffer} {s s' : NamedBuffer × XmlStr} {tags : List Tag}

/-- One addition, and what it leaves for the next. -/
theorem nbAddStr_cleaned {str : XmlStr} (hblank : strAllWs (cstr str) = false)
    (hclean : cleanedText cleanwsp str = text) (htext : text ≠ []) :
    strAllWs (cstr (cleanedInPlace cleanwsp str)) = false ∧
      cleanedText cleanwsp (cleanedInPlace cleanwsp str) = text := by
  rw [cleanedText_cleanedInPlace, hclean]
  refine ⟨?_, rfl⟩
  rw [← Bool.not_eq_true, strAllWs_cleanedInPlace_iff, hblank, hclean]
  simp [htext]

theorem propStackStep_addedTo (hblank : strAllWs (cstr s.2) = false)
    (hclean : cleanedText cleanwsp s.2 = text) (htext : text ≠ [])
    (hok : run (propStackStep cleanwsp) s tags = .ok s') :
    AddedTo s.1 s'.1 text ((tags.map Tag.baked).filter (· ≠ Swish.domStr)) := by
  induction tags generalizing s with
  | nil =>
      cases hok
      exact .nil
  | cons tag tags ih =>
      obtain ⟨s₁, hstep, hrest⟩ := run_cons_ok_iff.mp hok
      unfold propStackStep at hstep
      rw [List.map_cons]
      by_cases heq : tag.baked = Swish.domStr
      · rw [if_pos heq] at hstep
        cases hstep
        rw [List.filter_cons_of_neg (by simpa using heq)]
        exact ih hblank hclean hrest
      · rw [if_neg heq] at hstep
        obtain ⟨nb₁, hadd, hstep⟩ := bind_ok_iff.mp hstep
        cases hstep
        obtain ⟨hblank₁, hclean₁⟩ := nbAddStr_cleaned hblank hclean htext
        have hrest := ih (s := (nb₁, cleanedInPlace cleanwsp s.2)) hblank₁ hclean₁ hrest
        rw [List.filter_cons_of_pos (by simpa using heq)]
        rw [← hclean] at hrest ⊢
        exact nbAddStr_addedTo hblank hadd hrest

/-- Blank text is added nowhere. -/
theorem propStackStep_blank (hblank : strAllWs (cstr s.2) = true)
    (hok : run (propStackStep cleanwsp) s tags = .ok s') : s'.1 = s.1 := by
  have hkeep : s'.1 = s.1 ∧ strAllWs (cstr s'.2) = true := by
    refine invariant (I := fun s' => s'.1 = s.1 ∧ strAllWs (cstr s'.2) = true) ?_
      ⟨rfl, hblank⟩ hok
    rintro ⟨nb₁, text₁⟩ tag s₂ ⟨hsame, htext₁⟩ hstep
    unfold propStackStep nbAddStr at hstep
    rw [if_pos htext₁] at hstep
    split at hstep
    · cases hstep
      exact ⟨hsame, htext₁⟩
    · cases hstep
      exact ⟨hsame, strAllWs_cleanedInPlace_iff text₁ |>.mpr (.inl htext₁)⟩
  exact hkeep.1

/-- A text of which cleaning leaves nothing is added once and is blank then. -/
theorem propStackStep_empty (hclean : cleanedText cleanwsp s.2 = [])
    (hok : run (propStackStep cleanwsp) s tags = .ok s') :
    ∀ name, s'.1.content name = s.1.content name ∨ Added s.1 s'.1 [] name := by
  induction tags generalizing s with
  | nil =>
      cases hok
      exact fun _ => .inl rfl
  | cons tag tags ih =>
      obtain ⟨s₁, hstep, hrest⟩ := run_cons_ok_iff.mp hok
      unfold propStackStep at hstep
      by_cases heq : tag.baked = Swish.domStr
      · rw [if_pos heq] at hstep
        cases hstep
        exact ih hclean hrest
      · rw [if_neg heq] at hstep
        obtain ⟨nb₁, hadd, hstep⟩ := bind_ok_iff.mp hstep
        cases hstep
        have hafter : strAllWs (cstr (cleanedInPlace cleanwsp s.2)) = true := by
          refine (strAllWs_cleanedInPlace_iff s.2).mpr ?_
          cases cleanwsp with
          | true => exact .inr ⟨rfl, hclean⟩
          | false =>
              refine .inl ?_
              rw [cleanedText, if_neg Bool.false_ne_true] at hclean
              rw [hclean]
              rfl
        intro name
        rw [Added, propStackStep_blank hafter hrest, content_nbAddStr hadd name, hclean]
        split
        · exact .inr rfl
        · exact .inl rfl

/-- The addition under the Property that ends. -/
theorem addToProperty_cases {baked : Option XmlStr} {cleanwsp' : Bool}
    (htarget : propTarget pd.config baked = .ok (storedAs, cleanwsp))
    (hok : addToProperty pd baked = .ok (s, cleanwsp')) :
    cleanwsp' = cleanwsp ∧
      ((storedAs = none ∧ s = (pd.properties, pd.propBuf)) ∨
        ∃ name nb, storedAs = some name ∧
          nbAddStr pd.properties name pd.propBuf Swish.tokenposBumper cleanwsp false = .ok nb ∧
            s = (nb, cleanedInPlace cleanwsp pd.propBuf)) := by
  cases baked with
  | none =>
      cases htarget
      cases hok
      exact ⟨rfl, .inl ⟨rfl, rfl⟩⟩
  | some baked =>
      obtain ⟨⟨name, cleanwsp₁⟩, hstored, htarget⟩ := bind_ok_iff.mp htarget
      cases htarget
      simp only [addToProperty, hstored, ok_bind] at hok
      obtain ⟨nb, hadd, hok⟩ := bind_ok_iff.mp hok
      cases hok
      exact ⟨rfl, .inr ⟨name, nb, rfl, hadd, rfl⟩⟩

/-- One call adds its text at most once exactly when the names it adds it to differ. -/
theorem stackedOnce_iff {baked : Option XmlStr}
    (htarget : propTarget pd.config baked = .ok (storedAs, cleanwsp))
    (hok : addStackToPropBuf pd baked = .ok pd') :
    StackedOnce pd pd' cleanwsp ↔ PropsOnce pd storedAs cleanwsp := by
  obtain ⟨⟨s, cleanwsp'⟩, hadd, hok⟩ := bind_ok_iff.mp hok
  obtain ⟨⟨nb', text'⟩, hrun, hok⟩ := bind_ok_iff.mp hok
  cases hok
  obtain ⟨rfl, hcases⟩ := addToProperty_cases htarget hadd
  cases hblank : strAllWs (cstr pd.propBuf) with
  | true =>
      refine iff_of_true ?_ fun hnot => by rw [hblank] at hnot; cases hnot
      intro name
      refine .inl ?_
      have hsame : s.1 = pd.properties ∧ strAllWs (cstr s.2) = true := by
        rcases hcases with ⟨-, rfl⟩ | ⟨name, nb, -, hnb, rfl⟩
        · exact ⟨rfl, hblank⟩
        · unfold nbAddStr at hnb
          rw [if_pos hblank] at hnb
          cases hnb
          exact ⟨rfl, (strAllWs_cleanedInPlace_iff _).mpr (.inl hblank)⟩
      have hkeep := propStackStep_blank hsame.2 hrun
      simp only at hkeep ⊢
      rw [hkeep, hsame.1]
  | false =>
      by_cases htext : cleanedText cleanwsp' pd.propBuf = []
      · refine iff_of_true ?_ fun _ hne => absurd htext hne
        rw [StackedOnce]
        rw [htext]
        rcases hcases with ⟨-, rfl⟩ | ⟨first, nb, -, hnb, rfl⟩
        · exact propStackStep_empty (s := (pd.properties, pd.propBuf)) htext hrun
        · have hafter : strAllWs (cstr (cleanedInPlace cleanwsp' pd.propBuf)) = true := by
            refine (strAllWs_cleanedInPlace_iff _).mpr ?_
            cases cleanwsp' with
            | true => exact .inr ⟨rfl, htext⟩
            | false =>
                rw [cleanedText, if_neg Bool.false_ne_true] at htext
                rw [htext] at hblank
                cases hblank
          intro name
          have hkeep := propStackStep_blank hafter hrun
          simp only at hkeep ⊢
          rw [Added, hkeep, content_nbAddStr hnb name, htext]
          split
          · exact .inr rfl
          · exact .inl rfl
      · have hadded : AddedTo pd.properties nb' (cleanedText cleanwsp' pd.propBuf)
            (propNamesAdded pd storedAs) := by
          rcases hcases with ⟨rfl, rfl⟩ | ⟨first, nb, rfl, hnb, rfl⟩
          · exact propStackStep_addedTo (s := (pd.properties, pd.propBuf)) hblank rfl htext hrun
          · obtain ⟨hblank₁, hclean₁⟩ := nbAddStr_cleaned hblank rfl htext
            have hrest := propStackStep_addedTo (s := (nb, cleanedInPlace cleanwsp' pd.propBuf))
              hblank₁ hclean₁ htext hrun
            exact nbAddStr_addedTo hblank hnb hrest
        have hiff : PropsOnce pd storedAs cleanwsp' ↔ (propNamesAdded pd storedAs).Nodup :=
          ⟨fun h => h hblank htext, fun h _ _ => h⟩
        rw [hiff]
        exact hadded.atMost_iff htext

end Stacking

/-- A flush, and an addition of the property buffer, add their text at most once to each
buffer exactly when the names they add it to differ. -/
theorem addedOnce_iff (pd pd' : ParserData) :
    (∀ metaname context storedAs, metanameStoredAs pd.config metaname = .ok storedAs →
      flushBuffer pd metaname context = .ok pd' →
        (FlushedOnce pd pd' storedAs ↔ MetasOnce pd storedAs)) ∧
      ∀ baked storedAs cleanwsp, propTarget pd.config baked = .ok (storedAs, cleanwsp) →
        addStackToPropBuf pd baked = .ok pd' →
          (StackedOnce pd pd' cleanwsp ↔ PropsOnce pd storedAs cleanwsp) :=
  ⟨fun _ _ _ hstored hok => flushedOnce_iff hstored hok,
    fun _ _ _ htarget hok => stackedOnce_iff htarget hok⟩

/-- The default config with `CascadeMetaContext`. -/
def cascadeConfig : Config :=
  { configSetDefault (lit "C") with flags := { configInitFlags with cascadeMetaContext := true } }

/-- A document named `a.txt` at its start, with this config. -/
def cascadeDocument : ParserData :=
  initParserData cascadeConfig .idle { docinfoInit with uri := lit "a.txt" }

/-- The parser behind some events of an XML document. -/
def cascadeBehind (events : List SaxEvent) : ParserData :=
  (run (saxStep .alone 0) cascadeDocument events).toOption.getD cascadeDocument

/-- `<swishtitle>one<swishdescription>two<swishdefault>three` -/
def untilDefault : List SaxEvent :=
  [.startElementNs Swish.titleMetaname none none [], .characters (lit "one"),
    .startElementNs Swish.propDescription none none [], .characters (lit "two"),
    .startElementNs Swish.defaultMetaname none none [], .characters (lit "three")]

/-- `<swishtitle>one<swishdescription>two<swishdefault>three</swishdefault>four` -/
def untilDescription : List SaxEvent :=
  untilDefault ++ [.endElementNs Swish.defaultMetaname none, .characters (lit "four")]

/-- The flush at the end of the `swishdefault` element adds its text once to both MetaNames, and
the addition at the end of the `swishdescription` element its text once to both Properties. -/
theorem addedOnce_iff_nested :
    (∃ pd tag metastack pd',
      run (saxStep .alone 0) cascadeDocument untilDefault = .ok pd ∧
      pd.metastack.popOnMatch Swish.defaultMetaname = .ok (some tag, metastack) ∧
      flushBuffer { pd with metastack } tag.baked tag.context = .ok pd' ∧
      FlushedOnce { pd with metastack } pd' Swish.defaultMetaname) ∧
    ∃ pd tag propstack pd',
      run (saxStep .alone 0) cascadeDocument untilDescription = .ok pd ∧
      pd.propstack.popOnMatch Swish.propDescription = .ok (some tag, propstack) ∧
      addStackToPropBuf { pd with propstack } (some tag.baked) = .ok pd' ∧
      StackedOnce { pd with propstack } pd' true := by
  constructor
  · let pd := cascadeBehind untilDefault
    have hpops : (popMetaname pd Swish.defaultMetaname).toOption.map (fun _ => ()) = some () := by
      decide +kernel
    obtain ⟨pd', hpops, -⟩ := exists_ok_of_map hpops
    obtain ⟨⟨st, metastack⟩, hpop, hflush⟩ := bind_ok_iff.mp hpops
    cases hpop
    exact ⟨pd, _, _, pd', rfl, rfl, hflush, ((addedOnce_iff _ pd').1 _ _ _ rfl hflush).mpr
      fun _ _ => by decide +kernel⟩
  · let pd := cascadeBehind untilDescription
    have hpops : (popProperty pd Swish.propDescription).toOption.map (fun _ => ()) = some () := by
      decide +kernel
    obtain ⟨pd', hpops, -⟩ := exists_ok_of_map hpops
    obtain ⟨⟨st, propstack⟩, hpop, hadd⟩ := bind_ok_iff.mp hpops
    cases hpop
    exact ⟨pd, _, _, pd', rfl, rfl, hadd, ((addedOnce_iff _ pd').2 _ _ _ rfl hadd).mpr
      fun _ _ => by decide +kernel⟩

/-- The state in which `txt_parser` flushes the first of its two texts. -/
def textFlush : ParserData :=
  let metastack := cascadeDocument.metastack.push Swish.defaultMetaname Swish.defaultMetaname
    Swish.domChar
  bufferCharacters { cascadeDocument with metastack } (lit "foo")

/-- The state in which it flushes the second, the name of the document: `swishdefault` stands
on the stack twice by then. -/
def titleFlush (pd : ParserData) : ParserData :=
  let metastack := pd.metastack.push Swish.titleMetaname Swish.titleMetaname Swish.domChar
  bufferCharacters { pd with metastack } pd.docinfo.uri

/-- In the text document `foo` the second flush adds the document's name twice to
`swishdefault`. -/
theorem flushedOnce_not_titleFlush : ∃ pd₁ pd₂,
    flushBuffer textFlush Swish.defaultMetaname Swish.defaultMetaname = .ok pd₁ ∧
      flushBuffer (titleFlush pd₁) Swish.titleMetaname Swish.titleMetaname = .ok pd₂ ∧
      txtParser .alone cascadeDocument (lit "foo") = .ok pd₂ ∧
      ¬ FlushedOnce (titleFlush pd₁) pd₂ Swish.titleMetaname := by
  have hcontent : (txtParser .alone cascadeDocument (lit "foo")).toOption.map
      (·.metanames.content Swish.defaultMetaname) =
        some (lit "foo" ++ Swish.tokenposBumper ++ lit "a.txt" ++ Swish.tokenposBumper ++
          lit "a.txt") := by
    decide +kernel
  obtain ⟨pd₂, hparse, hcontent⟩ := exists_ok_of_map hcontent
  obtain ⟨pd₁, hfirst, hsecond⟩ := bind_ok_iff.mp hparse
  have hbefore : (titleFlush pd₁).metanames.content Swish.defaultMetaname = lit "foo" := by
    cases hfirst
    decide +kernel
  have htext : (titleFlush pd₁).metaBuf = lit "a.txt" := by
    cases hfirst
    decide +kernel
  refine ⟨pd₁, pd₂, hfirst, hsecond, hparse, fun honce => ?_⟩
  rcases honce.at_most Swish.defaultMetaname with heq | heq
  · rw [hcontent, hbefore] at heq
    exact absurd heq (by decide +kernel)
  · rw [Added, hcontent, hbefore, htext] at heq
    exact absurd heq (by decide +kernel)

end LibSwish3
