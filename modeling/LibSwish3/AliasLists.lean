import LibSwish3.Header
import LibSwish3.Utf8Chars
import LibSwish3.WordBuffer

/-!
# Lists of aliases

The text of an entry of the MetaNames section lists words that are to stand for the MetaName.
`read_metaname_aliases` croaks at a word that is a MetaName as it is written.  A word whose lower
case is a MetaName is taken for that MetaName, and makes an alias of it.

What becomes of a list depends on the table and on how the words are written: on whether one of
them is met as a MetaName (`Met`), which those in front of it may have made.

## Main definitions

* `AliasesAdded`, `AliasesSafe` — what a list is to do.
* `Met`, `AliasesNew` — the words that croak, and the lists that do what they are to do.
* `aliasesSafe_iff`.
-/

namespace LibSwish3

open Runs Tables

/-- For each name there is a new alias of `m`, and nothing else has changed. -/
structure AliasesAdded (h h' : Headmaker) (m : MetaName) (names : List XmlStr) : Prop where
  new : ∀ name ∈ names, name ∉ h.config.metanames ∧
    ∃ a, h'.config.metanames.lookup name = some a ∧ a.aliasFor = .live m.name
  same : ∀ name, name ∉ names →
    h'.config.metanames.lookup name = h.config.metanames.lookup name

/-- A list croaks exactly if the lower case of one of its words is a MetaName, and otherwise adds an
alias for each word.  No MetaName that was there is made an alias, and none an alias of itself. -/
structure AliasesSafe (env : HeaderEnv) (h : Headmaker) (m : MetaName) (str : XmlStr) : Prop where
  croaks : (∃ word ∈ lineWords str, lowered env.loc word ∈ h.config.metanames) →
    ∃ msg, readMetanameAliases env str h m = .error (.croak msg)
  adds : (∀ word ∈ lineWords str, lowered env.loc word ∉ h.config.metanames) →
    ∃ h', readMetanameAliases env str h m = .ok h' ∧
      AliasesAdded h h' m ((lineWords str).map (lowered env.loc))
  kept : ∀ h', readMetanameAliases env str h m = .ok h' → ∀ name a,
    h.config.metanames.lookup name = some a →
      ∃ a', h'.config.metanames.lookup name = some a' ∧ a'.aliasFor = a.aliasFor
  notSelf : ∀ h', readMetanameAliases env str h m = .ok h' → ∀ name a,
    h'.config.metanames.lookup name = some a → a.aliasFor = .live name →
      ∃ a₀, h.config.metanames.lookup name = some a₀ ∧ a₀.aliasFor = .live name

/-- A word is met that is a MetaName as it is written, or the lower case of a word in front. -/
def Met (loc : Locale) (metanames : HashTable MetaName) (words : List XmlStr) : Prop :=
  ∃ front word behind, words = front ++ word :: behind ∧
    (word ∈ metanames ∨ word ∈ front.map (lowered loc))

/-- Where the lower case of a word is a MetaName, a word is met.  Otherwise none is met and the
MetaName does not list itself. -/
structure AliasesNew (loc : Locale) (metanames : HashTable MetaName) (name : XmlStr)
    (words : List XmlStr) : Prop where
  met : (∃ word ∈ words, lowered loc word ∈ metanames) → Met loc metanames words
  notMet : (∀ word ∈ words, lowered loc word ∉ metanames) →
    ¬ Met loc metanames words ∧ name ∉ words.map (lowered loc)

section Words

variable {env : HeaderEnv} {loc : Locale} {t t' : HashTable MetaName} {h h' : Headmaker}
  {m : MetaName} {word : XmlStr} {words : List XmlStr}

theorem not_met_nil : ¬ Met loc t [] := by
  rintro ⟨front, word, behind, hwords, -⟩
  simp at hwords

/-- Behind the first word the table has its lower case as well. -/
theorem met_cons_iff (ht : ∀ name, name ∈ t' ↔ name ∈ t ∨ name = lowered loc word) :
    Met loc t (word :: words) ↔ word ∈ t ∨ Met loc t' words := by
  constructor
  · rintro ⟨front, next, behind, hwords, hmet⟩
    cases front with
    | nil =>
        obtain ⟨rfl, rfl⟩ := List.cons.inj hwords
        exact .inl (hmet.resolve_right (by simp))
    | cons first front =>
        obtain ⟨rfl, rfl⟩ := List.cons.inj hwords
        refine .inr ⟨front, next, behind, rfl, ?_⟩
        rw [List.map_cons, List.mem_cons] at hmet
        rw [ht]
        tauto
  · rintro (hmem | ⟨front, next, behind, rfl, hmet⟩)
    · exact ⟨[], word, words, rfl, .inl hmem⟩
    · refine ⟨word :: front, next, behind, rfl, ?_⟩
      rw [List.map_cons, List.mem_cons]
      rw [ht] at hmet
      tauto

/-- A word that is a MetaName croaks. -/
theorem readMetanameAlias_of_mem (env : HeaderEnv) (m : MetaName)
    (hmem : word ∈ h.config.metanames) :
    ∃ msg, readMetanameAlias env m h word = .error (.croak msg) := by
  rw [readMetanameAlias, if_pos hmem]
  exact ⟨_, rfl⟩

/-- Any other word makes an alias of its lower case, whether it is a MetaName or not. -/
theorem readMetanameAlias_of_notMem (hmem : word ∉ h.config.metanames)
    (hlow : ∃ low, strTolower env.loc word = .ok low) :
    ∃ h', readMetanameAlias env m h word = .ok h' ∧
      (∃ a, h'.config.metanames.lookup (lowered env.loc word) = some a ∧
        a.aliasFor = .live m.name) ∧
      ∀ name, name ≠ lowered env.loc word →
        h'.config.metanames.lookup name = h.config.metanames.lookup name := by
  obtain ⟨low, hlow⟩ := hlow
  rw [readMetanameAlias, if_neg hmem, hlow, ok_bind, lowered_of_ok hlow]
  cases hlook : h.config.metanames.lookup low with
  | some newmeta =>
      refine ⟨_, rfl, ⟨_, AList.lookup_insert _, rfl⟩, fun name hne => ?_⟩
      exact AList.lookup_insert_ne hne
  | none =>
      refine ⟨_, rfl, ⟨_, AList.lookup_insert _, rfl⟩, fun name hne => ?_⟩
      exact AList.lookup_insert_ne hne

theorem mem_of_alias
    (hnew : ∃ a, h'.config.metanames.lookup (lowered loc word) = some a ∧
      a.aliasFor = .live m.name)
    (hsame : ∀ name, name ≠ lowered loc word →
      h'.config.metanames.lookup name = h.config.metanames.lookup name) (name : XmlStr) :
    name ∈ h'.config.metanames ↔ name ∈ h.config.metanames ∨ name = lowered loc word := by
  by_cases hname : name = lowered loc word
  · obtain ⟨a, hlook, -⟩ := hnew
    exact iff_of_true (hname ▸ mem_of_lookup hlook) (.inr hname)
  · rw [mem_iff_exists_lookup, hsame name hname, ← mem_iff_exists_lookup, or_iff_left hname]

/-- Where a word is met, the list croaks at the first. -/
theorem run_of_met (hlow : ∀ word ∈ words, ∃ low, strTolower env.loc word = .ok low)
    (hmet : Met env.loc h.config.metanames words) :
    ∃ msg, run (readMetanameAlias env m) h words = .error (.croak msg) := by
  induction words generalizing h with
  | nil => exact absurd hmet not_met_nil
  | cons word words ih =>
      rw [List.forall_mem_cons] at hlow
      by_cases hmem : word ∈ h.config.metanames
      · obtain ⟨msg, hcroak⟩ := readMetanameAlias_of_mem env m hmem
        exact ⟨msg, run_cons_of_error hcroak⟩
      · obtain ⟨h', hok, hnew, hsame⟩ := readMetanameAlias_of_notMem (m := m) hmem hlow.1
        have hkeys := mem_of_alias hnew hsame
        have hrest := ((met_cons_iff hkeys).mp hmet).resolve_left hmem
        obtain ⟨msg, hcroak⟩ := ih hlow.2 hrest
        exact ⟨msg, (run_cons_of_ok hok).trans hcroak⟩

/-- Where none is met, the lower case of each word becomes an alias. -/
theorem run_of_not_met (hlow : ∀ word ∈ words, ∃ low, strTolower env.loc word = .ok low)
    (hmet : ¬ Met env.loc h.config.metanames words) :
    ∃ h', run (readMetanameAlias env m) h words = .ok h' ∧
      (∀ name ∈ words.map (lowered env.loc), ∃ a,
        h'.config.metanames.lookup name = some a ∧ a.aliasFor = .live m.name) ∧
      ∀ name, name ∉ words.map (lowered env.loc) →
        h'.config.metanames.lookup name = h.config.metanames.lookup name := by
  induction words generalizing h with
  | nil => exact ⟨h, rfl, by simp, fun _ _ => rfl⟩
  | cons word words ih =>
      rw [List.forall_mem_cons] at hlow
      have hmem : word ∉ h.config.metanames := fun hmem =>
        hmet ⟨[], word, words, rfl, .inl hmem⟩
      obtain ⟨h', hok, hnew, hsame⟩ := readMetanameAlias_of_notMem (m := m) hmem hlow.1
      have hkeys := mem_of_alias hnew hsame
      obtain ⟨h'', hrun, hadded, hkept⟩ := ih hlow.2 fun hmet' =>
        hmet ((met_cons_iff hkeys).mpr (.inr hmet'))
      refine ⟨h'', (run_cons_of_ok hok).trans hrun, fun name hname => ?_, fun name hname => ?_⟩
      · by_cases hrest : name ∈ words.map (lowered env.loc)
        · exact hadded name hrest
        · -- the alias of the first word, which the others leave alone
          have hfirst : name = lowered env.loc word := by
            rw [List.map_cons, List.mem_cons] at hname
            exact hname.resolve_right hrest
          rw [hkept name hrest, hfirst]
          exact hnew
      · rw [List.map_cons, List.mem_cons, not_or] at hname
        rw [hkept name hname.2, hsame name hname.1]

end Words

section Lists

variable {env : HeaderEnv} {h h' : Headmaker} {m : MetaName} {str : XmlStr}

/-- A list whose words fit is read word by word. -/
theorem readMetanameAliases_of_fit (hfit : WordsFit (lineWords str)) :
    readMetanameAliases env str h m = run (readMetanameAlias env m) h (lineWords str) := by
  rw [readMetanameAliases, stringlistBuild_of_fit hfit, ok_bind]

/-- Any other does nothing that it is to do. -/
theorem not_aliasesSafe_of_not_fit (hfit : ¬WordsFit (lineWords str)) :
    ¬AliasesSafe env h m str := by
  intro hsafe
  have hfault : readMetanameAliases env str h m = .error (.fault .outOfBounds) := by
    rw [readMetanameAliases, stringlistBuild_of_not_fit hfit, error_bind]
  by_cases hreal : ∃ word ∈ lineWords str, lowered env.loc word ∈ h.config.metanames
  · obtain ⟨msg, hcroak⟩ := hsafe.croaks hreal
    cases hcroak.symm.trans hfault
  · obtain ⟨h', hok, -⟩ := hsafe.adds fun word hword hmem => hreal ⟨word, hword, hmem⟩
    cases hok.symm.trans hfault

/-- A list that croaks does what it is to do if it has a MetaName. -/
theorem aliasesSafe_of_croak {msg : XmlStr}
    (hcroak : readMetanameAliases env str h m = .error (.croak msg))
    (hreal : ∃ word ∈ lineWords str, lowered env.loc word ∈ h.config.metanames) :
    AliasesSafe env h m str := by
  have hnot : ∀ h', readMetanameAliases env str h m ≠ .ok h' := by
    intro h' hok
    cases hcroak.symm.trans hok
  refine ⟨fun _ => ⟨msg, hcroak⟩, fun hnone => ?_, fun h' hok => absurd hok (hnot h'),
    fun h' hok => absurd hok (hnot h')⟩
  obtain ⟨word, hword, hmem⟩ := hreal
  exact absurd hmem (hnone word hword)

/-- A list of new words that does not croak does what it is to do if the MetaName is not in it. -/
theorem aliasesSafe_of_added (hok : readMetanameAliases env str h m = .ok h')
    (hadded : AliasesAdded h h' m ((lineWords str).map (lowered env.loc)))
    (hself : m.name ∉ (lineWords str).map (lowered env.loc)) : AliasesSafe env h m str := by
  have honly : ∀ h'', readMetanameAliases env str h m = .ok h'' → h'' = h' :=
    fun h'' hok' => Except.ok.inj (hok'.symm.trans hok)
  refine ⟨fun hreal => ?_, fun _ => ⟨h', hok, hadded⟩, fun h'' hok' => ?_, fun h'' hok' => ?_⟩
  · obtain ⟨word, hword, hmem⟩ := hreal
    exact absurd hmem (hadded.new _ (List.mem_map_of_mem hword)).1
  · rw [honly h'' hok']
    intro name a hlook
    have hold : name ∉ (lineWords str).map (lowered env.loc) := fun hname =>
      (hadded.new name hname).1 (mem_of_lookup hlook)
    exact ⟨a, (hadded.same name hold).trans hlook, rfl⟩
  · rw [honly h'' hok']
    intro name a hlook halias
    by_cases hname : name ∈ (lineWords str).map (lowered env.loc)
    · -- the alias is of `m`, which is not in the list
      obtain ⟨-, a', hlook', halias'⟩ := hadded.new name hname
      cases hlook.symm.trans hlook'
      rw [halias, CPtr.live.injEq] at halias'
      exact absurd (halias' ▸ hname) hself
    · exact ⟨a, (hadded.same name hname).symm.trans hlook, halias⟩

end Lists

/-- A list whose words fit does what it is to do exactly if they are new, or one of them is met as a
MetaName. -/
theorem aliasesSafe_iff_of_fit {env : HeaderEnv} {h : Headmaker} {m : MetaName} {str : XmlStr}
    (hlow : ∀ word ∈ lineWords str, ∃ low, strTolower env.loc word = .ok low)
    (hfit : WordsFit (lineWords str)) :
    AliasesSafe env h m str ↔
      AliasesNew env.loc h.config.metanames m.name (lineWords str) := by
  have hread : readMetanameAliases env str h m = run (readMetanameAlias env m) h (lineWords str) :=
    readMetanameAliases_of_fit hfit
  constructor
  · intro hsafe
    refine ⟨fun hreal => ?_, fun hnone => ⟨fun hmet => ?_, fun hself => ?_⟩⟩
    · by_contra hmet
      obtain ⟨h', hok, -⟩ := run_of_not_met (m := m) hlow hmet
      obtain ⟨msg, hcroak⟩ := hsafe.croaks hreal
      cases hcroak.symm.trans (hread.trans hok)
    · obtain ⟨msg, hcroak⟩ := run_of_met (m := m) hlow hmet
      obtain ⟨h', hok, -⟩ := hsafe.adds hnone
      cases hok.symm.trans (hread.trans hcroak)
    · obtain ⟨h', hok, hadded⟩ := hsafe.adds hnone
      obtain ⟨hnew, a, hlook, halias⟩ := hadded.new m.name hself
      obtain ⟨a₀, hlook₀, -⟩ := hsafe.notSelf h' hok m.name a hlook halias
      exact hnew (mem_of_lookup hlook₀)
  · intro hnew
    by_cases hreal : ∃ word ∈ lineWords str, lowered env.loc word ∈ h.config.metanames
    · obtain ⟨msg, hcroak⟩ := run_of_met (m := m) hlow (hnew.met hreal)
      exact aliasesSafe_of_croak (hread.trans hcroak) hreal
    · have hnone : ∀ word ∈ lineWords str, lowered env.loc word ∉ h.config.metanames :=
        fun word hword hmem => hreal ⟨word, hword, hmem⟩
      obtain ⟨hmet, hself⟩ := hnew.notMet hnone
      obtain ⟨h', hok, hadded, hkept⟩ := run_of_not_met (m := m) hlow hmet
      refine aliasesSafe_of_added (hread.trans hok)
        ⟨fun name hname => ⟨?_, hadded name hname⟩, hkept⟩ hself
      obtain ⟨word, hword, rfl⟩ := List.mem_map.mp hname
      exact hnone word hword

/-- A list does what it is to do exactly if its words fit into the array they are read into, and
they are new, or one of them is met as a MetaName. -/
theorem aliasesSafe_iff {env : HeaderEnv} {h : Headmaker} {m : MetaName} {str : XmlStr}
    (hlow : ∀ word ∈ lineWords str, ∃ low, strTolower env.loc word = .ok low) :
    AliasesSafe env h m str ↔ WordsFit (lineWords str) ∧
      AliasesNew env.loc h.config.metanames m.name (lineWords str) := by
  by_cases hfit : WordsFit (lineWords str)
  · rw [aliasesSafe_iff_of_fit hlow hfit, and_iff_right hfit]
  · exact iff_of_false (not_aliasesSafe_of_not_fit hfit) fun h => hfit h.1

/-- A reader whose config is the default one. -/
def defaultHeadmaker : Headmaker :=
  { initHeadmaker (HeaderEnv.oneFile ⟨[], true, by simp⟩) [] with
    config := configSetDefault (lit "C") }

/-- A word that is new. -/
theorem aliasesSafe_color :
    AliasesSafe (HeaderEnv.oneFile ⟨[], true, by simp⟩) defaultHeadmaker
      (metanameInit (lit "other")) (lit "Color") := by
  have hbuild : lineWords (lit "Color") = [lit "Color"] := by decide
  refine (aliasesSafe_iff ?_).mpr ⟨by decide, ?_, fun _ => ⟨?_, ?_⟩⟩
  · rw [hbuild, List.forall_mem_singleton]
    exact ⟨_, rfl⟩
  · rw [hbuild]
    exact fun hreal => absurd hreal (by decide)
  · rw [hbuild]
    rintro ⟨front, word, behind, hwords, hmet⟩
    cases front with
    | nil =>
        obtain ⟨rfl, -⟩ := List.cons.inj hwords
        exact absurd hmet (by decide)
    | cons first front => simp at hwords
  · rw [hbuild]
    decide

/-- `SwishTitle` is not met as a MetaName, and makes an alias of `swishtitle`. -/
theorem not_aliasesSafe_swishTitle :
    ¬ ∀ (env : HeaderEnv) (h : Headmaker) (m : MetaName) (str : XmlStr),
      (∀ word ∈ lineWords str, ∃ low, strTolower env.loc word = .ok low) →
        AliasesSafe env h m str := by
  intro hall
  have hsafe := hall (HeaderEnv.oneFile ⟨[], true, by simp⟩) defaultHeadmaker
    (metanameInit (lit "other")) (lit "SwishTitle") ?_
  · obtain ⟨msg, hcroak⟩ := hsafe.croaks (by decide)
    have hok : (readMetanameAliases (HeaderEnv.oneFile ⟨[], true, by simp⟩) (lit "SwishTitle")
        defaultHeadmaker (metanameInit (lit "other"))).isOk = true := rfl
    rw [hcroak] at hok
    cases hok
  · have hbuild : lineWords (lit "SwishTitle") = [lit "SwishTitle"] := by decide
    rw [hbuild, List.forall_mem_singleton]
    exact ⟨_, rfl⟩

end LibSwish3
