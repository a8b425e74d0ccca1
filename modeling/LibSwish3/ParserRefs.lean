import LibSwish3.MetaRefs
import LibSwish3.Nested
import LibSwish3.WordCount

/-!
# The MetaNames of a parse

A parse makes calls on the memory of `MetaRefs` in three places: an undefined name becomes a
MetaName of the config, a flush adds tokens of one MetaName, and an included document has a token
list of its own, whose tokens are copied to that of the including one before it is released.
`ParserCalls` lists the calls in the order in which the parser makes them, and each run of the
callbacks has such a list.

Carried out in memory, the calls do not stop unless a count overflows.  All counts are right
after each of them, the memory holds the MetaNames and the tokens of the parser, and when its
token list has been released as well, the count of every MetaName is what it was before.

## Main definitions

* `ParserCalls` — the calls of a parser.
* `AddsTokens` — a tokenizer that adds tokens of the MetaName it is given.
* `MemorySteps` — invariants that look at the MetaNames and the tokens only.
* `Mirrors` — the memory holds the MetaNames and the tokens of a parser.
* `MemoryKept` — what the calls of a parser leave as it was.
* `parse_refCounted` — the result.
-/

namespace LibSwish3

open Runs Heaps Tables RefCounts

/-! ## The calls -/

/-- A call of the parser that touches neither the MetaNames of the config nor the token list. -/
structure SameMemory (pd pd' : ParserData) : Prop where
  metanames : pd'.config.metanames = pd.config.metanames
  tokens : pd'.tokens = pd.tokens
  analyzer : pd'.analyzer = pd.analyzer

/-- A tokenizer that adds tokens of the MetaName it is given, and leaves those that are there. -/
def AddsTokens (tokenizer : TokenizerFn) : Prop :=
  ∀ tl s m context tl' n, tokenizer tl s m context = .ok (tl', n) →
    ∃ ts, tl'.tokens = tl.tokens ++ ts ∧ ∀ t ∈ ts, m = some t.metaname

/-- The calls that a parser with the token list `tl` makes between two of its states.  The lists
are numbered in the order in which they are made, and `n` and `n'` are the numbers of the next
list before and after. -/
inductive ParserCalls : (tl n : Ptr) → ParserData → List RefCall → (n' : Ptr) → ParserData → Prop
  | same {tl n : Ptr} {pd pd' : ParserData} (hsame : SameMemory pd pd') :
      ParserCalls tl n pd [] n pd'
  | autoMetaname {tl n : Ptr} {pd pd' : ParserData} {name : XmlStr} {m : MetaName}
      (hnew : autoMetaname pd name = .ok pd') (hm : pd'.config.metanames.lookup name = some m) :
      ParserCalls tl n pd [.metanameNew name m] n pd'
  /-- `tokenize`: one call for each token that the list has afterwards. -/
  | tokenize {tl n : Ptr} {pd pd' : ParserData} {metaname context : XmlStr}
      (htok : tokenizeBuffer pd metaname context = .ok pd') :
      ParserCalls tl n pd (List.replicate (pd'.tokens.n - pd.tokens.n) (.addToken tl metaname)) n
        pd'
  /-- `process_xinclude` on a file that is not there. -/
  | skip {tl n : Ptr} {pd : ParserData} :
      ParserCalls tl n pd [.tokenListInit, .tokenListFree n] (n + 1) pd
  /-- `process_xinclude`: the parser of the included document, `xinclude_handler`, and
  `free_parser_data`. -/
  | included {tl n n' : Ptr} {parent child merged : ParserData} {docinfo : DocInfo}
      {calls : List RefCall}
      (hchild : ParserCalls n (n + 1) (initChildData parent docinfo) calls n' child)
      (hmerge : xincludeHandler parent child = .ok merged) :
      ParserCalls tl n parent ([.tokenListInit] ++ calls ++
        (List.range child.tokens.n).map (.copyToken tl n) ++ [.tokenListFree n]) n' merged
  | trans {tl n₁ n₂ n₃ : Ptr} {pd₁ pd₂ pd₃ : ParserData} {calls calls' : List RefCall}
      (h : ParserCalls tl n₁ pd₁ calls n₂ pd₂) (h' : ParserCalls tl n₂ pd₂ calls' n₃ pd₃) :
      ParserCalls tl n₁ pd₁ (calls ++ calls') n₃ pd₃

theorem SameMemory.refl (pd : ParserData) : SameMemory pd pd := ⟨rfl, rfl, rfl⟩

/-! ## Every run has a list of calls -/

/-- What an invariant that looks at the MetaNames and the tokens only has to survive. -/
structure MemorySteps (P : ParserData → Prop) : Prop where
  same : ∀ pd pd', P pd → SameMemory pd pd' → P pd'
  autoMetaname : ∀ pd name pd', P pd → autoMetaname pd name = .ok pd' → P pd'
  tokenize : ∀ pd metaname context pd', P pd → tokenizeBuffer pd metaname context = .ok pd' →
    P pd'

theorem MemorySteps.tokenSteps {P : ParserData → Prop} (H : MemorySteps P) : TokenSteps P where
  moves _ _ hP hmoves := H.same _ _ hP ⟨by rw [hmoves.config], hmoves.tokens, hmoves.analyzer⟩
  autoMetaname := H.autoMetaname
  autoProperty _ _ _ hP hok := by
    rcases autoProperty_new hok with rfl | ⟨config, hnew, rfl⟩
    · exact hP
    · obtain ⟨propIds, -, hnew⟩ := bind_ok_iff.mp hnew
      obtain ⟨table, -, hnew⟩ := bind_ok_iff.mp hnew
      cases hnew
      exact H.same _ _ hP ⟨rfl, rfl, rfl⟩
  tokenize := H.tokenize

/-- There is a list of calls between two states, whatever the numbers of the lists are. -/
def HasCalls (pd pd' : ParserData) : Prop :=
  ∀ tl n, ∃ calls n', ParserCalls tl n pd calls n' pd'

section HasCalls

variable {env : SaxEnv} {pd pd' : ParserData} {uri : XmlStr} {isText : Bool}
  {step : ParserData → SaxEvent → Swish ParserData}

theorem HasCalls.refl (pd : ParserData) : HasCalls pd pd := fun _ n => ⟨[], n, .same (.refl pd)⟩

theorem HasCalls.trans {pd₁ pd₂ pd₃ : ParserData} (h : HasCalls pd₁ pd₂) (h' : HasCalls pd₂ pd₃) :
    HasCalls pd₁ pd₃ := by
  intro tl n₁
  obtain ⟨calls, n₂, hcalls⟩ := h tl n₁
  obtain ⟨calls', n₃, hcalls'⟩ := h' tl n₂
  exact ⟨calls ++ calls', n₃, hcalls.trans hcalls'⟩

theorem hasCalls_same (h : SameMemory pd pd') : HasCalls pd pd' := fun _ n => ⟨[], n, .same h⟩

/-- A new name is a MetaName of the config. -/
theorem autoMetaname_metanames {name : XmlStr} (h : autoMetaname pd name = .ok pd') :
    name ∉ pd.config.metanames ∧ pd'.tokens = pd.tokens ∧ pd'.analyzer = pd.analyzer ∧
      ∃ m, pd'.config.metanames = pd.config.metanames.insert name m := by
  obtain ⟨config, hnew, rfl⟩ := autoMetaname_new h
  obtain ⟨metaIds, -, hnew⟩ := bind_ok_iff.mp hnew
  obtain ⟨table, hadd, hnew⟩ := bind_ok_iff.mp hnew
  obtain ⟨hname, rfl⟩ := hashAdd_ok_iff.mp hadd
  cases hnew
  exact ⟨hname, rfl, rfl, _, rfl⟩

theorem autoMetaname_hasCalls {name : XmlStr} (h : autoMetaname pd name = .ok pd') :
    HasCalls pd pd' := by
  obtain ⟨-, -, -, m, hinsert⟩ := autoMetaname_metanames h
  have hm : pd'.config.metanames.lookup name = some m := by
    rw [hinsert, AList.lookup_insert]
  exact fun _ n => ⟨_, n, .autoMetaname h hm⟩

theorem hasCalls_memorySteps (pd₀ : ParserData) : MemorySteps (HasCalls pd₀) where
  same _ _ h hsame := h.trans (hasCalls_same hsame)
  autoMetaname _ _ _ h hnew := h.trans (autoMetaname_hasCalls hnew)
  tokenize _ _ _ _ h htok := h.trans fun _ n => ⟨_, n, .tokenize htok⟩

theorem saxEvent_hasCalls {xinclude : ParserData → XmlStr → Bool → Swish ParserData}
    (hx : ∀ pd uri isText pd', xinclude pd uri isText = .ok pd' → HasCalls pd pd') {e : SaxEvent}
    (h : saxEvent env xinclude pd e = .ok pd') : HasCalls pd pd' :=
  (hasCalls_memorySteps pd).tokenSteps.saxEvent (hx pd) (.refl pd) h

theorem docparser_hasCalls {filename : XmlStr}
    (hstep : ∀ pd e pd', step pd e = .ok pd' → HasCalls pd pd')
    (h : docparser env step pd filename = .ok pd') : HasCalls pd pd' := by
  refine (hasCalls_memorySteps pd).tokenSteps.docparser ?_ ?_ (.refl pd) h
  · intro pd₁ size h
    exact h.trans (hasCalls_same ⟨rfl, rfl, rfl⟩)
  · intro pd₁ e pd₂ h hok
    exact h.trans (hstep _ _ _ hok)

/-- The including parser flushes, and then the included document has a token list. -/
theorem processXinclude_hasCalls (hstep : ∀ pd e pd', step pd e = .ok pd' → HasCalls pd pd')
    (h : processXinclude env step pd uri isText = .ok pd') : HasCalls pd pd' := by
  have hflushed : ∀ parent, flushHead { pd with stash := some pd.self } = .ok parent →
      HasCalls pd parent := by
    intro parent hflush
    refine (hasCalls_memorySteps pd).tokenSteps.flushHead ?_ hflush
    exact hasCalls_same ⟨rfl, rfl, rfl⟩
  rcases processXinclude_ok h with ⟨parent, hflush, rfl⟩ | ⟨parent, child, merged, hin, hmerge, rfl⟩
  · have hskip : HasCalls parent parent := fun _ n => ⟨_, n + 1, .skip⟩
    exact ((hflushed parent hflush).trans hskip).trans (hasCalls_same ⟨rfl, rfl, rfl⟩)
  · obtain ⟨hflush, xuri, docinfo, -, hparse⟩ := hin.parse
    have hchild := docparser_hasCalls hstep hparse
    have hmerged : HasCalls parent merged := by
      intro tl n
      obtain ⟨calls, n', hcalls⟩ := hchild n (n + 1)
      exact ⟨_, n', .included hcalls hmerge⟩
    exact ((hflushed parent hflush).trans hmerged).trans (hasCalls_same ⟨rfl, rfl, rfl⟩)

theorem xincludeDeep_hasCalls {fuel : Nat} (h : xincludeDeep env fuel pd uri isText = .ok pd') :
    HasCalls pd pd' := by
  induction fuel generalizing pd uri isText pd' with
  | zero => cases h
  | succ fuel ih =>
      refine processXinclude_hasCalls ?_ h
      intro pd₁ e pd₂ hok
      exact saxEvent_hasCalls (fun _ _ _ _ hinclude => ih hinclude) hok

/-- **Every run of the callbacks has a list of calls.** -/
theorem run_hasCalls {fuel : Nat} {events : List SaxEvent}
    (h : run (saxStep env fuel) pd events = .ok pd') : HasCalls pd pd' := by
  refine invariant (I := HasCalls pd) ?_ (.refl pd) h
  intro pd₁ e pd₂ hcalls hok
  have hevent := saxEvent_hasCalls (fun _ _ _ _ hinclude => xincludeDeep_hasCalls hinclude) hok
  exact hcalls.trans hevent

end HasCalls

/-! ## What the memory holds of a parser -/

/-- The pointer leads to the MetaName. -/
def PointsTo (metas : Heap CountedMeta) (p : Ptr) (m : MetaName) : Prop :=
  ∃ obj, LiveAt metas p obj ∧ obj.metaname = m

/-- The table of the config leads to its MetaNames. -/
def HoldsConfig (s : MetaHeap) (config : Config) : Prop :=
  ∀ name, match config.metanames.lookup name with
    | some m => ∃ p, s.metanames.lookup name = some p ∧ PointsTo s.metas p m
    | none => s.metanames.lookup name = none

/-- The list at `tl` has the tokens, and they point to their MetaNames. -/
def HoldsTokens (s : MetaHeap) (tl : Ptr) (tokens : TokenList) : Prop :=
  ∃ ts, LiveAt s.lists tl ts ∧
    List.Forall₂ (PointsTo s.metas) (ts.map (·.metaname)) (tokens.tokens.map (·.metaname))

/-- The memory of a parser with the token list `tl`. -/
structure Mirrors (tl : Ptr) (pd : ParserData) (s : MetaHeap) : Prop where
  refCounted : RefCounted s
  config : HoldsConfig s pd.config
  tokens : HoldsTokens s tl pd.tokens

/-- What the calls of a parser with the token list `tl` leave as it was: the other lists, but for
new ones that have been released again; the MetaNames; and what the config held before. -/
structure MemoryKept (tl : Ptr) (s s' : MetaHeap) : Prop where
  lists : ∃ ts k, s'.lists = Heaps.store s.lists tl ts ++ List.replicate k none
  metas : MetasKept s.metas s'.metas
  held : ∃ new, s'.held = new + s.held ∧ ∀ m ∈ new, s.metas.length ≤ m

section Memory

variable {s s' s'' : MetaHeap} {config : Config} {tl p : Ptr} {name : XmlStr}
  {metas metas' : Heap CountedMeta} {m : MetaName}

theorem HoldsConfig.of_some (h : HoldsConfig s config)
    (hm : config.metanames.lookup name = some m) :
    ∃ p, s.metanames.lookup name = some p ∧ PointsTo s.metas p m := by
  have hname := h name
  rw [hm] at hname
  exact hname

theorem HoldsConfig.of_none (h : HoldsConfig s config)
    (hm : config.metanames.lookup name = none) : s.metanames.lookup name = none := by
  have hname := h name
  rw [hm] at hname
  exact hname

/-- A MetaName that is still live is the same. -/
theorem PointsTo.kept (h : PointsTo metas p m) (hkept : MetasKept metas metas')
    (hlive : ∃ obj, LiveAt metas' p obj) : PointsTo metas' p m := by
  obtain ⟨obj, hobj, rfl⟩ := h
  obtain ⟨obj', hobj'⟩ := hlive
  obtain ⟨obj₁, hobj₁, heq⟩ := hkept.metaname p obj' hobj' hobj.lt
  obtain rfl : obj₁ = obj := hobj₁.unique hobj
  exact ⟨obj', hobj', heq.symm⟩

theorem pointsTo_kept {ps : List Ptr} {ms : List MetaName}
    (h : List.Forall₂ (PointsTo metas) ps ms) (hkept : MetasKept metas metas')
    (hlive : ∀ p ∈ ps, ∃ obj, LiveAt metas' p obj) :
    List.Forall₂ (PointsTo metas') ps ms := by
  induction h with
  | nil => exact .nil
  | cons hp _ ih =>
      exact .cons (hp.kept hkept (hlive _ List.mem_cons_self))
        (ih fun p hp => hlive p (List.mem_cons_of_mem _ hp))

theorem pointsTo_replicate {us : List Token} (h : ∀ t ∈ us, PointsTo metas p t.metaname) :
    List.Forall₂ (PointsTo metas)
      ((List.replicate us.length (⟨p, 1⟩ : CountedToken)).map (·.metaname))
      (us.map (·.metaname)) := by
  induction us with
  | nil => exact .nil
  | cons t us ih =>
      exact .cons (h t List.mem_cons_self) (ih fun u hu => h u (List.mem_cons_of_mem t hu))

/-- The config still holds its MetaNames. -/
theorem HoldsConfig.kept (h : HoldsConfig s config) (hcounted : RefCounted s')
    (hsame : s'.metanames = s.metanames) (hkept : MetasKept s.metas s'.metas) :
    HoldsConfig s' config := by
  intro name
  cases hm : config.metanames.lookup name with
  | none =>
      rw [hsame]
      exact h.of_none hm
  | some m =>
      obtain ⟨p, hp, hpoints⟩ := h.of_some hm
      rw [← hsame] at hp
      exact ⟨p, hp, hpoints.kept hkept (hcounted.live_of_held hp)⟩

/-- A list that is still live points to the same MetaNames. -/
theorem tokens_kept {ts : List CountedToken} {ms : List MetaName}
    (h : List.Forall₂ (PointsTo s.metas) (ts.map (·.metaname)) ms) (hcounted : RefCounted s')
    (htl : LiveAt s'.lists tl ts) (hkept : MetasKept s.metas s'.metas) :
    List.Forall₂ (PointsTo s'.metas) (ts.map (·.metaname)) ms := by
  refine pointsTo_kept h hkept fun p hp => ?_
  obtain ⟨t, ht, rfl⟩ := List.mem_map.mp hp
  exact hcounted.live_of_token htl ht

theorem HoldsTokens.lt {tokens : TokenList} (h : HoldsTokens s tl tokens) :
    tl < s.lists.length := by
  obtain ⟨ts, htl, -⟩ := h
  exact htl.lt

theorem MemoryKept.refl {ts : List CountedToken}
    (hts : LiveAt s.lists tl ts) : MemoryKept tl s s := by
  refine ⟨⟨ts, 0, ?_⟩, .refl _, 0, (zero_add _).symm, fun m hm => ?_⟩
  swap
  · exact absurd hm (Multiset.notMem_zero m)
  rw [List.replicate_zero, List.append_nil, store_self hts]

theorem MemoryKept.trans (h : MemoryKept tl s s') (h' : MemoryKept tl s' s'')
    (htl : tl < s.lists.length) : MemoryKept tl s s'' where
  lists := by
    obtain ⟨ts, k, hlists⟩ := h.lists
    obtain ⟨ts', k', hlists'⟩ := h'.lists
    refine ⟨ts', k + k', ?_⟩
    have hlength : tl < (Heaps.store s.lists tl ts).length := by
      rw [length_store]
      exact htl
    rw [hlists', hlists, Heaps.store_append hlength, store_store, List.append_assoc,
      List.replicate_append_replicate]
  metas := h.metas.trans h'.metas
  held := by
    obtain ⟨new, hheld, hnew⟩ := h.held
    obtain ⟨new', hheld', hnew'⟩ := h'.held
    refine ⟨new' + new, by rw [hheld', hheld, add_assoc], fun m hm => ?_⟩
    rcases Multiset.mem_add.mp hm with hm | hm
    · exact h.metas.length.trans (hnew' m hm)
    · exact hnew m hm

end Memory

/-! ## The calls in memory -/

/-- The memory behind the calls of a parser. -/
structure Followed (tl n' : Ptr) (pd' : ParserData) (s s' : MetaHeap) : Prop where
  mirrors : Mirrors tl pd' s'
  length : s'.lists.length = n'
  kept : MemoryKept tl s s'

section Followed

variable {s s' s₁ s₂ : MetaHeap} {tl n n' : Ptr} {pd pd' parent child merged : ParserData}
  {tokens more ts : List CountedToken} {calls : List RefCall} {docinfo : DocInfo}

theorem Mirrors.memoryKept (h : Mirrors tl pd s) : MemoryKept tl s s := by
  obtain ⟨ts, htl, -⟩ := h.tokens
  exact .refl htl

theorem Mirrors.same (h : Mirrors tl pd s) (hsame : SameMemory pd pd') : Mirrors tl pd' s where
  refCounted := h.refCounted
  config := by
    intro name
    rw [hsame.metanames]
    exact h.config name
  tokens := by
    rw [hsame.tokens]
    exact h.tokens

theorem TokensAdded.memoryKept (h : TokensAdded tl tokens more s s') : MemoryKept tl s s' where
  lists := ⟨tokens ++ more, 0, by rw [h.lists, List.replicate_zero, List.append_nil]⟩
  metas := h.metas
  held := by
    refine ⟨0, ?_, fun m hm => absurd hm (Multiset.notMem_zero m)⟩
    rw [zero_add, MetaHeap.held, h.metanames, MetaHeap.held]

theorem TokensAdded.pointsTo {ms ms' : List MetaName} (h : TokensAdded tl tokens more s s')
    (htl : LiveAt s.lists tl tokens)
    (hts : List.Forall₂ (PointsTo s.metas) (tokens.map (·.metaname)) ms)
    (hmore : List.Forall₂ (PointsTo s.metas) (more.map (·.metaname)) ms') :
    List.Forall₂ (PointsTo s'.metas) ((tokens ++ more).map (·.metaname)) (ms ++ ms') := by
  refine tokens_kept ?_ h.refCounted (h.live htl) h.metas
  rw [List.map_append]
  exact List.rel_append hts hmore

/-- A new MetaName of the config. -/
theorem autoMetaname_followed {name : XmlStr} {m : MetaName} (hs : Mirrors tl pd s)
    (hnew : autoMetaname pd name = .ok pd') (hm : pd'.config.metanames.lookup name = some m) :
    EndsWell (Followed tl s.lists.length pd' s) (· = .overflow)
      (run refCall s [.metanameNew name m]) := by
  obtain ⟨hname, htokens, -, m', hinsert⟩ := autoMetaname_metanames hnew
  obtain rfl : m' = m := by
    rw [hinsert, AList.lookup_insert] at hm
    exact Option.some.inj hm
  have hfree : name ∉ s.metanames := by
    rw [← AList.lookup_eq_none] at hname ⊢
    exact hs.config.of_none hname
  have hcall : refCall s (.metanameNew name m') = .ok { s with
      metas := alloc s.metas ⟨m', 1⟩, metanames := s.metanames.insert name (fresh s.metas) } := by
    rw [refCall, metanameNewAt, if_neg hfree]
  have hcounted := refCall_counted hs.refCounted hcall
  rw [run_singleton, hcall]
  refine endsWell_ok ⟨⟨hcounted, ?_, ?_⟩, rfl, ?_⟩
  · intro key
    rw [hinsert]
    by_cases hkey : key = name
    · subst hkey
      rw [AList.lookup_insert, AList.lookup_insert]
      exact ⟨_, rfl, _, liveAt_alloc_fresh, rfl⟩
    · rw [AList.lookup_insert_ne hkey, AList.lookup_insert_ne hkey]
      have hheld := hs.config key
      split at hheld
      · obtain ⟨p, hp, obj, hobj, hsame⟩ := hheld
        exact ⟨p, hp, obj, hobj.alloc, hsame⟩
      · exact hheld
  · rw [htokens]
    obtain ⟨ts, htl, hts⟩ := hs.tokens
    exact ⟨ts, htl, tokens_kept hts hcounted htl metasKept_alloc⟩
  · obtain ⟨ts, k, hlists⟩ := hs.memoryKept.lists
    refine ⟨⟨ts, k, hlists⟩, metasKept_alloc, {fresh s.metas}, ?_, ?_⟩
    · rw [held_insert hfree]
      rfl
    · intro m hm
      rw [Multiset.mem_singleton.mp hm]
      exact Nat.le_refl _

/-- The tokens of a flush. -/
theorem tokenizeBuffer_followed {metaname context : XmlStr} (hs : Mirrors tl pd s)
    (hadds : AddsTokens pd.analyzer.tokenizer)
    (htok : tokenizeBuffer pd metaname context = .ok pd') :
    EndsWell (Followed tl s.lists.length pd' s) (· = .overflow)
      (run refCall s (List.replicate (pd'.tokens.n - pd.tokens.n) (.addToken tl metaname))) := by
  unfold tokenizeBuffer at htok
  split at htok
  · cases htok
    rw [Nat.sub_self]
    exact endsWell_ok ⟨hs, rfl, hs.memoryKept⟩
  · obtain ⟨⟨tl', n⟩, hadded, htok⟩ := bind_ok_iff.mp htok
    cases htok
    obtain ⟨us, hus, hmeta⟩ := hadds _ _ _ _ _ _ hadded
    have hcount : TokenList.n tl' - pd.tokens.n = us.length := by
      rw [TokenList.n, TokenList.n, hus, List.length_append, Nat.add_sub_cancel_left]
    simp only [hcount]
    cases us with
    | nil =>
        rw [List.append_nil] at hus
        refine endsWell_ok ⟨⟨hs.refCounted, hs.config, ?_⟩, rfl, hs.memoryKept⟩
        rw [HoldsTokens, hus]
        exact hs.tokens
    | cons t us =>
        obtain ⟨p, hp, hpoints⟩ := hs.config.of_some (hmeta t List.mem_cons_self)
        obtain ⟨ts, htl, hts⟩ := hs.tokens
        have hpointed : ∀ u ∈ t :: us, PointsTo s.metas p u.metaname := by
          intro u hu
          have hsame : u.metaname = t.metaname :=
            Option.some.inj ((hmeta u hu).symm.trans (hmeta t List.mem_cons_self))
          rw [hsame]
          exact hpoints
        refine (run_addToken hs.refCounted htl hp (t :: us).length).mono fun s' hmore => ?_
        have hconfig := hs.config.kept hmore.refCounted hmore.metanames hmore.metas
        refine ⟨⟨hmore.refCounted, hconfig, _, hmore.live htl, ?_⟩, ?_, hmore.memoryKept⟩
        · have hall := hmore.pointsTo htl hts (pointsTo_replicate hpointed)
          rw [← List.map_append, ← hus] at hall
          exact hall
        · rw [hmore.lists, length_store]

/-- The list that was made last is released. -/
theorem tokenListFree_last {base : Heap (List CountedToken)} {k : Nat} (h : RefCounted s)
    (hlists : s.lists = base ++ some ts :: List.replicate k none) :
    ∃ s', refCall s (.tokenListFree base.length) = .ok s' ∧ RefCounted s' ∧
      s'.lists = base ++ List.replicate (k + 1) none ∧ s'.metanames = s.metanames ∧
      MetasKept s.metas s'.metas := by
  have htl : LiveAt s.lists base.length ts := by
    rw [hlists]
    exact liveAt_append_self
  obtain ⟨metas, hfree, hkept, hcounted⟩ := tokenListFreeAt_counted h htl
  refine ⟨_, hfree, hcounted, ?_, rfl, hkept⟩
  have hrelease : release s.lists base.length = base ++ none :: List.replicate k none := by
    rw [hlists, release_append_self]
  exact hrelease

/-- A token list that is made and released. -/
theorem skip_followed (hs : Mirrors tl pd s) :
    EndsWell (Followed tl (s.lists.length + 1) pd s) (· = .overflow)
      (run refCall s [.tokenListInit, .tokenListFree s.lists.length]) := by
  have hinit : refCall s .tokenListInit = .ok (tokenListInitAt s) := rfl
  have hlast : (tokenListInitAt s).lists = s.lists ++ some [] :: List.replicate 0 none := rfl
  obtain ⟨s', hfree, hcounted, hlists, hsame, hkept⟩ :=
    tokenListFree_last (tokenListInitAt_counted hs.refCounted) hlast
  obtain ⟨ts, htl, hts⟩ := hs.tokens
  have htl' : LiveAt s'.lists tl ts := by
    rw [hlists]
    exact htl.append
  rw [run_cons_of_ok hinit, run_singleton, hfree]
  refine endsWell_ok ⟨⟨hcounted, hs.config.kept hcounted hsame hkept, ts, htl', ?_⟩, ?_, ?_⟩
  · exact tokens_kept hts hcounted htl' hkept
  · rw [hlists, List.length_append, List.length_replicate]
  · refine ⟨⟨ts, 1, ?_⟩, hkept, 0, ?_, fun m hm => absurd hm (Multiset.notMem_zero m)⟩
    · rw [hlists, store_self htl]
    · rw [zero_add, MetaHeap.held, hsame]
      rfl

/-- Behind an included document: its list is the last one that is not released. -/
theorem Followed.childTokens (h : Followed s.lists.length n' child (tokenListInitAt s) s₂) :
    ∃ ts k, s₂.lists = s.lists ++ some ts :: List.replicate k none ∧
      List.Forall₂ (PointsTo s₂.metas) (ts.map (·.metaname))
        (child.tokens.tokens.map (·.metaname)) := by
  obtain ⟨ts, k, hlists⟩ := h.kept.lists
  have hstore : Heaps.store (tokenListInitAt s).lists s.lists.length ts = s.lists ++ [some ts] := by
    rw [tokenListInitAt, alloc, store_append_self]
  rw [hstore, List.append_assoc, List.singleton_append] at hlists
  obtain ⟨ts', htl, hts⟩ := h.mirrors.tokens
  rw [hlists] at htl
  obtain rfl : ts = ts' := liveAt_append_self.unique htl
  exact ⟨ts, k, hlists, hts⟩

/-- Merging appends the MetaNames of the tokens. -/
theorem xincludeHandler_metanames (h : xincludeHandler parent child = .ok merged) :
    merged.config = child.config ∧ merged.analyzer = parent.analyzer ∧
      merged.tokens.tokens.map (·.metaname) =
        parent.tokens.tokens.map (·.metaname) ++ child.tokens.tokens.map (·.metaname) := by
  obtain ⟨-, tl, hadd, rfl⟩ := xincludeHandler_ok h
  obtain ⟨us, hus, hentries⟩ := run_tokenListAddToken hadd
  refine ⟨rfl, rfl, ?_⟩
  have hmetas : us.map (·.metaname) = child.tokens.tokens.map (·.metaname) := by
    simpa [Function.comp_def, Token.entry] using congrArg (List.map TokenEntry.metaname) hentries
  rw [hus, List.map_append, hmetas]

/-- Behind the copies: the list `ts` of the included document stands behind the lists of `s`, and
its tokens are at the end of the list of the including one. -/
structure Copied (tl : Ptr) (child : ParserData) (s s₂ : MetaHeap) (ts₀ ts : List CountedToken)
    (k : Nat) (s₃ : MetaHeap) : Prop where
  lists : s₂.lists = s.lists ++ some ts :: List.replicate k none
  metanames : List.Forall₂ (PointsTo s₂.metas) (ts.map (·.metaname))
    (child.tokens.tokens.map (·.metaname))
  added : TokensAdded tl ts₀ ts s₂ s₃

/-- `xinclude_handler` copies as many tokens as the list has. -/
theorem Followed.copied (h : Followed s.lists.length n' child (tokenListInitAt s) s₂)
    (htl : LiveAt s.lists tl tokens) :
    EndsWell (fun s₃ => ∃ ts k, Copied tl child s s₂ tokens ts k s₃) (· = .overflow)
      (run refCall s₂ ((List.range child.tokens.n).map (.copyToken tl s.lists.length))) := by
  obtain ⟨ts, k, hlists, hts⟩ := h.childTokens
  have htl₂ : LiveAt s₂.lists tl tokens := by
    rw [hlists]
    exact htl.append
  have hit : LiveAt s₂.lists s.lists.length ts := by
    rw [hlists]
    exact liveAt_append_self
  have hlength : child.tokens.n = ts.length := by
    have heq := hts.length_eq
    rw [List.length_map, List.length_map] at heq
    exact heq.symm
  have hcopied := run_copyToken h.mirrors.refCounted htl₂ hit (Nat.ne_of_gt htl.lt) ts.length
    (Nat.le_refl _)
  rw [List.take_length] at hcopied
  rw [hlength]
  exact hcopied.mono fun s₃ hadded => ⟨ts, k, hlists, hts, hadded⟩

/-- The list of the included document is released, and its tokens stay. -/
theorem Copied.released {k : Nat} {s₃ : MetaHeap} (h : Copied tl child s s₂ tokens ts k s₃)
    (hfollowed : Followed s.lists.length n' child (tokenListInitAt s) s₂)
    (hmerge : xincludeHandler parent child = .ok merged) (htl : LiveAt s.lists tl tokens)
    (htokens : List.Forall₂ (PointsTo s.metas) (tokens.map (·.metaname))
      (parent.tokens.tokens.map (·.metaname))) :
    EndsWell (Followed tl n' merged s) (· = .overflow)
      (run refCall s₃ [.tokenListFree s.lists.length]) := by
  obtain ⟨hconfig, -, hmetas⟩ := xincludeHandler_metanames hmerge
  have hbase : s₃.lists = Heaps.store s.lists tl (tokens ++ ts) ++ some ts ::
      List.replicate k none := by
    rw [h.added.lists, h.lists, Heaps.store_append htl.lt]
  obtain ⟨s₄, hfree, hcounted, hlists₄, hsame, hkept⟩ :=
    tokenListFree_last h.added.refCounted hbase
  rw [length_store] at hfree
  have hkept₂ : MetasKept s.metas s₂.metas := hfollowed.kept.metas
  have hkept₄ : MetasKept s₂.metas s₄.metas := h.added.metas.trans hkept
  have hsame₂ : s₄.metanames = s₂.metanames := hsame.trans h.added.metanames
  have htl₂ : LiveAt s₂.lists tl tokens := by
    rw [h.lists]
    exact htl.append
  have htl₄ : LiveAt s₄.lists tl (tokens ++ ts) := by
    rw [hlists₄]
    exact (liveAt_store_self htl).append
  have hparent := tokens_kept htokens hfollowed.mirrors.refCounted htl₂ hkept₂
  rw [run_singleton, hfree]
  refine endsWell_ok ⟨⟨hcounted, ?_, tokens ++ ts, htl₄, ?_⟩, ?_, ?_⟩
  · rw [hconfig]
    exact hfollowed.mirrors.config.kept hcounted hsame₂ hkept₄
  · rw [hmetas]
    exact tokens_kept (h.added.pointsTo htl₂ hparent h.metanames) hcounted htl₄ hkept
  · rw [← hfollowed.length, hlists₄, h.lists]
    simp only [List.length_append, List.length_cons, List.length_replicate, length_store]
  · refine ⟨⟨tokens ++ ts, k + 1, hlists₄⟩, hkept₂.trans hkept₄, ?_⟩
    obtain ⟨new, hheld, hnew⟩ := hfollowed.kept.held
    refine ⟨new, ?_, hnew⟩
    rw [MetaHeap.held, hsame₂]
    exact hheld

/-- **An included document**: its tokens are copied before its list is released, so that no
MetaName of theirs is. -/
theorem included_followed
    (hchild : ∀ s₁, Mirrors s.lists.length (initChildData parent docinfo) s₁ →
      s₁.lists.length = s.lists.length + 1 →
      EndsWell (Followed s.lists.length n' child s₁) (· = .overflow) (run refCall s₁ calls))
    (hmerge : xincludeHandler parent child = .ok merged) (hs : Mirrors tl parent s) :
    EndsWell (Followed tl n' merged s) (· = .overflow)
      (run refCall s ([.tokenListInit] ++ calls ++
        (List.range child.tokens.n).map (.copyToken tl s.lists.length) ++
        [.tokenListFree s.lists.length])) := by
  obtain ⟨ts₀, htl, hts₀⟩ := hs.tokens
  have hs₁ : Mirrors s.lists.length (initChildData parent docinfo) (tokenListInitAt s) :=
    ⟨tokenListInitAt_counted hs.refCounted, hs.config, [], liveAt_alloc_fresh, .nil⟩
  have hparsed : EndsWell (Followed s.lists.length n' child (tokenListInitAt s)) (· = .overflow)
      (run refCall s ([.tokenListInit] ++ calls)) := by
    rw [List.singleton_append, run_cons_of_ok (show refCall s .tokenListInit = _ from rfl)]
    exact hchild _ hs₁ length_alloc
  rw [List.append_assoc]
  refine hparsed.append fun s₂ hfollowed => ?_
  refine (hfollowed.copied htl).append fun s₃ hcopied => ?_
  obtain ⟨ts, k, hcopied⟩ := hcopied
  exact hcopied.released hfollowed hmerge htl hts₀

theorem ParserCalls.analyzer (h : ParserCalls tl n pd calls n' pd') :
    pd'.analyzer = pd.analyzer := by
  induction h with
  | same hsame => exact hsame.analyzer
  | autoMetaname hnew _ =>
      obtain ⟨-, -, hanalyzer, -⟩ := autoMetaname_metanames hnew
      exact hanalyzer
  | tokenize htok =>
      obtain ⟨tokens, nwords, rfl⟩ := tokenizeBuffer_ok htok
      rfl
  | skip => rfl
  | included _ hmerge _ => exact (xincludeHandler_metanames hmerge).2.1
  | trans _ _ ih₁ ih₂ => exact ih₂.trans ih₁

/-- **The calls of a parser do not stop in memory unless a count overflows, and the memory holds
what the parser has.**  By induction on the list of calls. -/
theorem ParserCalls.followed (h : ParserCalls tl n pd calls n' pd')
    (hadds : AddsTokens pd.analyzer.tokenizer) (hs : Mirrors tl pd s) (hn : s.lists.length = n) :
    EndsWell (Followed tl n' pd' s) (· = .overflow) (run refCall s calls) := by
  induction h generalizing s with
  | same hsame => exact endsWell_ok ⟨hs.same hsame, hn, hs.memoryKept⟩
  | autoMetaname hnew hm =>
      subst hn
      exact autoMetaname_followed hs hnew hm
  | tokenize htok =>
      subst hn
      exact tokenizeBuffer_followed hs hadds htok
  | skip =>
      subst hn
      exact skip_followed hs
  | included _ hmerge ih =>
      subst hn
      exact included_followed (fun s₁ hs₁ hlength => ih hadds hs₁ hlength) hmerge hs
  | trans h₁ _ ih₁ ih₂ =>
      have hadds' := hadds
      rw [← h₁.analyzer] at hadds'
      refine (ih₁ hadds hs hn).append fun s₁ hfollowed₁ => ?_
      refine (ih₂ hadds' hfollowed₁.mirrors hfollowed₁.length).mono fun s₂ hfollowed₂ => ?_
      exact ⟨hfollowed₂.mirrors, hfollowed₂.length,
        hfollowed₁.kept.trans hfollowed₂.kept hs.tokens.lt⟩

end Followed

/-! ## The counts of a parse -/

/-- Every MetaName is as it was before; those that are new are the config's, and only the config
refers to them. -/
structure CountsBack (s s' : MetaHeap) : Prop where
  before : ∀ m obj, LiveAt s.metas m obj → LiveAt s'.metas m obj
  new : ∀ m obj, LiveAt s'.metas m obj → LiveAt s.metas m obj ∨ m ∈ s'.held ∧ obj.refCnt = 1

section Parse

variable {env : SaxEnv} {fuel : Nat} {events : List SaxEvent} {s s' : MetaHeap}
  {pd pd' : ParserData} {calls : List RefCall} {n' : Ptr}

/-- Where the tokens are the same again, and the config has only gained MetaNames, the counts
are. -/
theorem countsBack {k : Nat} {new : Multiset Ptr} (hs : RefCounted s) (hs' : RefCounted s')
    (hlists : s'.lists = s.lists ++ List.replicate k none) (hkept : MetasKept s.metas s'.metas)
    (hheld : s'.held = new + s.held) (hnew : ∀ m ∈ new, s.metas.length ≤ m) : CountsBack s s' := by
  have htokens : s'.tokenMetas = s.tokenMetas := by
    rw [MetaHeap.tokenMetas, hlists, contents_append_released, MetaHeap.tokenMetas]
  have hold : ∀ m obj, LiveAt s.metas m obj → LiveAt s'.metas m obj := by
    intro m obj hobj
    have hmem := hs.counted.mem hobj
    have hnot : m ∉ new := fun h => Nat.not_lt.mpr (hnew m h) hobj.lt
    have hcount : (s'.held + s'.tokenMetas).count m = (s.held + s.tokenMetas).count m := by
      rw [hheld, htokens, add_assoc, Multiset.count_add, Multiset.count_eq_zero_of_notMem hnot,
        zero_add]
    have hmem' : m ∈ s'.held + s'.tokenMetas := by
      rw [← Multiset.count_pos, hcount]
      exact Multiset.count_pos.mpr hmem
    obtain ⟨obj', hobj'⟩ := hs'.counted.live hmem'
    obtain ⟨obj₁, hobj₁, hname⟩ := hkept.metaname m obj' hobj' hobj.lt
    obtain rfl : obj₁ = obj := hobj₁.unique hobj
    have hrefCnt : obj'.refCnt = obj₁.refCnt := by
      rw [hs'.counted.count_eq m obj' hobj', hs.counted.count_eq m obj₁ hobj, hcount]
    have hsame : obj' = obj₁ := by
      cases obj'
      cases obj₁
      simp only at hname hrefCnt
      rw [hname, hrefCnt]
    exact hsame ▸ hobj'
  refine ⟨hold, fun m obj hobj => ?_⟩
  by_cases hlt : m < s.metas.length
  · obtain ⟨obj₁, hobj₁, -⟩ := hkept.metaname m obj hobj hlt
    obtain rfl : obj = obj₁ := hobj.unique (hold m obj₁ hobj₁)
    exact .inl hobj₁
  · have hfree : m ∉ s.held + s.tokenMetas := fun h => hlt (hs.counted.lt h)
    have htok : m ∉ s'.tokenMetas := fun h => hfree (Multiset.mem_add.mpr (.inr (htokens ▸ h)))
    have hmem := (Multiset.mem_add.mp (hs'.counted.mem hobj)).resolve_right htok
    refine .inr ⟨hmem, ?_⟩
    rw [hs'.counted.count_eq m obj hobj, Multiset.count_add,
      Multiset.count_eq_one_of_mem hs'.once hmem, Multiset.count_eq_zero_of_notMem htok]
    rfl

/-- **The reference counts of MetaNames.**  Whatever calls are made, the counts stay right.  A
parse has a list of calls, and any list of its calls stops in memory only where a count overflows:
at every point the count of each MetaName of the config is one more than the number of its live
tokens, over all live token lists.  In the end the memory holds what the parser has; its token
lists can be released in any order without releasing a MetaName that something refers to; and
behind `free_parser_data` the counts are what they were. -/
theorem parse_refCounted (hadds : AddsTokens pd.analyzer.tokenizer) (htokens : pd.tokens = .init)
    (hs : RefCounted s) (hconfig : HoldsConfig s pd.config)
    (hrun : run (saxStep env fuel) pd events = .ok pd') :
    (∀ calls s₁, run refCall s calls = .ok s₁ → RefCounted s₁ ∧ s₁.HeldCounts) ∧
    (∃ calls n', ParserCalls (fresh s.lists) (fresh s.lists + 1) pd calls n' pd') ∧
    ∀ calls n', ParserCalls (fresh s.lists) (fresh s.lists + 1) pd calls n' pd' →
      (∀ pre post, .tokenListInit :: calls = pre ++ post →
        EndsWell (fun s₁ => RefCounted s₁ ∧ s₁.HeldCounts) (· = .overflow)
          (run refCall s pre)) ∧
      ∀ s', run refCall s (.tokenListInit :: calls) = .ok s' →
        HoldsConfig s' pd'.config ∧ HoldsTokens s' (fresh s.lists) pd'.tokens ∧
        (∀ order : List Ptr, order.Nodup → (∀ q ∈ order, ∃ ts, LiveAt s'.lists q ts) →
          ∃ s'', run refCall s' (order.map .tokenListFree) = .ok s'' ∧ RefCounted s'') ∧
        ∃ s'', refCall s' (.tokenListFree (fresh s.lists)) = .ok s'' ∧ CountsBack s s'' := by
  have hkept : ∀ calls s₁, run refCall s calls = .ok s₁ → RefCounted s₁ ∧ s₁.HeldCounts := by
    intro calls s₁ hcalls
    have hcounted := run_refCall_counted hs hcalls
    exact ⟨hcounted, hcounted.heldCounts⟩
  refine ⟨hkept, run_hasCalls hrun _ _, fun calls n' hcalls => ?_⟩
  have hinit : refCall s .tokenListInit = .ok (tokenListInitAt s) := rfl
  have hs₁ : Mirrors (fresh s.lists) pd (tokenListInitAt s) := by
    refine ⟨tokenListInitAt_counted hs, hconfig, [], liveAt_alloc_fresh, ?_⟩
    rw [htokens]
    exact .nil
  have hfollowed := hcalls.followed hadds hs₁ length_alloc
  rw [← run_cons_of_ok hinit] at hfollowed
  constructor
  · intro pre post hsplit
    refine ⟨fun s₁ hpre => hkept pre s₁ hpre, fun x hpre => ?_⟩
    exact hfollowed.fails x (by rw [hsplit, run_append_of_error hpre])
  · intro s' hs'
    have hmirrors := hfollowed.returns s' hs'
    have hcounted := hmirrors.mirrors.refCounted
    refine ⟨hmirrors.mirrors.config, hmirrors.mirrors.tokens,
      fun order hnodup hlive => run_tokenListFree hcounted hnodup hlive, ?_⟩
    obtain ⟨ts, k, hlists, -⟩ := hmirrors.childTokens
    obtain ⟨s'', hfree, hcounted', hlists', hsame, hmetas⟩ := tokenListFree_last hcounted hlists
    obtain ⟨new, hheld, hnew⟩ := hmirrors.kept.held
    refine ⟨s'', hfree, countsBack hs hcounted' hlists' (hmirrors.kept.metas.trans hmetas) ?_ hnew⟩
    rw [MetaHeap.held, hsame]
    exact hheld

end Parse

/-! ## Configs in memory, and the tokenizer of the library -/

section Configs

variable {s : MetaHeap} {loc : Locale}

/-- The MetaNames of a config, made one after the other, each with the count 1. -/
theorem run_metanameNew {entries : List (Sigma fun _ : XmlStr => MetaName)}
    (hkeys : entries.NodupKeys) (hs : RefCounted s) (hfree : ∀ e ∈ entries, e.1 ∉ s.metanames) :
    ∃ s', run refCall s (entries.map fun e => .metanameNew e.1 e.2) = .ok s' ∧ RefCounted s' ∧
      (∀ p m, PointsTo s.metas p m → PointsTo s'.metas p m) ∧
      ∀ name, match entries.dlookup name with
        | some m => ∃ p, s'.metanames.lookup name = some p ∧ PointsTo s'.metas p m
        | none => s'.metanames.lookup name = s.metanames.lookup name := by
  induction entries generalizing s with
  | nil => exact ⟨s, rfl, hs, fun _ _ h => h, fun _ => rfl⟩
  | cons e entries ih =>
      obtain ⟨name, m⟩ := e
      obtain ⟨hnot, hkeys⟩ := List.nodupKeys_cons.mp hkeys
      have hcall : refCall s (.metanameNew name m) = .ok { s with
          metas := alloc s.metas ⟨m, 1⟩
          metanames := s.metanames.insert name (fresh s.metas) } := by
        rw [refCall, metanameNewAt, if_neg (hfree _ List.mem_cons_self)]
      have hfree₁ : ∀ e ∈ entries, e.1 ∉ s.metanames.insert name (fresh s.metas) := by
        intro e he hmem
        rcases (AList.mem_insert _).mp hmem with heq | hmem
        · have hkey := List.mem_keys_of_mem he
          rw [heq] at hkey
          exact hnot hkey
        · exact hfree e (List.mem_cons_of_mem _ he) hmem
      obtain ⟨s', hrun, hcounted, hpoints, hnames⟩ := ih hkeys (refCall_counted hs hcall) hfree₁
      refine ⟨s', by rw [List.map_cons, run_cons_of_ok hcall, hrun], hcounted, ?_, ?_⟩
      · rintro p m' ⟨obj, hobj, hsame⟩
        exact hpoints p m' ⟨obj, hobj.alloc, hsame⟩
      · intro key
        have hkey := hnames key
        by_cases heq : key = name
        · subst heq
          rw [List.dlookup_eq_none.mpr hnot, AList.lookup_insert] at hkey
          rw [List.dlookup_cons_eq]
          exact ⟨_, hkey, hpoints _ _ ⟨_, liveAt_alloc_fresh, rfl⟩⟩
        · rw [AList.lookup_insert_ne heq] at hkey
          rw [List.dlookup_cons_ne _ _ heq]
          exact hkey

theorem refCounted_empty : RefCounted ⟨[], [], ∅⟩ :=
  ⟨counted_empty, Multiset.nodup_zero, fun _ _ h => absurd h.lt (Nat.not_lt_zero _)⟩

/-- Every config can be had in memory with right counts, before there is any token list. -/
theorem exists_holdsConfig (config : Config) :
    ∃ s, s.lists = [] ∧ RefCounted s ∧ HoldsConfig s config := by
  obtain ⟨s, hrun, hcounted, -, hnames⟩ := run_metanameNew config.metanames.nodupKeys
    refCounted_empty fun _ _ h => absurd h (AList.notMem_empty _)
  refine ⟨s, ?_, hcounted, hnames⟩
  refine invariant_of_steps (I := fun s : MetaHeap => s.lists = [])
    (C := fun _ c => ∃ name m, c = .metanameNew name m) ?_ rfl ?_ hrun
  · rintro s₁ c s₂ hlists ⟨name, m, rfl⟩ hcall
    obtain ⟨-, rfl⟩ := metanameNewAt_ok hcall
    exact hlists
  · refine steps_of_forall fun c hc => ?_
    obtain ⟨e, -, rfl⟩ := List.mem_map.mp hc
    exact ⟨e.1, e.2, rfl⟩

/-- What the tokenizer adds, it adds for one MetaName. -/
theorem addsTokens_listKept (tl : TokenList) (m : Option MetaName) (context : XmlStr) :
    ListKept m context fun tl' =>
      ∃ ts, tl'.tokens = tl.tokens ++ ts ∧ ∀ t ∈ ts, m = some t.metaname where
  add tl₁ token tokenLen tl₂ hI h := by
    obtain ⟨ts, hts, hmeta⟩ := hI
    unfold tokenListAddToken at h
    split at h
    · cases h
    · split at h
      · cases h
      · cases h
        refine ⟨ts ++ [_], by rw [← List.append_assoc, ← hts], fun t ht => ?_⟩
        rcases List.mem_append.mp ht with ht | ht
        · exact hmeta t ht
        · rw [List.mem_singleton.mp ht]
  bump _ hI := hI

theorem Analyzer.BuiltIn.addsTokens {a : Analyzer} (h : a.BuiltIn loc) :
    AddsTokens a.tokenizer := by
  intro tl buf m context tl' n hok
  obtain ⟨tokenizer, block, -, heq⟩ := h tl buf m context
  rw [heq] at hok
  exact ((addsTokens_listKept tl m context).tokenize ⟨[], by simp, by simp⟩ hok).1

end Configs

/-- A document of two words. -/
theorem parse_refCounted_words : ∃ s pd' calls n',
    run (saxStep .alone 0) helloParser [.characters (lit "hello world"), .endDocument] = .ok pd' ∧
    pd'.tokens.n = 2 ∧
    ParserCalls (fresh s.lists) (fresh s.lists + 1) helloParser calls n' pd' ∧
    EndsWell (fun s₁ => RefCounted s₁ ∧ s₁.HeldCounts) (· = .overflow)
      (run refCall s (.tokenListInit :: calls)) := by
  obtain ⟨pd', hrun, htwo⟩ := exists_ok_of_map (f := fun pd : ParserData => pd.tokens.n) (show
    (run (saxStep .alone 0) helloParser
      [.characters (lit "hello world"), .endDocument]).toOption.map
        (fun pd : ParserData => pd.tokens.n) = some 2 by decide +kernel)
  obtain ⟨s, -, hcounted, hconfig⟩ := exists_holdsConfig helloParser.config
  obtain ⟨-, ⟨calls, n', hcalls⟩, hends⟩ := parse_refCounted
    (Analyzer.ofLibrary_builtIn .posix 256 1).addsTokens rfl hcounted hconfig hrun
  exact ⟨s, pd', calls, n', hrun, htwo, hcalls,
    (hends calls n' hcalls).1 _ [] (List.append_nil _).symm⟩

end LibSwish3
