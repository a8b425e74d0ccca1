import LibSwish3.Config
import LibSwish3.Lib.RefCounts
import LibSwish3.Lib.Runs

/-!
# MetaNames in memory

A MetaName is shared: the config holds it, and so does every token of it, in any token list.
`ref_cnt` counts the config and the tokens, and whoever drops the last reference releases the
MetaName.

The memory here has the MetaNames, the token lists, and the table of the config that points to
the MetaNames.  `RefCounted` says that all counts are right, and every call keeps that, whatever
the order of the calls is.  A count is an `int`; a call that would take one past the largest is
undefined, and so is one on an object that has been released.

## Main definitions

* `MetaHeap` — the MetaNames and the token lists.
* `tokenListAddTokenAt`, `tokenListFreeAt`, `configFreeAt` — the calls that change counts.
* `RefCall`, `refCall` — one call.
* `RefCounted` — the counts are right.
* `refCall_counted`, `refCall_fails` — what a call keeps, and how it can stop.
-/

namespace LibSwish3

open Runs Heaps Tables RefCounts

/-! ## The memory -/

/-- A `swish_MetaName` and its count. -/
structure CountedMeta where
  metaname : MetaName
  refCnt : Int

/-- A `swish_Token`: the MetaName it points to and its own count. -/
structure CountedToken where
  metaname : Ptr
  refCnt : Int

structure MetaHeap where
  metas : Heap CountedMeta
  /-- The tokens of each token list. -/
  lists : Heap (List CountedToken)
  /-- `config->metanames`. -/
  metanames : HashTable Ptr

/-- How a call can stop. -/
inductive RefStop
  | fault (why : Fault)
  /-- `swish_hash_add` croaks on a key that is there. -/
  | duplicate
  /-- A count passes the largest `int`. -/
  | overflow
  deriving DecidableEq, Repr

def deref {α : Type} (heap : Heap α) (p : Ptr) : Except RefStop α :=
  match cell heap p with
  | .live a => .ok a
  | .released => .error (.fault .useAfterFree)
  | .unknown => .error (.fault .strayPointer)

/-- `ref_cnt++`. -/
def refIncr (refCnt : Int) : Except RefStop Int :=
  if refCnt + 1 < 2 ^ 31 then .ok (refCnt + 1) else .error .overflow

/-! ## The calls -/

/-- A reference to a MetaName is dropped; `dead` is the test for the last one. -/
def dropMeta (dead : Int → Bool) (metas : Heap CountedMeta) (m : Ptr) :
    Except RefStop (Heap CountedMeta) := do
  let obj ← deref metas m
  let obj := { obj with refCnt := obj.refCnt - 1 }
  let metas := store metas m obj
  pure (if dead obj.refCnt then release metas m else metas)

/-- `swish_token_free`. -/
def tokenFreeAt (metas : Heap CountedMeta) (t : CountedToken) :
    Except RefStop (Heap CountedMeta) :=
  dropMeta (· == 0) metas t.metaname

/-- `free_metas`. -/
def freeMetas (metas : Heap CountedMeta) (e : Sigma fun _ : XmlStr => Ptr) :
    Except RefStop (Heap CountedMeta) :=
  dropMeta (· < 1) metas e.2

/-- The body of the loop in `swish_token_list_free`. -/
def freeListToken (metas : Heap CountedMeta) (t : CountedToken) :
    Except RefStop (Heap CountedMeta) :=
  let t := { t with refCnt := t.refCnt - 1 }
  if t.refCnt < 1 then tokenFreeAt metas t else .ok metas

section Calls

variable (s : MetaHeap)

/-- `swish_metaname_new`; `m` is the MetaName but for its count. -/
def metanameNewAt (name : XmlStr) (m : MetaName) : Except RefStop MetaHeap :=
  if name ∈ s.metanames then .error .duplicate
  else .ok { s with
    metas := alloc s.metas ⟨m, 1⟩
    metanames := s.metanames.insert name (fresh s.metas) }

/-- `swish_token_list_init`; the list is at `fresh s.lists`. -/
def tokenListInitAt : MetaHeap := { s with lists := alloc s.lists [] }

/-- `swish_token_list_add_token`; the text of the token is not modelled here. -/
def tokenListAddTokenAt (tl m : Ptr) : Except RefStop MetaHeap := do
  let tokens ← deref s.lists tl
  let obj ← deref s.metas m
  let refCnt ← refIncr obj.refCnt
  pure { s with
    metas := store s.metas m { obj with refCnt }
    lists := store s.lists tl (tokens ++ [⟨m, 1⟩]) }

/-- `swish_token_list_free`: the loop begins with the last token. -/
def tokenListFreeAt (tl : Ptr) : Except RefStop MetaHeap := do
  let tokens ← deref s.lists tl
  let metas ← run freeListToken s.metas tokens.reverse
  pure { s with metas, lists := release s.lists tl }

/-- The body of the loop in `xinclude_handler`: the iterator is at `pos`, and at the end of its
list there is nothing to add. -/
def copyTokenAt (tl it : Ptr) (pos : Nat) : Except RefStop MetaHeap := do
  let tokens ← deref s.lists it
  match tokens[pos]? with
  | some t => tokenListAddTokenAt s tl t.metaname
  | none => pure s

/-- `swish_config_free`, of the MetaNames. -/
def configFreeAt : Except RefStop MetaHeap := do
  let metas ← run freeMetas s.metas s.metanames.entries
  pure { s with metas, metanames := ∅ }

end Calls

/-- A call that is about MetaNames or token lists. -/
inductive RefCall
  | metanameNew (name : XmlStr) (m : MetaName)
  | tokenListInit
  /-- A token of the MetaName that the config has under the name. -/
  | addToken (tl : Ptr) (name : XmlStr)
  | copyToken (tl it : Ptr) (pos : Nat)
  | tokenListFree (tl : Ptr)
  | configFree

def refCall (s : MetaHeap) : RefCall → Except RefStop MetaHeap
  | .metanameNew name m => metanameNewAt s name m
  | .tokenListInit => .ok (tokenListInitAt s)
  | .addToken tl name =>
    match s.metanames.lookup name with
    | some m => tokenListAddTokenAt s tl m
    | none => .error (.fault .nullDeref)
  | .copyToken tl it pos => copyTokenAt s tl it pos
  | .tokenListFree tl => tokenListFreeAt s tl
  | .configFree => configFreeAt s

/-! ## Right counts -/

/-- The MetaNames that a list of tokens points to. -/
def tokenRefs (tokens : List CountedToken) : Multiset Ptr := (tokens.map (·.metaname) : List Ptr)

namespace MetaHeap

/-- The MetaNames that the config holds. -/
def held (s : MetaHeap) : Multiset Ptr := (s.metanames.entries.map (·.2) : List Ptr)

/-- The MetaNames of all live tokens. -/
def tokenMetas (s : MetaHeap) : Multiset Ptr := contents tokenRefs s.lists

/-- The number of live tokens of a MetaName, over all live token lists. -/
def tokensOn (s : MetaHeap) (m : Ptr) : Nat := s.tokenMetas.count m

end MetaHeap

/-- The count of each MetaName is one for the config, if that holds it, and one for each of its
live tokens; the MetaNames that are live are those with a reference.  A token is only in the
list that made it. -/
structure RefCounted (s : MetaHeap) : Prop where
  counted : Counted CountedMeta.refCnt s.metas (s.held + s.tokenMetas)
  once : s.held.Nodup
  tokens : ∀ tl tokens, LiveAt s.lists tl tokens → ∀ t ∈ tokens, t.refCnt = 1

/-! ## What the calls keep -/

/-- MetaNames may have been released and new ones made; those that are left are the same. -/
structure MetasKept (metas metas' : Heap CountedMeta) : Prop where
  length : metas.length ≤ metas'.length
  metaname : ∀ p obj', LiveAt metas' p obj' → p < metas.length →
    ∃ obj, LiveAt metas p obj ∧ obj.metaname = obj'.metaname

section Metas

variable {metas metas' : Heap CountedMeta} {obj : CountedMeta} {m : Ptr} {refs : Multiset Ptr}

theorem MetasKept.refl (metas : Heap CountedMeta) : MetasKept metas metas :=
  ⟨Nat.le_refl _, fun _ obj h _ => ⟨obj, h, rfl⟩⟩

theorem MetasKept.trans {metas'' : Heap CountedMeta} (h : MetasKept metas metas')
    (h' : MetasKept metas' metas'') : MetasKept metas metas'' where
  length := h.length.trans h'.length
  metaname p obj'' hp hlt := by
    obtain ⟨obj', hp', heq'⟩ := h'.metaname p obj'' hp (hlt.trans_le h.length)
    obtain ⟨obj, hp, heq⟩ := h.metaname p obj' hp' hlt
    exact ⟨obj, hp, heq.trans heq'⟩

theorem metasKept_alloc : MetasKept metas (alloc metas obj) where
  length := by
    rw [length_alloc]
    exact Nat.le_succ _
  metaname p obj' hp hlt := by
    rcases liveAt_alloc_iff.mp hp with hp | ⟨rfl, -⟩
    · exact ⟨obj', hp, rfl⟩
    · exact absurd hlt (Nat.lt_irrefl _)

theorem metasKept_store (hm : LiveAt metas m obj) (refCnt : Int) :
    MetasKept metas (store metas m { obj with refCnt }) where
  length := by rw [length_store]
  metaname p obj' hp _ := by
    rcases (liveAt_store_iff hm).mp hp with ⟨rfl, rfl⟩ | ⟨-, hp⟩
    · exact ⟨obj, hm, rfl⟩
    · exact ⟨obj', hp, rfl⟩

theorem metasKept_release : MetasKept metas (release metas m) where
  length := by rw [length_release]
  metaname p obj' hp _ := ⟨obj', (liveAt_release_iff.mp hp).2, rfl⟩

theorem deref_of_liveAt {α : Type} {heap : Heap α} {a : α} {p : Ptr} (h : LiveAt heap p a) :
    deref heap p = .ok a := by
  rw [deref, cell_of_liveAt h]

theorem liveAt_of_deref {α : Type} {heap : Heap α} {a : α} {p : Ptr} (h : deref heap p = .ok a) :
    LiveAt heap p a := by
  unfold deref at h
  split at h
  · rename_i b hb
    cases h
    exact liveAt_of_cell hb
  · cases h
  · cases h

theorem refIncr_ok {n n' : Int} (h : refIncr n = .ok n') : n' = n + 1 := by
  unfold refIncr at h
  split at h
  · exact (Except.ok.inj h).symm
  · cases h

theorem refIncr_fails (n : Int) : FailsAs (· = .overflow) (refIncr n) := by
  rw [refIncr]
  split
  · exact failsAs_ok _
  · exact failsAs_error rfl

/-- **Dropping one reference releases the MetaName exactly when it was the last.**  Both tests for
the last one are right where the counts are. -/
theorem dropMeta_counted {dead : Int → Bool} (hdead : ∀ n : Int, 0 ≤ n → (dead n ↔ n = 0))
    (h : Counted CountedMeta.refCnt metas (m ::ₘ refs)) :
    ∃ metas', dropMeta dead metas m = .ok metas' ∧ Counted CountedMeta.refCnt metas' refs ∧
      MetasKept metas metas' := by
  obtain ⟨obj, hm⟩ := h.live (Multiset.mem_cons_self m refs)
  have hkept := metasKept_store hm (obj.refCnt - 1)
  rw [dropMeta, deref_of_liveAt hm, ok_bind]
  by_cases hmem : m ∈ refs
  · obtain ⟨hpos, hcounted⟩ := h.drop (b := { obj with refCnt := obj.refCnt - 1 }) hm rfl hmem
    have hnot : ¬ dead (obj.refCnt - 1) := fun hd =>
      Int.ne_of_gt hpos ((hdead _ (Int.le_of_lt hpos)).mp hd)
    exact ⟨_, congrArg Except.ok (if_neg hnot), hcounted, hkept⟩
  · obtain ⟨hzero, hcounted⟩ := h.drop_last (b := { obj with refCnt := obj.refCnt - 1 }) hm rfl hmem
    have hlast : dead (obj.refCnt - 1) := (hdead _ (Int.le_of_eq hzero.symm)).mpr hzero
    refine ⟨_, congrArg Except.ok (if_pos hlast), ?_, ?_⟩
    · rw [release_store]
      exact hcounted
    · exact hkept.trans metasKept_release

theorem tokenFreeAt_counted {t : CountedToken}
    (h : Counted CountedMeta.refCnt metas (t.metaname ::ₘ refs)) :
    ∃ metas', tokenFreeAt metas t = .ok metas' ∧ Counted CountedMeta.refCnt metas' refs ∧
      MetasKept metas metas' :=
  dropMeta_counted (fun _ _ => beq_iff_eq) h

theorem freeMetas_counted {e : Sigma fun _ : XmlStr => Ptr}
    (h : Counted CountedMeta.refCnt metas (e.2 ::ₘ refs)) :
    ∃ metas', freeMetas metas e = .ok metas' ∧ Counted CountedMeta.refCnt metas' refs ∧
      MetasKept metas metas' := by
  refine dropMeta_counted (fun n hn => ?_) h
  rw [decide_eq_true_iff]
  omega

/-- The only reference to a token is its list's. -/
theorem freeListToken_counted {t : CountedToken} (ht : t.refCnt = 1)
    (h : Counted CountedMeta.refCnt metas (t.metaname ::ₘ refs)) :
    ∃ metas', freeListToken metas t = .ok metas' ∧ Counted CountedMeta.refCnt metas' refs ∧
      MetasKept metas metas' := by
  have hlast : t.refCnt - 1 < 1 := by omega
  obtain ⟨metas', hfree, hcounted, hkept⟩ :=
    tokenFreeAt_counted (t := { t with refCnt := t.refCnt - 1 }) h
  refine ⟨metas', ?_, hcounted, hkept⟩
  rw [freeListToken]
  simp only [if_pos hlast]
  exact hfree

/-- A loop that drops a reference in every turn. -/
theorem run_drops {ι : Type} (step : Heap CountedMeta → ι → Except RefStop (Heap CountedMeta))
    {ref : ι → Ptr} {es : List ι}
    (hstep : ∀ metas refs, ∀ e ∈ es, Counted CountedMeta.refCnt metas (ref e ::ₘ refs) →
      ∃ metas', step metas e = .ok metas' ∧ Counted CountedMeta.refCnt metas' refs ∧
        MetasKept metas metas')
    (h : Counted CountedMeta.refCnt metas ((es.map ref : List Ptr) + refs)) :
    ∃ metas', run step metas es = .ok metas' ∧ Counted CountedMeta.refCnt metas' refs ∧
      MetasKept metas metas' := by
  induction es generalizing metas with
  | nil =>
      rw [List.map_nil, Multiset.coe_nil, zero_add] at h
      exact ⟨metas, rfl, h, .refl metas⟩
  | cons e es ih =>
      rw [List.map_cons, ← Multiset.cons_coe, Multiset.cons_add] at h
      obtain ⟨metas₁, hone, hcounted, hkept⟩ := hstep metas _ e List.mem_cons_self h
      obtain ⟨metas', hrun, hcounted', hkept'⟩ :=
        ih (fun metas refs f hf => hstep metas refs f (List.mem_cons_of_mem e hf)) hcounted
      exact ⟨metas', by rw [run_cons_of_ok hone, hrun], hcounted', hkept.trans hkept'⟩

end Metas

/-! ## Every call keeps the counts -/

section Calls

variable {s s' : MetaHeap} {name : XmlStr} {m tl it : Ptr} {obj : CountedMeta}
  {tokens : List CountedToken}

theorem MetaHeap.mem_held_iff : m ∈ s.held ↔ ∃ name, s.metanames.lookup name = some m := by
  simp only [MetaHeap.held, Multiset.mem_coe, List.mem_map, Sigma.exists]
  constructor
  · rintro ⟨name, p, he, rfl⟩
    exact ⟨name, mem_entries_iff.mp he⟩
  · rintro ⟨name, h⟩
    exact ⟨name, m, mem_entries_iff.mpr h, rfl⟩

theorem RefCounted.live_of_held (h : RefCounted s) (hm : s.metanames.lookup name = some m) :
    ∃ obj, LiveAt s.metas m obj :=
  h.counted.live (Multiset.mem_add.mpr (.inl (MetaHeap.mem_held_iff.mpr ⟨name, hm⟩)))

theorem RefCounted.live_of_token (h : RefCounted s) {t : CountedToken}
    (htl : LiveAt s.lists tl tokens) (ht : t ∈ tokens) : ∃ obj, LiveAt s.metas t.metaname obj :=
  h.counted.live (Multiset.mem_add.mpr (.inr (mem_contents htl
    (Multiset.mem_coe.mpr (List.mem_map_of_mem ht)))))

/-- **The count of a MetaName of the config is one more than the number of its live tokens.** -/
theorem RefCounted.refCnt (h : RefCounted s) (hm : s.metanames.lookup name = some m)
    (hobj : LiveAt s.metas m obj) : obj.refCnt = 1 + s.tokensOn m := by
  have hheld : m ∈ s.held := MetaHeap.mem_held_iff.mpr ⟨name, hm⟩
  rw [h.counted.count_eq m obj hobj, Multiset.count_add, Multiset.count_eq_one_of_mem h.once hheld,
    MetaHeap.tokensOn]
  rfl

/-- What the config holds has the right count. -/
def MetaHeap.HeldCounts (s : MetaHeap) : Prop :=
  ∀ name m, s.metanames.lookup name = some m →
    ∃ obj, LiveAt s.metas m obj ∧ obj.refCnt = 1 + s.tokensOn m

theorem RefCounted.heldCounts (h : RefCounted s) : s.HeldCounts := by
  intro name m hm
  obtain ⟨obj, hobj⟩ := h.live_of_held hm
  exact ⟨obj, hobj, h.refCnt hm hobj⟩

theorem metanameNewAt_ok {m : MetaName} (hnew : metanameNewAt s name m = .ok s') :
    name ∉ s.metanames ∧ s' = { s with
      metas := alloc s.metas ⟨m, 1⟩, metanames := s.metanames.insert name (fresh s.metas) } := by
  unfold metanameNewAt at hnew
  split at hnew
  · cases hnew
  · rename_i hname
    exact ⟨hname, (Except.ok.inj hnew).symm⟩

theorem held_insert {metas : Heap CountedMeta} (hname : name ∉ s.metanames) :
    ({ s with metas, metanames := s.metanames.insert name m } : MetaHeap).held = m ::ₘ s.held := by
  rw [MetaHeap.held, AList.entries_insert_of_notMem hname]
  rfl

/-- A new MetaName is held by the config. -/
theorem metanameNewAt_counted {m : MetaName} (h : RefCounted s)
    (hnew : metanameNewAt s name m = .ok s') : RefCounted s' := by
  obtain ⟨hname, rfl⟩ := metanameNewAt_ok hnew
  have hfresh : fresh s.metas ∉ s.held := fun hmem =>
    h.counted.fresh_notMem (Multiset.mem_add.mpr (.inl hmem))
  refine ⟨?_, ?_, h.tokens⟩
  · rw [held_insert hname, Multiset.cons_add]
    exact h.counted.alloc rfl
  · rw [held_insert hname]
    exact Multiset.nodup_cons.mpr ⟨hfresh, h.once⟩

theorem tokenListInitAt_counted (h : RefCounted s) : RefCounted (tokenListInitAt s) := by
  refine ⟨?_, h.once, ?_⟩
  · have hsame : (tokenListInitAt s).tokenMetas = s.tokenMetas := by
      rw [MetaHeap.tokenMetas, tokenListInitAt, contents_alloc]
      exact add_zero _
    rw [hsame]
    exact h.counted
  · intro q tokens hq t ht
    rcases liveAt_alloc_iff.mp hq with hq | ⟨-, rfl⟩
    · exact h.tokens q tokens hq t ht
    · cases ht

theorem tokenListAddTokenAt_ok (hadd : tokenListAddTokenAt s tl m = .ok s') :
    ∃ tokens obj, LiveAt s.lists tl tokens ∧ LiveAt s.metas m obj ∧ s' = { s with
      metas := store s.metas m { obj with refCnt := obj.refCnt + 1 }
      lists := store s.lists tl (tokens ++ [⟨m, 1⟩]) } := by
  obtain ⟨tokens, htl, hadd⟩ := bind_ok_iff.mp hadd
  obtain ⟨obj, hm, hadd⟩ := bind_ok_iff.mp hadd
  obtain ⟨refCnt, hincr, hadd⟩ := bind_ok_iff.mp hadd
  rw [refIncr_ok hincr] at hadd
  exact ⟨tokens, obj, liveAt_of_deref htl, liveAt_of_deref hm, (Except.ok.inj hadd).symm⟩

/-- A new token of a MetaName is one more reference to it. -/
theorem tokenListAddTokenAt_counted (h : RefCounted s)
    (hadd : tokenListAddTokenAt s tl m = .ok s') : RefCounted s' := by
  obtain ⟨tokens, obj, htl, hm, rfl⟩ := tokenListAddTokenAt_ok hadd
  have hmore : contents tokenRefs (store s.lists tl (tokens ++ [⟨m, 1⟩])) =
      m ::ₘ s.tokenMetas := by
    have hstore := contents_store (f := tokenRefs) (b := tokens ++ [⟨m, 1⟩]) htl
    have hrefs : tokenRefs (tokens ++ [⟨m, 1⟩]) = m ::ₘ tokenRefs tokens := by
      rw [tokenRefs, List.map_append, ← Multiset.coe_add, add_comm]
      rfl
    rw [hrefs, Multiset.add_cons, ← Multiset.cons_add] at hstore
    exact Multiset.add_right_inj.mp (by rw [add_comm, hstore, add_comm]; rfl)
  refine ⟨?_, h.once, ?_⟩
  · have hcounted := h.counted.acquire (b := { obj with refCnt := obj.refCnt + 1 }) hm rfl
    rw [← Multiset.add_cons, ← hmore] at hcounted
    exact hcounted
  · intro q ts hq t ht
    rcases (liveAt_store_iff htl).mp hq with ⟨-, rfl⟩ | ⟨-, hq⟩
    · rcases List.mem_append.mp ht with ht | ht
      · exact h.tokens tl tokens htl t ht
      · rw [List.mem_singleton.mp ht]
    · exact h.tokens q ts hq t ht

/-- Releasing a token list drops the references of its tokens. -/
theorem tokenListFreeAt_counted (h : RefCounted s) (htl : LiveAt s.lists tl tokens) :
    ∃ metas, tokenListFreeAt s tl = .ok { s with metas, lists := release s.lists tl } ∧
      MetasKept s.metas metas ∧ RefCounted { s with metas, lists := release s.lists tl } := by
  have hrefs : s.held + s.tokenMetas = (tokens.reverse.map (·.metaname) : List Ptr) +
      (s.held + contents tokenRefs (release s.lists tl)) := by
    rw [MetaHeap.tokenMetas, ← contents_release htl, List.map_reverse, Multiset.coe_reverse,
      tokenRefs]
    ac_rfl
  have hcounted := h.counted
  rw [hrefs] at hcounted
  obtain ⟨metas, hrun, hcounted, hkept⟩ := run_drops freeListToken (fun _ _ t ht hc =>
    freeListToken_counted (h.tokens tl tokens htl t (List.mem_reverse.mp ht)) hc) hcounted
  refine ⟨metas, ?_, hkept, hcounted, h.once, ?_⟩
  · rw [tokenListFreeAt, deref_of_liveAt htl, ok_bind, hrun]
    rfl
  · intro q ts hq t ht
    exact h.tokens q ts (liveAt_release_iff.mp hq).2 t ht

/-- Releasing the config drops the references it holds. -/
theorem configFreeAt_counted (h : RefCounted s) :
    ∃ metas, configFreeAt s = .ok { s with metas, metanames := ∅ } ∧
      RefCounted { s with metas, metanames := ∅ } := by
  obtain ⟨metas, hrun, hcounted, -⟩ :=
    run_drops freeMetas (fun _ _ _ _ hc => freeMetas_counted hc) h.counted
  refine ⟨metas, ?_, ?_, Multiset.nodup_zero, h.tokens⟩
  · rw [configFreeAt, hrun]
    rfl
  · have hnone : ({ s with metas, metanames := ∅ } : MetaHeap).held = 0 := rfl
    rw [hnone, zero_add]
    exact hcounted

/-- **Every call keeps the counts right.** -/
theorem refCall_counted {c : RefCall} (h : RefCounted s) (hcall : refCall s c = .ok s') :
    RefCounted s' := by
  cases c with
  | metanameNew name m => exact metanameNewAt_counted h hcall
  | tokenListInit =>
      cases hcall
      exact tokenListInitAt_counted h
  | addToken tl name =>
      simp only [refCall] at hcall
      split at hcall
      · exact tokenListAddTokenAt_counted h hcall
      · cases hcall
  | copyToken tl it pos =>
      obtain ⟨tokens, -, hcall⟩ := bind_ok_iff.mp hcall
      split at hcall
      · exact tokenListAddTokenAt_counted h hcall
      · cases hcall
        exact h
  | tokenListFree tl =>
      obtain ⟨tokens, htl, -⟩ := bind_ok_iff.mp hcall
      obtain ⟨metas, hfree, -, hcounted⟩ := tokenListFreeAt_counted h (liveAt_of_deref htl)
      rw [refCall, hfree] at hcall
      cases hcall
      exact hcounted
  | configFree =>
      obtain ⟨metas, hfree, hcounted⟩ := configFreeAt_counted h
      rw [refCall, hfree] at hcall
      cases hcall
      exact hcounted

theorem run_refCall_counted {calls : List RefCall} (h : RefCounted s)
    (hrun : run refCall s calls = .ok s') : RefCounted s' :=
  invariant (fun _ _ _ h hcall => refCall_counted h hcall) h hrun

/-- Token lists can be released in any order. -/
theorem run_tokenListFree {order : List Ptr} (h : RefCounted s) (hnodup : order.Nodup)
    (hlive : ∀ q ∈ order, ∃ ts, LiveAt s.lists q ts) :
    ∃ s', run refCall s (order.map .tokenListFree) = .ok s' ∧ RefCounted s' := by
  induction order generalizing s with
  | nil => exact ⟨s, rfl, h⟩
  | cons q order ih =>
      obtain ⟨hq, hnodup⟩ := List.nodup_cons.mp hnodup
      obtain ⟨tokens, htl⟩ := hlive q List.mem_cons_self
      obtain ⟨metas, hfree, -, hcounted⟩ := tokenListFreeAt_counted h htl
      obtain ⟨s', hrun, hcounted'⟩ := ih hcounted hnodup fun r hr => by
        obtain ⟨ts, hts⟩ := hlive r (List.mem_cons_of_mem q hr)
        refine ⟨ts, liveAt_release_iff.mpr ⟨?_, hts⟩⟩
        rintro rfl
        exact hq hr
      have hcall : refCall s (.tokenListFree q) =
          .ok { s with metas, lists := release s.lists q } := hfree
      exact ⟨s', by rw [List.map_cons, run_cons_of_ok hcall, hrun], hcounted'⟩

end Calls

/-! ## Adding tokens to a list -/

/-- Tokens have been added to the list at `tl`, which had `tokens`. -/
structure TokensAdded (tl : Ptr) (tokens more : List CountedToken) (s s' : MetaHeap) : Prop where
  refCounted : RefCounted s'
  metanames : s'.metanames = s.metanames
  lists : s'.lists = store s.lists tl (tokens ++ more)
  metas : MetasKept s.metas s'.metas

section Adding

variable {s s' s'' : MetaHeap} {tl m it : Ptr} {tokens more more' : List CountedToken}

theorem TokensAdded.live (h : TokensAdded tl tokens more s s') (htl : LiveAt s.lists tl tokens) :
    LiveAt s'.lists tl (tokens ++ more) := by
  rw [h.lists]
  exact liveAt_store_self htl

theorem tokensAdded_nil (h : RefCounted s) (htl : LiveAt s.lists tl tokens) :
    TokensAdded tl tokens [] s s := by
  refine ⟨h, rfl, ?_, .refl _⟩
  rw [List.append_nil, store_self htl]

theorem TokensAdded.trans (h : TokensAdded tl tokens more s s')
    (h' : TokensAdded tl (tokens ++ more) more' s' s'') :
    TokensAdded tl tokens (more ++ more') s s'' where
  refCounted := h'.refCounted
  metanames := h'.metanames.trans h.metanames
  lists := by
    rw [h'.lists, h.lists, store_store, List.append_assoc]
  metas := h.metas.trans h'.metas

/-- One token of a live MetaName. -/
theorem tokenListAddTokenAt_added (h : RefCounted s) (htl : LiveAt s.lists tl tokens)
    (hm : ∃ obj, LiveAt s.metas m obj) :
    EndsWell (TokensAdded tl tokens [⟨m, 1⟩] s) (· = .overflow) (tokenListAddTokenAt s tl m) := by
  obtain ⟨obj, hobj⟩ := hm
  constructor
  · intro s' hadd
    have hcounted := tokenListAddTokenAt_counted h hadd
    obtain ⟨tokens', obj', htl', hobj', rfl⟩ := tokenListAddTokenAt_ok hadd
    obtain rfl : tokens' = tokens := htl'.unique htl
    exact ⟨hcounted, rfl, rfl, metasKept_store hobj' _⟩
  · rw [tokenListAddTokenAt, deref_of_liveAt htl, ok_bind, deref_of_liveAt hobj, ok_bind]
    exact (refIncr_fails _).bind fun _ _ => failsAs_ok _

/-- Tokens of one MetaName. -/
theorem run_addToken {name : XmlStr} (h : RefCounted s) (htl : LiveAt s.lists tl tokens)
    (hm : s.metanames.lookup name = some m) (k : Nat) :
    EndsWell (TokensAdded tl tokens (List.replicate k ⟨m, 1⟩) s) (· = .overflow)
      (run refCall s (List.replicate k (.addToken tl name))) := by
  induction k generalizing s tokens with
  | zero => exact endsWell_ok (tokensAdded_nil h htl)
  | succ k ih =>
      have hone := tokenListAddTokenAt_added h htl (h.live_of_held hm)
      have hcall : refCall s (.addToken tl name) = tokenListAddTokenAt s tl m := by
        rw [refCall, hm]
      have hcalls : List.replicate (k + 1) (RefCall.addToken tl name) =
          [.addToken tl name] ++ List.replicate k (.addToken tl name) := rfl
      rw [hcalls]
      refine EndsWell.append (Q := TokensAdded tl tokens [⟨m, 1⟩] s) ?_ fun s' hadded => ?_
      · rw [run_singleton, hcall]
        exact hone
      · have hm' : s'.metanames.lookup name = some m := by
          rw [hadded.metanames, hm]
        exact (ih hadded.refCounted (hadded.live htl) hm').mono fun _ hmore => hadded.trans hmore

/-- The first tokens of another list. -/
theorem run_copyToken (h : RefCounted s) (htl : LiveAt s.lists tl tokens)
    (hit : LiveAt s.lists it more) (hne : it ≠ tl) (k : Nat) (hk : k ≤ more.length) :
    EndsWell (TokensAdded tl tokens (more.take k) s) (· = .overflow)
      (run refCall s ((List.range k).map (.copyToken tl it))) := by
  induction k with
  | zero => exact endsWell_ok (tokensAdded_nil h htl)
  | succ k ih =>
      rw [List.range_succ, List.map_append, List.map_singleton]
      refine (ih (Nat.le_of_succ_le hk)).append fun s' hadded => ?_
      have hit' : LiveAt s'.lists it more := by
        rw [hadded.lists]
        exact (liveAt_store_iff htl).mpr (.inr ⟨hne, hit⟩)
      have hget : more[k]? = some more[k] := List.getElem?_eq_getElem hk
      have ht : more[k] ∈ more := List.getElem_mem hk
      have hcopy : refCall s' (.copyToken tl it k) =
          tokenListAddTokenAt s' tl more[k].metaname := by
        rw [refCall, copyTokenAt, deref_of_liveAt hit', ok_bind, hget]
      have hsame : (⟨more[k].metaname, 1⟩ : CountedToken) = more[k] := by
        rw [← h.tokens it more hit _ ht]
      have hone := tokenListAddTokenAt_added hadded.refCounted (hadded.live htl)
        (hadded.refCounted.live_of_token hit' ht)
      rw [run_singleton, hcopy, List.take_succ_eq_append_getElem hk]
      rw [hsame] at hone
      exact hone.mono fun _ hmore => hadded.trans hmore

end Adding

end LibSwish3
