import LibSwish3.Lib.Runs
import LibSwish3.Tokenizer

/-!
# Invariants of the tokenizers

The tokenizers change a token list in two ways only: they add a token and they skip a position.
What both keep is kept by a whole call.

## Main definitions

* `ListKept` — a property of token lists that both keep.
* `Analyzer.BuiltIn` — an analyzer with the tokenizer of the library.
-/

namespace LibSwish3

open Runs

/-- A property of token lists that adding a token and skipping a position keep. -/
structure ListKept (m : Option MetaName) (context : XmlStr) (I : TokenList → Prop) : Prop where
  add : ∀ tl token tokenLen tl', I tl → tokenListAddToken tl token tokenLen m context = .ok tl' →
    I tl'
  bump : ∀ tl, I tl → I tl.bump

section Kept

variable {loc : Locale} {a : Analyzer} {m : Option MetaName} {context : XmlStr}
  {I : TokenList → Prop} {st st' : TokenizeState} {tl tl' : TokenList}

theorem ListKept.bumped (H : ListKept m context I) (hI : I st.tl) (isBumper : Bool) :
    I (st.bump isBumper).tl := by
  cases isBumper with
  | false => exact hI
  | true => exact H.bump _ hI

theorem ListKept.addStripped (H : ListKept m context I) {token : XmlStr} {tokenLen : Nat}
    (hI : I st.tl) (h : addStripped a m context st token tokenLen = .ok st') : I st'.tl := by
  obtain ⟨c, -, h⟩ := bind_ok_iff.mp h
  split at h
  · obtain ⟨tl', hadd, h⟩ := bind_ok_iff.mp h
    cases h
    exact H.add _ _ _ _ hI hadd
  · cases h
    exact hI

/-! ## Single bytes -/

theorem ListKept.endAscii (H : ListKept m context I) (hI : I st.tl)
    (h : endAscii a m context st = .ok st') : I st'.tl := by
  obtain ⟨token, -, h⟩ := bind_ok_iff.mp h
  obtain ⟨stripped, -, h⟩ := bind_ok_iff.mp h
  exact H.addStripped hI h

theorem ListKept.ignoreAscii (H : ListKept m context I) {c : XmlChar} (hI : I st.tl)
    (h : ignoreAscii a m context st c = .ok st') : I st'.tl := by
  unfold LibSwish3.ignoreAscii at h
  split at h
  · obtain ⟨st₁, hend, h⟩ := bind_ok_iff.mp h
    cases h
    exact H.bumped (H.endAscii hI hend) _
  · cases h
    exact H.bumped hI _

theorem ListKept.appendAscii (H : ListKept m context I) {c nextc : XmlChar} (hI : I st.tl)
    (h : appendAscii a m context st c nextc = .ok st') : I st'.tl := by
  obtain ⟨token, -, h⟩ := bind_ok_iff.mp h
  simp only at h
  split at h
  · obtain ⟨st₁, hend, h⟩ := bind_ok_iff.mp h
    cases h
    refine H.bumped (H.endAscii ?_ hend) _
    exact hI
  · cases h
    refine H.bumped ?_ _
    exact hI

theorem ListKept.startAscii (H : ListKept m context I) {c nextc : XmlChar} (hI : I st.tl)
    (h : startAscii a m context st c nextc = .ok st') : I st'.tl := by
  obtain ⟨token, -, h⟩ := bind_ok_iff.mp h
  split at h
  · obtain ⟨token', -, h⟩ := bind_ok_iff.mp h
    obtain ⟨tl', hadd, h⟩ := bind_ok_iff.mp h
    cases h
    refine H.bumped ?_ _
    exact H.add _ _ _ _ hI hadd
  · cases h
    refine H.bumped ?_ _
    exact hI

theorem ListKept.asciiLoop (H : ListKept m context I) {s : XmlStr} (hI : I st.tl)
    (h : asciiLoop a m context st s = .ok st') : I st'.tl := by
  induction s generalizing st with
  | nil => cases h; exact hI
  | cons b rest ih =>
      obtain ⟨st₁, hstep, h⟩ := bind_ok_iff.mp h
      refine ih ?_ h
      obtain ⟨isWord, -, hstep⟩ := bind_ok_iff.mp hstep
      split at hstep
      · split at hstep
        · exact H.appendAscii hI hstep
        · exact H.startAscii hI hstep
      · exact H.ignoreAscii hI hstep

/-! ## UTF-8 characters -/

theorem ListKept.endUtf8 (H : ListKept m context I) (hI : I st.tl)
    (h : endUtf8 loc a m context st = .ok st') : I st'.tl := by
  obtain ⟨token, -, h⟩ := bind_ok_iff.mp h
  obtain ⟨stripped, -, h⟩ := bind_ok_iff.mp h
  exact H.addStripped hI h

theorem ListKept.ignoreUtf8 (H : ListKept m context I) {cp : Nat} (hI : I st.tl)
    (h : ignoreUtf8 loc a m context st cp = .ok st') : I st'.tl := by
  unfold LibSwish3.ignoreUtf8 at h
  split at h
  · obtain ⟨st₁, hend, h⟩ := bind_ok_iff.mp h
    cases h
    exact H.bumped (H.endUtf8 hI hend) _
  · cases h
    exact H.bumped hI _

theorem ListKept.appendUtf8 (H : ListKept m context I) {chr : XmlStr} {cp : Nat} {last : Bool}
    (hI : I st.tl) (h : appendUtf8 loc a m context st chr cp last = .ok st') : I st'.tl := by
  unfold LibSwish3.appendUtf8 at h
  split at h
  · cases h
    exact hI
  · obtain ⟨token, -, h⟩ := bind_ok_iff.mp h
    obtain ⟨token', -, h⟩ := bind_ok_iff.mp h
    simp only at h
    split at h
    · obtain ⟨st₁, hend, h⟩ := bind_ok_iff.mp h
      cases h
      refine H.bumped (H.endUtf8 ?_ hend) _
      exact hI
    · cases h
      refine H.bumped ?_ _
      exact hI

theorem ListKept.startUtf8 (H : ListKept m context I) {chr : XmlStr} {cp : Nat} {last : Bool}
    (hI : I st.tl) (h : startUtf8 a m context st chr cp last = .ok st') : I st'.tl := by
  obtain ⟨token, -, h⟩ := bind_ok_iff.mp h
  split at h
  · cases h
    exact hI
  · obtain ⟨token', -, h⟩ := bind_ok_iff.mp h
    obtain ⟨token'', -, h⟩ := bind_ok_iff.mp h
    split at h
    · obtain ⟨token₃, -, h⟩ := bind_ok_iff.mp h
      obtain ⟨tl', hadd, h⟩ := bind_ok_iff.mp h
      cases h
      refine H.bumped ?_ _
      exact H.add _ _ _ _ hI hadd
    · cases h
      refine H.bumped ?_ _
      exact hI

theorem ListKept.utf8Loop (H : ListKept m context I) {chrs : List XmlStr} (hI : I st.tl)
    (h : utf8Loop loc a m context st chrs = .ok st') : I st'.tl := by
  induction chrs generalizing st with
  | nil => cases h; exact hI
  | cons chr rest ih =>
      obtain ⟨st₁, hstep, h⟩ := bind_ok_iff.mp h
      refine ih ?_ h
      obtain ⟨cp, -, hstep⟩ := bind_ok_iff.mp hstep
      split at hstep
      · exact H.ignoreUtf8 hI hstep
      · split at hstep
        · exact H.appendUtf8 hI hstep
        · exact H.startUtf8 hI hstep

/-! ## Whole calls -/

/-- A call keeps what its steps keep, and returns the difference of the two counts. -/
theorem ListKept.tokenize (H : ListKept m context I) {block buf : XmlStr} {n : Nat} (hI : I tl)
    (h : tokenize loc a m context block tl buf = .ok (tl', n)) :
    I tl' ∧ n = tl'.n - tl.n := by
  unfold LibSwish3.tokenize at h
  split at h
  · obtain ⟨token, -, h⟩ := bind_ok_iff.mp h
    obtain ⟨st, hloop, h⟩ := bind_ok_iff.mp h
    cases h
    refine ⟨H.asciiLoop ?_ hloop, rfl⟩
    exact hI
  · obtain ⟨bufLower, -, h⟩ := bind_ok_iff.mp h
    obtain ⟨st, hloop, h⟩ := bind_ok_iff.mp h
    cases h
    refine ⟨H.utf8Loop ?_ hloop, rfl⟩
    exact hI

end Kept

/-- The tokenizer of the library, which allocates its work block.  It reads the limits of the
analyzer and not its tokenizer. -/
def Analyzer.BuiltIn (loc : Locale) (a : Analyzer) : Prop :=
  ∀ tl buf m context, ∃ (tokenizer : TokenizerFn) (block : XmlStr),
    block.length = a.maxwordlen ∧ a.tokenizer tl buf m context =
      LibSwish3.tokenize loc { a with tokenizer } m context block tl buf

/-- An analyzer with the tokenizer of the library. -/
def Analyzer.ofLibrary (loc : Locale) (maxwordlen minwordlen : Nat) : Analyzer where
  maxwordlen := maxwordlen
  minwordlen := minwordlen
  tokenize := true
  tokenizer tl buf m context :=
    LibSwish3.tokenize loc ⟨maxwordlen, minwordlen, true, fun tl _ _ _ => .ok (tl, 0)⟩ m context
      (List.replicate maxwordlen 0) tl buf

theorem Analyzer.ofLibrary_builtIn (loc : Locale) (maxwordlen minwordlen : Nat) :
    (Analyzer.ofLibrary loc maxwordlen minwordlen).BuiltIn loc :=
  fun _ _ _ _ => ⟨_, List.replicate maxwordlen 0, List.length_replicate, rfl⟩

/-- What a token list was before it grew. -/
theorem grows_listKept (tl : TokenList) (m : Option MetaName) (context : XmlStr) :
    ListKept m context fun tl' => tl.tokens <+: tl'.tokens where
  add tl₁ token tokenLen tl₂ hI h := by
    unfold tokenListAddToken at h
    split at h
    · cases h
    · split at h
      · cases h
      · cases h
        exact hI.trans (List.prefix_append _ _)
  bump _ hI := hI

/-- The library's tokenizer returns the number of tokens it has added. -/
theorem Analyzer.BuiltIn.count {loc : Locale} {a : Analyzer} (h : a.BuiltIn loc)
    {tl tl' : TokenList} {buf context : XmlStr} {m : Option MetaName} {n : Nat}
    (hok : a.tokenizer tl buf m context = .ok (tl', n)) :
    tl.tokens <+: tl'.tokens ∧ tl'.n = tl.n + n := by
  obtain ⟨tokenizer, block, -, heq⟩ := h tl buf m context
  rw [heq] at hok
  obtain ⟨hgrown, rfl⟩ := (grows_listKept tl m context).tokenize (List.prefix_refl _) hok
  refine ⟨hgrown, ?_⟩
  have hle : tl.n ≤ tl'.n := hgrown.length_le
  omega

end LibSwish3
