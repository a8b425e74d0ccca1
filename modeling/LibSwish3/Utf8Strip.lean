import LibSwish3.TokenizerStrip
import LibSwish3.Utf8Chars

/-!
# What `strip_utf8_chrs` leaves of a word

The loop over the end stands at one character after another and copies all bytes from there on
into `chr`: what it has passed, the NUL included, and the character.  So the word's end has to
fit into four bytes.  The loop over the start moves its own pointer and not the caller's, so
that the caller's string keeps the ignored characters it starts with.

## Main definitions

* `coreChars` — a word without the characters that may not start or end one.
* `EndFits` — the end of a word fits into `chr`.
* `StripsToCore` — what the function is for.
* `stripUtf8Chrs_core_iff` — where it does that.
* `TrailingFits`, `stripUtf8Chrs_append` — the same for a word of ASCII characters.
-/

namespace LibSwish3

open Runs

/-! ## The loop over the end -/

section End

variable {loc : Locale} {c : Nat} {ws : List Nat} {p z : XmlStr}

/-- The bytes that continue a character are passed over. -/
theorem stripUtf8End_skip {token : XmlStr} {len i skipped r : Nat}
    (hr : ∀ j < r, isutf (token.getD (i + j) 0) = false) (hskipped : skipped + r ≤ 3) :
    stripUtf8End loc len (i + r) skipped token = stripUtf8End loc len i (skipped + r) token := by
  induction r generalizing skipped with
  | zero => rfl
  | succ r ih =>
      have hcont : isutf (token.getD (i + r) 0) = false := hr r (Nat.lt_succ_self r)
      rw [← Nat.add_assoc, stripUtf8End, hcont, if_neg (by simp; omega),
        ih (fun j hj => hr j (Nat.lt_succ_of_lt hj)) (by omega)]
      congr 1
      omega

/-- A character becomes NUL at its first byte. -/
def blankChar (c : Nat) : XmlStr := 0 :: (encodeChar c).tail

/-- One character, with `k` bytes behind it. -/
theorem stripUtf8End_char (hc : isScalar c) {k : Nat} (hz : k ≤ z.length) :
    stripUtf8End loc (p.length + (encodeChar c).length + k) (p.length + (encodeChar c).length) 0
        (p ++ (encodeChar c ++ z)) =
      if (encodeChar c).length + k ≤ 4 then
        if isIgnoreUtf8 loc c then
          stripUtf8End loc (p.length + (encodeChar c).length + k) p.length 0
            (p ++ (blankChar c ++ z))
        else .ok (p ++ (encodeChar c ++ z))
      else .error (.fault .outOfBounds) := by
  obtain ⟨b, rest, heq, hb, hrest, hlen⟩ := encodeChar_eq_cons hc
  have hcp := utf8Codepoint_encodeChar_append hc (z.take k)
  have hchr : loadChr (p ++ (encodeChar c ++ z)) p.length ((encodeChar c).length + k) =
      if (encodeChar c).length + k ≤ 4 then .ok (encodeChar c ++ z.take k)
      else .error (.fault .outOfBounds) := by
    rw [loadChr, List.drop_left, List.take_length_add_append]
    by_cases h : (encodeChar c).length + k ≤ 4
    · rw [if_pos h, if_pos ⟨by omega, by simp; omega⟩]
    · rw [if_neg h, if_neg (by omega)]
  have hskip : stripUtf8End loc (p.length + (encodeChar c).length + k)
      (p.length + 1 + rest.length) 0 (p ++ (encodeChar c ++ z)) =
      stripUtf8End loc (p.length + (encodeChar c).length + k) (p.length + 1) (0 + rest.length)
        (p ++ (encodeChar c ++ z)) := by
    refine stripUtf8End_skip (fun j hj => ?_) (by omega)
    have hget : (p ++ (encodeChar c ++ z)).getD (p.length + 1 + j) 0 = rest[j] := by
      rw [heq, List.getD_eq_getElem?_getD, List.getElem?_append_right (by omega),
        show p.length + 1 + j - p.length = j + 1 by omega, List.cons_append,
        List.getElem?_cons_succ, List.getElem?_append_left hj, List.getElem?_eq_getElem hj,
        Option.getD_some]
    rw [hget]
    exact hrest _ (List.getElem_mem hj)
  have hfirst : (p ++ (encodeChar c ++ z)).getD p.length 0 = b := by
    rw [heq]
    simp
  have hstore : store (p ++ (encodeChar c ++ z)) p.length 0 = .ok (p ++ (blankChar c ++ z)) := by
    rw [heq, blankChar, heq]
    exact store_append
  rw [show p.length + (encodeChar c).length = p.length + 1 + rest.length by
      rw [heq, List.length_cons]; omega] at *
  rw [hskip, stripUtf8End, hfirst, hb, Bool.true_or, if_pos rfl,
    show p.length + 1 + rest.length + k - p.length = (encodeChar c).length + k by
      rw [heq, List.length_cons]; omega, hchr]
  by_cases h : (encodeChar c).length + k ≤ 4
  · rw [if_pos h, if_pos h, ok_bind, hcp, ok_bind, isIgnoreEndUtf8, hstore, ok_bind]
    rfl
  · rw [if_neg h, if_neg h, error_bind]

/-- The bytes of a word's last character. -/
def lastWidth (ws : List Nat) : Nat := (ws.getLast?.toList.flatMap encodeChar).length

@[simp] theorem lastWidth_nil : lastWidth [] = 0 := rfl

@[simp] theorem lastWidth_concat : lastWidth (ws ++ [c]) = (encodeChar c).length := by
  simp [lastWidth]

/-- The loop over the end with `k` bytes behind it. -/
theorem stripUtf8End_encoded (loc : Locale) (hws : ∀ c ∈ ws, isScalar c) {k : Nat} (hk : k ≤ 4)
    (hz : k ≤ z.length) :
    stripUtf8End loc ((ws.flatMap encodeChar).length + k) (ws.flatMap encodeChar).length 0
        (ws.flatMap encodeChar ++ z) =
      if ((ws.rtakeWhile (isIgnoreUtf8 loc)).flatMap encodeChar).length + k +
          lastWidth (ws.rdropWhile (isIgnoreUtf8 loc)) ≤ 4 then
        .ok ((ws.rdropWhile (isIgnoreUtf8 loc)).flatMap encodeChar ++
          ((ws.rtakeWhile (isIgnoreUtf8 loc)).flatMap blankChar ++ z))
      else .error (.fault .outOfBounds) := by
  induction ws using List.reverseRecOn generalizing z k with
  | nil => simp [stripUtf8End, hk]
  | append_singleton ws c ih =>
      have hc : isScalar c := hws c (by simp)
      have hinit : ∀ d ∈ ws, isScalar d := fun d hd => hws d (by simp [hd])
      have hwidth := length_encodeChar hc
      rw [List.flatMap_append, List.flatMap_singleton, List.length_append, List.append_assoc,
        stripUtf8End_char hc hz]
      by_cases h : isIgnoreUtf8 loc c = true
      · rw [if_pos h, List.rdropWhile_concat_pos _ _ _ h, List.rtakeWhile_concat_pos _ _ _ h]
        simp only [List.flatMap_append, List.flatMap_singleton, List.length_append,
          List.append_assoc]
        by_cases hfull : (encodeChar c).length + k ≤ 4
        · have hblank : (blankChar c).length = (encodeChar c).length := by
            simp [blankChar]
            omega
          rw [if_pos hfull, Nat.add_assoc, ih hinit hfull (by simp [hblank]; omega)]
          simp only [Nat.add_assoc]
        · rw [if_neg hfull, if_neg (by omega)]
      · rw [if_neg h, List.rdropWhile_concat_neg _ _ _ h, List.rtakeWhile_concat_neg _ _ _ h]
        simp only [List.flatMap_nil, List.length_nil, List.nil_append, lastWidth_concat,
          List.flatMap_append, List.flatMap_singleton, List.append_assoc, Nat.zero_add,
          Nat.add_comm k]

end End

/-! ## Words -/

section Words

variable (loc : Locale) (ws : List Nat)

/-- A word without the characters that may not start or end one. -/
def coreChars : List Nat :=
  (ws.rdropWhile (isIgnoreUtf8 loc)).dropWhile (isIgnoreUtf8 loc)

/-- The ignored characters at the end of a word, the NUL and the character before them fit into
`chr`. -/
def EndFits : Prop :=
  ((ws.rtakeWhile (isIgnoreUtf8 loc)).flatMap encodeChar).length + 1 +
    lastWidth (ws.rdropWhile (isIgnoreUtf8 loc)) ≤ 4

instance : Decidable (EndFits loc ws) := by
  rw [EndFits]
  infer_instance

/-- A word starts with a character that may stand there, or has none. -/
def StartsLegally : Prop :=
  (∀ c ∈ ws.head?, isIgnoreUtf8 loc c = false) ∨ ∀ c ∈ ws, isIgnoreUtf8 loc c = true

/-- A token's content: characters that belong to words. -/
def IsWordUtf8 : Prop := ∀ c ∈ ws, isScalar c = true ∧ isIgnoreWordUtf8 loc c = false

/-- `strip_utf8_chrs` stays within `chr`, leaves the core of the word where the caller reads it
and returns its length with the NUL. -/
def StripsToCore (z : XmlStr) : Prop :=
  ∃ token, stripUtf8Chrs loc (ws.flatMap encodeChar ++ 0 :: z)
      ((ws.flatMap encodeChar).length + 1) =
        .ok (token, ((coreChars loc ws).flatMap encodeChar).length + 1) ∧
    cstr token = (coreChars loc ws).flatMap encodeChar

end Words

section Strip

variable {loc : Locale} {c : Nat} {ws : List Nat} {z : XmlStr}

theorem ne_zero_of_wordUtf8 (h : isIgnoreWordUtf8 loc c = false) : c ≠ 0 := by
  rintro rfl
  exact absurd h (by simp [isIgnoreWordUtf8, isIgnoreUtf8])

theorem IsWordUtf8.scalar (h : IsWordUtf8 loc ws) : ∀ c ∈ ws, isScalar c = true :=
  fun c hc => (h c hc).1

theorem IsWordUtf8.zero_notMem (h : IsWordUtf8 loc ws) :
    (0 : XmlChar) ∉ ws.flatMap encodeChar :=
  zero_notMem_flatMap_encodeChar fun c hc => ⟨(h c hc).1, ne_zero_of_wordUtf8 (h c hc).2⟩

theorem IsWordUtf8.sublist {vs : List Nat} (h : IsWordUtf8 loc ws) (hsub : vs.Sublist ws) :
    IsWordUtf8 loc vs := fun c hc => h c (hsub.mem hc)

/-- The block after the loop over the end. -/
theorem stripUtf8End_wordUtf8 (hws : ∀ c ∈ ws, isScalar c) :
    stripUtf8End loc ((ws.flatMap encodeChar).length + 1) ((ws.flatMap encodeChar).length + 1) 0
        (ws.flatMap encodeChar ++ 0 :: z) =
      if EndFits loc ws then
        .ok ((ws.rdropWhile (isIgnoreUtf8 loc)).flatMap encodeChar ++
          ((ws.rtakeWhile (isIgnoreUtf8 loc)).flatMap blankChar ++ 0 :: z))
      else .error (.fault .outOfBounds) := by
  have hnul : ∀ c ∈ ws ++ [0], isScalar c := by
    intro c hc
    rcases List.mem_append.mp hc with hc | hc
    · exact hws c hc
    · rw [List.mem_singleton.mp hc]
      rfl
  have hzero : isIgnoreUtf8 loc 0 = true := by simp [isIgnoreUtf8]
  have hbytes : encodeChar 0 = [0] := rfl
  have h := stripUtf8End_encoded loc hnul (z := z) (Nat.zero_le 4) (Nat.zero_le _)
  rw [List.rdropWhile_concat_pos _ _ _ hzero, List.rtakeWhile_concat_pos _ _ _ hzero] at h
  simpa [EndFits, blankChar, hbytes] using h

/-- What stands behind the part that the loop over the end keeps. -/
theorem blank_append_eq_cons (vs : List Nat) (z : XmlStr) :
    ∃ z', vs.flatMap blankChar ++ 0 :: z = 0 :: z' := by
  cases vs with
  | nil => exact ⟨z, rfl⟩
  | cons c vs => exact ⟨_, rfl⟩

/-- `u8_inc` goes over one character. -/
theorem u8Span_encodeChar_append (hc : isScalar c) {s : XmlStr}
    (hs : ∀ d ∈ s.head?, isutf d = true) : u8Span (encodeChar c ++ s) = (encodeChar c).length := by
  obtain ⟨b, rest, heq, -, hrest, hlen⟩ := encodeChar_eq_cons hc
  have htake : (rest ++ s).takeWhile (!isutf ·) = rest := by
    rw [List.takeWhile_append_of_pos (by simpa using hrest)]
    cases s with
    | nil => simp
    | cons d s => simp [hs d rfl]
  rw [u8Span, heq, List.cons_append, List.tail_cons, htake, List.take_of_length_le hlen,
    List.length_cons, Nat.add_comm]

/-- Text starts with the first byte of a character, or with the NUL. -/
theorem isutf_head_encoded {vs : List Nat} (hvs : ∀ c ∈ vs, isScalar c) (z : XmlStr) :
    ∀ d ∈ (vs.flatMap encodeChar ++ 0 :: z).head?, isutf d = true := by
  intro d hd
  cases vs with
  | nil =>
      cases hd
      rfl
  | cons c vs =>
      obtain ⟨b, rest, heq, hb, -⟩ := encodeChar_eq_cons (hvs c (by simp))
      rw [List.flatMap_cons, heq] at hd
      cases hd
      exact hb

/-- At a character that may start a word the loop over the start ends at once. -/
theorem stripUtf8Start_legal {vs : List Nat} {left : Nat} (hvs : ∀ c ∈ vs, isScalar c)
    (hstart : ∀ c ∈ vs.head?, c ≠ 0 ∧ isIgnoreUtf8 loc c = false) :
    stripUtf8Start loc (vs.flatMap encodeChar ++ 0 :: z) (left + 1) 0
      (u8Span (vs.flatMap encodeChar ++ 0 :: z)) = .ok 0 := by
  cases vs with
  | nil => simp [stripUtf8Start]
  | cons c vs =>
      have hc : isScalar c := hvs c (by simp)
      obtain ⟨hne, hlegal⟩ := hstart c rfl
      obtain ⟨b, rest, heq, -, -, hlen⟩ := encodeChar_eq_cons hc
      have hb : b ≠ 0 := fun h => zero_notMem_encodeChar hc hne (by simp [heq, h])
      have hchr : loadChr (encodeChar c ++ (vs.flatMap encodeChar ++ 0 :: z)) 0
          (encodeChar c).length = .ok (encodeChar c) := by
        rw [loadChr, if_pos ⟨by rw [heq, List.length_cons]; omega, by simp⟩]
        simp
      rw [List.flatMap_cons, List.append_assoc, stripUtf8Start,
        u8Span_encodeChar_append hc (isutf_head_encoded (fun d hd => hvs d (by simp [hd])) z),
        hchr]
      rw [show load (encodeChar c ++ (vs.flatMap encodeChar ++ 0 :: z)) 0 = .ok b by
        rw [heq]; rfl]
      rw [ok_bind, if_neg hb, ok_bind, utf8Codepoint_encodeChar hc, ok_bind, isIgnoreStartUtf8,
        hlegal]
      rfl

theorem coreChars_eq_self (h : ∀ c ∈ (ws.rdropWhile (isIgnoreUtf8 loc)).head?,
    isIgnoreUtf8 loc c = false) : coreChars loc ws = ws.rdropWhile (isIgnoreUtf8 loc) := by
  rw [coreChars]
  cases hr : ws.rdropWhile (isIgnoreUtf8 loc) with
  | nil => rfl
  | cons c vs => rw [List.dropWhile_cons_of_neg (by simp [h c (by rw [hr]; rfl)])]

/-- What the loop over the end keeps of a word starts as the word does. -/
theorem head?_rdropWhile_legal (h : StartsLegally loc ws) :
    ∀ c ∈ (ws.rdropWhile (isIgnoreUtf8 loc)).head?, isIgnoreUtf8 loc c = false := by
  intro c hc
  rcases h with h | h
  · refine h c ?_
    obtain ⟨vs, hvs⟩ := List.rdropWhile_prefix (isIgnoreUtf8 loc) ws
    rw [← hvs, List.head?_append_of_ne_nil _ (by rintro heq; simp [heq] at hc)]
    exact hc
  · rw [List.rdropWhile_eq_nil_iff.mpr h] at hc
    cases hc

/-- In a word that starts as it may, `strip_utf8_chrs` leaves the core. -/
theorem stripUtf8Chrs_core (hws : IsWordUtf8 loc ws) (hfits : EndFits loc ws)
    (hstart : StartsLegally loc ws) :
    stripUtf8Chrs loc (ws.flatMap encodeChar ++ 0 :: z) ((ws.flatMap encodeChar).length + 1) =
      .ok ((coreChars loc ws).flatMap encodeChar ++
        ((ws.rtakeWhile (isIgnoreUtf8 loc)).flatMap blankChar ++ 0 :: z),
        ((coreChars loc ws).flatMap encodeChar).length + 1) := by
  have hlegal := head?_rdropWhile_legal hstart
  have hkept : IsWordUtf8 loc (ws.rdropWhile (isIgnoreUtf8 loc)) :=
    hws.sublist (List.rdropWhile_prefix _ ws).sublist
  obtain ⟨z', hz'⟩ := blank_append_eq_cons (ws.rtakeWhile (isIgnoreUtf8 loc)) z
  rw [coreChars_eq_self hlegal, stripUtf8Chrs, stripUtf8End_wordUtf8 hws.scalar, if_pos hfits,
    ok_bind, hz', stripUtf8Start_legal hkept.scalar, ok_bind,
    strAt_zero_append hkept.zero_notMem, ok_bind]
  · rfl
  · intro c hc
    have hmem := hkept c (List.mem_of_mem_head? hc)
    exact ⟨ne_zero_of_wordUtf8 hmem.2, hlegal c hc⟩

/-- The block after any call that returns. -/
theorem stripUtf8Chrs_block {token : XmlStr} {len : Nat} (hws : ∀ c ∈ ws, isScalar c)
    (h : stripUtf8Chrs loc (ws.flatMap encodeChar ++ 0 :: z)
      ((ws.flatMap encodeChar).length + 1) = .ok (token, len)) :
    EndFits loc ws ∧ token = (ws.rdropWhile (isIgnoreUtf8 loc)).flatMap encodeChar ++
      ((ws.rtakeWhile (isIgnoreUtf8 loc)).flatMap blankChar ++ 0 :: z) := by
  obtain ⟨block, hend, h⟩ := bind_ok_iff.mp h
  obtain ⟨start, -, h⟩ := bind_ok_iff.mp h
  obtain ⟨str, -, h⟩ := bind_ok_iff.mp h
  rw [stripUtf8End_wordUtf8 hws] at hend
  by_cases hfits : EndFits loc ws
  · rw [if_pos hfits] at hend
    cases hend
    cases h
    exact ⟨hfits, rfl⟩
  · rw [if_neg hfits] at hend
    cases hend

/-- What the caller reads after any call that returns. -/
theorem stripUtf8Chrs_end {token : XmlStr} {len : Nat} (hws : IsWordUtf8 loc ws)
    (h : stripUtf8Chrs loc (ws.flatMap encodeChar ++ 0 :: z)
      ((ws.flatMap encodeChar).length + 1) = .ok (token, len)) :
    EndFits loc ws ∧ cstr token = (ws.rdropWhile (isIgnoreUtf8 loc)).flatMap encodeChar := by
  obtain ⟨hfits, htoken⟩ := stripUtf8Chrs_block hws.scalar h
  obtain ⟨z', hz'⟩ := blank_append_eq_cons (ws.rtakeWhile (isIgnoreUtf8 loc)) z
  refine ⟨hfits, ?_⟩
  rw [htoken, hz']
  exact cstr_append (hws.sublist (List.rdropWhile_prefix _ ws).sublist).zero_notMem

theorem length_flatMap_encodeChar_le {vs : List Nat} (hvs : ∀ c ∈ vs, isScalar c) :
    vs.length ≤ (vs.flatMap encodeChar).length := by
  induction vs with
  | nil => simp
  | cons c vs ih =>
      have hwidth := length_encodeChar (hvs c (by simp))
      have := ih fun d hd => hvs d (by simp [hd])
      simp only [List.flatMap_cons, List.length_cons, List.length_append]
      omega

/-- A word that starts with an ignored character and has a core loses bytes. -/
theorem startsLegally_of_core (hws : IsWordUtf8 loc ws)
    (h : (ws.rdropWhile (isIgnoreUtf8 loc)).flatMap encodeChar =
      (coreChars loc ws).flatMap encodeChar) : StartsLegally loc ws := by
  by_contra hnot
  simp only [StartsLegally, not_or, not_forall] at hnot
  obtain ⟨⟨c, hc, hign⟩, hsome⟩ := hnot
  have hkept : ws.rdropWhile (isIgnoreUtf8 loc) ≠ [] := by
    intro hnil
    obtain ⟨d, hd, hlegal⟩ := hsome
    exact hlegal (List.rdropWhile_eq_nil_iff.mp hnil d hd)
  obtain ⟨d, vs, hvs⟩ := List.exists_cons_of_ne_nil hkept
  obtain ⟨us, hus⟩ := List.rdropWhile_prefix (isIgnoreUtf8 loc) ws
  have hdc : d = c := by
    rw [hvs] at hus
    rw [← hus] at hc
    simpa using hc
  have hword : IsWordUtf8 loc (d :: vs) := by
    rw [← hvs]
    exact hws.sublist (List.rdropWhile_prefix _ ws).sublist
  have hlen := congrArg List.length h
  rw [coreChars, hvs, List.dropWhile_cons_of_pos (by rw [hdc]; simpa using hign)] at hlen
  obtain ⟨front, hfront⟩ := List.dropWhile_suffix (isIgnoreUtf8 loc) (l := vs)
  have hwidth := length_encodeChar (hword d (by simp)).1
  have hle := congrArg (fun l => (l.flatMap encodeChar).length) hfront
  simp only [List.flatMap_append, List.length_append] at hle
  simp only [List.flatMap_cons, List.length_append] at hlen
  omega

end Strip

/-- **`strip_utf8_chrs` strips a word** exactly if the end of the word fits into `chr` and the
word starts as it may. -/
theorem stripUtf8Chrs_core_iff {loc : Locale} {ws : List Nat} (z : XmlStr)
    (hws : IsWordUtf8 loc ws) :
    StripsToCore loc ws z ↔ EndFits loc ws ∧ StartsLegally loc ws := by
  refine ⟨fun h => ?_, fun h => ?_⟩
  · obtain ⟨token, hok, hcore⟩ := h
    obtain ⟨hfits, hstr⟩ := stripUtf8Chrs_end hws hok
    exact ⟨hfits, startsLegally_of_core hws (hstr.symm.trans hcore)⟩
  · obtain ⟨hfits, hstart⟩ := h
    refine ⟨_, stripUtf8Chrs_core hws hfits hstart, ?_⟩
    obtain ⟨z', hz'⟩ := blank_append_eq_cons (ws.rtakeWhile (isIgnoreUtf8 loc)) z
    have hsub : (coreChars loc ws).Sublist ws :=
      (List.dropWhile_sublist _).trans (List.rdropWhile_prefix _ ws).sublist
    rw [hz', cstr_append (hws.sublist hsub).zero_notMem]

/-- A word with an apostrophe behind it. -/
theorem stripUtf8Chrs_core_apostrophe : StripsToCore .posix [97, 39] [0] := by
  have hword : IsWordUtf8 .posix [97, 39] := by
    rw [IsWordUtf8]
    decide
  exact (stripUtf8Chrs_core_iff [0] hword).mpr ⟨by decide, .inl (by decide)⟩

/-- An apostrophe stays in front of a word and costs it its end; three of them behind a word
overflow `chr`, and so does a character of four bytes. -/
theorem stripUtf8Chrs_not_core :
    ¬ StripsToCore .posix [39, 97] [0] ∧ ¬ StripsToCore .posix [97, 39, 39, 39] [0] ∧
      ¬ StripsToCore .posix [0x1D4B6] [0] := by
  refine ⟨?_, ?_, ?_⟩
  · rintro ⟨token, hok, hcore⟩
    have hrun : stripUtf8Chrs .posix [39, 97, 0, 0] 3 = .ok ([39, 97, 0, 0], 2) := by rfl
    cases hrun.symm.trans hok
    exact absurd hcore (by decide)
  · rintro ⟨token, hok, -⟩
    have hrun : stripUtf8Chrs .posix [97, 39, 39, 39, 0, 0] 5 = .error (.fault .outOfBounds) := by
      rfl
    cases hrun.symm.trans hok
  · rintro ⟨token, hok, -⟩
    have hrun : stripUtf8Chrs .posix [0xF0, 0x9D, 0x92, 0xB6, 0, 0] 5 =
        .error (.fault .outOfBounds) := by rfl
    cases hrun.symm.trans hok

/-! ## ASCII words -/

section Ascii

variable {loc : Locale} {w z : XmlStr}

/-- The end of a word, from its last character that may stand there, fits into `chr`. -/
def TrailingFits (w : XmlStr) : Prop :=
  (w.rtakeWhile isIgnoreAscii).length + 1 +
    (if w.rdropWhile isIgnoreAscii = [] then 0 else 1) ≤ 4

instance (w : XmlStr) : Decidable (TrailingFits w) := by
  rw [TrailingFits]
  infer_instance

theorem IsWord.utf8 (ha : loc.AsciiAgrees) (hw : IsWord w) :
    IsWordUtf8 loc (w.map UInt8.toNat) := by
  intro n hn
  obtain ⟨c, hc, rfl⟩ := List.mem_map.mp hn
  have hlt := hw.ascii c hc
  exact ⟨isScalar_toNat hlt, by rw [isIgnoreWordUtf8_of_lt ha hlt, hw.word c hc]⟩

theorem dropWhile_toNat (ha : loc.AsciiAgrees) (hw : ∀ c ∈ w, c < 0x80) :
    (w.map UInt8.toNat).dropWhile (isIgnoreUtf8 loc) =
      (w.dropWhile isIgnoreAscii).map UInt8.toNat := by
  induction w with
  | nil => rfl
  | cons c w ih =>
      have hsame := isIgnoreUtf8_of_lt ha (hw c (by simp))
      have htail := ih fun d hd => hw d (by simp [hd])
      simp only [List.map_cons, List.dropWhile_cons, hsame, htail]
      by_cases h : isIgnoreAscii c = true <;> simp [h]

theorem rdropWhile_toNat (ha : loc.AsciiAgrees) (hw : ∀ c ∈ w, c < 0x80) :
    (w.map UInt8.toNat).rdropWhile (isIgnoreUtf8 loc) =
      (w.rdropWhile isIgnoreAscii).map UInt8.toNat := by
  rw [List.rdropWhile, ← List.map_reverse, dropWhile_toNat ha (by simpa using hw),
    ← List.map_reverse, List.rdropWhile]

/-- The two parts of a word are those of its code points. -/
theorem rtakeWhile_toNat (ha : loc.AsciiAgrees) (hw : ∀ c ∈ w, c < 0x80) :
    (w.map UInt8.toNat).rtakeWhile (isIgnoreUtf8 loc) =
      (w.rtakeWhile isIgnoreAscii).map UInt8.toNat := by
  have hwhole : (w.rdropWhile isIgnoreAscii).map UInt8.toNat ++
      (w.map UInt8.toNat).rtakeWhile (isIgnoreUtf8 loc) = w.map UInt8.toNat := by
    rw [← rdropWhile_toNat ha hw, List.rdropWhile_append_rtakeWhile]
  refine List.append_cancel_left (hwhole.trans ?_)
  rw [← List.map_append, List.rdropWhile_append_rtakeWhile]

theorem coreChars_toNat (ha : loc.AsciiAgrees) (hw : ∀ c ∈ w, c < 0x80) :
    coreChars loc (w.map UInt8.toNat) = (core w).map UInt8.toNat := by
  rw [coreChars, rdropWhile_toNat ha hw, dropWhile_toNat ha, core]
  exact fun c hc => hw c ((List.rdropWhile_prefix _ w).mem hc)

theorem flatMap_blankChar_toNat (hw : ∀ c ∈ w, c < 0x80) :
    (w.map UInt8.toNat).flatMap blankChar = List.replicate w.length 0 := by
  induction w with
  | nil => rfl
  | cons c w ih =>
      rw [List.map_cons, List.flatMap_cons, ih fun d hd => hw d (by simp [hd]), blankChar,
        encodeChar_toNat (hw c (by simp))]
      rfl

private theorem replicate_append_zero (n : Nat) (z : XmlStr) :
    List.replicate n 0 ++ 0 :: z = 0 :: (List.replicate n 0 ++ z) := by
  rw [← List.singleton_append, ← List.append_assoc, ← List.replicate_succ', List.replicate_succ,
    List.cons_append]

theorem lastWidth_toNat (hw : ∀ c ∈ w, c < 0x80) :
    lastWidth (w.map UInt8.toNat) = if w = [] then 0 else 1 := by
  induction w using List.reverseRecOn with
  | nil => rfl
  | append_singleton w c _ =>
      rw [List.map_append, List.map_singleton, lastWidth_concat,
        encodeChar_toNat (hw c (by simp))]
      simp

theorem endFits_toNat (ha : loc.AsciiAgrees) (hw : ∀ c ∈ w, c < 0x80) :
    EndFits loc (w.map UInt8.toNat) ↔ TrailingFits w := by
  have hend : ∀ c ∈ w.rtakeWhile isIgnoreAscii, c < 0x80 :=
    fun c hc => hw c ((List.rtakeWhile_suffix _ w).mem hc)
  have hkept : ∀ c ∈ w.rdropWhile isIgnoreAscii, c < 0x80 :=
    fun c hc => hw c ((List.rdropWhile_prefix _ w).mem hc)
  rw [EndFits, TrailingFits, rtakeWhile_toNat ha hw, rdropWhile_toNat ha hw,
    flatMap_encodeChar_toNat hend, lastWidth_toNat hkept]

/-- In a word that starts as it may, `strip_utf8_chrs` leaves the core. -/
theorem stripUtf8Chrs_append (ha : loc.AsciiAgrees) (hw : IsWord w) (hfits : TrailingFits w)
    (hstart : core w = w.rdropWhile isIgnoreAscii) :
    ∃ z', stripUtf8Chrs loc (w ++ 0 :: z) (w.length + 1) =
        .ok (core w ++ 0 :: z', (core w).length + 1) ∧
      (core w ++ 0 :: z').length = (w ++ 0 :: z).length := by
  have hcore : ∀ c ∈ core w, c < 0x80 := fun c hc => hw.ascii c (core_sublist.mem hc)
  have hend : ∀ c ∈ w.rtakeWhile isIgnoreAscii, c < 0x80 :=
    fun c hc => hw.ascii c ((List.rtakeWhile_suffix _ w).mem hc)
  have hlegal : StartsLegally loc (w.map UInt8.toNat) := by
    refine startsLegally_of_core (hw.utf8 ha) ?_
    rw [coreChars_toNat ha hw.ascii, rdropWhile_toNat ha hw.ascii, hstart]
  have hstrip := stripUtf8Chrs_core (z := z) (hw.utf8 ha) ((endFits_toNat ha hw.ascii).mpr hfits)
    hlegal
  rw [flatMap_encodeChar_toNat hw.ascii, coreChars_toNat ha hw.ascii,
    flatMap_encodeChar_toNat hcore, rtakeWhile_toNat ha hw.ascii,
    flatMap_blankChar_toNat hend] at hstrip
  have hlength : (w.rdropWhile isIgnoreAscii).length + (w.rtakeWhile isIgnoreAscii).length =
      w.length := by
    rw [← List.length_append, List.rdropWhile_append_rtakeWhile]
  refine ⟨List.replicate (w.rtakeWhile isIgnoreAscii).length 0 ++ z, ?_, ?_⟩
  · rw [hstrip, replicate_append_zero]
  · rw [hstart]
    simp
    omega

/-- What `strip_utf8_chrs` leaves of any word starts as the word does. -/
theorem stripUtf8Chrs_ok (ha : loc.AsciiAgrees) (hw : ∀ c ∈ w, c < 0x80) {token : XmlStr}
    {len : Nat} (h : stripUtf8Chrs loc (w ++ 0 :: z) (w.length + 1) = .ok (token, len)) :
    TrailingFits w ∧
      token = w.rdropWhile isIgnoreAscii ++
        0 :: (List.replicate (w.rtakeWhile isIgnoreAscii).length 0 ++ z) := by
  have hkept : ∀ c ∈ w.rdropWhile isIgnoreAscii, c < 0x80 :=
    fun c hc => hw c ((List.rdropWhile_prefix _ w).mem hc)
  have hend : ∀ c ∈ w.rtakeWhile isIgnoreAscii, c < 0x80 :=
    fun c hc => hw c ((List.rtakeWhile_suffix _ w).mem hc)
  nth_rewrite 1 2 [← flatMap_encodeChar_toNat hw] at h
  obtain ⟨hfits, htoken⟩ := stripUtf8Chrs_block (isScalar_of_ascii hw) h
  rw [rdropWhile_toNat ha hw, flatMap_encodeChar_toNat hkept, rtakeWhile_toNat ha hw,
    flatMap_blankChar_toNat hend, replicate_append_zero] at htoken
  exact ⟨(endFits_toNat ha hw).mp hfits, htoken⟩

end Ascii

end LibSwish3
