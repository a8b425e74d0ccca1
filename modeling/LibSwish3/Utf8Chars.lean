import LibSwish3.Lib.Runs
import LibSwish3.Tokenizer

/-!
# The characters of UTF-8 text

The tokenizer walks a text with `u8_inc` and computes each character's code point from its
bytes.  On text that `wcstombs` wrote the walk stops at every character and the code points
are those that were written.

## Main definitions

* `utf8Chrs_flatMap`, `utf8Codepoint_encodeChar`.
* `count_of_mbstowcs` — an ASCII byte stands for itself wherever it stands.
* `flatMap_encodeChar_of_mbstowcs` — what is decoded is what was encoded.
* `strTolower_append` — lowering goes character by character.
-/

namespace LibSwish3

open Runs

section Encoded

variable {c : Nat} {ws : List Nat}

/-- The first byte of a character starts it. -/
private theorem isutf_lead {n : Nat} (h : n < 0x80 ∨ 0xC0 ≤ n) (hlt : n < 256) :
    isutf n.toUInt8 = true := by
  have hn := toNat_toUInt8_of_lt hlt
  simp only [isutf, isCont, UInt8.le_iff_toNat_le, hn, UInt8.reduceToNat, Bool.not_eq_true',
    Bool.and_eq_false_iff, decide_eq_false_iff_not]
  omega

/-- Every other byte continues it. -/
private theorem isutf_rest {d : Nat} (hd : d < 64) : isutf (0x80 + d).toUInt8 = false := by
  rw [isutf, isCont_rest hd]
  rfl

/-- A character is a byte that starts it and at most three that continue it. -/
theorem encodeChar_eq_cons (hc : isScalar c) :
    ∃ b rest, encodeChar c = b :: rest ∧ isutf b = true ∧ (∀ d ∈ rest, isutf d = false) ∧
      rest.length ≤ 3 := by
  refine encodeChar_cases (P := fun t => ∃ b rest, t = b :: rest ∧ isutf b = true ∧
    (∀ d ∈ rest, isutf d = false) ∧ rest.length ≤ 3) hc ?one ?two ?three ?four
  case one =>
    intro h
    exact ⟨_, _, rfl, isutf_lead (.inl h) (by omega), by simp, by simp⟩
  case two =>
    intro q hq d hd _ _
    refine ⟨_, _, rfl, isutf_lead (.inr (by omega)) (by omega), ?_, by simp⟩
    simp only [List.forall_mem_cons]
    exact ⟨isutf_rest hd, by simp⟩
  case three =>
    intro q hq d hd e he _ _
    refine ⟨_, _, rfl, isutf_lead (.inr (by omega)) (by omega), ?_, by simp⟩
    simp only [List.forall_mem_cons]
    exact ⟨isutf_rest hd, isutf_rest he, by simp⟩
  case four =>
    intro q hq d hd e he f hf _ _
    refine ⟨_, _, rfl, isutf_lead (.inr (by omega)) (by omega), ?_, by simp⟩
    simp only [List.forall_mem_cons]
    exact ⟨isutf_rest hd, isutf_rest he, isutf_rest hf, by simp⟩

theorem encodeChar_ne_nil (hc : isScalar c) : encodeChar c ≠ [] := by
  obtain ⟨b, rest, heq, -⟩ := encodeChar_eq_cons hc
  rw [heq]
  exact List.cons_ne_nil _ _

/-- The walk goes over the bytes that continue a character. -/
private theorem utf8Chrs_go_append {chr rest : XmlStr} (s : XmlStr)
    (hrest : ∀ d ∈ rest, isutf d = false) (hlen : chr.length + rest.length ≤ 4) :
    utf8Chrs.go chr (rest ++ s) = utf8Chrs.go (chr ++ rest) s := by
  induction rest generalizing chr with
  | nil => simp
  | cons d rest ih =>
      rw [List.length_cons] at hlen
      have hne : chr.length ≠ 4 := by omega
      rw [List.cons_append, utf8Chrs.go, if_neg (by simp [hrest d (by simp), hne]),
        ih (fun e he => hrest e (by simp [he])) (by simp; omega), List.append_assoc]
      rfl

/-- Behind a character the walk starts the next one. -/
private theorem utf8Chrs_go_flatMap (hws : ∀ c ∈ ws, isScalar c) (chr : XmlStr) :
    utf8Chrs.go chr (ws.flatMap encodeChar) = chr :: ws.map encodeChar := by
  induction ws generalizing chr with
  | nil => rfl
  | cons c ws ih =>
      obtain ⟨b, rest, heq, hb, hrest, hlen⟩ := encodeChar_eq_cons (hws c (by simp))
      rw [List.flatMap_cons, heq, List.cons_append, utf8Chrs.go, if_pos (by simp [hb]),
        utf8Chrs_go_append _ hrest (by simp; omega), ih fun d hd => hws d (by simp [hd])]
      simp [heq]

/-- The walk stops at every character that was written. -/
theorem utf8Chrs_flatMap (hws : ∀ c ∈ ws, isScalar c) :
    utf8Chrs (ws.flatMap encodeChar) = ws.map encodeChar := by
  cases ws with
  | nil => rfl
  | cons c ws =>
      obtain ⟨b, rest, heq, -, hrest, hlen⟩ := encodeChar_eq_cons (hws c (by simp))
      rw [List.flatMap_cons, heq, List.cons_append, utf8Chrs,
        utf8Chrs_go_append _ hrest (by simp; omega),
        utf8Chrs_go_flatMap fun d hd => hws d (by simp [hd])]
      simp [heq]

theorem toUInt_eq {v : Int} {n : Nat} (h : v = n) (hn : n < 2 ^ 32) : toUInt v = n := by
  rw [toUInt]
  omega

/-- The code point of a character that was written, whatever stands behind it. -/
theorem utf8Codepoint_encodeChar_append (hc : isScalar c) (s : XmlStr) :
    utf8Codepoint (encodeChar c ++ s) = .ok c := by
  have byte : ∀ n : Nat, n < 256 → n.toUInt8.toNat = n := fun n hn => toNat_toUInt8_of_lt hn
  refine encodeChar_cases (P := fun t => utf8Codepoint (t ++ s) = .ok c) hc ?one ?two ?three ?four
  case one =>
    intro h
    have hsize : xmlUTF8Size (c.toUInt8 :: s) = some 1 := by
      simp only [xmlUTF8Size, List.headD_cons, UInt8.lt_iff_toNat_lt, UInt8.reduceToNat,
        byte c (by omega)]
      rw [if_pos h]
    rw [List.singleton_append, utf8Codepoint, utf8ChrLen, hsize, ok_bind]
    simp only [List.headD_cons, byte c (by omega), pure_eq_ok]
  case two =>
    intro q hq d hd hmin heq
    have hsize : xmlUTF8Size ((0xC0 + q).toUInt8 :: (0x80 + d).toUInt8 :: s) = some 2 := by
      simp only [xmlUTF8Size, List.headD_cons, UInt8.lt_iff_toNat_lt, UInt8.reduceToNat,
        byte (0xC0 + q) (by omega)]
      rw [if_neg (by omega), if_neg (by omega), if_pos (by omega)]
    simp only [List.cons_append, List.nil_append]
    rw [utf8Codepoint, utf8ChrLen, hsize, ok_bind]
    simp only [List.getD_cons_zero, List.getD_cons_succ, byte (0xC0 + q) (by omega),
      byte (0x80 + d) (by omega), pure_eq_ok]
    exact congrArg Except.ok (toUInt_eq (by omega) (by omega))
  case three =>
    intro q hq d hd e he hmin heq
    have hsize : xmlUTF8Size ((0xE0 + q).toUInt8 :: (0x80 + d).toUInt8 :: (0x80 + e).toUInt8 ::
        s) = some 3 := by
      simp only [xmlUTF8Size, List.headD_cons, UInt8.lt_iff_toNat_lt, UInt8.reduceToNat,
        byte (0xE0 + q) (by omega)]
      rw [if_neg (by omega), if_neg (by omega), if_neg (by omega), if_pos (by omega)]
    simp only [List.cons_append, List.nil_append]
    rw [utf8Codepoint, utf8ChrLen, hsize, ok_bind]
    simp only [List.getD_cons_zero, List.getD_cons_succ, byte (0xE0 + q) (by omega),
      byte (0x80 + d) (by omega), byte (0x80 + e) (by omega), pure_eq_ok]
    exact congrArg Except.ok (toUInt_eq (by omega) (by omega))
  case four =>
    intro q hq d hd e he f hf hmin heq
    have hlt := lt_of_isScalar hc
    have hsize : xmlUTF8Size ((0xF0 + q).toUInt8 :: (0x80 + d).toUInt8 :: (0x80 + e).toUInt8 ::
        (0x80 + f).toUInt8 :: s) = some 4 := by
      simp only [xmlUTF8Size, List.headD_cons, UInt8.lt_iff_toNat_lt, UInt8.reduceToNat,
        byte (0xF0 + q) (by omega)]
      rw [if_neg (by omega), if_neg (by omega), if_neg (by omega), if_neg (by omega),
        if_pos (by omega)]
    simp only [List.cons_append, List.nil_append]
    rw [utf8Codepoint, utf8ChrLen, hsize, ok_bind]
    simp only [List.getD_cons_zero, List.getD_cons_succ, byte (0xF0 + q) (by omega),
      byte (0x80 + d) (by omega), byte (0x80 + e) (by omega), byte (0x80 + f) (by omega),
      pure_eq_ok]
    exact congrArg Except.ok (toUInt_eq (by omega) (by omega))

theorem utf8Codepoint_encodeChar (hc : isScalar c) : utf8Codepoint (encodeChar c) = .ok c := by
  simpa using utf8Codepoint_encodeChar_append hc []

/-- A character of one to four bytes. -/
theorem length_encodeChar (hc : isScalar c) :
    1 ≤ (encodeChar c).length ∧ (encodeChar c).length ≤ 4 := by
  obtain ⟨b, rest, heq, -, -, hlen⟩ := encodeChar_eq_cons hc
  rw [heq, List.length_cons]
  omega

/-- Only the NUL is written with a NUL. -/
theorem zero_notMem_encodeChar (hc : isScalar c) (hne : c ≠ 0) :
    (0 : XmlChar) ∉ encodeChar c := by
  have hlt := lt_of_isScalar hc
  have byte : ∀ n : Nat, 0 < n → n < 256 → (0 : XmlChar) ≠ n.toUInt8 := by
    intro n hpos hn heq
    have := congrArg UInt8.toNat heq
    rw [toNat_toUInt8_of_lt hn] at this
    simp only [UInt8.reduceToNat] at this
    omega
  rw [encodeChar]
  split_ifs with h₁ h₂ h₃
  · simpa using byte c (by omega) (by omega)
  · simp only [List.mem_cons, List.not_mem_nil, or_false, not_or]
    exact ⟨byte _ (by omega) (by omega), byte _ (by omega) (by omega)⟩
  · simp only [List.mem_cons, List.not_mem_nil, or_false, not_or]
    exact ⟨byte _ (by omega) (by omega), byte _ (by omega) (by omega),
      byte _ (by omega) (by omega)⟩
  · simp only [List.mem_cons, List.not_mem_nil, or_false, not_or]
    exact ⟨byte _ (by omega) (by omega), byte _ (by omega) (by omega),
      byte _ (by omega) (by omega), byte _ (by omega) (by omega)⟩

theorem zero_notMem_flatMap_encodeChar (hws : ∀ c ∈ ws, isScalar c ∧ c ≠ 0) :
    (0 : XmlChar) ∉ ws.flatMap encodeChar := by
  intro hmem
  obtain ⟨c, hc, h⟩ := List.mem_flatMap.mp hmem
  exact zero_notMem_encodeChar (hws c hc).1 (hws c hc).2 h

end Encoded

/-! ## ASCII text -/

section Ascii

variable {c : XmlChar} {s : XmlStr}

theorem isScalar_toNat (hc : c < 0x80) : isScalar c.toNat = true := by
  have hlt : c.toNat < 0x80 := UInt8.lt_iff_toNat_lt.mp hc
  simp only [isScalar, Bool.or_eq_true, decide_eq_true_eq]
  omega

/-- An ASCII byte is the encoding of itself. -/
theorem encodeChar_toNat (hc : c < 0x80) : encodeChar c.toNat = [c] := by
  have hlt : c.toNat < 0x80 := UInt8.lt_iff_toNat_lt.mp hc
  rw [encodeChar, if_pos hlt]
  simp

theorem isScalar_of_ascii (hs : ∀ c ∈ s, c < 0x80) : ∀ n ∈ s.map UInt8.toNat, isScalar n := by
  intro n hn
  obtain ⟨c, hc, rfl⟩ := List.mem_map.mp hn
  exact isScalar_toNat (hs c hc)

theorem flatMap_encodeChar_toNat (hs : ∀ c ∈ s, c < 0x80) :
    (s.map UInt8.toNat).flatMap encodeChar = s := by
  induction s with
  | nil => rfl
  | cons c s ih =>
      rw [List.map_cons, List.flatMap_cons, ih fun d hd => hs d (by simp [hd]),
        encodeChar_toNat (hs c (by simp))]
      rfl

theorem wcstombs_of_ascii (hs : ∀ c ∈ s, c < 0x80) :
    wcstombs (s.map UInt8.toNat) = some s := by
  rw [wcstombs, if_pos (List.all_eq_true.mpr (isScalar_of_ascii hs)),
    flatMap_encodeChar_toNat hs]

theorem utf8Chrs_of_ascii (hs : ∀ c ∈ s, c < 0x80) : utf8Chrs s = s.map ([·]) := by
  have h := utf8Chrs_flatMap (isScalar_of_ascii hs)
  rw [flatMap_encodeChar_toNat hs, List.map_map] at h
  rw [h]
  exact List.map_congr_left fun c hc => encodeChar_toNat (hs c hc)

end Ascii

/-! ## Text that was decoded -/

/-- An ASCII byte stands for its character and for nothing else. -/
private theorem count_of_mbstowcsFrom {b : XmlChar} (hb : b < 0x80) {need acc least : Nat}
    {s : XmlStr} {ws : List Nat} (hleast : 0 < need → 0x80 ≤ least)
    (h : mbstowcsFrom need acc least s = some ws) : s.count b = ws.count b.toNat := by
  induction s generalizing need acc least ws with
  | nil =>
      cases need with
      | zero => cases h; rfl
      | succ need => cases h
  | cons d s ih =>
      have hbyte : b.toNat < 0x80 := UInt8.lt_iff_toNat_lt.mp hb
      cases need with
      | zero =>
          rw [mbstowcsFrom] at h
          by_cases hd : d < 0x80
          · rw [if_pos hd] at h
            obtain ⟨vs, hvs, rfl⟩ := Option.map_eq_some_iff.mp h
            rw [List.count_cons, List.count_cons, ih (by simp) hvs]
            simp [← UInt8.toNat_inj]
          · have hne : d ≠ b := by
              rintro rfl
              exact hd hb
            rw [if_neg hd] at h
            rw [List.count_cons_of_ne hne]
            split at h
            · cases h
            · split at h
              · exact ih (by simp) h
              · split at h
                · exact ih (by simp) h
                · split at h
                  · exact ih (by simp) h
                  · cases h
      | succ need =>
          rw [mbstowcsFrom] at h
          by_cases hcont : isCont d
          · have hne : d ≠ b := by
              rintro rfl
              simp only [isCont, Bool.and_eq_true, decide_eq_true_eq, UInt8.le_iff_toNat_le,
                UInt8.reduceToNat] at hcont
              omega
            rw [List.count_cons_of_ne hne]
            simp only [hcont, Bool.not_true, Bool.false_eq_true, if_false] at h
            split at h
            · exact ih (fun _ => hleast (by omega)) h
            · split at h
              · rename_i hscalar
                obtain ⟨vs, hvs, rfl⟩ := Option.map_eq_some_iff.mp h
                simp only [Bool.and_eq_true, decide_eq_true_eq] at hscalar
                have := hleast (by omega)
                rw [List.count_cons_of_ne (by omega), ih (by simp) hvs]
              · cases h
          · simp [hcont] at h

theorem count_of_mbstowcs {b : XmlChar} (hb : b < 0x80) {s : XmlStr} {ws : List Nat}
    (h : mbstowcs s = some ws) : s.count b = ws.count b.toNat :=
  count_of_mbstowcsFrom hb (by simp) h

/-- Decoding gives characters that have an encoding. -/
private theorem isScalar_of_mbstowcsFrom {need acc least : Nat} {s : XmlStr} {ws : List Nat}
    (h : mbstowcsFrom need acc least s = some ws) : ∀ c ∈ ws, isScalar c := by
  induction s generalizing need acc least ws with
  | nil =>
      cases need with
      | zero =>
          cases h
          simp
      | succ need => cases h
  | cons d s ih =>
      cases need with
      | zero =>
          rw [mbstowcsFrom] at h
          split at h
          · rename_i hlow
            obtain ⟨vs, hvs, rfl⟩ := Option.map_eq_some_iff.mp h
            have hbyte : d.toNat < 0x80 := UInt8.lt_iff_toNat_lt.mp hlow
            simp only [List.forall_mem_cons]
            refine ⟨?_, ih hvs⟩
            simp only [isScalar, Bool.or_eq_true, decide_eq_true_eq]
            omega
          · split at h
            · cases h
            · split at h
              · exact ih h
              · split at h
                · exact ih h
                · split at h
                  · exact ih h
                  · cases h
      | succ need =>
          rw [mbstowcsFrom] at h
          by_cases hcont : isCont d
          · simp only [hcont, Bool.not_true, Bool.false_eq_true, if_false] at h
            split at h
            · exact ih h
            · split at h
              · rename_i hscalar
                obtain ⟨vs, hvs, rfl⟩ := Option.map_eq_some_iff.mp h
                simp only [Bool.and_eq_true] at hscalar
                simp only [List.forall_mem_cons]
                exact ⟨hscalar.2, ih hvs⟩
              · cases h
          · simp [hcont] at h

theorem isScalar_of_mbstowcs {s : XmlStr} {ws : List Nat} (h : mbstowcs s = some ws) :
    ∀ c ∈ ws, isScalar c := isScalar_of_mbstowcsFrom h

/-! ## Decoded text -/

section Decoded

variable {need acc least c : Nat} {s : XmlStr} {ws : List Nat}

theorem eq_of_isCont {b : XmlChar} (h : isCont b) :
    ∃ d < 64, b = (0x80 + d).toUInt8 ∧ b.toNat - 0x80 = d := by
  simp only [isCont, Bool.and_eq_true, decide_eq_true_eq, UInt8.le_iff_toNat_le,
    UInt8.reduceToNat] at h
  refine ⟨b.toNat - 0x80, by omega, ?_, rfl⟩
  rw [← UInt8.toNat_inj, toNat_toUInt8_of_lt (by omega)]
  omega

/-- Inside a character the next byte continues it. -/
theorem mbstowcsFrom_more_some (hneed : 0 < need)
    (h : mbstowcsFrom (need + 1) acc least s = some ws) :
    ∃ d < 64, ∃ s', s = (0x80 + d).toUInt8 :: s' ∧
      mbstowcsFrom need (acc * 64 + d) least s' = some ws := by
  cases s with
  | nil => cases h
  | cons b s =>
      rw [mbstowcsFrom] at h
      by_cases hcont : isCont b
      · obtain ⟨d, hd, rfl, hval⟩ := eq_of_isCont hcont
        simp only [hcont, hval, Bool.not_true, Bool.false_eq_true, if_false, if_pos hneed] at h
        exact ⟨d, hd, s, rfl, h⟩
      · simp [hcont] at h

/-- The last byte of a character, and the text behind it. -/
theorem mbstowcsFrom_last_some (h : mbstowcsFrom 1 acc least s = some ws) :
    ∃ d < 64, ∃ s' vs, s = (0x80 + d).toUInt8 :: s' ∧ least ≤ acc * 64 + d ∧
      isScalar (acc * 64 + d) ∧ mbstowcs s' = some vs ∧ ws = (acc * 64 + d) :: vs := by
  cases s with
  | nil => cases h
  | cons b s =>
      rw [mbstowcsFrom] at h
      by_cases hcont : isCont b
      · obtain ⟨d, hd, rfl, hval⟩ := eq_of_isCont hcont
        simp only [hcont, hval, Bool.not_true, Bool.false_eq_true, if_false, Nat.lt_irrefl] at h
        split at h
        · rename_i hscalar
          obtain ⟨vs, hvs, rfl⟩ := Option.map_eq_some_iff.mp h
          simp only [Bool.and_eq_true, decide_eq_true_eq] at hscalar
          exact ⟨d, hd, s, vs, rfl, hscalar.1, hscalar.2, hvs, rfl⟩
        · cases h
      · simp [hcont] at h

/-- A text that is decoded starts with the bytes of its first character. -/
theorem mbstowcs_cons_some {b : XmlChar} (h : mbstowcs (b :: s) = some ws) :
    ∃ c s' vs, b :: s = encodeChar c ++ s' ∧ mbstowcs s' = some vs ∧ ws = c :: vs := by
  have lead : ∀ base, base ≤ b.toNat → ∃ q, b.toNat - base = q ∧ q < 256 - base ∧
      b = (base + q).toUInt8 := by
    intro base hle
    have hlt := b.toNat_lt
    refine ⟨b.toNat - base, rfl, by omega, ?_⟩
    rw [← UInt8.toNat_inj, toNat_toUInt8_of_lt (by omega)]
    omega
  rw [mbstowcs, mbstowcsFrom] at h
  simp only [UInt8.lt_iff_toNat_lt, UInt8.reduceToNat] at h
  split at h
  · rename_i h₁
    obtain ⟨vs, hvs, rfl⟩ := Option.map_eq_some_iff.mp h
    refine ⟨b.toNat, s, vs, ?_, hvs, rfl⟩
    rw [encodeChar, if_pos h₁]
    simp
  · split at h
    · cases h
    · split at h
      · obtain ⟨q, hq, hlt, hb⟩ := lead 0xC0 (by omega)
        rw [hq] at h
        obtain ⟨d, hd, s', vs, rfl, hleast, -, hvs, rfl⟩ := mbstowcsFrom_last_some h
        have hdiv : (q * 64 + d) / 64 = q := by omega
        have hmod : (q * 64 + d) % 64 = d := by omega
        refine ⟨q * 64 + d, s', vs, ?_, hvs, rfl⟩
        rw [encodeChar, if_neg (by omega), if_pos (by omega), hdiv, hmod, hb]
        rfl
      · split at h
        · obtain ⟨q, hq, hlt, hb⟩ := lead 0xE0 (by omega)
          rw [hq] at h
          obtain ⟨d, hd, s₁, rfl, h₁⟩ := mbstowcsFrom_more_some (by omega) h
          obtain ⟨e, he, s', vs, rfl, hleast, -, hvs, rfl⟩ := mbstowcsFrom_last_some h₁
          have hhigh : ((q * 64 + d) * 64 + e) / 4096 = q := by omega
          have hmid : ((q * 64 + d) * 64 + e) / 64 % 64 = d := by omega
          have hlow : ((q * 64 + d) * 64 + e) % 64 = e := by omega
          refine ⟨(q * 64 + d) * 64 + e, s', vs, ?_, hvs, rfl⟩
          rw [encodeChar, if_neg (by omega), if_neg (by omega), if_pos (by omega), hhigh, hmid,
            hlow, hb]
          rfl
        · split at h
          · obtain ⟨q, hq, hlt, hb⟩ := lead 0xF0 (by omega)
            rw [hq] at h
            obtain ⟨d, hd, s₁, rfl, h₁⟩ := mbstowcsFrom_more_some (by omega) h
            obtain ⟨e, he, s₂, rfl, h₂⟩ := mbstowcsFrom_more_some (by omega) h₁
            obtain ⟨f, hf, s', vs, rfl, hleast, -, hvs, rfl⟩ := mbstowcsFrom_last_some h₂
            have htop : (((q * 64 + d) * 64 + e) * 64 + f) / 262144 = q := by omega
            have hhigh : (((q * 64 + d) * 64 + e) * 64 + f) / 4096 % 64 = d := by omega
            have hmid : (((q * 64 + d) * 64 + e) * 64 + f) / 64 % 64 = e := by omega
            have hlow : (((q * 64 + d) * 64 + e) * 64 + f) % 64 = f := by omega
            refine ⟨((q * 64 + d) * 64 + e) * 64 + f, s', vs, ?_, hvs, rfl⟩
            rw [encodeChar, if_neg (by omega), if_neg (by omega), if_neg (by omega), htop, hhigh,
              hmid, hlow, hb]
            rfl
          · cases h

theorem mbstowcs_flatMap (hws : ∀ c ∈ ws, isScalar c) :
    mbstowcs (ws.flatMap encodeChar) = some ws :=
  mbstowcs_wcstombs (if_pos (List.all_eq_true.mpr hws))

/-- What is decoded and encoded again is the same. -/
theorem flatMap_encodeChar_of_mbstowcs (h : mbstowcs s = some ws) :
    ws.flatMap encodeChar = s := by
  induction ws generalizing s with
  | nil =>
      cases s with
      | nil => rfl
      | cons b s =>
          obtain ⟨c, s', vs, -, -, hcons⟩ := mbstowcs_cons_some h
          cases hcons
  | cons c ws ih =>
      cases s with
      | nil => cases h
      | cons b s =>
          obtain ⟨c', s', vs, heq, hvs, hcons⟩ := mbstowcs_cons_some h
          cases hcons
          rw [heq, List.flatMap_cons, ih hvs]

end Decoded

/-! ## Lowering in pieces -/

section Lowering

variable {loc : Locale} {s s' t t' : XmlStr} {ws vs : List Nat}

theorem utf8StrTolower_of_ascii (ha : loc.AsciiAgrees) (hs : ∀ c ∈ s, c < 0x80) :
    utf8StrTolower loc s = .ok (asciiStrTolower s) := by
  have hlow : (s.map UInt8.toNat).map loc.towlower = (asciiStrTolower s).map UInt8.toNat := by
    rw [asciiStrTolower, List.map_map, List.map_map]
    exact List.map_congr_left fun c hc => ha.towlower c (hs c hc)
  have hlower : ∀ c ∈ asciiStrTolower s, c < 0x80 := by
    intro c hc
    obtain ⟨b, hb, rfl⟩ := List.mem_map.mp hc
    exact tolower_lt (hs b hb)
  rw [utf8StrTolower, mbstowcs_of_ascii hs]
  simp only [hlow, wcstombs_of_ascii hlower]

/-- Through wide characters ASCII text is lowered like all other text. -/
theorem strTolower_eq (ha : loc.AsciiAgrees) (s : XmlStr) :
    strTolower loc s = utf8StrTolower loc s := by
  rw [strTolower]
  split
  · rename_i hs
    simp only [isAscii, Bool.and_eq_true, List.all_eq_true, decide_eq_true_eq] at hs
    exact (utf8StrTolower_of_ascii ha hs.2).symm
  · rfl

theorem utf8StrTolower_ok_iff : utf8StrTolower loc s = .ok s' ↔
    ∃ ws, mbstowcs s = some ws ∧ wcstombs (ws.map loc.towlower) = some s' := by
  rw [utf8StrTolower]
  cases mbstowcs s with
  | none => simp [croak]
  | some ws =>
      simp only [Option.some.injEq, exists_eq_left']
      cases wcstombs (ws.map loc.towlower) <;> simp [croak]

theorem wcstombs_append (hs : wcstombs ws = some s) (ht : wcstombs vs = some t) :
    wcstombs (ws ++ vs) = some (s ++ t) := by
  rw [wcstombs] at hs ht ⊢
  by_cases hws : ws.all isScalar = true
  · by_cases hvs : vs.all isScalar = true
    · rw [if_pos hws, Option.some.injEq] at hs
      rw [if_pos hvs, Option.some.injEq] at ht
      rw [List.all_append, hws, hvs, Bool.and_self, if_pos rfl, List.flatMap_append, hs, ht]
    · rw [if_neg hvs] at ht
      cases ht
  · rw [if_neg hws] at hs
    cases hs

/-- A text is lowered piece by piece. -/
theorem strTolower_append (ha : loc.AsciiAgrees) (hs : strTolower loc s = .ok s')
    (ht : strTolower loc t = .ok t') : strTolower loc (s ++ t) = .ok (s' ++ t') := by
  rw [strTolower_eq ha, utf8StrTolower_ok_iff] at hs ht ⊢
  obtain ⟨ws, hws, hs'⟩ := hs
  obtain ⟨vs, hvs, ht'⟩ := ht
  refine ⟨ws ++ vs, ?_, ?_⟩
  · rw [mbstowcs_append hws, hvs]
    rfl
  · rw [List.map_append]
    exact wcstombs_append hs' ht'

/-- The lower case of a word that has one. -/
def lowered (loc : Locale) (word : XmlStr) : XmlStr := (strTolower loc word).toOption.getD word

theorem lowered_of_ok (h : strTolower loc s = .ok s') : lowered loc s = s' := by
  rw [lowered, h]
  rfl

end Lowering

end LibSwish3
