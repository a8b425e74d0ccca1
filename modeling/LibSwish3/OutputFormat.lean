import LibSwish3.Config
import LibSwish3.Escapes

/-!
# Output templates

A search prints every result with a template: names of properties between `<` and `>`, C escapes,
and text.  `build_output_format` puts a placeholder byte into the text for every name and the id of
the property into an array, and the loop over the results takes one id from the array for every
placeholder it meets.  The two stay together if no name runs into the end of the template, and if
the placeholder comes from names alone: it is a byte like any other, and text or an escape can
write it too.

## Main definitions

* `cEscapedChar`, `OutputFormat`, `buildOutputFormat`, `printResult`.
* `FormatFilled` — what the loop over the results relies on.
* `PlainTemplate` — a template whose names are closed and whose text has no placeholder.
* `formatFilled_iff`.
-/

namespace LibSwish3

open Digits Runs Tables

/-! ## C escapes -/

/-- The sign that `strtoul` takes. -/
def isMinus (s : XmlStr) : Bool := s.head? = some 45

/-- What stands behind the blanks and the sign, and behind `0x` if a digit follows. -/
def strtoulDigits (base : Nat) (isDigit : XmlChar → Bool) (s : XmlStr) : XmlStr :=
  let unsigned := if s.head? = some 45 ∨ s.head? = some 43 then s.tail else s
  match unsigned with
  | 48 :: x :: d :: rest =>
    if base = 16 ∧ (x = 120 ∨ x = 88) ∧ isDigit d then d :: rest else unsigned
  | _ => unsigned

/-- `strtoul`: the number, and where it ends.  Without a digit that is where it starts; a number
that is too large becomes the largest one, and a sign makes it its negative modulo `2 ^ 64`. -/
def strtoul (base : Nat) (isDigit : XmlChar → Bool) (s : XmlStr) : Nat × XmlStr :=
  let t := strSkipWs s
  let body := strtoulDigits base isDigit t
  let digits := body.takeWhile isDigit
  if digits = [] then (0, s)
  else
    let value := valueOf base digitValue digits
    let number :=
      if 2 ^ 64 ≤ value then 2 ^ 64 - 1
      else if isMinus t then (2 ^ 64 - value) % 2 ^ 64
      else value
    (number, body.dropWhile isDigit)

/-- `swish_get_C_escaped_char` behind the backslash: the byte, and what is left. -/
def cEscapedChar (s : XmlStr) : XmlChar × XmlStr :=
  match s with
  | [] => (92, [])
  | c :: rest =>
    if c = 97 then (7, rest)
    else if c = 98 then (8, rest)
    else if c = 102 then (12, rest)
    else if c = 110 then (10, rest)
    else if c = 114 then (13, rest)
    else if c = 116 then (9, rest)
    else if c = 118 then (11, rest)
    else if c = 120 then
      let (number, se) := strtoul 16 isHexDigit rest
      (number.toUInt8, se)
    else if c = 48 then
      let (number, se) := strtoul 8 octalDigit (c :: rest)
      (number.toUInt8, se)
    else (c, rest)

/-! ## Building a format -/

/-- `SWISH_PROP_OUTPUT_PLACEHOLDER`. -/
def propOutputPlaceholder : XmlChar := 3

/-- `SWISH_MAX_OUTPUT_PROPS`. -/
def maxOutputProps : Nat := 64

/-- `outputFormat`: `props` is the filled part of the array, and `num_props` its length. -/
structure OutputFormat where
  tmpl : XmlStr
  props : List Int
  deriving DecidableEq, Repr

def OutputFormat.addChar (of : OutputFormat) (c : XmlChar) : OutputFormat :=
  { of with tmpl := of.tmpl ++ [c] }

def OutputFormat.addProp (of : OutputFormat) (propId : Int) : OutputFormat :=
  { tmpl := of.tmpl ++ [propOutputPlaceholder], props := of.props ++ [propId] }

/-- The byte ends the name of a property. -/
def isDelim (c : XmlChar) : Bool := c = 62 || isspace c

/-- The loop of `build_output_format` over what is left of the template. -/
def buildOutputLoop (properties : HashTable Property) :
    (fuel : Nat) → OutputFormat → XmlStr → Swish OutputFormat
  | 0, _, _ => .error .outOfFuel
  | _ + 1, of, [] => .ok of
  | fuel + 1, of, c :: rest =>
    if c = 60 then do
      let tmp := strSkipWs rest
      let propId ← propertyGetId (tmp.takeWhile fun d => !isDelim d) properties
      if of.props.length = maxOutputProps then
        croak [lit "Max number of PropertyNames reached in output template: ",
          natToString maxOutputProps]
      else
        match tmp.dropWhile fun d => !isDelim d with
        -- `++tmp` steps over the NUL, and the loop reads the byte behind it
        | [] => .error (.fault .outOfBounds)
        | _ :: rest => buildOutputLoop properties fuel (of.addProp propId) rest
    else if c = 92 then
      let (ctrl, se) := cEscapedChar rest
      buildOutputLoop properties fuel (of.addChar ctrl) se
    else buildOutputLoop properties fuel (of.addChar c) rest

/-- `build_output_format`. -/
def buildOutputFormat (properties : HashTable Property) (fuel : Nat) (tmpl : XmlStr) :
    Swish OutputFormat := buildOutputLoop properties fuel ⟨[], []⟩ tmpl

/-! ## Printing a result -/

/-- A result of a search, as far as it is printed. -/
structure SearchResult where
  percent : Int
  getValue : Int → XmlStr
  /-- `swish_time_format`, in the time zone of the process. -/
  timeFormat : Int → XmlStr

/-- What stands in a result for a placeholder; the percentage is printed with `%3d0`. -/
def SearchResult.propText (result : SearchResult) (propId : Int) : Swish XmlStr :=
  if propId = Swish.propRankId then
    let digits := intToString result.percent
    pure (List.replicate (3 - digits.length) 32 ++ digits ++ [48])
  else if propId = Swish.propMtimeId then do
    pure (result.timeFormat (← stringToInt (result.getValue propId)))
  else pure (result.getValue propId)

/-- The loop of `search` over a template, at the `i`-th placeholder.  Behind the filled part the
array has no id for it. -/
def printTemplate (result : SearchResult) (props : List Int) : (i : Nat) → XmlStr → Swish XmlStr
  | _, [] => .ok []
  | i, c :: rest =>
    if c = propOutputPlaceholder then
      match props[i]? with
      | none => .error (.fault .outOfBounds)
      | some propId => do
        let text ← result.propText propId
        pure (text ++ (← printTemplate result props (i + 1) rest))
    else do
      pure (c :: (← printTemplate result props i rest))

/-- One result; the template ends at its first NUL. -/
def printResult (result : SearchResult) (of : OutputFormat) : Swish XmlStr :=
  printTemplate result of.props 0 (cstr of.tmpl)

/-! ## Formats that are filled -/

/-- The template is read to its NUL and not beyond, however much time there is; its placeholders
are as many as its ids, and no result reads an id that is not there. -/
structure FormatFilled (properties : HashTable Property) (tmpl : XmlStr) (of : OutputFormat) :
    Prop where
  builds : ∀ fuel, tmpl.length < fuel → buildOutputFormat properties fuel tmpl = .ok of
  count : of.tmpl.count propOutputPlaceholder = of.props.length
  prints : ∀ result : SearchResult, printResult result of ≠ .error (.fault .outOfBounds)

/-- Every name is closed by `>` or white space, and neither the text nor an escape has the byte
of the placeholder: an escaped character is no such byte and a number does not end in it. -/
inductive PlainTemplate : XmlStr → Prop
  | nil : PlainTemplate []
  | name {rest next : XmlStr} {d : XmlChar} :
      (strSkipWs rest).dropWhile (fun c => !isDelim c) = d :: next → PlainTemplate next →
      PlainTemplate (60 :: rest)
  | escapeEnd : PlainTemplate [92]
  | escapeChar {c : XmlChar} {rest : XmlStr} : c ≠ 120 → c ≠ 48 → c ≠ propOutputPlaceholder →
      PlainTemplate rest → PlainTemplate (92 :: c :: rest)
  | escapeHex {rest next : XmlStr} {n : Nat} : strtoul 16 isHexDigit rest = (n, next) →
      n.toUInt8 ≠ propOutputPlaceholder → PlainTemplate next → PlainTemplate (92 :: 120 :: rest)
  | escapeOctal {rest next : XmlStr} {n : Nat} : strtoul 8 octalDigit (48 :: rest) = (n, next) →
      n.toUInt8 ≠ propOutputPlaceholder → PlainTemplate next → PlainTemplate (92 :: 48 :: rest)
  | literal {c : XmlChar} {rest : XmlStr} : c ≠ 60 → c ≠ 92 → c ≠ propOutputPlaceholder →
      PlainTemplate rest → PlainTemplate (c :: rest)

/-! ## Escapes -/

section Escapes

variable {c : XmlChar} {s rest : XmlStr} {base : Nat} {isDigit : XmlChar → Bool}

theorem length_strtoulDigits_le : (strtoulDigits base isDigit s).length ≤ s.length := by
  have hsign : (if s.head? = some 45 ∨ s.head? = some 43 then s.tail else s).length ≤ s.length := by
    split
    · rw [List.length_tail]
      omega
    · exact Nat.le_refl _
  rw [strtoulDigits]
  split
  · rename_i x d rest hunsigned
    rw [hunsigned] at hsign
    split
    · simp only [List.length_cons] at hsign ⊢
      omega
    · rw [hunsigned]
      exact hsign
  · exact hsign

/-- A number ends in the text. -/
theorem length_strtoul_le : (strtoul base isDigit s).2.length ≤ s.length := by
  rw [strtoul]
  split
  · exact Nat.le_refl _
  · calc ((strtoulDigits base isDigit (strSkipWs s)).dropWhile isDigit).length
        ≤ (strtoulDigits base isDigit (strSkipWs s)).length := (List.dropWhile_sublist _).length_le
      _ ≤ (strSkipWs s).length := length_strtoulDigits_le
      _ ≤ s.length := (List.dropWhile_sublist _).length_le

/-- An escape that is no number is one character. -/
theorem cEscapedChar_char (rest : XmlStr) (hx : c ≠ 120) (hzero : c ≠ 48) :
    ∃ b, cEscapedChar (c :: rest) = (b, rest) ∧
      (b = propOutputPlaceholder ↔ c = propOutputPlaceholder) := by
  have hletter : ∀ letter b : XmlChar, c = letter → letter ≠ propOutputPlaceholder →
      b ≠ propOutputPlaceholder → ∃ b', (b, rest) = (b', rest) ∧
        (b' = propOutputPlaceholder ↔ c = propOutputPlaceholder) := by
    rintro letter b rfl hc hb
    exact ⟨b, rfl, iff_of_false hb hc⟩
  rw [cEscapedChar]
  split_ifs with ha hb hf hn hr ht hv
  · exact hletter 97 7 ha (by decide) (by decide)
  · exact hletter 98 8 hb (by decide) (by decide)
  · exact hletter 102 12 hf (by decide) (by decide)
  · exact hletter 110 10 hn (by decide) (by decide)
  · exact hletter 114 13 hr (by decide) (by decide)
  · exact hletter 116 9 ht (by decide) (by decide)
  · exact hletter 118 11 hv (by decide) (by decide)
  · exact ⟨c, rfl, Iff.rfl⟩

theorem cEscapedChar_hex : cEscapedChar (120 :: rest) =
    ((strtoul 16 isHexDigit rest).1.toUInt8, (strtoul 16 isHexDigit rest).2) := rfl

theorem cEscapedChar_octal : cEscapedChar (48 :: rest) =
    ((strtoul 8 octalDigit (48 :: rest)).1.toUInt8, (strtoul 8 octalDigit (48 :: rest)).2) := rfl

theorem length_cEscapedChar_le : (cEscapedChar s).2.length ≤ s.length := by
  cases s with
  | nil => exact Nat.le_refl _
  | cons c rest =>
      by_cases hx : c = 120
      · rw [hx, cEscapedChar_hex, List.length_cons]
        exact Nat.le_succ_of_le length_strtoul_le
      by_cases hzero : c = 48
      · rw [hzero, cEscapedChar_octal]
        exact length_strtoul_le
      obtain ⟨b, heq, -⟩ := cEscapedChar_char rest hx hzero
      rw [heq, List.length_cons]
      exact Nat.le_succ _

/-- What the grammar says of an escape, in terms of the function that reads it. -/
theorem plain_escape_iff : PlainTemplate (92 :: s) ↔
    (cEscapedChar s).1 ≠ propOutputPlaceholder ∧ PlainTemplate (cEscapedChar s).2 := by
  cases s with
  | nil => exact iff_of_true .escapeEnd ⟨by decide, .nil⟩
  | cons c rest =>
      by_cases hx : c = 120
      · subst hx
        rw [cEscapedChar_hex]
        constructor
        · rintro (_ | _ | _ | ⟨hx, -, -, -⟩ | ⟨heq, hne, hnext⟩ | _ | ⟨-, h, -, -⟩)
          · exact absurd rfl hx
          · rw [heq]
            exact ⟨hne, hnext⟩
          · exact absurd rfl h
        · rintro ⟨hne, hnext⟩
          exact .escapeHex rfl hne hnext
      by_cases hzero : c = 48
      · subst hzero
        rw [cEscapedChar_octal]
        constructor
        · rintro (_ | _ | _ | ⟨-, hzero, -, -⟩ | _ | ⟨heq, hne, hnext⟩ | ⟨-, h, -, -⟩)
          · exact absurd rfl hzero
          · rw [heq]
            exact ⟨hne, hnext⟩
          · exact absurd rfl h
        · rintro ⟨hne, hnext⟩
          exact .escapeOctal rfl hne hnext
      obtain ⟨b, heq, hb⟩ := cEscapedChar_char rest hx hzero
      rw [heq]
      constructor
      · rintro (_ | _ | _ | ⟨-, -, hne, hrest⟩ | _ | _ | ⟨-, h, -, -⟩)
        · exact ⟨fun h => hne (hb.mp h), hrest⟩
        · exact absurd rfl hx
        · exact absurd rfl hzero
        · exact absurd rfl h
      · rintro ⟨hne, hrest⟩
        exact .escapeChar hx hzero (fun h => hne (hb.mpr h)) hrest

end Escapes

/-! ## The loop over a template -/

section Loop

variable {properties : HashTable Property} {fuel fuel' : Nat} {of : OutputFormat} {c : XmlChar}
  {rest tmpl : XmlStr}

/-- What is left behind a name is shorter than the template. -/
theorem length_delim_lt {d : XmlChar} {next : XmlStr}
    (h : (strSkipWs rest).dropWhile (fun c => !isDelim c) = d :: next) :
    next.length < rest.length := by
  have hdrop := (List.dropWhile_suffix (l := strSkipWs rest) fun c => !isDelim c).length_le
  have hskip : (strSkipWs rest).length ≤ rest.length := (List.dropWhile_suffix _).length_le
  rw [h, List.length_cons] at hdrop
  omega

/-! What one turn of the loop does. -/

theorem buildOutputLoop_name : buildOutputLoop properties (fuel + 1) of (60 :: rest) =
    propertyGetId ((strSkipWs rest).takeWhile fun d => !isDelim d) properties >>= fun propId =>
      if of.props.length = maxOutputProps then
        croak [lit "Max number of PropertyNames reached in output template: ",
          natToString maxOutputProps]
      else
        match (strSkipWs rest).dropWhile fun d => !isDelim d with
        | [] => .error (.fault .outOfBounds)
        | _ :: rest => buildOutputLoop properties fuel (of.addProp propId) rest := by
  rw [buildOutputLoop, if_pos rfl]

theorem buildOutputLoop_escape : buildOutputLoop properties (fuel + 1) of (92 :: rest) =
    buildOutputLoop properties fuel (of.addChar (cEscapedChar rest).1) (cEscapedChar rest).2 := rfl

theorem buildOutputLoop_literal (hname : c ≠ 60) (hescape : c ≠ 92) :
    buildOutputLoop properties (fuel + 1) of (c :: rest) =
      buildOutputLoop properties fuel (of.addChar c) rest := by
  rw [buildOutputLoop, if_neg hname, if_neg hescape]

/-- More time than there is text to read makes no difference. -/
theorem buildOutputLoop_fuel (hfuel : rest.length < fuel) (hfuel' : rest.length < fuel') :
    buildOutputLoop properties fuel of rest = buildOutputLoop properties fuel' of rest := by
  induction fuel generalizing fuel' of rest with
  | zero => omega
  | succ fuel ih =>
      obtain ⟨fuel', rfl⟩ := Nat.exists_eq_succ_of_ne_zero (Nat.ne_of_gt (Nat.zero_lt_of_lt hfuel'))
      cases rest with
      | nil => rfl
      | cons c rest =>
          rw [List.length_cons] at hfuel hfuel'
          by_cases hname : c = 60
          · subst hname
            rw [buildOutputLoop_name, buildOutputLoop_name]
            refine congrArg _ (funext fun propId => ?_)
            cases hdrop : (strSkipWs rest).dropWhile (fun d => !isDelim d) with
            | nil => rfl
            | cons d next =>
                have hlt := length_delim_lt hdrop
                exact congrArg _ (ih (by omega) (by omega))
          by_cases hescape : c = 92
          · have hle := length_cEscapedChar_le (s := rest)
            subst hescape
            rw [buildOutputLoop_escape, buildOutputLoop_escape]
            exact ih (by omega) (by omega)
          · rw [buildOutputLoop_literal hname hescape, buildOutputLoop_literal hname hescape]
            exact ih (by omega) (by omega)

/-- `k` placeholders more than ids came to a format. -/
def Strays (of of' : OutputFormat) (k : Nat) : Prop :=
  of'.tmpl.count propOutputPlaceholder + of.props.length =
    of.tmpl.count propOutputPlaceholder + of'.props.length + k

theorem strays_addProp (propId : Int) : Strays of (of.addProp propId) 0 := by
  simp only [Strays, OutputFormat.addProp, List.count_append, List.length_append,
    List.length_singleton, List.count_singleton_self]
  omega

theorem strays_addChar (c : XmlChar) :
    Strays of (of.addChar c) (if c = propOutputPlaceholder then 1 else 0) := by
  simp only [Strays, OutputFormat.addChar, List.count_append, List.count_singleton, beq_iff_eq]
  split <;> omega

theorem Strays.trans {of₁ of₂ of₃ : OutputFormat} {j k : Nat} (h₁ : Strays of₁ of₂ j)
    (h₂ : Strays of₂ of₃ k) : Strays of₁ of₃ (j + k) := by
  simp only [Strays] at h₁ h₂ ⊢
  omega

/-- How the loop ends: it stops the process over a name or over the number of names, it leaves the
template, or it returns with no stray placeholder if and only if the rest of the template is
plain. -/
def LoopEnds (of : OutputFormat) (rest : XmlStr) (result : Swish OutputFormat) : Prop :=
  (∃ msg, result = .error (.croak msg)) ∨
    (result = .error (.fault .outOfBounds) ∧ ¬ PlainTemplate rest) ∨
    ∃ of' k, result = .ok of' ∧ Strays of of' k ∧ (k = 0 ↔ PlainTemplate rest)

theorem LoopEnds.step {of₁ of₂ : OutputFormat} {next : XmlStr} {result : Swish OutputFormat}
    {j : Nat} (hstrays : Strays of₁ of₂ j)
    (hplain : PlainTemplate rest ↔ j = 0 ∧ PlainTemplate next)
    (h : LoopEnds of₂ next result) : LoopEnds of₁ rest result := by
  rcases h with hcroak | ⟨hfault, hnext⟩ | ⟨of', k, hok, hk, hiff⟩
  · exact .inl hcroak
  · exact .inr (.inl ⟨hfault, fun h => hnext (hplain.mp h).2⟩)
  · refine .inr (.inr ⟨of', j + k, hok, hstrays.trans hk, ?_⟩)
    rw [hplain, ← hiff]
    omega

theorem plain_name_iff : PlainTemplate (60 :: rest) ↔
    ∃ d next, (strSkipWs rest).dropWhile (fun c => !isDelim c) = d :: next ∧
      PlainTemplate next := by
  constructor
  · rintro (_ | ⟨hdrop, hnext⟩ | _ | _ | _ | _ | ⟨h, -, -, -⟩)
    · exact ⟨_, _, hdrop, hnext⟩
    · exact absurd rfl h
  · rintro ⟨d, next, hdrop, hnext⟩
    exact .name hdrop hnext

theorem plain_literal_iff (hname : c ≠ 60) (hescape : c ≠ 92) :
    PlainTemplate (c :: rest) ↔ c ≠ propOutputPlaceholder ∧ PlainTemplate rest := by
  constructor
  · rintro (_ | _ | _ | _ | _ | _ | ⟨-, -, hne, hrest⟩)
    · exact absurd rfl hname
    · exact absurd rfl hescape
    · exact absurd rfl hescape
    · exact absurd rfl hescape
    · exact absurd rfl hescape
    · exact ⟨hne, hrest⟩
  · rintro ⟨hne, hrest⟩
    exact .literal hname hescape hne hrest

theorem propertyGetId_cases (properties : HashTable Property) (propname : XmlStr) :
    (∃ msg, propertyGetId propname properties = .error (.croak msg)) ∨
      ∃ propId, propertyGetId propname properties = .ok propId := by
  rw [propertyGetId]
  split
  · exact .inr ⟨_, rfl⟩
  · split
    · exact .inr ⟨_, rfl⟩
    · exact .inl ⟨_, rfl⟩

theorem strays_addChar_zero_iff :
    (if c = propOutputPlaceholder then 1 else 0) = 0 ↔ c ≠ propOutputPlaceholder := by
  split <;> simp_all

theorem buildOutputLoop_ends (hfuel : rest.length < fuel) :
    LoopEnds of rest (buildOutputLoop properties fuel of rest) := by
  induction fuel generalizing of rest with
  | zero => omega
  | succ fuel ih =>
      cases rest with
      | nil => exact .inr (.inr ⟨of, 0, rfl, rfl, iff_of_true rfl .nil⟩)
      | cons c rest =>
          rw [List.length_cons] at hfuel
          by_cases hname : c = 60
          · subst hname
            rw [buildOutputLoop_name]
            rcases propertyGetId_cases properties
                ((strSkipWs rest).takeWhile fun d => !isDelim d) with ⟨msg, hcroak⟩ | ⟨propId, hid⟩
            · rw [hcroak]
              exact .inl ⟨msg, rfl⟩
            rw [hid, ok_bind]
            by_cases hfull : of.props.length = maxOutputProps
            · rw [if_pos hfull]
              exact .inl ⟨_, rfl⟩
            rw [if_neg hfull]
            cases hdrop : (strSkipWs rest).dropWhile (fun d => !isDelim d) with
            | nil =>
                refine .inr (.inl ⟨rfl, fun h => ?_⟩)
                obtain ⟨d, next, hcons, -⟩ := plain_name_iff.mp h
                rw [hdrop] at hcons
                cases hcons
            | cons d next =>
                have hlt := length_delim_lt hdrop
                refine (ih (by omega)).step (strays_addProp propId) ?_
                rw [plain_name_iff, hdrop]
                simp
          by_cases hescape : c = 92
          · have hle := length_cEscapedChar_le (s := rest)
            subst hescape
            rw [buildOutputLoop_escape]
            refine (ih (by omega)).step (strays_addChar _) ?_
            rw [plain_escape_iff, strays_addChar_zero_iff]
          · rw [buildOutputLoop_literal hname hescape]
            refine (ih (by omega)).step (strays_addChar c) ?_
            rw [plain_literal_iff hname hescape, strays_addChar_zero_iff]

end Loop

/-! ## The loop over a result -/

section Print

variable {result : SearchResult} {props : List Int}

theorem propText_ne_fault (propId : Int) (why : Fault) :
    result.propText propId ≠ .error (.fault why) := by
  rw [SearchResult.propText]
  split
  · intro h
    cases h
  split
  · intro h
    rw [stringToInt] at h
    split at h
    · cases h
    · cases h
  · intro h
    cases h

/-- With an id for every placeholder that is left, none is read outside of the array. -/
theorem printTemplate_ne_fault (s : XmlStr) (i : Nat)
    (h : i + s.count propOutputPlaceholder ≤ props.length) :
    printTemplate result props i s ≠ .error (.fault .outOfBounds) := by
  induction s generalizing i with
  | nil =>
      intro hfault
      cases hfault
  | cons c rest ih =>
      rw [List.count_cons] at h
      rw [printTemplate]
      by_cases hc : c = propOutputPlaceholder
      · rw [if_pos (by simpa using hc)] at h
        have htail := ih (i + 1) (by omega)
        rw [if_pos hc, List.getElem?_eq_getElem (by omega)]
        intro hfault
        cases htext : result.propText props[i] with
        | error e =>
            simp only [htext, error_bind, Except.error.injEq] at hfault
            exact propText_ne_fault _ _ (hfault ▸ htext)
        | ok text =>
            simp only [htext, ok_bind] at hfault
            cases hrest : printTemplate result props (i + 1) rest with
            | error e =>
                simp only [hrest, error_bind, Except.error.injEq] at hfault
                exact htail (hfault ▸ hrest)
            | ok out =>
                rw [hrest] at hfault
                cases hfault
      · have htail := ih i (by omega)
        rw [if_neg hc]
        intro hfault
        cases hrest : printTemplate result props i rest with
        | error e =>
            simp only [hrest, error_bind, Except.error.injEq] at hfault
            exact htail (hfault ▸ hrest)
        | ok out =>
            rw [hrest] at hfault
            cases hfault

theorem printResult_ne_fault {of : OutputFormat}
    (h : of.tmpl.count propOutputPlaceholder ≤ of.props.length) :
    printResult result of ≠ .error (.fault .outOfBounds) := by
  refine printTemplate_ne_fault _ 0 ?_
  have hle := (List.takeWhile_sublist (p := (· ≠ 0)) (l := of.tmpl)).count_le
    propOutputPlaceholder
  rw [Nat.zero_add]
  exact hle.trans h

end Print

/-! ## The templates that fill a format -/

section Filled

variable {properties : HashTable Property} {tmpl : XmlStr}

/-- **A template that does not stop the process fills the format if and only if it is plain.** -/
theorem formatFilled_iff
    (hcroak : ∀ fuel msg, buildOutputFormat properties fuel tmpl ≠ .error (.croak msg)) :
    (∃ of, FormatFilled properties tmpl of) ↔ PlainTemplate tmpl := by
  have hends : LoopEnds ⟨[], []⟩ tmpl
      (buildOutputLoop properties (tmpl.length + 1) ⟨[], []⟩ tmpl) :=
    buildOutputLoop_ends (Nat.lt_succ_self tmpl.length)
  rcases hends with ⟨msg, hmsg⟩ | ⟨hfault, hplain⟩ | ⟨of', k, hok, hstrays, hiff⟩
  · exact absurd hmsg (hcroak _ msg)
  · refine iff_of_false ?_ hplain
    rintro ⟨of, hfilled⟩
    have hbuilds := hfilled.builds _ (Nat.lt_succ_self tmpl.length)
    rw [buildOutputFormat, hfault] at hbuilds
    cases hbuilds
  · have hcount : of'.tmpl.count propOutputPlaceholder = of'.props.length + k := by
      simpa [Strays] using hstrays
    rw [← hiff]
    constructor
    · rintro ⟨of, hfilled⟩
      have hbuilds := hfilled.builds _ (Nat.lt_succ_self tmpl.length)
      rw [buildOutputFormat, hok] at hbuilds
      have hsame := hfilled.count
      rw [← Except.ok.inj hbuilds, hcount] at hsame
      omega
    · rintro rfl
      refine ⟨of', ?_, hcount, fun result => printResult_ne_fault (Nat.le_of_eq hcount)⟩
      intro fuel hfuel
      rw [buildOutputFormat, buildOutputLoop_fuel hfuel (Nat.lt_succ_self _), hok]

end Filled

section Examples

theorem buildOutputFormat_docpath (n : Nat) :
    buildOutputFormat ∅ (n + 3) (lit "<swishdocpath>\\n") =
      .ok ⟨[propOutputPlaceholder, 10], [Swish.propDocpathId]⟩ := rfl

/-- A name and an escape. -/
theorem formatFilled_docpath :
    PlainTemplate (lit "<swishdocpath>\\n") ∧
      ∃ of, FormatFilled ∅ (lit "<swishdocpath>\\n") of := by
  have hplain : PlainTemplate (lit "<swishdocpath>\\n") :=
    .name (show (strSkipWs (lit "swishdocpath>\\n")).dropWhile (fun c => !isDelim c) =
      62 :: lit "\\n" from rfl) (.escapeChar (by decide) (by decide) (by decide) .nil)
  refine ⟨hplain, (formatFilled_iff ?_).mpr hplain⟩
  intro fuel msg
  match fuel with
  | 0 | 1 | 2 => nofun
  | n + 3 =>
      rw [buildOutputFormat_docpath]
      nofun

/-- A name without its `>`, and an escape that is the placeholder: neither stops the process. -/
theorem not_formatFilled :
    ((∀ fuel msg, buildOutputFormat ∅ fuel (lit "<swishdocpath") ≠ .error (.croak msg)) ∧
      ¬ ∃ of, FormatFilled ∅ (lit "<swishdocpath") of) ∧
    (∀ fuel msg, buildOutputFormat ∅ fuel (lit "\\x3") ≠ .error (.croak msg)) ∧
      ¬ ∃ of, FormatFilled ∅ (lit "\\x3") of := by
  have hopen : ∀ n, buildOutputFormat ∅ (n + 1) (lit "<swishdocpath") =
      .error (.fault .outOfBounds) := fun n => rfl
  have hstray : ∀ n, buildOutputFormat ∅ (n + 2) (lit "\\x3") =
      .ok ⟨[propOutputPlaceholder], []⟩ := fun n => rfl
  refine ⟨⟨?_, ?_⟩, ?_, ?_⟩
  · intro fuel msg
    match fuel with
    | 0 => nofun
    | n + 1 =>
        rw [hopen]
        nofun
  · rintro ⟨of, hfilled⟩
    have hbuilds := hfilled.builds 20 (by decide)
    rw [hopen] at hbuilds
    cases hbuilds
  · intro fuel msg
    match fuel with
    | 0 | 1 => nofun
    | n + 2 =>
        rw [hstray]
        nofun
  · rintro ⟨of, hfilled⟩
    have hbuilds := hfilled.builds 20 (by decide)
    have hcount := hfilled.count
    rw [hstray] at hbuilds
    rw [← Except.ok.inj hbuilds] at hcount
    cases hcount

end Examples

end LibSwish3
