import Mathlib.Data.List.GetD
import LibSwish3.Numerals
import LibSwish3.Utf8Chars

/-!
# Cursors on UTF-8 text

`swish_utf8_next_chr` and `swish_utf8_prev_chr` move an `int` from one character of a text to the
next or to the one before: they pass bytes until one starts a character, at most four.  From either
end of a valid text they stop at its character boundaries and nowhere else, and the length and the
code point of the character between two of them are computed from its bytes.

## Main definitions

* `u8Inc`, `u8Dec`, `utf8NextChr`, `utf8PrevChr` — one move.
* `visitNext`, `visitPrev` — the stops of a cursor.
* `boundaries`, `CursorsAgree`.
* `cursorsAgree`, `length_lt_of_cursorsAgree`.
-/

namespace LibSwish3

open Runs

/-! ## One move -/

/-- `s[i]`; the NUL stands at the length of `s`, and nothing in front of or behind it is read. -/
def byteAt (s : XmlStr) (i : Int) : Swish XmlChar :=
  if 0 ≤ i ∧ i ≤ s.length then .ok (s.getD i.toNat 0) else .error (.fault .outOfBounds)

/-- `isutf(s[move i]) || … || move i`: so many moves with a look at the byte, then one without. -/
def u8Move (move : Int → Int) (s : XmlStr) : (looks : Nat) → Int → Swish Int
  | 0, i => pure (move i)
  | looks + 1, i => do
    if isutf (← byteAt s (move i)) then pure (move i) else u8Move move s looks (move i)

/-- `++(*i)`.  Behind the largest `int` it leaves every text. -/
def intSucc (i : Int) : Int := toInt (i + 1)

/-- `--(*i)`. -/
def intPred (i : Int) : Int := toInt (i - 1)

def u8Inc (s : XmlStr) (i : Int) : Swish Int := u8Move intSucc s 3 i

def u8Dec (s : XmlStr) (i : Int) : Swish Int := u8Move intPred s 3 i

def utf8NextChr (s : XmlStr) (i : Int) : Swish Int := u8Inc s i

def utf8PrevChr (s : XmlStr) (i : Int) : Swish Int := u8Dec s i

/-- Where a cursor stands that goes on to the NUL. -/
def visitNext (s : XmlStr) : (fuel : Nat) → Int → Swish (List Int)
  | 0, _ => .error .outOfFuel
  | fuel + 1, i => do
    if (← byteAt s i) = 0 then pure [i]
    else do
      let next ← utf8NextChr s i
      let stops ← visitNext s fuel next
      pure (i :: stops)

/-- Where a cursor stands that goes back while it is positive. -/
def visitPrev (s : XmlStr) : (fuel : Nat) → Int → Swish (List Int)
  | 0, _ => .error .outOfFuel
  | fuel + 1, i =>
    if 0 < i then do
      let prev ← utf8PrevChr s i
      let stops ← visitPrev s fuel prev
      pure (i :: stops)
    else pure [i]

/-! ## The boundaries -/

/-- Where character `k` starts. -/
def boundary (ws : List Nat) (k : Nat) : Nat := ((ws.take k).flatMap encodeChar).length

/-- The starts of the characters and the end of the text. -/
def boundaries (ws : List Nat) : List Int :=
  (List.range (ws.length + 1)).map fun k => (boundary ws k : Int)

/-- The cursors, the lengths and the code points agree on the text that the characters make. -/
structure CursorsAgree (ws : List Nat) : Prop where
  forward : ∀ fuel, ws.length < fuel →
    visitNext (ws.flatMap encodeChar) fuel 0 = .ok (boundaries ws)
  backward : ∀ fuel, ws.length < fuel →
    visitPrev (ws.flatMap encodeChar) fuel (toInt (ws.flatMap encodeChar).length) =
      .ok (boundaries ws).reverse
  /-- It makes no difference whether the slice is copied or the text goes on behind it. -/
  slice : ∀ k c, ws[k]? = some c →
    ∀ s ∈ [((ws.flatMap encodeChar).drop (boundary ws k)).take
          (boundary ws (k + 1) - boundary ws k),
        (ws.flatMap encodeChar).drop (boundary ws k)],
      utf8ChrLen s = .ok (boundary ws (k + 1) - boundary ws k) ∧ utf8Codepoint s = .ok c

/-! ## What a move passes -/

section Moves

variable {s p t rest : XmlStr} {b x : XmlChar} {n : Nat}

/-- A byte of a text or its NUL. -/
theorem byteAt_eq (h : s ++ [0] = p ++ x :: t) (hn : n = p.length) : byteAt s n = .ok x := by
  have hlength := congrArg List.length h
  simp only [List.length_append, List.length_cons, List.length_nil] at hlength
  subst hn
  rw [byteAt, if_pos ⟨by omega, by omega⟩, Int.toNat_natCast]
  have hget : (s ++ [0]).getD p.length 0 = x := by simp [h]
  by_cases hlt : p.length < s.length
  · rw [List.getD_append _ _ _ _ hlt] at hget
    rw [hget]
  · rw [List.getD_append_right _ _ _ _ (by omega)] at hget
    rw [List.getD_eq_default _ _ (by omega), ← hget,
      (by omega : p.length - s.length = 0), List.getD_cons_zero]

theorem intSucc_natCast (h : n + 1 < 2 ^ 31) : intSucc n = ((n + 1 : Nat) : Int) :=
  toInt_of_isInt ⟨by omega, by omega⟩

theorem intPred_natCast (h : n + 1 < 2 ^ 31) : intPred ((n + 1 : Nat) : Int) = n := by
  rw [intPred, toInt_of_isInt ⟨by omega, by omega⟩]
  omega

/-- A look at a byte that continues a character goes on, and one at a byte that starts one ends
the move. -/
theorem u8Move_succ {move : Int → Int} {looks : Nat} {i : Int} (hmove : move i = n)
    (h : s ++ [0] = p ++ x :: t) (hn : n = p.length) :
    u8Move move s (looks + 1) i = if isutf x then .ok (n : Int) else u8Move move s looks n := by
  rw [u8Move, hmove, byteAt_eq h hn, ok_bind]
  rfl

/-- Going on passes the bytes that continue a character. -/
theorem u8Move_next {looks : Nat} (hmax : s.length < 2 ^ 31) (hx : isutf x = true)
    (hrest : ∀ d ∈ rest, isutf d = false) (hlooks : rest.length ≤ looks)
    (h : s ++ [0] = p ++ (rest ++ x :: t)) (hn : n + 1 = p.length) :
    u8Move intSucc s looks n = .ok ((p.length + rest.length : Nat) : Int) := by
  have hsize := congrArg List.length h
  simp only [List.length_append, List.length_cons, List.length_nil] at hsize
  have hmove : intSucc n = (p.length : Nat) := by
    rw [intSucc_natCast (by omega), hn]
  induction looks generalizing p rest n with
  | zero =>
      obtain rfl := List.length_eq_zero_iff.mp (Nat.le_zero.mp hlooks)
      exact congrArg Except.ok hmove
  | succ looks ih =>
      cases rest with
      | nil =>
          rw [u8Move_succ hmove h rfl, if_pos hx]
          rfl
      | cons d rest =>
          have hd : isutf d = false := hrest d List.mem_cons_self
          rw [List.length_cons] at hlooks hsize
          rw [u8Move_succ hmove h rfl, if_neg (by rw [hd]; exact Bool.false_ne_true),
            ih (p := p ++ [d])
              (fun e he => hrest e (List.mem_cons_of_mem d he)) (by omega) (by simpa using h)
              (by simp) (by simp; omega)
              (by rw [intSucc_natCast (by omega), List.length_append, List.length_singleton])]
          refine congrArg (fun n : Nat => Except.ok (n : Int)) ?_
          simp only [List.length_append, List.length_cons, List.length_nil]
          omega

/-- Going back passes them too, and the byte that starts the character is where it ends. -/
theorem u8Move_prev {looks : Nat} (hmax : s.length < 2 ^ 31) (hb : isutf b = true)
    (hrest : ∀ d ∈ rest, isutf d = false) (hlooks : rest.length ≤ looks)
    (h : s ++ [0] = p ++ b :: (rest ++ t)) (ht : t ≠ []) :
    u8Move intPred s looks ((p.length + rest.length + 1 : Nat) : Int) =
      .ok (p.length : Int) := by
  have hsize := congrArg List.length h
  have hpos := List.length_pos_iff.mpr ht
  simp only [List.length_append, List.length_cons, List.length_nil] at hsize
  have hmove : intPred ((p.length + rest.length + 1 : Nat) : Int) =
      (p.length + rest.length : Nat) := intPred_natCast (by omega)
  induction rest using List.reverseRecOn generalizing t looks with
  | nil =>
      cases looks with
      | zero => exact congrArg Except.ok hmove
      | succ looks =>
          rw [u8Move_succ hmove h rfl, if_pos hb]
          rfl
  | append_singleton rest d ih =>
      have hd : isutf d = false := hrest d (by simp)
      rw [List.length_append, List.length_singleton] at hlooks hsize hmove ⊢
      cases looks with
      | zero => omega
      | succ looks =>
          rw [u8Move_succ (p := p ++ b :: rest) (x := d) (t := t) hmove (by rw [h]; simp)
            (by simp), if_neg (by rw [hd]; exact Bool.false_ne_true)]
          exact ih (t := d :: t) (fun e he => hrest e (by simp [he])) (by omega)
            (by rw [h]; simp) (List.cons_ne_nil d t) (by simp) (by simp; omega)
            (intPred_natCast (by omega))

end Moves

/-! ## From boundary to boundary -/

section Boundaries

variable {ws : List Nat} {c k : Nat}

/-- The text around character `k`. -/
theorem flatMap_split (hk : ws[k]? = some c) : ws.flatMap encodeChar =
    (ws.take k).flatMap encodeChar ++ (encodeChar c ++ (ws.drop (k + 1)).flatMap encodeChar) := by
  obtain ⟨hlt, rfl⟩ := List.getElem?_eq_some_iff.mp hk
  rw [← List.flatMap_cons, ← List.drop_eq_getElem_cons hlt, ← List.flatMap_append,
    List.take_append_drop]

theorem boundary_zero : boundary ws 0 = 0 := rfl

theorem boundary_length : boundary ws ws.length = (ws.flatMap encodeChar).length := by
  rw [boundary, List.take_length]

theorem boundary_succ (hk : ws[k]? = some c) :
    boundary ws (k + 1) = boundary ws k + (encodeChar c).length := by
  rw [boundary, List.take_add_one, hk, List.flatMap_append, List.length_append, boundary]
  simp

/-- A boundary is followed by the start of a character or by the NUL. -/
theorem isutf_head_drop (hws : ∀ c ∈ ws, isScalar c) (k : Nat) :
    ∃ x t, (ws.drop k).flatMap encodeChar ++ [0] = x :: t ∧ isutf x = true := by
  cases hdrop : ws.drop k with
  | nil => exact ⟨0, [], rfl, rfl⟩
  | cons d vs =>
      have hd : d ∈ ws := List.mem_of_mem_drop (hdrop ▸ List.mem_cons_self)
      obtain ⟨b, rest, heq, hb, -⟩ := encodeChar_eq_cons (hws d hd)
      exact ⟨b, rest ++ (vs.flatMap encodeChar ++ [0]), by simp [heq], hb⟩

variable (hws : ∀ c ∈ ws, isScalar c) (hmax : (ws.flatMap encodeChar).length < 2 ^ 31)

include hws hmax

theorem utf8NextChr_boundary (hk : ws[k]? = some c) :
    utf8NextChr (ws.flatMap encodeChar) (boundary ws k) = .ok (boundary ws (k + 1) : Int) := by
  obtain ⟨b, rest, heq, -, hrest, hlen⟩ := encodeChar_eq_cons (hws c (List.mem_of_getElem? hk))
  obtain ⟨x, t, hnext, hx⟩ := isutf_head_drop hws (k + 1)
  have htext : ws.flatMap encodeChar ++ [0] =
      ((ws.take k).flatMap encodeChar ++ [b]) ++ (rest ++ x :: t) := by
    rw [flatMap_split hk, heq, ← hnext]
    simp
  rw [utf8NextChr, u8Inc, boundary,
    u8Move_next hmax hx hrest hlen htext (by simp), boundary_succ hk, boundary, heq]
  refine congrArg (fun n : Nat => Except.ok (n : Int)) ?_
  simp only [List.length_append, List.length_cons, List.length_nil]
  omega

theorem utf8PrevChr_boundary (hk : ws[k]? = some c) :
    utf8PrevChr (ws.flatMap encodeChar) (boundary ws (k + 1)) = .ok (boundary ws k : Int) := by
  obtain ⟨b, rest, heq, hb, hrest, hlen⟩ := encodeChar_eq_cons (hws c (List.mem_of_getElem? hk))
  have htext : ws.flatMap encodeChar ++ [0] = (ws.take k).flatMap encodeChar ++
      b :: (rest ++ ((ws.drop (k + 1)).flatMap encodeChar ++ [0])) := by
    rw [flatMap_split hk, heq]
    simp
  have hmove := u8Move_prev hmax hb hrest hlen htext (by simp)
  rw [utf8PrevChr, u8Dec, boundary_succ hk, heq, List.length_cons, ← Nat.add_assoc]
  exact hmove

end Boundaries

/-! ## A whole walk -/

section Walks

variable {ws : List Nat} {c k m fuel : Nat}

/-- At a character the cursor sees no NUL. -/
theorem byteAt_boundary (hws : ∀ c ∈ ws, isScalar c ∧ c ≠ 0) (hk : ws[k]? = some c) :
    ∃ b, byteAt (ws.flatMap encodeChar) (boundary ws k) = .ok b ∧ b ≠ 0 := by
  obtain ⟨hscalar, hne⟩ := hws c (List.mem_of_getElem? hk)
  obtain ⟨b, rest, heq, -⟩ := encodeChar_eq_cons hscalar
  refine ⟨b, byteAt_eq (p := (ws.take k).flatMap encodeChar)
    (t := rest ++ ((ws.drop (k + 1)).flatMap encodeChar ++ [0])) ?_ rfl, ?_⟩
  · rw [flatMap_split hk, heq]
    simp
  · rintro rfl
    exact zero_notMem_encodeChar hscalar hne (by rw [heq]; exact List.mem_cons_self)

theorem byteAt_end : byteAt (ws.flatMap encodeChar) (boundary ws ws.length) = .ok 0 :=
  byteAt_eq (p := ws.flatMap encodeChar) (t := []) rfl boundary_length

/-- Every character is at least one byte. -/
theorem boundary_pos (hws : ∀ c ∈ ws, isScalar c) (hk : ws[k]? = some c) :
    0 < boundary ws (k + 1) := by
  have hlength := (length_encodeChar (hws c (List.mem_of_getElem? hk))).1
  rw [boundary_succ hk]
  omega

variable (hws : ∀ c ∈ ws, isScalar c ∧ c ≠ 0) (hmax : (ws.flatMap encodeChar).length < 2 ^ 31)

include hws hmax

/-- From a boundary the cursor goes on to all that follow. -/
theorem visitNext_boundary (hk : k + m = ws.length) (hfuel : m < fuel) :
    visitNext (ws.flatMap encodeChar) fuel (boundary ws k) =
      .ok ((List.range' k (m + 1)).map fun j => (boundary ws j : Int)) := by
  induction m generalizing k fuel with
  | zero =>
      obtain ⟨fuel, rfl⟩ := Nat.exists_eq_succ_of_ne_zero (Nat.ne_of_gt hfuel)
      obtain rfl : k = ws.length := by omega
      rw [visitNext, byteAt_end, ok_bind, if_pos rfl]
      rfl
  | succ m ih =>
      obtain ⟨fuel, rfl⟩ := Nat.exists_eq_succ_of_ne_zero (Nat.ne_of_gt (Nat.zero_lt_of_lt hfuel))
      obtain ⟨c, hc⟩ : ∃ c, ws[k]? = some c := ⟨_, List.getElem?_eq_getElem (by omega)⟩
      obtain ⟨b, hb, hne⟩ := byteAt_boundary hws hc
      rw [visitNext, hb, ok_bind, if_neg hne,
        utf8NextChr_boundary (fun d hd => (hws d hd).1) hmax hc, ok_bind,
        ih (k := k + 1) (by omega) (by omega), ok_bind, List.range'_succ, List.map_cons]
      rfl

/-- From a boundary the cursor goes back to all before it. -/
theorem visitPrev_boundary (hk : k ≤ ws.length) (hfuel : k < fuel) :
    visitPrev (ws.flatMap encodeChar) fuel (boundary ws k) =
      .ok ((List.range (k + 1)).map fun j => (boundary ws j : Int)).reverse := by
  have hscalar : ∀ c ∈ ws, isScalar c := fun d hd => (hws d hd).1
  induction k generalizing fuel with
  | zero =>
      obtain ⟨fuel, rfl⟩ := Nat.exists_eq_succ_of_ne_zero (Nat.ne_of_gt hfuel)
      rw [visitPrev, boundary_zero, if_neg (by simp)]
      rfl
  | succ k ih =>
      obtain ⟨fuel, rfl⟩ := Nat.exists_eq_succ_of_ne_zero (Nat.ne_of_gt (Nat.zero_lt_of_lt hfuel))
      obtain ⟨c, hc⟩ : ∃ c, ws[k]? = some c := ⟨_, List.getElem?_eq_getElem (by omega)⟩
      rw [visitPrev, if_pos (Int.natCast_pos.mpr (boundary_pos hscalar hc)),
        utf8PrevChr_boundary hscalar hmax hc, ok_bind, ih (by omega) (by omega), ok_bind,
        List.range_succ (n := k + 1), List.map_append, List.reverse_append]
      rfl

end Walks

/-! ## One character -/

section Slices

variable {ws : List Nat} {c k : Nat}

/-- The length of a character that was written, whatever stands behind it. -/
theorem utf8ChrLen_encodeChar_append (hc : isScalar c) (s : XmlStr) :
    utf8ChrLen (encodeChar c ++ s) = .ok (encodeChar c).length := by
  refine encodeChar_cases (P := fun t => utf8ChrLen (t ++ s) = .ok t.length) hc
    ?one ?two ?three ?four
  case one =>
    intro h
    simp only [utf8ChrLen, xmlUTF8Size, List.cons_append, List.headD_cons, UInt8.lt_iff_toNat_lt,
      UInt8.reduceToNat, toNat_toUInt8_of_lt (n := c) (by omega)]
    rw [if_pos h]
    rfl
  case two =>
    intro q hq d _ _ _
    simp only [utf8ChrLen, xmlUTF8Size, List.cons_append, List.headD_cons, UInt8.lt_iff_toNat_lt,
      UInt8.reduceToNat, toNat_toUInt8_of_lt (n := 0xC0 + q) (by omega)]
    rw [if_neg (by omega), if_neg (by omega), if_pos (by omega)]
    rfl
  case three =>
    intro q hq d _ e _ _ _
    simp only [utf8ChrLen, xmlUTF8Size, List.cons_append, List.headD_cons, UInt8.lt_iff_toNat_lt,
      UInt8.reduceToNat, toNat_toUInt8_of_lt (n := 0xE0 + q) (by omega)]
    rw [if_neg (by omega), if_neg (by omega), if_neg (by omega), if_pos (by omega)]
    rfl
  case four =>
    intro q hq d _ e _ f _ _ _
    simp only [utf8ChrLen, xmlUTF8Size, List.cons_append, List.headD_cons, UInt8.lt_iff_toNat_lt,
      UInt8.reduceToNat, toNat_toUInt8_of_lt (n := 0xF0 + q) (by omega)]
    rw [if_neg (by omega), if_neg (by omega), if_neg (by omega), if_neg (by omega),
      if_pos (by omega)]
    rfl

/-- Behind a boundary stands its character. -/
theorem drop_boundary (hk : ws[k]? = some c) : (ws.flatMap encodeChar).drop (boundary ws k) =
    encodeChar c ++ (ws.drop (k + 1)).flatMap encodeChar := by
  rw [flatMap_split hk, boundary, List.drop_left]

theorem slice_boundary (hk : ws[k]? = some c) :
    ((ws.flatMap encodeChar).drop (boundary ws k)).take (boundary ws (k + 1) - boundary ws k) =
      encodeChar c := by
  rw [drop_boundary hk, boundary_succ hk, Nat.add_sub_cancel_left, List.take_left]

end Slices

/-- **On every valid text whose length is an `int` the cursors stop at the character boundaries,
each character once and in order, and its length and its code point are what was encoded.** -/
theorem cursorsAgree {ws : List Nat} (hws : ∀ c ∈ ws, isScalar c ∧ c ≠ 0)
    (hmax : (ws.flatMap encodeChar).length < 2 ^ 31) : CursorsAgree ws := by
  refine ⟨?_, ?_, ?_⟩
  · intro fuel hfuel
    have hwalk := visitNext_boundary hws hmax (Nat.zero_add ws.length) hfuel
    rw [boundary_zero, ← List.range_eq_range'] at hwalk
    exact hwalk
  · intro fuel hfuel
    have hwalk := visitPrev_boundary hws hmax (Nat.le_refl ws.length) hfuel
    rw [boundary_length] at hwalk
    rw [toInt_of_lt hmax]
    exact hwalk
  · intro k c hk s hs
    have hc := (hws c (List.mem_of_getElem? hk)).1
    have hlength : boundary ws (k + 1) - boundary ws k = (encodeChar c).length := by
      rw [boundary_succ hk, Nat.add_sub_cancel_left]
    have hstart : ∃ t, s = encodeChar c ++ t := by
      rw [slice_boundary hk, drop_boundary hk, List.mem_pair] at hs
      rcases hs with rfl | rfl
      · exact ⟨[], (List.append_nil _).symm⟩
      · exact ⟨_, rfl⟩
    obtain ⟨t, rfl⟩ := hstart
    rw [hlength]
    exact ⟨utf8ChrLen_encodeChar_append hc t, utf8Codepoint_encodeChar_append hc t⟩

/-- Characters of one to four bytes. -/
theorem cursorsAgree_widths : CursorsAgree [0x61, 0xE9, 0x20AC, 0x1F600] ∧
    boundaries [0x61, 0xE9, 0x20AC, 0x1F600] = [0, 1, 3, 6, 10] :=
  ⟨cursorsAgree (by decide) (by decide), by decide⟩

/-! ## Texts that are too long for an `int` -/

/-- The cursor that goes back starts at the length of the text as an `int`. -/
theorem length_lt_of_cursorsAgree {ws : List Nat} (h : CursorsAgree ws) :
    (ws.flatMap encodeChar).length < 2 ^ 31 := by
  have hback := h.backward (ws.length + 1) (Nat.lt_succ_self _)
  have hhead : ∀ i stops, visitPrev (ws.flatMap encodeChar) (ws.length + 1) i = .ok stops →
      stops.head? = some i := by
    intro i stops hvisit
    rw [visitPrev] at hvisit
    split at hvisit
    · obtain ⟨_, -, hvisit⟩ := bind_ok_iff.mp hvisit
      obtain ⟨_, -, hvisit⟩ := bind_ok_iff.mp hvisit
      rw [← Except.ok.inj hvisit]
      rfl
    · rw [← Except.ok.inj hvisit]
      rfl
  have hstart := hhead _ _ hback
  simp only [boundaries, List.range_succ, List.map_append, List.map_cons, List.map_nil,
    List.reverse_append, List.reverse_cons, List.reverse_nil, List.nil_append,
    List.singleton_append, List.head?_cons, Option.some.injEq, boundary_length] at hstart
  have hint := isInt_toInt (ws.flatMap encodeChar).length
  rw [← hstart] at hint
  have hlt := hint.2
  omega

/-- A text of 2^31 letters: its length is no `int`. -/
theorem not_cursorsAgree_long : (∀ c ∈ List.replicate (2 ^ 31) 0x61, isScalar c ∧ c ≠ 0) ∧
    ¬ CursorsAgree (List.replicate (2 ^ 31) 0x61) := by
  constructor
  · intro c hc
    rw [List.eq_of_mem_replicate hc]
    decide
  · intro h
    have hlt := length_lt_of_cursorsAgree h
    have hbyte : (encodeChar 0x61).length = 1 := by decide
    rw [List.length_flatMap, List.map_replicate, List.sum_replicate, hbyte] at hlt
    simp at hlt

end LibSwish3
