import Nori.Butil.Hash
import Mathlib.Data.List.Lex

/-!
# `butil` strings

Splitting, trimming and the decimal conversions of `butil/strings`, on byte strings.
-/

namespace Butil

open List UInt8

instance linearOrderUInt8 : LinearOrder UInt8 where
  le_refl := UInt8.le_refl
  le_trans _ _ _ := UInt8.le_trans
  le_antisymm _ _ := UInt8.le_antisymm
  le_total := UInt8.le_total
  toDecidableLE := inferInstance
  lt_iff_le_not_ge a b := by
    simp only [lt_iff_toNat_lt, le_iff_toNat_le]
    omega

/-- The bytes of a literal text. -/
def bytes (s : String) : Bytes := s.toByteArray.data.toList

/-- `kWhitespaceASCII`, and `isspace` of the C locale: tab to carriage return, and space. -/
def isWhitespace (c : UInt8) : Bool := (9 ≤ c && c ≤ 13) || c == 32

/-- `TrimWhitespace(s, TRIM_ALL)`. -/
def trimWhitespace (s : Bytes) : Bytes :=
  ((s.dropWhile isWhitespace).reverse.dropWhile isWhitespace).reverse

/-- The loop of `SplitString`: `tmp` is the piece being read, `r` the pieces cut so far. An empty
or all-whitespace source gives no piece at all. -/
def splitStringLoop (sep : UInt8) : Bytes → Bytes → List Bytes → List Bytes
  | [], tmp, r => if r ≠ [] ∨ trimWhitespace tmp ≠ [] then r ++ [trimWhitespace tmp] else r
  | c :: cs, tmp, r =>
    if c = sep then splitStringLoop sep cs [] (r ++ [trimWhitespace tmp])
    else splitStringLoop sep cs (tmp ++ [c]) r

/-- `SplitString(str, sep, &r)`. -/
def splitString (str : Bytes) (sep : UInt8) : List Bytes := splitStringLoop sep str [] []

/-! ## Printing -/

/-- The character of a decimal digit. -/
def digitChar (d : ℕ) : UInt8 := ofNat (48 + d % 10)

/-- The digit loop of `IntToString`, filling the buffer from its end: `fuel` is the room left. -/
def decimalLoop : ℕ → ℕ → Bytes → Bytes
  | 0, _, out => out
  | fuel + 1, res, out =>
    if res / 10 = 0 then digitChar res :: out
    else decimalLoop fuel (res / 10) (digitChar res :: out)

/-- `IntToString` on an `int`: ten digits always suffice for its magnitude. -/
def intToString (value : Int32) : Bytes :=
  let digits := decimalLoop 10 value.toInt.natAbs []
  if value.toInt < 0 then 45 :: digits else digits

/-- The value of a digit string, most significant digit first. -/
def decimalValue (s : Bytes) : ℕ := s.foldl (fun n c => 10 * n + (c.toNat - 48)) 0

theorem toNat_digitChar (d : ℕ) : (digitChar d).toNat = 48 + d % 10 := by
  unfold digitChar
  rw [toNat_ofNat']
  omega

theorem foldl_decimalLoop (fuel n : ℕ) (out : Bytes) (hn : n < 10 ^ fuel) (hf : 0 < fuel) :
    decimalValue (decimalLoop fuel n out) = out.foldl (fun n c => 10 * n + (c.toNat - 48)) n := by
  induction fuel generalizing n out with
  | zero => omega
  | succ fuel ih =>
    -- the digit written last is the one the value is missing
    have hd : 10 * (n / 10) + ((digitChar n).toNat - 48) = n := by
      rw [toNat_digitChar]
      omega
    unfold decimalLoop
    split
    · next h0 =>
      rw [h0] at hd
      simp only [decimalValue, foldl_cons]
      rw [hd]
    · next h0 =>
      have hlt : n / 10 < 10 ^ fuel := by
        rw [Nat.pow_succ] at hn
        omega
      have hpos : 0 < fuel := by
        rcases Nat.eq_zero_or_pos fuel with rfl | h
        · simp at hlt
          omega
        · exact h
      rw [ih (n / 10) (digitChar n :: out) hlt hpos, foldl_cons, hd]

variable (value : Int32) {sep : UInt8} (n : ℕ)

theorem decimalValue_decimalLoop (hn : n < 10 ^ 10) : decimalValue (decimalLoop 10 n []) = n :=
  foldl_decimalLoop 10 n [] hn (by omega)

theorem digit_of_mem_decimalLoop (fuel n : ℕ) (out : Bytes) {c : UInt8}
    (h : c ∈ decimalLoop fuel n out) : c ∈ out ∨ (48 ≤ c.toNat ∧ c.toNat ≤ 57) := by
  have hd : 48 ≤ (digitChar n).toNat ∧ (digitChar n).toNat ≤ 57 := by
    rw [toNat_digitChar]
    omega
  induction fuel generalizing n out with
  | zero => exact Or.inl h
  | succ fuel ih =>
    unfold decimalLoop at h
    split at h
    · rcases mem_cons.mp h with rfl | h
      · exact Or.inr hd
      · exact Or.inl h
    · have hd' : 48 ≤ (digitChar (n / 10)).toNat ∧ (digitChar (n / 10)).toNat ≤ 57 := by
        rw [toNat_digitChar]
        omega
      rcases ih (n / 10) (digitChar n :: out) h hd' with h | h
      · rcases mem_cons.mp h with rfl | h
        · exact Or.inr hd
        · exact Or.inl h
      · exact Or.inr h

theorem natAbs_toInt_lt : value.toInt.natAbs < 10 ^ 10 := by
  have h₁ := value.toInt_lt
  have h₂ := value.le_toInt
  omega

theorem mem_intToString {value : Int32} {c : UInt8} (h : c ∈ intToString value) :
    c = 45 ∨ (48 ≤ c.toNat ∧ c.toNat ≤ 57) := by
  unfold intToString at h
  split at h
  · rcases mem_cons.mp h with h | h
    · exact Or.inl h
    · rcases digit_of_mem_decimalLoop _ _ _ h with h | h
      · simp at h
      · exact Or.inr h
  · rcases digit_of_mem_decimalLoop _ _ _ h with h | h
    · simp at h
    · exact Or.inr h

theorem colon_notMem_intToString : (58 : UInt8) ∉ intToString value := by
  intro h
  rcases mem_intToString h with h | h
  · exact absurd h (by decide)
  · exact absurd h.2 (by decide)

theorem underscore_notMem_intToString : (95 : UInt8) ∉ intToString value := by
  intro h
  rcases mem_intToString h with h | h
  · exact absurd h (by decide)
  · exact absurd h.2 (by decide)

theorem append_separator_inj {a b s t : Bytes} (hs : sep ∉ s) (ht : sep ∉ t)
    (h : a ++ sep :: s = b ++ sep :: t) : a = b ∧ s = t := by
  -- the last separator is the one before the tail: the heads are walked off together
  induction a generalizing b with
  | nil =>
    cases b with
    | nil => exact ⟨rfl, (cons.inj h).2⟩
    | cons c b =>
      have hmem : sep ∈ s := by
        rw [(cons.inj h).2]
        simp
      exact absurd hmem hs
  | cons c a ih =>
    cases b with
    | nil =>
      have hmem : sep ∈ t := by
        rw [← (cons.inj h).2]
        simp
      exact absurd hmem ht
    | cons d b =>
      obtain ⟨rfl, hrest⟩ := cons.inj h
      obtain ⟨rfl, hst⟩ := ih hrest
      exact ⟨rfl, hst⟩

theorem decimalLoop_ne_minus_cons (s : Bytes) : decimalLoop 10 n [] ≠ 45 :: s := by
  intro h
  have hmem : (45 : UInt8) ∈ decimalLoop 10 n [] := h ▸ mem_cons_self
  rcases digit_of_mem_decimalLoop _ _ _ hmem with h | h
  · simp at h
  · exact absurd h.1 (by decide)

theorem intToString_injective : Function.Injective intToString := by
  intro a b hab
  have ha := decimalValue_decimalLoop _ (natAbs_toInt_lt a)
  have hb := decimalValue_decimalLoop _ (natAbs_toInt_lt b)
  unfold intToString at hab
  dsimp only at hab
  refine Int32.toInt_inj.mp ?_
  -- the sign is told by the first character, the magnitude by the digits
  split at hab <;> split at hab
  · have habs : a.toInt.natAbs = b.toInt.natAbs := by rw [← ha, ← hb, (cons.inj hab).2]
    omega
  · exact absurd hab.symm (decimalLoop_ne_minus_cons _ _)
  · exact absurd hab (decimalLoop_ne_minus_cons _ _)
  · have habs : a.toInt.natAbs = b.toInt.natAbs := by rw [← ha, ← hb, hab]
    omega

/-! ## Reading -/

/-- The digit loop of `StringToInt` on one sign: it stops at the first character that is not a
digit, and at the limit of the type when the next digit would pass it. -/
def parseDigits (neg : Bool) : ℤ → Bytes → ℤ × Bool
  | out, [] => (out, true)
  | out, c :: cs =>
    if 48 ≤ c ∧ c ≤ 57 then
      let next := if neg then 10 * out - (c.toNat - 48) else 10 * out + (c.toNat - 48)
      if next < -2147483648 then (-2147483648, false)
      else if 2147483647 < next then (2147483647, false)
      else parseDigits neg next cs
    else (out, false)

/-- One sign of `StringToInt`: an empty digit string is refused with the output at zero. -/
def parseSigned (neg : Bool) (s : Bytes) : ℤ × Bool :=
  if s = [] then (0, false) else parseDigits neg 0 s

/-- `StringToInt`: the output, written also when the text is refused, and whether it was
accepted. -/
def stringToInt (input : Bytes) : Int32 × Bool :=
  let valid := !(input.head?.any isWhitespace)
  let s := input.dropWhile isWhitespace
  let r := match s with
    | 45 :: cs => parseSigned true cs
    | 43 :: cs => parseSigned false cs
    | cs => parseSigned false cs
  (Int32.ofInt r.1, valid && r.2)

/-! ## Reading what was printed -/

/-- A magnitude with a sign. -/
def signed (neg : Bool) (n : ℕ) : ℤ := if neg then -n else n

theorem le_foldl_decimal (s : Bytes) : n ≤ s.foldl (fun n c => 10 * n + (c.toNat - 48)) n := by
  induction s generalizing n with
  | nil => exact le_rfl
  | cons c cs ih => exact le_trans (by omega) (ih (10 * n + (c.toNat - 48)))

theorem parseDigits_eq (neg : Bool) {s : Bytes} (hs : ∀ c ∈ s, 48 ≤ c.toNat ∧ c.toNat ≤ 57)
    {n : ℕ} (hlow : -2147483648 ≤ signed neg (s.foldl (fun n c => 10 * n + (c.toNat - 48)) n))
    (hhigh : signed neg (s.foldl (fun n c => 10 * n + (c.toNat - 48)) n) ≤ 2147483647) :
    parseDigits neg (signed neg n) s =
      (signed neg (s.foldl (fun n c => 10 * n + (c.toNat - 48)) n), true) := by
  induction s generalizing n with
  | nil => rfl
  | cons c cs ih =>
    have hc := hs c mem_cons_self
    have hdigit : (48 : UInt8) ≤ c ∧ c ≤ 57 := by simpa [le_iff_toNat_le] using hc
    have hnext : (if neg then 10 * signed neg n - ((c.toNat : ℤ) - 48)
        else 10 * signed neg n + ((c.toNat : ℤ) - 48)) =
        signed neg (10 * n + (c.toNat - 48)) := by
      cases neg <;> simp only [signed, Bool.false_eq_true, if_true, if_false] <;> omega
    rw [foldl_cons] at hlow hhigh
    -- no prefix is above the whole number, so no limit is met on the way
    have hmono := le_foldl_decimal (10 * n + (c.toNat - 48)) cs
    have hin : -2147483648 ≤ signed neg (10 * n + (c.toNat - 48)) ∧
        signed neg (10 * n + (c.toNat - 48)) ≤ 2147483647 := by
      cases neg <;> simp only [signed, Bool.false_eq_true, if_true, if_false] at hlow hhigh ⊢ <;>
        omega
    rw [parseDigits, if_pos hdigit]
    simp only [hnext]
    rw [if_neg (by omega), if_neg (by omega)]
    exact ih (fun d hd => hs d (mem_cons_of_mem c hd)) hlow hhigh

theorem decimalLoop_ne_nil : decimalLoop 10 n [] ≠ [] := by
  have hgen : ∀ fuel n out, out ≠ [] → decimalLoop fuel n out ≠ [] := by
    intro fuel
    induction fuel with
    | zero => exact fun _ _ h => h
    | succ fuel ih =>
      intro n out _
      unfold decimalLoop
      split
      · exact cons_ne_nil _ _
      · exact ih _ _ (cons_ne_nil _ _)
  unfold decimalLoop
  split
  · exact cons_ne_nil _ _
  · exact hgen _ _ _ (cons_ne_nil _ _)

theorem parseSigned_decimalLoop (neg : Bool) {n : ℕ} (hlow : -2147483648 ≤ signed neg n)
    (hhigh : signed neg n ≤ 2147483647) :
    parseSigned neg (decimalLoop 10 n []) = (signed neg n, true) := by
  have hbound : n < 10 ^ 10 := by
    cases neg <;> simp only [signed, Bool.false_eq_true, if_true, if_false] at hlow hhigh <;> omega
  have hvalue : (decimalLoop 10 n []).foldl (fun n c => 10 * n + (c.toNat - 48)) 0 = n :=
    decimalValue_decimalLoop n hbound
  have hdigits : ∀ c ∈ decimalLoop 10 n [], 48 ≤ c.toNat ∧ c.toNat ≤ 57 := by
    intro c hc
    exact (digit_of_mem_decimalLoop _ _ _ hc).resolve_left not_mem_nil
  rw [parseSigned, if_neg (decimalLoop_ne_nil n)]
  have hparse := parseDigits_eq neg hdigits (n := 0) (by rwa [hvalue]) (by rwa [hvalue])
  rw [hvalue] at hparse
  rw [← hparse]
  cases neg <;> rfl

theorem isWhitespace_of_mem_intToString {value : Int32} {c : UInt8} (h : c ∈ intToString value) :
    isWhitespace c = false := by
  rcases mem_intToString h with rfl | ⟨hlow, -⟩
  · rfl
  · have h13 : ¬c ≤ 13 := by
      simp only [le_iff_toNat_le, reduceToNat]
      omega
    have h32 : ¬c = 32 := by
      rintro rfl
      simp at hlow
    simp [isWhitespace, h13, h32]

theorem trimWhitespace_eq_self {s : Bytes} (hhead : s.head?.any isWhitespace = false)
    (hlast : s.getLast?.any isWhitespace = false) : trimWhitespace s = s := by
  have hdrop : ∀ t : Bytes, t.head?.any isWhitespace = false → t.dropWhile isWhitespace = t := by
    rintro (_ | ⟨c, cs⟩) h
    · rfl
    · exact dropWhile_cons_of_neg (by simpa using h)
  rw [trimWhitespace, hdrop s hhead, hdrop, reverse_reverse]
  rwa [head?_reverse]

theorem trimWhitespace_intToString : trimWhitespace (intToString value) = intToString value := by
  refine trimWhitespace_eq_self ?_ ?_
  · cases h : (intToString value).head? with
    | none => rfl
    | some c => exact isWhitespace_of_mem_intToString (mem_of_head? h)
  · cases h : (intToString value).getLast? with
    | none => rfl
    | some c => exact isWhitespace_of_mem_intToString (mem_of_getLast? h)

/-- A printed number reads back. -/
theorem stringToInt_intToString : stringToInt (intToString value) = (value, true) := by
  have hdrop : (intToString value).dropWhile isWhitespace = intToString value ∧
      (intToString value).head?.any isWhitespace = false := by
    cases h : intToString value with
    | nil => exact ⟨rfl, rfl⟩
    | cons c cs =>
      have hc := isWhitespace_of_mem_intToString (h ▸ mem_cons_self : c ∈ intToString value)
      exact ⟨dropWhile_cons_of_neg (by simp [hc]), by simpa using hc⟩
  have h₁ := value.toInt_lt
  have h₂ := value.le_toInt
  rw [stringToInt, hdrop.1, hdrop.2]
  by_cases hneg : value.toInt < 0
  · have hstring : intToString value = 45 :: decimalLoop 10 value.toInt.natAbs [] := by
      simp [intToString, hneg]
    have hsigned : signed true value.toInt.natAbs = value.toInt := by
      simp only [signed, if_true]
      omega
    simp only [hstring]
    rw [parseSigned_decimalLoop true (by omega) (by omega), hsigned]
    simp
  · have hstring : intToString value = decimalLoop 10 value.toInt.natAbs [] := by
      simp [intToString, hneg]
    have hsigned : signed false value.toInt.natAbs = value.toInt := by
      simp only [signed, Bool.false_eq_true, if_false]
      omega
    have hplus : ∀ cs, decimalLoop 10 value.toInt.natAbs [] ≠ 43 :: cs := by
      intro cs h
      have hmem : (43 : UInt8) ∈ decimalLoop 10 value.toInt.natAbs [] := h ▸ mem_cons_self
      rcases digit_of_mem_decimalLoop _ _ _ hmem with h | h
      · simp at h
      · exact absurd h.1 (by decide)
    rw [hstring]
    split
    · rename_i cs h
      exact absurd h (decimalLoop_ne_minus_cons _ _)
    · rename_i cs h
      exact absurd h (hplus cs)
    · rw [parseSigned_decimalLoop false (by omega) (by omega), hsigned]
      simp

theorem splitStringLoop_of_notMem {s : Bytes} (hs : sep ∉ s) (tmp : Bytes)
    (r : List Bytes) (rest : Bytes) : splitStringLoop sep (s ++ sep :: rest) tmp r =
      splitStringLoop sep rest [] (r ++ [trimWhitespace (tmp ++ s)]) := by
  induction s generalizing tmp with
  | nil => simp [splitStringLoop]
  | cons c cs ih =>
    have hc : c ≠ sep := fun h => hs (h ▸ mem_cons_self)
    rw [cons_append, splitStringLoop, if_neg hc, ih fun h => hs (mem_cons_of_mem c h)]
    simp

theorem splitStringLoop_last {s : Bytes} (hs : sep ∉ s) (tmp : Bytes)
    {r : List Bytes} (hr : r ≠ []) :
    splitStringLoop sep s tmp r = r ++ [trimWhitespace (tmp ++ s)] := by
  induction s generalizing tmp with
  | nil => simp [splitStringLoop, hr]
  | cons c cs ih =>
    have hc : c ≠ sep := fun h => hs (h ▸ mem_cons_self)
    rw [splitStringLoop, if_neg hc, ih fun h => hs (mem_cons_of_mem c h)]
    simp

/-- Two fields are split at their separator. -/
theorem splitString_two {s t : Bytes} (hs : sep ∉ s) (ht : sep ∉ t) :
    splitString (s ++ sep :: t) sep = [trimWhitespace s, trimWhitespace t] := by
  rw [splitString, splitStringLoop_of_notMem hs, splitStringLoop_last ht _ (by simp)]
  simp

end Butil
