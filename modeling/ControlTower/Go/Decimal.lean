import ControlTower.Go.Rational
import Mathlib.Algebra.Order.Field.Rat
import Mathlib.Data.List.TakeWhile
import Mathlib.Data.Rat.Floor
import Mathlib.Tactic.FieldSimp
import Mathlib.Tactic.Positivity
import Mathlib.Tactic.Ring

/-! Numbers written and read back.

A rational with at most `d` decimal places is what `FloatString` writes with `d` of
them: reading the text gives it back. An integer is told by its decimal text, which
holds no other characters than digits and a sign. -/
namespace ControlTower.Go
open List

/-! ### Integers -/

/-- `strconv.FormatInt` with base ten. -/
def formatInt (n : Int) : String := toString n

theorem toList_formatInt_natCast (n : Nat) : (formatInt n).toList = Nat.toDigits 10 n := by
  show (Nat.repr n).toList = _
  exact Nat.toList_repr

theorem toList_formatInt_negSucc (n : Nat) : (formatInt (Int.negSucc n)).toList = '-' :: Nat.toDigits 10 (n + 1) := by
  show ("-" ++ Nat.repr (n + 1)).toList = _
  simp [String.toList_append]

theorem isDigit_of_mem_formatInt {n : Int} {c : Char} (h : c ∈ (formatInt n).toList) : c.isDigit ∨ c = '-' := by
  cases n with
  | ofNat n =>
    rw [Int.ofNat_eq_natCast, toList_formatInt_natCast] at h
    exact .inl (Nat.isDigit_of_mem_toDigits (by decide) (by decide) h)
  | negSucc n =>
    rw [toList_formatInt_negSucc] at h
    rcases mem_cons.mp h with h | h
    · exact .inr h
    · exact .inl (Nat.isDigit_of_mem_toDigits (by decide) (by decide) h)

theorem toDigits_injective {m n : Nat} (h : Nat.toDigits 10 m = Nat.toDigits 10 n) : m = n := by
  rw [← Nat.ofDigitChars_ten_toDigits (n := m), h, Nat.ofDigitChars_ten_toDigits]

variable {cs : List Char}

theorem toDigits_ne_minus {n : Nat} : Nat.toDigits 10 n ≠ '-' :: cs := by
  intro h
  have hdigit := Nat.isDigit_of_mem_toDigits (b := 10) (n := n) (c := '-') (by decide) (by decide) (by simp [h])
  simp at hdigit

theorem formatInt_injective {m n : Int} (h : formatInt m = formatInt n) : m = n := by
  have hlist := congrArg String.toList h
  cases m with
  | ofNat m =>
    cases n with
    | ofNat n =>
      rw [Int.ofNat_eq_natCast, Int.ofNat_eq_natCast, toList_formatInt_natCast, toList_formatInt_natCast] at hlist
      rw [toDigits_injective hlist]
    | negSucc n =>
      rw [Int.ofNat_eq_natCast, toList_formatInt_natCast, toList_formatInt_negSucc] at hlist
      exact absurd hlist toDigits_ne_minus
  | negSucc m =>
    cases n with
    | ofNat n =>
      rw [Int.ofNat_eq_natCast, toList_formatInt_natCast, toList_formatInt_negSucc] at hlist
      exact absurd hlist.symm toDigits_ne_minus
    | negSucc n =>
      rw [toList_formatInt_negSucc, toList_formatInt_negSucc, List.cons.injEq] at hlist
      rw [Nat.succ_injective (toDigits_injective hlist.2)]

/-! ### Decimals -/

/-- At most `d` decimal places. -/
def HasPlaces (d : Nat) (x : Rat) : Prop := ∃ n : Int, x = n / 10 ^ d

variable {d : Nat}

theorem HasPlaces.add {x y : Rat} (hx : HasPlaces d x) (hy : HasPlaces d y) : HasPlaces d (x + y) := by
  obtain ⟨m, rfl⟩ := hx
  obtain ⟨n, rfl⟩ := hy
  exact ⟨m + n, by push_cast; ring⟩

/-- The digits that `FloatString` writes. -/
def scaled (x : Rat) (d : Nat) : Nat := (2 * x.num.natAbs * 10 ^ d + x.den) / (2 * x.den)

theorem scaled_of_places {n : Int} {x : Rat} (h : x = n / 10 ^ d) : scaled x d = n.natAbs := by
  have hcross : x.num * 10 ^ d = n * x.den := by
    have hden : (x.den : ℚ) ≠ 0 := Nat.cast_ne_zero.mpr x.den_ne_zero
    have hx : (x.num : ℚ) / x.den = n / 10 ^ d := by rw [Rat.num_div_den, h]
    rw [div_eq_div_iff hden (by positivity)] at hx
    exact_mod_cast hx
  have habs : x.num.natAbs * 10 ^ d = n.natAbs * x.den := by
    have := congrArg Int.natAbs hcross
    simpa [Int.natAbs_mul, Int.natAbs_pow] using this
  have hpos := x.den_pos
  rw [scaled, Nat.mul_assoc, habs]
  have hsplit : 2 * (n.natAbs * x.den) + x.den = x.den + 2 * x.den * n.natAbs := by ring
  rw [hsplit, Nat.add_mul_div_left _ _ (by omega), Nat.div_eq_of_lt (by omega), Nat.zero_add]

/-- The characters of the text: a sign, the whole part and the places. -/
theorem toList_floatString (x : Rat) (hd : d ≠ 0) :
    (floatString x d).toList = (if x < 0 then ['-'] else []) ++ Nat.toDigits 10 (scaled x d / 10 ^ d) ++ '.' ::
      (List.replicate (d - (Nat.toDigits 10 (scaled x d % 10 ^ d)).length) '0' ++ Nat.toDigits 10 (scaled x d % 10 ^ d)) := by
  unfold floatString scaled
  simp only [hd, if_false]
  rw [← String.length_toList]
  split <;> simp [String.toList_append]

/-! ### Reading -/

theorem isDigit_of_mem_toDigits {n : Nat} {c : Char} (h : c ∈ Nat.toDigits 10 n) : c.isDigit = true :=
  Nat.isDigit_of_mem_toDigits (by decide) (by decide) h

theorem ne_of_isDigit {c d : Char} (h : c.isDigit = true) (hd : d.isDigit = false) : c ≠ d := by
  rintro rfl
  rw [h] at hd
  cases hd

/-- A number with digits only is read to its last digit. -/
theorem scanDigits_digits {fracOk : Bool} {digits : List Char} (h : ∀ c ∈ digits, c.isDigit = true)
    (hne : digits ≠ []) (s : Scan) (rest : List Char) :
    scanDigits 10 fracOk s (digits ++ rest) = scanDigits 10 fracOk { s with
      value := Nat.ofDigitChars 10 digits s.value, count := s.count + digits.length, prev := '0' } rest := by
  induction digits generalizing s with
  | nil => exact absurd rfl hne
  | cons c cs ih =>
    obtain ⟨hc, hcs⟩ := forall_mem_cons.mp h
    have hvalue : digitValue c = c.toNat - 48 := if_pos hc
    have hlt : digitValue c < 10 := by
      have : c.toNat ≤ 57 := (Char.isDigit_iff_toNat.mp hc).2
      omega
    rw [cons_append, scanDigits, if_neg fun hpoint => ne_of_isDigit hc rfl hpoint.1,
      if_neg (ne_of_isDigit hc rfl), if_pos hlt, hvalue]
    cases cs with
    | nil => rfl
    | cons d ds =>
      rw [ih hcs (by simp), length_cons (a := c)]
      simp only [Nat.add_right_comm s.count, ← Nat.add_assoc]
      rfl

theorem basePrefix_decimal (h : ∀ c ∈ cs, c.isDigit = true ∨ c = '.') :
    basePrefix true cs = (10, {}, cs) := by
  unfold basePrefix
  split
  · next c cs =>
    have hc : ∀ d : Char, d.isDigit = false → d ≠ '.' → c ≠ d := fun d hd hpoint heq => by
      rcases h c (by simp) with hdigit | rfl
      · exact ne_of_isDigit hdigit hd heq
      · exact hpoint heq.symm
    simp [hc]
  · rfl

theorem power_neg_natCast (base d : Nat) : power base (-(d : Int)) = 1 / (base : ℚ) ^ d := by
  cases d with
  | zero => simp [power]
  | succ d =>
    have hneg : ¬ (0 : Int) ≤ -((d + 1 : Nat) : Int) := by omega
    rw [power, if_neg hneg, neg_neg, Int.toNat_natCast, Nat.cast_pow]

/-- Digits, a point and more digits. -/
theorem floatSetString_point {whole fraction : List Char} (hwhole : ∀ c ∈ whole, c.isDigit = true) (hne : whole ≠ [])
    (hfraction : ∀ c ∈ fraction, c.isDigit = true) (hpos : fraction ≠ []) (hlimit : fraction.length ≤ 1000000) :
    floatSetString (whole ++ '.' :: fraction) =
      some ((Nat.ofDigitChars 10 (whole ++ fraction) 0 : ℚ) / 10 ^ fraction.length) := by
  have hscan : natScan true (whole ++ '.' :: fraction) =
      some (Nat.ofDigitChars 10 (whole ++ fraction) 0, 10, fraction.length, []) := by
    have hchars : ∀ c ∈ whole ++ '.' :: fraction, c.isDigit = true ∨ c = '.' := by
      simp only [mem_append, mem_cons]
      rintro c (hc | rfl | hc)
      · exact .inl (hwhole c hc)
      · exact .inr rfl
      · exact .inl (hfraction c hc)
    have hall : scanDigits 10 true {} (whole ++ '.' :: fraction) = (⟨Nat.ofDigitChars 10 (whole ++ fraction) 0,
        whole.length + fraction.length, some whole.length, '0', false⟩, []) := by
      rw [scanDigits_digits hwhole hne, scanDigits, if_pos (by simp), ← append_nil fraction,
        scanDigits_digits hfraction hpos]
      simp [scanDigits, Nat.ofDigitChars_append]
    simp [natScan, basePrefix_decimal hchars, hall, Scan.ok, hne]
  have hexponent : ¬ (10 ^ 6 < (-(fraction.length : Int)).natAbs ∨ 10 ^ 7 < (-(fraction.length : Int)).natAbs) := by omega
  have hten : (10 : ℚ) ^ fraction.length = 5 ^ fraction.length * 2 ^ fraction.length := by rw [← mul_pow]; norm_num
  simp only [floatSetString, hscan, scanExponent, Option.bind_eq_bind, Option.bind_some, if_true, add_zero, zero_sub,
    Nat.reduceEqDiff, Int.mul_one, ne_eq, not_true_eq_false, if_false, hexponent, power_neg_natCast, hten]
  split
  · next hzero => simp [hzero]
  · push_cast
    congr 1
    field_simp

theorem signed_of_digit (h : ∀ c ∈ cs.head?, c.isDigit = true) : signed cs = (false, cs) := by
  cases cs with
  | nil => rfl
  | cons c cs =>
    have hc := h c rfl
    unfold signed
    split
    · next heq => cases heq; simp at hc
    · next heq => cases heq; simp at hc
    · rfl

theorem ratSetString_unsigned (h : ∀ c ∈ cs, c.isDigit = true ∨ c = '.') (hhead : ∀ c ∈ cs.head?, c.isDigit = true)
    (negative : Bool) : ratSetString (String.ofList ((if negative then ['-'] else []) ++ cs)) =
      (floatSetString cs).map fun x => if negative then -x else x := by
  have hslash : ∀ c ∈ cs, (c != '/') = true := by
    intro c hc
    rcases h c hc with hdigit | rfl
    · exact bne_iff_ne.mpr (ne_of_isDigit hdigit rfl)
    · rfl
  have hspan : cs.span (· != '/') = (cs, []) := by
    rw [span_eq_takeWhile_dropWhile, takeWhile_eq_self_iff.mpr hslash, dropWhile_eq_nil_iff.mpr hslash]
  have hsigned : signed ((if negative then ['-'] else []) ++ cs) = (negative, cs) := by
    cases negative with
    | true => rfl
    | false => exact signed_of_digit hhead
  simp only [ratSetString, String.toList_ofList, hsigned, hspan]

/-- What `FloatString` writes of a number is read back as the number rounded. -/
theorem ratSetString_floatString (hd : 0 < d ∧ d ≤ 1000000) (x : Rat) : ratSetString (floatString x d) =
    some (if x < 0 then -((scaled x d : Rat) / 10 ^ d) else (scaled x d : Rat) / 10 ^ d) := by
  have hlength : (Nat.toDigits 10 (scaled x d % 10 ^ d)).length ≤ d :=
    (Nat.length_toDigits_le_iff (by decide) hd.1).mpr (Nat.mod_lt _ (Nat.pow_pos (by decide)))
  have htext := toList_floatString x hd.1.ne'
  generalize hwhole : Nat.toDigits 10 (scaled x d / 10 ^ d) = whole at htext
  generalize hfraction : List.replicate (d - (Nat.toDigits 10 (scaled x d % 10 ^ d)).length) '0' ++
    Nat.toDigits 10 (scaled x d % 10 ^ d) = fraction at htext
  have hwholedigits : ∀ c ∈ whole, c.isDigit = true := by
    rw [← hwhole]
    exact fun c hc => isDigit_of_mem_toDigits hc
  have hfractiondigits : ∀ c ∈ fraction, c.isDigit = true := by
    rw [← hfraction]
    intro c hc
    rcases mem_append.mp hc with hc | hc
    · rw [eq_of_mem_replicate hc]
      rfl
    · exact isDigit_of_mem_toDigits hc
  have hplaces : fraction.length = d := by
    rw [← hfraction, length_append, length_replicate]
    omega
  have hvalue : Nat.ofDigitChars 10 (whole ++ fraction) 0 = scaled x d := by
    rw [Nat.ofDigitChars_append, Nat.ofDigitChars_eq_ofDigitChars_zero, hplaces, ← hwhole, Nat.ofDigitChars_ten_toDigits,
      ← hfraction, Nat.ofDigitChars_append, Nat.ofDigitChars_replicate_zero, Nat.mul_zero, Nat.ofDigitChars_ten_toDigits, Nat.div_add_mod]
  have hne : whole ≠ [] := hwhole ▸ Nat.toDigits_ne_nil
  have hne' : fraction ≠ [] := length_pos_iff.mp (by omega)
  rw [← String.ofList_toList (s := floatString x d), htext, append_assoc]
  have hsign : (if x < 0 then ['-'] else []) = if decide (x < 0) = true then ['-'] else [] := by simp
  rw [hsign, ratSetString_unsigned, floatSetString_point hwholedigits hne hfractiondigits hne' (hplaces ▸ hd.2),
    Option.map_some, hvalue, hplaces]
  · simp only [decide_eq_true_eq]
  · intro c hc
    rcases mem_append.mp hc with hc | hc
    · exact .inl (hwholedigits c hc)
    · rcases mem_cons.mp hc with hc | hc
      · exact .inr hc
      · exact .inl (hfractiondigits c hc)
  · intro c hc
    rw [List.head?_append_of_ne_nil _ hne] at hc
    exact hwholedigits c (mem_of_mem_head? hc)

/-- **What `FloatString` writes is read back**, where the number has no more places. -/
theorem ratSetString_places (hd : 0 < d ∧ d ≤ 1000000) {x : Rat} (hx : HasPlaces d x) :
    ratSetString (floatString x d) = some x := by
  obtain ⟨n, hn⟩ := hx
  have hpow : (0 : ℚ) < 10 ^ d := by positivity
  have hnegative : (n : ℚ) / 10 ^ d < 0 ↔ n < 0 := by rw [div_lt_iff₀ hpow, zero_mul, Int.cast_lt_zero]
  rw [ratSetString_floatString hd, scaled_of_places hn, hn]
  simp only [hnegative, ← neg_div]
  congr 1
  split
  · next hlt => rw [← Int.cast_natCast, Int.ofNat_natAbs_of_nonpos hlt.le, Int.cast_neg, neg_neg]
  · next hge => rw [← Int.cast_natCast, Int.natAbs_of_nonneg (not_lt.mp hge)]

/-! ### Rounding -/

/-- The digits are those of the number rounded, halves away from zero. -/
theorem scaled_eq_floor (x : Rat) (d : Nat) : (scaled x d : Int) = ⌊|x| * 10 ^ d + 1 / 2⌋ := by
  have hden : (x.den : ℚ) ≠ 0 := Nat.cast_ne_zero.mpr x.den_ne_zero
  have habs : |x| = (x.num.natAbs : ℚ) / x.den := by
    conv_lhs => rw [← Rat.num_div_den x]
    rw [abs_div, Nat.abs_cast, Nat.cast_natAbs, Int.cast_abs]
  have hquotient : |x| * 10 ^ d + 1 / 2 = ((2 * x.num.natAbs * 10 ^ d + x.den : Nat) : ℚ) / ((2 * x.den : Nat) : ℚ) := by
    rw [habs]
    push_cast
    field_simp
  rw [hquotient, Rat.floor_natCast_div_natCast, scaled, Int.natCast_ediv]

theorem floatString_eq_of_scaled {x y : Rat} (hsign : x < 0 ↔ y < 0) (h : scaled x d = scaled y d) :
    floatString x d = floatString y d := by
  unfold scaled at h
  simp only [floatString, h, hsign]

theorem isSpace_of_isDigit {c : Char} (h : c.isDigit = true) : isSpace c = false := by
  rw [← Bool.not_eq_true, isSpace, Bool.or_eq_true, Bool.and_eq_true, contains_iff_mem, decide_eq_true_eq, decide_eq_true_eq]
  rintro (hlist | ⟨hlow, -⟩)
  · have hnone : (['\t', '\n', '\x0b', '\x0c', '\r', ' ', '\u0085', '\u00a0', '\u1680', '\u2028', '\u2029', '\u202f', '\u205f',
        '\u3000'].all fun c => !c.isDigit) = true := rfl
    have hdigit := all_eq_true.mp hnone c hlist
    rw [h] at hdigit
    cases hdigit
  · have hdigit : c.val.toNat ≤ 57 := by
      simp only [Char.isDigit, Bool.and_eq_true, decide_eq_true_eq, UInt32.le_iff_toNat_le] at h
      exact h.2
    have hlow : 8192 ≤ c.val.toNat := UInt32.le_iff_toNat_le.mp hlow
    omega

theorem trimSpace_eq_self {s : String} (h : ∀ c ∈ s.toList, isSpace c = false) : trimSpace s = s := by
  have hkeep : ∀ l : List Char, (∀ c ∈ l, isSpace c = false) → l.dropWhile isSpace = l := by
    intro l hl
    cases l with
    | nil => rfl
    | cons c l => rw [dropWhile_cons_of_neg (by simp [hl c mem_cons_self])]
  rw [trimSpace, hkeep _ h, hkeep _ fun c hc => h c (mem_reverse.mp hc), reverse_reverse, String.ofList_toList]

theorem trimSpace_floatString (x : Rat) (hd : d ≠ 0) : trimSpace (floatString x d) = floatString x d := by
  refine trimSpace_eq_self fun c hc => ?_
  rw [toList_floatString x hd] at hc
  simp only [mem_append, mem_cons] at hc
  rcases hc with (hc | hc) | rfl | hc | hc
  · split at hc
    · rw [mem_singleton.mp hc]
      decide
    · cases hc
  · exact isSpace_of_isDigit (isDigit_of_mem_toDigits hc)
  · decide
  · rw [eq_of_mem_replicate hc]
    decide
  · exact isSpace_of_isDigit (isDigit_of_mem_toDigits hc)

end ControlTower.Go
